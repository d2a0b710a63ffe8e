import IrohWebrtc.Qr.Modules

/-!
# Where the patterns of a symbol are

The patterns of a symbol write in a few rectangles of it (`patterns_eq_none`), where they
write does not depend on the level and the mask (`patterns_isSome`), and the bits of the type
are found where they were written (`patterns_verticalCell`, `patterns_horizontalCell`).
-/

namespace IrohWebrtc.Qr

/-- Nothing changes but in some cells. -/
def Frame (S : ℤ → ℤ → Prop) (f : Modules → Modules) : Prop := ∀ m r c, ¬ S r c → f m r c = m r c

/-- What is there stays, maybe with another value. -/
def Grows (f : Modules → Modules) : Prop := ∀ m r c, (m r c).isSome → (f m r c).isSome

variable {S T : ℤ → ℤ → Prop} {f g : Modules → Modules} {r c n : ℤ} {m : Modules}
  {typeNumber : ℕ} {level : QRErrorCorrectionLevel} {test : Bool} {maskPattern : Fin 8}

theorem mem_span {first last x : ℤ} : x ∈ span first last ↔ first ≤ x ∧ x ≤ last := by
  rw [span, List.mem_map]
  constructor
  · rintro ⟨k, hk, rfl⟩
    rw [List.mem_range] at hk
    omega
  · rintro ⟨hfirst, hlast⟩
    exact ⟨(x - first).toNat, List.mem_range.2 (by omega), by omega⟩

/-! ## Frames -/

theorem Frame.comp (hf : Frame S f) (hg : Frame S g) : Frame S (fun m => g (f m)) :=
  fun m r c h => (hg (f m) r c h).trans (hf m r c h)

theorem Frame.mono (hf : Frame S f) (h : ∀ r c, S r c → T r c) : Frame T f :=
  fun m r c hT => hf m r c fun hS => hT (h r c hS)

theorem Frame.foldl {β : Type*} {f : Modules → β → Modules} {l : List β}
    (h : ∀ x ∈ l, Frame S (f · x)) : Frame S (l.foldl f) := by
  induction l with
  | nil => exact fun _ _ _ _ => rfl
  | cons x l ih =>
    rw [List.forall_mem_cons] at h
    exact h.1.comp (ih h.2)

theorem Frame.set {row col : ℤ} {dark : Bool} (h : S row col) :
    Frame S (Modules.set · row col dark) := by
  intro m r c hS
  refine Modules.set_ne ?_
  rintro ⟨rfl, rfl⟩
  exact hS h

theorem Frame.ite {p : Modules → Prop} [DecidablePred p] (hf : Frame S f) :
    Frame S (fun m => if p m then m else f m) := by
  intro m r c h
  by_cases hp : p m
  · simp only [if_pos hp]
  · simp only [if_neg hp]
    exact hf m r c h

theorem Grows.foldl {β : Type*} {f : Modules → β → Modules} (l : List β)
    (h : ∀ x, Grows (f · x)) : Grows (l.foldl f) := by
  induction l with
  | nil => exact fun _ _ _ h => h
  | cons x l ih => exact fun m r c hm => ih _ r c (h x m r c hm)

theorem Grows.set {row col : ℤ} {dark : Bool} : Grows (Modules.set · row col dark) := by
  intro m r c hm
  rw [Modules.isSome_set, hm, Bool.or_true]

theorem Grows.ite {p : Modules → Prop} [DecidablePred p] (hf : Grows f) :
    Grows (fun m => if p m then m else f m) := by
  intro m r c hm
  by_cases hp : p m
  · simpa only [if_pos hp] using hm
  · simpa only [if_neg hp] using hf m r c hm

/-- What one of some steps writes is there after them. -/
theorem isSome_foldl {β : Type*} {f : Modules → β → Modules} {l : List β} {x : β}
    (hgrows : ∀ x, Grows (f · x)) (hx : x ∈ l) (h : ∀ m, (f m x r c).isSome) (m : Modules) :
    (l.foldl f m r c).isSome := by
  obtain ⟨l₁, l₂, rfl⟩ := List.append_of_mem hx
  rw [List.foldl_append, List.foldl_cons]
  exact Grows.foldl l₂ hgrows _ r c (h _)

/-! ## Patterns one by one -/

theorem frame_probe (n row col : ℤ) : Frame
    (fun r c => (row - 1 ≤ r ∧ r ≤ row + 7 ∧ 0 ≤ r ∧ r < n) ∧
      (col - 1 ≤ c ∧ c ≤ col + 7 ∧ 0 ≤ c ∧ c < n)) (setupPositionProbePattern n row col) := by
  refine Frame.foldl fun r hr => ?_
  by_cases hrow : row + r ≤ -1 ∨ n ≤ row + r
  · simp only [if_pos hrow]
    exact fun _ _ _ _ => rfl
  · simp only [if_neg hrow]
    refine Frame.foldl fun c hc => ?_
    by_cases hcol : col + c ≤ -1 ∨ n ≤ col + c
    · simp only [if_pos hcol]
      exact fun _ _ _ _ => rfl
    · simp only [if_neg hcol]
      rw [mem_span] at hr hc
      exact Frame.set (by omega)

theorem frame_timing (n : ℤ) : Frame
    (fun r c => (c = 6 ∧ 8 ≤ r ∧ r ≤ n - 9) ∨ (r = 6 ∧ 8 ≤ c ∧ c ≤ n - 9))
    (setupTimingPattern n) := by
  have hrows : Frame (fun r c => (c = 6 ∧ 8 ≤ r ∧ r ≤ n - 9) ∨ (r = 6 ∧ 8 ≤ c ∧ c ≤ n - 9))
      ((span 8 (n - 9)).foldl fun m r => if (m r 6).isSome then m else m.set r 6 (r % 2 = 0)) :=
    Frame.foldl fun r hr => Frame.ite (Frame.set (.inl ⟨rfl, mem_span.1 hr⟩))
  have hcols : Frame (fun r c => (c = 6 ∧ 8 ≤ r ∧ r ≤ n - 9) ∨ (r = 6 ∧ 8 ≤ c ∧ c ≤ n - 9))
      ((span 8 (n - 9)).foldl fun m c => if (m 6 c).isSome then m else m.set 6 c (c % 2 = 0)) :=
    Frame.foldl fun c hc => Frame.ite (Frame.set (.inr ⟨rfl, mem_span.1 hc⟩))
  exact hrows.comp hcols

theorem frame_setBits {test : Bool} {bits count : ℕ} {cell : ℕ → ℤ × ℤ}
    (h : ∀ i < count, S (cell i).1 (cell i).2) : Frame S (setBits test bits count cell) :=
  Frame.foldl fun i hi => Frame.set (h i (List.mem_range.1 hi))

theorem frame_typeInfo (level : QRErrorCorrectionLevel) (test : Bool) (maskPattern : Fin 8)
    (hn : 21 ≤ n) : Frame
    (fun r c => (c = 8 ∧ ((0 ≤ r ∧ r ≤ 8) ∨ (n - 8 ≤ r ∧ r ≤ n - 1))) ∨
      (r = 8 ∧ ((0 ≤ c ∧ c ≤ 8) ∨ (n - 8 ≤ c ∧ c ≤ n - 1))))
    (setupTypeInfo n level test maskPattern) := by
  refine ((frame_setBits fun i hi => ?_).comp (frame_setBits fun i hi => ?_)).comp (Frame.set ?_)
  · rw [verticalCell]
    split
    · omega
    · split <;> omega
  · rw [horizontalCell]
    split
    · omega
    · split <;> omega
  · omega

theorem frame_typeNumber : Frame
    (fun r c => (0 ≤ r ∧ r ≤ 5 ∧ n - 11 ≤ c ∧ c ≤ n - 9) ∨ (n - 11 ≤ r ∧ r ≤ n - 9 ∧ 0 ≤ c ∧ c ≤ 5))
    (setupTypeNumber n typeNumber test) := by
  refine (frame_setBits fun i hi => ?_).comp (frame_setBits fun i hi => ?_)
  · dsimp only
    omega
  · dsimp only
    omega

/-! ## Positions -/

/-- The pairs of positions. -/
def pairs (typeNumber : ℕ) : List (ℤ × ℤ) :=
  getPatternPosition typeNumber ×ˢ getPatternPosition typeNumber

/-- Whether a pair of positions is at a corner, where there is another pattern. -/
def IsCorner (n : ℤ) (p : ℤ × ℤ) : Prop := p = (6, 6) ∨ p = (6, n - 7) ∨ p = (n - 7, 6)

instance (n : ℤ) (p : ℤ × ℤ) : Decidable (IsCorner n p) :=
  inferInstanceAs (Decidable (p = (6, 6) ∨ p = (6, n - 7) ∨ p = (n - 7, 6)))

/-- Whether a cell is in the square of a pair. -/
def InSquare (p : ℤ × ℤ) (r c : ℤ) : Prop := (p.1 - 2 ≤ r ∧ r ≤ p.1 + 2) ∧ p.2 - 2 ≤ c ∧ c ≤ p.2 + 2

theorem setupPositionAdjustPattern_eq (m : Modules) : setupPositionAdjustPattern typeNumber m =
    (pairs typeNumber).foldl (fun m p => adjustAt m p.1 p.2) m := by
  have hprod : ∀ l l' : List ℤ, ∀ m, l.foldl (fun m row =>
      l'.foldl (fun m col => adjustAt m row col) m) m =
      (l ×ˢ l').foldl (fun m p => adjustAt m p.1 p.2) m := by
    intro l l'
    induction l with
    | nil => exact fun _ => rfl
    | cons row l ih =>
      intro m
      rw [List.foldl_cons, ih, List.product_cons, List.foldl_append, List.foldl_map]
  exact hprod _ _ m

theorem frame_adjustAt (row col : ℤ) : Frame (InSquare (row, col)) (adjustAt · row col) := by
  refine Frame.ite (Frame.foldl fun r hr => Frame.foldl fun c hc => Frame.set ?_)
  rw [mem_span] at hr hc
  exact ⟨⟨by omega, by omega⟩, by omega, by omega⟩

theorem grows_adjustAt (row col : ℤ) : Grows (adjustAt · row col) :=
  Grows.ite (Grows.foldl _ fun _ => Grows.foldl _ fun _ => Grows.set)

/-- Only squares that are not at a corner are written. -/
theorem foldl_adjustAt {l : List (ℤ × ℤ)} (hm : ∀ p, IsCorner n p → (m p.1 p.2).isSome)
    (h : ∀ p ∈ l, ¬ IsCorner n p → ¬ InSquare p r c) :
    l.foldl (fun m p => adjustAt m p.1 p.2) m r c = m r c := by
  induction l generalizing m with
  | nil => rfl
  | cons p l ih =>
    rw [List.forall_mem_cons] at h
    rw [List.foldl_cons, ih (fun q hq => grows_adjustAt _ _ m _ _ (hm q hq)) h.2]
    by_cases hp : IsCorner n p
    · rw [adjustAt, if_pos (hm p hp)]
    · exact frame_adjustAt _ _ m r c (h.1 hp)

theorem grows_probeRow {row col : ℤ} (r : ℤ) : Grows (fun m =>
    if row + r ≤ -1 ∨ n ≤ row + r then m
    else (span (-1) 7).foldl (fun m c =>
      if col + c ≤ -1 ∨ n ≤ col + c then m
      else m.set (row + r) (col + c) ((0 ≤ r ∧ r ≤ 6 ∧ (c = 0 ∨ c = 6)) ∨
        (0 ≤ c ∧ c ≤ 6 ∧ (r = 0 ∨ r = 6)) ∨ (2 ≤ r ∧ r ≤ 4 ∧ 2 ≤ c ∧ c ≤ 4))) m) :=
  Grows.ite (Grows.foldl _ fun _ => Grows.ite Grows.set)

theorem grows_probe (n row col : ℤ) : Grows (setupPositionProbePattern n row col) :=
  Grows.foldl _ grows_probeRow

/-- A pattern at a corner covers its square and what is around it, on the symbol. -/
theorem isSome_probe {row col : ℤ} (hr : row - 1 ≤ r ∧ r ≤ row + 7 ∧ 0 ≤ r ∧ r < n)
    (hc : col - 1 ≤ c ∧ c ≤ col + 7 ∧ 0 ≤ c ∧ c < n) (m : Modules) :
    (setupPositionProbePattern n row col m r c).isSome := by
  refine isSome_foldl (x := r - row) grows_probeRow (mem_span.2 (by omega)) (fun m => ?_) m
  rw [if_neg (by omega)]
  refine isSome_foldl (x := c - col) (fun c => Grows.ite Grows.set) (mem_span.2 (by omega))
    (fun m => ?_) m
  rw [if_neg (by omega), add_sub_cancel, add_sub_cancel, Modules.set_self]
  rfl

/-- The patterns at the corners. -/
def corners (n : ℤ) (m : Modules) : Modules :=
  setupPositionProbePattern n 0 (n - 7) (setupPositionProbePattern n (n - 7) 0
    (setupPositionProbePattern n 0 0 m))

theorem isSome_corners (hn : 21 ≤ n) (m : Modules) (p : ℤ × ℤ) (hp : IsCorner n p) :
    (corners n m p.1 p.2).isSome := by
  rcases hp with rfl | rfl | rfl
  · exact grows_probe _ _ _ _ _ _ (grows_probe _ _ _ _ _ _ (isSome_probe (by omega) (by omega) m))
  · exact isSome_probe (by omega) (by omega) _
  · exact grows_probe _ _ _ _ _ _ (isSome_probe (by omega) (by omega) _)

/-! ## All patterns -/

/-- The patterns but for the version. -/
def base (typeNumber : ℕ) (level : QRErrorCorrectionLevel) (test : Bool) (maskPattern : Fin 8) :
    Modules :=
  setupTypeInfo (moduleCount typeNumber) level test maskPattern
    (setupTimingPattern (moduleCount typeNumber)
      (setupPositionAdjustPattern typeNumber (corners (moduleCount typeNumber) Modules.empty)))

theorem patterns_eq : patterns typeNumber level test maskPattern =
    if 7 ≤ typeNumber then setupTypeNumber (moduleCount typeNumber) typeNumber test
      (base typeNumber level test maskPattern)
    else base typeNumber level test maskPattern := rfl

theorem twentyOne_le (h : 1 ≤ typeNumber) : 21 ≤ moduleCount typeNumber := by
  rw [moduleCount]
  omega

/-- The rows and columns of rectangles with what patterns write, but for column 6. No cell is in
    two of them. -/
def rectangles (typeNumber : ℕ) : List (List ℤ × List ℤ) :=
  let n := moduleCount typeNumber
  [(span 0 8, (span 0 8).filter (· ≠ 6)), (span 0 8, span (n - 8) (n - 1)),
    (span (n - 8) (n - 1), (span 0 8).filter (· ≠ 6)), ([6], span 9 (n - 9))] ++
  ((pairs typeNumber).filter fun p => ¬ IsCorner n p).map (fun p =>
    ((span (p.1 - 2) (p.1 + 2)).filter (· ≠ 6), (span (p.2 - 2) (p.2 + 2)).filter (· ≠ 6))) ++
  if 7 ≤ typeNumber then
    [(span 0 5, span (n - 11) (n - 9)), (span (n - 11) (n - 9), span 0 5)]
  else []

/-- Positions are not near the patterns at the corners, but at the corners. -/
theorem pairs_table : ∀ typeNumber < 41, 1 ≤ typeNumber → ∀ p ∈ pairs typeNumber,
    ¬ IsCorner (moduleCount typeNumber) p → 9 ≤ p.1 ∨
    (p.1 = 6 ∧ 11 ≤ p.2 ∧ p.2 ≤ moduleCount typeNumber - 11) := by
  decide +kernel

/-- There is nothing outside of the rectangles, and of column 6. -/
theorem patterns_eq_none (level : QRErrorCorrectionLevel) (test : Bool) (maskPattern : Fin 8)
    (h : typeNumber < 41) (h1 : 1 ≤ typeNumber) (hc : c ≠ 6)
    (hout : ∀ x ∈ rectangles typeNumber, ¬ (r ∈ x.1 ∧ c ∈ x.2)) :
    patterns typeNumber level test maskPattern r c = none := by
  have hn := twentyOne_le h1
  simp only [rectangles, List.forall_mem_append, List.forall_mem_cons] at hout
  obtain ⟨⟨⟨hleft, hright, hbottom, htiming, -⟩, hsquares⟩, hnumber⟩ := hout
  rw [List.forall_mem_map] at hsquares
  simp only [List.mem_filter, mem_span, decide_eq_true_eq] at hleft hright hbottom hsquares
  rw [List.mem_singleton, mem_span] at htiming
  -- Row 6 is no part of the squares' rectangles, but there the timing pattern is.
  have hadjust : ∀ p ∈ pairs typeNumber, ¬ IsCorner (moduleCount typeNumber) p →
      ¬ InSquare p r c := by
    rintro p hp hcorner ⟨hr, hcol⟩
    have hp' := hsquares p ⟨hp, hcorner⟩
    have htable := pairs_table typeNumber h h1 p hp hcorner
    by_cases h6 : r = 6
    · omega
    · exact hp' ⟨⟨hr, h6⟩, hcol, hc⟩
  have hinfo := frame_typeInfo level test maskPattern hn
  have hbase : base typeNumber level test maskPattern r c = none := by
    rw [base, hinfo _ _ _ (by omega), frame_timing _ _ _ _ (by omega),
      setupPositionAdjustPattern_eq, foldl_adjustAt (isSome_corners hn _) hadjust, corners,
      frame_probe _ _ _ _ _ _ (by omega), frame_probe _ _ _ _ _ _ (by omega),
      frame_probe _ _ _ _ _ _ (by omega)]
    rfl
  rw [patterns_eq]
  by_cases h7 : 7 ≤ typeNumber
  · simp only [if_pos h7, List.forall_mem_cons, mem_span] at hnumber
    rw [if_pos h7, frame_typeNumber _ _ _ (by omega), hbase]
  · rw [if_neg h7, hbase]

/-! ## Other levels and masks -/

/-- Whether modules are there in the same cells. -/
def SameCells (m m' : Modules) : Prop := ∀ r c, (m r c).isSome = (m' r c).isSome

theorem SameCells.set {m m' : Modules} (h : SameCells m m') (row col : ℤ) (dark dark' : Bool) :
    SameCells (m.set row col dark) (m'.set row col dark') :=
  fun r c => by rw [Modules.isSome_set, Modules.isSome_set, h]

theorem SameCells.setBits {m m' : Modules} (h : SameCells m m') {test' : Bool}
    {bits bits' count : ℕ} {cell : ℕ → ℤ × ℤ} :
    SameCells (setBits test bits count cell m) (setBits test' bits' count cell m') := by
  rw [Qr.setBits, Qr.setBits]
  induction List.range count generalizing m m' with
  | nil => exact h
  | cons i l ih => exact ih (h.set _ _ _ _)

theorem sameCells_base {level' : QRErrorCorrectionLevel} {test' : Bool} {maskPattern' : Fin 8} :
    SameCells (base typeNumber level test maskPattern)
      (base typeNumber level' test' maskPattern') :=
  SameCells.set (SameCells.setBits (SameCells.setBits fun _ _ => rfl)) _ _ _ _

/-- Where there are patterns depends on the version only. -/
theorem sameCells_patterns (typeNumber : ℕ) (level level' : QRErrorCorrectionLevel)
    (test test' : Bool) (maskPattern maskPattern' : Fin 8) :
    SameCells (patterns typeNumber level test maskPattern)
      (patterns typeNumber level' test' maskPattern') := by
  rw [patterns_eq, patterns_eq]
  split
  · exact SameCells.setBits (SameCells.setBits sameCells_base)
  · exact sameCells_base

/-! ## The bits of the type -/

theorem setBits_cell {bits count : ℕ} {cell : ℕ → ℤ × ℤ}
    (hcell : ∀ i < count, ∀ j < count, cell i = cell j → i = j) {i : ℕ} (hi : i < count) :
    setBits test bits count cell m (cell i).1 (cell i).2 = some (!test && bits.testBit i) := by
  induction count with
  | zero => exact absurd hi (Nat.not_lt_zero i)
  | succ k ih =>
    have hsucc : setBits test bits (k + 1) cell m =
        (setBits test bits k cell m).set (cell k).1 (cell k).2
          (!test && ((bits >>> k) &&& 1 == 1)) := by
      rw [setBits, List.range_succ, List.foldl_append]
      rfl
    rw [hsucc]
    rcases Nat.lt_succ_iff_lt_or_eq.1 hi with hlt | rfl
    · have hne : ¬ ((cell i).1 = (cell k).1 ∧ (cell i).2 = (cell k).2) := fun h =>
        hlt.ne (hcell i hi k (Nat.lt_succ_self k) (Prod.ext h.1 h.2))
      rw [Modules.set_ne hne]
      exact ih (fun i hi j hj => hcell i (hi.trans (Nat.lt_succ_self k)) j
        (hj.trans (Nat.lt_succ_self k))) hlt
    · rw [Modules.set_self, BitBuffer.and_one_eq_testBit]

theorem verticalCell_injOn (hn : 21 ≤ n) :
    ∀ i < 15, ∀ j < 15, verticalCell n i = verticalCell n j → i = j := by
  intro i hi j hj h
  have hfst := congrArg Prod.fst h
  simp only [verticalCell, apply_ite Prod.fst] at hfst
  split at hfst <;> split at hfst <;> omega

theorem horizontalCell_injOn (hn : 21 ≤ n) :
    ∀ i < 15, ∀ j < 15, horizontalCell n i = horizontalCell n j → i = j := by
  intro i hi j hj h
  have hsnd := congrArg Prod.snd h
  simp only [horizontalCell, apply_ite Prod.snd] at hsnd
  split at hsnd <;> split at hsnd <;> omega

/-- Cells of the type, which the version does not write. -/
theorem patterns_of_base (h1 : 1 ≤ typeNumber)
    (hout : (c = 8 ∧ r ≠ 6) ∨ (r = 8 ∧ c ≠ 6)) :
    patterns typeNumber level test maskPattern r c = base typeNumber level test maskPattern r c := by
  have hn := twentyOne_le h1
  rw [patterns_eq]
  split
  · next h7 =>
    have h45 : 45 ≤ moduleCount typeNumber := by
      rw [moduleCount]
      omega
    exact frame_typeNumber _ _ _ (by omega)
  · rfl

/-- The bits of the type in column 8. -/
theorem patterns_verticalCell (level : QRErrorCorrectionLevel) (test : Bool) (maskPattern : Fin 8)
    (h1 : 1 ≤ typeNumber) {i : ℕ} (hi : i < 15) :
    patterns typeNumber level test maskPattern (verticalCell (moduleCount typeNumber) i).1
      (verticalCell (moduleCount typeNumber) i).2 =
      some (!test && (typeInfo level maskPattern).testBit i) := by
  have hn := twentyOne_le h1
  have hcol : (verticalCell (moduleCount typeNumber) i).2 = 8 := by
    simp only [verticalCell, apply_ite Prod.snd, ite_self]
  have hrow : (verticalCell (moduleCount typeNumber) i).1 ≠ 6 ∧
      (verticalCell (moduleCount typeNumber) i).1 ≠ moduleCount typeNumber - 8 := by
    simp only [verticalCell, apply_ite Prod.fst]
    split <;> [skip; split] <;> omega
  have hframe : Frame (fun r c => r = 8 ∧ c ≠ 8) (setBits test (typeInfo level maskPattern) 15
      (horizontalCell (moduleCount typeNumber))) := by
    refine frame_setBits fun j hj => ?_
    simp only [horizontalCell, apply_ite Prod.fst, apply_ite Prod.snd]
    refine ⟨by rw [ite_self, ite_self], ?_⟩
    split <;> [skip; split] <;> omega
  rw [patterns_of_base h1 (.inl ⟨hcol, hrow.1⟩), base, setupTypeInfo, Modules.set_ne (by omega),
    hframe _ _ _ (by omega), setBits_cell (verticalCell_injOn hn) hi]

/-- The bits of the type in row 8. -/
theorem patterns_horizontalCell (level : QRErrorCorrectionLevel) (test : Bool)
    (maskPattern : Fin 8) (h1 : 1 ≤ typeNumber) {i : ℕ} (hi : i < 15) :
    patterns typeNumber level test maskPattern (horizontalCell (moduleCount typeNumber) i).1
      (horizontalCell (moduleCount typeNumber) i).2 =
      some (!test && (typeInfo level maskPattern).testBit i) := by
  have hn := twentyOne_le h1
  have hrow : (horizontalCell (moduleCount typeNumber) i).1 = 8 := by
    simp only [horizontalCell, apply_ite Prod.fst, ite_self]
  have hcol : (horizontalCell (moduleCount typeNumber) i).2 ≠ 6 := by
    simp only [horizontalCell, apply_ite Prod.snd]
    split <;> [skip; split] <;> omega
  rw [patterns_of_base h1 (.inr ⟨hrow, hcol⟩), base, setupTypeInfo, Modules.set_ne (by omega),
    setBits_cell (horizontalCell_injOn hn) hi]

/-- Types differ in seven bits at least, so that three of them may be damaged. -/
theorem typeInfo_distance : ∀ level ∈ [QRErrorCorrectionLevel.L, .M, .Q, .H],
    ∀ level' ∈ [QRErrorCorrectionLevel.L, .M, .Q, .H], ∀ maskPattern maskPattern' : Fin 8,
    (level, maskPattern) ≠ (level', maskPattern') →
    7 ≤ ReedSolomon.distance (Bits.low 15 (typeInfo level maskPattern))
      (Bits.low 15 (typeInfo level' maskPattern')) := by
  decide +kernel

end IrohWebrtc.Qr
