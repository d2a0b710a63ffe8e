import IrohWebrtc.Qr.Patterns

/-!
# The way through a symbol

The bytes of a symbol are written bit by bit, in the cells that are free, on a way through
all columns but the sixth (`path`): `mapData` goes that way (`mapData_eq`). Who goes it again
finds the bits in the same order (`read_mapData`), and there are as many free cells as the
bytes have bits, at least (`length_freeCells`).
-/

namespace IrohWebrtc.Qr

/-- Rows that follow one another, up or down. -/
def rowsFrom (k : ℕ) (row inc : ℤ) : List ℤ := (List.range k).map fun i : ℕ => row + inc * i

/-- The cells of rows, in a pair of columns. -/
def pairCells (col : ℤ) (rows : List ℤ) : List (ℤ × ℤ) :=
  rows.flatMap fun row => [(row, col), (row, col - 1)]

/-- The cells of all pairs of columns from one on, up and down in turns. -/
def path (n col row inc : ℤ) : List (ℤ × ℤ) :=
  if 0 < col then
    let col' := if col = 6 then col - 1 else col
    pairCells col' (rowsFrom n.toNat row inc) ++ path n (col' - 2) (row + inc * (n - 1)) (-inc)
  else []
termination_by col.toNat
decreasing_by
  split <;> omega

/-- A bit of bytes; after the last of them there are zeros. -/
def bitOf (data : List (Option ℕ)) (k : ℕ) : Bool :=
  ((data.getD (k / 8) none).getD 0).testBit (7 - k % 8)

/-- The next bit in a cell, if that is free. -/
def placeBit (bit : ℕ → Bool) (maskFunc : ℤ → ℤ → Bool) (s : Modules × ℕ) (p : ℤ × ℤ) :
    Modules × ℕ :=
  if (s.1 p.1 p.2).isSome then s
  else (s.1.set p.1 p.2 (bit s.2 ^^ maskFunc p.1 p.2), s.2 + 1)

/-- The variables of `mapData`, when so many bits are written. -/
def MapState.At (s : MapState) (m : Modules × ℕ) : Prop :=
  s.modules = m.1 ∧ s.byteIndex = m.2 / 8 ∧ s.bitIndex = 7 - (m.2 % 8 : ℕ)

variable {n col : ℤ} {data : List (Option ℕ)} {maskFunc : ℤ → ℤ → Bool} {s : MapState}
  {m : Modules × ℕ}

/-! ## Going the way -/

theorem bit_eq (data : List (Option ℕ)) (h : s.At m) : (if s.byteIndex < data.length then
    ((data.getD s.byteIndex none).getD 0 >>> s.bitIndex.toNat) &&& 1 == 1 else false) =
      bitOf data m.2 := by
  obtain ⟨-, hbyte, hbit⟩ := h
  have htoNat : s.bitIndex.toNat = 7 - m.2 % 8 := by omega
  rw [BitBuffer.and_one_eq_testBit, htoNat, hbyte, bitOf]
  split
  · rfl
  · next h =>
    rw [List.getD_eq_default _ _ (Nat.le_of_not_lt h), Option.getD_none, Nat.zero_testBit]

theorem mapModule_at (data : List (Option ℕ)) (maskFunc : ℤ → ℤ → Bool) (col : ℤ) (h : s.At m) :
    (mapModule data maskFunc col s).At (placeBit (bitOf data) maskFunc m (s.row, col)) ∧
    (mapModule data maskFunc col s).row = s.row ∧ (mapModule data maskFunc col s).inc = s.inc := by
  have hbit := bit_eq data h
  obtain ⟨hmodules, hbyte, hindex⟩ := h
  by_cases hsome : (m.1 s.row col).isSome
  · rw [mapModule, placeBit, if_pos hsome, hmodules, if_pos hsome]
    exact ⟨⟨hmodules, hbyte, hindex⟩, rfl, rfl⟩
  · have hdark : (if maskFunc s.row col then !bitOf data m.2 else bitOf data m.2) =
        (bitOf data m.2 ^^ maskFunc s.row col) := by
      cases maskFunc s.row col <;> cases bitOf data m.2 <;> rfl
    rw [mapModule, placeBit, if_neg hsome, hmodules, if_neg hsome]
    simp only [hbit, hdark]
    split
    · next h0 => exact ⟨⟨rfl, by simp only; omega, by simp only; omega⟩, rfl, rfl⟩
    · next h0 => exact ⟨⟨rfl, by simp only; omega, by simp only; omega⟩, rfl, rfl⟩

theorem rowsFrom_succ (k : ℕ) (row inc : ℤ) :
    rowsFrom (k + 1) row inc = row :: rowsFrom k (row + inc) inc := by
  rw [rowsFrom, List.range_succ_eq_map, List.map_cons, List.map_map, rowsFrom]
  congr 1
  · simp
  · refine List.map_congr_left fun i _ => ?_
    simp only [Function.comp_apply]
    push_cast
    ring

/-- The two modules of a row. -/
theorem mapPair_at (data : List (Option ℕ)) (maskFunc : ℤ → ℤ → Bool) (col : ℤ) (h : s.At m) :
    (mapModule data maskFunc (col - 1) (mapModule data maskFunc col s)).At
      (placeBit (bitOf data) maskFunc (placeBit (bitOf data) maskFunc m (s.row, col))
        (s.row, col - 1)) ∧
    (mapModule data maskFunc (col - 1) (mapModule data maskFunc col s)).row = s.row ∧
    (mapModule data maskFunc (col - 1) (mapModule data maskFunc col s)).inc = s.inc := by
  obtain ⟨h₁, hrow₁, hinc₁⟩ := mapModule_at data maskFunc col h
  obtain ⟨h₂, hrow₂, hinc₂⟩ := mapModule_at data maskFunc (col - 1) h₁
  rw [hrow₁] at h₂ hrow₂
  rw [hinc₁] at hinc₂
  exact ⟨h₂, hrow₂, hinc₂⟩

/-- A pair of columns, as long as the rows are in the symbol. -/
theorem mapRows_at (data : List (Option ℕ)) (maskFunc : ℤ → ℤ → Bool) (col : ℤ) {k : ℕ} (h : s.At m)
    (hin : ∀ j < k, 0 ≤ s.row + s.inc * (j + 1 : ℕ) ∧ s.row + s.inc * (j + 1 : ℕ) < n)
    (hout : s.row + s.inc * (k + 1 : ℕ) < 0 ∨ n ≤ s.row + s.inc * (k + 1 : ℕ)) :
    (mapRows n data maskFunc col (k + 1) s).At
      ((pairCells col (rowsFrom (k + 1) s.row s.inc)).foldl (placeBit (bitOf data) maskFunc) m) ∧
    (mapRows n data maskFunc col (k + 1) s).row = s.row + s.inc * k ∧
    (mapRows n data maskFunc col (k + 1) s).inc = -s.inc := by
  induction k generalizing s m with
  | zero =>
    obtain ⟨h₂, hrow₂, hinc₂⟩ := mapPair_at data maskFunc col h
    rw [Nat.zero_add, Nat.cast_one, mul_one] at hout
    rw [mapRows, rowsFrom_succ]
    simp only [hrow₂, hinc₂, if_pos hout, Nat.cast_zero, mul_zero, add_zero, and_true]
    exact h₂
  | succ k ih =>
    obtain ⟨h₂, hrow₂, hinc₂⟩ := mapPair_at data maskFunc col h
    have hnext := hin 0 (Nat.succ_pos k)
    rw [Nat.zero_add, Nat.cast_one, mul_one] at hnext
    have hstay : ¬ (s.row + s.inc < 0 ∨ n ≤ s.row + s.inc) := by omega
    have hmul : ∀ j : ℕ, s.row + s.inc + s.inc * j = s.row + s.inc * (j + 1 : ℕ) := by
      intro j
      push_cast
      ring
    have hrest := ih (s := { mapModule data maskFunc (col - 1) (mapModule data maskFunc col s) with
        row := s.row + s.inc }) h₂
      (fun j hj => by
        simp only [hinc₂, hmul]
        exact hin (j + 1) (Nat.succ_lt_succ hj))
      (by
        simp only [hinc₂, hmul]
        exact hout)
    rw [mapRows, rowsFrom_succ]
    simp only [hrow₂, hinc₂, if_neg hstay, hmul] at hrest ⊢
    exact hrest

/-- The variables of `mapData` before a pair of columns. -/
def MapState.Ready (n : ℤ) (s : MapState) : Prop :=
  (s.inc = -1 ∧ s.row = n - 1) ∨ (s.inc = 1 ∧ s.row = 0)

theorem mapRows_ready (data : List (Option ℕ)) (maskFunc : ℤ → ℤ → Bool) (col : ℤ) (hn : 0 < n)
    (hready : s.Ready n) (h : s.At m) :
    (mapRows n data maskFunc col n.toNat s).At
      ((pairCells col (rowsFrom n.toNat s.row s.inc)).foldl (placeBit (bitOf data) maskFunc) m) ∧
    (mapRows n data maskFunc col n.toNat s).row = s.row + s.inc * (n - 1) ∧
    (mapRows n data maskFunc col n.toNat s).inc = -s.inc ∧
    (mapRows n data maskFunc col n.toNat s).Ready n := by
  obtain ⟨k, hk⟩ : ∃ k, n.toNat = k + 1 := ⟨n.toNat - 1, by omega⟩
  have hcast : (k : ℤ) = n - 1 := by omega
  have hrows := mapRows_at (n := n) data maskFunc col (k := k) h
    (fun j hj => by rcases hready with ⟨hinc, hrow⟩ | ⟨hinc, hrow⟩ <;> rw [hinc, hrow] <;> omega)
    (by rcases hready with ⟨hinc, hrow⟩ | ⟨hinc, hrow⟩ <;> rw [hinc, hrow] <;> omega)
  rw [hk]
  obtain ⟨hat, hrow', hinc'⟩ := hrows
  rw [hcast] at hrow'
  refine ⟨hat, hrow', hinc', ?_⟩
  rw [MapState.Ready, hrow', hinc']
  rcases hready with ⟨hinc, hrow⟩ | ⟨hinc, hrow⟩
  · exact .inr ⟨by rw [hinc, neg_neg], by rw [hinc, hrow]; ring⟩
  · exact .inl ⟨by rw [hinc], by rw [hinc, hrow]; ring⟩

theorem mapColumns_at (hn : 0 < n) (hready : s.Ready n) (h : s.At m) :
    (mapColumns n data maskFunc col s).At
      ((path n col s.row s.inc).foldl (placeBit (bitOf data) maskFunc) m) := by
  induction hk : col.toNat using Nat.strong_induction_on generalizing col s m with
  | h k ih =>
    by_cases hpos : 0 < col
    · obtain ⟨hat, hrow, hinc, hready'⟩ := mapRows_ready data maskFunc
        (if col = 6 then col - 1 else col) hn hready h
      have hlt : ((if col = 6 then col - 1 else col) - 2).toNat < k := by
        split <;> omega
      have hrest := ih _ hlt hready' hat rfl
      rw [hrow, hinc] at hrest
      rw [mapColumns, if_pos hpos, path, if_pos hpos, List.foldl_append]
      exact hrest
    · rw [mapColumns, if_neg hpos, path, if_neg hpos]
      exact h

/-- `mapData` goes the way. -/
theorem mapData_eq (hn : 0 < n) (maskPattern : Fin 8) (m : Modules) :
    mapData n data maskPattern m = ((path n (n - 1) (n - 1) (-1)).foldl
      (placeBit (bitOf data) (getMaskFunction maskPattern)) (m, 0)).1 :=
  (mapColumns_at (s := ⟨m, n - 1, -1, 7, 0⟩) (m := (m, 0)) hn (.inl ⟨rfl, rfl⟩)
    ⟨rfl, (Nat.zero_div 8).symm, rfl⟩).1

/-! ## Going it again -/

/-- The cells of a way that are free. -/
def freeOf (m : Modules) (cells : List (ℤ × ℤ)) : List (ℤ × ℤ) :=
  cells.filter fun p => (m p.1 p.2).isNone

theorem foldl_placeBit_frame {bit : ℕ → Bool} {cells : List (ℤ × ℤ)} {r c : ℤ}
    (h : (r, c) ∉ cells ∨ (m.1 r c).isSome) :
    (cells.foldl (placeBit bit maskFunc) m).1 r c = m.1 r c := by
  induction cells generalizing m with
  | nil => rfl
  | cons p cells ih =>
    have hp : (placeBit bit maskFunc m p).1 r c = m.1 r c := by
      rw [placeBit]
      split
      · rfl
      · next hsome =>
        refine Modules.set_ne ?_
        rintro ⟨rfl, rfl⟩
        rcases h with h | h
        · exact h List.mem_cons_self
        · exact hsome h
    rw [List.foldl_cons, ih, hp]
    rw [hp]
    exact h.imp_left fun h hmem => h (List.mem_cons_of_mem _ hmem)

/-- Without the mask, the free cells have the bits in their order. -/
theorem foldl_placeBit_free (m : Modules × ℕ) (bit : ℕ → Bool) (maskFunc : ℤ → ℤ → Bool)
    {cells : List (ℤ × ℤ)} (h : cells.Nodup) :
    (freeOf m.1 cells).map (fun p => ((cells.foldl (placeBit bit maskFunc) m).1 p.1 p.2).map
      (· ^^ maskFunc p.1 p.2)) =
      (List.range (freeOf m.1 cells).length).map fun j => some (bit (m.2 + j)) := by
  induction cells generalizing m with
  | nil => rfl
  | cons p cells ih =>
    rw [List.nodup_cons] at h
    by_cases hsome : (m.1 p.1 p.2).isSome
    · have hfree : freeOf m.1 (p :: cells) = freeOf m.1 cells :=
        List.filter_cons_of_neg (by simpa [Option.isSome_iff_ne_none] using hsome)
      rw [hfree, List.foldl_cons, placeBit, if_pos hsome]
      exact ih _ h.2
    · have hfree : freeOf m.1 (p :: cells) = p :: freeOf m.1 cells :=
        List.filter_cons_of_pos (by simpa using hsome)
      -- Cells come once each, so that the bit that is placed takes no other cell away.
      have hset : freeOf m.1 cells =
          freeOf (m.1.set p.1 p.2 (bit m.2 ^^ maskFunc p.1 p.2)) cells := by
        refine List.filter_congr fun q hq => ?_
        have hne : ¬ (q.1 = p.1 ∧ q.2 = p.2) := fun heq => h.1 (Prod.ext heq.1 heq.2 ▸ hq)
        rw [Modules.set_ne hne]
      have hrest := ih (m := (m.1.set p.1 p.2 (bit m.2 ^^ maskFunc p.1 p.2), m.2 + 1)) h.2
      rw [hfree, List.foldl_cons, placeBit, if_neg hsome, List.map_cons, List.length_cons,
        List.range_succ_eq_map, List.map_cons, List.map_map, hset, hrest]
      congr 1
      · rw [foldl_placeBit_frame (.inl h.1)]
        simp only [Modules.set_self, Option.map_some, Bool.xor_assoc, Bool.xor_self,
          Bool.xor_false, Nat.add_zero]
      · refine List.map_congr_left fun j _ => ?_
        rw [Function.comp_apply, Nat.add_right_comm, Nat.add_assoc]

/-! ## All cells -/

/-- A column from which the way may go on: column 6 is left out of the pairs. -/
def IsStart (col : ℤ) : Prop := (col % 2 = 0 ∧ 6 ≤ col) ∨ (col % 2 = 1 ∧ -1 ≤ col ∧ col ≤ 5)

/-- The next pair of columns. -/
theorem isStart_next (h : IsStart col) (hpos : 0 < col) :
    IsStart ((if col = 6 then col - 1 else col) - 2) := by
  rw [IsStart] at h ⊢
  split <;> omega

theorem mem_pairCells {rows : List ℤ} {p : ℤ × ℤ} :
    p ∈ pairCells col rows ↔ p.1 ∈ rows ∧ (p.2 = col ∨ p.2 = col - 1) := by
  obtain ⟨r, c⟩ := p
  simp only [pairCells, List.mem_flatMap, List.mem_cons, Prod.mk.injEq, List.not_mem_nil, or_false]
  constructor
  · rintro ⟨row, hrow, ⟨rfl, rfl⟩ | ⟨rfl, rfl⟩⟩
    · exact ⟨hrow, .inl rfl⟩
    · exact ⟨hrow, .inr rfl⟩
  · rintro ⟨hr, rfl | rfl⟩
    · exact ⟨r, hr, .inl ⟨rfl, rfl⟩⟩
    · exact ⟨r, hr, .inr ⟨rfl, rfl⟩⟩

theorem length_pairCells (col : ℤ) (rows : List ℤ) :
    (pairCells col rows).length = 2 * rows.length := by
  induction rows with
  | nil => rfl
  | cons row rows ih =>
    rw [pairCells, List.flatMap_cons, ← pairCells, List.length_append, ih, List.length_cons,
      List.length_cons, List.length_cons, List.length_nil]
    omega

theorem nodup_pairCells {rows : List ℤ} (h : rows.Nodup) (col : ℤ) : (pairCells col rows).Nodup := by
  induction rows with
  | nil => exact List.nodup_nil
  | cons row rows ih =>
    rw [List.nodup_cons] at h
    rw [pairCells, List.flatMap_cons, ← pairCells, List.nodup_append]
    refine ⟨?_, ih h.2, ?_⟩
    · have hne : col ≠ col - 1 := by omega
      simpa using hne
    · rintro p hp q hq rfl
      have hrow := (mem_pairCells.1 hq).1
      rcases List.mem_pair.1 hp with rfl | rfl <;> exact h.1 hrow

theorem nodup_rowsFrom (k : ℕ) (row : ℤ) {inc : ℤ} (h : inc ≠ 0) : (rowsFrom k row inc).Nodup := by
  refine List.nodup_range.map fun i j hij => ?_
  have hmul : inc * i = inc * j := by simpa using hij
  exact_mod_cast mul_left_cancel₀ h hmul

/-- The way stays right of nothing but the columns that are left, and leaves out the sixth. -/
theorem mem_path {row inc : ℤ} (hcol : IsStart col) {p : ℤ × ℤ} (hp : p ∈ path n col row inc) :
    p.2 ≤ col ∧ p.2 ≠ 6 := by
  induction hk : col.toNat using Nat.strong_induction_on generalizing col row inc with
  | h k ih =>
    by_cases hpos : 0 < col
    · rw [path, if_pos hpos] at hp
      rcases List.mem_append.1 hp with hp | hp
      · have hcell := (mem_pairCells.1 hp).2
        rw [IsStart] at hcol
        split at hcell <;> omega
      · have hrest := ih _ (by split <;> omega) (isStart_next hcol hpos) hp rfl
        refine ⟨hrest.1.trans ?_, hrest.2⟩
        split <;> omega
    · rw [path, if_neg hpos] at hp
      cases hp

/-- The way stays on the symbol. -/
theorem mem_path_range {row inc : ℤ} (hrow : (inc = -1 ∧ row = n - 1) ∨ (inc = 1 ∧ row = 0))
    (hcol : IsStart col) {p : ℤ × ℤ} (hp : p ∈ path n col row inc) :
    (0 ≤ p.1 ∧ p.1 < n) ∧ 0 ≤ p.2 := by
  induction hk : col.toNat using Nat.strong_induction_on generalizing col row inc with
  | h k ih =>
    by_cases hpos : 0 < col
    · rw [path, if_pos hpos] at hp
      rcases List.mem_append.1 hp with hp | hp
      · obtain ⟨hr, hc⟩ := mem_pairCells.1 hp
        obtain ⟨i, hi, hri⟩ := List.mem_map.1 hr
        rw [List.mem_range] at hi
        rw [IsStart] at hcol
        refine ⟨?_, by split at hc <;> omega⟩
        rcases hrow with ⟨rfl, rfl⟩ | ⟨rfl, rfl⟩ <;> omega
      · refine ih _ (by split <;> omega) ?_ (isStart_next hcol hpos) hp rfl
        rcases hrow with ⟨rfl, rfl⟩ | ⟨rfl, rfl⟩
        · exact .inr ⟨rfl, by ring⟩
        · exact .inl ⟨rfl, by ring⟩
    · rw [path, if_neg hpos] at hp
      cases hp

theorem nodup_path (n row : ℤ) {inc : ℤ} (hcol : IsStart col) (hinc : inc ≠ 0) :
    (path n col row inc).Nodup := by
  induction hk : col.toNat using Nat.strong_induction_on generalizing col row inc with
  | h k ih =>
    by_cases hpos : 0 < col
    · rw [path, if_pos hpos, List.nodup_append]
      refine ⟨nodup_pairCells (nodup_rowsFrom _ _ hinc) _,
        ih ((if col = 6 then col - 1 else col) - 2).toNat (by split <;> omega) _
          (isStart_next hcol hpos) (neg_ne_zero.2 hinc) rfl, ?_⟩
      rintro p hp q hq rfl
      have hcell := (mem_pairCells.1 hp).2
      have hrest := (mem_path (isStart_next hcol hpos) hq).1
      omega
    · rw [path, if_neg hpos]
      exact List.nodup_nil

theorem length_path (n row inc : ℤ) (hcol : IsStart col) : (path n col row inc).length =
    n.toNat * (if 6 ≤ col then col else col + 1).toNat := by
  induction hk : col.toNat using Nat.strong_induction_on generalizing col row inc with
  | h k ih =>
    by_cases hpos : 0 < col
    · rw [path, if_pos hpos, List.length_append, length_pairCells,
        ih ((if col = 6 then col - 1 else col) - 2).toNat (by split <;> omega) _ _
          (isStart_next hcol hpos) rfl, rowsFrom, List.length_map,
        List.length_range, Nat.mul_comm 2, ← Nat.mul_add]
      congr 1
      rw [IsStart] at hcol
      split <;> split <;> split <;> omega
    · rw [path, if_neg hpos, List.length_nil]
      have hneg : (if 6 ≤ col then col else col + 1).toNat = 0 := by
        rw [IsStart] at hcol
        split <;> omega
      rw [hneg, Nat.mul_zero]

/-- The cells for the bytes of a symbol, in their order. -/
def freeCells (typeNumber : ℕ) : List (ℤ × ℤ) :=
  freeOf (patterns typeNumber .L false pattern000)
    (path (moduleCount typeNumber) (moduleCount typeNumber - 1) (moduleCount typeNumber - 1) (-1))

theorem freeOf_patterns {typeNumber : ℕ} (level : QRErrorCorrectionLevel) (test : Bool)
    (maskPattern : Fin 8) : freeOf (patterns typeNumber level test maskPattern)
      (path (moduleCount typeNumber) (moduleCount typeNumber - 1) (moduleCount typeNumber - 1) (-1))
      = freeCells typeNumber := by
  refine List.filter_congr fun p _ => ?_
  have hsame := sameCells_patterns typeNumber level .L test false maskPattern pattern000 p.1 p.2
  rw [← Option.not_isSome, ← Option.not_isSome, hsame]

theorem isStart_moduleCount {typeNumber : ℕ} (h1 : 1 ≤ typeNumber) :
    IsStart (moduleCount typeNumber - 1) := by
  rw [IsStart, moduleCount]
  omega

theorem mem_freeCells {typeNumber : ℕ} (h1 : 1 ≤ typeNumber) {p : ℤ × ℤ}
    (hp : p ∈ freeCells typeNumber) : (0 ≤ p.1 ∧ p.1 < moduleCount typeNumber) ∧
      0 ≤ p.2 ∧ p.2 < moduleCount typeNumber := by
  have hmem := (List.mem_filter.1 hp).1
  obtain ⟨hrow, hcol⟩ := mem_path_range (.inl ⟨rfl, rfl⟩) (isStart_moduleCount h1) hmem
  have hle := (mem_path (isStart_moduleCount h1) hmem).1
  exact ⟨hrow, hcol, by omega⟩

/-- The sizes of the rectangles that patterns are in leave enough. -/
theorem area_table : ∀ typeNumber < 41, 1 ≤ typeNumber → ∀ k < 4,
    (rsBlockTable[(typeNumber - 1) * 4 + k]?).all fun row =>
      ((rectangles typeNumber).map fun x => x.1.length * x.2.length).sum +
        8 * ((rsBlocks row).map RsBlock.totalCount).sum ≤
      (moduleCount typeNumber).toNat * (moduleCount typeNumber - 1).toNat := by
  decide +kernel

/-- There are enough cells for the bits of all bytes. -/
theorem length_freeCells {typeNumber : ℕ} {level : QRErrorCorrectionLevel} {bs : List RsBlock}
    (h : getRSBlocks typeNumber level = .ok bs) :
    8 * (bs.map RsBlock.totalCount).sum ≤ (freeCells typeNumber).length := by
  obtain ⟨h1, h41⟩ := typeNumber_of_getRSBlocks h
  obtain ⟨-, k, hk, row, hrow, rfl⟩ := getRSBlocks_eq h
  have hn := twentyOne_le h1
  have hstart := isStart_moduleCount h1
  have harea := area_table typeNumber h41 h1 k hk
  rw [hrow, Option.all_some, decide_eq_true_eq] at harea
  have hpath := length_path (moduleCount typeNumber) (moduleCount typeNumber - 1) (-1) hstart
  rw [if_pos (by omega), List.length_eq_length_filter_add
    (fun p => (patterns typeNumber .L false pattern000 p.1 p.2).isNone)] at hpath
  -- the cells that are not free are in the rectangles
  have htaken : ((path (moduleCount typeNumber) (moduleCount typeNumber - 1)
      (moduleCount typeNumber - 1) (-1)).filter
        fun p => !(patterns typeNumber .L false pattern000 p.1 p.2).isNone).length ≤
      ((rectangles typeNumber).map fun x => x.1.length * x.2.length).sum := by
    have hsub : (path (moduleCount typeNumber) (moduleCount typeNumber - 1)
        (moduleCount typeNumber - 1) (-1)).filter
          (fun p => !(patterns typeNumber .L false pattern000 p.1 p.2).isNone) ⊆
        (rectangles typeNumber).flatMap fun x => x.1 ×ˢ x.2 := by
      intro p hp
      obtain ⟨hmem, hsome⟩ := List.mem_filter.1 hp
      by_contra hout
      have hnone := patterns_eq_none .L false pattern000 h41 h1
        (mem_path hstart hmem).2 fun x hx hpx =>
          hout (List.mem_flatMap.2 ⟨x, hx, List.mem_product.2 hpx⟩)
      rw [hnone] at hsome
      exact absurd hsome (by decide)
    have hle := (((nodup_path _ _ hstart (by decide)).filter _).subperm hsub).length_le
    simpa only [List.length_flatMap, List.length_product] using hle
  rw [freeCells, freeOf]
  omega

end IrohWebrtc.Qr
