import IrohWebrtc.Lib.Uri
import Mathlib.Data.List.DropRight

/-!
# Relative URLs of files

A reference that begins with a dot is resolved against the URL of a file: the reference is
cut into segments, and these are *moves* from the directory of the file, up, down or none
(`resolve`). What remains of moves when those up cancel those down before them (`reduce`) is
how far they go up and the names they then go down; so the path is, up to drives, what
remains of the directory and these names (`follows_resolve`).

A path is converted into that of a file by decoding its escapes. This finds what the
directories are told to look for when no segment is decoded into dots or slashes
(`location_pathname`), and it is a directory when its last segment is empty
(`isDirectory_pathname`).
-/

namespace IrohWebrtc.Url

open Uri

/-! ## Moves -/

/-- A move in a tree. -/
inductive Move (α : Type*)
  | stay
  | up
  | down (a : α)
  deriving DecidableEq

/-- What remains of moves: how often they go up, and then down. -/
structure Reduced (α : Type*) where
  ups : ℕ
  names : List α
  deriving DecidableEq

def Reduced.step {α : Type*} (r : Reduced α) : Move α → Reduced α
  | .stay => r
  | .up =>
    if r.names.isEmpty then { r with ups := r.ups + 1 } else { r with names := r.names.dropLast }
  | .down a => { r with names := r.names ++ [a] }

def reduce {α : Type*} (moves : List (Move α)) : Reduced α := moves.foldl Reduced.step ⟨0, []⟩

/-! ## Segments -/

/-- A segment of a path, with its escapes. -/
abbrev PathSegment := List Char

def isC0OrSpace (c : Char) : Bool := c.toNat ≤ 0x20

def isTabOrNewline (c : Char) : Bool := c ∈ ['\t', '\n', '\r']

/-- What is percent-encoded in paths: controls, spaces, what is not ASCII, quotes, `#`, `<`,
    `>`, `?`, `^` and braces. -/
def isPathEncoded (c : Char) : Bool :=
  c.toNat ≤ 0x20 || 0x7e < c.toNat ||
    c.toNat ∈ [0x22, 0x23, 0x3c, 0x3e, 0x3f, 0x5e, 0x60, 0x7b, 0x7d]

def encodePath (s : List Char) : PathSegment :=
  s.flatMap fun c => if isPathEncoded c then escape c else [c]

def isSingleDot (seg : PathSegment) : Bool := seg.map Char.toLower ∈ [['.'], ['%', '2', 'e']]

def isDoubleDot (seg : PathSegment) : Bool :=
  seg.map Char.toLower ∈ [['.', '.'], ['.', '%', '2', 'e'], ['%', '2', 'e', '.'],
    ['%', '2', 'e', '%', '2', 'e']]

/-- Whether a segment is the letter of a drive. -/
def isDrive : PathSegment → Bool
  | [c, d] => c.isAlpha && (d = ':' || d = '|')
  | _ => false

def isNormalizedDrive : PathSegment → Bool
  | [c, d] => c.isAlpha && d = ':'
  | _ => false

def normalizeDrive (seg : PathSegment) : PathSegment := seg.take 1 ++ [':']

/-- What is read of a reference. -/
def clean (input : List Char) : List Char :=
  ((input.dropWhile isC0OrSpace).rdropWhile isC0OrSpace).filter fun c => ! isTabOrNewline c

/-- The segments of a relative reference, up to its query or fragment. -/
def segments (input : List Char) : List PathSegment :=
  (((clean input).takeWhile fun c => c ≠ '?' ∧ c ≠ '#').splitOnP
    fun c => c = '/' ∨ c = '\\').map encodePath

def move (seg : PathSegment) : Move PathSegment :=
  if isDoubleDot seg then .up else if isSingleDot seg then .stay else .down seg

/-- The moves of segments. Dots at the end are those of a directory, whose name is empty. -/
def moves : List PathSegment → List (Move PathSegment)
  | [] => []
  | [seg] =>
    match move seg with
    | .down seg => [.down seg]
    | m => [m, .down []]
  | seg :: segs => move seg :: moves segs

/-! ## Paths -/

/-- The letter of a drive is not removed. -/
def shorten : List PathSegment → List PathSegment
  | [seg] => if isNormalizedDrive seg then [seg] else []
  | path => path.dropLast

def go (path : List PathSegment) : Move PathSegment → List PathSegment
  | .stay => path
  | .up => shorten path
  | .down seg => path ++ [if path.isEmpty ∧ isDrive seg then normalizeDrive seg else seg]

/-- The path of the reference `input`, which begins with a dot, relative to that of a file. -/
def resolve (base : List PathSegment) (input : List Char) : List PathSegment :=
  -- The name of the file is removed first, and the moves are from its directory.
  (moves (segments input)).foldl go (shorten base)

def pathname (path : List PathSegment) : List Char := path.flatMap ('/' :: ·)

/-- Where the directories lead to, from the uppermost one. -/
def entries (names : List (List Char)) : List (List Char) :=
  names.foldl (fun dir name =>
    if name = [] ∨ name = ['.'] then dir
    else if name = ['.', '.'] then dir.dropLast
    else dir ++ [name]) []

/-- Where a path leads to. -/
def location (path : List Char) : List (List Char) := entries (path.splitOn '/')

/-- A path that ends in a slash or dots is that of a directory. -/
def isDirectory (path : List Char) : Bool :=
  (path.splitOn '/').getLast? ∈ [some [], some ['.'], some ['.', '.']]

/-- `new URL("./../a%2e/%2E%2e/b c/./?x", "file:///r/serve.mjs")` -/
example : pathname (resolve [['r'], ['s']] "./../a%2e/%2E%2e/b c/./?x".toList) =
    "/b%20c/".toList := by decide

/-! ## What remains of moves -/

section Reduced

variable {α : Type*} {ms : List (Move α)} {r : Reduced α} {m : Move α} {a : α}

theorem step_up_of_eq (h : r.names = []) : r.step .up = { r with ups := r.ups + 1 } := by
  rw [Reduced.step, h, if_pos List.isEmpty_nil]

theorem step_up_of_ne (h : r.names ≠ []) : r.step .up = { r with names := r.names.dropLast } := by
  rw [Reduced.step, if_neg (by rwa [List.isEmpty_iff])]

theorem mem_names_step (h : a ∈ (r.step m).names) : a ∈ r.names ∨ m = .down a := by
  cases m with
  | stay => exact .inl h
  | up =>
    rw [Reduced.step] at h
    split_ifs at h
    · exact .inl h
    · exact .inl (List.dropLast_subset _ h)
  | down b =>
    rcases List.mem_append.1 h with h | h
    · exact .inl h
    · exact .inr (by rw [List.mem_singleton.1 h])

theorem mem_names_foldl (h : a ∈ (ms.foldl Reduced.step r).names) : a ∈ r.names ∨ .down a ∈ ms := by
  induction ms generalizing r with
  | nil => exact .inl h
  | cons m ms ih =>
    rcases ih h with h | h
    · exact (mem_names_step h).imp_right fun (heq : m = .down a) => heq ▸ List.mem_cons_self
    · exact .inr (List.mem_cons_of_mem _ h)

/-- The names that remain are some of those gone down. -/
theorem mem_names_reduce (h : a ∈ (reduce ms).names) : .down a ∈ ms :=
  (mem_names_foldl h).resolve_left List.not_mem_nil

end Reduced

variable {r : Reduced PathSegment} {seg : PathSegment} {segs base pre kept path : List PathSegment}
  {s : List Char}

/-! ## Drives -/

/-- A segment, but for how a drive is written. -/
def norm (seg : PathSegment) : PathSegment := if isDrive seg then normalizeDrive seg else seg

theorem eq_of_isDrive (h : isDrive seg) :
    ∃ c d, seg = [c, d] ∧ c.isAlpha ∧ (d = ':' ∨ d = '|') ∧ normalizeDrive seg = [c, ':'] := by
  match seg, h with
  | [c, d], h =>
    simp only [isDrive, Bool.and_eq_true, Bool.or_eq_true, decide_eq_true_eq] at h
    exact ⟨c, d, rfl, h.1, h.2, rfl⟩

theorem eq_of_isNormalizedDrive (h : isNormalizedDrive seg) : ∃ c, seg = [c, ':'] ∧ c.isAlpha := by
  match seg, h with
  | [c, d], h =>
    simp only [isNormalizedDrive, Bool.and_eq_true, decide_eq_true_eq] at h
    exact ⟨c, by rw [h.2], h.1⟩

theorem isDrive_normalizeDrive (h : isDrive seg) : isDrive (normalizeDrive seg) := by
  obtain ⟨c, d, rfl, hc, -, hnorm⟩ := eq_of_isDrive h
  simp [hnorm, isDrive, hc]

theorem norm_normalizeDrive (h : isDrive seg) : norm (normalizeDrive seg) = norm seg := by
  rw [norm, if_pos (isDrive_normalizeDrive h), norm, if_pos h]
  obtain ⟨c, d, rfl, -, -, -⟩ := eq_of_isDrive h
  rfl

/-- What holds of a drive however it is written. -/
theorem norm_iff {P : PathSegment → Prop} (hP : ∀ c d, c.isAlpha → d = ':' ∨ d = '|' → P [c, d]) :
    P (norm seg) ↔ P seg := by
  rw [norm]
  split_ifs with h
  · obtain ⟨c, d, rfl, hc, hd, hnorm⟩ := eq_of_isDrive h
    rw [hnorm]
    exact iff_of_true (hP c ':' hc (.inl rfl)) (hP c d hc hd)
  · exact Iff.rfl

theorem forall_iff_of_map_norm {P : PathSegment → Prop}
    (hP : ∀ c d, c.isAlpha → d = ':' ∨ d = '|' → P [c, d]) (h : kept.map norm = segs.map norm) :
    (∀ seg ∈ kept, P seg) ↔ ∀ seg ∈ segs, P seg := by
  have hmap : ∀ l : List PathSegment, (∀ seg ∈ l, P seg) ↔ ∀ seg ∈ l.map norm, P seg := fun l => by
    simp only [List.forall_mem_map, norm_iff hP]
  rw [hmap, h, ← hmap]

/-! ## Paths and what remains of moves -/

/-- A path, of a part `pre` that is that of `base` or comes from it by going up, and names
    `kept` that are those that remain of the moves. -/
structure Follows (base pre kept : List PathSegment) (r : Reduced PathSegment) : Prop where
  names : kept.map norm = r.names.map norm
  mem : ∀ seg ∈ pre, seg ∈ base ∨ isNormalizedDrive seg
  within : r.ups = 0 → pre = base ∨ base = []
  above : r.ups ≠ 0 → ∀ seg ∈ pre, seg ∈ base.dropLast ∨ isNormalizedDrive seg

theorem mem_shorten (h : seg ∈ shorten path) : seg ∈ path.dropLast ∨ isNormalizedDrive seg := by
  unfold shorten at h
  split at h
  · split_ifs at h with hdrive
    · rw [List.mem_singleton.1 h]
      exact .inr hdrive
    · cases h
  · exact .inl h

theorem shorten_concat : shorten (path ++ [seg]) =
    if path.isEmpty ∧ isNormalizedDrive seg then [seg] else path := by
  rcases path with _ | ⟨a, path⟩
  · simp [shorten]
  · rw [if_neg (by simp), shorten, List.dropLast_concat]
    simp

theorem follows_nil (base : List PathSegment) : Follows base base [] ⟨0, []⟩ where
  names := rfl
  mem _ h := .inl h
  within _ := .inl rfl
  above h := absurd rfl h

theorem follows_go (h : Follows base pre kept r) (m : Move PathSegment) :
    ∃ pre' kept', go (pre ++ kept) m = pre' ++ kept' ∧ Follows base pre' kept' (r.step m) := by
  cases m with
  | stay => exact ⟨pre, kept, rfl, h⟩
  | down seg =>
    -- The names differ at most in how a drive is written.
    refine ⟨pre, _, List.append_assoc .., ?_, h.mem, h.within, h.above⟩
    rw [Reduced.step, List.map_append, List.map_append, h.names, List.map_singleton,
      List.map_singleton]
    split_ifs with hdrive
    · rw [norm_normalizeDrive hdrive.2]
    · rfl
  | up =>
    rw [go]
    rcases List.eq_nil_or_concat kept with rfl | ⟨kept, seg, rfl⟩
    · -- There is no name to cancel.
      have hnames : r.names = [] := by simpa using h.names.symm
      have hmem : ∀ seg ∈ shorten pre, seg ∈ base.dropLast ∨ isNormalizedDrive seg := by
        intro seg hseg
        rcases mem_shorten hseg with hseg | hseg
        · by_cases hups : r.ups = 0
          · rcases h.within hups with rfl | hbase
            · exact .inl hseg
            · exact .inr ((h.mem seg (List.dropLast_subset _ hseg)).resolve_left (by simp [hbase]))
          · exact h.above hups seg (List.dropLast_subset _ hseg)
        · exact .inr hseg
      refine ⟨shorten pre, [], by rw [List.append_nil, List.append_nil], ?_⟩
      rw [step_up_of_eq hnames]
      exact ⟨by rw [hnames], fun seg hseg => (hmem seg hseg).imp_left (List.dropLast_subset _ ·),
        fun hups => absurd hups (Nat.succ_ne_zero _), fun _ => hmem⟩
    · rw [List.concat_eq_append] at *
      have hnames : r.names.dropLast.map norm = kept.map norm := by
        rw [List.map_dropLast, ← h.names, List.map_append, List.map_singleton,
          List.dropLast_concat]
      have hne : r.names ≠ [] := by
        rw [Ne, ← List.map_eq_nil_iff (f := norm), ← h.names]
        simp
      rw [← List.append_assoc, shorten_concat, step_up_of_ne hne]
      split_ifs with hdrive
      · -- The drive cannot be left.
        obtain ⟨rfl, rfl⟩ := List.append_eq_nil_iff.1 (List.isEmpty_iff.1 hdrive.1)
        refine ⟨[seg], [], rfl, hnames.symm, ?_, fun hups => ?_, ?_⟩
        · rintro _ (_ | ⟨_, ⟨⟩⟩)
          exact .inr hdrive.2
        · exact .inr ((h.within hups).elim Eq.symm id)
        · rintro - _ (_ | ⟨_, ⟨⟩⟩)
          exact .inr hdrive.2
      · exact ⟨pre, kept, rfl, hnames.symm, h.mem, h.within, h.above⟩

theorem follows_foldl (h : Follows base pre kept r) (ms : List (Move PathSegment)) : ∃ pre' kept',
    ms.foldl go (pre ++ kept) = pre' ++ kept' ∧
      Follows base pre' kept' (ms.foldl Reduced.step r) := by
  induction ms generalizing pre kept r with
  | nil => exact ⟨pre, kept, rfl, h⟩
  | cons m ms ih =>
    obtain ⟨pre', kept', hgo, h'⟩ := follows_go h m
    rw [List.foldl_cons, hgo, List.foldl_cons]
    exact ih h'

/-- A path is what remains of the directory it is relative to, and the names that remain of
    the moves. -/
theorem follows_resolve (base : List PathSegment) (s : List Char) : ∃ pre kept,
    resolve base s = pre ++ kept ∧
      Follows (shorten base) pre kept (reduce (moves (segments s))) := by
  have h := follows_foldl (follows_nil (shorten base)) (moves (segments s))
  rwa [List.append_nil] at h

/-! ## Names -/

/-- A segment that is no move but down, and has no slash. -/
structure Plain (seg : PathSegment) : Prop where
  slash : '/' ∉ seg
  single : ¬ isSingleDot seg
  double : ¬ isDoubleDot seg

theorem plain_nil : Plain [] := ⟨List.not_mem_nil, by decide, by decide⟩

theorem plain_of_isAlpha (c d : Char) (hc : c.isAlpha) (hd : d = ':' ∨ d = '|') : Plain [c, d] := by
  have hslash : c ≠ '/' := by
    rintro rfl
    cases hc
  rcases hd with rfl | rfl
  · exact ⟨by simp [hslash.symm], by simp [isSingleDot], by simp [isDoubleDot]⟩
  · exact ⟨by simp [hslash.symm], by simp [isSingleDot], by simp [isDoubleDot]⟩

theorem not_mem_of_mem_splitOnP {p : Char → Bool} {c : Char} (hc : p c) {l : List Char}
    (h : l ∈ s.splitOnP p) : c ∉ l := by
  induction s generalizing l with
  | nil =>
    rw [List.splitOnP_nil, List.mem_singleton] at h
    subst h
    exact List.not_mem_nil
  | cons d s ih =>
    rw [List.splitOnP_cons_eq_if_modifyHead] at h
    split_ifs at h with hd
    · rcases List.mem_cons.1 h with rfl | h
      · exact List.not_mem_nil
      · exact ih h
    · obtain ⟨a, l', hsplit⟩ := List.exists_cons_of_ne_nil (List.splitOnP_ne_nil p s)
      rw [hsplit, List.modifyHead_cons, List.mem_cons] at h
      rw [hsplit] at ih
      rcases h with rfl | h
      · rw [List.mem_cons, not_or]
        exact ⟨fun heq => hd (heq ▸ hc), ih List.mem_cons_self⟩
      · exact ih (List.mem_cons_of_mem _ h)

theorem not_mem_encodePath (h : '/' ∉ s) : '/' ∉ encodePath s := by
  intro hmem
  obtain ⟨c, hc, hmem⟩ := List.mem_flatMap.1 hmem
  split_ifs at hmem
  · obtain ⟨b, -, hb⟩ := List.mem_flatMap.1 hmem
    have hdigit : ∀ n < 16, hexDigit n ≠ '/' := by decide
    have hlt := b.toNat_lt
    simp only [escapeByte, List.mem_cons, List.not_mem_nil, or_false] at hb
    rcases hb with hb | hb | hb
    · cases hb
    · exact hdigit _ (by omega) hb.symm
    · exact hdigit _ (by omega) hb.symm
  · rw [List.mem_singleton.1 hmem] at h
    exact h hc

theorem not_mem_of_mem_segments (h : seg ∈ segments s) : '/' ∉ seg := by
  obtain ⟨l, hl, rfl⟩ := List.mem_map.1 h
  exact not_mem_encodePath (not_mem_of_mem_splitOnP (by simp) hl)

theorem mem_of_down_move {seg' : PathSegment} (h : move seg = .down seg') :
    seg = seg' ∧ ¬ isSingleDot seg ∧ ¬ isDoubleDot seg := by
  rw [move] at h
  split_ifs at h with hdouble hsingle
  cases h
  exact ⟨rfl, hsingle, hdouble⟩

theorem mem_of_down_mem_moves (h : .down seg ∈ moves segs) :
    seg = [] ∨ seg ∈ segs ∧ ¬ isSingleDot seg ∧ ¬ isDoubleDot seg := by
  fun_induction moves segs with
  | case1 => cases h
  | case2 a seg' hmove =>
    rw [List.mem_singleton] at h
    cases h
    obtain ⟨rfl, hdots⟩ := mem_of_down_move hmove
    exact .inr ⟨List.mem_singleton_self _, hdots⟩
  | case3 a hdown =>
    rcases List.mem_cons.1 h with h | h
    · exact absurd h.symm (hdown seg)
    · cases List.mem_singleton.1 h
      exact .inl rfl
  | case4 a segs hne ih =>
    rcases List.mem_cons.1 h with h | h
    · obtain ⟨rfl, hdots⟩ := mem_of_down_move h.symm
      exact .inr ⟨List.mem_cons_self, hdots⟩
    · exact (ih h).imp_right (And.imp_left (List.mem_cons_of_mem _))

/-- The last move goes down. -/
theorem moves_eq_concat (h : segs ≠ []) : ∃ ms seg, moves segs = ms ++ [.down seg] := by
  fun_induction moves segs with
  | case1 => exact absurd rfl h
  | case2 a seg hmove => exact ⟨[], seg, rfl⟩
  | case3 a hdown => exact ⟨[move a], [], rfl⟩
  | case4 a segs hne ih =>
    obtain ⟨ms, seg, hms⟩ := ih hne
    exact ⟨move a :: ms, seg, by rw [hms, List.cons_append]⟩

theorem names_ne_nil (s : List Char) : (reduce (moves (segments s))).names ≠ [] := by
  have hne : segments s ≠ [] := by
    rw [segments, Ne, List.map_eq_nil_iff]
    exact List.splitOnP_ne_nil _ _
  obtain ⟨ms, seg, hms⟩ := moves_eq_concat hne
  rw [hms, reduce, List.foldl_append, List.foldl_cons, List.foldl_nil, Reduced.step]
  exact List.concat_ne_nil _ _

/-- A path ends with a segment that is empty when the last name that remains of the moves
    is. -/
theorem resolve_eq_concat (base : List PathSegment) (s : List Char) : ∃ path seg,
    resolve base s = path ++ [seg] ∧
      (seg = [] ↔ (reduce (moves (segments s))).names.getLast? = some []) := by
  obtain ⟨pre, kept, hpath, hfollows⟩ := follows_resolve base s
  obtain ⟨names, seg', hnames⟩ := (List.eq_nil_or_concat _).resolve_left (names_ne_nil s)
  have hmap := hfollows.names
  rw [hnames, List.concat_eq_append, List.map_append, List.map_singleton,
    List.map_eq_append_iff] at hmap
  obtain ⟨kept, last, rfl, -, hlast⟩ := hmap
  obtain ⟨seg, rfl, hnorm⟩ := List.map_eq_singleton_iff.1 hlast
  -- A drive has a letter, however it is written.
  have hempty : ∀ seg : PathSegment, norm seg ≠ [] ↔ seg ≠ [] := fun seg =>
    norm_iff (P := (· ≠ [])) fun _ _ _ _ => List.cons_ne_nil _ _
  refine ⟨pre ++ kept, seg, by rw [hpath, List.append_assoc], ?_⟩
  rw [hnames, List.concat_eq_append, List.getLast?_concat, Option.some_inj,
    ← not_iff_not, ← Ne, ← hempty, hnorm, hempty]

theorem plain_of_mem_names (h : seg ∈ (reduce (moves (segments s))).names) : Plain seg := by
  rcases mem_of_down_mem_moves (mem_names_reduce h) with rfl | ⟨hmem, hsingle, hdouble⟩
  · exact plain_nil
  · exact ⟨not_mem_of_mem_segments hmem, hsingle, hdouble⟩

/-! ## Paths of files -/

section MapM

variable {α β : Type*} {f : α → Option β} {l : List α} {l' : List β}

theorem mapM_cons_eq_some {a : α} : (a :: l).mapM f = some l' ↔
    ∃ b l'', f a = some b ∧ l.mapM f = some l'' ∧ l' = b :: l'' := by
  rw [List.mapM_cons]
  rcases f a with _ | b
  · simp
  · rcases l.mapM f with _ | l''
    · simp
    · simp [eq_comm]

theorem exists_of_mem_mapM {b : β} (h : l.mapM f = some l') (hb : b ∈ l') :
    ∃ a ∈ l, f a = some b := by
  induction l generalizing l' with
  | nil =>
    cases h
    cases hb
  | cons a l ih =>
    obtain ⟨b', l'', ha, hl, rfl⟩ := mapM_cons_eq_some.1 h
    rcases List.mem_cons.1 hb with rfl | hb
    · exact ⟨a, List.mem_cons_self, ha⟩
    · obtain ⟨a', hmem, ha'⟩ := ih hl hb
      exact ⟨a', List.mem_cons_of_mem _ hmem, ha'⟩

theorem isSome_mapM : (l.mapM f).isSome ↔ ∀ a ∈ l, (f a).isSome := by
  induction l with
  | nil => simp
  | cons a l ih =>
    rw [List.forall_mem_cons, ← ih, List.mapM_cons]
    rcases f a with _ | b
    · simp
    · rcases l.mapM f with _ | l' <;> simp

theorem mapM_append_eq_some {l₁ l₂ : List α} {l₁' : List β} (h : l₁.mapM f = some l₁') :
    (l₁ ++ l₂).mapM f = (l₂.mapM f).map (l₁' ++ ·) := by
  rw [List.mapM_append, h]
  rcases l₂.mapM f with _ | l₂' <;> rfl

theorem mapM_concat_eq_some {a : α} : (l ++ [a]).mapM f = some l' ↔
    ∃ l'' b, l.mapM f = some l'' ∧ f a = some b ∧ l' = l'' ++ [b] := by
  rw [List.mapM_append, List.mapM_cons, List.mapM_nil]
  rcases l.mapM f with _ | l''
  · simp
  · rcases f a with _ | b
    · simp
    · simp [eq_comm]

end MapM

section Files

variable {names : List (List Char)} {name : List Char}

theorem separates_slash : Separates '/' := ⟨by decide, by decide⟩

theorem decode_append_pathname (s : List Char) (path : List PathSegment) :
    decodeURIComponent (s ++ pathname path) = (decodeURIComponent s).bind fun a =>
      (path.mapM decodeURIComponent).map fun names => a ++ pathname names := by
  induction path generalizing s with
  | nil => simp [pathname]
  | cons seg path ih =>
    have hcons : s ++ pathname (seg :: path) = s ++ '/' :: (seg ++ pathname path) := rfl
    rw [hcons, decodeURIComponent_append separates_slash, ih, List.mapM_cons]
    rcases decodeURIComponent s with _ | a
    · rfl
    · rcases decodeURIComponent seg with _ | b
      · rfl
      · rcases path.mapM decodeURIComponent with _ | names <;> rfl

/-- The escapes of a path are those of its segments. -/
theorem decode_pathname (path : List PathSegment) :
    decodeURIComponent (pathname path) = (path.mapM decodeURIComponent).map pathname := by
  have h := decode_append_pathname [] path
  rw [List.nil_append] at h
  exact h

theorem hasEscape_append_pathname {b : UInt8} (s : List Char) (path : List PathSegment) :
    hasEscape b (s ++ pathname path) ↔ hasEscape b s ∨ ∃ seg ∈ path, hasEscape b seg := by
  induction path generalizing s with
  | nil => simp [pathname]
  | cons seg path ih =>
    have hcons : s ++ pathname (seg :: path) = s ++ '/' :: (seg ++ pathname path) := rfl
    rw [hcons, hasEscape_append separates_slash, ih]
    simp

theorem hasEscape_pathname {b : UInt8} :
    hasEscape b (pathname path) ↔ ∃ seg ∈ path, hasEscape b seg := by
  have h := hasEscape_append_pathname (b := b) [] path
  rw [List.nil_append] at h
  exact h.trans (or_iff_right (by simp [hasEscape, octet]))

theorem splitOn_append_pathname (hs : '/' ∉ s) (h : ∀ name ∈ names, '/' ∉ name) :
    (s ++ pathname names).splitOn '/' = s :: names := by
  induction names generalizing s with
  | nil =>
    rw [pathname, List.flatMap_nil, List.append_nil]
    exact List.splitOn_eq_singleton hs
  | cons name names ih =>
    rw [List.forall_mem_cons] at h
    have hcons : s ++ pathname (name :: names) = s ++ '/' :: (name ++ pathname names) := rfl
    rw [hcons, List.splitOn_append_cons_self_of_not_mem hs, ih h.1 h.2]

theorem entries_eq_filter (h : ∀ name ∈ names, name ≠ ['.'] ∧ name ≠ ['.', '.']) :
    entries names = names.filter (· ≠ []) := by
  have hfoldl : ∀ dir : List (List Char), names.foldl (fun dir name =>
      if name = [] ∨ name = ['.'] then dir else if name = ['.', '.'] then dir.dropLast
      else dir ++ [name]) dir = dir ++ names.filter (· ≠ []) := by
    induction names with
    | nil => exact fun dir => (List.append_nil dir).symm
    | cons name names ih =>
      rw [List.forall_mem_cons] at h
      intro dir
      rw [List.foldl_cons, ih h.2]
      rcases eq_or_ne name [] with rfl | hne
      · rw [if_pos (.inl rfl), List.filter_cons_of_neg (by simp)]
      · rw [if_neg (by simp [hne, h.1.1]), if_neg h.1.2, List.filter_cons_of_pos (by simpa),
          List.append_assoc, List.singleton_append]
  exact hfoldl []

/-- A dot that is decoded was a dot or its escape. -/
theorem toLower_of_decode {t : List Char} (h : decodeURIComponent s = some ('.' :: t)) :
    ∃ rest, decodeURIComponent rest = some t ∧ (s.map Char.toLower = '.' :: rest.map Char.toLower ∨
      s.map Char.toLower = '%' :: '2' :: 'e' :: rest.map Char.toLower) := by
  obtain ⟨rest, hrest, rfl | hoctet⟩ := decode_eq_cons h (by decide)
  · exact ⟨rest, hrest, .inl rfl⟩
  · obtain ⟨d, e, rfl, hd, he⟩ := octet_toLower hoctet
    exact ⟨rest, hrest, .inr (by simp only [List.map_cons, hd, he]; rfl)⟩

theorem isSingleDot_of_decode (h : decodeURIComponent seg = some ['.']) : isSingleDot seg := by
  obtain ⟨rest, hrest, hseg⟩ := toLower_of_decode h
  obtain rfl := decode_eq_nil hrest
  rcases hseg with hseg | hseg <;> simp [isSingleDot, hseg]

theorem isDoubleDot_of_decode (h : decodeURIComponent seg = some ['.', '.']) :
    isDoubleDot seg := by
  obtain ⟨rest, hrest, hseg⟩ := toLower_of_decode h
  obtain ⟨rest', hrest', hseg'⟩ := toLower_of_decode hrest
  obtain rfl := decode_eq_nil hrest'
  rcases hseg with hseg | hseg <;> rcases hseg' with hseg' | hseg' <;>
    simp [isDoubleDot, hseg, hseg']

/-- What a plain segment is decoded into is the name of an entry, if it is not empty. -/
theorem name_of_plain (h : decodeURIComponent seg = some name) (hseg : Plain seg)
    (hslash : ¬ hasEscape 0x2f seg) : '/' ∉ name ∧ name ≠ ['.'] ∧ name ≠ ['.', '.'] := by
  refine ⟨fun hmem => ?_, ?_, ?_⟩
  · exact (mem_decode h hmem (by decide)).elim hseg.slash hslash
  · -- What is decoded into dots is a segment of dots.
    rintro rfl
    exact hseg.single (isSingleDot_of_decode h)
  · rintro rfl
    exact hseg.double (isDoubleDot_of_decode h)

section Path

variable (h : path.mapM decodeURIComponent = some names) (hplain : ∀ seg ∈ path, Plain seg)
  (hslash : ¬ hasEscape 0x2f (pathname path))
include h hplain hslash

theorem name_of_mem (hname : name ∈ names) : '/' ∉ name ∧ name ≠ ['.'] ∧ name ≠ ['.', '.'] := by
  obtain ⟨seg, hseg, hdecode⟩ := exists_of_mem_mapM h hname
  exact name_of_plain hdecode (hplain seg hseg) fun h =>
    hslash (hasEscape_pathname.2 ⟨seg, hseg, h⟩)

theorem splitOn_pathname : (pathname names).splitOn '/' = [] :: names := by
  have hsplit := splitOn_append_pathname (s := []) List.not_mem_nil
    fun name hname => (name_of_mem h hplain hslash hname).1
  rwa [List.nil_append] at hsplit

/-- A path of plain segments leads where these say. -/
theorem location_pathname : location (pathname names) = names.filter (· ≠ []) := by
  rw [location, splitOn_pathname h hplain hslash, entries_eq_filter,
    List.filter_cons_of_neg (by simp)]
  rw [List.forall_mem_cons]
  exact ⟨by simp, fun name hname => (name_of_mem h hplain hslash hname).2⟩

end Path

/-- A path of plain segments is that of a directory exactly when the last one is empty. -/
theorem isDirectory_pathname (h : (path ++ [seg]).mapM decodeURIComponent = some names)
    (hplain : ∀ seg' ∈ path ++ [seg], Plain seg')
    (hslash : ¬ hasEscape 0x2f (pathname (path ++ [seg]))) :
    isDirectory (pathname names) ↔ seg = [] := by
  rw [isDirectory, splitOn_pathname h hplain hslash]
  obtain ⟨names, name, -, hname, rfl⟩ := mapM_concat_eq_some.1 h
  obtain ⟨-, hsingle, hdouble⟩ := name_of_mem h hplain hslash List.mem_concat_self
  have hempty : name = [] ↔ seg = [] := by
    constructor
    · rintro rfl
      exact decode_eq_nil hname
    · rintro rfl
      exact (Option.some.inj hname).symm
  rw [← List.cons_append, List.getLast?_concat, ← hempty]
  simp [hsingle, hdouble]

end Files

end IrohWebrtc.Url
