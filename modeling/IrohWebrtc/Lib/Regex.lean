import Mathlib.Data.List.Infix

/-!
# Backtracking patterns

Regular expressions as programs match them: from the left, greedily, with
backtracking, and with captures. A pattern is matched with a continuation, which
is what follows it; the continuation failing is what makes a pattern backtrack
(`Regex.exec`). Literals are compared up to `canon`, which is `id` or, for a
pattern that ignores case, a function to one case.

* A repeated class takes all it can, if what follows cannot begin with a
  character of the class (`exec_plus_of_stops`) or if what follows the longest
  run matches (`exec_plus_greedy`);
* a literal that does not start in a text, whatever comes after it (`Clear`), is
  searched for after the text (`search_append`, `matchAll_append`).
-/

namespace IrohWebrtc

/-- Patterns: literals, one or more characters of a class, captures, sequences and
    options. -/
inductive Regex (α : Type*)
  | lit (t : List α)
  | plus (p : α → Bool)
  | capture (n : ℕ) (r : Regex α)
  | seq (r₁ r₂ : Regex α)
  | opt (r : Regex α)

/-- The texts of captures by their numbers, the last captured first. -/
abbrev Captures (α : Type*) := List (ℕ × List α)

namespace Regex

variable {α β : Type*} [DecidableEq α] (canon : α → α)

/-- A sequence of patterns. -/
def cat : List (Regex α) → Regex α
  | [] => .lit []
  | r :: l => .seq r (cat l)

/-- What follows a literal at the beginning of a text. -/
def dropLit : List α → List α → Option (List α)
  | [], s => some s
  | _ :: _, [] => none
  | c :: t, d :: s => if canon c = canon d then dropLit t s else none

/-- Characters of a class, as many as possible, and what follows. -/
def run (p : α → Bool) : List α → (List α → Option β) → Option β
  | [], k => k []
  | c :: s, k => if p c then (run p s k).or (k (c :: s)) else k (c :: s)

/-- A pattern at the beginning of a text, and what follows. -/
def exec : Regex α → Captures α → List α → (Captures α → List α → Option β) → Option β
  | .lit t, m, s, k => (dropLit canon t s).bind (k m)
  | .plus _, _, [], _ => none
  | .plus p, m, c :: s, k => if p c then run p s (k m) else none
  | .capture n r, m, s, k =>
    exec r m s fun m s' => k ((n, s.take (s.length - s'.length)) :: m) s'
  | .seq r₁ r₂, m, s, k => exec r₁ m s fun m s => exec r₂ m s k
  | .opt r, m, s, k => (exec r m s k).or (k m s)

/-- The match at the beginning of a text, and the rest of it. -/
def matchHere (r : Regex α) (s : List α) : Option (Captures α × List α) :=
  r.exec canon [] s fun m s => some (m, s)

/-- The first match in a text. -/
def search (r : Regex α) : List α → Option (Captures α)
  | [] => (r.matchHere canon []).map Prod.fst
  | c :: s =>
    match r.matchHere canon (c :: s) with
    | some (m, _) => some m
    | none => search r s

/-- The matches in a text after the first `n` characters, each beginning where the
    one before ends, or a character later when this is empty. -/
def matchAllFrom (r : Regex α) : ℕ → List α → List (Captures α)
  | _, [] => ((r.matchHere canon []).map Prod.fst).toList
  | 0, c :: s =>
    match r.matchHere canon (c :: s) with
    | some (m, s') => m :: matchAllFrom r (s.length - s'.length) s
    | none => matchAllFrom r 0 s
  | n + 1, _ :: s => matchAllFrom r n s

/-- The matches in a text. -/
def matchAll (r : Regex α) (s : List α) : List (Captures α) := r.matchAllFrom canon 0 s

variable {canon} {p : α → Bool} {m : Captures α} {s t u v : List α} {c z : α} {r : Regex α}
  {k : Captures α → List α → Option β} {n : ℕ} {l : List (Regex α)}

/-! ## Literals -/

variable (canon) in
/-- A text begins with a literal. -/
def Starts (t s : List α) : Prop := t.map canon <+: s.map canon

instance : Decidable (Starts canon t s) := inferInstanceAs (Decidable (_ <+: _))

theorem dropLit_append (h : u.map canon = t.map canon) : dropLit canon t (u ++ s) = some s := by
  induction t generalizing u with
  | nil =>
    obtain rfl := List.map_eq_nil_iff.1 h
    rfl
  | cons c t ih =>
    obtain ⟨d, u, rfl⟩ := List.exists_cons_of_ne_nil (l := u) (by rintro rfl; simp at h)
    rw [List.map_cons, List.map_cons, List.cons.injEq] at h
    rw [List.cons_append, dropLit, if_pos h.1.symm]
    exact ih h.2

theorem dropLit_of_not_starts (h : ¬ Starts canon t s) : dropLit canon t s = none := by
  induction t generalizing s with
  | nil => exact absurd (List.nil_prefix) h
  | cons c t ih =>
    cases s with
    | nil => rfl
    | cons d s =>
      rw [dropLit]
      split
      · next hcd =>
        refine ih fun hs => h ?_
        rw [Starts, List.map_cons, List.map_cons, hcd]
        exact (List.prefix_cons_inj _).2 hs
      · rfl

/-- A literal up to case. -/
theorem exec_lit_append (h : u.map canon = t.map canon) :
    (lit t).exec canon m (u ++ s) k = k m s := by
  rw [exec, dropLit_append h]
  rfl

theorem exec_lit_self : (lit t).exec canon m (t ++ s) k = k m s := exec_lit_append rfl

theorem exec_lit_of_not_starts (h : ¬ Starts canon t s) : (lit t).exec canon m s k = none := by
  rw [exec, dropLit_of_not_starts h]
  rfl

theorem exec_cat_cons : (cat (r :: l)).exec canon m s k =
    r.exec canon m s fun m s => (cat l).exec canon m s k := rfl

/-! ## Repeated classes -/

omit [DecidableEq α] in
/-- A run of a class takes all it can, if what follows does not begin with one of the
    class. -/
theorem run_of_stops {k : List α → Option β} (ht : ∀ c ∈ t, p c) (hs : ∀ c ∈ s.head?, ¬ p c)
    (hk : ∀ c s, p c → k (c :: s) = none) : run p (t ++ s) k = k s := by
  induction t with
  | nil =>
    cases s with
    | nil => rfl
    | cons c s => exact if_neg (hs c rfl)
  | cons c t ih =>
    have hc : p c := ht c List.mem_cons_self
    rw [List.cons_append, run, if_pos hc, ih fun d hd => ht d (List.mem_cons_of_mem _ hd),
      hk c _ hc, Option.or_none]

omit [DecidableEq α] in
/-- A run of a class takes all it can, if what follows this matches. -/
theorem run_greedy {k : List α → Option β} (ht : ∀ c ∈ t, p c) (hs : ∀ c ∈ s.head?, ¬ p c)
    {b : β} (hk : k s = some b) : run p (t ++ s) k = some b := by
  induction t with
  | nil =>
    cases s with
    | nil => exact hk
    | cons c s => exact (if_neg (hs c rfl)).trans hk
  | cons c t ih =>
    rw [List.cons_append, run, if_pos (ht c List.mem_cons_self),
      ih fun d hd => ht d (List.mem_cons_of_mem _ hd)]
    rfl

theorem exec_plus_of_stops (hne : t ≠ []) (ht : ∀ c ∈ t, p c) (hs : ∀ c ∈ s.head?, ¬ p c)
    (hk : ∀ m c s, p c → k m (c :: s) = none) : (plus p).exec canon m (t ++ s) k = k m s := by
  obtain ⟨c, t, rfl⟩ := List.exists_cons_of_ne_nil hne
  rw [List.cons_append, exec, if_pos (ht c List.mem_cons_self)]
  exact run_of_stops (fun d hd => ht d (List.mem_cons_of_mem _ hd)) hs (hk m)

theorem exec_plus_greedy (hne : t ≠ []) (ht : ∀ c ∈ t, p c) (hs : ∀ c ∈ s.head?, ¬ p c) {b : β}
    (hk : k m s = some b) : (plus p).exec canon m (t ++ s) k = some b := by
  obtain ⟨c, t, rfl⟩ := List.exists_cons_of_ne_nil hne
  rw [List.cons_append, exec, if_pos (ht c List.mem_cons_self)]
  exact run_greedy (fun d hd => ht d (List.mem_cons_of_mem _ hd)) hs hk

omit [DecidableEq α] in
theorem take_append_sub_length : (t ++ s).take ((t ++ s).length - s.length) = t := by
  rw [List.length_append, Nat.add_sub_cancel, List.take_left]

/-- A captured run of a class. -/
theorem exec_capture_of_stops (hne : t ≠ []) (ht : ∀ c ∈ t, p c) (hs : ∀ c ∈ s.head?, ¬ p c)
    (hk : ∀ m c s, p c → k m (c :: s) = none) :
    (capture n (plus p)).exec canon m (t ++ s) k = k ((n, t) :: m) s := by
  rw [exec, exec_plus_of_stops (k := fun m s' => k ((n, (t ++ s).take _) :: m) s') hne ht hs
    fun m c s hc => hk _ c s hc]
  rw [take_append_sub_length]

theorem exec_capture_greedy (hne : t ≠ []) (ht : ∀ c ∈ t, p c) (hs : ∀ c ∈ s.head?, ¬ p c) {b : β}
    (hk : k ((n, t) :: m) s = some b) :
    (capture n (plus p)).exec canon m (t ++ s) k = some b := by
  rw [exec]
  refine exec_plus_greedy hne ht hs ?_
  rw [take_append_sub_length]
  exact hk

/-! ## Searching -/

variable (canon) in
/-- A literal does not start in a text, whatever comes after it. -/
def Clear (t : List α) : List α → Prop
  | [] => True
  | c :: u => (∀ s, ¬ Starts canon t (c :: u ++ s)) ∧ Clear t u

omit [DecidableEq α] in
theorem Clear.append (hu : Clear canon t u) (hv : Clear canon t v) : Clear canon t (u ++ v) := by
  induction u with
  | nil => exact hv
  | cons c u ih =>
    refine ⟨fun s hs => hu.1 (v ++ s) ?_, ih hu.2⟩
    rw [← List.append_assoc]
    exact hs

omit [DecidableEq α] in
/-- A literal that is not in a text does not start in it when this ends with a
    character that is not in the literal. -/
theorem clear_concat (hu : ¬ t.map canon <:+: u.map canon) (hz : canon z ∉ t.map canon) :
    Clear canon t (u ++ [z]) := by
  induction u with
  | nil =>
    refine ⟨fun s hs => ?_, trivial⟩
    cases t with
    | nil => exact hu (List.nil_infix)
    | cons c t =>
      rw [Starts, List.map_cons, List.cons_append, List.map_cons, List.cons_prefix_cons] at hs
      exact hz (hs.1 ▸ List.mem_cons_self)
  | cons c u ih =>
    refine ⟨fun s hs => ?_, ih fun h => hu (h.trans (List.suffix_cons _ _).isInfix)⟩
    have hz' : canon z ∈ (c :: u ++ [z]).map canon := by simp
    have hall : (c :: u ++ [z]).map canon <+: (c :: (u ++ [z]) ++ s).map canon := by
      exact List.IsPrefix.map canon (List.prefix_append (c :: u ++ [z]) s)
    rcases le_total (t.map canon).length ((c :: u ++ [z]).map canon).length with h | h
    · have h := List.prefix_of_prefix_length_le hs hall h
      rw [List.map_append, List.map_singleton, List.prefix_concat_iff] at h
      rcases h with h | h
      · exact hz (by simp [h])
      · exact hu h.isInfix
    · exact hz ((List.prefix_of_prefix_length_le hall hs h).subset hz')

variable (canon) in
/-- Two texts differ where both have a character. -/
def differ : List α → List α → Bool
  | c :: t, d :: u => canon c ≠ canon d || differ t u
  | _, _ => false

variable (canon) in
/-- At each of its characters, a text differs from a literal. -/
def clears (t : List α) : List α → Bool
  | [] => true
  | c :: u => differ canon t (c :: u) && clears t u

theorem not_starts_of_differ (h : differ canon t u) : ¬ Starts canon t (u ++ s) := by
  induction t generalizing u with
  | nil => simp [differ] at h
  | cons c t ih =>
    cases u with
    | nil => simp [differ] at h
    | cons d u =>
      intro hs
      rw [Starts, List.cons_append, List.map_cons, List.map_cons, List.cons_prefix_cons] at hs
      rw [differ, Bool.or_eq_true, decide_eq_true_eq] at h
      exact h.elim (fun h => h hs.1) fun h => ih h hs.2

theorem clear_of_clears (h : clears canon t u) : Clear canon t u := by
  induction u with
  | nil => trivial
  | cons c u ih =>
    rw [clears, Bool.and_eq_true] at h
    exact ⟨fun _ => not_starts_of_differ h.1, ih h.2⟩

omit [DecidableEq α] in
/-- A literal starts only where what it begins with does. -/
theorem Clear.of_prefix (ht : t <+: v) (hu : Clear canon t u) : Clear canon v u := by
  induction u with
  | nil => trivial
  | cons c u ih =>
    exact ⟨fun s hs => hu.1 s ((ht.map canon).trans hs), ih hu.2⟩

/-- A sequence that begins with a literal does not match where this does not start. -/
theorem matchHere_of_not_starts (h : ¬ Starts canon t s) :
    (cat (lit t :: l)).matchHere canon s = none := by
  rw [matchHere, exec_cat_cons, exec_lit_of_not_starts h]

theorem search_append (hu : Clear canon t u) :
    (cat (lit t :: l)).search canon (u ++ s) = (cat (lit t :: l)).search canon s := by
  induction u with
  | nil => rfl
  | cons c u ih =>
    rw [List.cons_append, search, ← List.cons_append, matchHere_of_not_starts (hu.1 s)]
    exact ih hu.2

theorem search_of_matchHere (h : r.matchHere canon s = some (m, u)) : r.search canon s = some m := by
  cases s with
  | nil => rw [search, h, Option.map_some]
  | cons c s => rw [search, h]

theorem matchAll_append (hu : Clear canon t u) :
    (cat (lit t :: l)).matchAll canon (u ++ s) = (cat (lit t :: l)).matchAll canon s := by
  induction u with
  | nil => rfl
  | cons c u ih =>
    rw [List.cons_append, matchAll, matchAllFrom, ← List.cons_append,
      matchHere_of_not_starts (hu.1 s)]
    exact ih hu.2

/-- As much as this, when the text only begins with the literal. -/
theorem matchAll_append_of_tail (h : (cat (lit t :: l)).matchHere canon (u ++ s) = none)
    (hu : Clear canon t u.tail) :
    (cat (lit t :: l)).matchAll canon (u ++ s) = (cat (lit t :: l)).matchAll canon s := by
  cases u with
  | nil => rfl
  | cons c u =>
    rw [List.cons_append] at h ⊢
    rw [matchAll, matchAllFrom, h]
    exact matchAll_append hu

theorem matchAllFrom_append : r.matchAllFrom canon u.length (u ++ s) = r.matchAll canon s := by
  induction u with
  | nil => rfl
  | cons c u ih => exact ih

theorem matchAll_of_matchHere (h : r.matchHere canon (u ++ s) = some (m, s)) (hne : u ≠ []) :
    r.matchAll canon (u ++ s) = m :: r.matchAll canon s := by
  obtain ⟨c, u, rfl⟩ := List.exists_cons_of_ne_nil hne
  rw [List.cons_append] at h ⊢
  rw [matchAll, matchAllFrom, h]
  refine congrArg (m :: ·) ?_
  rw [List.length_append, Nat.add_sub_cancel]
  exact matchAllFrom_append

end Regex

end IrohWebrtc
