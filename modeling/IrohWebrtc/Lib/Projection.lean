import IrohWebrtc.Lib.Machine
import Mathlib.Data.List.Nodup

/-!
# Projections of machines

A part of a machine that only some of its events bear on, as a machine of its own
(`Projects`): every run is seen as a run of this on these events (`Projects.run`). If the
part starts in one state, what its events do in a run is known from which they are, whatever
else happens (`Projects.out_eq`).

Also positions in a list of the elements that meet a condition, for parts that are made of
some elements of a list.
-/

namespace IrohWebrtc

/-- A step, with a part of the state it was taken from. -/
def Taken.map {S V E O : Type*} (view : S → V) (t : Taken S E O) : Taken V E O :=
  ⟨view t.pre, t.event, t.out⟩

namespace Machine

variable {S V E O : Type*} {m : Machine S E O} {n : Machine V E O} {view : S → V}
  {about : E → Bool} {inv : S → Prop} {h h' : List (Taken S E O)} {s s' : S}

/-- The part `view` of the states of `m`, on which the events `about` it act as `n` does,
    and others do not, as long as the invariant `inv` holds. -/
structure Projects (m : Machine S E O) (n : Machine V E O) (view : S → V) (about : E → Bool)
    (inv : S → Prop) : Prop where
  init : ∀ s ∈ m.init, view s ∈ n.init
  inv_init : ∀ s ∈ m.init, inv s
  inv_step : ∀ s e s' o, inv s → m.step s e = some (s', o) → inv s'
  of_about : ∀ s e s' o, inv s → about e → m.step s e = some (s', o) →
    n.step (view s) e = some (view s', o)
  of_not_about : ∀ s e s' o, inv s → ¬ about e → m.step s e = some (s', o) → view s' = view s

/-- The history of a part. -/
def project (view : S → V) (about : E → Bool) (h : List (Taken S E O)) : List (Taken V E O) :=
  (h.filter fun t => about t.event).map (·.map view)

theorem Projects.run (hp : Projects m n view about inv) (hr : m.Run h s) :
    n.Run (project view about h) (view s) := by
  refine hr.induction (P := fun h s => n.Run (project view about h) (view s))
    (fun s hs => .nil (hp.init s hs)) fun h s e s' o hr ih hst => ?_
  have hinv := hr.invariant hp.inv_init hp.inv_step
  rw [project, List.filter_append, List.map_append, ← project]
  by_cases he : about e
  · rw [List.filter_cons_of_pos (p := fun t : Taken S E O => about t.event) he]
    exact ih.snoc (hp.of_about s e s' o hinv he hst)
  · rw [List.filter_cons_of_neg (p := fun t : Taken S E O => about t.event) he,
      hp.of_not_about s e s' o hinv he hst]
    simpa using ih

/-- A machine that starts in one state does the same on the same events. -/
theorem Run.eq_of_events {h h' : List (Taken V E O)} {v v' : V}
    (hinit : ∀ v ∈ n.init, ∀ v' ∈ n.init, v = v') (hr : n.Run h v) (hr' : n.Run h' v')
    (heq : h.map (·.event) = h'.map (·.event)) : h = h' ∧ v = v' := by
  induction hr generalizing h' v' with
  | nil hv =>
    cases hr' with
    | nil hv' => exact ⟨rfl, hinit _ hv _ hv'⟩
    | snoc hr' hst' => simp at heq
  | snoc hr hst ih =>
    cases hr' with
    | nil hv' => simp at heq
    | snoc hr' hst' =>
      rw [List.map_append, List.map_append] at heq
      obtain ⟨hevents, hlast⟩ := List.append_inj' heq rfl
      obtain ⟨rfl, rfl⟩ := ih hr' hevents
      cases hlast
      cases hst.symm.trans hst'
      exact ⟨rfl, rfl⟩

/-- What the events about a part do is the same in all runs that have the same of these. -/
theorem Projects.out_eq (hp : Projects m n view about inv)
    (hinit : ∀ v ∈ n.init, ∀ v' ∈ n.init, v = v') (hr : m.Run h s) (hr' : m.Run h' s')
    (heq : (h.filter fun t => about t.event).map (·.event) =
      (h'.filter fun t => about t.event).map (·.event)) :
    (h.filter fun t => about t.event).map (·.out) =
      (h'.filter fun t => about t.event).map (·.out) := by
  have hevents : ∀ h : List (Taken S E O), (project view about h).map (·.event) =
      (h.filter fun t => about t.event).map (·.event) := fun h => List.map_map
  have houts : ∀ h : List (Taken S E O), (project view about h).map (·.out) =
      (h.filter fun t => about t.event).map (·.out) := fun h => List.map_map
  rw [← houts, ← houts, ((hp.run hr).eq_of_events hinit (hp.run hr')
    (by rw [hevents, hevents, heq])).1]

end Machine

/-! ## Positions -/

section Positions

variable {α : Type*} {p : α → Bool} {l : List α} {a : α} {f : α → α} {i j : ℕ}

/-- The positions in a list of the elements that meet a condition. -/
def positions (p : α → Bool) : List α → List ℕ
  | [] => []
  | a :: l =>
    if p a then 0 :: (positions p l).map (· + 1) else (positions p l).map (· + 1)

theorem length_positions : (positions p l).length = (l.filter p).length := by
  induction l with
  | nil => rfl
  | cons a l ih =>
    rw [positions]
    by_cases ha : p a
    · rw [if_pos ha, List.filter_cons_of_pos ha, List.length_cons, List.length_map, ih,
        List.length_cons]
    · rw [if_neg ha, List.filter_cons_of_neg ha, List.length_map, ih]

theorem nodup_positions : (positions p l).Nodup := by
  induction l with
  | nil => exact List.nodup_nil
  | cons a l ih =>
    have hmap := List.Nodup.map (f := (· + 1)) (fun _ _ h => Nat.succ.inj h) ih
    rw [positions]
    split_ifs
    · exact List.nodup_cons.2 ⟨by simp, hmap⟩
    · exact hmap

theorem positions_concat :
    positions p (l ++ [a]) = positions p l ++ if p a then [l.length] else [] := by
  induction l with
  | nil => simp [positions]
  | cons b l ih =>
    rw [List.cons_append, positions, positions, ih, List.map_append]
    by_cases ha : p a <;> by_cases hb : p b <;> simp [ha, hb]

/-- The element at a position meets the condition, and is that of the elements that do. -/
theorem getElem?_filter (h : (positions p l)[j]? = some i) :
    (l.filter p)[j]? = l[i]? ∧ ∃ a, l[i]? = some a ∧ p a := by
  induction l generalizing i j with
  | nil => cases h
  | cons a l ih =>
    rw [positions] at h
    by_cases ha : p a
    · rw [if_pos ha] at h
      rw [List.filter_cons_of_pos ha]
      cases j with
      | zero =>
        cases h
        exact ⟨rfl, a, rfl, ha⟩
      | succ j =>
        rw [List.getElem?_cons_succ, List.getElem?_map, Option.map_eq_some_iff] at h
        obtain ⟨i, h, rfl⟩ := h
        exact ih h
    · rw [if_neg ha, List.getElem?_map, Option.map_eq_some_iff] at h
      obtain ⟨i, h, rfl⟩ := h
      rw [List.filter_cons_of_neg ha]
      exact ih h

theorem positions_modify (hf : ∀ a, p (f a) = p a) :
    positions p (l.modify i f) = positions p l := by
  induction l generalizing i with
  | nil => rw [List.modify_nil]
  | cons a l ih =>
    cases i with
    | zero => rw [List.modify_zero_cons, positions, positions, hf]
    | succ i => rw [List.modify_succ_cons, positions, positions, ih]

theorem filter_modify (hf : ∀ a, p (f a) = p a) (h : (positions p l)[j]? = some i) :
    (l.modify i f).filter p = (l.filter p).modify j f := by
  induction l generalizing i j with
  | nil => cases h
  | cons a l ih =>
    rw [positions] at h
    by_cases ha : p a
    · rw [if_pos ha] at h
      rw [List.filter_cons_of_pos ha]
      cases j with
      | zero =>
        cases h
        rw [List.modify_zero_cons, List.filter_cons_of_pos (by rw [hf, ha]), List.modify_zero_cons]
      | succ j =>
        rw [List.getElem?_cons_succ, List.getElem?_map, Option.map_eq_some_iff] at h
        obtain ⟨i, h, rfl⟩ := h
        rw [List.modify_succ_cons, List.filter_cons_of_pos ha, List.modify_succ_cons, ih h]
    · rw [if_neg ha, List.getElem?_map, Option.map_eq_some_iff] at h
      obtain ⟨i, h, rfl⟩ := h
      rw [List.filter_cons_of_neg ha, List.modify_succ_cons, List.filter_cons_of_neg ha, ih h]

theorem filter_modify_of_not (hf : ∀ a, p (f a) = p a) (h : ∀ a, l[i]? = some a → ¬ p a) :
    (l.modify i f).filter p = l.filter p := by
  induction l generalizing i with
  | nil => rw [List.modify_nil]
  | cons a l ih =>
    cases i with
    | zero =>
      have ha := h a rfl
      rw [List.modify_zero_cons, List.filter_cons_of_neg (by rwa [hf]), List.filter_cons_of_neg ha]
    | succ i => rw [List.modify_succ_cons, List.filter_cons, List.filter_cons, ih h]

end Positions

end IrohWebrtc
