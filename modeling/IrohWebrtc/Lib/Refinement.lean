import IrohWebrtc.Lib.Machine

/-!
# Refinement of machines

A machine `c` refines a machine `a` (`Refines`) when its states have a part that is a state
of `a`, and each of its steps is a step of `a` there, or none. A run of `c` then is a run of
`a` (`Refines.run`), and what is known of the runs of `a` is known of those of `c`.

The steps of `a` that the steps of `c` are have events and outputs of their own (`view`), so
that `c` may be a layer above `a` that decides when `a` goes on, and does things of its own
in between. Parts of machines that take the same events are in `Projection`.
-/

namespace IrohWebrtc

namespace Machine

variable {S E O S' E' O' : Type*} {c : Machine S E O} {a : Machine S' E' O'} {abs : S → S'}
  {view : Taken S E O → Option (E' × O')} {h : List (Taken S E O)} {s : S}

/-- What the step `t` of `c` to the state `s'` is to `a`: a step, or nothing. -/
def Step (a : Machine S' E' O') (abs : S → S') (view : Taken S E O → Option (E' × O'))
    (t : Taken S E O) (s' : S) : Prop :=
  match view t with
  | some (e, o) => a.step (abs t.pre) e = some (abs s', o)
  | none => abs s' = abs t.pre

/-- The steps of `c` are steps of `a`, or nothing to it. -/
structure Refines (c : Machine S E O) (a : Machine S' E' O') (abs : S → S')
    (view : Taken S E O → Option (E' × O')) : Prop where
  init : ∀ s ∈ c.init, abs s ∈ a.init
  step : ∀ s e s' o, c.step s e = some (s', o) → a.Step abs view ⟨s, e, o⟩ s'

/-- The step of `a` that a step of `c` is. -/
def refined (abs : S → S') (view : Taken S E O → Option (E' × O')) (t : Taken S E O) :
    Option (Taken S' E' O') :=
  (view t).map fun p => ⟨abs t.pre, p.1, p.2⟩

/-- A run of `c` is a run of `a`. -/
theorem Refines.run (hc : Refines c a abs view) (hr : c.Run h s) :
    a.Run (h.filterMap (refined abs view)) (abs s) := by
  refine hr.induction (P := fun h s => a.Run (h.filterMap (refined abs view)) (abs s))
    (fun s hs => .nil (hc.init s hs)) fun h s e s' o _ ih hst => ?_
  have hstep := hc.step s e s' o hst
  rw [List.filterMap_append, List.filterMap_cons, List.filterMap_nil]
  unfold Step at hstep
  split at hstep
  · next e' o' hview =>
    rw [refined, hview, Option.map_some]
    exact ih.snoc hstep
  · next hview =>
    rw [refined, hview, Option.map_none, List.append_nil, hstep]
    exact ih

/-- What is observed of the run of `a` is observed of the steps of `c`. -/
theorem flatMap_refined {X : Type*} (f : Taken S' E' O' → List X) :
    (h.filterMap (refined abs view)).flatMap f =
      h.flatMap fun t => ((refined abs view t).toList).flatMap f := by
  induction h with
  | nil => rfl
  | cons t h ih =>
    rw [List.filterMap_cons, List.flatMap_cons, ← ih]
    cases refined abs view t with
    | none => rfl
    | some t' => rw [List.flatMap_cons, Option.toList_some, List.flatMap_singleton]

end Machine

end IrohWebrtc
