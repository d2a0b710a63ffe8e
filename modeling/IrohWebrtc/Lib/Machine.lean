import Mathlib.Data.Set.Basic
import Mathlib.Data.List.Basic
import Mathlib.Data.List.Perm.Subperm
import Mathlib.Logic.Relation

/-!
# Machines and their runs

A *machine* is a state, a set of initial states and a partial step function: an
event is either refused (`none`) or leads to one next state and an output.
Nondeterminism sits in the events: the interleaving, the fate of a packet, the
piece a stream hands over are all part of the event, so that "for every
interleaving" is "for every list of events".

A *run* (`Machine.Run`) records the steps taken, each with the state it was
taken from, so that a statement about a run can speak of the state in which
something happened. What is observed of a run is a projection of this history
(`List.flatMap`), and never a field of the state.

* `Run.induction`: what holds initially and is carried on by one step holds of
  every run. It is the only induction on runs, the others are cases of it:
* `Run.invariant`: a state invariant;
* `Run.invariant_of`: a state invariant of the runs whose steps all meet a
  condition;
* `Run.forall_taken`: what every step taken from an invariant state does;
* `Run.split`: the run before a step;
* `Run.conserve`: what flows through a buffer. If at every step what goes out
  and what is left in the buffer is what was there and what comes in, then so it
  is over the whole run, whether this is an equality or an order on lists that
  appending respects (`Respects`): a sublist where items may be lost, a
  subpermutation where they may also be reordered.
-/

namespace IrohWebrtc

/-- A machine: initial states and a partial step function with outputs. -/
structure Machine (S E O : Type*) where
  /-- The initial states. -/
  init : Set S
  /-- The next state and the output of an event, if it can happen. -/
  step : S → E → Option (S × O)

/-- A step of a run: the state it was taken from, its event and its output. -/
structure Taken (S E O : Type*) where
  pre : S
  event : E
  out : O

/-- A preorder on lists that appending respects, on both sides. -/
structure Respects {X : Type*} (R : List X → List X → Prop) : Prop where
  refl : ∀ a, R a a
  trans : ∀ {a b c}, R a b → R b c → R a c
  append_left : ∀ {a b} (c : List X), R a b → R (c ++ a) (c ++ b)
  append_right : ∀ {a b} (c : List X), R a b → R (a ++ c) (b ++ c)

theorem Respects.eq {X : Type*} : Respects (X := X) (· = ·) where
  refl _ := rfl
  trans := .trans
  append_left _ h := h ▸ rfl
  append_right _ h := h ▸ rfl

theorem Respects.sublist {X : Type*} : Respects (X := X) List.Sublist where
  refl := .refl
  trans := .trans
  append_left c h := h.append_left c
  append_right c h := h.append_right c

theorem Respects.subperm {X : Type*} : Respects (X := X) List.Subperm where
  refl := .refl
  trans := .trans
  append_left c h := (List.subperm_append_left c).2 h
  append_right c h := (List.subperm_append_right c).2 h

namespace Machine

variable {S E O : Type*}

/-- The runs of a machine, with their history and the state they lead to. -/
inductive Run (m : Machine S E O) : List (Taken S E O) → S → Prop
  | nil {s : S} : s ∈ m.init → Run m [] s
  | snoc {h : List (Taken S E O)} {s s' : S} {e : E} {o : O} :
      Run m h s → m.step s e = some (s', o) → Run m (h ++ [⟨s, e, o⟩]) s'

variable {m : Machine S E O} {h : List (Taken S E O)} {s : S}

/-- What holds of the empty history at the initial states, and is carried on by
    every step, holds of every run. -/
theorem Run.induction {P : List (Taken S E O) → S → Prop} (hinit : ∀ s ∈ m.init, P [] s)
    (hstep : ∀ h s e s' o, m.Run h s → P h s → m.step s e = some (s', o) →
      P (h ++ [⟨s, e, o⟩]) s')
    (hr : m.Run h s) : P h s := by
  induction hr with
  | nil hs => exact hinit _ hs
  | snoc hr hst ih => exact hstep _ _ _ _ _ hr ih hst

/-- An invariant: it holds initially and every step preserves it. -/
theorem Run.invariant {I : S → Prop} (hinit : ∀ s ∈ m.init, I s)
    (hstep : ∀ s e s' o, I s → m.step s e = some (s', o) → I s') (hr : m.Run h s) : I s :=
  hr.induction (P := fun _ s => I s) hinit fun _ s e s' o _ hs hst => hstep s e s' o hs hst

/-- An invariant of the runs whose steps all meet the condition `C`. -/
theorem Run.invariant_of {C : Taken S E O → Prop} {I : S → Prop} (hinit : ∀ s ∈ m.init, I s)
    (hstep : ∀ s e s' o, I s → C ⟨s, e, o⟩ → m.step s e = some (s', o) → I s')
    (hr : m.Run h s) (hC : ∀ t ∈ h, C t) : I s := by
  refine hr.induction (P := fun h s => (∀ t ∈ h, C t) → I s) (fun s hs _ => hinit s hs) ?_ hC
  intro h s e s' o _ ih hst hC
  simp only [List.mem_append, List.mem_singleton, or_imp, forall_and, forall_eq] at hC
  exact hstep s e s' o (ih hC.1) hC.2 hst

/-- What every step does when it is taken from an invariant state, in the runs
    whose steps all meet the condition `C`. -/
theorem Run.forall_taken {C : Taken S E O → Prop} {I : S → Prop} {Q : Taken S E O → Prop}
    (hinit : ∀ s ∈ m.init, I s)
    (hstep : ∀ s e s' o, I s → C ⟨s, e, o⟩ → m.step s e = some (s', o) → I s')
    (hQ : ∀ s e s' o, I s → C ⟨s, e, o⟩ → m.step s e = some (s', o) → Q ⟨s, e, o⟩)
    (hr : m.Run h s) (hC : ∀ t ∈ h, C t) : ∀ t ∈ h, Q t := by
  refine hr.induction (P := fun h _ => (∀ t ∈ h, C t) → ∀ t ∈ h, Q t) (fun s _ _ t ht => ?_) ?_ hC
  · exact absurd ht List.not_mem_nil
  · intro h s e s' o hr ih hst hC t ht
    have hC' : ∀ t ∈ h, C t := fun t ht => hC t (List.mem_append_left _ ht)
    rcases List.mem_append.1 ht with ht | ht
    · exact ih hC' t ht
    · rw [List.mem_singleton.1 ht]
      exact hQ s e s' o (hr.invariant_of hinit hstep hC') (hC _ (by simp)) hst

/-- The steps of a run, one by one: the run before a step, and the step. `G` holds
    of the states before one of which it holds. -/
theorem Run.split {G : S → Prop} (hback : ∀ s e s' o, m.step s e = some (s', o) → G s' → G s)
    (hr : m.Run h s) (hG : G s) {h₁ h₂ : List (Taken S E O)} {t : Taken S E O}
    (heq : h = h₁ ++ t :: h₂) :
    m.Run h₁ t.pre ∧ ∃ s', m.step t.pre t.event = some (s', t.out) ∧ G s' := by
  induction hr generalizing h₂ with
  | nil => exact absurd heq (by simp)
  | snoc hr hst ih =>
    rcases List.eq_nil_or_concat h₂ with rfl | ⟨h₃, t', rfl⟩
    · obtain ⟨rfl, ht⟩ := List.append_inj' heq rfl
      cases ht
      exact ⟨hr, _, hst, hG⟩
    · rw [List.concat_eq_append, ← List.cons_append, ← List.append_assoc] at heq
      exact ih (hback _ _ _ _ hst hG) (List.append_inj' heq rfl).1

/-! ## Conservation -/

/-- What flows through the buffer `q`, initially empty, of a run: the items
    `out` and those left are related to the items `inn`, as long as `G` holds. -/
theorem Run.conserve {X : Type*} {R : List X → List X → Prop} (hR : Respects R) {G : S → Prop}
    {q : S → List X} (inn out : Taken S E O → List X) (hinit : ∀ s ∈ m.init, q s = [])
    (hstep : ∀ h s e s' o, m.Run h s → m.step s e = some (s', o) → G s' →
      G s ∧ R (out ⟨s, e, o⟩ ++ q s') (q s ++ inn ⟨s, e, o⟩))
    (hr : m.Run h s) (hG : G s) : R (h.flatMap out ++ q s) (h.flatMap inn) := by
  refine hr.induction (P := fun h s => G s → R (h.flatMap out ++ q s) (h.flatMap inn)) ?_ ?_ hG
  · intro s hs _
    rw [hinit s hs]
    exact hR.refl _
  · intro h s e s' o hr ih hst hG
    obtain ⟨hG, hR'⟩ := hstep h s e s' o hr hst hG
    simp only [List.flatMap_append, List.flatMap_cons, List.flatMap_nil, List.append_nil,
      List.append_assoc]
    -- What goes out now and is left now was in the buffer or comes in now, and
    -- what was in the buffer is accounted for by the induction hypothesis.
    refine hR.trans (hR.append_left _ hR') ?_
    rw [← List.append_assoc]
    exact hR.append_right _ (ih hG)

/-! ## Executing events -/

/-- A run goes on by the steps that can be taken with certain events. -/
theorem Run.extend {P : E → Prop} {s' : S} (hr : m.Run h s)
    (hs : Relation.ReflTransGen (fun s s' => ∃ e o, P e ∧ m.step s e = some (s', o)) s s') :
    ∃ h', m.Run (h ++ h') s' ∧ ∀ t ∈ h', P t.event := by
  induction hs with
  | refl => exact ⟨[], by rwa [List.append_nil], fun t ht => absurd ht List.not_mem_nil⟩
  | tail _ hst ih =>
    obtain ⟨h', hr', hP⟩ := ih
    obtain ⟨e, o, he, hst⟩ := hst
    refine ⟨h' ++ [⟨_, e, o⟩], by rw [← List.append_assoc]; exact hr'.snoc hst, fun t ht => ?_⟩
    rcases List.mem_append.1 ht with ht | ht
    · exact hP t ht
    · rw [List.mem_singleton.1 ht]
      exact he

/-- The history and the state after the events `es`, from the state `s`. -/
def exec (m : Machine S E O) : S → List E → Option (List (Taken S E O) × S)
  | s, [] => some ([], s)
  | s, e :: es =>
    match m.step s e with
    | none => none
    | some (s', o) => (m.exec s' es).map fun p => (⟨s, e, o⟩ :: p.1, p.2)

/-- Executing events that can all happen extends a run. -/
theorem Run.exec {h' : List (Taken S E O)} {s' : S} (hr : m.Run h s) (es : List E)
    (he : m.exec s es = some (h', s')) : m.Run (h ++ h') s' := by
  induction es generalizing h s h' with
  | nil =>
    simp only [Machine.exec, Option.some.injEq, Prod.mk.injEq] at he
    obtain ⟨rfl, rfl⟩ := he
    rwa [List.append_nil]
  | cons e es ih =>
    rw [Machine.exec] at he
    split at he
    · exact absurd he (by simp)
    · next s₁ o hst =>
      rw [Option.map_eq_some_iff] at he
      obtain ⟨⟨h₁, s₂⟩, he, hp⟩ := he
      simp only [Prod.mk.injEq] at hp
      obtain ⟨rfl, rfl⟩ := hp
      simpa using ih (hr.snoc hst) he

end Machine

end IrohWebrtc
