import IrohWebrtc.Lib.Machine
import Mathlib.Logic.Relation
import Mathlib.Order.WellFounded

/-!
# Ownership

Objects own each other, as by reference counts: an object is *released* when no
live object owns it any more, which may leave others without an owner, and so
on.

* A set of objects each of which is owned by a member of the set (`Circular`)
  survives every release (`Circular.released`), and so every run of a machine
  whose steps do nothing to live objects but release them (`Circular.run`).
* Where every step of a relation decreases a measure, steps come to an end
  (`exists_settled`).
-/

namespace IrohWebrtc

section Ownership

variable {α : Type*} {owns : α → α → Prop} {K L L' : Set α}

/-- The live objects `L'` are those of `L` after the release of an object that no
    live object owns. -/
def Released (owns : α → α → Prop) (L L' : Set α) : Prop :=
  ∃ x, (∀ y ∈ L, ¬ owns y x) ∧ L \ {x} ⊆ L'

/-- Every object of `K` is owned by an object of `K`. -/
def Circular (owns : α → α → Prop) (K : Set α) : Prop := ∀ x ∈ K, ∃ y ∈ K, owns y x

/-- Objects that own each other are not released. -/
theorem Circular.released (hK : Circular owns K) (hL : K ⊆ L) (h : Released owns L L') :
    K ⊆ L' := by
  obtain ⟨x, hx, hsub⟩ := h
  intro z hz
  refine hsub ⟨hL hz, ?_⟩
  rintro rfl
  obtain ⟨y, hy, hown⟩ := hK z hz
  exact hx y (hL hy) hown

/-- Objects that own each other stay live in every run whose steps only release
    live objects. -/
theorem Circular.run {S E O : Type*} {m : Machine S E O} (hK : Circular owns K)
    (live : S → Set α) (hinit : ∀ s ∈ m.init, K ⊆ live s)
    (hstep : ∀ s e s' o, m.step s e = some (s', o) →
      live s ⊆ live s' ∨ Released owns (live s) (live s'))
    {h : List (Taken S E O)} {s : S} (hr : m.Run h s) : K ⊆ live s := by
  refine hr.invariant (I := fun s => K ⊆ live s) hinit fun s e s' o hs hst => ?_
  rcases hstep s e s' o hst with h | h
  · exact hs.trans h
  · exact hK.released hs h

end Ownership

/-- Steps that decrease a measure come to an end. -/
theorem exists_settled {S : Type*} {r : S → S → Prop} (μ : S → ℕ)
    (hμ : ∀ s s', r s s' → μ s' < μ s) (s : S) :
    ∃ s', Relation.ReflTransGen r s s' ∧ ∀ t, ¬ r s' t := by
  induction s using (measure μ).wf.induction with
  | h s ih =>
    by_cases hs : ∃ t, r s t
    · obtain ⟨t, ht⟩ := hs
      obtain ⟨s', hts, hs'⟩ := ih t (hμ s t ht)
      exact ⟨s', .head ht hts, hs'⟩
    · exact ⟨s, .refl, fun t ht => hs ⟨t, ht⟩⟩

end IrohWebrtc
