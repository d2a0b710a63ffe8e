import Mathlib.Data.List.Basic

/-!
# Bounded first-in first-out queues

A queue carries the proof that it holds at most its capacity: pushing onto a
full queue is refused (`tryPush`), so an overfull queue cannot be built.
-/

namespace IrohWebrtc

/-- A first-in first-out queue of at most `cap` items, the oldest first. -/
structure BoundedQueue (α : Type*) (cap : ℕ) where
  items : List α
  length_le : items.length ≤ cap

namespace BoundedQueue

variable {α : Type*} {cap : ℕ} {q q' : BoundedQueue α cap} {a : α}

/-- The empty queue. -/
def empty : BoundedQueue α cap := ⟨[], Nat.zero_le _⟩

/-- Pushing at the back, refused when the queue is full. -/
def tryPush (q : BoundedQueue α cap) (a : α) : Option (BoundedQueue α cap) :=
  if h : q.items.length < cap then
    some ⟨q.items ++ [a], by rw [List.length_append]; exact h⟩
  else none

/-- Popping at the front. -/
def pop (q : BoundedQueue α cap) : Option (α × BoundedQueue α cap) :=
  match hq : q.items with
  | [] => none
  | a :: l => some (a, ⟨l, by have := q.length_le; rw [hq, List.length_cons] at this; omega⟩)

@[simp] theorem items_empty : (empty : BoundedQueue α cap).items = [] := rfl

/-- A push is refused exactly when the queue is full. -/
theorem tryPush_eq_none_iff : q.tryPush a = none ↔ q.items.length = cap := by
  have := q.length_le
  unfold tryPush
  split <;> simp <;> omega

/-- An accepted push found room, and puts its item last. -/
theorem items_of_tryPush (h : q.tryPush a = some q') :
    q.items.length < cap ∧ q'.items = q.items ++ [a] := by
  unfold tryPush at h
  split at h
  · next hlt =>
    obtain rfl := Option.some.inj h
    exact ⟨hlt, rfl⟩
  · exact absurd h (by simp)

/-- Pushing what there is room for, and dropping what there is not. -/
theorem items_getD_tryPush : ((q.tryPush a).getD q).items =
    if q.items.length = cap then q.items else q.items ++ [a] := by
  cases h : q.tryPush a with
  | none => rw [if_pos (tryPush_eq_none_iff.1 h), Option.getD_none]
  | some q' =>
    obtain ⟨hlt, hq'⟩ := items_of_tryPush h
    rw [if_neg (Nat.ne_of_lt hlt), Option.getD_some, hq']

/-- Nothing is popped exactly from the empty queue. -/
theorem pop_eq_none_iff : q.pop = none ↔ q.items = [] := by
  unfold pop
  split
  · next h => simp [h]
  · next h => simp [h]

/-- A pop takes the oldest item off. -/
theorem items_of_pop (h : q.pop = some (a, q')) : q.items = a :: q'.items := by
  unfold pop at h
  split at h
  · exact absurd h (by simp)
  · next hq =>
    simp only [Option.some.injEq, Prod.mk.injEq] at h
    obtain ⟨rfl, rfl⟩ := h
    exact hq

end BoundedQueue

end IrohWebrtc
