import Mathlib.Data.List.Basic

/-!
# Transducers

A loop that reads its input item by item, and passes things on as it goes, is a
step function on its local state. What it does with an input does not depend on
the pieces the input comes in (`feed_append`), an input it has only begun to
read has got a prefix of the whole's output (`feed_mono`), and what happens
on a sequence of words of its input language is known from what happens on one
(`feed_flatMap`).
-/

namespace IrohWebrtc

section Transducer

variable {σ α β : Type*} {step : σ → α → σ × List β} {s s' : σ}

/-- The state a transducer is in after reading `as` in the state `s`, and what it
    passed on. -/
def feed (step : σ → α → σ × List β) (s : σ) : List α → σ × List β
  | [] => (s, [])
  | a :: as => ((feed step (step s a).1 as).1, (step s a).2 ++ (feed step (step s a).1 as).2)

@[simp] theorem feed_nil (step : σ → α → σ × List β) (s : σ) : feed step s [] = (s, []) := rfl

theorem feed_cons (step : σ → α → σ × List β) (s : σ) (a : α) (as : List α) :
    feed step s (a :: as) =
      ((feed step (step s a).1 as).1, (step s a).2 ++ (feed step (step s a).1 as).2) := rfl

/-- Reading in two pieces. -/
theorem feed_append (step : σ → α → σ × List β) (s : σ) (as bs : List α) :
    feed step s (as ++ bs) =
      ((feed step (feed step s as).1 bs).1,
        (feed step s as).2 ++ (feed step (feed step s as).1 bs).2) := by
  induction as generalizing s with
  | nil => simp
  | cons a as ih => simp [feed_cons, ih]

/-- What is passed on after a part of the input is the beginning of it all. -/
theorem feed_mono {as bs : List α} (h : as <+: bs) :
    (feed step s as).2 <+: (feed step s bs).2 := by
  obtain ⟨cs, rfl⟩ := h
  rw [feed_append]
  exact List.prefix_append _ _

/-- A state that is never left and in which nothing is passed on. -/
theorem feed_of_absorbing (hs : ∀ a, step s a = (s, [])) (as : List α) :
    feed step s as = (s, []) := by
  induction as with
  | nil => rfl
  | cons a as ih => rw [feed_cons, hs a, ih, List.append_nil]

/-- A sequence of words each of which leads back to the state it was read in. -/
theorem feed_flatMap {γ : Type*} {word : γ → List α} {out : γ → List β} {ws : List γ}
    (h : ∀ w ∈ ws, feed step s (word w) = (s, out w)) :
    feed step s (ws.flatMap word) = (s, ws.flatMap out) := by
  induction ws with
  | nil => rfl
  | cons w ws ih =>
    rw [List.flatMap_cons, feed_append, h w List.mem_cons_self,
      ih fun w' hw' => h w' (List.mem_cons_of_mem _ hw'), List.flatMap_cons]

end Transducer

end IrohWebrtc
