import Mathlib.Data.List.Basic

/-!
# Prefix codes

A code is *prefix-free* if no input begins with the words of two symbols. An input
then begins with the words of some symbols and a rest that begins with no word
(`exists_parse`), and whenever it begins with the words of symbols at all, they are the
first of these (`prefix_of_parse`): this is the longest prefix that is made of words.
-/

namespace IrohWebrtc

section PrefixCode

variable {γ α : Type*} {word : γ → List α} {cs ds : List γ} {rest : List α}

def PrefixFree (word : γ → List α) : Prop :=
  ∀ ⦃c d w⦄, word c <+: w → word d <+: w → c = d

/-- A rest that no word begins. -/
def Stuck (word : γ → List α) (rest : List α) : Prop := ∀ c, ¬ word c <+: rest

theorem exists_parse (hne : ∀ c, word c ≠ []) (w : List α) :
    ∃ (cs : List γ) (rest : List α), w = cs.flatMap word ++ rest ∧ Stuck word rest := by
  induction hn : w.length using Nat.strongRecOn generalizing w with
  | _ n ih =>
    subst hn
    by_cases h : Stuck word w
    · exact ⟨[], w, rfl, h⟩
    · rw [Stuck, not_forall_not] at h
      obtain ⟨c, w', rfl⟩ := h
      have hpos := List.length_pos_iff.2 (hne c)
      obtain ⟨cs, rest, rfl, hstuck⟩ := ih w'.length (by rw [List.length_append]; omega) w' rfl
      exact ⟨c :: cs, rest, by rw [List.flatMap_cons, List.append_assoc], hstuck⟩

theorem prefix_of_parse (hp : PrefixFree word) (hstuck : Stuck word rest)
    (h : ds.flatMap word <+: cs.flatMap word ++ rest) : ds <+: cs := by
  induction ds generalizing cs with
  | nil => exact List.nil_prefix
  | cons d ds ih =>
    rw [List.flatMap_cons] at h
    have hd := (List.prefix_append _ _).trans h
    cases cs with
    | nil => exact absurd hd (hstuck d)
    | cons c cs =>
      rw [List.flatMap_cons, List.append_assoc] at h hd
      obtain rfl := hp hd (List.prefix_append _ _)
      exact List.cons_prefix_cons.2 ⟨rfl, ih ((List.prefix_append_right_inj _).1 h)⟩

end PrefixCode

end IrohWebrtc
