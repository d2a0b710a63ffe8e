import Mathlib.LinearAlgebra.Vandermonde

/-!
# Reed–Solomon codes

Words over a field, the letters of which are the coefficients of a polynomial, the highest
first (`eval`). A codeword is one with the roots `α ^ j` for all `j < k`. As a Vandermonde
determinant says, it has more than `k` letters that are not zero, or none (`lt_weight`):
two codewords differ in more than `k` letters, and a word that differs from a codeword in
`k / 2` letters at most determines it (`Corrects.eq`).
-/

namespace IrohWebrtc.ReedSolomon

variable {K : Type*} [Field K]

/-- The value of a polynomial. -/
def eval (w : List K) (x : K) : K := w.foldl (fun v c => v * x + c) 0

/-- Some powers of an element are roots. -/
def IsCodeword (α : K) (k : ℕ) (w : List K) : Prop := ∀ j < k, eval w (α ^ j) = 0

variable {α x : K} {k : ℕ} {u v w : List K}

/-! ## Values -/

@[simp] theorem eval_nil (x : K) : eval [] x = 0 := rfl

theorem eval_concat (w : List K) (c x : K) : eval (w ++ [c]) x = eval w x * x + c := by
  rw [eval, List.foldl_append]
  rfl

theorem eval_append (u w : List K) (x : K) :
    eval (u ++ w) x = eval u x * x ^ w.length + eval w x := by
  induction w using List.reverseRecOn with
  | nil => simp
  | append_singleton w c ih =>
    rw [← List.append_assoc, eval_concat, ih, eval_concat, List.length_append,
      List.length_singleton, pow_succ]
    ring

theorem eval_cons (c : K) (w : List K) (x : K) :
    eval (c :: w) x = c * x ^ w.length + eval w x := by
  have hone : eval [c] x = c := by simp [eval]
  rw [← List.singleton_append, eval_append, hone]

/-- A polynomial with zeros in front has the same values. -/
theorem eval_replicate_append (n : ℕ) (w : List K) (x : K) :
    eval (List.replicate n 0 ++ w) x = eval w x := by
  induction n with
  | zero => rfl
  | succ n ih => rw [List.replicate_succ, List.cons_append, eval_cons, zero_mul, zero_add, ih]

theorem eval_replicate (n : ℕ) (x : K) : eval (List.replicate n 0) x = 0 := by
  simpa using eval_replicate_append n [] x

/-- Words of one length are added letter by letter. -/
theorem eval_zipWith_sub (h : u.length = w.length) (x : K) :
    eval (List.zipWith (· - ·) u w) x = eval u x - eval w x := by
  induction u generalizing w with
  | nil =>
    rw [List.length_eq_zero_iff.1 h.symm]
    simp
  | cons a u ih =>
    cases w with
    | nil => cases h
    | cons b w =>
      have hlen : u.length = w.length := Nat.succ.inj h
      rw [List.zipWith_cons_cons, eval_cons, eval_cons, eval_cons, ih hlen, List.length_zipWith,
        hlen, Nat.min_self]
      ring

/-! ## Weights -/

variable [DecidableEq K]

/-- How many letters are not zero. -/
def weight (w : List K) : ℕ := w.countP (· ≠ 0)

/-- The terms of a polynomial, each with its exponent. -/
def terms : List K → List (K × ℕ)
  | [] => []
  | c :: w => if c = 0 then terms w else (c, w.length) :: terms w

theorem length_terms (w : List K) : (terms w).length = weight w := by
  induction w with
  | nil => rfl
  | cons c w ih =>
    rw [terms, weight, List.countP_cons, ← weight]
    by_cases hc : c = 0
    · simp [hc, ih]
    · simp [hc, ih]

theorem eval_eq_sum_terms (w : List K) (x : K) :
    eval w x = ((terms w).map fun t => t.1 * x ^ t.2).sum := by
  induction w with
  | nil => rfl
  | cons c w ih =>
    rw [eval_cons, ih, terms]
    split
    · next hc => rw [hc, zero_mul, zero_add]
    · rw [List.map_cons, List.sum_cons]

theorem mem_terms {t : K × ℕ} (h : t ∈ terms w) : t.1 ≠ 0 ∧ t.2 < w.length := by
  induction w with
  | nil => cases h
  | cons c w ih =>
    rw [terms] at h
    split at h
    · exact ⟨(ih h).1, Nat.lt_succ_of_lt (ih h).2⟩
    · next hc =>
      rcases List.mem_cons.1 h with rfl | h
      · exact ⟨hc, Nat.lt_succ_self _⟩
      · exact ⟨(ih h).1, Nat.lt_succ_of_lt (ih h).2⟩

/-- The exponents decrease. -/
theorem pairwise_terms (w : List K) : (terms w).Pairwise (·.2 > ·.2) := by
  induction w with
  | nil => exact .nil
  | cons c w ih =>
    rw [terms]
    split
    · exact ih
    · exact .cons (fun t ht => (mem_terms ht).2) ih

/-- The powers of `α` are distinct as far as the letters of a word go. -/
def Distinct (α : K) (n : ℕ) : Prop := ∀ i < n, ∀ j < n, α ^ i = α ^ j → i = j

/-- A codeword that is not zero has more than `k` letters that are not. -/
theorem lt_weight (hα : Distinct α w.length) (hw : IsCodeword α k w) (hne : weight w ≠ 0) :
    k < weight w := by
  by_contra hle
  rw [Nat.not_lt, ← length_terms] at hle
  rw [← length_terms] at hne
  have hinj : Function.Injective fun i : Fin (terms w).length => α ^ (terms w)[i].2 := by
    intro i j hij
    have heq := hα _ (mem_terms (List.getElem_mem i.2)).2 _ (mem_terms (List.getElem_mem j.2)).2 hij
    rcases lt_trichotomy i j with h | h | h
    · exact absurd heq ((List.pairwise_iff_getElem.1 (pairwise_terms w)) _ _ i.2 j.2 h).ne'
    · exact h
    · exact absurd heq ((List.pairwise_iff_getElem.1 (pairwise_terms w)) _ _ j.2 i.2 h).ne
  have hzero := Matrix.eq_zero_of_forall_pow_sum_mul_pow_eq_zero
    (v := fun i : Fin (terms w).length => (terms w)[i].1) hinj fun j => by
      have hroot := hw j (Nat.lt_of_lt_of_le j.2 hle)
      rw [eval_eq_sum_terms, ← Fin.sum_univ_fun_getElem] at hroot
      rw [← hroot]
      refine Finset.sum_congr rfl fun i _ => ?_
      rw [← pow_mul, ← pow_mul, Nat.mul_comm]
      rfl
  have hlt : 0 < (terms w).length := Nat.pos_of_ne_zero hne
  exact (mem_terms (List.getElem_mem hlt)).1 (congrFun hzero ⟨0, hlt⟩)

/-! ## Distances -/

/-- In how many letters two words differ. -/
def distance : List K → List K → ℕ
  | a :: u, b :: w => (if a = b then 0 else 1) + distance u w
  | _, _ => 0

omit [Field K] in
theorem distance_self (w : List K) : distance w w = 0 := by
  induction w with
  | nil => rfl
  | cons a w ih => rw [distance, if_pos rfl, ih]

theorem weight_zipWith_sub (u w : List K) : weight (List.zipWith (· - ·) u w) = distance u w := by
  fun_induction distance u w with
  | case1 a u b w ih =>
    rw [List.zipWith_cons_cons, weight, List.countP_cons, ← weight, ih, Nat.add_comm]
    simp [sub_eq_zero]
  | case2 u w h =>
    cases u with
    | nil => rfl
    | cons a u =>
      cases w with
      | nil => rfl
      | cons b w => exact (h a u b w rfl rfl).elim

omit [Field K] in
theorem distance_comm (u w : List K) : distance u w = distance w u := by
  induction u generalizing w with
  | nil => cases w <;> rfl
  | cons a u ih =>
    cases w with
    | nil => rfl
    | cons b w => simp only [distance, ih w, eq_comm]

omit [Field K] in
theorem distance_triangle (huv : u.length = v.length) (hvw : v.length = w.length) :
    distance u w ≤ distance u v + distance v w := by
  induction u generalizing v w with
  | nil => exact Nat.zero_le _
  | cons a u ih =>
    match v, w with
    | [], _ => cases huv
    | _ :: _, [] => cases hvw
    | b :: v, c :: w =>
      have hle := ih (Nat.succ.inj huv) (Nat.succ.inj hvw)
      have hletter : (if a = c then 0 else 1) ≤
          (if a = b then 0 else 1) + if b = c then 0 else 1 := by
        by_cases hab : a = b
        · rw [if_pos hab, hab, Nat.zero_add]
        · rw [if_neg hab]
          split <;> omega
      simp only [distance]
      omega

omit [Field K] in
theorem eq_of_distance_eq_zero (h : u.length = w.length) (hd : distance u w = 0) : u = w := by
  induction u generalizing w with
  | nil => exact (List.length_eq_zero_iff.1 h.symm).symm
  | cons a u ih =>
    cases w with
    | nil => cases h
    | cons b w =>
      rw [distance, Nat.add_eq_zero_iff] at hd
      obtain rfl : a = b := by simpa using hd.1
      rw [ih (Nat.succ.inj h) hd.2]

/-- Two codewords differ in more than `k` letters. -/
theorem eq_of_distance_le (hα : Distinct α u.length) (h : u.length = w.length)
    (hu : IsCodeword α k u) (hw : IsCodeword α k w) (hd : distance u w ≤ k) : u = w := by
  refine eq_of_distance_eq_zero h ?_
  by_contra hne
  rw [← weight_zipWith_sub] at hne hd
  refine absurd (lt_weight (α := α) ?_ (fun j hj => ?_) hne) (Nat.not_lt.2 hd)
  · rwa [List.length_zipWith, h, Nat.min_self, ← h]
  · rw [eval_zipWith_sub h, hu j hj, hw j hj, sub_zero]

/-- Whether a word is the codeword that is nearest to another word, in reach of it. -/
def Corrects (α : K) (k : ℕ) (r u : List K) : Prop :=
  u.length = r.length ∧ IsCodeword α k u ∧ 2 * distance r u ≤ k

/-- A word is corrected to one codeword at most. -/
theorem Corrects.eq {r : List K} (hα : Distinct α r.length) (hu : Corrects α k r u)
    (hw : Corrects α k r w) : u = w := by
  obtain ⟨hlu, hcu, hdu⟩ := hu
  obtain ⟨hlw, hcw, hdw⟩ := hw
  refine eq_of_distance_le (hlu.symm ▸ hα) (hlu.trans hlw.symm) hcu hcw ?_
  have htri := distance_triangle (u := u) (v := r) (w := w) hlu hlw.symm
  rw [distance_comm u r] at htri
  omega

end IrohWebrtc.ReedSolomon
