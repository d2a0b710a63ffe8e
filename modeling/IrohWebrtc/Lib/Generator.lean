import Mathlib.Algebra.Field.Basic
import Mathlib.Algebra.Group.Hom.Defs
import Mathlib.Logic.Function.Iterate

/-!
# Fields from a generator

A field is known from its additive group and one of its elements, if it is known how to
multiply by this element and its powers are all elements but zero: a product is found by
adding exponents (`Generator`). That this is a field needs no multiplication table: to
multiply by an element is to multiply by the generator again and again, which is additive.

* `Generator.field`: the field.
* `Generator.exp_eq_pow`: the powers of the generator are powers in it.
-/

namespace IrohWebrtc

/-- How to multiply by an element of a field, whose powers are all elements but zero. -/
structure Generator (K : Type*) [AddCommGroup K] where
  /-- Multiplication by the element. -/
  mulBy : K →+ K
  one : K
  /-- The exponent of an element as a power. -/
  log : K → ℕ
  /-- An exponent of one. -/
  order : ℕ
  one_ne_zero : one ≠ 0
  order_pos : 0 < order
  iterate_log : ∀ a ≠ 0, mulBy^[log a] one = a
  iterate_order : mulBy^[order] one = one
  log_le : ∀ a, log a ≤ order

namespace Generator

variable {K : Type*} [AddCommGroup K] (g : Generator K)

/-- The powers of the element. -/
def exp (n : ℕ) : K := g.mulBy^[n] g.one

variable {g} {a b c : K} {m n : ℕ}

theorem exp_add : g.exp (m + n) = g.mulBy^[m] (g.exp n) := Function.iterate_add_apply ..

theorem exp_log (h : a ≠ 0) : g.exp (g.log a) = a := g.iterate_log a h

theorem exp_order : g.exp g.order = g.one := g.iterate_order

theorem iterate_map_zero (n : ℕ) : g.mulBy^[n] 0 = 0 := Function.iterate_fixed g.mulBy.map_zero n

theorem iterate_map_add (n : ℕ) (a b : K) :
    g.mulBy^[n] (a + b) = g.mulBy^[n] a + g.mulBy^[n] b := by
  induction n generalizing a b with
  | zero => rfl
  | succ n ih => rw [Function.iterate_succ_apply, map_add, ih]; rfl

theorem exp_mul_order (n : ℕ) : g.exp (n * g.order) = g.one := by
  induction n with
  | zero => rw [Nat.zero_mul]; rfl
  | succ n ih => rw [Nat.succ_mul, exp_add, exp_order]; exact ih

/-- No power is zero, as a later one is one. -/
theorem exp_ne_zero (n : ℕ) : g.exp n ≠ 0 := by
  intro h
  have hone := exp_mul_order (g := g) n
  rw [← Nat.sub_add_cancel (Nat.le_mul_of_pos_right n g.order_pos), exp_add, h,
    iterate_map_zero] at hone
  exact g.one_ne_zero hone.symm

/-- Multiplying by the element as often as its power says multiplies by the power. -/
theorem iterate_log_exp (n : ℕ) (a : K) : g.mulBy^[g.log (g.exp n)] a = g.mulBy^[n] a := by
  by_cases ha : a = 0
  · rw [ha, iterate_map_zero, iterate_map_zero]
  · rw [← exp_log ha, ← exp_add, ← exp_add, Nat.add_comm, exp_add, exp_log (exp_ne_zero n),
      ← exp_add, Nat.add_comm]

section Field

variable [DecidableEq K]

variable (g) in
/-- The product of two elements, by exponents. -/
def mul (a b : K) : K := if a = 0 then 0 else g.mulBy^[g.log a] b

theorem mul_of_ne (ha : a ≠ 0) (b : K) : g.mul a b = g.mulBy^[g.log a] b := if_neg ha

theorem zero_mul' (b : K) : g.mul 0 b = 0 := if_pos rfl

theorem mul_zero' (a : K) : g.mul a 0 = 0 := by
  rw [mul, iterate_map_zero, ite_self]

/-- Exponents are added. -/
theorem exp_mul_exp (m n : ℕ) : g.mul (g.exp m) (g.exp n) = g.exp (m + n) := by
  rw [mul_of_ne (exp_ne_zero m), iterate_log_exp, exp_add]

theorem mul_comm' (a b : K) : g.mul a b = g.mul b a := by
  by_cases ha : a = 0
  · rw [ha, zero_mul', mul_zero']
  · by_cases hb : b = 0
    · rw [hb, zero_mul', mul_zero']
    · rw [← exp_log ha, ← exp_log hb, exp_mul_exp, exp_mul_exp, Nat.add_comm]

theorem mul_assoc' (a b c : K) : g.mul (g.mul a b) c = g.mul a (g.mul b c) := by
  by_cases ha : a = 0
  · rw [ha, zero_mul', zero_mul', zero_mul']
  · by_cases hb : b = 0
    · rw [hb, mul_zero', zero_mul', mul_zero']
    · by_cases hc : c = 0
      · rw [hc, mul_zero', mul_zero', mul_zero']
      · rw [← exp_log ha, ← exp_log hb, ← exp_log hc, exp_mul_exp, exp_mul_exp, exp_mul_exp,
          exp_mul_exp, Nat.add_assoc]

theorem mul_add' (a b c : K) : g.mul a (b + c) = g.mul a b + g.mul a c := by
  by_cases ha : a = 0
  · rw [ha, zero_mul', zero_mul', zero_mul', add_zero]
  · rw [mul_of_ne ha, mul_of_ne ha, mul_of_ne ha, iterate_map_add]

theorem one_mul' (a : K) : g.mul g.one a = a := by
  by_cases ha : a = 0
  · rw [ha, mul_zero']
  · rw [← exp_log ha, show g.one = g.exp 0 from rfl, exp_mul_exp, Nat.zero_add]

theorem mul_inv' (ha : a ≠ 0) : g.mul a (g.exp (g.order - g.log a)) = g.one := by
  calc
    g.mul a (g.exp (g.order - g.log a)) =
        g.mul (g.exp (g.log a)) (g.exp (g.order - g.log a)) := by rw [exp_log ha]
    _ = g.one := by rw [exp_mul_exp, Nat.add_sub_cancel' (g.log_le a), exp_order]

variable (g) in
/-- The field of the generator. -/
@[reducible] def field : Field K where
  mul := g.mul
  one := g.one
  inv a := if a = 0 then 0 else g.exp (g.order - g.log a)
  zero_mul := zero_mul'
  mul_zero := mul_zero'
  mul_assoc := mul_assoc'
  one_mul := one_mul'
  mul_one a := (mul_comm' a g.one).trans (one_mul' a)
  mul_comm := mul_comm'
  left_distrib := mul_add'
  right_distrib a b c := by
    change g.mul (a + b) c = g.mul a c + g.mul b c
    rw [mul_comm', mul_add', mul_comm', mul_comm' b c]
  exists_pair_ne := ⟨g.one, 0, g.one_ne_zero⟩
  mul_inv_cancel a ha := by
    change g.mul a (if a = 0 then 0 else _) = g.one
    rw [if_neg ha, mul_inv' ha]
  inv_zero := if_pos rfl
  nnqsmul := _
  nnqsmul_def _ _ := rfl
  qsmul := _
  qsmul_def _ _ := rfl

/-- The powers of the generator are powers in the field. -/
theorem exp_eq_pow (n : ℕ) :
    letI := g.field
    g.exp n = g.exp 1 ^ n := by
  let _ := g.field
  induction n with
  | zero => exact (pow_zero _).symm
  | succ n ih =>
    rw [pow_succ, ← ih]
    exact (exp_mul_exp n 1).symm

end Field

end Generator

end IrohWebrtc
