import Mathlib.Data.List.Basic
import Mathlib.Data.Nat.Bitwise

/-!
# Bits of numbers

The bits of a number, so many of them, the lowest first (`low`) or the highest (`high`), and
the number of bits (`value`). Bytes are eight bits each: a list of them is read bit by bit
(`getD_flatMap_high`), and bits that are grouped by eight are bytes again (`octets_flatMap`).
-/

namespace IrohWebrtc.Bits

/-- The lowest bits of a number, from the lowest on. -/
def low (w n : ℕ) : List Bool := (List.range w).map n.testBit

/-- The lowest bits of a number, down to the lowest. -/
def high (w n : ℕ) : List Bool := (List.range w).map fun i => n.testBit (w - i - 1)

/-- The number of bits, from the lowest on. -/
def value : List Bool → ℕ
  | [] => 0
  | b :: bs => Nat.bit b (value bs)

variable {bs cs : List Bool} {w n i : ℕ}

@[simp] theorem length_low (w n : ℕ) : (low w n).length = w := by
  rw [low, List.length_map, List.length_range]

@[simp] theorem length_high (w n : ℕ) : (high w n).length = w := by
  rw [high, List.length_map, List.length_range]

theorem getElem_low (h : i < (low w n).length) : (low w n)[i] = n.testBit i := by
  simp only [low, List.getElem_map, List.getElem_range]

theorem reverse_low (w n : ℕ) : (low w n).reverse = high w n := by
  refine List.ext_getElem (by simp) fun i hi hi' => ?_
  simp only [low, high, List.getElem_reverse, List.getElem_map, List.getElem_range,
    List.length_map, List.length_range]
  rw [Nat.sub_right_comm]

theorem testBit_value (bs : List Bool) (i : ℕ) : (value bs).testBit i = bs.getD i false := by
  induction bs generalizing i with
  | nil => rw [value, Nat.zero_testBit, List.getD_nil]
  | cons b bs ih =>
    cases i with
    | zero => rw [value, Nat.testBit_bit_zero, List.getD_cons_zero]
    | succ i => rw [value, Nat.testBit_bit_succ, ih, List.getD_cons_succ]

theorem getD_low (w n i : ℕ) : (low w n).getD i false = (decide (i < w) && n.testBit i) := by
  by_cases hi : i < w
  · rw [List.getD_eq_getElem _ _ (by rwa [length_low]), getElem_low, decide_eq_true hi,
      Bool.true_and]
  · rw [List.getD_eq_default _ _ (by simpa using hi), decide_eq_false hi, Bool.false_and]

/-- The number of the lowest bits. -/
theorem value_low (w n : ℕ) : value (low w n) = n % 2 ^ w := by
  refine Nat.eq_of_testBit_eq fun i => ?_
  rw [testBit_value, getD_low, Nat.testBit_mod_two_pow]

theorem value_low_of_lt (h : n < 2 ^ w) : value (low w n) = n := by
  rw [value_low, Nat.mod_eq_of_lt h]

theorem value_high (h : n < 2 ^ w) : value (high w n).reverse = n := by
  rw [← reverse_low, List.reverse_reverse, value_low_of_lt h]

theorem low_add (w v n : ℕ) : low (w + v) n = low w n ++ low v (n >>> w) := by
  rw [low, low, low, List.range_add, List.map_append, List.map_map]
  congr 1
  refine List.map_congr_left fun i _ => ?_
  rw [Function.comp_apply, Nat.testBit_shiftRight]

/-! ## Bytes -/

theorem getD_high (h : i < w) (n : ℕ) : (high w n).getD i false = n.testBit (w - 1 - i) := by
  rw [List.getD_eq_getElem _ _ (by rwa [length_high])]
  simp only [high, List.getElem_map, List.getElem_range]
  rw [Nat.sub_right_comm]

/-- Groups of eight, and what is left. -/
def octets : List Bool → List (List Bool)
  | b₀ :: b₁ :: b₂ :: b₃ :: b₄ :: b₅ :: b₆ :: b₇ :: bs =>
    [b₀, b₁, b₂, b₃, b₄, b₅, b₆, b₇] :: octets bs
  | [] => []
  | bs => [bs]

theorem octets_append (h : bs.length = 8) (cs : List Bool) :
    octets (bs ++ cs) = bs :: octets cs := by
  match bs, h with
  | [b₀, b₁, b₂, b₃, b₄, b₅, b₆, b₇], _ => rfl

/-- Groups of eight are found again. -/
theorem octets_flatMap {f : ℕ → List Bool} (hf : ∀ c, (f c).length = 8) (l : List ℕ) :
    octets (l.flatMap f) = l.map f := by
  induction l with
  | nil => rfl
  | cons c l ih => rw [List.flatMap_cons, octets_append (hf c), ih, List.map_cons]

/-- A bit of bytes. -/
theorem getD_flatMap_high (l : List ℕ) (i : ℕ) :
    (l.flatMap (high 8)).getD i false = (l.getD (i / 8) 0).testBit (7 - i % 8) := by
  induction l generalizing i with
  | nil => rw [List.flatMap_nil, List.getD_nil, List.getD_nil, Nat.zero_testBit]
  | cons c l ih =>
    rw [List.flatMap_cons]
    by_cases hi : i < 8
    · rw [List.getD_append _ _ _ _ (by rwa [length_high]), getD_high hi, Nat.div_eq_of_lt hi,
        Nat.mod_eq_of_lt hi, List.getD_cons_zero]
    · obtain ⟨j, rfl⟩ := Nat.exists_eq_add_of_le (Nat.le_of_not_lt hi)
      rw [List.getD_append_right _ _ _ _ (by rw [length_high]; omega), length_high,
        Nat.add_sub_cancel_left, ih, Nat.add_div_left _ (by decide), Nat.add_mod_left,
        List.getD_cons_succ]

end IrohWebrtc.Bits
