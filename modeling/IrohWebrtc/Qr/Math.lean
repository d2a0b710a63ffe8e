import IrohWebrtc.Lib.Generator
import Mathlib.Algebra.Group.Int.Defs
import Mathlib.Data.Finset.Card
import Mathlib.Data.Nat.Bitwise
import Mathlib.Dynamics.PeriodicPts.Defs

/-!
# Arithmetic of the QR code generator

The tables of exponents and logarithms (`QRMath` of `qrcode.js`), and the field of 256
elements that they are of: bytes that are added bit by bit, with the byte 2 for a generator
(`Gf`). The order of the generator is 255, as no proper divisor of that gives one; so that
its powers are all bytes but 0. Numbers may be `undefined`, which is 0 to the operator `^`.

* `gf_gexp`: the function `gexp` gives the powers of the generator, also the negative ones.
* `glog_eq`: the function `glog` gives the logarithm of what is not 0.
-/

namespace IrohWebrtc.Qr

/-! ## Tables -/

/-- `EXP_TABLE` -/
def expTable : List ℕ :=
  (List.range' 8 248).foldl
    (fun t i =>
      t ++ [t.getD (i - 4) 0 ^^^ t.getD (i - 5) 0 ^^^ t.getD (i - 6) 0 ^^^ t.getD (i - 8) 0])
    ((List.range 8).map (1 <<< ·))

/-- `LOG_TABLE`, which has nothing at 0. -/
def logTable : List (Option ℕ) :=
  (List.range 255).foldl (fun t i => t.set (expTable.getD i 0) (some i)) (List.replicate 256 none)

/-- `glog` -/
def glog : Option ℕ → Except String (Option ℕ)
  | some n => if n < 1 then .error s!"glog({n})" else .ok (logTable.getD n none)
  | none => .ok none

/-- The loops of `gexp`. -/
def wrap (n : ℤ) : ℤ := if n < 0 then wrap (n + 255) else if n ≥ 256 then wrap (n - 255) else n
termination_by if n < 0 then 256 + n.natAbs else n.natAbs
decreasing_by all_goals split <;> omega

/-- `gexp` -/
def gexp : Option ℤ → Option ℕ
  | some n => expTable[(wrap n).toNat]?
  | none => none

/-! ## Doubling -/

/-- A byte that is doubled: what is shifted out comes back in other places. -/
def double (n : ℕ) : ℕ := n <<< 1 ^^^ if n.testBit 7 then 285 else 0

theorem double_xor (m n : ℕ) : double (m ^^^ n) = double m ^^^ double n := by
  rw [double, double, double, Nat.shiftLeft_xor_distrib, Nat.testBit_xor]
  cases m.testBit 7 <;> cases n.testBit 7 <;>
    simp only [Bool.xor_true, Bool.xor_false, Bool.not_true, Bool.not_false, if_true, if_false,
      Bool.false_eq_true, Nat.xor_zero]
  · rw [Nat.xor_assoc]
  · rw [Nat.xor_assoc, Nat.xor_assoc, Nat.xor_comm 285]
  · calc
      m <<< 1 ^^^ n <<< 1 = m <<< 1 ^^^ n <<< 1 ^^^ (285 ^^^ 285) := by
        rw [Nat.xor_self, Nat.xor_zero]
      _ = m <<< 1 ^^^ 285 ^^^ (n <<< 1 ^^^ 285) := by ac_rfl

theorem double_lt : ∀ n < 256, double n < 256 := by
  decide +kernel

/-- The powers of two. -/
def power (n : ℕ) : ℕ := double^[n] 1

theorem power_succ (n : ℕ) : power (n + 1) = double (power n) := Function.iterate_succ_apply' ..

theorem power_lt (n : ℕ) : power n < 256 := by
  induction n with
  | zero => decide
  | succ n ih => exact power_succ n ▸ double_lt _ ih

theorem iterate_double_xor (k m n : ℕ) : double^[k] (m ^^^ n) = double^[k] m ^^^ double^[k] n := by
  induction k generalizing m n with
  | zero => rfl
  | succ k ih => rw [Function.iterate_succ_apply, double_xor, ih]; rfl

/-- The recurrence of the table. -/
theorem power_add_eight (n : ℕ) :
    power (n + 8) = power (n + 4) ^^^ power (n + 3) ^^^ power (n + 2) ^^^ power n := by
  have height : double^[8] 1 = double^[4] 1 ^^^ double^[3] 1 ^^^ double^[2] 1 ^^^ 1 := by
    decide +kernel
  simp only [power, Function.iterate_add_apply, height, iterate_double_xor]

theorem expTable_eq : expTable = (List.range 256).map power := by
  have hstep : ∀ k, (List.range' 8 k).foldl
      (fun t i =>
        t ++ [t.getD (i - 4) 0 ^^^ t.getD (i - 5) 0 ^^^ t.getD (i - 6) 0 ^^^ t.getD (i - 8) 0])
      ((List.range 8).map (1 <<< ·)) = (List.range (8 + k)).map power := by
    intro k
    induction k with
    | zero => decide +kernel
    | succ k ih =>
      have hget : ∀ i < 8 + k, ((List.range (8 + k)).map power).getD i 0 = power i := by
        intro i hi
        rw [List.getD_eq_getElem _ _ (by simpa using hi), List.getElem_map, List.getElem_range]
      rw [List.range'_concat, List.foldl_append, ih, List.foldl_cons, List.foldl_nil, Nat.one_mul,
        hget _ (by omega), hget _ (by omega), hget _ (by omega), hget _ (by omega)]
      have hrec := power_add_eight k
      rw [show 8 + k - 4 = k + 4 by omega, show 8 + k - 5 = k + 3 by omega,
        show 8 + k - 6 = k + 2 by omega, show 8 + k - 8 = k by omega, ← hrec,
        ← Nat.add_assoc 8 k 1, List.range_succ, List.map_append, Nat.add_comm k 8]
      rfl
  exact hstep 248

theorem expTable_getElem? {i : ℕ} (h : i < 256) : expTable[i]? = some (power i) := by
  rw [expTable_eq, List.getElem?_map, List.getElem?_range h]
  rfl

/-! ## The order of the generator -/

theorem power_order : power 255 = 1 := by
  decide +kernel

theorem minimalPeriod_double : Function.minimalPeriod double 1 = 255 := by
  have hdvd : Function.minimalPeriod double 1 ∣ 255 :=
    Function.IsPeriodicPt.minimalPeriod_dvd power_order
  have hfac : ∀ d, d ∣ 255 → d = 255 ∨ d ∣ 85 ∨ d ∣ 51 ∨ d ∣ 15 := by
    intro d hd
    have hle := Nat.le_of_dvd (by decide) hd
    revert hd
    revert d
    decide +kernel
  have hne : ∀ n, power n ≠ 1 → ¬ Function.minimalPeriod double 1 ∣ n := by
    rintro n hn ⟨k, rfl⟩
    exact hn ((Function.isPeriodicPt_minimalPeriod double 1).mul_const k)
  rcases hfac _ hdvd with h | h | h | h
  · exact h
  · exact absurd h (hne 85 (by decide +kernel))
  · exact absurd h (hne 51 (by decide +kernel))
  · exact absurd h (hne 15 (by decide +kernel))

theorem power_injOn {i j : ℕ} (hi : i < 255) (hj : j < 255) (h : power i = power j) : i = j :=
  Function.iterate_injOn_Iio_minimalPeriod (minimalPeriod_double.symm ▸ hi)
    (minimalPeriod_double.symm ▸ hj) h

theorem power_ne_zero (n : ℕ) : power n ≠ 0 := by
  have hdouble : ∀ n < 256, double n = 0 → n = 0 := by
    decide +kernel
  induction n with
  | zero => exact Nat.one_ne_zero
  | succ n ih => exact fun h => ih (hdouble _ (power_lt n) (power_succ n ▸ h))

/-- Every byte but 0 is a power of two. -/
theorem exists_power {n : ℕ} (h : n < 256) (hn : n ≠ 0) : ∃ i < 255, power i = n := by
  have hcard : ((Finset.range 255).image power).card = 255 := by
    rw [Finset.card_image_of_injOn, Finset.card_range]
    intro i hi j hj
    exact power_injOn (Finset.mem_range.1 hi) (Finset.mem_range.1 hj)
  have hsub : (Finset.range 255).image power ⊆ (Finset.range 256).erase 0 := by
    intro m hm
    obtain ⟨i, -, rfl⟩ := Finset.mem_image.1 hm
    exact Finset.mem_erase.2 ⟨power_ne_zero i, Finset.mem_range.2 (power_lt i)⟩
  have heq := Finset.eq_of_subset_of_card_le hsub (by
    rw [hcard, Finset.card_erase_of_mem (by simp), Finset.card_range])
  have hmem : n ∈ (Finset.range 255).image power := by
    rw [heq]
    exact Finset.mem_erase.2 ⟨hn, Finset.mem_range.2 h⟩
  obtain ⟨i, hi, rfl⟩ := Finset.mem_image.1 hmem
  exact ⟨i, Finset.mem_range.1 hi, rfl⟩

/-- The table of logarithms inverts that of exponents. -/
theorem logTable_power {i : ℕ} (h : i < 255) : logTable.getD (power i) none = some i := by
  have hfold : ∀ k ≤ 255, ∀ j < k, ((List.range k).foldl
      (fun t i => t.set (expTable.getD i 0) (some i)) (List.replicate 256 none)).length = 256 ∧
      ((List.range k).foldl (fun t i => t.set (expTable.getD i 0) (some i))
        (List.replicate 256 none)).getD (power j) none = some j := by
    intro k hk
    induction k with
    | zero => exact fun j hj => absurd hj (Nat.not_lt_zero j)
    | succ k ih =>
      intro j hj
      have hlen : ((List.range k).foldl (fun t i => t.set (expTable.getD i 0) (some i))
          (List.replicate 256 (none : Option ℕ))).length = 256 := by
        rcases Nat.eq_zero_or_pos k with rfl | hpos
        · exact List.length_replicate
        · exact (ih (by omega) 0 hpos).1
      have hexp : expTable.getD k 0 = power k := by
        rw [List.getD_eq_getElem?_getD, expTable_getElem? (by omega), Option.getD_some]
      rw [List.range_succ, List.foldl_append, List.foldl_cons, List.foldl_nil, hexp]
      refine ⟨by rw [List.length_set, hlen], ?_⟩
      rw [List.getD_eq_getElem?_getD]
      rcases Nat.lt_succ_iff_lt_or_eq.1 hj with hlt | rfl
      · have hne : power k ≠ power j := fun heq =>
          absurd (power_injOn (by omega) (by omega) heq) (Nat.ne_of_gt hlt)
        rw [List.getElem?_set_ne hne, ← List.getD_eq_getElem?_getD]
        exact (ih (by omega) j hlt).2
      · rw [List.getElem?_set_self (hlen.symm ▸ power_lt j), Option.getD_some]
  exact (hfold 255 (Nat.le_refl _) i h).2

/-! ## The field -/

/-- Bytes that are added bit by bit. -/
@[ext] structure Gf where
  val : ℕ
  lt : val < 256
  deriving DecidableEq

namespace Gf

instance : Zero Gf := ⟨⟨0, by decide⟩⟩

instance : Add Gf := ⟨fun a b => ⟨a.val ^^^ b.val, Nat.xor_lt_two_pow (n := 8) a.lt b.lt⟩⟩

instance : Neg Gf := ⟨id⟩

instance : AddCommGroup Gf where
  add_assoc _ _ _ := Gf.ext (Nat.xor_assoc ..)
  zero_add _ := Gf.ext (Nat.zero_xor _)
  add_zero _ := Gf.ext (Nat.xor_zero _)
  neg_add_cancel _ := Gf.ext (Nat.xor_self _)
  add_comm _ _ := Gf.ext (Nat.xor_comm ..)
  nsmul := nsmulRec
  zsmul := zsmulRec

theorem add_self (a : Gf) : a + a = 0 := Gf.ext (Nat.xor_self _)

/-- Doubling, as it is additive. -/
def doubleHom : Gf →+ Gf where
  toFun a := ⟨double a.val, double_lt _ a.lt⟩
  map_zero' := rfl
  map_add' _ _ := Gf.ext (double_xor ..)

theorem val_iterate (n : ℕ) : ((doubleHom^[n]) ⟨1, by decide⟩).val = power n := by
  induction n with
  | zero => rfl
  | succ n ih =>
    rw [Function.iterate_succ_apply', power_succ, ← ih]
    rfl

/-- The exponent of an element, by the table. -/
def log (a : Gf) : ℕ := (logTable.getD a.val none).getD 0

theorem log_spec {a : Gf} (h : a ≠ 0) : power a.log = a.val ∧ a.log < 255 := by
  obtain ⟨i, hi, heq⟩ := exists_power a.lt fun h0 => h (Gf.ext h0)
  rw [log, ← heq, logTable_power hi]
  exact ⟨rfl, hi⟩

/-- The byte 2 generates the field. -/
def generator : Generator Gf where
  mulBy := doubleHom
  one := ⟨1, by decide⟩
  log a := if a = 0 then 0 else a.log
  order := 255
  one_ne_zero h := absurd (congrArg Gf.val h) (by decide)
  order_pos := by decide
  iterate_log a h := by
    rw [if_neg h]
    exact Gf.ext ((val_iterate _).trans (log_spec h).1)
  iterate_order := Gf.ext ((val_iterate _).trans power_order)
  log_le a := by
    split
    · exact Nat.zero_le _
    · next h => exact (log_spec h).2.le

instance : Field Gf := generator.field

/-- The generator. -/
def α : Gf := generator.exp 1

theorem val_pow (n : ℕ) : (α ^ n).val = power n := by
  have h := congrArg Gf.val (Generator.exp_eq_pow (g := generator) n)
  rw [Generator.exp] at h
  exact h.symm.trans (val_iterate n)

theorem α_ne_zero : α ≠ 0 := Generator.exp_ne_zero 1

theorem pow_order : α ^ 255 = 1 := Gf.ext ((val_pow 255).trans power_order)

theorem pow_injOn {i j : ℕ} (hi : i < 255) (hj : j < 255) (h : α ^ i = α ^ j) : i = j := by
  have hval := congrArg Gf.val h
  rw [val_pow, val_pow] at hval
  exact power_injOn hi hj hval

end Gf

/-! ## The functions of the tables -/

open Gf (α)

/-- A number that is a byte, or no number. -/
def IsByte (c : Option ℕ) : Prop := c.getD 0 < 256

/-- The element of a number. -/
def gf (c : Option ℕ) : Gf := ⟨c.getD 0 % 256, Nat.mod_lt _ (by decide)⟩

variable {c d : Option ℕ}

@[simp] theorem gf_none : gf none = 0 := rfl

theorem val_gf (h : IsByte c) : (gf c).val = c.getD 0 := Nat.mod_eq_of_lt h

theorem gf_eq_zero (h : IsByte c) : gf c = 0 ↔ c.getD 0 = 0 := by
  rw [Gf.ext_iff, val_gf h]
  rfl

/-- The operator `^` adds. -/
theorem gf_xor (c d : Option ℕ) : gf (some (c.getD 0 ^^^ d.getD 0)) = gf c + gf d :=
  Gf.ext (Nat.xor_mod_two_pow (n := 8))

theorem isByte_xor (hc : IsByte c) (hd : IsByte d) : IsByte (some (c.getD 0 ^^^ d.getD 0)) :=
  Nat.xor_lt_two_pow (n := 8) hc hd

/-- The logarithm of what is not 0. -/
theorem glog_eq (hc : IsByte c) (h : gf c ≠ 0) :
    ∃ k : ℕ, glog c = .ok (some k) ∧ α ^ k = gf c := by
  have hne : c.getD 0 ≠ 0 := (gf_eq_zero hc).not.1 h
  obtain ⟨i, hi, heq⟩ := exists_power hc hne
  cases c with
  | none => exact absurd rfl hne
  | some n =>
    refine ⟨i, ?_, Gf.ext ?_⟩
    · rw [Option.getD_some] at heq hne
      rw [glog, if_neg (Nat.not_lt.2 (Nat.one_le_iff_ne_zero.2 hne)), ← heq, logTable_power hi]
    · rw [Gf.val_pow, heq, val_gf hc]

/-- Numbers are wrapped to others that are the same power. -/
theorem wrap_spec (n : ℤ) : 0 ≤ wrap n ∧ wrap n < 256 ∧ α ^ wrap n = α ^ n := by
  have hperiod : α ^ (255 : ℤ) = 1 := (zpow_natCast α 255).trans Gf.pow_order
  fun_induction wrap n with
  | case1 n hn ih => rwa [zpow_add₀ Gf.α_ne_zero, hperiod, mul_one] at ih
  | case2 n hn hn' ih => rwa [zpow_sub₀ Gf.α_ne_zero, hperiod, div_one] at ih
  | case3 n hn hn' => exact ⟨by omega, by omega, rfl⟩

/-- The powers of the generator, also the negative ones. -/
theorem gf_gexp (n : ℤ) : IsByte (gexp (some n)) ∧ gf (gexp (some n)) = α ^ n := by
  obtain ⟨hpos, hlt, hpow⟩ := wrap_spec n
  have hget : gexp (some n) = some (power (wrap n).toNat) :=
    expTable_getElem? ((Int.toNat_lt hpos).2 hlt)
  have hbyte : IsByte (some (power (wrap n).toNat)) := power_lt _
  rw [hget]
  refine ⟨hbyte, Gf.ext ?_⟩
  have hcast : α ^ wrap n = α ^ (wrap n).toNat := by
    rw [← zpow_natCast, Int.toNat_of_nonneg hpos]
  rw [val_gf hbyte, ← hpow, hcast, Gf.val_pow, Option.getD_some]

end IrohWebrtc.Qr
