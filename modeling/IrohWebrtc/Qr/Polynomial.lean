import IrohWebrtc.Lib.ReedSolomon
import IrohWebrtc.Qr.Math

/-!
# Polynomials of the QR code generator

`qrPolynomial` of `qrcode.js`, by its coefficients, the highest first. A polynomial that is
shifted has nothing where its lowest coefficients should be, which counts as 0 to the
operator `^`, but not as a zero in front. `glog` throws for 0, so that products are found
of polynomials only that have no coefficient 0.

* `getErrorCorrectPolynomial_eq`: the generator polynomial is found, and has no such
  coefficient, as a polynomial with so many roots cannot have one.
* `mod_eq`: a remainder is found, and has the same values at the roots of the divisor.
-/

namespace IrohWebrtc.Qr

open Gf (α)
open ReedSolomon (eval)

/-- Coefficients, of which some may be `undefined`. -/
abbrev Coeffs := List (Option ℕ)

/-- `qrPolynomial`: zeros in front are left out. -/
def qrPolynomial (num : Coeffs) (shift : ℕ) : Coeffs :=
  num.dropWhile (· = some 0) ++ List.replicate shift none

/-- `num[offset + i] ^= terms[i]` -/
def xorAt : Coeffs → ℕ → Coeffs → Coeffs
  | c :: num, 0, t :: terms => some (c.getD 0 ^^^ t.getD 0) :: xorAt num 0 terms
  | c :: num, offset + 1, terms => c :: xorAt num offset terms
  | num, _, _ => num

/-- The sum of two numbers, of which either may be `NaN`. -/
def plus : Option ℤ → Option ℤ → Option ℤ
  | some m, some n => some (m + n)
  | _, _ => none

/-- `glog` as an integer. -/
def logOf (c : Option ℕ) : Except String (Option ℤ) := (glog c).map fun l => l.map (↑)

/-- `gexp(l + glog(d))` for the coefficients `d` of `e`. -/
def scale (l : Except String (Option ℤ)) (e : Coeffs) : Except String Coeffs :=
  e.mapM fun d => do return gexp (plus (← l) (← logOf d))

/-- The outer loop of `multiply`, from the `i`-th coefficient on. -/
def multiplyRows (e : Coeffs) : ℕ → Coeffs → Coeffs → Except String Coeffs
  | _, [], num => .ok num
  | i, c :: p, num => do multiplyRows e (i + 1) p (xorAt num i (← scale (logOf c) e))

/-- `multiply` -/
def multiply (p e : Coeffs) : Except String Coeffs := do
  let num ← multiplyRows e 0 p (List.replicate (p.length + e.length - 1) none)
  return qrPolynomial num 0

/-- `mod`, with so many calls on the stack. -/
def mod : ℕ → Coeffs → Coeffs → Except String Coeffs
  | 0, _, _ => .error "Maximum call stack size exceeded"
  | depth + 1, p, e =>
    if p.length < e.length then .ok p
    else do
      let ratio := plus (← logOf p.head?.join) ((← logOf e.head?.join).map (-·))
      mod depth (qrPolynomial (xorAt p 0 (← scale (.ok ratio) e)) 0) e

/-- `getErrorCorrectPolynomial` -/
def getErrorCorrectPolynomial (errorCorrectLength : ℕ) : Except String Coeffs :=
  (List.range errorCorrectLength).foldlM
    (fun a (i : ℕ) => multiply a (qrPolynomial [some 1, gexp (some (i : ℤ))] 0))
    (qrPolynomial [some 1] 0)

/-! ## Values -/

/-- The elements of coefficients. -/
def elements (p : Coeffs) : List Gf := p.map gf

/-- The coefficients are bytes. -/
def AllBytes (p : Coeffs) : Prop := ∀ c ∈ p, IsByte c

/-- The coefficients are bytes, none of which is 0. -/
def Full (p : Coeffs) : Prop := ∀ c ∈ p, IsByte c ∧ gf c ≠ 0

variable {c d : Option ℕ} {p e num terms : Coeffs} {x : Gf} {i : ℕ}

@[simp] theorem length_elements (p : Coeffs) : (elements p).length = p.length := List.length_map _

@[simp] theorem elements_cons (c : Option ℕ) (p : Coeffs) : elements (c :: p) = gf c :: elements p :=
  rfl

@[simp] theorem elements_append (p e : Coeffs) : elements (p ++ e) = elements p ++ elements e :=
  List.map_append

theorem isByte_none : IsByte none := by
  change 0 < 256
  decide

theorem allBytes_replicate (n : ℕ) : AllBytes (List.replicate n none) := by
  intro c hc
  rw [List.eq_of_mem_replicate hc]
  exact isByte_none

/-- Leaving zeros out in front does not change a value. -/
theorem eval_dropWhile (p : Coeffs) (x : Gf) :
    eval (elements (p.dropWhile (· = some 0))) x = eval (elements p) x := by
  induction p with
  | nil => rfl
  | cons c p ih =>
    by_cases hc : c = some 0
    · have hzero : gf (some 0) = 0 := rfl
      rw [List.dropWhile_cons_of_pos (by simpa using hc), ih, hc, elements_cons,
        ReedSolomon.eval_cons, hzero, zero_mul, zero_add]
    · rw [List.dropWhile_cons_of_neg (by simpa using hc)]

theorem elements_replicate_none (n : ℕ) :
    elements (List.replicate n none) = List.replicate n 0 :=
  List.map_replicate

/-! ## Adding terms -/

@[simp] theorem length_xorAt (num : Coeffs) (i : ℕ) (terms : Coeffs) :
    (xorAt num i terms).length = num.length := by
  fun_induction xorAt num i terms with
  | case1 c num t terms ih => rw [List.length_cons, List.length_cons, ih]
  | case2 c num i terms ih => rw [List.length_cons, List.length_cons, ih]
  | case3 => rfl

theorem allBytes_xorAt (hnum : AllBytes num) (hterms : AllBytes terms) :
    AllBytes (xorAt num i terms) := by
  fun_induction xorAt num i terms with
  | case1 c num t terms ih =>
    rw [AllBytes, List.forall_mem_cons] at hnum hterms ⊢
    exact ⟨isByte_xor hnum.1 hterms.1, ih hnum.2 hterms.2⟩
  | case2 c num i terms ih =>
    rw [AllBytes, List.forall_mem_cons] at hnum ⊢
    exact ⟨hnum.1, ih hnum.2 hterms⟩
  | case3 => exact hnum

/-- Terms that are added are added to a value, as many places up as there are after them. -/
theorem eval_xorAt (h : i + terms.length ≤ num.length) :
    eval (elements (xorAt num i terms)) x = eval (elements num) x +
      eval (elements terms) x * x ^ (num.length - i - terms.length) := by
  fun_induction xorAt num i terms with
  | case1 c num t terms ih =>
    rw [List.length_cons, List.length_cons, Nat.zero_add, Nat.add_le_add_iff_right] at h
    have hpow : x ^ num.length = x ^ terms.length * x ^ (num.length - terms.length) := by
      rw [← pow_add, Nat.add_sub_cancel' h]
    rw [elements_cons, elements_cons, elements_cons, ReedSolomon.eval_cons, ReedSolomon.eval_cons,
      ReedSolomon.eval_cons, length_elements, length_elements, length_elements, length_xorAt,
      ih (by omega), gf_xor, List.length_cons, List.length_cons, Nat.sub_zero, Nat.sub_zero,
      Nat.add_sub_add_right, hpow]
    ring
  | case2 c num i terms ih =>
    rw [List.length_cons] at h
    rw [elements_cons, elements_cons, ReedSolomon.eval_cons, ReedSolomon.eval_cons,
      length_elements, length_elements, length_xorAt, ih (by omega), List.length_cons,
      Nat.add_sub_add_right, add_assoc]
  | case3 num i terms h₁ h₂ =>
    have hterms : terms = [] := by
      cases num with
      | nil => exact List.length_eq_zero_iff.1 (Nat.eq_zero_of_le_zero (Nat.le_of_add_left_le h))
      | cons c num =>
        cases i with
        | zero =>
          cases terms with
          | nil => rfl
          | cons t terms => exact (h₁ c num t terms rfl rfl rfl).elim
        | succ i => exact (h₂ c num i rfl rfl).elim
    rw [hterms]
    simp [elements]

theorem head?_xorAt_succ : (xorAt num (i + 1) terms).head? = num.head? := by
  cases num <;> rfl

theorem head?_xorAt_zero {t : Option ℕ} :
    (xorAt (c :: num) 0 (t :: terms)).head? = some (some (c.getD 0 ^^^ t.getD 0)) := rfl

/-- Where there was a number, there still is. -/
theorem xorAt_ne_none {k : ℕ} (h : num[k]? ≠ some none) : (xorAt num i terms)[k]? ≠ some none := by
  fun_induction xorAt num i terms generalizing k with
  | case1 c num t terms ih =>
    cases k with
    | zero => simp
    | succ k => exact ih h
  | case2 c num i terms ih =>
    cases k with
    | zero => exact h
    | succ k => exact ih h
  | case3 => exact h

/-! ## Products -/

/-- The logarithm of a coefficient that is not 0. -/
theorem logOf_eq (hc : IsByte c) (h : gf c ≠ 0) :
    ∃ l : ℤ, logOf c = .ok (some l) ∧ α ^ l = gf c := by
  obtain ⟨k, hk, hpow⟩ := glog_eq hc h
  exact ⟨k, by rw [logOf, hk]; rfl, by rw [zpow_natCast, hpow]⟩

/-- The multiple of coefficients by a power of the generator. -/
theorem scale_eq (l : ℤ) (he : Full e) : ∃ terms, scale (.ok (some l)) e = .ok terms ∧
    AllBytes terms ∧ elements terms = (elements e).map (α ^ l * ·) := by
  induction e with
  | nil => exact ⟨[], rfl, fun _ hc => absurd hc List.not_mem_nil, rfl⟩
  | cons d e ih =>
    rw [Full, List.forall_mem_cons] at he
    obtain ⟨terms, hterms, hbytes, helements⟩ := ih he.2
    obtain ⟨m, hm, hpow⟩ := logOf_eq he.1.1 he.1.2
    obtain ⟨hbyte, hgexp⟩ := gf_gexp (l + m)
    refine ⟨gexp (some (l + m)) :: terms, ?_, List.forall_mem_cons.2 ⟨hbyte, hbytes⟩, ?_⟩
    · rw [scale] at hterms ⊢
      rw [List.mapM_cons, hterms, hm]
      rfl
    · rw [elements_cons, helements, hgexp, zpow_add₀ Gf.α_ne_zero, hpow]
      rfl

theorem eval_map_mul (a : Gf) (w : List Gf) (x : Gf) :
    eval (w.map (a * ·)) x = a * eval w x := by
  induction w with
  | nil => exact (mul_zero a).symm
  | cons c w ih =>
    rw [List.map_cons, ReedSolomon.eval_cons, ReedSolomon.eval_cons, ih, List.length_map]
    ring

theorem length_of_elements {q : Coeffs} {f : Gf → Gf} (h : elements p = (elements q).map f) :
    p.length = q.length := by
  have hlen := congrArg List.length h
  simpa using hlen

theorem multiplyRows_eq (hp : Full p) (he : Full e) (hne : e ≠ []) (hnum : AllBytes num)
    (hlen : num.length + 1 = i + p.length + e.length) : ∃ r, multiplyRows e i p num = .ok r ∧
      AllBytes r ∧ r.length = num.length ∧ (0 < i → r.head? = num.head?) ∧
      ∀ x, eval (elements r) x =
        eval (elements num) x + eval (elements p) x * eval (elements e) x := by
  induction p generalizing i num with
  | nil =>
    refine ⟨num, rfl, hnum, rfl, fun _ => rfl, fun x => ?_⟩
    rw [elements, elements, List.map_nil, ReedSolomon.eval_nil, zero_mul, add_zero]
  | cons c p ih =>
    rw [Full, List.forall_mem_cons] at hp
    obtain ⟨l, hl, hpow⟩ := logOf_eq hp.1.1 hp.1.2
    obtain ⟨terms, hterms, hbytes, helements⟩ := scale_eq l he
    have hlt := length_of_elements helements
    have hpos : 0 < e.length := List.length_pos_iff.2 hne
    -- A row is added `i` places further on: the rows below it have the same sum of lengths.
    rw [List.length_cons] at hlen
    obtain ⟨r, hr, hrb, hrl, hrh, hre⟩ := ih hp.2
      (allBytes_xorAt (i := i) hnum hbytes)
      (by rw [length_xorAt]; omega : (xorAt num i terms).length + 1 = i + 1 + p.length + e.length)
    refine ⟨r, ?_, hrb, by rw [hrl, length_xorAt], fun hi => ?_, fun x => ?_⟩
    · rw [multiplyRows, hl, hterms]
      exact hr
    · obtain ⟨i, rfl⟩ := Nat.exists_eq_succ_of_ne_zero hi.ne'
      rw [hrh (Nat.succ_pos _), head?_xorAt_succ]
    · have hexp : num.length - i - terms.length = p.length := by omega
      rw [hre, eval_xorAt (by omega), helements, eval_map_mul, hexp, hpow, elements_cons,
        ReedSolomon.eval_cons, length_elements]
      ring

/-! ## Generator polynomials -/

/-- The powers of the generator are distinct up to the 254th. -/
theorem distinct_of_le {n : ℕ} (h : n ≤ 255) : ReedSolomon.Distinct α n :=
  fun _ hi _ hj heq => Gf.pow_injOn (hi.trans_le h) (hj.trans_le h) heq

/-- A polynomial with as many roots as its degree has no coefficient 0. -/
theorem full_of_roots {n : ℕ} (hb : AllBytes p) (hlen : p.length = n + 1) (hn : n < 255)
    (hhead : ∀ c, p.head? = some c → gf c ≠ 0)
    (hroots : ReedSolomon.IsCodeword α n (elements p)) : Full p := by
  -- A word with so many roots has more than `n` coefficients that are not 0: all there are.
  have hlt : n < ReedSolomon.weight (elements p) := by
    refine ReedSolomon.lt_weight (distinct_of_le ?_) hroots ?_
    · rw [length_elements]
      omega
    · obtain ⟨c, p, rfl⟩ := List.exists_cons_of_length_eq_add_one hlen
      rw [elements_cons, ReedSolomon.weight, List.countP_cons_of_pos (by simpa using hhead c rfl)]
      exact Nat.succ_ne_zero _
  have hall : ReedSolomon.weight (elements p) = (elements p).length :=
    le_antisymm List.countP_le_length (by rw [length_elements]; omega)
  intro c hc
  refine ⟨hb c hc, ?_⟩
  simpa using List.countP_eq_length.1 hall (gf c) (List.mem_map_of_mem hc)

theorem gf_one : gf (some 1) = 1 := rfl

theorem isByte_one : IsByte (some 1) := by
  change 1 < 256
  decide

/-- The highest coefficient of a product, before zeros in front are left out. -/
theorem head?_multiplyRows (hp : Full p) (he : Full e) (hpne : p ≠ []) (hene : e ≠ [])
    {r : Coeffs} (hr : multiplyRows e 0 p (List.replicate (p.length + e.length - 1) none) = .ok r) :
    ∃ c, r.head? = some c ∧ gf c ≠ 0 := by
  obtain ⟨c, p, rfl⟩ := List.exists_cons_of_ne_nil hpne
  obtain ⟨d, e, rfl⟩ := List.exists_cons_of_ne_nil hene
  rw [Full, List.forall_mem_cons] at hp
  obtain ⟨l, hl, hpow⟩ := logOf_eq hp.1.1 hp.1.2
  obtain ⟨terms, hterms, hbytes, helements⟩ := scale_eq l he
  have hlt := length_of_elements helements
  obtain ⟨t, terms, rfl⟩ := List.exists_cons_of_length_eq_add_one hlt
  have hlen : (c :: p).length + (d :: e).length - 1 = p.length + e.length + 1 := by
    simp only [List.length_cons]
    omega
  have hnone : AllBytes (none :: List.replicate (p.length + e.length) none) := by
    rw [← List.replicate_succ]
    exact allBytes_replicate _
  -- The first row alone reaches the highest coefficient: the others begin one place further on.
  rw [hlen, List.replicate_succ, multiplyRows, hl, hterms] at hr
  have hsum : (xorAt (none :: List.replicate (p.length + e.length) none) 0 (t :: terms)).length + 1
      = 1 + p.length + (d :: e).length := by
    simp only [length_xorAt, List.length_cons, List.length_replicate]
    omega
  obtain ⟨r', hr', -, -, hhead, -⟩ := multiplyRows_eq (i := 1) hp.2 he hene
    (allBytes_xorAt hnone hbytes) hsum
  obtain rfl : r' = r := Except.ok.inj (hr'.symm.trans hr)
  refine ⟨_, (hhead Nat.one_pos).trans head?_xorAt_zero, ?_⟩
  rw [gf_xor, gf_none, zero_add, (List.cons.inj helements).1, hpow]
  exact mul_ne_zero hp.1.2 (he d List.mem_cons_self).2

theorem multiply_eq (hp : Full p) (he : Full e) (hpne : p ≠ []) (hene : e ≠ []) :
    ∃ r, multiply p e = .ok r ∧ AllBytes r ∧ r.length = p.length + e.length - 1 ∧
      (∀ c, r.head? = some c → gf c ≠ 0) ∧
      ∀ x, eval (elements r) x = eval (elements p) x * eval (elements e) x := by
  have hpos : 0 < p.length := List.length_pos_iff.2 hpne
  have hsum : p.length + e.length - 1 + 1 = 0 + p.length + e.length := by omega
  obtain ⟨r, hr, hb, hlen, -, heval⟩ := multiplyRows_eq (i := 0) hp he hene
    (allBytes_replicate (p.length + e.length - 1))
    (by rw [List.length_replicate, hsum])
  obtain ⟨c, hhead, hc⟩ := head?_multiplyRows hp he hpne hene hr
  have hdrop : qrPolynomial r 0 = r := by
    obtain ⟨r, rfl⟩ := List.head?_eq_some_iff.1 hhead
    rw [qrPolynomial, List.replicate_zero, List.append_nil, List.dropWhile_cons_of_neg]
    rw [decide_eq_true_eq]
    rintro rfl
    exact hc rfl
  refine ⟨r, ?_, hb, by rw [hlen, List.length_replicate], ?_, ?_⟩
  · rw [multiply, hr]
    exact congrArg Except.ok hdrop
  · rintro c' h
    rw [hhead] at h
    cases h
    exact hc
  · intro x
    rw [heval, elements_replicate_none, ReedSolomon.eval_replicate, zero_add]

/-- The polynomial `x + α ^ n`. -/
theorem full_factor (n : ℕ) : Full [some 1, gexp (some (n : ℤ))] := by
  obtain ⟨hbyte, hgexp⟩ := gf_gexp n
  have hne : gf (gexp (some (n : ℤ))) ≠ 0 := by
    rw [hgexp]
    exact zpow_ne_zero _ Gf.α_ne_zero
  rw [Full, List.forall_mem_cons, List.forall_mem_singleton, gf_one]
  exact ⟨⟨isByte_one, one_ne_zero⟩, hbyte, hne⟩

theorem eval_factor (n : ℕ) (x : Gf) :
    eval (elements [some 1, gexp (some (n : ℤ))]) x = x + α ^ n := by
  obtain ⟨-, hgexp⟩ := gf_gexp n
  rw [elements_cons, elements_cons, hgexp, zpow_natCast, gf_one, ReedSolomon.eval_cons,
    ReedSolomon.eval_cons]
  simp [elements]

/-- The polynomial with the first powers of the generator for its roots. -/
theorem getErrorCorrectPolynomial_eq {n : ℕ} (hn : n < 255) :
    ∃ r, getErrorCorrectPolynomial n = .ok r ∧ r.length = n + 1 ∧ Full r ∧
      ReedSolomon.IsCodeword α n (elements r) := by
  induction n with
  | zero =>
    refine ⟨[some 1], rfl, rfl, ?_, fun j hj => absurd hj (Nat.not_lt_zero j)⟩
    rw [Full, List.forall_mem_singleton, gf_one]
    exact ⟨isByte_one, one_ne_zero⟩
  | succ n ih =>
    obtain ⟨r, hr, hlen, hfull, hroots⟩ := ih (by omega)
    obtain ⟨r', hr', hb, hlen', hhead, heval⟩ := multiply_eq hfull (full_factor n)
      (List.ne_nil_of_length_eq_add_one hlen) (List.cons_ne_nil _ _)
    have hlen₂ : r'.length = n + 1 + 1 := by
      rw [hlen', hlen]
      rfl
    have hroots' : ReedSolomon.IsCodeword α (n + 1) (elements r') := by
      intro j hj
      rw [heval, eval_factor]
      rcases Nat.lt_succ_iff_lt_or_eq.1 hj with hj | rfl
      · rw [hroots j hj, zero_mul]
      · rw [Gf.add_self, mul_zero]
    refine ⟨r', ?_, hlen₂, full_of_roots hb hlen₂ hn hhead hroots', hroots'⟩
    have hpoly : qrPolynomial [some 1, gexp (some (n : ℤ))] 0 = [some 1, gexp (some (n : ℤ))] :=
      rfl
    rw [getErrorCorrectPolynomial] at hr ⊢
    rw [List.range_succ, List.foldlM_append, hr]
    simp only [List.foldlM_cons, List.foldlM_nil, hpoly, hr', bind, Except.bind, pure, Except.pure]

/-! ## Remainders -/

/-- Coefficients that may be divided: with no zero in front, and numbers down to the `n` last. -/
structure Ready (n : ℕ) (p : Coeffs) : Prop where
  bytes : AllBytes p
  head : p.head? ≠ some (some 0)
  number : ∀ k, k + n < p.length → p[k]? ≠ some none

theorem ready_qrPolynomial {n shift : ℕ} (hb : AllBytes num)
    (h : ∀ k, k + n < num.length + shift → (num ++ List.replicate shift none)[k]? ≠ some none) :
    Ready n (qrPolynomial num shift) := by
  obtain ⟨j, hj, hdrop⟩ : ∃ j ≤ num.length, num.dropWhile (· = some 0) = num.drop j :=
    ⟨_, List.findIdx_le_length, List.dropWhile_eq_drop_findIdx_not⟩
  have heq : qrPolynomial num shift = (num ++ List.replicate shift none).drop j := by
    rw [qrPolynomial, hdrop, List.drop_append_of_le_length hj]
  refine ⟨?_, ?_, fun k hk => ?_⟩
  · intro c hc
    rcases List.mem_append.1 hc with hc | hc
    · exact hb c (List.dropWhile_suffix _ |>.mem hc)
    · exact allBytes_replicate shift c hc
  · rw [qrPolynomial]
    have hfront := List.head?_dropWhile_not (fun c => decide (c = some 0)) num
    intro hhead
    rcases hnum : num.dropWhile (· = some 0) with _ | ⟨c, num'⟩
    · rw [hnum, List.nil_append] at hhead
      exact absurd (List.eq_of_mem_replicate (List.mem_of_head? hhead)) (Option.some_ne_none 0)
    · rw [hnum, List.cons_append, List.head?_cons, Option.some_inj] at hhead
      rw [hnum, List.head?_cons] at hfront
      exact of_decide_eq_false hfront hhead
  · rw [heq, List.length_drop, List.length_append, List.length_replicate] at hk
    rw [heq, List.getElem?_drop]
    exact h _ (by omega)

theorem Ready.head_ne {n : ℕ} (h : Ready n p) (hlen : n < p.length) :
    ∃ c p', p = c :: p' ∧ IsByte c ∧ gf c ≠ 0 := by
  cases p with
  | nil => exact absurd hlen (Nat.not_lt_zero n)
  | cons c p =>
    have hc := h.bytes c List.mem_cons_self
    refine ⟨c, p, rfl, hc, fun hzero => ?_⟩
    cases c with
    | none => exact h.number 0 (by omega) rfl
    | some m => exact h.head (congrArg (fun m => some (some m)) ((gf_eq_zero hc).1 hzero))

/-- The highest coefficient cancels, so that one is left out. -/
theorem length_qrPolynomial_lt {t : Option ℕ} (p' terms' : Coeffs) (hc : IsByte c) (ht : IsByte t)
    (h : gf c + gf t = 0) :
    (qrPolynomial (xorAt (c :: p') 0 (t :: terms')) 0).length ≤ p'.length := by
  have hzero : c.getD 0 ^^^ t.getD 0 = 0 := by
    rw [← gf_xor, gf_eq_zero (isByte_xor hc ht)] at h
    exact h
  rw [xorAt, hzero, qrPolynomial, List.dropWhile_cons_of_pos (by simp), List.replicate_zero,
    List.append_nil]
  exact (List.dropWhile_suffix _).length_le.trans (length_xorAt ..).le

/-- A remainder is found, with the same values at the roots of the divisor. -/
theorem mod_eq {depth n : ℕ} (he : Full e) (hen : e.length = n + 1) (h : Ready n p)
    (hdepth : p.length < depth) : ∃ r, mod depth p e = .ok r ∧ r.length ≤ n ∧ AllBytes r ∧
      ∀ x, eval (elements e) x = 0 → eval (elements r) x = eval (elements p) x := by
  induction depth generalizing p with
  | zero => exact absurd hdepth (Nat.not_lt_zero _)
  | succ depth ih =>
    rcases Nat.lt_or_ge p.length e.length with hlt | hge
    · exact ⟨p, by rw [mod, if_pos hlt], by omega, h.bytes, fun _ _ => rfl⟩
    · obtain ⟨c, p', rfl, hc, hcne⟩ := h.head_ne (by omega)
      obtain ⟨d, e', rfl⟩ := List.exists_cons_of_length_eq_add_one hen
      obtain ⟨hd, hdne⟩ := he d List.mem_cons_self
      obtain ⟨l, hl, hlpow⟩ := logOf_eq hc hcne
      obtain ⟨m, hm, hmpow⟩ := logOf_eq hd hdne
      obtain ⟨terms, hterms, hbytes, helements⟩ := scale_eq (l + -m) he
      have hlen := length_of_elements helements
      obtain ⟨t, terms, rfl⟩ := List.exists_cons_of_length_eq_add_one hlen
      -- The terms are the divisor, scaled so that its first coefficient is that of the dividend.
      have hratio : α ^ (l + -m) * gf d = gf c := by
        rw [zpow_add₀ Gf.α_ne_zero, zpow_neg, hlpow, hmpow, mul_assoc, inv_mul_cancel₀ hdne,
          mul_one]
      have hcancel : gf c + gf t = 0 := by
        rw [(List.cons.inj helements).1]
        exact (congrArg (gf c + ·) hratio).trans (Gf.add_self _)
      have hshort := length_qrPolynomial_lt p' terms hc
        (hbytes t List.mem_cons_self) hcancel
      have hready : Ready n (qrPolynomial (xorAt (c :: p') 0 (t :: terms)) 0) := by
        refine ready_qrPolynomial (allBytes_xorAt h.bytes hbytes) fun k hk => ?_
        rw [List.replicate_zero, List.append_nil]
        exact xorAt_ne_none (h.number k (by simpa using hk))
      obtain ⟨r, hr, hrlen, hrb, hre⟩ := ih hready (by simp only [List.length_cons] at hdepth; omega)
      refine ⟨r, ?_, hrlen, hrb, fun x hx => ?_⟩
      · rw [mod, if_neg (Nat.not_lt.2 hge)]
        simp only [List.head?_cons, Option.join_some, hl, hm, plus, Option.map_some, hterms, bind,
          Except.bind]
        exact hr
      · -- what is added is a multiple of the divisor
        rw [hre x hx, qrPolynomial, List.replicate_zero, List.append_nil, eval_dropWhile,
          eval_xorAt (by omega), helements, eval_map_mul, hx, mul_zero, zero_mul, add_zero]

end IrohWebrtc.Qr
