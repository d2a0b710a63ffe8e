import Mathlib.Data.List.Basic

/-!
# Base64

Bytes as digits of six bits and these as characters (`encode`), padded to groups
of four. Decoding forgives a missing padding and whitespace (`decode`): what is
decoded of the digits alone is the bytes again (`decode_map_digit`).
-/

namespace IrohWebrtc.Base64

def alphabet : List Char := "ABCDEFGHIJKLMNOPQRSTUVWXYZabcdefghijklmnopqrstuvwxyz0123456789+/".toList

/-- The character of a digit. -/
def digit (n : ℕ) : Char := alphabet.getD n '='

/-- The digit of a character. -/
def value (c : Char) : Option ℕ := alphabet.idxOf? c

/-- The digits of bytes, three bytes making four. -/
def digits : List UInt8 → List ℕ
  | [] => []
  | [a] => [a.toNat / 4, a.toNat % 4 * 16]
  | [a, b] => [a.toNat / 4, a.toNat % 4 * 16 + b.toNat / 16, b.toNat % 16 * 4]
  | a :: b :: c :: l => a.toNat / 4 :: (a.toNat % 4 * 16 + b.toNat / 16) ::
      (b.toNat % 16 * 4 + c.toNat / 64) :: c.toNat % 64 :: digits l

/-- The bytes of digits. Bits that do not make a byte are dropped. -/
def bytes : List ℕ → List UInt8
  | a :: b :: c :: d :: l => .ofNat (a * 4 + b / 16) :: .ofNat (b % 16 * 16 + c / 4) ::
      .ofNat (c % 4 * 64 + d) :: bytes l
  | [a, b, c] => [.ofNat (a * 4 + b / 16), .ofNat (b % 16 * 16 + c / 4)]
  | [a, b] => [.ofNat (a * 4 + b / 16)]
  | [_] | [] => []

def encode (l : List UInt8) : List Char :=
  (digits l).map digit ++ List.replicate ((3 - l.length % 3) % 3) '='

/-- The padding, of up to two characters, is taken off. -/
def unpad (s : List Char) : List Char :=
  match s.reverse with
  | '=' :: '=' :: t | '=' :: t => t.reverse
  | _ => s

def decode (s : List Char) : Option (List UInt8) :=
  let s := s.filter (· ∉ [' ', '\t', '\n', '\r', '\x0c'])
  let s := if s.length % 4 = 0 then unpad s else s
  if s.length % 4 = 1 then none else (s.mapM value).map bytes

theorem value_digit {n : ℕ} (h : n < 64) : value (digit n) = some n := by
  revert n
  decide +kernel

theorem digit_ne {n : ℕ} (h : n < 64) :
    digit n ∉ [' ', '\t', '\n', '\r', '\x0c'] ∧ digit n ≠ '=' := by
  revert n
  decide +kernel

theorem lt_of_mem_digits {l : List UInt8} {n : ℕ} (h : n ∈ digits l) : n < 64 := by
  fun_induction digits l with
  | case1 => cases h
  | case2 a =>
    have := a.toNat_lt
    simp only [List.mem_cons, List.not_mem_nil, or_false] at h
    omega
  | case3 a b =>
    have := a.toNat_lt
    have := b.toNat_lt
    simp only [List.mem_cons, List.not_mem_nil, or_false] at h
    omega
  | case4 a b c l ih =>
    have := a.toNat_lt
    have := b.toNat_lt
    have := c.toNat_lt
    simp only [List.mem_cons] at h
    rcases h with h | h | h | h | h
    · omega
    · omega
    · omega
    · omega
    · exact ih h

/-- No number of bytes has one digit more than groups of four. -/
theorem length_digits_mod (l : List UInt8) : (digits l).length % 4 ≠ 1 := by
  fun_induction digits l with
  | case1 | case2 | case3 => simp
  | case4 a b c l ih =>
    simp only [List.length_cons]
    omega

theorem bytes_digits (l : List UInt8) : bytes (digits l) = l := by
  have hbyte : ∀ (a : UInt8) (n : ℕ), n = a.toNat → UInt8.ofNat n = a := by
    rintro a _ rfl
    exact UInt8.ofNat_toNat
  fun_induction digits l with
  | case1 => rfl
  | case2 a =>
    rw [bytes, hbyte a _ (by omega)]
  | case3 a b =>
    have := b.toNat_lt
    rw [bytes, hbyte a _ (by omega), hbyte b _ (by omega)]
  | case4 a b c l ih =>
    have := b.toNat_lt
    have := c.toNat_lt
    rw [bytes, hbyte a _ (by omega), hbyte b _ (by omega), hbyte c _ (by omega), ih]

theorem mapM_value {l : List ℕ} (h : ∀ n ∈ l, n < 64) : (l.map digit).mapM value = some l := by
  induction l with
  | nil => rfl
  | cons n l ih =>
    rw [List.map_cons, List.mapM_cons, value_digit (h n List.mem_cons_self),
      ih fun n hn => h n (List.mem_cons_of_mem _ hn)]
    rfl

/-- Without its padding, what is encoded is decoded. -/
theorem decode_map_digit (l : List UInt8) : decode ((digits l).map digit) = some l := by
  have hfilter : ((digits l).map digit).filter (· ∉ [' ', '\t', '\n', '\r', '\x0c']) =
      (digits l).map digit := by
    rw [List.filter_eq_self]
    intro c hc
    obtain ⟨n, hn, rfl⟩ := List.mem_map.1 hc
    exact decide_eq_true (digit_ne (lt_of_mem_digits hn)).1
  have hunpad : unpad ((digits l).map digit) = (digits l).map digit := by
    have hpad : '=' ∉ ((digits l).map digit).reverse := by
      intro hc
      obtain ⟨n, hn, hd⟩ := List.mem_map.1 (List.mem_reverse.1 hc)
      exact (digit_ne (lt_of_mem_digits hn)).2 hd
    rw [unpad]
    split
    · next t heq => exact absurd (heq ▸ List.mem_cons_self) hpad
    · next t _ heq => exact absurd (heq ▸ List.mem_cons_self) hpad
    · rfl
  rw [decode]
  simp only [hfilter, hunpad, ite_self, List.length_map, if_neg (length_digits_mod l)]
  rw [mapM_value fun n hn => lt_of_mem_digits hn, Option.map_some, bytes_digits]

theorem padding_notMem (l : List UInt8) : '=' ∉ (digits l).map digit := by
  intro hc
  obtain ⟨n, hn, hd⟩ := List.mem_map.1 hc
  exact (digit_ne (lt_of_mem_digits hn)).2 hd

/-- As many characters are missing in the last group as the padding has. -/
theorem length_digits_add (l : List UInt8) :
    ((digits l).length + (3 - l.length % 3) % 3) % 4 = 0 ∧ (3 - l.length % 3) % 3 ≤ 2 := by
  fun_induction digits l with
  | case1 | case2 | case3 => simp
  | case4 a b c l ih =>
    simp only [List.length_cons]
    omega

/-- The padding is taken off. -/
theorem unpad_append {s : List Char} (hs : '=' ∉ s) {n : ℕ} (hn : n ≤ 2) :
    unpad (s ++ List.replicate n '=') = s := by
  have hs' : '=' ∉ s.reverse := fun h => hs (List.mem_reverse.1 h)
  have hmem : ∀ t, s.reverse ≠ '=' :: t := fun t h => hs' (h ▸ List.mem_cons_self)
  rw [unpad, List.reverse_append, List.reverse_replicate]
  match n, hn with
  | 0, _ =>
    rw [List.replicate_zero, List.nil_append]
    split
    · next t heq => exact absurd heq (hmem _)
    · next t _ heq => exact absurd heq (hmem _)
    · exact List.append_nil s
  | 1, _ =>
    rw [List.replicate_one, List.singleton_append]
    split
    · next t heq => exact absurd (List.cons.inj heq).2 (hmem _)
    · next t _ heq => rw [← (List.cons.inj heq).2, List.reverse_reverse]
    · next h => exact absurd rfl (h _)
  | 2, _ => exact List.reverse_reverse s

/-- What is encoded is decoded. -/
theorem decode_encode (l : List UInt8) : decode (encode l) = some l := by
  obtain ⟨hmod, hpad⟩ := length_digits_add l
  have hfilter : (encode l).filter (· ∉ [' ', '\t', '\n', '\r', '\x0c']) = encode l := by
    rw [List.filter_eq_self]
    intro c hc
    rcases List.mem_append.1 hc with hc | hc
    · obtain ⟨n, hn, rfl⟩ := List.mem_map.1 hc
      exact decide_eq_true (digit_ne (lt_of_mem_digits hn)).1
    · rw [List.eq_of_mem_replicate hc]
      decide
  have hlen : (encode l).length % 4 = 0 := by
    rwa [encode, List.length_append, List.length_map, List.length_replicate]
  have hunpad : unpad (encode l) = (digits l).map digit := unpad_append (padding_notMem l) hpad
  rw [decode]
  simp only [hfilter, if_pos hlen, hunpad, List.length_map, if_neg (length_digits_mod l)]
  rw [mapM_value fun n hn => lt_of_mem_digits hn, Option.map_some, bytes_digits]

end IrohWebrtc.Base64
