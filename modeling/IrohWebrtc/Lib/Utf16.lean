import IrohWebrtc.Lib.Utf8

/-!
# UTF-16

The code units of a string, and the decoding of code units that need not be UTF-16: halves
of surrogate pairs that are alone are replaced by one replacement character each. Decoding
the code units of a string gives the string back (`decode_encode`). No code unit takes more
than three bytes of UTF-8 (`length_utf8_decode_le`).
-/

namespace IrohWebrtc.Utf16

/-- Whether a code unit is the first half of a surrogate pair. -/
def isHigh (u : UInt16) : Bool := 0xd800 ≤ u ∧ u ≤ 0xdbff

/-- Whether a code unit is the second half of a surrogate pair. -/
def isLow (u : UInt16) : Bool := 0xdc00 ≤ u ∧ u ≤ 0xdfff

/-- The character of a surrogate pair. -/
def ofPair (u v : UInt16) : Char :=
  .ofNat (0x10000 + (u.toNat - 0xd800) * 0x400 + (v.toNat - 0xdc00))

/-- The character of a code unit that is in no surrogate pair. -/
def ofUnit (u : UInt16) : Char := if isHigh u || isLow u then '\uFFFD' else .ofNat u.toNat

/-- The characters of code units. -/
def decode : List UInt16 → List Char
  | [] => []
  | [u] => [ofUnit u]
  | u :: v :: rest =>
    if isHigh u && isLow v then ofPair u v :: decode rest else ofUnit u :: decode (v :: rest)

/-- The code units of a character. -/
def encodeChar (c : Char) : List UInt16 :=
  if c.toNat < 0x10000 then [.ofNat c.toNat]
  else [.ofNat (0xd800 + (c.toNat - 0x10000) / 0x400), .ofNat (0xdc00 + (c.toNat - 0x10000) % 0x400)]

def encode (cs : List Char) : List UInt16 := cs.flatMap encodeChar

/-- `String.prototype.toWellFormed` -/
def toWellFormed (us : List UInt16) : List UInt16 := encode (decode us)

variable {u v : UInt16} {us : List UInt16} {c : Char} {cs : List Char}

/-! ## Decoding what is encoded -/

theorem isHigh_iff : isHigh u ↔ 0xd800 ≤ u.toNat ∧ u.toNat ≤ 0xdbff := by
  simp [isHigh, UInt16.le_iff_toNat_le]

theorem isLow_iff : isLow u ↔ 0xdc00 ≤ u.toNat ∧ u.toNat ≤ 0xdfff := by
  simp [isLow, UInt16.le_iff_toNat_le]

/-- A code unit that is no first half is decoded alone. -/
theorem decode_cons_of_not_isHigh (h : ¬ isHigh u) : decode (u :: us) = ofUnit u :: decode us := by
  cases us with
  | nil => rfl
  | cons v rest => rw [decode, if_neg (by simp [h])]

theorem decode_encodeChar_append : decode (encodeChar c ++ us) = c :: decode us := by
  have hvalid := c.valid
  have hval : c.val.toNat = c.toNat := rfl
  simp only [UInt32.isValidChar, Nat.isValidChar, hval] at hvalid
  rw [encodeChar]
  split
  · next hc =>
    have hu : (UInt16.ofNat c.toNat).toNat = c.toNat := by
      rw [UInt16.toNat_ofNat']
      omega
    have hhigh : ¬ isHigh (.ofNat c.toNat) := by
      rw [isHigh_iff, hu]
      omega
    have hlow : ¬ isLow (.ofNat c.toNat) := by
      rw [isLow_iff, hu]
      omega
    rw [List.singleton_append, decode_cons_of_not_isHigh hhigh, ofUnit,
      if_neg (by simp [hhigh, hlow]), hu, Char.ofNat_toNat]
  · next hc =>
    have hu : (UInt16.ofNat (0xd800 + (c.toNat - 0x10000) / 0x400)).toNat =
        0xd800 + (c.toNat - 0x10000) / 0x400 := by
      rw [UInt16.toNat_ofNat']
      omega
    have hv : (UInt16.ofNat (0xdc00 + (c.toNat - 0x10000) % 0x400)).toNat =
        0xdc00 + (c.toNat - 0x10000) % 0x400 := by
      rw [UInt16.toNat_ofNat']
      omega
    have hhigh : isHigh (.ofNat (0xd800 + (c.toNat - 0x10000) / 0x400)) := by
      rw [isHigh_iff, hu]
      omega
    have hlow : isLow (.ofNat (0xdc00 + (c.toNat - 0x10000) % 0x400)) := by
      rw [isLow_iff, hv]
      omega
    have hpair : 0x10000 + (0xd800 + (c.toNat - 0x10000) / 0x400 - 0xd800) * 0x400 +
        (0xdc00 + (c.toNat - 0x10000) % 0x400 - 0xdc00) = c.toNat := by
      omega
    rw [List.cons_append, List.singleton_append, decode,
      if_pos (Bool.and_eq_true_iff.2 ⟨hhigh, hlow⟩), ofPair, hu, hv, hpair, Char.ofNat_toNat]

/-- Decoding the code units of characters. -/
@[simp] theorem decode_encode (cs : List Char) : decode (encode cs) = cs := by
  induction cs with
  | nil => rfl
  | cons c cs ih => rw [encode, List.flatMap_cons, decode_encodeChar_append, ← encode, ih]

@[simp] theorem decode_eq_nil : decode us = [] ↔ us = [] := by
  constructor
  · intro h
    match us with
    | [] => rfl
    | [u] => cases h
    | u :: v :: rest =>
      rw [decode] at h
      split at h <;> cases h
  · rintro rfl
    rfl

/-! ## ASCII -/

theorem ofUnit_of_lt (h : u.toNat < 0x80) : ofUnit u = .ofNat u.toNat := by
  have hhigh : ¬ isHigh u := by
    rw [isHigh_iff]
    omega
  have hlow : ¬ isLow u := by
    rw [isLow_iff]
    omega
  rw [ofUnit, if_neg (by simp [hhigh, hlow])]

/-- Code units of ASCII are decoded one by one, whatever follows. -/
theorem decode_append_of_lt {us₁ us₂ : List UInt16} (h : ∀ u ∈ us₁, u.toNat < 0x80) :
    decode (us₁ ++ us₂) = us₁.map (fun u => .ofNat u.toNat) ++ decode us₂ := by
  induction us₁ with
  | nil => rfl
  | cons u us₁ ih =>
    have hu := h u List.mem_cons_self
    have hhigh : ¬ isHigh u := by
      rw [isHigh_iff]
      omega
    rw [List.cons_append, decode_cons_of_not_isHigh hhigh, ofUnit_of_lt hu,
      ih fun u' hu' => h u' (List.mem_cons_of_mem _ hu')]
    rfl

/-! ## Lengths in UTF-8 -/

theorem utf8Size_ofNat_le {n : ℕ} (h : n < 0x10000) : (Char.ofNat n).utf8Size ≤ 3 := by
  have hn : (Char.ofNat n).val.toNat < 0x10000 := by
    by_cases hv : n.isValidChar
    · rw [Char.ofNat, dif_pos hv]
      exact h
    · rw [Char.ofNat, dif_neg hv]
      decide
  by_contra hlt
  have hfour : (Char.ofNat n).utf8Size = 4 := by
    have hle := (Char.ofNat n).utf8Size_le_four
    omega
  rw [Char.utf8Size_eq_four_iff, UInt32.lt_iff_toNat_lt] at hfour
  simp only [UInt32.reduceToNat] at hfour
  omega

theorem utf8Size_ofUnit_le (u : UInt16) : (ofUnit u).utf8Size ≤ 3 := by
  rw [ofUnit]
  split
  · decide
  · exact utf8Size_ofNat_le u.toNat_lt

/-- A code unit takes three bytes at most. -/
theorem length_utf8_decode_le (us : List UInt16) :
    ((decode us).flatMap String.utf8EncodeChar).length ≤ 3 * us.length := by
  fun_induction decode us with
  | case1 => exact Nat.le_refl _
  | case2 u =>
    have hu := utf8Size_ofUnit_le u
    rw [List.flatMap_singleton, String.length_utf8EncodeChar]
    simpa using hu
  | case3 u v rest _ ih =>
    have hc := (ofPair u v).utf8Size_le_four
    rw [List.flatMap_cons, List.length_append, String.length_utf8EncodeChar]
    simp only [List.length_cons]
    omega
  | case4 u v rest _ ih =>
    have hu := utf8Size_ofUnit_le u
    rw [List.flatMap_cons, List.length_append, String.length_utf8EncodeChar]
    simp only [List.length_cons] at ih ⊢
    omega

/-- The second half of a pair that comes first is alone, and so is a first half that
    something else follows. -/
example : decode [0x61, 0xdc00, 0xd83d, 0xde00, 0xd83d, 0x62] =
    ['a', '\uFFFD', '😀', '\uFFFD', 'b'] := by
  decide

end IrohWebrtc.Utf16
