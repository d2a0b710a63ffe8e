import Mathlib.Data.List.Basic

/-!
# UTF-8

The bytes of a string, and the decoding of bytes that need not be UTF-8: what
is valid is decoded, and every maximal part that no valid sequence goes on from
is replaced by one replacement character. Decoding the bytes of a string gives
the string back (`fromUtf8Lossy_asBytes`).
-/

namespace IrohWebrtc

/-- Whether something holds of the characters in a list is decided by these, and not by all
    the characters there are. -/
instance (priority := high) decidableForallMem (p : Char → Prop) [DecidablePred p]
    (cs : List Char) : Decidable (∀ c ∈ cs, p c) :=
  List.decidableBAll p cs

/-- Letters and digits are ASCII. -/
theorem toNat_lt_of_isAlphanum {c : Char} (h : c.isAlphanum) : c.toNat < 123 := by
  rcases Bool.or_eq_true_iff.1 h with h | h
  · rcases Bool.or_eq_true_iff.1 h with h | h
    · exact Nat.lt_of_le_of_lt (show c.toNat ≤ 90 from (of_decide_eq_true h).2) (by decide)
    · exact Nat.lt_succ_of_le (show c.toNat ≤ 122 from
        of_decide_eq_true (Bool.and_eq_true_iff.1 h).2)
  · exact Nat.lt_of_le_of_lt (show c.toNat ≤ 57 from
      of_decide_eq_true (Bool.and_eq_true_iff.1 h).2) (by decide)

/-- The bytes of a string. -/
def asBytes (s : String) : List UInt8 := s.toByteArray.data.toList

/-- Whether a byte continues a sequence. -/
def isContinuation (b : UInt8) : Bool := 0x80 ≤ b ∧ b ≤ 0xbf

/-- The first byte and the second of a sequence of three bytes or four. -/
def isLead3 (b₀ b₁ : UInt8) : Bool :=
  b₀ = 0xe0 ∧ 0xa0 ≤ b₁ ∧ b₁ ≤ 0xbf ∨ 0xe1 ≤ b₀ ∧ b₀ ≤ 0xec ∧ isContinuation b₁ ∨
  b₀ = 0xed ∧ 0x80 ≤ b₁ ∧ b₁ ≤ 0x9f ∨ 0xee ≤ b₀ ∧ b₀ ≤ 0xef ∧ isContinuation b₁

def isLead4 (b₀ b₁ : UInt8) : Bool :=
  b₀ = 0xf0 ∧ 0x90 ≤ b₁ ∧ b₁ ≤ 0xbf ∨ 0xf1 ≤ b₀ ∧ b₀ ≤ 0xf3 ∧ isContinuation b₁ ∨
  b₀ = 0xf4 ∧ 0x80 ≤ b₁ ∧ b₁ ≤ 0x8f

/-- How many bytes one replacement character stands for, at the front of bytes
    that do not start with a valid sequence. -/
def invalidLength : List UInt8 → ℕ
  | b₀ :: b₁ :: b₂ :: _ =>
    if isLead4 b₀ b₁ then if isContinuation b₂ then 3 else 2
    else if isLead3 b₀ b₁ then 2 else 1
  | [b₀, b₁] => if isLead4 b₀ b₁ ∨ isLead3 b₀ b₁ then 2 else 1
  | _ => 1

/-- The characters of the first `fuel` sequences, valid or not. -/
def lossyChars : ℕ → List UInt8 → List Char
  | 0, _ | _, [] => []
  | fuel + 1, bytes =>
    match bytes.toByteArray.utf8DecodeChar? 0 with
    | some c => c :: lossyChars fuel (bytes.drop c.utf8Size)
    | none => '\uFFFD' :: lossyChars fuel (bytes.drop (invalidLength bytes))

/-- The lossy decoding of bytes. -/
def fromUtf8Lossy (bytes : List UInt8) : String := .ofList (lossyChars bytes.length bytes)

theorem asBytes_eq (s : String) : asBytes s = s.toList.flatMap String.utf8EncodeChar := by
  rw [asBytes, ← String.utf8Encode_toList, List.utf8Encode, List.toList_data_toByteArray]

@[simp] theorem asBytes_length (s : String) : (asBytes s).length = s.utf8ByteSize := by
  rw [asBytes, Array.length_toList]
  rfl

@[simp] theorem asBytes_eq_nil {s : String} : asBytes s = [] ↔ s = "" := by
  rw [← List.length_eq_zero_iff, asBytes_length, String.utf8ByteSize_eq_zero_iff]

/-- A valid sequence at the front is decoded. -/
theorem lossyChars_utf8EncodeChar (fuel : ℕ) (c : Char) (bytes : List UInt8) :
    lossyChars (fuel + 1) (String.utf8EncodeChar c ++ bytes) = c :: lossyChars fuel bytes := by
  have hlen := String.length_utf8EncodeChar c
  have hpos := c.utf8Size_pos
  rw [lossyChars, List.toByteArray_append, ByteArray.utf8DecodeChar?_utf8EncodeChar_append]
  · simp only [← hlen, List.drop_left]
  · intro h
    rw [List.append_eq_nil_iff] at h
    rw [h.1, List.length_nil] at hlen
    omega

theorem length_le_flatMap_utf8EncodeChar (cs : List Char) :
    cs.length ≤ (cs.flatMap String.utf8EncodeChar).length := by
  induction cs with
  | nil => exact Nat.le_refl _
  | cons c cs ih =>
    have hpos := c.utf8Size_pos
    rw [List.flatMap_cons, List.length_append, String.length_utf8EncodeChar, List.length_cons]
    omega

theorem lossyChars_flatMap {cs : List Char} {fuel : ℕ} (h : cs.length ≤ fuel) :
    lossyChars fuel (cs.flatMap String.utf8EncodeChar) = cs := by
  induction cs generalizing fuel with
  | nil => cases fuel <;> rfl
  | cons c cs ih =>
    obtain ⟨k, rfl⟩ := Nat.exists_eq_add_of_lt (Nat.lt_of_lt_of_le (Nat.succ_pos _) h)
    rw [Nat.zero_add, List.flatMap_cons, lossyChars_utf8EncodeChar, ih (by simpa using h)]

/-- Decoding the bytes of a string. -/
@[simp] theorem fromUtf8Lossy_asBytes (s : String) : fromUtf8Lossy (asBytes s) = s := by
  rw [fromUtf8Lossy, asBytes_eq, lossyChars_flatMap (length_le_flatMap_utf8EncodeChar _),
    String.ofList_toList]

/-- A truncated sequence of three bytes is one replacement character, and the
    byte that cuts it short is read anew. -/
example : fromUtf8Lossy [0x61, 0xe2, 0x82, 0x62, 0xff, 0xc3, 0xa9] = "a\uFFFDb\uFFFDé" := by
  decide

end IrohWebrtc
