import IrohWebrtc.Chat.Page
import IrohWebrtc.Lib.Heap

/-!
# Strings in the memory

How a string gets from the page into the memory of the package and back (`pkg`):
`passStringToWasm0` writes code units of ASCII one by one while there are any, and makes room
for three bytes a code unit for the rest; `getStringFromWasm0` decodes what is there.

* `string_passed`: what is in the block that is passed is the string in UTF-8, as `toRust` has
  it, the block is no longer than this, and no other block is touched; what is decoded of it is
  the string, well-formed.
* `decodeText_lt`: no decoder is used for as many bytes as Safari can decode.
-/

namespace IrohWebrtc.Pkg

open Heap
open JsString (toRust ofRust)

section

variable {S : Type*}

/-- The loop of `passStringToWasm0`, from an offset on, with the offset where it ends. -/
def writeAscii (al : Allocator S) (ptr : ℕ) : ℕ → JsString → S → S × ℕ
  | offset, [], s => (s, offset)
  | offset, code :: arg, s =>
    if code > 0x7f then (s, offset)
    else writeAscii al ptr (offset + 1) arg (al.store (ptr + offset) code.toUInt8 s)

/-- The characters at the front that there is room for, in UTF-8. -/
def fitting : ℕ → List Char → List UInt8
  | _, [] => []
  | n, c :: cs =>
    if c.utf8Size ≤ n then String.utf8EncodeChar c ++ fitting (n - c.utf8Size) cs else []

/-- `cachedTextEncoder.encodeInto`, with the number of bytes that are written. -/
def encodeInto (al : Allocator S) (arg : JsString) (start stop : ℕ) (s : S) : S × ℕ :=
  let buf := fitting (stop - start) (Utf16.decode arg)
  (al.storeAll start buf s, buf.length)

/-- `passStringToWasm0`, whether or not it is called with a `realloc`. It returns a pointer and
    sets `WASM_VECTOR_LEN`. -/
def passStringToWasm0 (al : Allocator S) (realloc : Bool) (arg : JsString) (s : S) : S × ℕ × ℕ :=
  if realloc = false then
    let buf := (Utf16.decode arg).flatMap String.utf8EncodeChar
    let (s, ptr) := al.malloc buf.length s
    (al.storeAll ptr buf s, ptr, buf.length)
  else
    let len := arg.length
    let (s, ptr) := al.malloc len s
    let (s, offset) := writeAscii al ptr 0 arg s
    if offset ≠ len then
      let arg := arg.drop offset
      let (s, ptr) := al.realloc ptr len (offset + arg.length * 3) s
      let len := offset + arg.length * 3
      let (s, written) := encodeInto al arg (ptr + offset) (ptr + len) s
      let (s, ptr) := al.realloc ptr len (offset + written) s
      (s, ptr, offset + written)
    else (s, ptr, offset)

/-! ## Decoding -/

def maxSafariDecodeBytes : ℕ := 2146435072

/-- `decodeText`, with the new `numBytesDecoded`. A decoder starts anew in time; it throws on
    bytes that are not UTF-8. -/
def decodeText (m : ℕ → UInt8) (ptr len numBytesDecoded : ℕ) : ℕ × Option JsString :=
  let numBytesDecoded := numBytesDecoded + len
  (if numBytesDecoded ≥ maxSafariDecodeBytes then len else numBytesDecoded,
    (String.fromUTF8? (bytesAt m ptr len).toByteArray).map ofRust)

def getStringFromWasm0 (m : ℕ → UInt8) (ptr len numBytesDecoded : ℕ) : ℕ × Option JsString :=
  decodeText m ptr len numBytesDecoded

variable {m : ℕ → UInt8} {ptr len numBytesDecoded : ℕ}

theorem decodeText_lt (hlen : len < maxSafariDecodeBytes) :
    (decodeText m ptr len numBytesDecoded).1 < maxSafariDecodeBytes := by
  rw [decodeText]
  split
  · exact hlen
  · next h => exact Nat.lt_of_not_le h

/-- A string's bytes are decoded. -/
theorem decodeText_asBytes {t : String} (h : bytesAt m ptr len = asBytes t) :
    (decodeText m ptr len numBytesDecoded).2 = some (ofRust t) := by
  have hbytes : (asBytes t).toByteArray = t.toByteArray := by
    rw [asBytes_eq, ← List.utf8Encode, String.utf8Encode_toList]
  have hvalid : t.toByteArray.IsValidUTF8 := t.isValidUTF8
  simp only [decodeText, h, hbytes, String.fromUTF8?, dif_pos hvalid, Option.map_some]
  rfl

/-! ## Passing -/

/-- The bytes that the loop writes. -/
def ascii (arg : JsString) : List UInt8 := (arg.takeWhile (· ≤ 0x7f)).map UInt16.toUInt8

variable {al : Allocator S} {arg : JsString} {s : S}

theorem ascii_length_le (arg : JsString) : (ascii arg).length ≤ arg.length := by
  rw [ascii, List.length_map]
  exact (List.takeWhile_prefix _).length_le

theorem drop_ascii (arg : JsString) :
    arg.drop (ascii arg).length = arg.dropWhile (· ≤ 0x7f) := by
  rw [ascii, List.length_map]
  nth_rewrite 2 [← List.takeWhile_append_dropWhile (p := (· ≤ 0x7f)) (l := arg)]
  rw [List.drop_left]

theorem writeAscii_eq (ptr offset : ℕ) : writeAscii al ptr offset arg s =
    (al.storeAll (ptr + offset) (ascii arg) s, offset + (ascii arg).length) := by
  induction arg generalizing offset s with
  | nil => rfl
  | cons code arg ih =>
    rw [writeAscii]
    split
    · next h =>
      have hnil : ascii (code :: arg) = [] := by
        rw [ascii, List.takeWhile_cons_of_neg (by simpa using h), List.map_nil]
      rw [hnil]
      rfl
    · next h =>
      have hcons : ascii (code :: arg) = code.toUInt8 :: ascii arg := by
        rw [ascii, List.takeWhile_cons_of_pos (by simpa using h), List.map_cons, ← ascii]
      rw [ih, hcons, List.length_cons, Allocator.storeAll, Nat.add_assoc, Nat.add_assoc,
        Nat.add_comm 1]

theorem fitting_eq {n : ℕ} {cs : List Char}
    (h : (cs.flatMap String.utf8EncodeChar).length ≤ n) :
    fitting n cs = cs.flatMap String.utf8EncodeChar := by
  induction cs generalizing n with
  | nil => rfl
  | cons c cs ih =>
    rw [List.flatMap_cons, List.length_append, String.length_utf8EncodeChar] at h
    rw [fitting, if_pos (Nat.le_of_add_right_le h), ih (Nat.le_sub_of_add_le' h),
      List.flatMap_cons]

theorem utf8EncodeChar_ofNat {u : UInt16} (h : u ≤ 0x7f) :
    String.utf8EncodeChar (.ofNat u.toNat) = [u.toUInt8] := by
  have hall : ∀ n < 0x80, String.utf8EncodeChar (.ofNat n) = [.ofNat n] := by decide +kernel
  have hu : u.toNat < 0x80 := Nat.lt_succ_of_le (UInt16.le_iff_toNat_le.1 h)
  rw [hall _ hu, ← UInt16.toUInt8_ofNat', UInt16.ofNat_toNat]

/-- The bytes of a string are those of the loop, and those that `encodeInto` writes. -/
theorem asBytes_toRust (arg : JsString) : asBytes (toRust arg) = ascii arg ++
    (Utf16.decode (arg.drop (ascii arg).length)).flatMap String.utf8EncodeChar := by
  have hlt : ∀ u ∈ arg.takeWhile (· ≤ 0x7f), u ≤ 0x7f := by
    intro u hu
    simpa using List.mem_takeWhile_imp hu
  have hascii : ((arg.takeWhile (· ≤ 0x7f)).map fun u => Char.ofNat u.toNat).flatMap
      String.utf8EncodeChar = ascii arg := by
    rw [List.flatMap_map, ascii, List.map_eq_flatMap]
    exact List.flatMap_congr fun u hu => utf8EncodeChar_ofNat (hlt u hu)
  rw [asBytes_eq, toRust, String.toList_ofList, drop_ascii]
  nth_rewrite 1 [← List.takeWhile_append_dropWhile (p := (· ≤ 0x7f)) (l := arg)]
  rw [Utf16.decode_append_of_lt fun u hu =>
    Nat.lt_succ_of_le (UInt16.le_iff_toNat_le.1 (hlt u hu)), List.flatMap_append, hascii]

/-- A buffer of all bytes is passed. -/
theorem passStringToWasm0_buffer (hal : Lawful al) (arg : JsString) (s : S) :
    ∃ s' ptr len, passStringToWasm0 al false arg s = (s', ptr, len) ∧ Owns al s s' ⟨ptr, len⟩ ∧
      bytesAt (al.mem s') ptr len = asBytes (toRust arg) := by
  rw [passStringToWasm0, if_pos rfl, asBytes_eq, toRust, String.toList_ofList]
  obtain ⟨howns, hbytes, -⟩ := (hal.malloc _ s).storeAll hal
    ((Utf16.decode arg).flatMap String.utf8EncodeChar) (Nat.le_refl _) (Nat.le_refl _)
  exact ⟨_, _, _, rfl, howns, hbytes⟩

/-- A string of which some code unit is not ASCII gets more room, and what it does not need is
    given back. -/
theorem passStringToWasm0_grows (hal : Lawful al) (arg : JsString) (s : S)
    (hne : (ascii arg).length ≠ arg.length) :
    ∃ s' ptr len, passStringToWasm0 al true arg s = (s', ptr, len) ∧ Owns al s s' ⟨ptr, len⟩ ∧
      bytesAt (al.mem s') ptr len = asBytes (toRust arg) := by
  have hle := ascii_length_le arg
  rw [passStringToWasm0, if_neg (by decide)]
  simp only [writeAscii_eq, Nat.zero_add, Nat.add_zero, if_pos hne]
  -- What is written of ASCII is in the first block.
  obtain ⟨howns₁, hbytes₁, -⟩ := (hal.malloc arg.length s).storeAll hal (ascii arg)
    (Nat.le_refl _) (Nat.add_le_add_left hle _)
  set ptr₁ := (al.malloc arg.length s).2
  set s₁ := al.storeAll ptr₁ (ascii arg) (al.malloc arg.length s).1
  set rest := arg.drop (ascii arg).length with hrest
  set size := (ascii arg).length + rest.length * 3 with hsize
  obtain ⟨howns₂, hkept₂⟩ := howns₁.realloc hal (Nat.lt_of_le_of_lt (Nat.zero_le _)
    (Nat.lt_of_le_of_ne hle hne)) size
  set ptr₂ := (al.realloc ptr₁ arg.length size s₁).2
  set s₂ := (al.realloc ptr₁ arg.length size s₁).1
  -- There is room for all that follows.
  have hbuf := Utf16.length_utf8_decode_le rest
  have hroom : ptr₂ + size - (ptr₂ + (ascii arg).length) = rest.length * 3 := by omega
  have hfit : fitting (rest.length * 3) (Utf16.decode rest) =
      (Utf16.decode rest).flatMap String.utf8EncodeChar := fitting_eq (by omega)
  simp only [encodeInto, hroom, hfit]
  set buf := (Utf16.decode rest).flatMap String.utf8EncodeChar with hbufdef
  obtain ⟨howns₃, hbytes₃, hbelow₃⟩ := howns₂.storeAll hal (a := ptr₂ + (ascii arg).length) buf
    (Nat.le_add_right ..) (by simp only; omega)
  set s₃ := al.storeAll (ptr₂ + (ascii arg).length) buf s₂
  have hpos : 0 < size := by
    rw [hsize, hrest, List.length_drop]
    omega
  obtain ⟨howns₄, hkept₄⟩ := howns₃.realloc hal hpos ((ascii arg).length + buf.length)
  refine ⟨_, _, _, rfl, howns₄, ?_⟩
  have hfirst : bytesAt (al.mem s₃) ptr₂ (ascii arg).length = ascii arg := by
    refine Eq.trans (bytesAt_congr fun i hi => ?_) hbytes₁
    rw [hbelow₃ _ (Nat.add_lt_add_left hi _)]
    exact hkept₂ i (Nat.lt_of_lt_of_le hi hle) (Nat.lt_add_right _ hi)
  calc _ = bytesAt (al.mem s₃) ptr₂ ((ascii arg).length + buf.length) :=
        bytesAt_congr fun i hi => hkept₄ i (by simp only; omega) hi
    _ = ascii arg ++ buf := by rw [bytesAt_add, hfirst, hbytes₃]
    _ = asBytes (toRust arg) := (asBytes_toRust arg).symm

/-- A string of ASCII is passed as it is. -/
theorem passStringToWasm0_ascii (hal : Lawful al) (arg : JsString) (s : S)
    (heq : (ascii arg).length = arg.length) :
    ∃ s' ptr len, passStringToWasm0 al true arg s = (s', ptr, len) ∧ Owns al s s' ⟨ptr, len⟩ ∧
      bytesAt (al.mem s') ptr len = asBytes (toRust arg) := by
  rw [passStringToWasm0, if_neg (by decide)]
  simp only [writeAscii_eq, Nat.zero_add, Nat.add_zero, if_neg (not_not.2 heq)]
  obtain ⟨howns, hbytes, -⟩ := (hal.malloc arg.length s).storeAll hal (ascii arg)
    (Nat.le_refl _) (Nat.add_le_add_left heq.le _)
  refine ⟨_, _, _, rfl, heq.symm ▸ howns, ?_⟩
  rw [hbytes, asBytes_toRust, heq, List.drop_length, Utf16.decode, List.flatMap_nil,
    List.append_nil]

/-- What is passed is the string in UTF-8, in a block of its own, and decoding it gives the
    string, well-formed. -/
theorem string_passed (hal : Lawful al) (realloc : Bool) (arg : JsString) (s : S) :
    ∃ s' ptr len, passStringToWasm0 al realloc arg s = (s', ptr, len) ∧
      Owns al s s' ⟨ptr, len⟩ ∧ bytesAt (al.mem s') ptr len = asBytes (toRust arg) ∧
      ∀ numBytesDecoded, (getStringFromWasm0 (al.mem s') ptr len numBytesDecoded).2 =
        some (Utf16.toWellFormed arg) := by
  have hpassed : ∃ s' ptr len, passStringToWasm0 al realloc arg s = (s', ptr, len) ∧
      Owns al s s' ⟨ptr, len⟩ ∧ bytesAt (al.mem s') ptr len = asBytes (toRust arg) := by
    cases realloc with
    | false => exact passStringToWasm0_buffer hal arg s
    | true =>
      by_cases heq : (ascii arg).length = arg.length
      · exact passStringToWasm0_ascii hal arg s heq
      · exact passStringToWasm0_grows hal arg s heq
  obtain ⟨s', ptr, len, hpass, howns, hbytes⟩ := hpassed
  refine ⟨s', ptr, len, hpass, howns, hbytes, fun numBytesDecoded => ?_⟩
  rw [getStringFromWasm0, decodeText_asBytes hbytes, JsString.ofRust_toRust]

/-- A string that ends in half of a pair is passed on a heap that does not use addresses
    again. -/
theorem string_passed_bump : ∃ s' ptr len,
    passStringToWasm0 bump true [0x61, 0xe9, 0xd83d] .empty = (s', ptr, len) ∧ len = 6 ∧
      Owns bump .empty s' ⟨ptr, len⟩ ∧
      bytesAt s'.mem ptr len = asBytes (toRust [0x61, 0xe9, 0xd83d]) ∧
      ∀ numBytesDecoded, (getStringFromWasm0 s'.mem ptr len numBytesDecoded).2 =
        some (Utf16.toWellFormed [0x61, 0xe9, 0xd83d]) := by
  obtain ⟨s', ptr, len, hpass, howns, hbytes, hdecoded⟩ :=
    string_passed lawful_bump true [0x61, 0xe9, 0xd83d] .empty
  have hlen : (passStringToWasm0 bump true [0x61, 0xe9, 0xd83d] .empty).2.2 = 6 := by
    decide +kernel
  rw [hpass] at hlen
  exact ⟨s', ptr, len, hpass, hlen, howns, hbytes, hdecoded⟩

end

end IrohWebrtc.Pkg
