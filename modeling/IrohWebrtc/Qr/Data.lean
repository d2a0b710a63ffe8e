import IrohWebrtc.Lib.Bits
import IrohWebrtc.Qr.Blocks

/-!
# Data of the QR code generator

The bits of texts (`qrBitBuffer`, `qr8BitByte` of `qrcode.js`), filled up to the bytes that a
symbol has for them (`createData`), and the smallest symbol that has enough (`bestType`).

* `createData_eq`: when the bits are no more than the bytes, who corrects the blocks and reads
  their bits gets the texts again; otherwise the error says how many there are.
* `bestType_spec`: a smaller symbol has not enough bytes.
-/

namespace IrohWebrtc.Qr

open Bits (high)

/-! ## Buffer -/

/-- `qrBitBuffer` -/
structure BitBuffer where
  buffer : List ℕ := []
  length : ℕ := 0
  deriving DecidableEq

namespace BitBuffer

/-- `putBit` -/
def putBit (b : BitBuffer) (bit : Bool) : BitBuffer :=
  let bufIndex := b.length / 8
  let buffer := if b.buffer.length ≤ bufIndex then b.buffer ++ [0] else b.buffer
  { buffer := if bit then buffer.modify bufIndex (· ||| 0x80 >>> (b.length % 8)) else buffer
    length := b.length + 1 }

@[simp] theorem length_putBit (b : BitBuffer) (bit : Bool) : (b.putBit bit).length = b.length + 1 :=
  rfl

/-- `put` -/
def put (b : BitBuffer) (num length : ℕ) : BitBuffer :=
  (List.range length).foldl (fun b i => b.putBit ((num >>> (length - i - 1)) &&& 1 == 1)) b

/-- The bits of a buffer: the rest of its last byte is 0. -/
structure Holds (b : BitBuffer) (bits : List Bool) : Prop where
  length : b.length = bits.length
  size : b.buffer.length = (bits.length + 7) / 8
  byte : ∀ k, b.buffer.getD k 0 < 256
  bit : ∀ i, (b.buffer.getD (i / 8) 0).testBit (7 - i % 8) = bits.getD i false

theorem holds_empty : Holds {} [] where
  length := rfl
  size := rfl
  byte _ := Nat.two_pow_pos 8
  bit i := by rw [List.getD_nil, List.getD_nil, Nat.zero_testBit]

theorem testBit_mask : ∀ i < 8, ∀ j < 8, (0x80 >>> j).testBit (7 - i) = decide (i = j) := by
  decide +kernel

theorem getD_modify {l : List ℕ} {f : ℕ → ℕ} {k j : ℕ} (hk : k < l.length) :
    (l.modify k f).getD j 0 = if k = j then f (l.getD j 0) else l.getD j 0 := by
  rw [List.getD_eq_getElem?_getD, List.getD_eq_getElem?_getD, List.getElem?_modify]
  split
  · next h =>
    subst h
    rw [List.getElem?_eq_getElem hk]
    rfl
  · exact congrArg (Option.getD · 0) Option.map_id'

theorem getD_concat_zero (l : List ℕ) (j : ℕ) : (l ++ [0]).getD j 0 = l.getD j 0 := by
  by_cases hj : j < l.length
  · rw [List.getD_append _ _ _ _ hj]
  · rw [List.getD_append_right _ _ _ _ (Nat.le_of_not_lt hj),
      List.getD_eq_default _ _ (Nat.le_of_not_lt hj)]
    cases j - l.length <;> rfl

theorem getD_concat_bit (bits : List Bool) (bit : Bool) (i : ℕ) :
    (bits ++ [bit]).getD i false = if i = bits.length then bit else bits.getD i false := by
  split
  · next h =>
    rw [h, List.getD_append_right _ _ _ _ (Nat.le_refl _), Nat.sub_self, List.getD_cons_zero]
  · next h =>
    by_cases hi : i < bits.length
    · rw [List.getD_append _ _ _ _ hi]
    · rw [List.getD_eq_default _ _ (by simp; omega), List.getD_eq_default _ _ (by omega)]

/-- One more bit. -/
theorem Holds.putBit {b : BitBuffer} {bits : List Bool} (h : b.Holds bits) (bit : Bool) :
    (b.putBit bit).Holds (bits ++ [bit]) := by
  -- the buffer that has room for the bit
  obtain ⟨buffer, hbuffer, hgetD, hsize⟩ : ∃ buffer : List ℕ,
      buffer = (if b.buffer.length ≤ b.length / 8 then b.buffer ++ [0] else b.buffer) ∧
      (∀ j, buffer.getD j 0 = b.buffer.getD j 0) ∧ buffer.length = (bits.length + 1 + 7) / 8 := by
    refine ⟨_, rfl, fun j => ?_, ?_⟩
    · split
      · exact getD_concat_zero ..
      · rfl
    · have hsize := h.size
      have hlength := h.length
      split
      · rw [List.length_append, List.length_singleton]
        omega
      · omega
  have hput : b.putBit bit = ⟨if bit then buffer.modify (b.length / 8)
      (· ||| 0x80 >>> (b.length % 8)) else buffer, b.length + 1⟩ := by
    rw [hbuffer]
    rfl
  have hlt : b.length / 8 < buffer.length := by
    rw [hsize, h.length]
    omega
  rw [hput]
  cases bit with
  | false =>
    refine ⟨?_, ?_, fun k => ?_, fun i => ?_⟩
    · simp [h.length]
    · simp [hsize]
    · exact (hgetD k).symm ▸ h.byte k
    · rw [getD_concat_bit, ← h.bit]
      simp only [Bool.false_eq_true, if_false, hgetD]
      split
      · next hi => rw [h.bit, List.getD_eq_default _ _ hi.ge]
      · rfl
  | true =>
    refine ⟨?_, ?_, fun k => ?_, fun i => ?_⟩
    · simp [h.length]
    · simp [hsize]
    · simp only [if_true, getD_modify hlt, hgetD]
      have hmask : 0x80 >>> (b.length % 8) < 256 :=
        Nat.lt_of_le_of_lt (Nat.shiftRight_le _ _) (by decide)
      split
      · exact Nat.or_lt_two_pow (n := 8) (h.byte k) hmask
      · exact h.byte k
    · simp only [if_true, getD_modify hlt, hgetD, getD_concat_bit, ← h.bit]
      split
      · next hdiv =>
        rw [Nat.testBit_or, testBit_mask _ (Nat.mod_lt _ (by decide)) _ (Nat.mod_lt _ (by decide)),
          h.length]
        by_cases hi : i = bits.length
        · rw [if_pos hi, hi, decide_eq_true rfl, Bool.or_true]
        · have hmod : i % 8 ≠ bits.length % 8 := by
            rw [h.length] at hdiv
            omega
          rw [if_neg hi, decide_eq_false hmod, Bool.or_false]
      · next hdiv =>
        have hi : i ≠ bits.length := by
          rintro rfl
          exact hdiv (by rw [h.length])
        rw [if_neg hi]

theorem and_one_eq_testBit (n i : ℕ) : ((n >>> i) &&& 1 == 1) = n.testBit i := by
  rw [Nat.testBit, Nat.and_comm, Nat.one_and_eq_mod_two]
  rcases Nat.mod_two_eq_zero_or_one (n >>> i) with h | h <;> rw [h] <;> rfl

/-- The bits of a number. -/
theorem Holds.put {b : BitBuffer} {bits : List Bool} (h : b.Holds bits) (num length : ℕ) :
    (b.put num length).Holds (bits ++ high length num) := by
  have hfold : ∀ (l : List ℕ) (b : BitBuffer) (bits : List Bool), b.Holds bits →
      (l.foldl (fun b i => b.putBit ((num >>> (length - i - 1)) &&& 1 == 1)) b).Holds
        (bits ++ l.map fun i => num.testBit (length - i - 1)) := by
    intro l
    induction l with
    | nil =>
      intro b bits h
      rwa [List.map_nil, List.append_nil]
    | cons i l ih =>
      intro b bits h
      rw [List.foldl_cons, List.map_cons, List.append_cons, ← and_one_eq_testBit]
      exact ih _ _ (h.putBit _)
  exact hfold _ b bits h

end BitBuffer

/-! ## Texts -/

/-- `QRMode` -/
inductive QRMode
  | number | alphaNum | byte | kanji
  deriving DecidableEq

/-- The numbers of the modes. -/
def QRMode.value : QRMode → ℕ
  | number => 1 <<< 0
  | alphaNum => 1 <<< 1
  | byte => 1 <<< 2
  | kanji => 1 <<< 3

/-- `getLengthInBits` -/
def getLengthInBits (mode : QRMode) (type : ℕ) : Except String ℕ :=
  if 1 ≤ type ∧ type < 10 then
    .ok (match mode with | .number => 10 | .alphaNum => 9 | .byte => 8 | .kanji => 8)
  else if type < 27 then
    .ok (match mode with | .number => 12 | .alphaNum => 11 | .byte => 16 | .kanji => 10)
  else if type < 41 then
    .ok (match mode with | .number => 14 | .alphaNum => 13 | .byte => 16 | .kanji => 12)
  else .error s!"type:{type}"

/-- `stringToBytes`, of code units. -/
def stringToBytes (s : List UInt16) : List ℕ := s.map fun c => c.toNat &&& 0xff

/-- What `qr8BitByte` keeps of a text. -/
structure Qr8BitByte where
  bytes : List ℕ
  lt : ∀ c ∈ bytes, c < 256
  deriving DecidableEq

/-- `qr8BitByte` -/
def qr8BitByte (data : List UInt16) : Qr8BitByte where
  bytes := stringToBytes data
  lt c hc := by
    obtain ⟨u, -, rfl⟩ := List.mem_map.1 hc
    exact Nat.lt_of_le_of_lt Nat.and_le_right (by decide)

/-- `write` -/
def Qr8BitByte.write (data : Qr8BitByte) (b : BitBuffer) : BitBuffer :=
  data.bytes.foldl (fun b c => b.put c 8) b

/-- What is put into a buffer for each text. -/
def putData (typeNumber : ℕ) (b : BitBuffer) (data : Qr8BitByte) : Except String BitBuffer := do
  let b := b.put QRMode.byte.value 4
  let b := b.put data.bytes.length (← getLengthInBits .byte typeNumber)
  return data.write b

def putAll (typeNumber : ℕ) (dataList : List Qr8BitByte) : Except String BitBuffer :=
  dataList.foldlM (putData typeNumber) {}

/-- The bits for data that the blocks have. -/
def capacity (bs : List RsBlock) : ℕ := (bs.map RsBlock.dataCount).sum * 8

/-- Bits up to the next byte. -/
def fillByte (b : BitBuffer) : BitBuffer :=
  if b.length % 8 ≠ 0 then fillByte (b.putBit false) else b
termination_by (8 - b.length % 8) % 8
decreasing_by
  rw [BitBuffer.length_putBit]
  omega

theorem BitBuffer.length_put (b : BitBuffer) (num length : ℕ) :
    (b.put num length).length = b.length + length := by
  have hfold : ∀ (l : List ℕ) (b : BitBuffer), (l.foldl
      (fun b i => b.putBit ((num >>> (length - i - 1)) &&& 1 == 1)) b).length = b.length + l.length := by
    intro l
    induction l with
    | nil => exact fun _ => rfl
    | cons i l ih =>
      intro b
      rw [List.foldl_cons, ih, length_putBit, List.length_cons, Nat.add_assoc, Nat.add_comm 1]
  rw [put, hfold, List.length_range]

/-- The two bytes that are put in turns, up to the bits that there are. -/
def fillBytes (total : ℕ) (b : BitBuffer) : BitBuffer :=
  if total ≤ b.length then b
  else if total ≤ (b.put 0xEC 8).length then b.put 0xEC 8
  else fillBytes total ((b.put 0xEC 8).put 0x11 8)
termination_by total - b.length
decreasing_by
  simp only [BitBuffer.length_put]
  omega

/-- `createData` -/
def createData (typeNumber : ℕ) (level : QRErrorCorrectionLevel) (dataList : List Qr8BitByte) :
    Except String (List (Option ℕ)) := do
  let bs ← getRSBlocks typeNumber level
  let buffer ← putAll typeNumber dataList
  if buffer.length > capacity bs then
    throw s!"code length overflow. ({buffer.length}>{capacity bs})"
  let buffer := if buffer.length + 4 ≤ capacity bs then buffer.put 0 4 else buffer
  createBytes (fillBytes (capacity bs) (fillByte buffer)).buffer bs

/-! ## Bits of texts -/

/-- The bits of a text, with so many for its length. -/
def Qr8BitByte.bits (lengthBits : ℕ) (data : Qr8BitByte) : List Bool :=
  high 4 QRMode.byte.value ++ high lengthBits data.bytes.length ++ data.bytes.flatMap (high 8)

/-- How many bits texts need. -/
def bitCount (lengthBits : ℕ) (dataList : List Qr8BitByte) : ℕ :=
  (dataList.flatMap (·.bits lengthBits)).length

variable {b : BitBuffer} {bits tail : List Bool} {typeNumber lengthBits : ℕ}
  {dataList : List Qr8BitByte}

theorem Qr8BitByte.holds_write (data : Qr8BitByte) (h : b.Holds bits) :
    (data.write b).Holds (bits ++ data.bytes.flatMap (high 8)) := by
  have hfold : ∀ (l : List ℕ) (b : BitBuffer) (bits : List Bool), b.Holds bits →
      (l.foldl (fun b c => b.put c 8) b).Holds (bits ++ l.flatMap (high 8)) := by
    intro l
    induction l with
    | nil =>
      intro b bits h
      rwa [List.flatMap_nil, List.append_nil]
    | cons c l ih =>
      intro b bits h
      rw [List.foldl_cons, List.flatMap_cons, ← List.append_assoc]
      exact ih _ _ (h.put c 8)
  exact hfold _ _ _ h

theorem putAll_eq (hlen : getLengthInBits .byte typeNumber = .ok lengthBits)
    (dataList : List Qr8BitByte) : ∃ b, putAll typeNumber dataList = .ok b ∧
      b.Holds (dataList.flatMap (·.bits lengthBits)) := by
  have hfold : ∀ (l : List Qr8BitByte) (b : BitBuffer) (bits : List Bool), b.Holds bits →
      ∃ b', l.foldlM (putData typeNumber) b = .ok b' ∧
        b'.Holds (bits ++ l.flatMap (·.bits lengthBits)) := by
    intro l
    induction l with
    | nil => exact fun b bits h => ⟨b, rfl, by rwa [List.flatMap_nil, List.append_nil]⟩
    | cons d l ih =>
      intro b bits h
      obtain ⟨b', hb', hholds⟩ := ih _ _
        (d.holds_write ((h.put QRMode.byte.value 4).put d.bytes.length lengthBits))
      refine ⟨b', ?_, ?_⟩
      · rw [List.foldlM_cons, putData, hlen]
        exact hb'
      · rw [List.flatMap_cons, Qr8BitByte.bits]
        simpa only [List.append_assoc] using hholds
  obtain ⟨b, hb, hholds⟩ := hfold dataList {} [] BitBuffer.holds_empty
  exact ⟨b, hb, hholds⟩

theorem holds_fillByte (h : b.Holds bits) :
    ∃ k, (fillByte b).Holds (bits ++ List.replicate k false) ∧ (bits.length + k) % 8 = 0 ∧
      k < 8 := by
  fun_induction fillByte b generalizing bits with
  | case1 b hb ih =>
    obtain ⟨k, hk, hmod, hlt⟩ := ih (h.putBit false)
    have hlen := h.length
    rw [List.length_append, List.length_singleton] at hmod
    refine ⟨k + 1, ?_, by omega, by omega⟩
    rwa [List.append_assoc, List.singleton_append, ← List.replicate_succ] at hk
  | case2 b hb =>
    refine ⟨0, by rwa [List.replicate_zero, List.append_nil], ?_, by decide⟩
    rw [Nat.add_zero, ← h.length]
    exact not_not.1 hb

theorem holds_fillBytes {total : ℕ} (h : b.Holds bits) (hbits : bits.length % 8 = 0)
    (htotal : total % 8 = 0) (hle : bits.length ≤ total) :
    ∃ pad, (fillBytes total b).Holds (bits ++ pad) ∧ (bits ++ pad).length = total := by
  fun_induction fillBytes total b generalizing bits with
  | case1 b hb =>
    rw [h.length] at hb
    exact ⟨[], by rwa [List.append_nil], by rw [List.append_nil]; omega⟩
  | case2 b hb hb' =>
    rw [BitBuffer.length_put, h.length] at hb'
    rw [h.length] at hb
    refine ⟨high 8 0xEC, h.put 0xEC 8, ?_⟩
    rw [List.length_append, Bits.length_high]
    omega
  | case3 b hb hb' ih =>
    rw [BitBuffer.length_put, h.length] at hb'
    have hput := (h.put 0xEC 8).put 0x11 8
    obtain ⟨pad, hpad, hlen⟩ := ih hput (by simp; omega) (by simp; omega)
    refine ⟨high 8 0xEC ++ high 8 0x11 ++ pad, ?_, ?_⟩
    · simpa only [List.append_assoc] using hpad
    · simpa only [List.append_assoc] using hlen

/-- What the buffer is filled up with does not look like the mode of a text. -/
theorem holds_fill (bs : List RsBlock) (h : b.Holds bits) (hle : bits.length ≤ capacity bs) :
    ∃ tail, (fillBytes (capacity bs)
      (fillByte (if b.length + 4 ≤ capacity bs then b.put 0 4 else b))).Holds (bits ++ tail) ∧
      (bits ++ tail).length = capacity bs ∧
      (tail.length < 4 ∨ tail.take 4 = List.replicate 4 false) := by
  have hcapacity : capacity bs % 8 = 0 := Nat.mul_mod_left ..
  -- Four zeros end the texts. Without room for them there is none for a mode either.
  have hend : ∃ e, (if b.length + 4 ≤ capacity bs then b.put 0 4 else b).Holds (bits ++ e) ∧
      (bits ++ e).length ≤ capacity bs ∧ (e = [] ∧ capacity bs < bits.length + 4 ∨
        e = List.replicate 4 false) := by
    rw [h.length]
    by_cases hroom : bits.length + 4 ≤ capacity bs
    · rw [if_pos hroom]
      exact ⟨List.replicate 4 false, h.put 0 4, by simpa using hroom, .inr rfl⟩
    · rw [if_neg hroom]
      exact ⟨[], by rwa [List.append_nil], by rwa [List.append_nil], .inl ⟨rfl, by omega⟩⟩
  obtain ⟨e, he, hele, hkind⟩ := hend
  obtain ⟨k, hk, hmod, hlt⟩ := holds_fillByte he
  obtain ⟨pad, hpad, hlen⟩ := holds_fillBytes hk (by simpa [Nat.add_assoc] using hmod) hcapacity (by
    rw [List.length_append, List.length_replicate]
    omega)
  refine ⟨e ++ (List.replicate k false ++ pad), ?_, ?_, ?_⟩
  · simpa only [List.append_assoc] using hpad
  · simpa only [List.append_assoc] using hlen
  · rcases hkind with ⟨rfl, hroom⟩ | rfl
    · simp only [List.length_append] at hlen ⊢
      left
      omega
    · exact .inr (List.take_left' List.length_replicate)

/-! ## Reading -/

/-- The number of bits, from the highest on. -/
def number (bits : List Bool) : ℕ := Bits.value bits.reverse

/-- The texts of bits: as long as there is the mode of one, at most so many. -/
def readTexts (lengthBits : ℕ) : ℕ → List Bool → List (List ℕ)
  | 0, _ => []
  | n + 1, bits =>
    if 4 ≤ bits.length ∧ number (bits.take 4) = QRMode.byte.value then
      let length := number ((bits.drop 4).take lengthBits)
      let rest := bits.drop (4 + lengthBits)
      (Bits.octets (rest.take (8 * length))).map number ::
        readTexts lengthBits n (rest.drop (8 * length))
    else []

theorem length_flatMap_high (l : List ℕ) : (l.flatMap (high 8)).length = 8 * l.length := by
  induction l with
  | nil => rfl
  | cons c l ih =>
    rw [List.flatMap_cons, List.length_append, ih, Bits.length_high, List.length_cons]
    omega

theorem number_high {w n : ℕ} (h : n < 2 ^ w) : number (high w n) = n := Bits.value_high h

theorem map_number_octets {l : List ℕ} (h : ∀ c ∈ l, c < 256) :
    (Bits.octets (l.flatMap (high 8))).map number = l := by
  rw [Bits.octets_flatMap (Bits.length_high 8), List.map_map]
  conv_rhs => rw [← List.map_id l]
  exact List.map_congr_left fun c hc => number_high (h c hc)

theorem readTexts_cons (d : Qr8BitByte) (hd : d.bytes.length < 2 ^ lengthBits) (n : ℕ)
    (rest : List Bool) : readTexts lengthBits (n + 1) (d.bits lengthBits ++ rest) =
      d.bytes :: readTexts lengthBits n rest := by
  have hbits : d.bits lengthBits ++ rest = high 4 QRMode.byte.value ++
      (high lengthBits d.bytes.length ++ (d.bytes.flatMap (high 8) ++ rest)) := by
    simp only [Qr8BitByte.bits, List.append_assoc]
  have htake : (d.bits lengthBits ++ rest).take 4 = high 4 QRMode.byte.value := by
    rw [hbits, List.take_left' (Bits.length_high ..)]
  have hdrop : (d.bits lengthBits ++ rest).drop 4 =
      high lengthBits d.bytes.length ++ (d.bytes.flatMap (high 8) ++ rest) := by
    rw [hbits, List.drop_left' (Bits.length_high ..)]
  have hlen : ((d.bits lengthBits ++ rest).drop 4).take lengthBits =
      high lengthBits d.bytes.length := by
    rw [hdrop, List.take_left' (Bits.length_high ..)]
  have hrest : (d.bits lengthBits ++ rest).drop (4 + lengthBits) =
      d.bytes.flatMap (high 8) ++ rest := by
    rw [← List.drop_drop, hdrop, List.drop_left' (Bits.length_high ..)]
  have hfour : 4 ≤ (d.bits lengthBits ++ rest).length := by
    rw [hbits, List.length_append, Bits.length_high]
    exact Nat.le_add_right ..
  have hmode : number (high 4 QRMode.byte.value) = QRMode.byte.value := number_high (by decide)
  rw [readTexts, htake, if_pos ⟨hfour, hmode⟩]
  simp only [hlen, hrest, number_high hd]
  rw [List.take_left' (length_flatMap_high _), List.drop_left' (length_flatMap_high _),
    map_number_octets d.lt]

/-- The texts are read again. -/
theorem readTexts_bits (hlt : ∀ d ∈ dataList, d.bytes.length < 2 ^ lengthBits)
    (htail : tail.length < 4 ∨ tail.take 4 = List.replicate 4 false) {n : ℕ}
    (hn : dataList.length ≤ n) :
    readTexts lengthBits n (dataList.flatMap (·.bits lengthBits) ++ tail) =
      dataList.map (·.bytes) := by
  induction dataList generalizing n with
  | nil =>
    cases n with
    | zero => rfl
    | succ n =>
      rw [List.flatMap_nil, List.nil_append, readTexts, if_neg, List.map_nil]
      rintro ⟨hlen, hmode⟩
      rcases htail with h | h
      · omega
      · rw [h] at hmode
        exact absurd hmode (by decide)
  | cons d dataList ih =>
    rw [List.forall_mem_cons] at hlt
    obtain ⟨n, rfl⟩ : ∃ m, n = m + 1 := ⟨n - 1, by simp at hn; omega⟩
    rw [List.flatMap_cons, List.append_assoc, readTexts_cons d hlt.1,
      ih hlt.2 (Nat.le_of_succ_le_succ hn), List.map_cons]

/-- The texts of the blocks of a symbol. -/
def textsOf (lengthBits : ℕ) (bs : List RsBlock) (words : List (List ℕ)) : List (List ℕ) :=
  readTexts lengthBits (capacity bs) ((dataOf bs words).flatMap (high 8))

/-- The bits of the data of a full buffer. -/
theorem flatMap_blockData {n : ℕ} (h : b.Holds bits) (hlen : bits.length = n * 8) :
    (blockData b.buffer 0 n).flatMap (high 8) = bits := by
  have hdata : (blockData b.buffer 0 n).length = n := by simp [blockData]
  refine List.ext_getElem (by rw [length_flatMap_high, hdata]; omega) fun i hi hi' => ?_
  have hbyte : (blockData b.buffer 0 n).getD (i / 8) 0 = b.buffer.getD (i / 8) 0 := by
    rw [List.getD_eq_getElem _ _ (by rw [hdata]; omega)]
    simp only [blockData, List.getElem_map, List.getElem_range, Nat.add_zero]
    rw [Nat.and_comm, Nat.and_two_pow_sub_one_eq_mod _ 8, Nat.mod_eq_of_lt (h.byte _)]
  have hget := Bits.getD_flatMap_high (blockData b.buffer 0 n) i
  rw [List.getD_eq_getElem _ _ hi, hbyte, h.bit, List.getD_eq_getElem _ _ hi'] at hget
  exact hget

/-! ## Capacities -/

theorem getLengthInBits_byte {typeNumber : ℕ} (h : typeNumber < 41) (h1 : 1 ≤ typeNumber) :
    getLengthInBits .byte typeNumber = .ok (if typeNumber < 10 then 8 else 16) := by
  rw [getLengthInBits]
  by_cases h10 : typeNumber < 10
  · rw [if_pos ⟨h1, h10⟩, if_pos h10]
  · rw [if_neg fun h => h10 h.2, if_neg h10, if_pos h, ite_self]

/-- No symbol has bytes for a text whose length cannot be written. -/
theorem capacity_table : ∀ typeNumber < 41, 1 ≤ typeNumber → ∀ k < 4,
    ∃ row, rsBlockTable[(typeNumber - 1) * 4 + k]? = some row ∧
      capacity (rsBlocks row) < 8 * 2 ^ (if typeNumber < 10 then 8 else 16) := by
  have hdecide : ∀ typeNumber < 41, 1 ≤ typeNumber → ∀ k < 4,
      (rsBlockTable[(typeNumber - 1) * 4 + k]?).any (fun row =>
        capacity (rsBlocks row) < 8 * 2 ^ (if typeNumber < 10 then 8 else 16)) := by
    decide +kernel
  intro typeNumber h h1 k hk
  obtain ⟨row, hrow, hlt⟩ := (Option.any_eq_true _ _).1 (hdecide typeNumber h h1 k hk)
  exact ⟨row, hrow, of_decide_eq_true hlt⟩

/-- The symbols there are. -/
theorem exists_symbol {typeNumber : ℕ} (h : typeNumber < 41) (h1 : 1 ≤ typeNumber)
    (level : QRErrorCorrectionLevel) : ∃ bs, getRSBlocks typeNumber level = .ok bs ∧
      capacity bs < 8 * 2 ^ (if typeNumber < 10 then 8 else 16) := by
  have hne : typeNumber ≠ 0 := Nat.ne_of_gt h1
  have hrow : ∃ row, getRsBlockTable typeNumber level = some row ∧
      capacity (rsBlocks row) < 8 * 2 ^ (if typeNumber < 10 then 8 else 16) := by
    rw [getRsBlockTable.eq_def, if_neg hne]
    cases level with
    | L => exact capacity_table _ h h1 0 (by decide)
    | M => exact capacity_table _ h h1 1 (by decide)
    | Q => exact capacity_table _ h h1 2 (by decide)
    | H => exact capacity_table _ h h1 3 (by decide)
  obtain ⟨row, hrow, hlt⟩ := hrow
  exact ⟨rsBlocks row, by rw [getRSBlocks, hrow], hlt⟩

theorem typeNumber_of_getRSBlocks {level : QRErrorCorrectionLevel} {bs : List RsBlock}
    (h : getRSBlocks typeNumber level = .ok bs) : 1 ≤ typeNumber ∧ typeNumber < 41 := by
  obtain ⟨h1, k, -, row, hrow, -⟩ := getRSBlocks_eq h
  have hlen : rsBlockTable.length = 160 := rfl
  have hlt : (typeNumber - 1) * 4 < 160 :=
    Nat.lt_of_le_of_lt (Nat.le_add_right _ k) (hlen ▸ (List.getElem?_eq_some_iff.1 hrow).1)
  omega

/-! ## Data -/

theorem bitCount_cons (d : Qr8BitByte) (dataList : List Qr8BitByte) :
    bitCount lengthBits (d :: dataList) =
      4 + lengthBits + 8 * d.bytes.length + bitCount lengthBits dataList := by
  simp only [bitCount, List.flatMap_cons, Qr8BitByte.bits, List.length_append, Bits.length_high,
    length_flatMap_high]

theorem length_le_bitCount (dataList : List Qr8BitByte) :
    dataList.length ≤ bitCount lengthBits dataList := by
  induction dataList with
  | nil => exact Nat.zero_le _
  | cons d dataList ih =>
    rw [bitCount_cons, List.length_cons]
    omega

theorem bytes_le_bitCount (lengthBits : ℕ) :
    ∀ d ∈ dataList, 8 * d.bytes.length ≤ bitCount lengthBits dataList := by
  induction dataList with
  | nil => exact fun _ hd => absurd hd List.not_mem_nil
  | cons d dataList ih =>
    rw [List.forall_mem_cons, bitCount_cons]
    exact ⟨by omega, fun e he => (ih e he).trans (Nat.le_add_left ..)⟩

section

variable {level : QRErrorCorrectionLevel} {bs : List RsBlock}

theorem createData_overflow (hbs : getRSBlocks typeNumber level = .ok bs)
    (hw : getLengthInBits .byte typeNumber = .ok lengthBits)
    (h : capacity bs < bitCount lengthBits dataList) : createData typeNumber level dataList =
      .error s!"code length overflow. ({bitCount lengthBits dataList}>{capacity bs})" := by
  obtain ⟨b, hb, hholds⟩ := putAll_eq hw dataList
  have hlen : b.length = bitCount lengthBits dataList := hholds.length
  rw [createData, hbs, hb]
  simp only [bind, Except.bind, hlen, if_pos h]
  rfl

/-- Texts are read out of the bytes of a symbol, also when some bytes of each block are
    damaged. -/
theorem createData_eq (hbs : getRSBlocks typeNumber level = .ok bs)
    (hw : getLengthInBits .byte typeNumber = .ok lengthBits)
    (h : bitCount lengthBits dataList ≤ capacity bs) :
    ∃ data, createData typeNumber level dataList = .ok data ∧ AllBytes data ∧
      data.length = (bs.map RsBlock.totalCount).sum ∧ ∀ damaged,
      List.Forall₂ RsBlock.Near (bs.zip (readBlocks bs damaged))
        (readBlocks bs (data.map (·.getD 0))) →
      (∃ words, Corrected bs (readBlocks bs damaged) words) ∧
      ∀ words, Corrected bs (readBlocks bs damaged) words →
        textsOf lengthBits bs words = dataList.map (·.bytes) := by
  obtain ⟨b, hb, hholds⟩ := putAll_eq hw dataList
  have hlen : b.length = bitCount lengthBits dataList := hholds.length
  obtain ⟨tail, hfull, hfulllen, htail⟩ := holds_fill bs hholds h
  obtain ⟨data, hdata, hbytes, hdatalen, hdamage⟩ := correct hbs (fillBytes (capacity bs)
    (fillByte (if b.length + 4 ≤ capacity bs then b.put 0 4 else b))).buffer
  obtain ⟨h1, h41⟩ := typeNumber_of_getRSBlocks hbs
  obtain ⟨bs', hbs', hlt⟩ := exists_symbol h41 h1 level
  obtain rfl : bs = bs' := Except.ok.inj (hbs.symm.trans hbs')
  rw [getLengthInBits_byte h41 h1] at hw
  rw [Except.ok.inj hw] at hlt
  -- No text that fits in is too long for its length field.
  have hlengths : ∀ d ∈ dataList, d.bytes.length < 2 ^ lengthBits := fun d hd => by
    have hle := bytes_le_bitCount lengthBits d hd
    omega
  refine ⟨data, ?_, hbytes, hdatalen, fun damaged hdamaged => ?_⟩
  · rw [createData, hbs, hb]
    simp only [bind, Except.bind, hlen, if_neg (Nat.not_lt.2 h)]
    rw [← hlen]
    exact hdata
  · obtain ⟨hexists, hall⟩ := hdamage damaged hdamaged
    refine ⟨hexists, fun words hwords => ?_⟩
    rw [textsOf, hall words hwords, flatMap_blockData hfull hfulllen,
      readTexts_bits hlengths htail ((length_le_bitCount dataList).trans h)]

end

/-! ## The smallest symbol -/

/-- The loop of `make`, from a version on. -/
def bestType (level : QRErrorCorrectionLevel) (dataList : List Qr8BitByte) (typeNumber : ℕ) :
    Except String ℕ :=
  if typeNumber < 40 then do
    let bs ← getRSBlocks typeNumber level
    let buffer ← putAll typeNumber dataList
    if buffer.length ≤ capacity bs then return typeNumber
    else bestType level dataList (typeNumber + 1)
  else .ok typeNumber
termination_by 40 - typeNumber

/-- Whether a symbol has enough bits for texts. -/
def FitsInto (level : QRErrorCorrectionLevel) (dataList : List Qr8BitByte) (typeNumber : ℕ) : Prop :=
  ∃ bs w, getRSBlocks typeNumber level = .ok bs ∧ getLengthInBits .byte typeNumber = .ok w ∧
    bitCount w dataList ≤ capacity bs

/-- The version is the first that has enough bits, or else the last. -/
theorem bestType_spec (level : QRErrorCorrectionLevel) (dataList : List Qr8BitByte) {start : ℕ}
    (h1 : 1 ≤ start) (h40 : start ≤ 40) : ∃ best, bestType level dataList start = .ok best ∧
      start ≤ best ∧ best ≤ 40 ∧
      (∀ typeNumber, start ≤ typeNumber → typeNumber < best →
        ¬ FitsInto level dataList typeNumber) ∧
      (best < 40 → FitsInto level dataList best) := by
  -- The induction is on the versions that are left, and goes up with the loop.
  induction hk : 40 - start generalizing start with
  | zero =>
    obtain rfl : start = 40 := by omega
    refine ⟨40, by rw [bestType, if_neg (by decide)], Nat.le_refl _, Nat.le_refl _, ?_, ?_⟩
    · exact fun _ h h' => absurd h' (Nat.not_lt.2 h)
    · exact fun h => absurd h (Nat.lt_irrefl _)
  | succ k ih =>
    have hlt : start < 40 := by omega
    obtain ⟨bs, hbs, -⟩ := exists_symbol (hlt.trans (Nat.lt_succ_self 40)) h1 level
    have hw := getLengthInBits_byte (hlt.trans (Nat.lt_succ_self 40)) h1
    obtain ⟨b, hb, hholds⟩ := putAll_eq hw dataList
    have hlen := hholds.length
    by_cases hle : b.length ≤ capacity bs
    · refine ⟨start, ?_, Nat.le_refl _, h40, fun _ h h' => absurd h' (Nat.not_lt.2 h), fun _ => ?_⟩
      · rw [bestType, if_pos hlt, hbs, hb]
        simp only [bind, Except.bind, if_pos hle]
        rfl
      · exact ⟨bs, _, hbs, hw, hlen.ge.trans hle⟩
    · have hnot : ¬ FitsInto level dataList start := by
        rintro ⟨bs', w', hbs', hw', hle'⟩
        obtain rfl : bs = bs' := Except.ok.inj (hbs.symm.trans hbs')
        obtain rfl := Except.ok.inj (hw.symm.trans hw')
        exact hle (hlen.trans_le hle')
      obtain ⟨best, hbest, hge, hle40, hsmaller, hfits⟩ := ih
        (Nat.le_add_left 1 start) hlt (by omega)
      refine ⟨best, ?_, by omega, hle40, fun typeNumber h h' => ?_, hfits⟩
      · rw [bestType, if_pos hlt, hbs, hb]
        simp only [bind, Except.bind, if_neg hle]
        exact hbest
      · rcases Nat.eq_or_lt_of_le h with rfl | h
        · exact hnot
        · exact hsmaller typeNumber h h'

end IrohWebrtc.Qr
