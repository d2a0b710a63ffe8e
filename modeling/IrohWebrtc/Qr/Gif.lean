import IrohWebrtc.Lib.Bits
import IrohWebrtc.Lib.Lzw
import Mathlib.Data.Nat.Size

/-!
# Pictures of QR codes

The GIF that the QR code generator writes (`gifImage` of `qrcode.js`): pixels of two colors,
compressed by codes of strings (`getLZWRaster`) that are written bit by bit, each as wide as the
table of strings needs (`bitOutputStream`), in blocks of 255 bytes. A reader finds the pixels
again (`readGif_write`): its table is a string behind, so that it knows the width of each code,
but for the end code, which it does not need.
-/

namespace IrohWebrtc.Qr

open Bits (low)

/-! ## Bytes -/

/-- `byteArrayOutputStream`, by its bytes. -/
abbrev ByteOut := List ℕ

namespace ByteOut

def writeByte (out : ByteOut) (b : ℕ) : ByteOut := out ++ [b &&& 0xff]

def writeShort (out : ByteOut) (i : ℕ) : ByteOut := writeByte (writeByte out i) (i >>> 8)

def writeBytes (out : ByteOut) (b : List ℕ) (off len : ℕ) : ByteOut :=
  (List.range (if len = 0 then b.length else len)).foldl
    (fun out i => writeByte out (b.getD (i + off) 0)) out

def writeString (out : ByteOut) (s : String) : ByteOut :=
  s.toList.foldl (fun out c => writeByte out c.toNat) out

theorem lt_writeByte {out : ByteOut} (h : ∀ c ∈ out, c < 256) (b : ℕ) :
    ∀ c ∈ out.writeByte b, c < 256 := by
  intro c hc
  rcases List.mem_append.1 hc with hc | hc
  · exact h c hc
  · rw [List.mem_singleton.1 hc]
    exact Nat.lt_of_le_of_lt Nat.and_le_right (by decide)

end ByteOut

/-! ## Bits -/

/-- `bitOutputStream` -/
structure BitOut where
  out : ByteOut := []
  bitLength : ℕ := 0
  bitBuffer : ℕ := 0

namespace BitOut

/-- The loop of `write`, and what comes after it. -/
def put (s : BitOut) (data length : ℕ) : BitOut :=
  if 8 ≤ s.bitLength + length then
    put ⟨s.out.writeByte (0xff &&& (data <<< s.bitLength ||| s.bitBuffer)), 0, 0⟩
      (data >>> (8 - s.bitLength)) (length - (8 - s.bitLength))
  else ⟨s.out, s.bitLength + length, data <<< s.bitLength ||| s.bitBuffer⟩
termination_by s.bitLength + length
decreasing_by
  omega

/-- `write` -/
def write (s : BitOut) (data length : ℕ) : Except String BitOut :=
  if data >>> length ≠ 0 then .error "length over" else .ok (s.put data length)

/-- `flush` -/
def flush (s : BitOut) : ByteOut :=
  if 0 < s.bitLength then s.out.writeByte s.bitBuffer else s.out

/-- The bits of a stream, those of its buffer last. -/
structure Holds (s : BitOut) (bits : List Bool) : Prop where
  bits : s.out.flatMap (low 8) ++ low s.bitLength s.bitBuffer = bits
  length : s.bitLength < 8
  buffer : s.bitBuffer < 2 ^ s.bitLength
  bytes : ∀ c ∈ s.out, c < 256

variable {s : BitOut} {bits : List Bool}

theorem holds_empty : Holds {} [] where
  bits := rfl
  length := by decide
  buffer := by decide
  bytes _ hc := absurd hc List.not_mem_nil

/-- Bits above those of a buffer. -/
theorem low_append {b n : ℕ} (h : b < 2 ^ n) (w data : ℕ) :
    low (n + w) (data <<< n ||| b) = low n b ++ low w data := by
  have hshift : (data <<< n ||| b) >>> n = data := by
    rw [Nat.shiftRight_or_distrib, Nat.shiftLeft_shiftRight, Nat.shiftRight_eq_div_pow b,
      Nat.div_eq_of_lt h, Nat.or_zero]
  have hlow : low n (data <<< n ||| b) = low n b := by
    refine List.map_congr_left fun i hi => ?_
    rw [Nat.testBit_or, Nat.testBit_shiftLeft, decide_eq_false (Nat.not_le.2 (List.mem_range.1 hi)),
      Bool.false_and, Bool.false_or]
  rw [Bits.low_add, hshift, hlow]

theorem low_and_byte (n : ℕ) : low 8 (n &&& 0xff) = low 8 n := by
  refine List.map_congr_left fun i hi => ?_
  rw [Nat.and_two_pow_sub_one_eq_mod _ 8, Nat.testBit_mod_two_pow,
    decide_eq_true (List.mem_range.1 hi), Bool.true_and]

/-- The lowest bits are written first. -/
theorem Holds.put (h : s.Holds bits) {data length : ℕ} (hdata : data < 2 ^ length) :
    (s.put data length).Holds (bits ++ low length data) := by
  induction hk : length using Nat.strong_induction_on generalizing s bits data length with
  | h k ih =>
    subst hk
    rw [BitOut.put]
    split
    · next hle =>
      -- The byte is full: it is written, and the rest goes into the next one.
      have hlt := h.length
      have hlen : length = (8 - s.bitLength) + (length - (8 - s.bitLength)) := by omega
      have hbyte : low 8 (0xff &&& (data <<< s.bitLength ||| s.bitBuffer)) =
          low s.bitLength s.bitBuffer ++ low (8 - s.bitLength) data := by
        rw [Nat.and_comm, low_and_byte, ← low_append h.buffer, Nat.add_sub_cancel' hlt.le]
      have hrest : data >>> (8 - s.bitLength) < 2 ^ (length - (8 - s.bitLength)) := by
        rw [Nat.shiftRight_eq_div_pow]
        refine Nat.div_lt_of_lt_mul ?_
        rwa [← Nat.pow_add, ← hlen]
      have hflush : Holds ⟨s.out.writeByte (0xff &&& (data <<< s.bitLength ||| s.bitBuffer)), 0, 0⟩
          (bits ++ low (8 - s.bitLength) data) := by
        refine ⟨?_, Nat.zero_lt_succ 7, Nat.two_pow_pos 0, ByteOut.lt_writeByte h.bytes _⟩
        rw [ByteOut.writeByte, List.flatMap_append, List.flatMap_singleton, low_and_byte, hbyte,
          ← h.bits]
        simp [low]
      have hnext := ih (length - (8 - s.bitLength)) (by omega) hflush hrest rfl
      rw [List.append_assoc, ← Bits.low_add, ← hlen] at hnext
      exact hnext
    · next hlt =>
      refine ⟨?_, by simp only; omega, ?_, h.bytes⟩
      · rw [low_append h.buffer, ← List.append_assoc, h.bits]
      · refine Nat.or_lt_two_pow ?_ (h.buffer.trans_le (Nat.pow_le_pow_right (by decide) (by simp)))
        rw [Nat.shiftLeft_eq, Nat.pow_add, Nat.mul_comm]
        exact Nat.mul_lt_mul_of_pos_left hdata (Nat.two_pow_pos _)

theorem Holds.write (h : s.Holds bits) {data length : ℕ} (hdata : data < 2 ^ length) :
    ∃ s', s.write data length = .ok s' ∧ s'.Holds (bits ++ low length data) := by
  refine ⟨_, ?_, h.put hdata⟩
  rw [BitOut.write, if_neg]
  rw [not_not, Nat.shiftRight_eq_div_pow, Nat.div_eq_of_lt hdata]

/-- The last byte is filled up. -/
theorem Holds.flush (h : s.Holds bits) :
    (∀ c ∈ s.flush, c < 256) ∧ ∃ rest, s.flush.flatMap (low 8) = bits ++ rest := by
  rw [BitOut.flush]
  split
  · refine ⟨ByteOut.lt_writeByte h.bytes _, low (8 - s.bitLength) 0, ?_⟩
    have hbuffer := low_append h.buffer (8 - s.bitLength) 0
    rw [Nat.zero_shiftLeft, Nat.zero_or, Nat.add_sub_cancel' h.length.le] at hbuffer
    rw [ByteOut.writeByte, List.flatMap_append, List.flatMap_singleton, low_and_byte, hbuffer,
      ← List.append_assoc, h.bits]
  · next hzero =>
    refine ⟨h.bytes, [], ?_⟩
    rw [List.append_nil, ← h.bits, Nat.eq_zero_of_not_pos hzero]
    simp [low]

end BitOut

/-! ## Strings -/

/-- `lzwTable`: the strings that were added, as lists of character codes. -/
abbrev LzwTable := List (List ℕ)

/-- `add` -/
def LzwTable.add (table : LzwTable) (key : List ℕ) : Except String LzwTable :=
  if key ∈ table then .error ("dup key:" ++ .ofList (key.map Char.ofNat)) else .ok (table ++ [key])

/-- The variables of `getLZWRaster`. -/
structure RasterState where
  s : List ℕ
  table : LzwTable
  bitLength : ℕ
  bitOut : BitOut

/-- A string that is not in the table is added, unless there are too many. -/
def RasterState.addKey (st : RasterState) (key : List ℕ) : Except String RasterState :=
  if st.table.length < 0xfff then do
    let bitLength := if st.table.length = 1 <<< st.bitLength then st.bitLength + 1 else st.bitLength
    let table ← st.table.add key
    return { st with bitLength := bitLength, table := table }
  else .ok st

/-- The loop of `getLZWRaster`. -/
def rasterLoop : List ℕ → RasterState → Except String RasterState
  | [], st => .ok st
  | c :: data, st =>
    if st.s ++ [c] ∈ st.table then rasterLoop data { st with s := st.s ++ [c] }
    else do
      let bitOut ← st.bitOut.write (st.table.idxOf st.s) st.bitLength
      let st ← { st with bitOut := bitOut }.addKey (st.s ++ [c])
      rasterLoop data { st with s := [c] }

/-- The table of a code size. -/
def setupTable (lzwMinCodeSize : ℕ) : Except String LzwTable := do
  let clearCode := 1 <<< lzwMinCodeSize
  let table ← (List.range clearCode).foldlM (fun table i => LzwTable.add table [i]) []
  let table ← LzwTable.add table [clearCode]
  LzwTable.add table [clearCode + 1]

/-- `getLZWRaster`, of pixels. -/
def getLZWRaster (data : List ℕ) (lzwMinCodeSize : ℕ) : Except String (List ℕ) := do
  let clearCode := 1 <<< lzwMinCodeSize
  let table ← setupTable lzwMinCodeSize
  let bitOut ← BitOut.write {} clearCode (lzwMinCodeSize + 1)
  let st ← rasterLoop data.tail ⟨[data.getD 0 0], table, lzwMinCodeSize + 1, bitOut⟩
  let bitOut ← st.bitOut.write (st.table.idxOf st.s) st.bitLength
  let bitOut ← bitOut.write (clearCode + 1) st.bitLength
  return bitOut.flush

/-! ## Codes -/

/-- How wide a code is, when there are so many strings. -/
def width (size : ℕ) : ℕ := max 3 (Nat.size (size - 1))

/-- How wide a code is for a reader, who has so many strings. -/
def readWidth (size : ℕ) : ℕ := min 12 (max 3 (Nat.size size))

/-- The bits of codes. -/
def codeBits (codes : List (ℕ × ℕ)) : List Bool := codes.flatMap fun x => low (width x.2) x.1

/-- The strings that there are from the beginning. -/
def initial : LzwTable := [[0], [1], [2], [3], [4], [5]]

theorem mem_initial : ∀ c < 4, [c] ∈ initial := by decide

theorem setupTable_two : setupTable 2 = .ok initial := rfl

theorem le_two_pow_width (size : ℕ) : size ≤ 2 ^ width size := by
  have hlt := Nat.lt_size_self (size - 1)
  have hle : 2 ^ Nat.size (size - 1) ≤ 2 ^ width size :=
    Nat.pow_le_pow_right (by decide) (Nat.le_max_right ..)
  omega

/-- The width is increased when the table is full for it. -/
theorem width_succ (size : ℕ) :
    (if size = 1 <<< width size then width size + 1 else width size) = width (size + 1) := by
  have hle := le_two_pow_width size
  rw [Nat.one_shiftLeft]
  split
  · next heq =>
    have hthree : 3 ≤ width size := Nat.le_max_left ..
    conv_rhs => rw [width, Nat.add_sub_cancel, heq, Nat.size_pow]
    omega
  · next hne =>
    have hsize : Nat.size size ≤ width size := Nat.size_le.2 (by omega)
    have hmono : Nat.size (size - 1) ≤ Nat.size size := Nat.size_le_size (Nat.sub_le ..)
    have hthree : 3 ≤ width size := Nat.le_max_left ..
    rw [width, width, Nat.add_sub_cancel] at *
    omega

/-- The reader of a table that follows knows the width. -/
theorem readWidth_eq {sent received : LzwTable} {last s : List ℕ}
    (h : Lzw.Follows 0xfff sent received last s) : readWidth received.length = width sent.length := by
  rw [readWidth, width]
  cases h with
  | behind h hle =>
    rw [h, List.length_append, List.length_singleton] at hle ⊢
    have hsize : Nat.size received.length ≤ 12 := Nat.size_le.2 (by omega)
    rw [Nat.add_sub_cancel]
    omega
  | full h hlen =>
    have hreceived : 11 < Nat.size received.length := Nat.lt_size.2 (by
      have hle := h.length_le
      omega)
    have hsent : 11 < Nat.size (sent.length - 1) := Nat.lt_size.2 (by omega)
    have hsent' : Nat.size (sent.length - 1) ≤ 12 := Nat.size_le.2 (by omega)
    omega

/-! ## Writing codes -/

/-- The variables of `getLZWRaster`, when some bits are written. -/
structure RasterState.At (st : RasterState) (bits : List Bool) : Prop where
  holds : st.bitOut.Holds bits
  bitLength : st.bitLength = width st.table.length
  mem : st.s ∈ st.table
  size : st.table.length ≤ 0xfff
  pixels : ∀ c < 4, [c] ∈ st.table

variable {st : RasterState} {bits : List Bool}

theorem RasterState.At.code_lt (h : st.At bits) :
    st.table.idxOf st.s < 2 ^ st.bitLength := by
  rw [h.bitLength]
  exact (List.idxOf_lt_length_of_mem h.mem).trans_le (le_two_pow_width _)

theorem RasterState.At.addKey (h : st.At bits) {key : List ℕ} (hkey : key ∉ st.table) {c : ℕ}
    (hc : c < 4) : ∃ st', st.addKey key = .ok st' ∧ { st' with s := [c] }.At bits ∧
      st'.table = Lzw.grow 0xfff st.table key := by
  by_cases hlt : st.table.length < 0xfff
  · refine ⟨{ st with
      bitLength := if st.table.length = 1 <<< st.bitLength then st.bitLength + 1 else st.bitLength
      table := st.table ++ [key] }, ?_, ?_, by rw [Lzw.grow, if_pos hlt]⟩
    · rw [RasterState.addKey, if_pos hlt, LzwTable.add, if_neg hkey]
      rfl
    · refine ⟨h.holds, ?_, List.mem_append_left _ (h.pixels c hc), ?_, fun c hc =>
        List.mem_append_left _ (h.pixels c hc)⟩
      · simp only [List.length_append, List.length_singleton, h.bitLength]
        exact width_succ _
      · simp only [List.length_append, List.length_singleton]
        omega
  · refine ⟨st, ?_, ⟨h.holds, h.bitLength, h.pixels c hc, h.size, h.pixels⟩, (if_neg hlt).symm⟩
    rw [RasterState.addKey, if_neg hlt]

/-- The codes of the strings are written, each as wide as the table needs. -/
theorem rasterLoop_eq {data : List ℕ} (hdata : ∀ c ∈ data, c < 4) (st : RasterState)
    (h : st.At bits) :
    ∃ st' bits', rasterLoop data st = .ok st' ∧ st'.At bits' ∧
      bits' ++ low st'.bitLength (st'.table.idxOf st'.s) =
        bits ++ codeBits (Lzw.encode 0xfff st.table st.s data) := by
  induction data generalizing st bits with
  | nil =>
    refine ⟨st, bits, rfl, h, ?_⟩
    rw [Lzw.encode, codeBits, List.flatMap_singleton, h.bitLength]
  | cons c data ih =>
    rw [List.forall_mem_cons] at hdata
    by_cases hmem : st.s ++ [c] ∈ st.table
    · rw [rasterLoop, if_pos hmem, Lzw.encode, if_pos hmem]
      exact ih hdata.2 _ ⟨h.holds, h.bitLength, hmem, h.size, h.pixels⟩
    · -- The string ends here: its code is written at the width before the table grows.
      obtain ⟨bitOut, hwrite, hholds⟩ := h.holds.write h.code_lt
      have hout : { st with bitOut := bitOut }.At (bits ++ low st.bitLength (st.table.idxOf st.s)) :=
        ⟨hholds, h.bitLength, h.mem, h.size, h.pixels⟩
      obtain ⟨st₁, hadd, hat, htable⟩ := hout.addKey hmem hdata.1
      obtain ⟨st', bits', hloop, hat', hbits⟩ := ih hdata.2 _ hat
      refine ⟨st', bits', ?_, hat', ?_⟩
      · rw [rasterLoop, if_neg hmem, hwrite]
        simp only [bind, Except.bind, hadd]
        exact hloop
      · rw [hbits, Lzw.encode, if_neg hmem, codeBits, codeBits, List.flatMap_cons, h.bitLength,
          List.append_assoc]
        simp only [htable]

/-- The pixels are written as codes, after the clear code. -/
theorem getLZWRaster_eq {data : List ℕ} (hdata : ∀ c ∈ data, c < 4) :
    ∃ bytes rest, getLZWRaster data 2 = .ok bytes ∧ (∀ c ∈ bytes, c < 256) ∧
      bytes.flatMap (low 8) = low 3 4 ++
        codeBits (Lzw.encode 0xfff initial [data.getD 0 0] data.tail) ++ rest := by
  have hfirst : data.getD 0 0 < 4 := by
    cases data with
    | nil => decide
    | cons c data => exact hdata c List.mem_cons_self
  have hwidth : 3 = width initial.length := by decide +kernel
  have hsize : initial.length ≤ 0xfff := by decide
  obtain ⟨bitOut, hclear, hholds⟩ := BitOut.holds_empty.write (by decide : 4 < 2 ^ 3)
  obtain ⟨st, bits, hloop, hat, hbits⟩ := rasterLoop_eq
    (fun c hc => hdata c (List.mem_of_mem_tail hc)) ⟨[data.getD 0 0], initial, 3, bitOut⟩
    ⟨hholds, hwidth, mem_initial _ hfirst, hsize, mem_initial⟩
  obtain ⟨bitOut₁, hlast, hholds₁⟩ := hat.holds.write hat.code_lt
  have hend : 5 < 2 ^ st.bitLength := by
    rw [hat.bitLength]
    exact Nat.lt_of_lt_of_le (by decide) (Nat.pow_le_pow_right (by decide) (Nat.le_max_left 3 _))
  obtain ⟨bitOut₂, hendcode, hholds₂⟩ := hholds₁.write hend
  obtain ⟨hbytes, rest, hflush⟩ := hholds₂.flush
  refine ⟨bitOut₂.flush, low st.bitLength 5 ++ rest, ?_, hbytes, ?_⟩
  · rw [getLZWRaster]
    simp only [setupTable_two, Nat.one_shiftLeft, Nat.reducePow, Nat.reduceAdd, bind, Except.bind,
      hclear, hloop, hlast, hendcode, pure, Except.pure]
  · rw [hflush, hbits, List.nil_append, List.append_assoc]

/-! ## Reading codes -/

/-- The pixels of codes, so many of them, as far as a reader gets by so many steps, with a table
    and the string of the last code, if there was one. -/
def readCodes : ℕ → LzwTable → Option (List ℕ) → ℕ → List Bool → Option (List ℕ)
  | 0, _, _, _, _ => none
  | n + 1, table, last, count, bits =>
    if count = 0 then some []
    else if bits.length < readWidth table.length then none
    else
      let code := Bits.value (bits.take (readWidth table.length))
      let bits := bits.drop (readWidth table.length)
      if code = 4 then readCodes n initial none count bits
      else if code = 5 then some []
      else match last with
        | none => table[code]?.bind fun s =>
          (readCodes n table (some s) (count - s.length) bits).map (s ++ ·)
        | some last => (Lzw.entry table last code).bind fun s =>
          (readCodes n (Lzw.grow 4096 table (last ++ s.take 1)) (some s) (count - s.length)
            bits).map (s ++ ·)

theorem value_take_low {w n : ℕ} (h : n < 2 ^ w) (rest : List Bool) :
    Bits.value ((low w n ++ rest).take w) = n := by
  rw [List.take_left' (Bits.length_low ..), Bits.value_low_of_lt h]

/-- A string of pixels has none of the codes that are no strings. -/
theorem code_ne {sent : LzwTable} {s : List ℕ} {i : ℕ} (hinitial : initial <+: sent)
    (hs : ∀ c ∈ s, c < 4) (hget : sent[i]? = some s) : i ≠ 4 ∧ i ≠ 5 := by
  have hcode : ∀ k < 6, sent[k]? = initial[k]? := by
    intro k hk
    obtain ⟨rest, rfl⟩ := hinitial
    exact List.getElem?_append_left hk
  constructor
  · rintro rfl
    rw [hcode 4 (by decide)] at hget
    exact absurd (hs 4 (Option.some.inj hget ▸ List.mem_singleton_self 4)) (by decide)
  · rintro rfl
    rw [hcode 5 (by decide)] at hget
    exact absurd (hs 5 (Option.some.inj hget ▸ List.mem_singleton_self 5)) (by decide)

/-- One code is read. -/
theorem readCodes_some {sent received : LzwTable} {last s : List ℕ} {n count : ℕ}
    (h : Lzw.Follows 0xfff sent received last s) (hlast : last ≠ []) (hinitial : initial <+: sent)
    (hs : ∀ c ∈ s, c < 4) (hmem : s ∈ sent) (hcount : count ≠ 0) (rest : List Bool) :
    readCodes (n + 1) received (some last) count
        (low (width sent.length) (sent.idxOf s) ++ rest) =
      (readCodes n (Lzw.grow 4096 received (last ++ s.take 1)) (some s) (count - s.length) rest).map
        (s ++ ·) := by
  have hlt := List.idxOf_lt_length_of_mem hmem
  have hget : sent[sent.idxOf s]? = some s := by
    rw [List.getElem?_eq_getElem hlt, List.getElem_idxOf hlt]
  obtain ⟨hclear, hend⟩ := code_ne hinitial hs hget
  have hwidth := readWidth_eq h
  have hcode := value_take_low (hlt.trans_le (le_two_pow_width _)) rest
  have hlen : ¬ (low (width sent.length) (sent.idxOf s) ++ rest).length < width sent.length := by
    rw [List.length_append, Bits.length_low]
    omega
  rw [readCodes, if_neg hcount, hwidth, if_neg hlen]
  simp only [hcode, if_neg hclear, if_neg hend, h.entry hlast hget,
    List.drop_left' (Bits.length_low _ _), Option.bind_some]

/-- The codes of strings are read. -/
theorem readCodes_encode (data : List ℕ) {sent received : LzwTable} {last s : List ℕ} {n : ℕ}
    (h : Lzw.Follows 0xfff sent received last s) (hlast : last ≠ []) (hinitial : initial <+: sent)
    (hpixels : ∀ c ∈ s ++ data, c < 4) (hs : s ≠ []) (hmem : s ∈ sent)
    (hn : (Lzw.encode 0xfff sent s data).length < n) (rest : List Bool) :
    readCodes n received (some last) (s ++ data).length
      (codeBits (Lzw.encode 0xfff sent s data) ++ rest) = some (s ++ data) := by
  induction data generalizing sent received last s n with
  | nil =>
    rw [Lzw.encode, List.length_singleton] at hn
    obtain ⟨n, rfl⟩ := Nat.exists_eq_add_of_le' hn
    rw [List.append_nil] at hpixels ⊢
    have hlen : s.length ≠ 0 := fun h0 => hs (List.length_eq_zero_iff.1 h0)
    rw [Lzw.encode, codeBits, List.flatMap_singleton,
      readCodes_some h hlast hinitial hpixels hmem hlen, Nat.sub_self, readCodes, if_pos rfl,
      Option.map_some, List.append_nil]
  | cons c data ih =>
    by_cases hlong : s ++ [c] ∈ sent
    · rw [Lzw.encode, if_pos hlong] at hn ⊢
      have hrest := ih (h.extend hs) hlast hinitial (by simpa using hpixels) (by simp) hlong hn
      simpa only [List.append_assoc, List.singleton_append] using hrest
    · -- The reader's table is one string behind, and catches up with the next code.
      rw [Lzw.encode, if_neg hlong, List.length_cons] at hn
      obtain ⟨n, rfl⟩ := Nat.exists_eq_add_of_le' (Nat.one_le_of_lt hn)
      have hgrow := hinitial.trans (Lzw.prefix_grow 0xfff sent (s ++ [c]))
      have hc : [c] ∈ Lzw.grow 0xfff sent (s ++ [c]) :=
        hgrow.subset (mem_initial c (hpixels c (by simp)))
      have hrest := ih (h.next (c := c) (by decide : 0xfff ≤ 4096)) hs hgrow
        (fun d hd => hpixels d (by simp_all)) (by simp) hc (Nat.lt_of_succ_lt_succ hn)
      have hlen : (s ++ c :: data).length ≠ 0 := by simp
      have hcount : (s ++ c :: data).length - s.length = ([c] ++ data).length := by simp
      rw [Lzw.encode, if_neg hlong, codeBits, List.flatMap_cons, ← codeBits, List.append_assoc,
        readCodes_some h hlast hinitial (fun d hd => hpixels d (List.mem_append_left _ hd)) hmem hlen,
        hcount, hrest]
      rfl

/-- The first code is read with no string before. -/
theorem readCodes_first {c : ℕ} {data : List ℕ} {n : ℕ} (hpixels : ∀ d ∈ c :: data, d < 4)
    (hn : (Lzw.encode 0xfff initial [c] data).length < n) (rest : List Bool) :
    readCodes n initial none (c :: data).length
      (codeBits (Lzw.encode 0xfff initial [c] data) ++ rest) = some (c :: data) := by
  rw [List.forall_mem_cons] at hpixels
  have hc : ∀ d ∈ [c], d < 4 := List.forall_mem_singleton.2 hpixels.1
  have hmem := mem_initial c hpixels.1
  have hlt := List.idxOf_lt_length_of_mem hmem
  have hget : initial[initial.idxOf [c]]? = some [c] := by
    rw [List.getElem?_eq_getElem hlt, List.getElem_idxOf hlt]
  obtain ⟨hclear, hend⟩ := code_ne List.prefix_rfl hc hget
  have hwidth : readWidth initial.length = width initial.length := by decide +kernel
  have hfirst : ∀ n rest, readCodes (n + 1) initial none (c :: data).length
      (low (width initial.length) (initial.idxOf [c]) ++ rest) =
      (readCodes n initial (some [c]) data.length rest).map ([c] ++ ·) := by
    intro n rest
    have hcode := value_take_low (hlt.trans_le (le_two_pow_width _)) rest
    have hlen : ¬ (low (width initial.length) (initial.idxOf [c]) ++ rest).length <
        width initial.length := by
      rw [List.length_append, Bits.length_low]
      omega
    have hcount : (c :: data).length - [c].length = data.length := by simp
    rw [readCodes, if_neg (by simp), hwidth, if_neg hlen]
    simp only [hcode, if_neg hclear, if_neg hend, hget, List.drop_left' (Bits.length_low _ _),
      Option.bind_some, hcount]
  obtain ⟨n, rfl⟩ := Nat.exists_eq_add_of_le' (Nat.one_le_of_lt hn)
  cases data with
  | nil =>
    rw [Lzw.encode, List.length_singleton] at hn
    obtain ⟨n, rfl⟩ := Nat.exists_eq_add_of_le' (Nat.lt_of_succ_lt_succ hn)
    rw [Lzw.encode, codeBits, List.flatMap_singleton, hfirst, List.length_nil, readCodes,
      if_pos rfl]
    rfl
  | cons d data =>
    -- No string of two is in the table yet, so the first code is that of one pixel.
    have hlong : [c] ++ [d] ∉ initial := by
      intro h
      have hone : ∀ s ∈ initial, s.length = 1 := by decide
      exact absurd (hone _ h) (by simp)
    rw [Lzw.encode, if_neg hlong, List.length_cons] at hn
    have hgrow : Lzw.grow 0xfff initial ([c] ++ [d]) = initial ++ [[c] ++ [d].take 1] := rfl
    have hd := hpixels.2 d List.mem_cons_self
    have hrest := readCodes_encode data (.behind hgrow (Lzw.length_grow_le (by decide)))
      (List.cons_ne_nil c []) (Lzw.prefix_grow ..) hpixels.2 (List.cons_ne_nil d [])
      ((Lzw.prefix_grow ..).subset (mem_initial d hd)) (Nat.lt_of_succ_lt_succ hn) rest
    rw [Lzw.encode, if_neg hlong, codeBits, List.flatMap_cons, ← codeBits, List.append_assoc, hfirst]
    exact congrArg (Option.map ([c] ++ ·)) hrest

theorem length_codeBits (codes : List (ℕ × ℕ)) : codes.length ≤ (codeBits codes).length := by
  induction codes with
  | nil => exact Nat.zero_le _
  | cons x codes ih =>
    have hthree : 3 ≤ width x.2 := Nat.le_max_left ..
    rw [codeBits, List.flatMap_cons, ← codeBits, List.length_append, Bits.length_low,
      List.length_cons]
    omega

/-- The pixels of compressed bytes, so many of them. -/
def readRaster (bytes : List ℕ) (count : ℕ) : Option (List ℕ) :=
  readCodes ((bytes.flatMap (low 8)).length + 1) initial none count (bytes.flatMap (low 8))

/-- The pixels are read again. -/
theorem readRaster_getLZWRaster (data : List ℕ) (hdata : ∀ c ∈ data, c < 4) :
    ∃ bytes, getLZWRaster data 2 = .ok bytes ∧ bytes ≠ [] ∧ (∀ c ∈ bytes, c < 256) ∧
      readRaster bytes data.length = some data := by
  obtain ⟨bytes, rest, hraster, hbytes, hbits⟩ := getLZWRaster_eq hdata
  have hne : bytes ≠ [] := by
    rintro rfl
    have hlen := congrArg List.length hbits
    simp at hlen
    omega
  refine ⟨bytes, hraster, hne, hbytes, ?_⟩
  cases data with
  | nil =>
    rw [readRaster, readCodes, if_pos (by simp)]
  | cons c data =>
    have hwidth : readWidth initial.length = 3 := by decide +kernel
    have hcode := value_take_low (w := 3) (n := 4) (by decide)
      (codeBits (Lzw.encode 0xfff initial [c] data) ++ rest)
    have hcodes := length_codeBits (Lzw.encode 0xfff initial [c] data)
    rw [List.getD_cons_zero, List.tail_cons, List.append_assoc] at hbits
    have hlen := congrArg List.length hbits
    rw [List.length_append, List.length_append, Bits.length_low] at hlen
    rw [readRaster, readCodes, if_neg (by simp), hwidth, if_neg (by omega), hbits]
    simp only [hcode, if_true, List.drop_left' (Bits.length_low _ _)]
    exact readCodes_first hdata (by rw [← hbits]; omega) rest

/-! ## Files -/

/-- `gifImage` -/
structure GifImage where
  width : ℕ
  height : ℕ
  data : List (Option ℕ)

namespace GifImage

/-- An image without pixels yet. -/
def new (width height : ℕ) : GifImage := ⟨width, height, List.replicate (width * height) none⟩

/-- `setPixel` -/
def setPixel (g : GifImage) (x y pixel : ℕ) : GifImage :=
  { g with data := g.data.set (y * g.width + x) (some pixel) }

/-- The blocks of the raster, from an offset on. -/
def writeBlocks (raster : List ℕ) (offset : ℕ) (out : ByteOut) : ByteOut :=
  if 255 < raster.length - offset then
    writeBlocks raster (offset + 255) ((out.writeByte 255).writeBytes raster offset 255)
  else
    ((out.writeByte (raster.length - offset)).writeBytes raster offset
      (raster.length - offset)).writeByte 0x00
termination_by raster.length - offset
decreasing_by
  omega

/-- What `write` writes before the raster. -/
def writeHeader (g : GifImage) (out : ByteOut) : ByteOut :=
  let out := out.writeString "GIF87a"
  let out := ((out.writeShort g.width).writeShort g.height)
  let out := ((out.writeByte 0x80).writeByte 0).writeByte 0
  let out := ((out.writeByte 0x00).writeByte 0x00).writeByte 0x00
  let out := ((out.writeByte 0xff).writeByte 0xff).writeByte 0xff
  let out := out.writeString ","
  let out := (((out.writeShort 0).writeShort 0).writeShort g.width).writeShort g.height
  out.writeByte 0

/-- `write`; a pixel that was not set counts as 0. -/
def write (g : GifImage) (out : ByteOut) : Except String ByteOut := do
  let out := g.writeHeader out
  let raster ← getLZWRaster (g.data.map (·.getD 0)) 2
  let out := out.writeByte 2
  return (writeBlocks raster 0 out).writeString ";"

end GifImage

/-- What a reader gets of a picture: its size, and the colors of its pixels. -/
structure Picture where
  width : ℕ
  height : ℕ
  pixels : List (ℕ × ℕ × ℕ)
  deriving DecidableEq

/-- The bytes of blocks, up to an empty one. -/
def readSubBlocks : List ℕ → List ℕ
  | [] => []
  | 0 :: _ => []
  | (n + 1) :: rest => rest.take (n + 1) ++ readSubBlocks (rest.drop (n + 1))
termination_by l => l.length
decreasing_by
  rw [List.length_drop, List.length_cons]
  omega

/-- A picture with two colors, of one image with no colors of its own. -/
def readGif (bytes : List ℕ) : Option Picture :=
  let byte := fun i => bytes.getD i 0
  if bytes.take 6 = "GIF87a".toList.map Char.toNat ∧ byte 10 = 0x80 ∧
      byte 19 = ','.toNat ∧ byte 28 = 0 ∧ byte 29 = 2 then
    let colors := [(byte 13, byte 14, byte 15), (byte 16, byte 17, byte 18)]
    let width := byte 24 + 256 * byte 25
    let height := byte 26 + 256 * byte 27
    (readRaster (readSubBlocks (bytes.drop 30)) (width * height)).map fun pixels =>
      ⟨width, height, pixels.map fun i => colors.getD i (0, 0, 0)⟩
  else none

/-- The two colors. -/
def color (pixel : ℕ) : ℕ × ℕ × ℕ := if pixel = 0 then (0, 0, 0) else (0xff, 0xff, 0xff)

/-! ## Reading files -/

theorem ByteOut.writeByte_of_lt {out : ByteOut} {b : ℕ} (h : b < 256) :
    out.writeByte b = out ++ [b] := by
  rw [writeByte, Nat.and_two_pow_sub_one_eq_mod _ 8, Nat.mod_eq_of_lt h]

theorem ByteOut.writeBytes_eq {out : ByteOut} {b : List ℕ} {off len : ℕ} (hb : ∀ c ∈ b, c < 256)
    (hlen : len ≠ 0) (hle : off + len ≤ b.length) :
    out.writeBytes b off len = out ++ (b.drop off).take len := by
  have hfold : ∀ k ≤ len, (List.range k).foldl
      (fun out i => writeByte out (b.getD (i + off) 0)) out = out ++ (b.drop off).take k := by
    intro k hk
    induction k with
    | zero => rw [List.take_zero, List.append_nil]; rfl
    | succ k ih =>
      have hlt : k + off < b.length := by omega
      have hget : (b.drop off)[k]? = some b[k + off] := by
        rw [List.getElem?_drop, Nat.add_comm, List.getElem?_eq_getElem hlt]
      rw [List.range_succ, List.foldl_append, ih (by omega), List.foldl_cons, List.foldl_nil,
        List.getD_eq_getElem _ _ hlt, writeByte_of_lt (hb _ (List.getElem_mem hlt)),
        List.append_assoc, List.take_add_one, hget]
      rfl
  rw [writeBytes, if_neg hlen]
  exact hfold len (Nat.le_refl _)

theorem readSubBlocks_cons {n : ℕ} (hn : n ≠ 0) (rest : List ℕ) :
    readSubBlocks (n :: rest) = rest.take n ++ readSubBlocks (rest.drop n) := by
  obtain ⟨n, rfl⟩ := Nat.exists_eq_succ_of_ne_zero hn
  rw [readSubBlocks]

/-- The bytes of the blocks are read again. -/
theorem writeBlocks_eq {raster : List ℕ} (hraster : ∀ c ∈ raster, c < 256) {offset : ℕ}
    (hoffset : offset < raster.length) (out : ByteOut) :
    ∃ blocks, GifImage.writeBlocks raster offset out = out ++ blocks ∧ (∀ c ∈ blocks, c < 256) ∧
      ∀ rest, readSubBlocks (blocks ++ rest) = raster.drop offset := by
  induction hk : raster.length - offset using Nat.strong_induction_on generalizing offset out with
  | h k ih =>
    rw [GifImage.writeBlocks]
    split
    · next hlong =>
      -- A block of 255 bytes, and those of the rest.
      obtain ⟨blocks, hblocks, hbytes, hread⟩ := ih (raster.length - (offset + 255)) (by omega)
        (Nat.add_lt_of_lt_sub' hlong) ((out.writeByte 255).writeBytes raster offset 255) rfl
      have hlen : ((raster.drop offset).take 255).length = 255 := by
        rw [List.length_take, List.length_drop]
        omega
      have hpart : ∀ c ∈ (raster.drop offset).take 255, c < 256 := fun c hc =>
        hraster c (List.mem_of_mem_drop (List.mem_of_mem_take hc))
      refine ⟨255 :: (raster.drop offset).take 255 ++ blocks, ?_, ?_, fun rest => ?_⟩
      · rw [hblocks, ByteOut.writeByte_of_lt (by decide),
          ByteOut.writeBytes_eq hraster (by decide) (by omega)]
        simp only [List.append_assoc, List.cons_append, List.nil_append]
      · rw [List.forall_mem_append, List.forall_mem_cons]
        exact ⟨⟨by decide, hpart⟩, hbytes⟩
      · rw [List.cons_append, List.cons_append, readSubBlocks_cons (by decide), List.append_assoc,
          List.take_left' hlen, List.drop_left' hlen, hread, ← List.drop_drop,
          List.take_append_drop]
    · next hshort =>
      -- The last block, which is not empty, and the one that ends them.
      have hlen : ((raster.drop offset).take (raster.length - offset)).length =
          raster.length - offset := by
        rw [List.length_take, List.length_drop, Nat.min_self]
      have htake : (raster.drop offset).take (raster.length - offset) = raster.drop offset := by
        rw [← List.length_drop, List.take_length]
      refine ⟨(raster.length - offset) :: raster.drop offset ++ [0], ?_, ?_, fun rest => ?_⟩
      · rw [ByteOut.writeByte_of_lt (b := 0x00) (by decide), ByteOut.writeByte_of_lt (by omega),
          ByteOut.writeBytes_eq hraster (by omega) (by omega), htake]
        simp only [List.append_assoc, List.cons_append, List.nil_append]
      · rw [List.forall_mem_append, List.forall_mem_cons, List.forall_mem_singleton]
        exact ⟨⟨by omega, fun c hc => hraster c (List.mem_of_mem_drop hc)⟩, by decide⟩
      · rw [htake] at hlen
        rw [List.cons_append, List.cons_append, readSubBlocks_cons (by omega), List.append_assoc,
          List.take_left' hlen, List.drop_left' hlen, List.singleton_append, readSubBlocks,
          List.append_nil]

theorem GifImage.writeHeader_eq (g : GifImage) : g.writeHeader [] =
    [0x47, 0x49, 0x46, 0x38, 0x37, 0x61, g.width &&& 0xff, (g.width >>> 8) &&& 0xff,
      g.height &&& 0xff, (g.height >>> 8) &&& 0xff, 0x80, 0, 0, 0, 0, 0, 0xff, 0xff, 0xff, 0x2c,
      0, 0, 0, 0, g.width &&& 0xff, (g.width >>> 8) &&& 0xff, g.height &&& 0xff,
      (g.height >>> 8) &&& 0xff, 0] := by
  have hsignature : "GIF87a".toList = ['G', 'I', 'F', '8', '7', 'a'] := by decide
  have hcomma : ",".toList = [','] := by decide
  rw [writeHeader]
  simp only [ByteOut.writeString, hsignature, hcomma, ByteOut.writeShort, ByteOut.writeByte,
    List.foldl_cons, List.foldl_nil, List.nil_append, List.cons_append]
  rfl

theorem word_eq {n : ℕ} (h : n < 65536) : (n &&& 0xff) + 256 * ((n >>> 8) &&& 0xff) = n := by
  rw [Nat.and_two_pow_sub_one_eq_mod _ 8, Nat.and_two_pow_sub_one_eq_mod _ 8,
    Nat.shiftRight_eq_div_pow]
  omega

/-- The picture that is read. -/
theorem readGif_write {g : GifImage} (hwidth : g.width < 65536) (hheight : g.height < 65536)
    (hlen : g.data.length = g.width * g.height) (hpixels : ∀ p ∈ g.data, p.getD 0 < 2) :
    ∃ bytes, g.write [] = .ok bytes ∧ (∀ c ∈ bytes, c < 256) ∧
      readGif bytes = some ⟨g.width, g.height, g.data.map fun p => color (p.getD 0)⟩ := by
  have hlt : ∀ c ∈ g.data.map (·.getD 0), c < 2 := by
    intro c hc
    obtain ⟨p, hp, rfl⟩ := List.mem_map.1 hc
    exact hpixels p hp
  obtain ⟨raster, hraster, hne, hbytes, hread⟩ := readRaster_getLZWRaster
    (g.data.map (·.getD 0)) fun c hc => (hlt c hc).trans (by decide)
  rw [List.length_map, hlen] at hread
  obtain ⟨blocks, hblocks, hblockBytes, hreadBlocks⟩ := writeBlocks_eq hbytes
    (List.length_pos_iff.2 hne) ((g.writeHeader []).writeByte 2)
  have hwrite : g.write [] = .ok (g.writeHeader [] ++ 2 :: (blocks ++ [0x3b])) := by
    have hend : ";".toList = [';'] := by decide
    rw [GifImage.write]
    simp only [hraster, bind, Except.bind, pure, Except.pure, hblocks, ByteOut.writeString, hend,
      List.foldl_cons, List.foldl_nil]
    rw [ByteOut.writeByte_of_lt (b := 2) (by decide), ByteOut.writeByte_of_lt (by decide)]
    simp only [List.append_assoc, List.cons_append, List.nil_append]
    rfl
  refine ⟨_, hwrite, ?_, ?_⟩
  · -- Every field of the header is one byte.
    have hmask : ∀ n, n &&& 0xff < 256 := fun n => Nat.lt_of_le_of_lt Nat.and_le_right (by decide)
    have hrest : ∀ c ∈ 2 :: (blocks ++ [0x3b]), c < 256 := by
      rw [List.forall_mem_cons, List.forall_mem_append, List.forall_mem_singleton]
      exact ⟨by decide, hblockBytes, by decide⟩
    rw [List.forall_mem_append]
    refine ⟨?_, hrest⟩
    rw [g.writeHeader_eq]
    simp [hmask]
  · have hsignature : "GIF87a".toList.map Char.toNat = [0x47, 0x49, 0x46, 0x38, 0x37, 0x61] := by
      decide
    have hcolors : ∀ c < 2, [((0 : ℕ), (0 : ℕ), (0 : ℕ)), (0xff, 0xff, 0xff)].getD c (0, 0, 0) =
        color c := by decide
    rw [g.writeHeader_eq, readGif]
    simp only [hsignature, List.cons_append, List.nil_append, List.take_succ_cons, List.take_zero,
      List.getD_cons_succ, List.getD_cons_zero, List.drop_succ_cons, List.drop_zero]
    rw [if_pos ⟨trivial, trivial, by decide, trivial, trivial⟩, word_eq hwidth, word_eq hheight,
      hreadBlocks, List.drop_zero, hread, Option.map_some, List.map_map]
    have hpicture : g.data.map ((fun i => [((0 : ℕ), (0 : ℕ), (0 : ℕ)), (0xff, 0xff, 0xff)].getD i
        (0, 0, 0)) ∘ (·.getD 0)) = g.data.map fun p => color (p.getD 0) :=
      List.map_congr_left fun p hp => hcolors _ (hpixels p hp)
    rw [hpicture]

/-! ## Pixels -/

/-- The pixels of a row are set one after the other. -/
theorem setPixel_row {width height y k : ℕ} {done : List (Option ℕ)} (f : ℕ → ℕ)
    (hdone : done.length = y * width) {x : ℕ} (hx : x ≤ k) :
    (List.range x).foldl (fun g x => GifImage.setPixel g x y (f x))
      ⟨width, height, done ++ List.replicate k none⟩ =
    ⟨width, height, done ++ (List.range x).map (fun x => some (f x)) ++
      List.replicate (k - x) none⟩ := by
  induction x with
  | zero => simp
  | succ x ih =>
    have hk : k - x = k - (x + 1) + 1 := by omega
    have hpos : y * width + x = (done ++ (List.range x).map fun x => some (f x)).length := by
      rw [List.length_append, List.length_map, List.length_range, hdone]
    rw [List.range_succ, List.foldl_append, ih (by omega), List.foldl_cons, List.foldl_nil,
      GifImage.setPixel, hk, List.replicate_succ]
    have hset : ∀ (l rest : List (Option ℕ)) (p : Option ℕ),
        (l ++ none :: rest).set l.length p = l ++ p :: rest := by
      intro l rest p
      rw [List.set_append_right _ _ (Nat.le_refl _), Nat.sub_self, List.set_cons_zero]
    simp only [hpos, hset]
    simp only [List.map_append, List.map_cons, List.map_nil, List.append_assoc, List.cons_append,
      List.nil_append]

/-- All pixels are set, row by row. -/
theorem setPixel_rows (width height : ℕ) (f : ℕ → ℕ → ℕ) {y : ℕ} (hy : y ≤ height) :
    (List.range y).foldl (fun g y => (List.range width).foldl
      (fun g x => GifImage.setPixel g x y (f x y)) g) (GifImage.new width height) =
    ⟨width, height, ((List.range y).flatMap fun y => (List.range width).map fun x => some (f x y)) ++
      List.replicate ((height - y) * width) none⟩ := by
  induction y with
  | zero => simp [GifImage.new, Nat.mul_comm]
  | succ y ih =>
    have hdone : ((List.range y).flatMap fun y =>
        (List.range width).map fun x => some (f x y)).length = y * width := by
      simp [List.length_flatMap]
    have hrest : (height - y) * width = width + (height - (y + 1)) * width := by
      rw [show height - y = height - (y + 1) + 1 by omega, Nat.succ_mul, Nat.add_comm]
    rw [List.range_succ, List.foldl_append, ih (by omega), List.foldl_cons, List.foldl_nil,
      setPixel_row (fun x => f x y) hdone (by rw [hrest]; exact Nat.le_add_right ..), hrest,
      Nat.add_sub_cancel_left, List.flatMap_append, List.flatMap_singleton]

end IrohWebrtc.Qr
