import IrohWebrtc.Lib.Interleave
import IrohWebrtc.Qr.Polynomial

/-!
# Blocks of the QR code generator

The bytes of a symbol are in blocks (`QRRSBlock` of `qrcode.js`), each with the remainder of
its data after them, so that it is a codeword (`blockEc_eq`). The blocks are sent by columns,
first the data and then the remainders (`createBytes`).

* `createBytes_eq`: bytes are found, as many as the table says, and who reads the blocks out
  of them gets codewords, with the data of the buffer.
* `correct`: also when some bytes of each block are damaged, half as many as it has for that
  at most, no other codewords are as near.
-/

namespace IrohWebrtc.Qr

open Gf (α)
open ReedSolomon (eval IsCodeword)
open Interleave (interleave deinterleave)

/-! ## Table -/

/-- `QRErrorCorrectionLevel` -/
inductive QRErrorCorrectionLevel
  | L | M | Q | H
  deriving DecidableEq

/-- The numbers of the levels. -/
def QRErrorCorrectionLevel.value : QRErrorCorrectionLevel → ℕ
  | L => 1
  | M => 0
  | Q => 3
  | H => 2

/-- `RS_BLOCK_TABLE`: by versions, and by levels in each; how many blocks there are, of how many
    bytes, and how many of these are data. -/
def rsBlockTable : List (List ℕ) :=
  [
    [1, 26, 19], [1, 26, 16], [1, 26, 13], [1, 26, 9],
    [1, 44, 34], [1, 44, 28], [1, 44, 22], [1, 44, 16],
    [1, 70, 55], [1, 70, 44], [2, 35, 17], [2, 35, 13],
    [1, 100, 80], [2, 50, 32], [2, 50, 24], [4, 25, 9],
    [1, 134, 108], [2, 67, 43], [2, 33, 15, 2, 34, 16], [2, 33, 11, 2, 34, 12],
    [2, 86, 68], [4, 43, 27], [4, 43, 19], [4, 43, 15],
    [2, 98, 78], [4, 49, 31], [2, 32, 14, 4, 33, 15], [4, 39, 13, 1, 40, 14],
    [2, 121, 97], [2, 60, 38, 2, 61, 39], [4, 40, 18, 2, 41, 19], [4, 40, 14, 2, 41, 15],
    [2, 146, 116], [3, 58, 36, 2, 59, 37], [4, 36, 16, 4, 37, 17], [4, 36, 12, 4, 37, 13],
    [2, 86, 68, 2, 87, 69], [4, 69, 43, 1, 70, 44], [6, 43, 19, 2, 44, 20], [6, 43, 15, 2, 44, 16],
    [4, 101, 81], [1, 80, 50, 4, 81, 51], [4, 50, 22, 4, 51, 23], [3, 36, 12, 8, 37, 13],
    [2, 116, 92, 2, 117, 93], [6, 58, 36, 2, 59, 37],
    [4, 46, 20, 6, 47, 21], [7, 42, 14, 4, 43, 15],
    [4, 133, 107], [8, 59, 37, 1, 60, 38], [8, 44, 20, 4, 45, 21], [12, 33, 11, 4, 34, 12],
    [3, 145, 115, 1, 146, 116], [4, 64, 40, 5, 65, 41],
    [11, 36, 16, 5, 37, 17], [11, 36, 12, 5, 37, 13],
    [5, 109, 87, 1, 110, 88], [5, 65, 41, 5, 66, 42],
    [5, 54, 24, 7, 55, 25], [11, 36, 12, 7, 37, 13],
    [5, 122, 98, 1, 123, 99], [7, 73, 45, 3, 74, 46],
    [15, 43, 19, 2, 44, 20], [3, 45, 15, 13, 46, 16],
    [1, 135, 107, 5, 136, 108], [10, 74, 46, 1, 75, 47],
    [1, 50, 22, 15, 51, 23], [2, 42, 14, 17, 43, 15],
    [5, 150, 120, 1, 151, 121], [9, 69, 43, 4, 70, 44],
    [17, 50, 22, 1, 51, 23], [2, 42, 14, 19, 43, 15],
    [3, 141, 113, 4, 142, 114], [3, 70, 44, 11, 71, 45],
    [17, 47, 21, 4, 48, 22], [9, 39, 13, 16, 40, 14],
    [3, 135, 107, 5, 136, 108], [3, 67, 41, 13, 68, 42],
    [15, 54, 24, 5, 55, 25], [15, 43, 15, 10, 44, 16],
    [4, 144, 116, 4, 145, 117], [17, 68, 42], [17, 50, 22, 6, 51, 23], [19, 46, 16, 6, 47, 17],
    [2, 139, 111, 7, 140, 112], [17, 74, 46], [7, 54, 24, 16, 55, 25], [34, 37, 13],
    [4, 151, 121, 5, 152, 122], [4, 75, 47, 14, 76, 48],
    [11, 54, 24, 14, 55, 25], [16, 45, 15, 14, 46, 16],
    [6, 147, 117, 4, 148, 118], [6, 73, 45, 14, 74, 46],
    [11, 54, 24, 16, 55, 25], [30, 46, 16, 2, 47, 17],
    [8, 132, 106, 4, 133, 107], [8, 75, 47, 13, 76, 48],
    [7, 54, 24, 22, 55, 25], [22, 45, 15, 13, 46, 16],
    [10, 142, 114, 2, 143, 115], [19, 74, 46, 4, 75, 47],
    [28, 50, 22, 6, 51, 23], [33, 46, 16, 4, 47, 17],
    [8, 152, 122, 4, 153, 123], [22, 73, 45, 3, 74, 46],
    [8, 53, 23, 26, 54, 24], [12, 45, 15, 28, 46, 16],
    [3, 147, 117, 10, 148, 118], [3, 73, 45, 23, 74, 46],
    [4, 54, 24, 31, 55, 25], [11, 45, 15, 31, 46, 16],
    [7, 146, 116, 7, 147, 117], [21, 73, 45, 7, 74, 46],
    [1, 53, 23, 37, 54, 24], [19, 45, 15, 26, 46, 16],
    [5, 145, 115, 10, 146, 116], [19, 75, 47, 10, 76, 48],
    [15, 54, 24, 25, 55, 25], [23, 45, 15, 25, 46, 16],
    [13, 145, 115, 3, 146, 116], [2, 74, 46, 29, 75, 47],
    [42, 54, 24, 1, 55, 25], [23, 45, 15, 28, 46, 16],
    [17, 145, 115], [10, 74, 46, 23, 75, 47], [10, 54, 24, 35, 55, 25], [19, 45, 15, 35, 46, 16],
    [17, 145, 115, 1, 146, 116], [14, 74, 46, 21, 75, 47],
    [29, 54, 24, 19, 55, 25], [11, 45, 15, 46, 46, 16],
    [13, 145, 115, 6, 146, 116], [14, 74, 46, 23, 75, 47],
    [44, 54, 24, 7, 55, 25], [59, 46, 16, 1, 47, 17],
    [12, 151, 121, 7, 152, 122], [12, 75, 47, 26, 76, 48],
    [39, 54, 24, 14, 55, 25], [22, 45, 15, 41, 46, 16],
    [6, 151, 121, 14, 152, 122], [6, 75, 47, 34, 76, 48],
    [46, 54, 24, 10, 55, 25], [2, 45, 15, 64, 46, 16],
    [17, 152, 122, 4, 153, 123], [29, 74, 46, 14, 75, 47],
    [49, 54, 24, 10, 55, 25], [24, 45, 15, 46, 46, 16],
    [4, 152, 122, 18, 153, 123], [13, 74, 46, 32, 75, 47],
    [48, 54, 24, 14, 55, 25], [42, 45, 15, 32, 46, 16],
    [20, 147, 117, 4, 148, 118], [40, 75, 47, 7, 76, 48],
    [43, 54, 24, 22, 55, 25], [10, 45, 15, 67, 46, 16],
    [19, 148, 118, 6, 149, 119], [18, 75, 47, 31, 76, 48],
    [34, 54, 24, 34, 55, 25], [20, 45, 15, 61, 46, 16]]

/-- `qrRSBlock` -/
structure RsBlock where
  totalCount : ℕ
  dataCount : ℕ
  deriving DecidableEq

/-- `getRsBlockTable` -/
def getRsBlockTable (typeNumber : ℕ) (level : QRErrorCorrectionLevel) : Option (List ℕ) :=
  if typeNumber = 0 then none
  else match level with
    | .L => rsBlockTable[(typeNumber - 1) * 4 + 0]?
    | .M => rsBlockTable[(typeNumber - 1) * 4 + 1]?
    | .Q => rsBlockTable[(typeNumber - 1) * 4 + 2]?
    | .H => rsBlockTable[(typeNumber - 1) * 4 + 3]?

/-- The blocks of a row of the table. -/
def rsBlocks : List ℕ → List RsBlock
  | count :: totalCount :: dataCount :: row =>
    List.replicate count ⟨totalCount, dataCount⟩ ++ rsBlocks row
  | _ => []

/-- `getRSBlocks` -/
def getRSBlocks (typeNumber : ℕ) (level : QRErrorCorrectionLevel) : Except String (List RsBlock) :=
  match getRsBlockTable typeNumber level with
  | some row => .ok (rsBlocks row)
  | none => .error s!"bad rs block @ typeNumber:{typeNumber}/errorCorrectionLevel:{level.value}"

namespace RsBlock

/-- The bytes that are not data. -/
def ecCount (b : RsBlock) : ℕ := b.totalCount - b.dataCount

/-- The data leave room, and the powers of the generator are distinct as far as a block goes. -/
structure Fits (b : RsBlock) : Prop where
  pos : 0 < b.dataCount
  le : b.dataCount ≤ b.totalCount
  lt : b.totalCount < 256

instance (b : RsBlock) : Decidable b.Fits :=
  decidable_of_iff (0 < b.dataCount ∧ b.dataCount ≤ b.totalCount ∧ b.totalCount < 256)
    ⟨fun h => ⟨h.1, h.2.1, h.2.2⟩, fun h => ⟨h.pos, h.le, h.lt⟩⟩

theorem Fits.ecCount_lt {b : RsBlock} (h : b.Fits) : b.ecCount < 255 := by
  have := h.pos
  have := h.le
  have := h.lt
  rw [ecCount]
  omega

theorem Fits.add_ecCount {b : RsBlock} (h : b.Fits) : b.dataCount + b.ecCount = b.totalCount :=
  Nat.add_sub_cancel' h.le

end RsBlock

theorem fits_table : ∀ row ∈ rsBlockTable, ∀ b ∈ rsBlocks row, b.Fits := by
  decide +kernel

/-- The row of the table that blocks are of. -/
theorem getRSBlocks_eq {typeNumber : ℕ} {level : QRErrorCorrectionLevel} {bs : List RsBlock}
    (h : getRSBlocks typeNumber level = .ok bs) : 1 ≤ typeNumber ∧ ∃ k < 4, ∃ row,
      rsBlockTable[(typeNumber - 1) * 4 + k]? = some row ∧ bs = rsBlocks row := by
  rw [getRSBlocks] at h
  cases hrow : getRsBlockTable typeNumber level with
  | none =>
    rw [hrow] at h
    cases h
  | some row =>
    rw [hrow] at h
    cases h
    by_cases h0 : typeNumber = 0
    · rw [getRsBlockTable.eq_def, if_pos h0] at hrow
      cases hrow
    · rw [getRsBlockTable.eq_def, if_neg h0] at hrow
      refine ⟨Nat.one_le_iff_ne_zero.2 h0, ?_⟩
      cases level with
      | L => exact ⟨0, by decide, row, hrow, rfl⟩
      | M => exact ⟨1, by decide, row, hrow, rfl⟩
      | Q => exact ⟨2, by decide, row, hrow, rfl⟩
      | H => exact ⟨3, by decide, row, hrow, rfl⟩

/-- All blocks of the table fit. -/
theorem fits_of_getRSBlocks {typeNumber : ℕ} {level : QRErrorCorrectionLevel} {bs : List RsBlock}
    (h : getRSBlocks typeNumber level = .ok bs) : ∀ b ∈ bs, b.Fits := by
  obtain ⟨-, k, -, row, hrow, rfl⟩ := getRSBlocks_eq h
  exact fits_table row (List.mem_of_getElem? hrow)

/-! ## Bytes -/

/-- The data of a block; `0xff & undefined` is 0. -/
def blockData (buffer : List ℕ) (offset dcCount : ℕ) : List ℕ :=
  (List.range dcCount).map fun i => 0xff &&& buffer.getD (i + offset) 0

/-- The other bytes of a block. The polynomials get shorter from call to call, so that the
    calls of `mod` are no more than there are coefficients. -/
def blockEc (dcdata : List ℕ) (ecCount : ℕ) : Except String (List (Option ℕ)) := do
  let rsPoly ← getErrorCorrectPolynomial ecCount
  let rawPoly := qrPolynomial (dcdata.map some) (rsPoly.length - 1)
  let modPoly ← mod (rawPoly.length + 1) rawPoly rsPoly
  return (List.range (rsPoly.length - 1)).map fun i =>
    if rsPoly.length - 1 ≤ i + modPoly.length then
      modPoly.getD (i + modPoly.length - (rsPoly.length - 1)) none
    else some 0

/-- `dcdata` and `ecdata`, from an offset on. -/
def blockRows (buffer : List ℕ) : ℕ → List RsBlock →
    Except String (List (List ℕ × List (Option ℕ)))
  | _, [] => .ok []
  | offset, b :: bs => do
    let dcdata := blockData buffer offset b.dataCount
    let ecdata ← blockEc dcdata b.ecCount
    return (dcdata, ecdata) :: (← blockRows buffer (offset + b.dataCount) bs)

/-- `Math.max` of the counts of blocks. -/
def maxCount (count : RsBlock → ℕ) (bs : List RsBlock) : ℕ :=
  bs.foldl (fun m b => max m (count b)) 0

/-- `createBytes` -/
def createBytes (buffer : List ℕ) (bs : List RsBlock) : Except String (List (Option ℕ)) := do
  let rows ← blockRows buffer 0 bs
  return interleave (maxCount RsBlock.dataCount bs) (rows.map fun row => row.1.map some) ++
    interleave (maxCount RsBlock.ecCount bs) (rows.map (·.2))

/-! ## Codewords -/

theorem getElem?_append_replicate_ne {num : List ℕ} {n k : ℕ} (h : k + n < num.length + n) :
    (num.map some ++ List.replicate n (none : Option ℕ))[k]? ≠ some none := by
  have hk : k < num.length := by omega
  rw [List.getElem?_append_left (by rwa [List.length_map]), List.getElem?_map,
    List.getElem?_eq_getElem hk]
  exact fun heq => Option.some_ne_none _ (Option.some.inj heq)

theorem eval_shift (num : Coeffs) (n : ℕ) (x : Gf) :
    eval (elements (qrPolynomial num n)) x = eval (elements num) x * x ^ n := by
  rw [qrPolynomial, elements_append, ReedSolomon.eval_append, eval_dropWhile,
    elements_replicate_none, ReedSolomon.eval_replicate, add_zero, List.length_replicate]

/-- A shorter remainder is filled up. -/
theorem fill_eq {r : Coeffs} {n : ℕ} (h : r.length ≤ n) :
    ((List.range n).map fun i => if n ≤ i + r.length then r.getD (i + r.length - n) none else some 0)
      = List.replicate (n - r.length) (some 0) ++ r := by
  refine List.ext_getElem (by simp; omega) fun i hi hi' => ?_
  rw [List.getElem_map, List.getElem_range]
  split
  · rw [List.getElem_append_right (by simp; omega), List.getD_eq_getElem _ _ (by simp at hi; omega)]
    congr 1
    simp
    omega
  · rw [List.getElem_append_left (by simp; omega), List.getElem_replicate]

/-- A block is a codeword. -/
theorem blockEc_eq (dcdata : List ℕ) {n : ℕ} (hd : ∀ c ∈ dcdata, c < 256) (hn : n < 255) :
    ∃ ec, blockEc dcdata n = .ok ec ∧ ec.length = n ∧ AllBytes ec ∧
      IsCodeword α n (elements (dcdata.map some ++ ec)) := by
  obtain ⟨g, hg, hglen, hfull, hroots⟩ := getErrorCorrectPolynomial_eq hn
  have hbytes : AllBytes (dcdata.map some) := by
    intro c hc
    obtain ⟨m, hm, rfl⟩ := List.mem_map.1 hc
    exact hd m hm
  have hready : Ready n (qrPolynomial (dcdata.map some) n) :=
    ready_qrPolynomial hbytes fun k hk =>
      getElem?_append_replicate_ne (by simpa only [List.length_map] using hk)
  obtain ⟨r, hr, hrlen, hrb, hre⟩ := mod_eq hfull hglen hready (Nat.lt_succ_self _)
  refine ⟨List.replicate (n - r.length) (some 0) ++ r, ?_, ?_, ?_, ?_⟩
  · rw [blockEc, hg]
    simp only [bind, Except.bind, pure, Except.pure, hglen, Nat.add_sub_cancel, hr]
    rw [fill_eq hrlen]
  · rw [List.length_append, List.length_replicate, Nat.sub_add_cancel hrlen]
  · intro c hc
    rcases List.mem_append.1 hc with hc | hc
    · rw [List.eq_of_mem_replicate hc]
      exact isByte_none
    · exact hrb c hc
  · intro j hj
    have hzero : elements (List.replicate (n - r.length) (some 0)) =
        List.replicate (n - r.length) 0 := List.map_replicate
    -- the data and their remainder cancel
    rw [elements_append, elements_append, hzero, ReedSolomon.eval_append,
      ReedSolomon.eval_replicate_append, hre _ (hroots j hj), eval_shift, List.length_append,
      List.length_replicate, length_elements, Nat.sub_add_cancel hrlen, Gf.add_self]

/-- What a block is on a symbol: a codeword of bytes. -/
structure RsBlock.IsWord (b : RsBlock) (w : List ℕ) : Prop where
  length : w.length = b.totalCount
  bytes : ∀ c ∈ w, c < 256
  codeword : IsCodeword α b.ecCount (elements (w.map some))

/-- The bytes of the parts of a block. -/
def wordOf (row : List ℕ × List (Option ℕ)) : List ℕ := row.1 ++ row.2.map (·.getD 0)

/-- How a block is made up. -/
structure RsBlock.IsRow (b : RsBlock) (row : List ℕ × List (Option ℕ)) : Prop where
  dataLength : row.1.length = b.dataCount
  ecLength : row.2.length = b.ecCount
  ecBytes : AllBytes row.2
  word : b.IsWord (wordOf row)

theorem elements_map_getD (p : Coeffs) : elements ((p.map (·.getD 0)).map some) = elements p := by
  rw [elements, elements, List.map_map, List.map_map]
  rfl

theorem blockData_lt {buffer : List ℕ} {offset n : ℕ} :
    ∀ c ∈ blockData buffer offset n, c < 256 := by
  intro c hc
  obtain ⟨i, -, rfl⟩ := List.mem_map.1 hc
  exact Nat.lt_of_le_of_lt Nat.and_le_left (by decide)

theorem blockData_add (buffer : List ℕ) (offset m n : ℕ) : blockData buffer offset (m + n) =
    blockData buffer offset m ++ blockData buffer (offset + m) n := by
  rw [blockData, blockData, blockData, List.range_add, List.map_append, List.map_map]
  congr 1
  refine List.map_congr_left fun i _ => ?_
  rw [Function.comp_apply, show m + i + offset = i + (offset + m) by omega]

theorem isRow_of_blockEc {b : RsBlock} (h : b.Fits) (buffer : List ℕ) (offset : ℕ) :
    ∃ ec, blockEc (blockData buffer offset b.dataCount) b.ecCount = .ok ec ∧
      b.IsRow (blockData buffer offset b.dataCount, ec) := by
  have hlen : (blockData buffer offset b.dataCount).length = b.dataCount := by simp [blockData]
  obtain ⟨ec, hec, heclen, hb, hcode⟩ :=
    blockEc_eq (blockData buffer offset b.dataCount) blockData_lt h.ecCount_lt
  refine ⟨ec, hec, hlen, heclen, hb, ?_, ?_, ?_⟩
  · rw [wordOf, List.length_append, List.length_map, heclen, hlen, h.add_ecCount]
  · intro c hc
    rcases List.mem_append.1 hc with hc | hc
    · exact blockData_lt c hc
    · obtain ⟨d, hd, rfl⟩ := List.mem_map.1 hc
      exact hb d hd
  · rwa [wordOf, List.map_append, elements_append, elements_map_getD, ← elements_append]

theorem blockRows_eq {bs : List RsBlock} (h : ∀ b ∈ bs, b.Fits) (buffer : List ℕ) (offset : ℕ) :
    ∃ rows, blockRows buffer offset bs = .ok rows ∧ List.Forall₂ RsBlock.IsRow bs rows ∧
      (rows.map (·.1)).flatten = blockData buffer offset (bs.map RsBlock.dataCount).sum := by
  induction bs generalizing offset with
  | nil => exact ⟨[], rfl, .nil, rfl⟩
  | cons b bs ih =>
    rw [List.forall_mem_cons] at h
    obtain ⟨ec, hec, hrow⟩ := isRow_of_blockEc h.1 buffer offset
    obtain ⟨rows, hrows, hall, hflat⟩ := ih h.2 (offset + b.dataCount)
    refine ⟨(blockData buffer offset b.dataCount, ec) :: rows, ?_, .cons hrow hall, ?_⟩
    · rw [blockRows]
      simp only [hec, hrows, bind, Except.bind, pure, Except.pure]
    · rw [List.map_cons, List.flatten_cons, hflat, List.map_cons, List.sum_cons, blockData_add]

/-! ## Reading -/

/-- The blocks that are read out of the bytes of a symbol. -/
def readBlocks (bs : List RsBlock) (data : List ℕ) : List (List ℕ) :=
  List.zipWith (· ++ ·)
    (deinterleave (maxCount RsBlock.dataCount bs) (bs.map RsBlock.dataCount) 0 data)
    (deinterleave (maxCount RsBlock.ecCount bs) (bs.map RsBlock.ecCount) 0
      (data.drop (bs.map RsBlock.dataCount).sum))

/-- The data of blocks. -/
def dataOf (bs : List RsBlock) (words : List (List ℕ)) : List ℕ :=
  (List.zipWith (fun b w => w.take b.dataCount) bs words).flatten

theorem le_maxCount (count : RsBlock → ℕ) {bs : List RsBlock} {b : RsBlock} (h : b ∈ bs) :
    count b ≤ maxCount count bs := by
  have hfold : ∀ (bs : List RsBlock) (m : ℕ), m ≤ bs.foldl (fun m b => max m (count b)) m ∧
      ∀ b ∈ bs, count b ≤ bs.foldl (fun m b => max m (count b)) m := by
    intro bs
    induction bs with
    | nil => exact fun m => ⟨Nat.le_refl m, fun _ hb => absurd hb List.not_mem_nil⟩
    | cons b bs ih =>
      intro m
      obtain ⟨hle, hall⟩ := ih (max m (count b))
      refine ⟨(Nat.le_max_left ..).trans hle, List.forall_mem_cons.2 ⟨?_, hall⟩⟩
      exact (Nat.le_max_right ..).trans hle
  exact (hfold bs 0).2 b h

theorem exists_isRow {bs : List RsBlock} {rows : List (List ℕ × List (Option ℕ))}
    (h : List.Forall₂ RsBlock.IsRow bs rows) : ∀ row ∈ rows, ∃ b : RsBlock, b.IsRow row := by
  induction h with
  | nil => exact fun _ hrow => absurd hrow List.not_mem_nil
  | cons hb _ ih => exact List.forall_mem_cons.2 ⟨⟨_, hb⟩, ih⟩

/-- The rows of some part of the blocks, with the lengths that the table says. -/
theorem lengths_of_rows {bs : List RsBlock} {rows : List (List ℕ × List (Option ℕ))}
    {γ : Type*} (part : List ℕ × List (Option ℕ) → List γ) (count : RsBlock → ℕ)
    (h : List.Forall₂ (fun b row => (part row).length = count b) bs rows) :
    (rows.map part).map List.length = bs.map count ∧
      ∀ row ∈ rows.map part, row.length ≤ maxCount count bs := by
  have hmap : (rows.map part).map List.length = bs.map count := by
    induction h with
    | nil => rfl
    | cons hb _ ih => rw [List.map_cons, List.map_cons, List.map_cons, ih, hb]
  refine ⟨hmap, fun row hrow => ?_⟩
  have hmem := List.mem_map_of_mem (f := List.length) hrow
  rw [hmap] at hmem
  obtain ⟨b, hb, heq⟩ := List.mem_map.1 hmem
  exact heq ▸ le_maxCount count hb

theorem zipWith_words (rows : List (List ℕ × List (Option ℕ))) :
    List.zipWith (· ++ ·) (rows.map (·.1)) (rows.map fun row => row.2.map (·.getD 0)) =
      rows.map wordOf := by
  rw [List.zipWith_map, List.zipWith_self]
  rfl

theorem dataOf_words {bs : List RsBlock} {rows : List (List ℕ × List (Option ℕ))}
    (h : List.Forall₂ RsBlock.IsRow bs rows) :
    dataOf bs (rows.map wordOf) = (rows.map (·.1)).flatten := by
  induction h with
  | nil => rfl
  | @cons b row _ _ hb _ ih =>
    have htake : (wordOf row).take b.dataCount = row.1 := by
      rw [wordOf, ← hb.dataLength, List.take_left]
    rw [dataOf] at ih ⊢
    rw [List.map_cons, List.zipWith_cons_cons, List.flatten_cons, ih, htake]
    rfl

/-- The bytes are found, and who reads the blocks out of them gets codewords with the data. -/
theorem createBytes_eq {bs : List RsBlock} (h : ∀ b ∈ bs, b.Fits) (buffer : List ℕ) :
    ∃ data words, createBytes buffer bs = .ok data ∧ AllBytes data ∧
      data.length = (bs.map RsBlock.totalCount).sum ∧
      readBlocks bs (data.map (·.getD 0)) = words ∧ List.Forall₂ RsBlock.IsWord bs words ∧
      dataOf bs words = blockData buffer 0 (bs.map RsBlock.dataCount).sum := by
  obtain ⟨rows, hrows, hall, hflat⟩ := blockRows_eq h buffer 0
  obtain ⟨hdata, hdataMax⟩ := lengths_of_rows (·.1) RsBlock.dataCount
    (hall.imp fun _ _ h => h.dataLength)
  obtain ⟨hec, hecMax⟩ := lengths_of_rows (fun row => row.2.map (·.getD 0))
    RsBlock.ecCount (hall.imp fun _ _ h => (List.length_map _).trans h.ecLength)
  -- The bytes that are sent, without the undefined ones among the remainders.
  have hsent : (interleave (maxCount RsBlock.dataCount bs) (rows.map fun row => row.1.map some) ++
      interleave (maxCount RsBlock.ecCount bs) (rows.map (·.2))).map (·.getD 0) =
      interleave (maxCount RsBlock.dataCount bs) (rows.map (·.1)) ++
        interleave (maxCount RsBlock.ecCount bs) (rows.map fun row => row.2.map (·.getD 0)) := by
    rw [List.map_append, Interleave.map_interleave, Interleave.map_interleave, List.map_map,
      List.map_map]
    congr 2
    refine List.map_congr_left fun row _ => ?_
    rw [Function.comp_apply, List.map_map]
    exact List.map_id _
  have hdataLen := Interleave.length_interleave hdataMax
  have hecLen := Interleave.length_interleave hecMax
  have hcreate : createBytes buffer bs = .ok
      (interleave (maxCount RsBlock.dataCount bs) (rows.map fun row => row.1.map some) ++
        interleave (maxCount RsBlock.ecCount bs) (rows.map (·.2))) := by
    rw [createBytes]
    simp only [hrows, bind, Except.bind, pure, Except.pure]
  refine ⟨_, rows.map wordOf, hcreate, ?_, ?_, ?_, ?_, ?_⟩
  · have hbytes : ∀ row ∈ rows, AllBytes (row.1.map some) ∧ AllBytes row.2 := by
      intro row hrow
      obtain ⟨b, hb⟩ := exists_isRow hall row hrow
      refine ⟨fun c hc => ?_, hb.ecBytes⟩
      obtain ⟨d, hd, rfl⟩ := List.mem_map.1 hc
      exact hb.word.bytes d (List.mem_append_left _ hd)
    intro c hc
    rcases List.mem_append.1 hc with hc | hc
    · obtain ⟨part, hpart, hc⟩ := Interleave.mem_interleave hc
      obtain ⟨row, hrow, rfl⟩ := List.mem_map.1 hpart
      exact (hbytes row hrow).1 c hc
    · obtain ⟨part, hpart, hc⟩ := Interleave.mem_interleave hc
      obtain ⟨row, hrow, rfl⟩ := List.mem_map.1 hpart
      exact (hbytes row hrow).2 c hc
  · rw [← List.length_map (f := (·.getD 0)), hsent, List.length_append, hdataLen, hecLen, hdata,
      hec, ← List.sum_map_add]
    exact congrArg List.sum (List.map_congr_left fun b hb => (h b hb).add_ecCount)
  · rw [readBlocks, hsent, ← hdata, ← hec, Interleave.deinterleave_interleave hdataMax, ← hdataLen,
      List.drop_left]
    -- Nothing follows the bytes that are not data.
    conv_lhs => rw [← List.append_nil (interleave _ (rows.map fun row => row.2.map (·.getD 0)))]
    rw [Interleave.deinterleave_interleave hecMax, zipWith_words]
  · exact List.forall₂_map_right_iff.2 (hall.imp fun _ _ h => h.word)
  · rw [dataOf_words hall, hflat]

/-! ## Damage -/

/-- What was read of a block is near to a word: half of the bytes that are not data may differ. -/
def RsBlock.Near (x : RsBlock × List ℕ) (w : List ℕ) : Prop :=
  x.2.length = w.length ∧ 2 * ReedSolomon.distance x.2 w ≤ x.1.ecCount

/-- The words to which blocks that were read are corrected. -/
def Corrected (bs : List RsBlock) (read words : List (List ℕ)) : Prop :=
  List.Forall₂ RsBlock.IsWord bs words ∧ List.Forall₂ RsBlock.Near (bs.zip read) words

theorem distance_map_le {β γ : Type*} [DecidableEq β] [DecidableEq γ] (f : β → γ) (u w : List β) :
    ReedSolomon.distance (u.map f) (w.map f) ≤ ReedSolomon.distance u w := by
  fun_induction ReedSolomon.distance u w with
  | case1 a u b w ih =>
    rw [List.map_cons, List.map_cons, ReedSolomon.distance]
    refine Nat.add_le_add ?_ ih
    by_cases h : a = b
    · rw [if_pos h, if_pos (congrArg f h)]
    · rw [if_neg h]
      split <;> omega
  | case2 u w h =>
    cases u with
    | nil => exact Nat.zero_le _
    | cons a u =>
      cases w with
      | nil => exact Nat.zero_le _
      | cons b w => exact (h a u b w rfl rfl).elim

theorem elements_injOn {u w : List ℕ} (hu : ∀ c ∈ u, c < 256) (hw : ∀ c ∈ w, c < 256)
    (h : elements (u.map some) = elements (w.map some)) : u = w := by
  have hval : ∀ {w : List ℕ}, (∀ c ∈ w, c < 256) → (elements (w.map some)).map Gf.val = w := by
    intro w hw
    rw [elements, List.map_map, List.map_map]
    conv_rhs => rw [← List.map_id w]
    exact List.map_congr_left fun c hc => Nat.mod_eq_of_lt (hw c hc)
  rw [← hval hu, ← hval hw, h]

/-- A block is corrected to one word at most. -/
theorem RsBlock.near_unique {b : RsBlock} (hb : b.Fits) {r u w : List ℕ} (hu : b.IsWord u)
    (hw : b.IsWord w) (hru : Near (b, r) u) (hrw : Near (b, r) w) : u = w := by
  refine elements_injOn hu.bytes hw.bytes ?_
  have hcorrects : ∀ w, b.IsWord w → Near (b, r) w →
      ReedSolomon.Corrects α b.ecCount (elements (r.map some)) (elements (w.map some)) := by
    intro w hw hrw
    refine ⟨?_, hw.codeword, ?_⟩
    · simpa using hrw.1.symm
    · rw [elements, elements, List.map_map, List.map_map]
      exact (Nat.mul_le_mul_left 2 (distance_map_le ..)).trans hrw.2
  refine ReedSolomon.Corrects.eq (distinct_of_le ?_) (hcorrects u hu hru) (hcorrects w hw hrw)
  rw [length_elements, List.length_map, hru.1, hu.length]
  exact Nat.le_of_lt_succ hb.lt

theorem corrected_unique {bs : List RsBlock} (h : ∀ b ∈ bs, b.Fits) {read words words' : List (List ℕ)}
    (hw : Corrected bs read words) (hw' : Corrected bs read words') : words = words' := by
  obtain ⟨hword, hnear⟩ := hw
  obtain ⟨hword', hnear'⟩ := hw'
  induction hword generalizing read words' with
  | nil =>
    cases hword'
    rfl
  | @cons b w bs words hb _ ih =>
    obtain ⟨w', words', hb', hwords', rfl⟩ := List.forall₂_cons_left_iff.1 hword'
    cases read with
    | nil => cases hnear
    | cons r read =>
      rw [List.forall_mem_cons] at h
      rw [List.zip_cons_cons, List.forall₂_cons] at hnear hnear'
      rw [RsBlock.near_unique h.1 hb hb' hnear.1 hnear'.1, ih h.2 hnear.2 hwords' hnear'.2]

/-- The bytes of a symbol some of which are damaged are corrected, to the data of the buffer. -/
theorem correct {typeNumber : ℕ} {level : QRErrorCorrectionLevel} {bs : List RsBlock}
    (h : getRSBlocks typeNumber level = .ok bs) (buffer : List ℕ) :
    ∃ data, createBytes buffer bs = .ok data ∧ AllBytes data ∧
      data.length = (bs.map RsBlock.totalCount).sum ∧ ∀ damaged,
      List.Forall₂ RsBlock.Near (bs.zip (readBlocks bs damaged))
        (readBlocks bs (data.map (·.getD 0))) →
      (∃ words, Corrected bs (readBlocks bs damaged) words) ∧
      ∀ words, Corrected bs (readBlocks bs damaged) words →
        dataOf bs words = blockData buffer 0 (bs.map RsBlock.dataCount).sum := by
  have hfits := fits_of_getRSBlocks h
  obtain ⟨data, words, hdata, hbytes, hlen, hread, hwords, hof⟩ := createBytes_eq hfits buffer
  refine ⟨data, hdata, hbytes, hlen, fun damaged hdamaged => ?_⟩
  have hcorrected : Corrected bs (readBlocks bs damaged) words := ⟨hwords, hread ▸ hdamaged⟩
  refine ⟨⟨words, hcorrected⟩, fun words' hwords' => ?_⟩
  rw [corrected_unique hfits hwords' hcorrected, hof]

end IrohWebrtc.Qr
