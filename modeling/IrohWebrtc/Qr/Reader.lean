import IrohWebrtc.Qr.Placement

/-!
# Reading a QR code

The symbol that `make` of `qrcode.js` makes, and what a reader finds in a picture of it: the
type that is nearest to its bits, and the texts of the words that are nearest to the blocks
(`Reads`). The picture may be damaged, in up to three modules of the type and up to half of
the bytes of each block that are not data: the texts are still found, and no others
(`reads_make`).
-/

namespace IrohWebrtc.Qr

open Bits (high low)

/-! ## Making -/

/-- A symbol, with what it was made of. -/
structure QrCode where
  typeNumber : ℕ
  level : QRErrorCorrectionLevel
  maskPattern : Fin 8
  modules : Modules

section

variable {R : Type*} [LT R] [DecidableLT R]

/-- The body of the loop of `getBestMaskPattern`. -/
def betterPattern (lostPoint : Fin 8 → R) (best : Option (R × Fin 8)) (i : Fin 8) :
    Option (R × Fin 8) :=
  match best with
  | none => some (lostPoint i, i)
  | some (minLostPoint, pattern) =>
    if minLostPoint > lostPoint i then some (lostPoint i, i) else some (minLostPoint, pattern)

/-- `getBestMaskPattern`, whatever `getLostPoint` says. -/
def getBestMaskPattern (getLostPoint : Modules → R) (typeNumber : ℕ)
    (level : QRErrorCorrectionLevel) (data : List (Option ℕ)) : Fin 8 :=
  (((List.finRange 8).foldl
    (betterPattern fun i => getLostPoint (makeImpl typeNumber level data true i)) none).map
      (·.2)).getD pattern000

/-- `make`, of the numbers up to 40. -/
def make (getLostPoint : Modules → R) (typeNumber : ℕ) (level : QRErrorCorrectionLevel)
    (dataList : List Qr8BitByte) : Except String QrCode := do
  let typeNumber ← if typeNumber < 1 then bestType level dataList 1 else .ok typeNumber
  let data ← createData typeNumber level dataList
  let maskPattern := getBestMaskPattern getLostPoint typeNumber level data
  return ⟨typeNumber, level, maskPattern, makeImpl typeNumber level data false maskPattern⟩

end

/-- The modules that are dark. -/
def darkOf (m : Modules) (r c : ℤ) : Bool := (m r c).getD false

/-! ## Reading -/

variable {typeNumber : ℕ} {level level' : QRErrorCorrectionLevel} {maskPattern maskPattern' : Fin 8}
  {dark : ℤ → ℤ → Bool}

/-- The bits of the type. -/
def readType (typeNumber : ℕ) (dark : ℤ → ℤ → Bool) : List Bool :=
  (List.range 15).map fun i => dark (verticalCell (moduleCount typeNumber) i).1
    (verticalCell (moduleCount typeNumber) i).2

/-- So many bytes, without the mask. -/
def readBytes (total typeNumber : ℕ) (maskPattern : Fin 8) (dark : ℤ → ℤ → Bool) : List ℕ :=
  (Bits.octets (((freeCells typeNumber).map fun p =>
    dark p.1 p.2 ^^ getMaskFunction maskPattern p.1 p.2).take (8 * total))).map number

/-- Whether bits are those of a type, but for three of them. -/
def IsType (typeNumber : ℕ) (dark : ℤ → ℤ → Bool) (level : QRErrorCorrectionLevel)
    (maskPattern : Fin 8) : Prop :=
  ReedSolomon.distance (readType typeNumber dark) (low 15 (typeInfo level maskPattern)) ≤ 3

/-- The blocks of a symbol, of which the level is known. -/
def readSymbol (bs : List RsBlock) (typeNumber : ℕ) (maskPattern : Fin 8) (dark : ℤ → ℤ → Bool) :
    List (List ℕ) :=
  readBlocks bs (readBytes (bs.map RsBlock.totalCount).sum typeNumber maskPattern dark)

/-- Whether texts are what a picture says. -/
def Reads (typeNumber : ℕ) (dark : ℤ → ℤ → Bool) (texts : List (List ℕ)) : Prop :=
  ∃ level maskPattern bs w words, IsType typeNumber dark level maskPattern ∧
    getRSBlocks typeNumber level = .ok bs ∧ getLengthInBits .byte typeNumber = .ok w ∧
    Corrected bs (readSymbol bs typeNumber maskPattern dark) words ∧ texts = textsOf w bs words

/-- Whether a picture of a symbol is legible: whether it is damaged in a few modules only. -/
structure QrCode.Legible (q : QrCode) (dark : ℤ → ℤ → Bool) : Prop where
  type : ReedSolomon.distance (readType q.typeNumber dark)
    (readType q.typeNumber (darkOf q.modules)) ≤ 3
  blocks : ∀ bs, getRSBlocks q.typeNumber q.level = .ok bs →
    List.Forall₂ RsBlock.Near (bs.zip (readSymbol bs q.typeNumber q.maskPattern dark))
      (readSymbol bs q.typeNumber q.maskPattern (darkOf q.modules))

/-! ## The type -/

theorem mem_levels (level : QRErrorCorrectionLevel) :
    level ∈ [QRErrorCorrectionLevel.L, .M, .Q, .H] := by
  cases level <;> decide

/-- Bits are those of one type at most. -/
theorem IsType.unique (h : IsType typeNumber dark level maskPattern)
    (h' : IsType typeNumber dark level' maskPattern') :
    level = level' ∧ maskPattern = maskPattern' := by
  by_contra hne
  have hdist := typeInfo_distance level (mem_levels level) level' (mem_levels level') maskPattern
    maskPattern' fun heq => hne (Prod.mk.inj heq)
  have hlen : (readType typeNumber dark).length = 15 := by simp [readType]
  have htri := ReedSolomon.distance_triangle (u := low 15 (typeInfo level maskPattern))
    (v := readType typeNumber dark) (w := low 15 (typeInfo level' maskPattern'))
    (by rw [hlen, Bits.length_low]) (by rw [hlen, Bits.length_low])
  rw [ReedSolomon.distance_comm _ (readType typeNumber dark)] at htri
  rw [IsType] at h h'
  omega

/-- A module of a pattern is left as it is by the bytes. -/
theorem makeImpl_of_isSome {data : List (Option ℕ)} {r c : ℤ} (h1 : 1 ≤ typeNumber)
    (h : (patterns typeNumber level false maskPattern r c).isSome) :
    makeImpl typeNumber level data false maskPattern r c =
      patterns typeNumber level false maskPattern r c := by
  have hn := twentyOne_le h1
  rw [makeImpl, mapData_eq (by omega)]
  exact foldl_placeBit_frame (.inr h)

theorem readType_makeImpl {data : List (Option ℕ)} (h1 : 1 ≤ typeNumber) :
    readType typeNumber (darkOf (makeImpl typeNumber level data false maskPattern)) =
      low 15 (typeInfo level maskPattern) := by
  refine List.map_congr_left fun i hi => ?_
  have hcell := patterns_verticalCell level false maskPattern h1 (List.mem_range.1 hi)
  rw [darkOf, makeImpl_of_isSome h1 (by rw [hcell]; rfl), hcell]
  rfl

section

variable {dark' : ℤ → ℤ → Bool} (h1 : 1 ≤ typeNumber)
  (h : ∀ r c, 0 ≤ r ∧ r < moduleCount typeNumber → 0 ≤ c ∧ c < moduleCount typeNumber →
    dark r c = dark' r c)

include h1 h

theorem readType_congr : readType typeNumber dark = readType typeNumber dark' := by
  have hn := twentyOne_le h1
  refine List.map_congr_left fun i hi => h _ _ ?_ ?_
  · rw [List.mem_range] at hi
    simp only [verticalCell, apply_ite Prod.fst]
    split <;> [skip; split] <;> omega
  · simp only [verticalCell, apply_ite Prod.snd, ite_self]
    omega

theorem readSymbol_congr (bs : List RsBlock) (maskPattern : Fin 8) :
    readSymbol bs typeNumber maskPattern dark = readSymbol bs typeNumber maskPattern dark' := by
  have hcells : (freeCells typeNumber).map (fun p =>
      dark p.1 p.2 ^^ getMaskFunction maskPattern p.1 p.2) =
      (freeCells typeNumber).map fun p => dark' p.1 p.2 ^^ getMaskFunction maskPattern p.1 p.2 := by
    refine List.map_congr_left fun p hp => ?_
    obtain ⟨hrow, hcol⟩ := mem_freeCells h1 hp
    rw [h _ _ hrow hcol]
  rw [readSymbol, readSymbol, readBytes, readBytes, hcells]

/-- Only the modules of the symbol are looked at. -/
theorem reads_congr (texts : List (List ℕ)) :
    Reads typeNumber dark texts ↔ Reads typeNumber dark' texts := by
  simp only [Reads, IsType, readType_congr h1 h, readSymbol_congr h1 h]

end

/-- Only the modules of a symbol say whether a picture of it is legible. -/
theorem QrCode.legible_congr {m m' : Modules} (h1 : 1 ≤ typeNumber)
    (hm : ∀ r c, 0 ≤ r ∧ r < moduleCount typeNumber → 0 ≤ c ∧ c < moduleCount typeNumber →
      darkOf m r c = darkOf m' r c)
    (hlegible : QrCode.Legible ⟨typeNumber, level, maskPattern, m⟩ dark) :
    QrCode.Legible ⟨typeNumber, level, maskPattern, m'⟩ dark where
  type := by
    rw [← readType_congr h1 hm]
    exact hlegible.type
  blocks bs hbs := by
    rw [← readSymbol_congr h1 hm]
    exact hlegible.blocks bs hbs

/-! ## The bytes -/

theorem map_bitOf (data : List (Option ℕ)) :
    (List.range (8 * data.length)).map (bitOf data) = (data.map (·.getD 0)).flatMap (high 8) := by
  refine List.ext_getElem (by rw [length_flatMap_high]; simp) fun i hi hi' => ?_
  have hlt : i / 8 < data.length := by
    rw [List.length_map, List.length_range] at hi
    omega
  have hbyte : (data.map (·.getD 0)).getD (i / 8) 0 = (data.getD (i / 8) none).getD 0 := by
    rw [List.getD_eq_getElem _ _ (by rwa [List.length_map]), List.getElem_map,
      List.getD_eq_getElem _ _ hlt]
  have hget := Bits.getD_flatMap_high (data.map (·.getD 0)) i
  rw [List.getD_eq_getElem _ _ hi', hbyte] at hget
  rw [List.getElem_map, List.getElem_range, bitOf, hget]

/-- The bytes are read again. -/
theorem readBytes_makeImpl {data : List (Option ℕ)} (h1 : 1 ≤ typeNumber) (hbytes : AllBytes data)
    (hlen : 8 * data.length ≤ (freeCells typeNumber).length) :
    readBytes data.length typeNumber maskPattern
      (darkOf (makeImpl typeNumber level data false maskPattern)) = data.map (·.getD 0) := by
  have hn := twentyOne_le h1
  have hfree := foldl_placeBit_free (patterns typeNumber level false maskPattern, 0)
    (bitOf data) (getMaskFunction maskPattern) (nodup_path (moduleCount typeNumber)
      (moduleCount typeNumber - 1) (isStart_moduleCount h1) (by decide : (-1 : ℤ) ≠ 0))
  have hmake : makeImpl typeNumber level data false maskPattern = mapData (moduleCount typeNumber)
      data maskPattern (patterns typeNumber level false maskPattern) := rfl
  rw [freeOf_patterns, ← mapData_eq (by omega), ← hmake] at hfree
  -- The mask is taken away from every free cell, in the order in which bits were placed.
  have hbits : (freeCells typeNumber).map (fun p =>
      darkOf (makeImpl typeNumber level data false maskPattern) p.1 p.2 ^^
        getMaskFunction maskPattern p.1 p.2) =
      (List.range (freeCells typeNumber).length).map (bitOf data) := by
    refine List.ext_getElem (by simp) fun i hi hi' => ?_
    have hi₂ : i < (freeCells typeNumber).length := by simpa using hi
    have hget := congrArg (·[i]?) hfree
    simp only [List.getElem?_map, List.getElem?_eq_getElem hi₂, List.getElem?_range hi₂,
      Option.map_some, Option.some_inj, Nat.zero_add] at hget
    obtain ⟨d, hd, hbit⟩ := Option.map_eq_some_iff.1 hget
    rw [List.getElem_map, List.getElem_map, List.getElem_range, ← hbit, darkOf, hd]
    rfl
  have hlt : ∀ c ∈ data.map (·.getD 0), c < 256 := by
    intro c hc
    obtain ⟨d, hd, rfl⟩ := List.mem_map.1 hc
    exact hbytes d hd
  rw [readBytes, hbits, ← List.map_take, List.take_range, Nat.min_eq_left hlen, map_bitOf,
    map_number_octets hlt]

/-! ## Round trip -/

section

variable {R : Type*} [LT R] [DecidableLT R] {getLostPoint : Modules → R}
  {dataList : List Qr8BitByte}

/-- What is made when a symbol has enough bits. -/
theorem reads_makeImpl {bs : List RsBlock} {w : ℕ} (hbs : getRSBlocks typeNumber level = .ok bs)
    (hw : getLengthInBits .byte typeNumber = .ok w) (hfit : bitCount w dataList ≤ capacity bs) :
    ∃ data, createData typeNumber level dataList = .ok data ∧
      ∀ maskPattern dark, QrCode.Legible ⟨typeNumber, level, maskPattern,
        makeImpl typeNumber level data false maskPattern⟩ dark →
      ∀ texts, Reads typeNumber dark texts ↔ texts = dataList.map (·.bytes) := by
  obtain ⟨h1, h41⟩ := typeNumber_of_getRSBlocks hbs
  obtain ⟨data, hdata, hbytes, hlen, hdamage⟩ := createData_eq hbs hw hfit
  refine ⟨data, hdata, fun maskPattern dark hlegible texts => ?_⟩
  have hread : readSymbol bs typeNumber maskPattern
      (darkOf (makeImpl typeNumber level data false maskPattern)) =
      readBlocks bs (data.map (·.getD 0)) := by
    rw [readSymbol, ← hlen, readBytes_makeImpl h1 hbytes (hlen ▸ length_freeCells hbs)]
  have hnear := hlegible.blocks bs hbs
  rw [hread] at hnear
  obtain ⟨⟨words, hwords⟩, hall⟩ := hdamage _ hnear
  have htype : IsType typeNumber dark level maskPattern := by
    have h := hlegible.type
    rwa [readType_makeImpl h1] at h
  constructor
  · -- Nobody who reads this picture finds another type, nor other words.
    rintro ⟨level', maskPattern', bs', w', words', htype', hbs', hw', hwords', rfl⟩
    obtain ⟨rfl, rfl⟩ := htype.unique htype'
    obtain rfl := Except.ok.inj (hbs.symm.trans hbs')
    obtain rfl := Except.ok.inj (hw.symm.trans hw')
    exact hall words' hwords'
  · rintro rfl
    exact ⟨level, maskPattern, bs, w, words, htype, hbs, hw, hwords, (hall words hwords).symm⟩

/-- A symbol that is made has the first version that has enough bits, and its texts are read in
    every picture that is legible, and no others. Otherwise not even the last version has. -/
theorem reads_make (getLostPoint : Modules → R) (level : QRErrorCorrectionLevel)
    (dataList : List Qr8BitByte) : ∃ best, 1 ≤ best ∧ best ≤ 40 ∧
      (∀ typeNumber, 1 ≤ typeNumber → typeNumber < best → ¬ FitsInto level dataList typeNumber) ∧
      (FitsInto level dataList best → ∃ q, make getLostPoint 0 level dataList = .ok q ∧
        q.typeNumber = best ∧ ∀ dark, q.Legible dark →
          ∀ texts, Reads best dark texts ↔ texts = dataList.map (·.bytes)) ∧
      (¬ FitsInto level dataList best → best = 40 ∧ ∃ bits room : ℕ,
        make getLostPoint 0 level dataList =
          .error s!"code length overflow. ({bits}>{room})" ∧ room < bits) := by
  obtain ⟨best, hbest, h1, h40, hsmaller, hfits⟩ :=
    bestType_spec level dataList (Nat.le_refl 1) (by decide)
  refine ⟨best, h1, h40, hsmaller, ?_, fun hnot => ?_⟩
  · rintro ⟨bs, w, hbs, hw, hle⟩
    obtain ⟨data, hdata, hreads⟩ := reads_makeImpl hbs hw hle
    refine ⟨_, ?_, rfl, hreads (getBestMaskPattern getLostPoint best level data)⟩
    rw [make, if_pos (by decide), hbest]
    simp only [bind, Except.bind, hdata, pure, Except.pure]
  · have h40' : best = 40 := by
      by_contra hne
      exact hnot (hfits (by omega))
    obtain ⟨bs, hbs, -⟩ := exists_symbol (Nat.lt_succ_of_le h40) h1 level
    have hw := getLengthInBits_byte (Nat.lt_succ_of_le h40) h1
    have hlt := Nat.lt_of_not_le fun hle => hnot ⟨bs, _, hbs, hw, hle⟩
    refine ⟨h40', _, _, ?_, hlt⟩
    rw [make, if_pos (by decide), hbest]
    simp only [bind, Except.bind, createData_overflow hbs hw hlt]

end

theorem near_self {bs : List RsBlock} {read : List (List ℕ)} (h : read.length = bs.length) :
    List.Forall₂ RsBlock.Near (bs.zip read) read := by
  induction bs generalizing read with
  | nil =>
    rw [List.length_eq_zero_iff.1 h]
    exact .nil
  | cons b bs ih =>
    obtain ⟨r, read, rfl⟩ := List.exists_cons_of_length_eq_add_one h
    refine .cons ⟨rfl, ?_⟩ (ih (Nat.succ.inj h))
    rw [ReedSolomon.distance_self]
    exact Nat.zero_le _

/-- The symbol itself is legible. -/
theorem QrCode.legible_self (q : QrCode) : q.Legible (darkOf q.modules) := by
  refine ⟨by rw [ReedSolomon.distance_self]; exact Nat.zero_le 3, fun bs _ => near_self ?_⟩
  simp [readSymbol, readBlocks, Interleave.deinterleave]

end IrohWebrtc.Qr
