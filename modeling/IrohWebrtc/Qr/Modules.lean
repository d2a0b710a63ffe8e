import IrohWebrtc.Qr.Data

/-!
# Modules of the QR code generator

The modules of a symbol (`makeImpl` of `qrcode.js`): first the patterns, which say nothing
about the texts but the version, the level and the mask, and then the bits of the bytes, in
what is free, on a way that goes up and down by pairs of columns (`mapData`). A module is
dark or not, or nothing yet.

What is written by a pattern lies in some rectangles (`Frame`), so that one can tell what is
left for the bytes.
-/

namespace IrohWebrtc.Qr

/-- `_modules`, by row and column. -/
abbrev Modules := ℤ → ℤ → Option Bool

namespace Modules

/-- `null` everywhere. -/
def empty : Modules := fun _ _ => none

def set (m : Modules) (row col : ℤ) (dark : Bool) : Modules :=
  fun r c => if r = row ∧ c = col then some dark else m r c

theorem set_self (m : Modules) (row col : ℤ) (dark : Bool) :
    m.set row col dark row col = some dark :=
  if_pos ⟨rfl, rfl⟩

theorem set_ne {m : Modules} {row col r c : ℤ} {dark : Bool} (h : ¬ (r = row ∧ c = col)) :
    m.set row col dark r c = m r c :=
  if_neg h

theorem isSome_set (m : Modules) (row col r c : ℤ) (dark : Bool) :
    (m.set row col dark r c).isSome = (decide (r = row ∧ c = col) || (m r c).isSome) := by
  by_cases h : r = row ∧ c = col
  · rw [h.1, h.2, set_self, decide_eq_true ⟨rfl, rfl⟩]
    rfl
  · rw [set_ne h, decide_eq_false h, Bool.false_or]

end Modules

/-- The numbers from one to another, both included. -/
def span (first last : ℤ) : List ℤ :=
  (List.range (last + 1 - first).toNat).map fun k : ℕ => first + k

/-! ## Patterns -/

/-- `_moduleCount` -/
def moduleCount (typeNumber : ℕ) : ℤ := typeNumber * 4 + 17

/-- `setupPositionProbePattern` -/
def setupPositionProbePattern (n row col : ℤ) (m : Modules) : Modules :=
  (span (-1) 7).foldl (fun m r =>
    if row + r ≤ -1 ∨ n ≤ row + r then m
    else (span (-1) 7).foldl (fun m c =>
      if col + c ≤ -1 ∨ n ≤ col + c then m
      else m.set (row + r) (col + c) ((0 ≤ r ∧ r ≤ 6 ∧ (c = 0 ∨ c = 6)) ∨
        (0 ≤ c ∧ c ≤ 6 ∧ (r = 0 ∨ r = 6)) ∨ (2 ≤ r ∧ r ≤ 4 ∧ 2 ≤ c ∧ c ≤ 4))) m) m

/-- `PATTERN_POSITION_TABLE` -/
def patternPositionTable : List (List ℤ) :=
  [[], [6, 18], [6, 22], [6, 26], [6, 30], [6, 34], [6, 22, 38], [6, 24, 42], [6, 26, 46],
    [6, 28, 50], [6, 30, 54], [6, 32, 58], [6, 34, 62], [6, 26, 46, 66], [6, 26, 48, 70],
    [6, 26, 50, 74], [6, 30, 54, 78], [6, 30, 56, 82], [6, 30, 58, 86], [6, 34, 62, 90],
    [6, 28, 50, 72, 94], [6, 26, 50, 74, 98], [6, 30, 54, 78, 102], [6, 28, 54, 80, 106],
    [6, 32, 58, 84, 110], [6, 30, 58, 86, 114], [6, 34, 62, 90, 118], [6, 26, 50, 74, 98, 122],
    [6, 30, 54, 78, 102, 126], [6, 26, 52, 78, 104, 130], [6, 30, 56, 82, 108, 134],
    [6, 34, 60, 86, 112, 138], [6, 30, 58, 86, 114, 142], [6, 34, 62, 90, 118, 146],
    [6, 30, 54, 78, 102, 126, 150], [6, 24, 50, 76, 102, 128, 154], [6, 28, 54, 80, 106, 132, 158],
    [6, 32, 58, 84, 110, 136, 162], [6, 26, 54, 82, 110, 138, 166], [6, 30, 58, 86, 114, 142, 170]]

/-- `getPatternPosition` -/
def getPatternPosition (typeNumber : ℕ) : List ℤ := patternPositionTable.getD (typeNumber - 1) []

/-- The square of a position, unless there is something already. -/
def adjustAt (m : Modules) (row col : ℤ) : Modules :=
  if (m row col).isSome then m
  else (span (-2) 2).foldl (fun m r => (span (-2) 2).foldl (fun m c =>
    m.set (row + r) (col + c) (r = -2 ∨ r = 2 ∨ c = -2 ∨ c = 2 ∨ (r = 0 ∧ c = 0))) m) m

/-- `setupPositionAdjustPattern` -/
def setupPositionAdjustPattern (typeNumber : ℕ) (m : Modules) : Modules :=
  (getPatternPosition typeNumber).foldl (fun m row =>
    (getPatternPosition typeNumber).foldl (fun m col => adjustAt m row col) m) m

/-- `setupTimingPattern` -/
def setupTimingPattern (n : ℤ) (m : Modules) : Modules :=
  let m := (span 8 (n - 9)).foldl (fun m r =>
    if (m r 6).isSome then m else m.set r 6 (r % 2 = 0)) m
  (span 8 (n - 9)).foldl (fun m c => if (m 6 c).isSome then m else m.set 6 c (c % 2 = 0)) m

/-- The loop of `getBCHDigit`, with so many turns at most. -/
def bchDigit : ℕ → ℕ → ℕ
  | 0, _ => 0
  | n + 1, data => if data = 0 then 0 else bchDigit n (data >>> 1) + 1

/-- `getBCHDigit`: no number has more digits than it says. -/
def getBCHDigit (data : ℕ) : ℕ := bchDigit data data

/-- `G15` -/
def g15 : ℕ := 1 <<< 10 ||| 1 <<< 8 ||| 1 <<< 5 ||| 1 <<< 4 ||| 1 <<< 2 ||| 1 <<< 1 ||| 1 <<< 0

/-- `G18` -/
def g18 : ℕ :=
  1 <<< 12 ||| 1 <<< 11 ||| 1 <<< 10 ||| 1 <<< 9 ||| 1 <<< 8 ||| 1 <<< 5 ||| 1 <<< 2 ||| 1 <<< 0

/-- `G15_MASK` -/
def g15Mask : ℕ := 1 <<< 14 ||| 1 <<< 12 ||| 1 <<< 10 ||| 1 <<< 4 ||| 1 <<< 1

/-- The loop of `getBCHTypeInfo` and `getBCHTypeNumber`, in which `d` loses a digit each turn. -/
def bchRemainder (g : ℕ) : ℕ → ℕ → ℕ
  | 0, d => d
  | n + 1, d =>
    if getBCHDigit g ≤ getBCHDigit d then
      bchRemainder g n (d ^^^ g <<< (getBCHDigit d - getBCHDigit g))
    else d

/-- `getBCHTypeInfo` -/
def getBCHTypeInfo (data : ℕ) : ℕ :=
  (data <<< 10 ||| bchRemainder g15 (getBCHDigit (data <<< 10)) (data <<< 10)) ^^^ g15Mask

/-- `getBCHTypeNumber` -/
def getBCHTypeNumber (data : ℕ) : ℕ :=
  data <<< 12 ||| bchRemainder g18 (getBCHDigit (data <<< 12)) (data <<< 12)

/-- What `setupTypeInfo` says. -/
def typeInfo (level : QRErrorCorrectionLevel) (maskPattern : Fin 8) : ℕ :=
  getBCHTypeInfo (level.value <<< 3 ||| maskPattern)

/-- Where the bits of the type are, in column 8. -/
def verticalCell (n : ℤ) (i : ℕ) : ℤ × ℤ :=
  if i < 6 then (i, 8) else if i < 8 then (i + 1, 8) else (n - 15 + i, 8)

/-- Where the bits of the type are, in row 8. -/
def horizontalCell (n : ℤ) (i : ℕ) : ℤ × ℤ :=
  if i < 8 then (8, n - i - 1) else if i < 9 then (8, 15 - i - 1 + 1) else (8, 15 - i - 1)

/-- Bits in the cells that are for them. -/
def setBits (test : Bool) (bits count : ℕ) (cell : ℕ → ℤ × ℤ) (m : Modules) : Modules :=
  (List.range count).foldl (fun m i =>
    m.set (cell i).1 (cell i).2 (!test && ((bits >>> i) &&& 1 == 1))) m

/-- `setupTypeInfo` -/
def setupTypeInfo (n : ℤ) (level : QRErrorCorrectionLevel) (test : Bool) (maskPattern : Fin 8)
    (m : Modules) : Modules :=
  let bits := typeInfo level maskPattern
  let m := setBits test bits 15 (verticalCell n) m
  let m := setBits test bits 15 (horizontalCell n) m
  m.set (n - 8) 8 !test

/-- `setupTypeNumber` -/
def setupTypeNumber (n : ℤ) (typeNumber : ℕ) (test : Bool) (m : Modules) : Modules :=
  let bits := getBCHTypeNumber typeNumber
  let m := setBits test bits 18 (fun i => ((i / 3 : ℕ), (i % 3 : ℕ) + n - 8 - 3)) m
  setBits test bits 18 (fun i => ((i % 3 : ℕ) + n - 8 - 3, (i / 3 : ℕ))) m

/-- What `makeImpl` does before it looks at the bytes. -/
def patterns (typeNumber : ℕ) (level : QRErrorCorrectionLevel) (test : Bool)
    (maskPattern : Fin 8) : Modules :=
  let n := moduleCount typeNumber
  let m := setupPositionProbePattern n 0 0 Modules.empty
  let m := setupPositionProbePattern n (n - 7) 0 m
  let m := setupPositionProbePattern n 0 (n - 7) m
  let m := setupPositionAdjustPattern typeNumber m
  let m := setupTimingPattern n m
  let m := setupTypeInfo n level test maskPattern m
  if typeNumber ≥ 7 then setupTypeNumber n typeNumber test m else m

/-! ## Bytes -/

/-- `PATTERN000`, the first of the mask patterns. -/
def pattern000 : Fin 8 := 0

/-- `getMaskFunction` -/
def getMaskFunction (maskPattern : Fin 8) (i j : ℤ) : Bool :=
  match maskPattern with
  | 0 => (i + j) % 2 = 0
  | 1 => i % 2 = 0
  | 2 => j % 3 = 0
  | 3 => (i + j) % 3 = 0
  | 4 => (i / 2 + j / 3) % 2 = 0
  | 5 => i * j % 2 + i * j % 3 = 0
  | 6 => (i * j % 2 + i * j % 3) % 2 = 0
  | 7 => (i * j % 3 + (i + j) % 2) % 2 = 0

/-- The variables of `mapData`. -/
structure MapState where
  modules : Modules
  row : ℤ
  inc : ℤ
  bitIndex : ℤ
  byteIndex : ℕ

/-- The body of the loop on `c`. -/
def mapModule (data : List (Option ℕ)) (maskFunc : ℤ → ℤ → Bool) (col : ℤ) (s : MapState) :
    MapState :=
  if (s.modules s.row col).isSome then s
  else
    let dark := if s.byteIndex < data.length then
      ((data.getD s.byteIndex none).getD 0 >>> s.bitIndex.toNat) &&& 1 == 1 else false
    let dark := if maskFunc s.row col then !dark else dark
    let s := { s with modules := s.modules.set s.row col dark, bitIndex := s.bitIndex - 1 }
    if s.bitIndex = -1 then { s with byteIndex := s.byteIndex + 1, bitIndex := 7 } else s

/-- The rows of a pair of columns, so many at most. -/
def mapRows (n : ℤ) (data : List (Option ℕ)) (maskFunc : ℤ → ℤ → Bool) (col : ℤ) :
    ℕ → MapState → MapState
  | 0, s => s
  | k + 1, s =>
    let s := mapModule data maskFunc (col - 1) (mapModule data maskFunc col s)
    if s.row + s.inc < 0 ∨ n ≤ s.row + s.inc then { s with inc := -s.inc }
    else mapRows n data maskFunc col k { s with row := s.row + s.inc }

/-- The pairs of columns, from one on. -/
def mapColumns (n : ℤ) (data : List (Option ℕ)) (maskFunc : ℤ → ℤ → Bool) (col : ℤ)
    (s : MapState) : MapState :=
  if 0 < col then
    let col' := if col = 6 then col - 1 else col
    mapColumns n data maskFunc (col' - 2) (mapRows n data maskFunc col' n.toNat s)
  else s
termination_by col.toNat
decreasing_by
  split <;> omega

/-- `mapData` -/
def mapData (n : ℤ) (data : List (Option ℕ)) (maskPattern : Fin 8) (m : Modules) : Modules :=
  (mapColumns n data (getMaskFunction maskPattern) (n - 1) ⟨m, n - 1, -1, 7, 0⟩).modules

/-- `makeImpl`, when the bytes are there. -/
def makeImpl (typeNumber : ℕ) (level : QRErrorCorrectionLevel) (data : List (Option ℕ))
    (test : Bool) (maskPattern : Fin 8) : Modules :=
  mapData (moduleCount typeNumber) data maskPattern (patterns typeNumber level test maskPattern)

end IrohWebrtc.Qr
