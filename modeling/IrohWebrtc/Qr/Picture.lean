import IrohWebrtc.Lib.Base64
import IrohWebrtc.Qr.Gif
import IrohWebrtc.Qr.Reader

/-!
# QR codes as data URLs

The picture of a symbol as a data URL (`createDataURL` of `qrcode.js`): the bytes of the GIF in
base64, which is written through a buffer of 32 bits (`base64EncodeOutputStream`). Who reads
the picture finds each module as a square of black or of white pixels, with a white margin
around the symbol (`picture_createDataURL`).
-/

namespace IrohWebrtc.Qr

/-! ## Base64 -/

/-- `base64EncodeOutputStream`; the buffer has 32 bits. -/
structure Base64Out where
  buffer : ℕ := 0
  buflen : ℕ := 0
  length : ℕ := 0
  base64 : List Char := []

namespace Base64Out

/-- `encode`, of numbers of six bits. -/
def encode (n : Fin 64) : Char :=
  if n < 26 then .ofNat (0x41 + n)
  else if n < 52 then .ofNat (0x61 + (n - 26))
  else if n < 62 then .ofNat (0x30 + (n - 52))
  else if n = 62 then .ofNat 0x2b
  else .ofNat 0x2f

/-- `writeEncoded` -/
def writeEncoded (base64 : List Char) (b : ℕ) : List Char :=
  base64 ++ [encode ⟨b % 64, Nat.mod_lt b (by decide)⟩]

/-- The loop of `writeByte`. -/
def drain (s : Base64Out) : Base64Out :=
  if 6 ≤ s.buflen then
    drain { s with
      base64 := writeEncoded s.base64 (s.buffer >>> (s.buflen - 6)), buflen := s.buflen - 6 }
  else s
termination_by s.buflen

/-- `writeByte` -/
def writeByte (s : Base64Out) (n : ℕ) : Base64Out :=
  drain { s with
    buffer := (s.buffer <<< 8 ||| n &&& 0xff) % 2 ^ 32
    buflen := s.buflen + 8
    length := s.length + 1 }

/-- `flush` -/
def flush (s : Base64Out) : Base64Out :=
  let s := if 0 < s.buflen then
      { s with base64 := writeEncoded s.base64 (s.buffer <<< (6 - s.buflen)), buffer := 0, buflen := 0 }
    else s
  if s.length % 3 ≠ 0 then
    { s with base64 := s.base64 ++ List.replicate (3 - s.length % 3) '=' }
  else s

theorem encode_eq (n : Fin 64) : encode n = Base64.digit n := by
  revert n
  decide +kernel

theorem drain_lt {s : Base64Out} (h : s.buflen < 6) : drain s = s := by
  rw [drain, if_neg (Nat.not_le.2 h)]

theorem drain_le {s : Base64Out} (h : 6 ≤ s.buflen) : drain s = drain { s with
    base64 := s.base64 ++ [Base64.digit ((s.buffer >>> (s.buflen - 6)) % 64)]
    buflen := s.buflen - 6 } := by
  rw [drain, if_pos h, writeEncoded, encode_eq]

theorem buffer_eq (buffer : ℕ) (a : UInt8) :
    buffer <<< 8 ||| a.toNat &&& 0xff = buffer * 256 + a.toNat := by
  have ha := a.toNat_lt
  rw [Nat.and_two_pow_sub_one_eq_mod _ 8, Nat.mod_eq_of_lt ha, ← Nat.shiftLeft_add_eq_or_of_lt ha,
    Nat.shiftLeft_eq]

variable {s : Base64Out} {buffer length : ℕ} {base64 : List Char}

/-- The first byte of three. -/
theorem writeByte_first (buffer length : ℕ) (base64 : List Char) (a : UInt8) :
    ∃ buffer', writeByte ⟨buffer, 0, length, base64⟩ a.toNat =
      ⟨buffer', 2, length + 1, base64 ++ [Base64.digit (a.toNat / 4)]⟩ ∧
        buffer' % 4 = a.toNat % 4 := by
  have ha := a.toNat_lt
  have hdigit : ((buffer * 256 + a.toNat) % 2 ^ 32) >>> (0 + 8 - 6) % 64 = a.toNat / 4 := by
    rw [Nat.shiftRight_eq_div_pow]
    omega
  refine ⟨(buffer * 256 + a.toNat) % 2 ^ 32, ?_, by omega⟩
  rw [writeByte, buffer_eq, drain_le (by simp), drain_lt (by simp)]
  simp only [hdigit]

/-- The second byte. -/
theorem writeByte_second (length : ℕ) (base64 : List Char) (a b : UInt8)
    (h : buffer % 4 = a.toNat % 4) :
    ∃ buffer', writeByte ⟨buffer, 2, length, base64⟩ b.toNat =
      ⟨buffer', 4, length + 1, base64 ++ [Base64.digit (a.toNat % 4 * 16 + b.toNat / 16)]⟩ ∧
        buffer' % 16 = b.toNat % 16 := by
  have hb := b.toNat_lt
  have hdigit : ((buffer * 256 + b.toNat) % 2 ^ 32) >>> (2 + 8 - 6) % 64 =
      a.toNat % 4 * 16 + b.toNat / 16 := by
    rw [Nat.shiftRight_eq_div_pow]
    omega
  refine ⟨(buffer * 256 + b.toNat) % 2 ^ 32, ?_, by omega⟩
  rw [writeByte, buffer_eq, drain_le (by simp), drain_lt (by simp)]
  simp only [hdigit]

/-- The third byte, after which nothing is left. -/
theorem writeByte_third (length : ℕ) (base64 : List Char) (b c : UInt8)
    (h : buffer % 16 = b.toNat % 16) :
    ∃ buffer', writeByte ⟨buffer, 4, length, base64⟩ c.toNat = ⟨buffer', 0, length + 1,
      base64 ++ [Base64.digit (b.toNat % 16 * 4 + c.toNat / 64), Base64.digit (c.toNat % 64)]⟩ := by
  have hc := c.toNat_lt
  have hdigit : ((buffer * 256 + c.toNat) % 2 ^ 32) >>> (4 + 8 - 6) % 64 =
      b.toNat % 16 * 4 + c.toNat / 64 := by
    rw [Nat.shiftRight_eq_div_pow]
    omega
  have hdigit' : ((buffer * 256 + c.toNat) % 2 ^ 32) >>> (4 + 8 - 6 - 6) % 64 = c.toNat % 64 := by
    rw [Nat.shiftRight_eq_div_pow]
    omega
  refine ⟨(buffer * 256 + c.toNat) % 2 ^ 32, ?_⟩
  rw [writeByte, buffer_eq, drain_le (by simp), drain_le (by simp), drain_lt (by simp)]
  simp only [hdigit, hdigit', List.append_assoc, List.cons_append, List.nil_append]

theorem flush_one (length : ℕ) (base64 : List Char) (a : UInt8) (hlength : length % 3 = 1)
    (h : buffer % 4 = a.toNat % 4) : (flush ⟨buffer, 2, length, base64⟩).base64 =
      base64 ++ [Base64.digit (a.toNat % 4 * 16), '=', '='] := by
  have hdigit : buffer <<< (6 - 2) % 64 = a.toNat % 4 * 16 := by
    rw [Nat.shiftLeft_eq]
    omega
  rw [flush]
  simp [hlength, writeEncoded, encode_eq, hdigit]

theorem flush_two (length : ℕ) (base64 : List Char) (b : UInt8) (hlength : length % 3 = 2)
    (h : buffer % 16 = b.toNat % 16) : (flush ⟨buffer, 4, length, base64⟩).base64 =
      base64 ++ [Base64.digit (b.toNat % 16 * 4), '='] := by
  have hdigit : buffer <<< (6 - 4) % 64 = b.toNat % 16 * 4 := by
    rw [Nat.shiftLeft_eq]
    omega
  rw [flush]
  simp [hlength, writeEncoded, encode_eq, hdigit]

/-- The bytes are written in base64. -/
theorem flush_foldl (l : List UInt8) (hlength : length % 3 = 0) :
    (flush ((l.map UInt8.toNat).foldl writeByte ⟨buffer, 0, length, base64⟩)).base64 =
      base64 ++ Base64.encode l := by
  fun_induction Base64.digits l generalizing buffer length base64 with
  | case1 => simp [flush, hlength, Base64.encode, Base64.digits]
  | case2 a =>
    obtain ⟨buffer₁, h₁, hbuffer₁⟩ := writeByte_first buffer length base64 a
    rw [List.map_cons, List.map_nil, List.foldl_cons, List.foldl_nil, h₁,
      flush_one _ _ a (by omega) hbuffer₁, List.append_assoc]
    rfl
  | case3 a b =>
    obtain ⟨buffer₁, h₁, hbuffer₁⟩ := writeByte_first buffer length base64 a
    obtain ⟨buffer₂, h₂, hbuffer₂⟩ := writeByte_second (length + 1)
      (base64 ++ [Base64.digit (a.toNat / 4)]) a b hbuffer₁
    rw [List.map_cons, List.map_cons, List.map_nil, List.foldl_cons, List.foldl_cons,
      List.foldl_nil, h₁, h₂, flush_two _ _ b (by omega) hbuffer₂, List.append_assoc,
      List.append_assoc]
    rfl
  | case4 a b c l ih =>
    obtain ⟨buffer₁, h₁, hbuffer₁⟩ := writeByte_first buffer length base64 a
    obtain ⟨buffer₂, h₂, hbuffer₂⟩ := writeByte_second (length + 1)
      (base64 ++ [Base64.digit (a.toNat / 4)]) a b hbuffer₁
    obtain ⟨buffer₃, h₃⟩ := writeByte_third (length + 1 + 1)
      (base64 ++ [Base64.digit (a.toNat / 4)] ++
        [Base64.digit (a.toNat % 4 * 16 + b.toNat / 16)]) b c hbuffer₂
    have hpad : (3 - (a :: b :: c :: l).length % 3) % 3 = (3 - l.length % 3) % 3 := by
      simp only [List.length_cons]
      omega
    rw [List.map_cons, List.map_cons, List.map_cons, List.foldl_cons, List.foldl_cons,
      List.foldl_cons, h₁, h₂, h₃, ih (by omega), Base64.encode, Base64.encode, hpad, Base64.digits]
    simp only [List.map_cons, List.append_assoc, List.cons_append, List.nil_append]

end Base64Out

/-- `toString` of bytes that were written and flushed. -/
def toBase64 (bytes : List ℕ) : List Char := (bytes.foldl Base64Out.writeByte {}).flush.base64

theorem toBase64_toNat (l : List UInt8) : toBase64 (l.map UInt8.toNat) = Base64.encode l :=
  Base64Out.flush_foldl l rfl

/-! ## Pictures -/

/-- `createDataURL` -/
def createDataURL (width height : ℕ) (getPixel : ℕ → ℕ → Except String ℕ) :
    Except String (List Char) := do
  let gif ← (List.range height).foldlM (fun gif y => (List.range width).foldlM
    (fun gif x => return GifImage.setPixel gif x y (← getPixel x y)) gif) (GifImage.new width height)
  let b ← gif.write []
  return "data:image/gif;base64,".toList ++ toBase64 b

/-- The picture of a data URL. -/
def readDataURL (url : List Char) : Option Picture :=
  if "data:image/gif;base64,".toList <+: url then
    (Base64.decode (url.drop "data:image/gif;base64,".toList.length)).bind fun bytes =>
      readGif (bytes.map UInt8.toNat)
  else none

theorem foldlM_ok {β γ : Type*} {l : List β} {f : γ → β → Except String γ} {g : γ → β → γ}
    (h : ∀ x ∈ l, ∀ s, f s x = .ok (g s x)) (s : γ) : l.foldlM f s = .ok (l.foldl g s) := by
  induction l generalizing s with
  | nil => rfl
  | cons x l ih =>
    rw [List.forall_mem_cons] at h
    rw [List.foldlM_cons, h.1, List.foldl_cons]
    exact ih h.2 _

/-- The picture is read again, with its pixels row by row. -/
theorem readDataURL_createDataURL {width height : ℕ} {getPixel : ℕ → ℕ → Except String ℕ}
    {f : ℕ → ℕ → ℕ} (hwidth : width < 65536) (hheight : height < 65536)
    (hget : ∀ x < width, ∀ y < height, getPixel x y = .ok (f x y))
    (hpixel : ∀ x < width, ∀ y < height, f x y < 2) :
    ∃ url, createDataURL width height getPixel = .ok url ∧ readDataURL url = some
      ⟨width, height, (List.range height).flatMap fun y => (List.range width).map fun x =>
        color (f x y)⟩ := by
  have hrow : ∀ y ∈ List.range height, ∀ gif, (List.range width).foldlM
      (fun gif x => return GifImage.setPixel gif x y (← getPixel x y)) gif =
      .ok ((List.range width).foldl (fun gif x => GifImage.setPixel gif x y (f x y)) gif) :=
    fun y hy => foldlM_ok fun x hx gif => by
      rw [hget x (List.mem_range.1 hx) y (List.mem_range.1 hy)]
      rfl
  have hpixels := setPixel_rows width height f (Nat.le_refl height)
  rw [Nat.sub_self, Nat.zero_mul, List.replicate_zero, List.append_nil] at hpixels
  obtain ⟨bytes, hwrite, hbytes, hread⟩ := readGif_write
    (g := ⟨width, height, (List.range height).flatMap fun y =>
      (List.range width).map fun x => some (f x y)⟩) hwidth hheight
    (by simp [List.length_flatMap, Nat.mul_comm])
    (fun p hp => by
      obtain ⟨y, hy, hp⟩ := List.mem_flatMap.1 hp
      obtain ⟨x, hx, rfl⟩ := List.mem_map.1 hp
      exact hpixel x (List.mem_range.1 hx) y (List.mem_range.1 hy))
  -- All that is written are bytes, so that base64 gives them back.
  obtain ⟨l, rfl⟩ : ∃ l : List UInt8, bytes = l.map UInt8.toNat := by
    refine ⟨bytes.map UInt8.ofNat, ?_⟩
    rw [List.map_map]
    conv_lhs => rw [← List.map_id bytes]
    exact List.map_congr_left fun c hc => (UInt8.toNat_ofNat_of_lt (hbytes c hc)).symm
  refine ⟨"data:image/gif;base64,".toList ++ Base64.encode l, ?_, ?_⟩
  · rw [createDataURL, foldlM_ok hrow, hpixels]
    simp only [bind, Except.bind, pure, Except.pure, hwrite, toBase64_toNat]
  · rw [readDataURL, if_pos (List.prefix_append ..), List.drop_left, Base64.decode_encode,
      Option.bind_some, hread]
    simp only [List.map_flatMap, List.map_map]
    rfl

/-! ## Symbols -/

/-- `isDark` -/
def QrCode.isDark (q : QrCode) (row col : ℤ) : Except String (Option Bool) :=
  if row < 0 ∨ moduleCount q.typeNumber ≤ row ∨ col < 0 ∨ moduleCount q.typeNumber ≤ col then
    .error s!"{row},{col}"
  else .ok (q.modules row col)

/-- The pixel of a symbol's picture, between two bounds; `null` is light. -/
def QrCode.getPixel (q : QrCode) (cellSize min max x y : ℕ) : Except String ℕ :=
  if min ≤ x ∧ x < max ∧ min ≤ y ∧ y < max then do
    let c := (x - min) / cellSize
    let r := (y - min) / cellSize
    return if (← q.isDark r c) = some true then 0 else 1
  else .ok 1

/-- `createDataURL` of a symbol -/
def QrCode.createDataURL (q : QrCode) (cellSize : ℕ) (margin : Option ℕ) :
    Except String (List Char) :=
  let cellSize := if cellSize = 0 then 2 else cellSize
  let margin := margin.getD (cellSize * 4)
  let size := (moduleCount q.typeNumber).toNat * cellSize + margin * 2
  Qr.createDataURL size size (q.getPixel cellSize margin (size - margin))

/-- Whether a pixel is black. -/
def Picture.isBlack (p : Picture) (x y : ℕ) : Bool := p.pixels[y * p.width + x]? = some (0, 0, 0)

def Picture.isWhite (p : Picture) (x y : ℕ) : Bool :=
  p.pixels[y * p.width + x]? = some (0xff, 0xff, 0xff)

/-- The modules of a picture, of which one pixel each is looked at. -/
def Picture.Shows (p : Picture) (n : ℤ) (cellSize margin : ℕ) (dark : ℤ → ℤ → Bool) : Prop :=
  ∀ r c : ℕ, r < n → c < n → ∃ i < cellSize, ∃ j < cellSize,
    dark r c = p.isBlack (margin + c * cellSize + i) (margin + r * cellSize + j)

theorem getElem?_rows {β : Type*} {width height : ℕ} (f : ℕ → ℕ → β) {x y : ℕ} (hx : x < width)
    (hy : y < height) : ((List.range height).flatMap fun y =>
      (List.range width).map fun x => f x y)[y * width + x]? = some (f x y) := by
  induction height with
  | zero => exact absurd hy (Nat.not_lt_zero y)
  | succ height ih =>
    have hlen : ((List.range height).flatMap fun y =>
        (List.range width).map fun x => f x y).length = height * width := by
      simp [List.length_flatMap]
    rw [List.range_succ, List.flatMap_append, List.flatMap_singleton]
    rcases Nat.lt_succ_iff_lt_or_eq.1 hy with hlt | rfl
    · have hle : (y + 1) * width ≤ height * width := Nat.mul_le_mul_right _ hlt
      rw [Nat.succ_mul] at hle
      rw [List.getElem?_append_left (by omega), ih hlt]
    · rw [List.getElem?_append_right (by omega), hlen, Nat.add_sub_cancel_left, List.getElem?_map,
        List.getElem?_range hx, Option.map_some]

/-- What the pixels of a symbol are. -/
def QrCode.pixel (q : QrCode) (cellSize min max x y : ℕ) : ℕ :=
  if decide (min ≤ x ∧ x < max ∧ min ≤ y ∧ y < max) &&
    darkOf q.modules ((y - min) / cellSize : ℕ) ((x - min) / cellSize : ℕ) then 0 else 1

theorem div_lt_moduleCount {n : ℤ} {cellSize margin size x : ℕ}
    (hsize : size = n.toNat * cellSize + margin * 2) (hx : margin ≤ x ∧ x < size - margin) :
    (((x - margin) / cellSize : ℕ) : ℤ) < n := by
  have hlt : (x - margin) / cellSize < n.toNat := by
    refine Nat.div_lt_of_lt_mul ?_
    rw [Nat.mul_comm]
    omega
  exact Int.lt_toNat.1 hlt

theorem getPixel_eq {q : QrCode} {cellSize margin size : ℕ}
    (hsize : size = (moduleCount q.typeNumber).toNat * cellSize + margin * 2) (x y : ℕ) :
    q.getPixel cellSize margin (size - margin) x y =
      .ok (q.pixel cellSize margin (size - margin) x y) := by
  rw [QrCode.getPixel, QrCode.pixel]
  by_cases hin : margin ≤ x ∧ x < size - margin ∧ margin ≤ y ∧ y < size - margin
  · have hc := div_lt_moduleCount hsize ⟨hin.1, hin.2.1⟩
    have hr := div_lt_moduleCount hsize hin.2.2
    have hdark : q.isDark ((y - margin) / cellSize : ℕ) ((x - margin) / cellSize : ℕ) =
        .ok (q.modules ((y - margin) / cellSize : ℕ) ((x - margin) / cellSize : ℕ)) := by
      rw [QrCode.isDark, if_neg]
      rintro (h | h | h | h)
      · exact absurd h (Int.not_lt.2 (Int.natCast_nonneg _))
      · exact absurd hr (Int.not_lt.2 h)
      · exact absurd h (Int.not_lt.2 (Int.natCast_nonneg _))
      · exact absurd hc (Int.not_lt.2 h)
    rw [if_pos hin, decide_eq_true hin, Bool.true_and, darkOf]
    simp only [hdark]
    rcases q.modules ((y - margin) / cellSize : ℕ) ((x - margin) / cellSize : ℕ) with _ | _ | _ <;>
      rfl
  · rw [if_neg hin, decide_eq_false hin, Bool.false_and]
    rfl

/-- The pixels of a symbol's picture, row by row. -/
def QrCode.pixels (q : QrCode) (cellSize margin size : ℕ) : List (ℕ × ℕ × ℕ) :=
  (List.range size).flatMap fun y => (List.range size).map fun x =>
    color (q.pixel cellSize margin (size - margin) x y)

/-- The picture that is read. -/
theorem picture_createDataURL {q : QrCode} {cellSize margin size : ℕ} (hcell : cellSize ≠ 0)
    (hsize : size = (moduleCount q.typeNumber).toNat * cellSize + margin * 2)
    (hlt : size < 65536) : ∃ url, q.createDataURL cellSize (some margin) = .ok url ∧
      readDataURL url = some ⟨size, size, q.pixels cellSize margin size⟩ := by
  obtain ⟨url, hurl, hread⟩ := readDataURL_createDataURL hlt hlt
    (fun x _ y _ => getPixel_eq hsize x y) (fun x _ y _ => by rw [QrCode.pixel]; split <;> omega)
  refine ⟨url, ?_, hread⟩
  rw [QrCode.createDataURL]
  simp only [if_neg hcell, Option.getD_some, ← hsize]
  exact hurl

theorem isBlack_pixels (q : QrCode) (cellSize margin : ℕ) {size x y : ℕ} (hx : x < size)
    (hy : y < size) : Picture.isBlack ⟨size, size, q.pixels cellSize margin size⟩ x y =
      (decide (margin ≤ x ∧ x < size - margin ∧ margin ≤ y ∧ y < size - margin) &&
        darkOf q.modules ((y - margin) / cellSize : ℕ) ((x - margin) / cellSize : ℕ)) := by
  rw [Picture.isBlack, QrCode.pixels, getElem?_rows (fun x y =>
    color (q.pixel cellSize margin (size - margin) x y)) hx hy, QrCode.pixel]
  cases (decide (margin ≤ x ∧ x < size - margin ∧ margin ≤ y ∧ y < size - margin) &&
    darkOf q.modules ((y - margin) / cellSize : ℕ) ((x - margin) / cellSize : ℕ)) <;> rfl

theorem isWhite_pixels (q : QrCode) (cellSize margin : ℕ) {size x y : ℕ} (hx : x < size)
    (hy : y < size) : Picture.isWhite ⟨size, size, q.pixels cellSize margin size⟩ x y =
      ! Picture.isBlack ⟨size, size, q.pixels cellSize margin size⟩ x y := by
  rw [isBlack_pixels q cellSize margin hx hy, Picture.isWhite, QrCode.pixels,
    getElem?_rows (fun x y => color (q.pixel cellSize margin (size - margin) x y)) hx hy,
    QrCode.pixel]
  cases (decide (margin ≤ x ∧ x < size - margin ∧ margin ≤ y ∧ y < size - margin) &&
    darkOf q.modules ((y - margin) / cellSize : ℕ) ((x - margin) / cellSize : ℕ)) <;> rfl

/-- Each dark module is a black square of the picture, and the rest of it is white. -/
theorem squares_createDataURL (q : QrCode) {cellSize margin size : ℕ} (hcell : cellSize ≠ 0)
    (hsize : size = (moduleCount q.typeNumber).toNat * cellSize + margin * 2)
    (hlt : size < 65536) : ∃ url p, q.createDataURL cellSize (some margin) = .ok url ∧
      readDataURL url = some p ∧ p.width = size ∧ p.height = size ∧
      ∀ x < size, ∀ y < size, p.isBlack x y =
        (decide (margin ≤ x ∧ x < size - margin ∧ margin ≤ y ∧ y < size - margin) &&
          darkOf q.modules ((y - margin) / cellSize : ℕ) ((x - margin) / cellSize : ℕ)) ∧
        p.isWhite x y = ! p.isBlack x y := by
  obtain ⟨url, hurl, hread⟩ := picture_createDataURL hcell hsize hlt
  exact ⟨url, _, hurl, hread, rfl, rfl, fun x hx y hy =>
    ⟨isBlack_pixels q cellSize margin hx hy, isWhite_pixels q cellSize margin hx hy⟩⟩

/-- Modules that are dark in turns, in the picture of 21 modules with 5 pixels each. -/
theorem checkered_createDataURL : ∃ url p,
    QrCode.createDataURL ⟨1, .L, 0, fun r c => some ((r + c) % 2 == 0)⟩ 5 (some 2) = .ok url ∧
      readDataURL url = some p ∧ p.width = 109 ∧ p.height = 109 ∧
      ∀ x < 109, ∀ y < 109, p.isBlack x y = (decide (2 ≤ x ∧ x < 109 - 2 ∧ 2 ≤ y ∧ y < 109 - 2) &&
        darkOf (fun r c => some ((r + c) % 2 == 0)) ((y - 2) / 5 : ℕ) ((x - 2) / 5 : ℕ)) ∧
        p.isWhite x y = ! p.isBlack x y :=
  squares_createDataURL _ (by decide) (by decide) (by decide)

/-- The picture shows the modules of the symbol. -/
theorem dark_of_shows {q : QrCode} {cellSize margin size : ℕ} (hcell : cellSize ≠ 0)
    (hsize : size = (moduleCount q.typeNumber).toNat * cellSize + margin * 2)
    {dark : ℤ → ℤ → Bool}
    (hshows : Picture.Shows ⟨size, size, q.pixels cellSize margin size⟩ (moduleCount q.typeNumber)
      cellSize margin dark) {r c : ℕ} (hr : r < moduleCount q.typeNumber)
    (hc : c < moduleCount q.typeNumber) : dark r c = darkOf q.modules r c := by
  obtain ⟨i, hi, j, hj, hdark⟩ := hshows r c hr hc
  have hle : ∀ {k m : ℕ}, (k : ℤ) < moduleCount q.typeNumber → m < cellSize →
      k * cellSize + m < (moduleCount q.typeNumber).toNat * cellSize := by
    intro k m hk hm
    have hmul : (k + 1) * cellSize ≤ (moduleCount q.typeNumber).toNat * cellSize :=
      Nat.mul_le_mul_right _ (by omega)
    rw [Nat.succ_mul] at hmul
    omega
  have hdiv : ∀ {k m : ℕ}, m < cellSize → (margin + k * cellSize + m - margin) / cellSize = k := by
    intro k m hm
    rw [Nat.add_assoc, Nat.add_sub_cancel_left, Nat.mul_comm,
      Nat.mul_add_div (Nat.pos_of_ne_zero hcell), Nat.div_eq_of_lt hm, Nat.add_zero]
  have hx := hle hc hi
  have hy := hle hr hj
  rw [hdark, isBlack_pixels q cellSize margin (by omega) (by omega), decide_eq_true (by omega),
    Bool.true_and, hdiv hi, hdiv hj]

end IrohWebrtc.Qr
