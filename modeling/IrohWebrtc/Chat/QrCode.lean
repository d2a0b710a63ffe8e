import IrohWebrtc.Qr.Picture

/-!
# The QR code of the chat page

The picture of a text on the page (`renderQR` of `chat.js`), for a phone to scan. A text of up
to 2953 characters is scanned again, also from a damaged picture; for a longer one, the page
says that there is none (`renderQR_scans`).
-/

namespace IrohWebrtc

open Qr

/-- What is in the element for the QR code: HTML or a text. -/
inductive QrElement
  | innerHTML (s : List Char)
  | textContent (s : List Char)
  deriving DecidableEq

/-- The image with a source. -/
def imgTag (src : List Char) : List Char :=
  "<img alt=\"QR\" src=\"".toList ++ src ++ "\" />".toList

section

variable {R : Type*} [LT R] [DecidableLT R]

/-- `renderQR`; what is thrown is a string, which has no message. -/
def renderQR (getLostPoint : Modules → R) (text : List UInt16) : QrElement :=
  match (do
    let qr ← make getLostPoint 0 .L [qr8BitByte text]
    qr.createDataURL 5 (some 2)) with
  | .ok src => .innerHTML (imgTag src)
  | .error _ => .textContent "(QR unavailable: undefined)".toList

/-! ## Scanning -/

/-- No symbol of the level has room for more bytes than the last. -/
theorem capacity_table_L : ∀ typeNumber < 41, 1 ≤ typeNumber →
    (rsBlockTable[(typeNumber - 1) * 4 + 0]?).all fun row =>
      capacity (rsBlocks row) < 4 + (if typeNumber < 10 then 8 else 16) + 8 * 2954 := by
  decide +kernel

variable {text : List UInt16}

theorem bitCount_singleton (lengthBits : ℕ) (text : List UInt16) :
    bitCount lengthBits [qr8BitByte text] = 4 + lengthBits + 8 * text.length := by
  rw [bitCount_cons]
  simp [bitCount, qr8BitByte, stringToBytes]

theorem getRSBlocks_L {typeNumber : ℕ} (h1 : 1 ≤ typeNumber) {bs : List RsBlock}
    (hbs : getRSBlocks typeNumber .L = .ok bs) :
    ∃ row, rsBlockTable[(typeNumber - 1) * 4 + 0]? = some row ∧ bs = rsBlocks row := by
  rw [getRSBlocks, getRsBlockTable.eq_def, if_neg (Nat.ne_of_gt h1)] at hbs
  simp only at hbs
  cases hrow : rsBlockTable[(typeNumber - 1) * 4 + 0]? with
  | none => rw [hrow] at hbs; cases hbs
  | some row =>
    rw [hrow] at hbs
    exact ⟨row, rfl, (Except.ok.inj hbs).symm⟩

/-- A text that is too long fits into no symbol. -/
theorem not_fitsInto (htext : 2953 < text.length) {typeNumber : ℕ} :
    ¬ FitsInto .L [qr8BitByte text] typeNumber := by
  rintro ⟨bs, w, hbs, hw, hle⟩
  obtain ⟨h1, h41⟩ := typeNumber_of_getRSBlocks hbs
  obtain ⟨row, hrow, rfl⟩ := getRSBlocks_L h1 hbs
  have hlt := capacity_table_L _ h41 h1
  rw [hrow, Option.all_some, decide_eq_true_eq] at hlt
  obtain rfl := Except.ok.inj ((getLengthInBits_byte h41 h1).symm.trans hw)
  rw [bitCount_singleton] at hle
  omega

/-- The last symbol has room for a text that is not too long. -/
theorem fitsInto_forty (htext : text.length ≤ 2953) : FitsInto .L [qr8BitByte text] 40 := by
  have hcapacity : (getRSBlocks 40 .L).toOption.map capacity = some 23648 := by decide +kernel
  obtain ⟨bs, hbs, -⟩ := exists_symbol (by decide : 40 < 41) (by decide) .L
  refine ⟨bs, 16, hbs, rfl, ?_⟩
  rw [hbs] at hcapacity
  rw [bitCount_singleton, Option.some.inj hcapacity]
  omega

/-- The modules that a picture shows are those of the symbol. -/
theorem darkOf_shown {q : QrCode} {size : ℕ}
    (hsize : size = (moduleCount q.typeNumber).toNat * 5 + 2 * 2) {shown : ℤ → ℤ → Bool}
    (hshown : Picture.Shows ⟨size, size, q.pixels 5 2 size⟩ (moduleCount q.typeNumber) 5 2 shown)
    (r c : ℤ) (hr : 0 ≤ r ∧ r < moduleCount q.typeNumber)
    (hc : 0 ≤ c ∧ c < moduleCount q.typeNumber) :
    darkOf (fun r c => some (shown r c)) r c = darkOf q.modules r c := by
  lift r to ℕ using hr.1
  lift c to ℕ using hc.1
  exact dark_of_shows (by decide) hsize hshown hr.2 hc.2

/-- The picture of a text that is not too long. -/
theorem renderQR_eq (getLostPoint : Modules → R) (htext : text.length ≤ 2953) :
    ∃ (url : List Char) (q : QrCode), renderQR getLostPoint text = .innerHTML (imgTag url) ∧
      q.level = .L ∧ 1 ≤ q.typeNumber ∧ q.typeNumber ≤ 40 ∧
      (∀ size, size = (moduleCount q.typeNumber).toNat * 5 + 2 * 2 →
        readDataURL url = some ⟨size, size, q.pixels 5 2 size⟩) ∧
      ∀ dark, q.Legible dark →
        ∀ texts, Reads q.typeNumber dark texts ↔ texts = [stringToBytes text] := by
  obtain ⟨best, hbest, h1, h40, -, hfits⟩ :=
    bestType_spec .L [qr8BitByte text] (Nat.le_refl 1) (by decide)
  have hfit : FitsInto .L [qr8BitByte text] best := by
    rcases Nat.lt_or_eq_of_le h40 with hlt | rfl
    · exact hfits hlt
    · exact fitsInto_forty htext
  obtain ⟨bs, w, hbs, hw, hle⟩ := hfit
  obtain ⟨data, hdata, hreads⟩ := reads_makeImpl hbs hw hle
  -- The symbol is the same whichever mask is best: it is read with every one of them.
  let maskPattern := getBestMaskPattern getLostPoint best .L data
  let q : QrCode := ⟨best, .L, maskPattern, makeImpl best .L data false maskPattern⟩
  have hmake : make getLostPoint 0 .L [qr8BitByte text] = .ok q := by
    rw [make, if_pos (by decide), hbest]
    simp only [bind, Except.bind, hdata]
    rfl
  have hsize : (moduleCount best).toNat * 5 + 2 * 2 < 65536 := by
    rw [moduleCount]
    omega
  obtain ⟨url, hurl, hread⟩ := picture_createDataURL (q := q) (by decide : 5 ≠ 0)
    (rfl : _ = (moduleCount best).toNat * 5 + 2 * 2) hsize
  refine ⟨url, q, ?_, rfl, h1, h40, fun size hsize => hsize ▸ hread, hreads maskPattern⟩
  rw [renderQR, hmake]
  simp only [bind, Except.bind, hurl]

/-- No symbol has room for a text that is too long. -/
theorem renderQR_overflow (getLostPoint : Modules → R) (htext : 2953 < text.length) :
    renderQR getLostPoint text = .textContent "(QR unavailable: undefined)".toList := by
  obtain ⟨best, hbest, -, h40, -, hfits⟩ :=
    bestType_spec .L [qr8BitByte text] (Nat.le_refl 1) (by decide)
  obtain rfl : best = 40 := by
    by_contra hne
    exact not_fitsInto htext (hfits (by omega))
  obtain ⟨bs, hbs, -⟩ := exists_symbol (by decide : 40 < 41) (by decide) .L
  have hw := getLengthInBits_byte (by decide : 40 < 41) (by decide)
  have hlt := Nat.lt_of_not_le fun hle => not_fitsInto htext ⟨bs, _, hbs, hw, hle⟩
  rw [renderQR, make, if_pos (by decide), hbest]
  simp only [bind, Except.bind, createData_overflow hbs hw hlt]

/-- A text that is not too long is scanned from the picture on the page, also when a few of the
    modules that are shown are damaged. For any other text, the page says that there is no
    picture. -/
theorem renderQR_scans (getLostPoint : Modules → R) (text : List UInt16) :
    (text.length ≤ 2953 → ∃ url p typeNumber maskPattern,
      renderQR getLostPoint text = .innerHTML (imgTag url) ∧ readDataURL url = some p ∧
      1 ≤ typeNumber ∧ typeNumber ≤ 40 ∧
      p.width = (moduleCount typeNumber).toNat * 5 + 2 * 2 ∧ p.height = p.width ∧
      ∀ shown, p.Shows (moduleCount typeNumber) 5 2 shown →
      ∀ dark, QrCode.Legible ⟨typeNumber, .L, maskPattern, fun r c => some (shown r c)⟩ dark →
      ∀ texts, Reads typeNumber dark texts ↔ texts = [stringToBytes text]) ∧
    (2953 < text.length →
      renderQR getLostPoint text = .textContent "(QR unavailable: undefined)".toList) := by
  refine ⟨fun htext => ?_, renderQR_overflow getLostPoint⟩
  obtain ⟨url, ⟨typeNumber, _, maskPattern, m⟩, hurl, rfl, h1, h40, hread, hreads⟩ :=
    renderQR_eq getLostPoint htext
  refine ⟨url, _, typeNumber, maskPattern, hurl, hread _ rfl, h1, h40, rfl, rfl,
    fun shown hshown dark hlegible => hreads dark (QrCode.legible_congr h1 ?_ hlegible)⟩
  exact darkOf_shown rfl hshown

/-- Whether bytes are scanned from what is in the element. -/
def QrElement.Scans (el : QrElement) (bytes : List ℕ) : Prop :=
  ∃ url p typeNumber shown, el = .innerHTML (imgTag url) ∧ readDataURL url = some p ∧
    p.width = (moduleCount typeNumber).toNat * 5 + 2 * 2 ∧
    p.Shows (moduleCount typeNumber) 5 2 shown ∧ Reads typeNumber shown [bytes]

theorem imgTag_injective {src src' : List Char} (h : imgTag src = imgTag src') : src = src' :=
  List.append_cancel_left (List.append_cancel_right h)

/-- Nothing but the text is scanned. -/
theorem bytes_of_scans {getLostPoint : Modules → R} {bytes : List ℕ}
    (h : (renderQR getLostPoint text).Scans bytes) : bytes = stringToBytes text := by
  obtain ⟨url, p, typeNumber, shown, hel, hread, hwidth, hshown, hreads⟩ := h
  by_cases htext : text.length ≤ 2953
  · obtain ⟨url', q, hurl, -, h1, -, hread', hall⟩ := renderQR_eq getLostPoint htext
    obtain rfl := imgTag_injective (QrElement.innerHTML.inj (hel.symm.trans hurl))
    obtain rfl := Option.some.inj (hread.symm.trans (hread' _ rfl))
    -- the version is known from the size of the picture
    obtain rfl : typeNumber = q.typeNumber := by
      simp only [moduleCount] at hwidth
      omega
    have hdark := reads_congr h1 (darkOf_shown rfl hshown) [bytes]
    exact List.singleton_inj.1 ((hall _ q.legible_self _).1 (hdark.1 hreads))
  · rw [renderQR_overflow getLostPoint (Nat.lt_of_not_le htext)] at hel
    cases hel

end

end IrohWebrtc
