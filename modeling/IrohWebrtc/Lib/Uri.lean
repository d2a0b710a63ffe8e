import IrohWebrtc.Lib.Utf8
import Mathlib.Data.List.Infix

/-!
# Escapes in URIs

Bytes of a character as escapes of two digits. `encodeURIComponent` escapes all but
unreserved characters, and has no escape for half of a surrogate pair.
`decodeURIComponent` decodes escapes and fails when they are malformed. The decoding of
forms never does (`formGet`): it takes what is no escape as it is.
-/

namespace IrohWebrtc.Uri

/-! ## Escapes -/

/-- A code point of a string: a character, or half of a surrogate pair alone. -/
inductive CodePoint
  | char (c : Char)
  | surrogate (n : Fin 2048)
  deriving DecidableEq

def CodePoint.char? : CodePoint → Option Char
  | .char c => some c
  | .surrogate _ => none

def hexDigit (n : ℕ) : Char := "0123456789ABCDEF".toList.getD n '0'

/-- The value of a digit, in upper or lower case. -/
def hexVal (c : Char) : Option ℕ :=
  if c.isDigit then some (c.toNat - 48)
  else if 'A' ≤ c ∧ c ≤ 'F' then some (c.toNat - 55)
  else if 'a' ≤ c ∧ c ≤ 'f' then some (c.toNat - 87)
  else none

def escapeByte (b : UInt8) : List Char :=
  ['%', hexDigit (b.toNat / 16), hexDigit (b.toNat % 16)]

/-- The escape of a character. -/
def escape (c : Char) : List Char := (String.utf8EncodeChar c).flatMap escapeByte

def isUnreserved (c : Char) : Bool :=
  c.isAlphanum || c ∈ ['-', '_', '.', '!', '~', '*', '\'', '(', ')']

def encodeChar (c : Char) : List Char := if isUnreserved c then [c] else escape c

def encodeURIComponent (s : List CodePoint) : Option (List Char) :=
  (s.mapM CodePoint.char?).map fun cs => cs.flatMap encodeChar

/-- The byte of an escape, and what follows. -/
def octet : List Char → Option (UInt8 × List Char)
  | '%' :: h :: l :: s =>
    match hexVal h, hexVal l with
    | some m, some n => some (.ofNat (16 * m + n), s)
    | _, _ => none
  | _ => none

def octets : ℕ → List Char → Option (List UInt8 × List Char)
  | 0, s => some ([], s)
  | n + 1, s => (octet s).bind fun (b, s) => (octets n s).map fun (bs, s) => (b :: bs, s)

/-- The length of the sequence that begins with a byte, 0 if none does. -/
def sequenceLength (b : UInt8) : ℕ :=
  if b < 0x80 then 1 else if b < 0xc0 then 0 else if b < 0xe0 then 2 else if b < 0xf0 then 3
  else if b < 0xf8 then 4 else 0

/-- The character of the escapes at the front. -/
def escaped (s : List Char) : Option (Char × List Char) :=
  (octet s).bind fun (b, _) => (octets (sequenceLength b) s).bind fun (bs, rest) =>
    (bs.toByteArray.utf8DecodeChar? 0).bind fun c =>
      if c.utf8Size = bs.length then some (c, rest) else none

/-- `decodeURIComponent`, of up to `fuel` characters. -/
def decodeFuel : ℕ → List Char → Option (List Char)
  | _, [] => some []
  | 0, _ :: _ => none
  | fuel + 1, c :: s =>
    if c = '%' then (escaped (c :: s)).bind fun (c, rest) => (decodeFuel fuel rest).map (c :: ·)
    else (decodeFuel fuel s).map (c :: ·)

def decodeURIComponent (s : List Char) : Option (List Char) := decodeFuel s.length s

/-! ## Forms -/

/-- A digit among bytes. -/
def hexByte (b : UInt8) : Option ℕ := hexVal (.ofNat b.toNat)

/-- Bytes with escapes decoded, and what is no escape as it is. -/
def percentDecode : List UInt8 → List UInt8
  | [] => []
  | b :: rest =>
    match b, rest with
    | 0x25, h :: l :: rest =>
      match hexByte h, hexByte l with
      | some m, some n => .ofNat (16 * m + n) :: percentDecode rest
      | _, _ => 0x25 :: percentDecode (h :: l :: rest)
    | b, rest => b :: percentDecode rest

/-- The text of a name or value in a form. -/
def formDecode (bytes : List UInt8) : List Char :=
  (fromUtf8Lossy (percentDecode (bytes.map fun b => if b = 0x2b then 0x20 else b))).toList

/-- The names and values of a form. -/
def formEntries (bytes : List UInt8) : List (List Char × List Char) :=
  ((bytes.splitOn 0x26).filter (· ≠ [])).map fun entry =>
    (formDecode (entry.takeWhile (· ≠ 0x3d)), formDecode (entry.dropWhile (· ≠ 0x3d)).tail)

/-- The first value that a name has in the form `s`. -/
def formGet (s name : List Char) : Option (List Char) :=
  (formEntries (s.flatMap String.utf8EncodeChar)).lookup name

variable {c : Char} {s t cs name rest : List Char} {bytes : List UInt8} {n fuel : ℕ}

/-! ## Decoding what is encoded -/

/-- The bytes with a meaning in forms, apart from escapes. -/
def IsMark (b : UInt8) : Prop := b ∈ [0x26, 0x2b, 0x3d]

theorem hexDigit_facts (h : n < 16) :
    String.utf8EncodeChar (hexDigit n) = [.ofNat (hexDigit n).toNat] ∧
      hexByte (.ofNat (hexDigit n).toNat) = some n ∧
      .ofNat (hexDigit n).toNat ∉ [(0x26 : UInt8), 0x2b, 0x3d] := by
  revert n
  decide +kernel

theorem toNat_lt_of_isUnreserved (h : isUnreserved c) : c.toNat < 128 := by
  rw [isUnreserved, Bool.or_eq_true, decide_eq_true_eq] at h
  rcases h with h | h
  · exact Nat.lt_trans (toNat_lt_of_isAlphanum h) (by decide)
  · have hall : ∀ c ∈ ['-', '_', '.', '!', '~', '*', '\'', '(', ')'], c.toNat < 128 := by decide
    exact hall c h

theorem isUnreserved_facts (h : isUnreserved c) :
    String.utf8EncodeChar c = [.ofNat c.toNat] ∧
      .ofNat c.toNat ∉ [(0x25 : UInt8), 0x26, 0x2b, 0x3d] := by
  have hall : ∀ n < 128, isUnreserved (.ofNat n) →
      String.utf8EncodeChar (.ofNat n) = [.ofNat n] ∧
        .ofNat n ∉ [(0x25 : UInt8), 0x26, 0x2b, 0x3d] := by
    decide +kernel
  have hc := hall c.toNat (toNat_lt_of_isUnreserved h)
  rw [Char.ofNat_toNat] at hc
  exact hc h

theorem bytes_escapeByte (b : UInt8) : (escapeByte b).flatMap String.utf8EncodeChar =
    [0x25, .ofNat (hexDigit (b.toNat / 16)).toNat, .ofNat (hexDigit (b.toNat % 16)).toNat] := by
  have hb := b.toNat_lt
  have h₁ := (hexDigit_facts (n := b.toNat / 16) (by omega)).1
  have h₂ := (hexDigit_facts (n := b.toNat % 16) (by omega)).1
  have h₀ : String.utf8EncodeChar '%' = [0x25] := by decide
  simp only [escapeByte, List.flatMap_cons, List.flatMap_nil, h₀, h₁, h₂, List.cons_append,
    List.nil_append]

/-- There are no marks in what is encoded. -/
theorem not_isMark_encodeChar {b : UInt8}
    (hb : b ∈ (encodeChar c).flatMap String.utf8EncodeChar) : ¬ IsMark b := by
  rw [encodeChar] at hb
  split_ifs at hb with h
  · obtain ⟨henc, hne⟩ := isUnreserved_facts h
    rw [List.flatMap_cons, List.flatMap_nil, List.append_nil, henc, List.mem_singleton] at hb
    subst hb
    exact fun hmark => hne (List.mem_cons_of_mem _ hmark)
  · rw [escape, List.flatMap_assoc, List.mem_flatMap] at hb
    obtain ⟨a, -, hb⟩ := hb
    have ha := a.toNat_lt
    simp only [bytes_escapeByte, List.mem_cons, List.not_mem_nil, or_false] at hb
    rcases hb with rfl | rfl | rfl
    · exact show ¬ (0x25 : UInt8) ∈ [(0x26 : UInt8), 0x2b, 0x3d] by decide
    · exact (hexDigit_facts (by omega)).2.2
    · exact (hexDigit_facts (by omega)).2.2

theorem percentDecode_cons {b : UInt8} (h : b ≠ 0x25) :
    percentDecode (b :: bytes) = b :: percentDecode bytes := by
  rw [percentDecode]
  exact fun _ _ _ hb _ => h hb

theorem percentDecode_escapeByte (b : UInt8) :
    percentDecode ((escapeByte b).flatMap String.utf8EncodeChar ++ bytes) =
      b :: percentDecode bytes := by
  have hb := b.toNat_lt
  have h₁ := (hexDigit_facts (n := b.toNat / 16) (by omega)).2.1
  have h₂ := (hexDigit_facts (n := b.toNat % 16) (by omega)).2.1
  have hval : 16 * (b.toNat / 16) + b.toNat % 16 = b.toNat := Nat.div_add_mod _ _
  rw [bytes_escapeByte, List.cons_append, List.cons_append, List.cons_append, List.nil_append,
    percentDecode]
  simp only [h₁, h₂, hval, UInt8.ofNat_toNat]

theorem percentDecode_encodeChar :
    percentDecode ((encodeChar c).flatMap String.utf8EncodeChar ++ bytes) =
      String.utf8EncodeChar c ++ percentDecode bytes := by
  rw [encodeChar]
  split_ifs with h
  · obtain ⟨henc, hne⟩ := isUnreserved_facts h
    rw [List.flatMap_cons, List.flatMap_nil, List.append_nil, henc, List.singleton_append,
      percentDecode_cons fun heq => hne (heq ▸ List.mem_cons_self)]
    rfl
  · rw [escape, List.flatMap_assoc]
    induction String.utf8EncodeChar c with
    | nil => rfl
    | cons b bs ih => rw [List.flatMap_cons, List.append_assoc, percentDecode_escapeByte, ih]; rfl

theorem not_isMark_encode {b : UInt8}
    (hb : b ∈ (cs.flatMap encodeChar).flatMap String.utf8EncodeChar) : ¬ IsMark b := by
  rw [List.flatMap_assoc, List.mem_flatMap] at hb
  obtain ⟨c, -, hb⟩ := hb
  exact not_isMark_encodeChar hb

theorem percentDecode_encode :
    percentDecode ((cs.flatMap encodeChar).flatMap String.utf8EncodeChar) =
      cs.flatMap String.utf8EncodeChar := by
  induction cs with
  | nil => rfl
  | cons c cs ih =>
    rw [List.flatMap_cons, List.flatMap_append, percentDecode_encodeChar, ih, List.flatMap_cons]

/-- Decoding a name or value of a form gives back what has been encoded. -/
theorem formDecode_encode :
    formDecode ((cs.flatMap encodeChar).flatMap String.utf8EncodeChar) = cs := by
  have hplus : ((cs.flatMap encodeChar).flatMap String.utf8EncodeChar).map
      (fun b => if b = 0x2b then 0x20 else b) =
      (cs.flatMap encodeChar).flatMap String.utf8EncodeChar := by
    refine (List.map_congr_left fun b hb => if_neg ?_).trans (List.map_id _)
    rintro rfl
    exact not_isMark_encode hb (show (0x2b : UInt8) ∈ [(0x26 : UInt8), 0x2b, 0x3d] by decide)
  rw [formDecode, hplus, percentDecode_encode, ← String.toList_ofList (l := cs), ← asBytes_eq,
    fromUtf8Lossy_asBytes]

theorem flatMap_encodeChar_of_isUnreserved (h : ∀ c ∈ name, isUnreserved c) :
    name.flatMap encodeChar = name := by
  induction name with
  | nil => rfl
  | cons c name ih =>
    rw [List.flatMap_cons, ih fun c hc => h c (List.mem_cons_of_mem _ hc), encodeChar,
      if_pos (h c List.mem_cons_self)]
    rfl

/-- The entry of a form of one. -/
theorem formEntries_encode (h : ∀ c ∈ name, isUnreserved c) :
    formEntries ((name ++ '=' :: cs.flatMap encodeChar).flatMap String.utf8EncodeChar) =
      [(name, cs)] := by
  have hbytes : (name ++ '=' :: cs.flatMap encodeChar).flatMap String.utf8EncodeChar =
      (name.flatMap encodeChar).flatMap String.utf8EncodeChar ++
        0x3d :: (cs.flatMap encodeChar).flatMap String.utf8EncodeChar := by
    rw [flatMap_encodeChar_of_isUnreserved h, List.flatMap_append, List.flatMap_cons]
    rfl
  have hmark : ∀ {cs : List Char} {m : UInt8}, IsMark m →
      m ∉ (cs.flatMap encodeChar).flatMap String.utf8EncodeChar :=
    fun hm hb => not_isMark_encode hb hm
  have hamp : IsMark 0x26 := List.mem_cons_self
  have heq : IsMark 0x3d := List.mem_cons_of_mem _ (List.mem_cons_of_mem _ List.mem_cons_self)
  have hsplit : ((name.flatMap encodeChar).flatMap String.utf8EncodeChar ++
      0x3d :: (cs.flatMap encodeChar).flatMap String.utf8EncodeChar).splitOn 0x26 =
      [(name.flatMap encodeChar).flatMap String.utf8EncodeChar ++
        0x3d :: (cs.flatMap encodeChar).flatMap String.utf8EncodeChar] := by
    refine List.splitOnP_eq_singleton fun b hb => ?_
    rw [beq_eq_false_iff_ne]
    rintro rfl
    rcases List.mem_append.1 hb with hb | hb
    · exact hmark hamp hb
    · rcases List.mem_cons.1 hb with hb | hb
      · exact absurd hb (by decide)
      · exact hmark hamp hb
  have hname : ∀ b ∈ (name.flatMap encodeChar).flatMap String.utf8EncodeChar,
      decide (b ≠ 0x3d) = true := by
    intro b hb
    rw [decide_eq_true_eq]
    rintro rfl
    exact hmark heq hb
  rw [formEntries, hbytes, hsplit, List.filter_cons_of_pos (by simp),
    List.filter_nil, List.map_singleton, List.takeWhile_append_of_pos hname,
    List.dropWhile_append_of_pos hname, List.takeWhile_cons_of_neg (by simp),
    List.dropWhile_cons_of_neg (by simp), List.append_nil, List.tail_cons, formDecode_encode,
    formDecode_encode]

/-- The value of a form of one entry. -/
theorem formGet_encode (h : ∀ c ∈ name, isUnreserved c) :
    formGet (name ++ '=' :: cs.flatMap encodeChar) name = some cs := by
  rw [formGet, formEntries_encode h, List.lookup_cons_self]

/-- Other names have no value. -/
theorem formGet_encode_of_ne (h : ∀ c ∈ name, isUnreserved c) {key : List Char}
    (hne : key ≠ name) : formGet (name ++ '=' :: cs.flatMap encodeChar) key = none := by
  rw [formGet, formEntries_encode h, List.lookup_cons, beq_false_of_ne hne]
  rfl

/-! ## Decoding what has no escapes, or some -/

theorem decodeFuel_of_not_mem (h : '%' ∉ s) (hfuel : s.length ≤ fuel) :
    decodeFuel fuel s = some s := by
  induction s generalizing fuel with
  | nil => cases fuel <;> rfl
  | cons c s ih =>
    obtain _ | fuel := fuel
    · cases hfuel
    · rw [List.mem_cons, not_or] at h
      rw [decodeFuel, if_neg (Ne.symm h.1), ih h.2 (Nat.le_of_succ_le_succ hfuel), Option.map_some]

theorem decodeURIComponent_of_not_mem (h : '%' ∉ s) : decodeURIComponent s = some s :=
  decodeFuel_of_not_mem h (Nat.le_refl _)

theorem length_octet {b : UInt8} (h : octet s = some (b, rest)) : rest.length + 3 = s.length := by
  unfold octet at h
  split at h
  · split at h
    · cases h
      rfl
    · cases h
  · cases h

theorem length_octets {bs : List UInt8} (h : octets n s = some (bs, rest)) :
    rest.length + 3 * bs.length = s.length := by
  induction n generalizing s bs with
  | zero =>
    cases h
    rfl
  | succ n ih =>
    rw [octets, Option.bind_eq_some_iff] at h
    obtain ⟨⟨b, s'⟩, hb, h⟩ := h
    obtain ⟨⟨bs', rest'⟩, hbs, heq⟩ := Option.map_eq_some_iff.1 h
    cases heq
    have hlen := ih hbs
    have hlen' := length_octet hb
    rw [List.length_cons]
    omega

theorem length_escaped (h : escaped s = some (c, rest)) : rest.length + 3 ≤ s.length := by
  rw [escaped, Option.bind_eq_some_iff] at h
  obtain ⟨⟨b, s'⟩, -, h⟩ := h
  obtain ⟨⟨bs, rest'⟩, hbs, h⟩ := Option.bind_eq_some_iff.1 h
  obtain ⟨c', -, h⟩ := Option.bind_eq_some_iff.1 h
  split_ifs at h with hsize
  cases h
  have hlen := length_octets hbs
  have hpos := c.utf8Size_pos
  omega

theorem length_decodeFuel (h : decodeFuel fuel s = some t) :
    t.length ≤ s.length ∧ ('%' ∈ s → t.length < s.length) := by
  induction fuel generalizing s t with
  | zero =>
    cases s with
    | nil =>
      cases h
      exact ⟨Nat.le_refl _, fun hmem => nomatch hmem⟩
    | cons c s => cases h
  | succ fuel ih =>
    cases s with
    | nil =>
      cases h
      exact ⟨Nat.le_refl _, fun hmem => nomatch hmem⟩
    | cons c s =>
      rw [decodeFuel] at h
      split_ifs at h with hc
      · obtain ⟨⟨c', rest⟩, hescaped, h⟩ := Option.bind_eq_some_iff.1 h
        obtain ⟨t', ht, rfl⟩ := Option.map_eq_some_iff.1 h
        have hlen := length_escaped hescaped
        have hle := (ih ht).1
        rw [List.length_cons] at hlen ⊢
        exact ⟨by rw [List.length_cons]; omega, fun _ => by rw [List.length_cons]; omega⟩
      · obtain ⟨t', ht, rfl⟩ := Option.map_eq_some_iff.1 h
        obtain ⟨hle, hlt⟩ := ih ht
        refine ⟨Nat.succ_le_succ hle, fun hmem => Nat.succ_lt_succ (hlt ?_)⟩
        exact (List.mem_cons.1 hmem).resolve_left (Ne.symm hc)

/-- What is decoded is the same only if there is no escape. -/
theorem decodeURIComponent_eq_self : decodeURIComponent s = some s ↔ '%' ∉ s := by
  constructor
  · intro h hmem
    exact Nat.lt_irrefl _ ((length_decodeFuel h).2 hmem)
  · exact decodeURIComponent_of_not_mem

/-! ## Decoding parts -/

/-- Whether a byte is escaped. -/
def hasEscape (b : UInt8) (s : List Char) : Bool := s.tails.any fun t => (octet t).any (·.1 = b)

theorem hasEscape_iff {b : UInt8} :
    hasEscape b s ↔ ∃ t, t <:+ s ∧ ∃ rest, octet t = some (b, rest) := by
  simp only [hasEscape, List.any_eq_true, List.mem_tails, Option.any_eq_true, decide_eq_true_eq,
    Prod.exists, exists_and_right, exists_eq_right]

theorem hasEscape_of_suffix {b : UInt8} (h : hasEscape b t) (hs : t <:+ s) : hasEscape b s := by
  obtain ⟨u, hu, hoctet⟩ := hasEscape_iff.1 h
  exact hasEscape_iff.2 ⟨u, hu.trans hs, hoctet⟩

theorem octet_eq_none (h : '%' ∉ s) : octet s = none := by
  unfold octet
  split
  · exact absurd List.mem_cons_self h
  · rfl

theorem not_hasEscape {b : UInt8} (h : '%' ∉ s) : ¬ hasEscape b s := fun hb => by
  obtain ⟨t, ht, rest, hoctet⟩ := hasEscape_iff.1 hb
  rw [octet_eq_none fun hmem => h (ht.mem hmem)] at hoctet
  cases hoctet

theorem octet_eq_some {b : UInt8} (h : octet s = some (b, rest)) : ∃ d e m n,
    s = '%' :: d :: e :: rest ∧ hexVal d = some m ∧ hexVal e = some n ∧
      b = .ofNat (16 * m + n) := by
  unfold octet at h
  split at h
  · next d e s =>
    split at h
    · next m n hd he =>
      cases h
      exact ⟨d, e, m, n, rfl, hd, he, rfl⟩
    · cases h
  · cases h

theorem octet_of_ne (h : c ≠ '%') : octet (c :: s) = none := by
  unfold octet
  split
  · next heq => exact absurd (List.cons_eq_cons.1 heq).1 h
  · rfl

/-- A character that no escape has in it separates what is decoded. -/
structure Separates (c : Char) : Prop where
  ne : c ≠ '%'
  hexVal : hexVal c = none

theorem octet_append (hc : Separates c) :
    octet (s ++ c :: t) = (octet s).map fun p => (p.1, p.2 ++ c :: t) := by
  match s with
  | [] => rw [List.nil_append, octet_of_ne hc.ne]; rfl
  | [x] =>
    rcases eq_or_ne x '%' with rfl | hx
    · rcases t with _ | ⟨y, t⟩
      · rfl
      · simp [octet, hc.hexVal]
    · rw [List.cons_append, octet_of_ne hx, octet_of_ne hx]; rfl
  | [x, y] =>
    rcases eq_or_ne x '%' with rfl | hx
    · simp [octet, hc.hexVal]
    · rw [List.cons_append, octet_of_ne hx, octet_of_ne hx]; rfl
  | x :: y :: z :: s =>
    rcases eq_or_ne x '%' with rfl | hx
    · simp only [List.cons_append, octet]
      split <;> rfl
    · rw [List.cons_append, octet_of_ne hx, octet_of_ne hx]; rfl

theorem octets_append (hc : Separates c) :
    octets n (s ++ c :: t) = (octets n s).map fun p => (p.1, p.2 ++ c :: t) := by
  induction n generalizing s with
  | zero => rfl
  | succ n ih =>
    rw [octets, octets, octet_append hc]
    rcases octet s with _ | ⟨b, u⟩
    · rfl
    · rw [Option.map_some, Option.bind_some, Option.bind_some]
      dsimp only
      rw [ih]
      cases octets n u <;> rfl

theorem escaped_append (hc : Separates c) :
    escaped (s ++ c :: t) = (escaped s).map fun p => (p.1, p.2 ++ c :: t) := by
  rw [escaped, escaped, octet_append hc]
  rcases octet s with _ | ⟨b, u⟩
  · rfl
  · rw [Option.map_some, Option.bind_some, Option.bind_some]
    dsimp only
    rw [octets_append hc]
    rcases octets (sequenceLength b) s with _ | ⟨bs, v⟩
    · rfl
    · rw [Option.map_some, Option.bind_some, Option.bind_some]
      dsimp only
      cases bs.toByteArray.utf8DecodeChar? 0 with
      | none => rfl
      | some d =>
        rw [Option.bind_some, Option.bind_some]
        split_ifs <;> rfl

/-- Enough fuel is enough. -/
theorem decodeFuel_eq {fuel' : ℕ} (h : s.length ≤ fuel) (h' : s.length ≤ fuel') :
    decodeFuel fuel s = decodeFuel fuel' s := by
  induction fuel generalizing s fuel' with
  | zero =>
    obtain rfl := List.length_eq_zero_iff.1 (Nat.le_zero.1 h)
    cases fuel' <;> rfl
  | succ fuel ih =>
    rcases s with _ | ⟨c, s⟩
    · cases fuel' <;> rfl
    · obtain _ | fuel' := fuel'
      · cases h'
      · rw [List.length_cons] at h h'
        rw [decodeFuel, decodeFuel, ih (Nat.le_of_succ_le_succ h) (Nat.le_of_succ_le_succ h')]
        rcases hescaped : escaped (c :: s) with _ | ⟨d, rest⟩
        · rfl
        · have hlen := length_escaped hescaped
          rw [List.length_cons] at hlen
          have hrest : decodeFuel fuel rest = decodeFuel fuel' rest := ih (by omega) (by omega)
          rw [Option.bind_some, Option.bind_some]
          dsimp only
          rw [hrest]

theorem decodeURIComponent_cons (h : c ≠ '%') :
    decodeURIComponent (c :: s) = (decodeURIComponent s).map (c :: ·) := by
  rw [decodeURIComponent, List.length_cons, decodeFuel, if_neg h, ← decodeURIComponent]

theorem decodeURIComponent_escape : decodeURIComponent ('%' :: s) =
    (escaped ('%' :: s)).bind fun p => (decodeURIComponent p.2).map (p.1 :: ·) := by
  rw [decodeURIComponent, List.length_cons, decodeFuel, if_pos rfl]
  rcases hescaped : escaped ('%' :: s) with _ | ⟨c, rest⟩
  · rfl
  · have hlen := length_escaped hescaped
    rw [List.length_cons] at hlen
    rw [Option.bind_some, Option.bind_some, decodeURIComponent]
    dsimp only
    rw [decodeFuel_eq (Nat.le_of_lt_succ (by omega)) (Nat.le_refl _)]

theorem decodeURIComponent_append (hc : Separates c) : decodeURIComponent (s ++ c :: t) =
    (decodeURIComponent s).bind fun a => (decodeURIComponent t).map fun b => a ++ c :: b := by
  -- By the length, as the escapes of a character are taken all at once.
  induction hn : s.length using Nat.strong_induction_on generalizing s with
  | _ n ih =>
    rcases s with _ | ⟨d, s⟩
    · rw [List.nil_append, decodeURIComponent_cons hc.ne]
      rfl
    · rw [List.length_cons] at hn
      rcases eq_or_ne d '%' with rfl | hd
      · have hescape := escaped_append (s := '%' :: s) (t := t) hc
        rw [List.cons_append] at hescape
        rw [List.cons_append, decodeURIComponent_escape, decodeURIComponent_escape, hescape]
        rcases hescaped : escaped ('%' :: s) with _ | ⟨e, rest⟩
        · rfl
        · have hlen := length_escaped hescaped
          rw [List.length_cons] at hlen
          rw [Option.map_some, Option.bind_some, Option.bind_some]
          dsimp only
          rw [ih rest.length (by omega) rfl]
          cases decodeURIComponent rest with
          | none => rfl
          | some a => cases decodeURIComponent t <;> rfl
      · rw [List.cons_append, decodeURIComponent_cons hd, decodeURIComponent_cons hd,
          ih s.length (by omega) rfl]
        cases decodeURIComponent s with
        | none => rfl
        | some a => cases decodeURIComponent t <;> rfl

/-- What separates is in no escape. -/
theorem hasEscape_append {b : UInt8} (hc : Separates c) :
    hasEscape b (s ++ c :: t) ↔ hasEscape b s ∨ hasEscape b t := by
  constructor
  · intro h
    obtain ⟨u, hu, rest, hoctet⟩ := hasEscape_iff.1 h
    obtain ⟨v, hv⟩ := hu
    rcases List.append_eq_append_iff.1 hv with ⟨w, rfl, rfl⟩ | ⟨w, rfl, heq⟩
    · -- An escape that starts before `c` ends before it.
      rw [octet_append hc, Option.map_eq_some_iff] at hoctet
      obtain ⟨⟨b', rest'⟩, hoctet, heq⟩ := hoctet
      obtain ⟨rfl, -⟩ := Prod.mk.inj heq
      exact .inl (hasEscape_iff.2 ⟨w, List.suffix_append _ _, rest', hoctet⟩)
    · rcases w with _ | ⟨d, w⟩
      · rw [List.nil_append] at heq
        rw [← heq, octet_of_ne hc.ne] at hoctet
        cases hoctet
      · obtain ⟨rfl, rfl⟩ := List.cons_eq_cons.1 heq
        exact .inr (hasEscape_iff.2 ⟨u, List.suffix_append _ _, rest, hoctet⟩)
  · rintro (h | h)
    · obtain ⟨u, hu, rest, hoctet⟩ := hasEscape_iff.1 h
      refine hasEscape_iff.2 ⟨u ++ c :: t, ?_, rest ++ c :: t, by rw [octet_append hc, hoctet]; rfl⟩
      obtain ⟨v, rfl⟩ := hu
      exact ⟨v, by rw [List.append_assoc]⟩
    · exact hasEscape_of_suffix h ((List.suffix_cons c t).trans (List.suffix_append s _))

/-! ## What is decoded -/

theorem suffix_octet {b : UInt8} (h : octet s = some (b, rest)) : rest <:+ s := by
  obtain ⟨d, e, m, n, rfl, -⟩ := octet_eq_some h
  exact ⟨['%', d, e], rfl⟩

theorem suffix_octets {bs : List UInt8} (h : octets n s = some (bs, rest)) : rest <:+ s := by
  induction n generalizing s bs with
  | zero =>
    cases h
    exact List.suffix_rfl
  | succ n ih =>
    rw [octets, Option.bind_eq_some_iff] at h
    obtain ⟨⟨b, s'⟩, hb, h⟩ := h
    obtain ⟨⟨bs', rest'⟩, hbs, heq⟩ := Option.map_eq_some_iff.1 h
    cases heq
    exact (ih hbs).trans (suffix_octet hb)

theorem length_octets_eq {bs : List UInt8} (h : octets n s = some (bs, rest)) : bs.length = n := by
  induction n generalizing s bs with
  | zero =>
    cases h
    rfl
  | succ n ih =>
    rw [octets, Option.bind_eq_some_iff] at h
    obtain ⟨⟨b, s'⟩, hb, h⟩ := h
    obtain ⟨⟨bs', rest'⟩, hbs, heq⟩ := Option.map_eq_some_iff.1 h
    cases heq
    rw [List.length_cons, ih hbs]

/-- The escapes of a character are those of its bytes. -/
theorem octets_of_escaped (h : escaped s = some (c, rest)) :
    octets c.utf8Size s = some (String.utf8EncodeChar c, rest) := by
  rw [escaped, Option.bind_eq_some_iff] at h
  obtain ⟨⟨b, s'⟩, -, h⟩ := h
  obtain ⟨⟨bs, rest'⟩, hbs, h⟩ := Option.bind_eq_some_iff.1 h
  obtain ⟨c', hdecode, h⟩ := Option.bind_eq_some_iff.1 h
  split_ifs at h with hsize
  cases h
  obtain ⟨l, hl⟩ := ByteArray.exists_of_utf8DecodeChar?_eq_some hdecode
  have hbytes := congrArg (·.data.toList) hl
  simp only [ByteArray.data_append, Array.toList_append, List.toList_data_toByteArray] at hbytes
  -- The bytes are no more than those of the character.
  have hnil : l.data.toList = [] := by
    have hlen := congrArg List.length hbytes
    rw [List.length_append, String.length_utf8EncodeChar] at hlen
    exact List.length_eq_zero_iff.1 (by omega)
  rw [hnil, List.append_nil] at hbytes
  rw [← hbytes, hsize, length_octets_eq hbs, hbs]

/-- The escape of an ASCII character is that of one byte. -/
theorem octet_of_escaped (h : escaped s = some (c, rest)) (hc : c.toNat < 128) :
    octet s = some (.ofNat c.toNat, rest) := by
  have hoctets := octets_of_escaped h
  have hsize : c.utf8Size = 1 := Char.utf8Size_eq_one_iff.2 (Nat.le_of_lt_succ hc)
  rw [hsize, String.utf8EncodeChar_eq_singleton hsize, octets, Option.bind_eq_some_iff] at hoctets
  obtain ⟨⟨b, s'⟩, hb, heq⟩ := hoctets
  cases heq
  exact hb

/-- Where an ASCII character that is decoded comes from. -/
theorem decode_eq_cons (h : decodeURIComponent s = some (c :: t)) (hc : c.toNat < 128) :
    ∃ rest, decodeURIComponent rest = some t ∧
      (s = c :: rest ∨ octet s = some (.ofNat c.toNat, rest)) := by
  rcases s with _ | ⟨d, s⟩
  · cases h
  · rcases eq_or_ne d '%' with rfl | hd
    · rw [decodeURIComponent_escape, Option.bind_eq_some_iff] at h
      obtain ⟨⟨e, rest⟩, hescaped, h⟩ := h
      obtain ⟨t', ht, heq⟩ := Option.map_eq_some_iff.1 h
      cases heq
      exact ⟨rest, ht, .inr (octet_of_escaped hescaped hc)⟩
    · rw [decodeURIComponent_cons hd, Option.map_eq_some_iff] at h
      obtain ⟨t', ht, heq⟩ := h
      cases heq
      exact ⟨s, ht, .inl rfl⟩

/-- An ASCII character that is decoded was there, or escaped. -/
theorem mem_decode (h : decodeURIComponent s = some t) (hmem : c ∈ t) (hc : c.toNat < 128) :
    c ∈ s ∨ hasEscape (.ofNat c.toNat) s := by
  induction t generalizing s with
  | nil => cases hmem
  | cons d t ih =>
    rcases s with _ | ⟨e, s⟩
    · cases h
    · rcases eq_or_ne e '%' with rfl | he
      · rw [decodeURIComponent_escape, Option.bind_eq_some_iff] at h
        obtain ⟨⟨d', rest⟩, hescaped, h⟩ := h
        obtain ⟨t', ht, heq⟩ := Option.map_eq_some_iff.1 h
        cases heq
        rcases List.mem_cons.1 hmem with rfl | hmem
        · exact .inr (hasEscape_iff.2 ⟨_, List.suffix_rfl, rest, octet_of_escaped hescaped hc⟩)
        · have hrest := suffix_octets (octets_of_escaped hescaped)
          exact (ih ht hmem).imp (hrest.mem ·) (hasEscape_of_suffix · hrest)
      · rw [decodeURIComponent_cons he, Option.map_eq_some_iff] at h
        obtain ⟨t', ht, heq⟩ := h
        cases heq
        rcases List.mem_cons.1 hmem with rfl | hmem
        · exact .inl List.mem_cons_self
        · exact (ih ht hmem).imp (List.mem_cons_of_mem _)
            (hasEscape_of_suffix · (List.suffix_cons _ _))

theorem decode_eq_nil (h : decodeURIComponent s = some []) : s = [] := by
  rcases s with _ | ⟨c, s⟩
  · rfl
  · rcases eq_or_ne c '%' with rfl | hc
    · rw [decodeURIComponent_escape, Option.bind_eq_some_iff] at h
      obtain ⟨p, -, h⟩ := h
      obtain ⟨t, -, heq⟩ := Option.map_eq_some_iff.1 h
      cases heq
    · rw [decodeURIComponent_cons hc, Option.map_eq_some_iff] at h
      obtain ⟨t, -, heq⟩ := h
      cases heq

/-- Each escape is of one character at least. -/
theorem length_decode (h : decodeURIComponent s = some t) : t.length ≤ s.length :=
  (length_decodeFuel h).1

theorem hexVal_eq_some (h : hexVal c = some n) :
    n < 16 ∧ (c = hexDigit n ∨ c = (hexDigit n).toLower) := by
  have hall : ∀ k < 128, ∀ n ∈ hexVal (.ofNat k), n < 16 ∧
      (.ofNat k = hexDigit n ∨ .ofNat k = (hexDigit n).toLower) := by
    decide +kernel
  have hc : c.toNat < 128 := by
    simp only [hexVal, Char.isDigit, Bool.and_eq_true, decide_eq_true_eq] at h
    split_ifs at h with h₁ h₂ h₃
    · exact Nat.lt_of_le_of_lt (show c.toNat ≤ 57 from h₁.2) (by decide)
    · exact Nat.lt_of_le_of_lt (show c.toNat ≤ 70 from h₂.2) (by decide)
    · exact Nat.lt_of_le_of_lt (show c.toNat ≤ 102 from h₃.2) (by decide)
  have hc' := hall c.toNat hc n
  rw [Char.ofNat_toNat] at hc'
  exact hc' h

/-- The escape of a byte, its digits in upper or lower case. -/
theorem octet_toLower {b : UInt8} (h : octet s = some (b, rest)) :
    ∃ d e, s = '%' :: d :: e :: rest ∧ d.toLower = (hexDigit (b.toNat / 16)).toLower ∧
      e.toLower = (hexDigit (b.toNat % 16)).toLower := by
  obtain ⟨d, e, m, n, rfl, hd, he, rfl⟩ := octet_eq_some h
  obtain ⟨hm, hd⟩ := hexVal_eq_some hd
  obtain ⟨hn, he⟩ := hexVal_eq_some he
  have hb : (UInt8.ofNat (16 * m + n)).toNat = 16 * m + n :=
    UInt8.toNat_ofNat_of_lt' (show 16 * m + n < 256 by omega)
  have hlower : ∀ k < 16, (hexDigit k).toLower.toLower = (hexDigit k).toLower := by decide
  have hdiv : (16 * m + n) / 16 = m := by omega
  have hmod : (16 * m + n) % 16 = n := by omega
  refine ⟨d, e, rfl, ?_, ?_⟩
  · rw [hb, hdiv]
    rcases hd with rfl | rfl
    · rfl
    · exact hlower m hm
  · rw [hb, hmod]
    rcases he with rfl | rfl
    · rfl
    · exact hlower n hn

end IrohWebrtc.Uri
