import IrohWebrtc.Lib.Uri
import IrohWebrtc.Sdp.RoundTrip

/-!
# Links to share

A packed string is escaped once in a link, for an offer or for an answer, and what is
read back has been decoded twice: as the parameter of a form and then by
`decodeURIComponent`. It is the packed string if there is no escape sign in this
(`recovers_iff`).
-/

namespace IrohWebrtc

open Uri (CodePoint encodeURIComponent decodeURIComponent)

/-! ## Making links -/

/-- The page's origin and path `page`, and a hash. -/
def linkFor (page hash : Str) : Str := page ++ hash

/-- The link of a packed string, for an offer or an answer. -/
def shareLink (page key : Str) (packed : List CodePoint) : Option Str :=
  (encodeURIComponent packed).map fun e => linkFor page ('#' :: key ++ '=' :: e)

/-! ## Reading them -/

/-- Whether a character is not escaped in the fragment of a URL. -/
def isFragment (c : Char) : Bool := '!' ≤ c && c ≤ '~' && c ∉ ['"', '<', '>', '`']

/-- `location.hash` on the page that a link opens. -/
def locationHash (link : Str) : Str :=
  (link.dropWhile (· ≠ '#')).flatMap fun c => if isFragment c then [c] else Uri.escape c

/-- `new URLSearchParams(s).get(name)` -/
def searchParam (s name : Str) : Option Str :=
  Uri.formGet (if s.head? = some '?' then s.tail else s) name

/-- The packed string in a parameter, if there is one. Decoding it can throw. -/
def readParam (s name : Str) : Option (Option Str) :=
  match searchParam s name with
  | none | some [] => none
  | some v => some (decodeURIComponent v)

def readOffer (hash : Str) : Option (Option Str) := readParam (hash.drop 1) "offer".toList

/-- `s.trim()` -/
def trim (s : Str) : Str := (s.dropWhile isSpace).rdropWhile isSpace

/-- `v.slice(v.indexOf("#") + 1)` -/
def afterHash (v : Str) : Str := if '#' ∈ v then (v.dropWhile (· ≠ '#')).tail else v

def readAnswer (pasted : Str) : Option (Option Str) :=
  readParam (afterHash (trim pasted)) "answer".toList

/-! ## The way of a packed string -/

/-- On both ways the packed string arrives, and nothing throws. -/
def Recovers (packed : List CodePoint) : Prop :=
  ∀ page before after : Str, '#' ∉ page → (∀ c ∈ before, isSpace c) → (∀ c ∈ after, isSpace c) →
    (∃ link v, shareLink page "offer".toList packed = some link ∧
      readOffer (locationHash link) = some (some v) ∧ v.map .char = packed) ∧
    ∃ link v, shareLink page "answer".toList packed = some link ∧
      readAnswer (before ++ link ++ after) = some (some v) ∧ v.map .char = packed

variable {page before after s v key : Str} {cs : List Char} {packed : List CodePoint}

theorem mapM_char? : packed.mapM CodePoint.char? = some cs ↔ packed = cs.map .char := by
  induction packed generalizing cs with
  | nil => cases cs <;> simp
  | cons c packed ih =>
    rw [List.mapM_cons]
    cases c with
    | surrogate n => cases cs <;> simp [CodePoint.char?]
    | char d =>
      cases cs with
      | nil => cases hm : packed.mapM CodePoint.char? <;> simp [CodePoint.char?]
      | cons d' cs =>
        rw [List.map_cons, List.cons_eq_cons, ← ih]
        cases hm : packed.mapM CodePoint.char? <;> simp [CodePoint.char?]

/-- Without halves of surrogate pairs and escape signs, the code points are characters. -/
theorem exists_map_char (h : ∀ c ∈ packed, ∃ d : Char, c = .char d ∧ d ≠ '%') :
    ∃ cs : List Char, packed = cs.map .char ∧ '%' ∉ cs := by
  induction packed with
  | nil => exact ⟨[], rfl, List.not_mem_nil⟩
  | cons c packed ih =>
    obtain ⟨d, rfl, hd⟩ := h c List.mem_cons_self
    obtain ⟨cs, rfl, hcs⟩ := ih fun c hc => h c (List.mem_cons_of_mem _ hc)
    exact ⟨d :: cs, rfl, fun hmem => (List.mem_cons.1 hmem).elim hd.symm hcs⟩

theorem shareLink_map :
    shareLink page key (cs.map .char) =
      some (linkFor page ('#' :: key ++ '=' :: cs.flatMap Uri.encodeChar)) := by
  rw [shareLink, encodeURIComponent, mapM_char?.2 rfl]
  rfl

theorem isFragment_hexDigit {n : ℕ} (h : n < 16) : isFragment (Uri.hexDigit n) := by
  revert n
  decide

theorem isFragment_of_isUnreserved {c : Char} (h : Uri.isUnreserved c) : isFragment c := by
  have hall : ∀ n < 128, Uri.isUnreserved (.ofNat n) → isFragment (.ofNat n) := by decide +kernel
  have hc := hall c.toNat (Uri.toNat_lt_of_isUnreserved h)
  rw [Char.ofNat_toNat] at hc
  exact hc h

theorem isFragment_encode {c : Char} (h : c ∈ cs.flatMap Uri.encodeChar) : isFragment c := by
  obtain ⟨d, -, hc⟩ := List.mem_flatMap.1 h
  rw [Uri.encodeChar] at hc
  split_ifs at hc with hd
  · exact isFragment_of_isUnreserved (List.mem_singleton.1 hc ▸ hd)
  · obtain ⟨b, -, hc⟩ := List.mem_flatMap.1 hc
    have hb := b.toNat_lt
    simp only [Uri.escapeByte, List.mem_cons, List.not_mem_nil, or_false] at hc
    rcases hc with rfl | rfl | rfl
    · decide
    · exact isFragment_hexDigit (by omega)
    · exact isFragment_hexDigit (by omega)

/-- Nothing is escaped in a fragment that has nothing to be escaped in it. -/
theorem flatMap_isFragment (h : ∀ c ∈ s, isFragment c) :
    s.flatMap (fun c => if isFragment c then [c] else Uri.escape c) = s := by
  induction s with
  | nil => rfl
  | cons c s ih =>
    rw [List.flatMap_cons, if_pos (h c List.mem_cons_self),
      ih fun c hc => h c (List.mem_cons_of_mem _ hc)]
    rfl

theorem dropWhile_ne_hash (h : '#' ∉ page) : (page ++ '#' :: s).dropWhile (· ≠ '#') = '#' :: s := by
  have hpage : ∀ c ∈ page, decide (c ≠ '#') = true := by
    intro c hc
    rw [decide_eq_true_eq]
    rintro rfl
    exact h hc
  rw [List.dropWhile_append_of_pos hpage, List.dropWhile_cons_of_neg (by simp)]

theorem locationHash_linkFor (hpage : '#' ∉ page) (hkey : ∀ c ∈ key, Uri.isUnreserved c) :
    locationHash (linkFor page ('#' :: key ++ '=' :: cs.flatMap Uri.encodeChar)) =
      '#' :: key ++ '=' :: cs.flatMap Uri.encodeChar := by
  rw [locationHash, linkFor, List.cons_append, dropWhile_ne_hash hpage]
  refine flatMap_isFragment fun c hc => ?_
  rcases List.mem_cons.1 hc with rfl | hc
  · decide
  rcases List.mem_append.1 hc with hc | hc
  · exact isFragment_of_isUnreserved (hkey c hc)
  rcases List.mem_cons.1 hc with rfl | hc
  · decide
  · exact isFragment_encode hc

theorem rdropWhile_append_of_pos {p : Char → Bool} (h : ∀ c ∈ after, p c) :
    (s ++ after).rdropWhile p = s.rdropWhile p := by
  rw [List.rdropWhile, List.reverse_append,
    List.dropWhile_append_of_pos fun c hc => h c (List.mem_reverse.1 hc), List.rdropWhile]

theorem dropWhile_append_hash {p : Char → Bool} (h : ¬ p '#') :
    (page ++ '#' :: s).dropWhile p = page.dropWhile p ++ '#' :: s := by
  rw [List.dropWhile_append, List.dropWhile_cons_of_neg h]
  split_ifs with hpage
  · rw [List.isEmpty_iff.1 hpage, List.nil_append]
  · rfl

/-- Trimming leaves an end of what is in front of the hash. -/
theorem trim_surrounded (hbefore : ∀ c ∈ before, isSpace c) (hafter : ∀ c ∈ after, isSpace c)
    (hs : ∀ c ∈ s, ¬ isSpace c) :
    trim (before ++ (page ++ '#' :: s) ++ after) = page.dropWhile isSpace ++ '#' :: s := by
  have hhash : ¬ isSpace '#' := by decide
  rw [trim, List.append_assoc, List.dropWhile_append_of_pos hbefore, List.append_assoc,
    List.cons_append, dropWhile_append_hash hhash, ← List.cons_append, ← List.append_assoc,
    rdropWhile_append_of_pos hafter, List.rdropWhile_eq_self_iff]
  intro hne
  rw [List.getLast_append_of_ne_nil _ (List.cons_ne_nil _ _)]
  rcases List.mem_cons.1 (List.getLast_mem (List.cons_ne_nil '#' s)) with h | h
  · rw [h]
    exact hhash
  · exact hs _ h

theorem afterHash_trim (hpage : '#' ∉ page) (hbefore : ∀ c ∈ before, isSpace c)
    (hafter : ∀ c ∈ after, isSpace c) (hs : ∀ c ∈ s, ¬ isSpace c) :
    afterHash (trim (before ++ linkFor page ('#' :: s) ++ after)) = s := by
  have hpage' : '#' ∉ page.dropWhile isSpace :=
    fun h => hpage ((List.dropWhile_suffix _).subset h)
  rw [linkFor, trim_surrounded hbefore hafter hs, afterHash, if_pos (by simp),
    dropWhile_ne_hash hpage', List.tail_cons]

/-- No `?` is left out of what is encoded. -/
theorem searchParam_encode (hkey : ∀ c ∈ key, Uri.isUnreserved c) (name : Str) :
    searchParam (key ++ '=' :: cs.flatMap Uri.encodeChar) name =
      Uri.formGet (key ++ '=' :: cs.flatMap Uri.encodeChar) name := by
  have hhead : (key ++ '=' :: cs.flatMap Uri.encodeChar).head? ≠ some '?' := by
    cases key with
    | nil => simp
    | cons c key =>
      rw [List.cons_append, List.head?_cons]
      intro h
      cases h
      exact absurd (hkey _ List.mem_cons_self) (by decide)
  rw [searchParam, if_neg hhead]

/-- Reading a parameter decodes its value once more. -/
theorem readParam_encode (hkey : ∀ c ∈ key, Uri.isUnreserved c) (hcs : cs ≠ []) :
    readParam (key ++ '=' :: cs.flatMap Uri.encodeChar) key = some (decodeURIComponent cs) := by
  rw [readParam, searchParam_encode hkey, Uri.formGet_encode hkey]
  cases cs with
  | nil => exact absurd rfl hcs
  | cons c cs => rfl

theorem not_isSpace_of_isFragment {c : Char} (h : isFragment c) : ¬ isSpace c := by
  have hall : ∀ n < 127, isFragment (.ofNat n) → ¬ isSpace (.ofNat n) := by decide +kernel
  have hle : c ≤ '~' := by
    rw [isFragment, Bool.and_eq_true, Bool.and_eq_true, decide_eq_true_eq, decide_eq_true_eq] at h
    exact h.1.2
  have hc := hall c.toNat (Nat.lt_succ_of_le hle)
  rw [Char.ofNat_toNat] at hc
  exact hc h

theorem readOffer_link (hpage : '#' ∉ page) (hcs : cs ≠ []) :
    readOffer (locationHash (linkFor page
      ('#' :: "offer".toList ++ '=' :: cs.flatMap Uri.encodeChar))) =
      some (decodeURIComponent cs) := by
  have hkey : ∀ c ∈ "offer".toList, Uri.isUnreserved c := by decide
  rw [readOffer, locationHash_linkFor hpage hkey]
  exact readParam_encode hkey hcs

theorem readAnswer_link (hpage : '#' ∉ page) (hbefore : ∀ c ∈ before, isSpace c)
    (hafter : ∀ c ∈ after, isSpace c) (hcs : cs ≠ []) :
    readAnswer (before ++ linkFor page
      ('#' :: "answer".toList ++ '=' :: cs.flatMap Uri.encodeChar) ++ after) =
      some (decodeURIComponent cs) := by
  have hkey : ∀ c ∈ "answer".toList, Uri.isUnreserved c := by decide
  rw [readAnswer, List.cons_append, afterHash_trim hpage hbefore hafter]
  · exact readParam_encode hkey hcs
  · intro c hc
    refine not_isSpace_of_isFragment ?_
    rcases List.mem_append.1 hc with hc | hc
    · exact isFragment_of_isUnreserved (hkey c hc)
    rcases List.mem_cons.1 hc with rfl | hc
    · decide
    · exact isFragment_encode hc

theorem recovers_iff (h : packed ≠ []) :
    Recovers packed ↔ ∀ c ∈ packed, ∃ d : Char, c = .char d ∧ d ≠ '%' := by
  constructor
  · intro hr
    obtain ⟨⟨link, v, hlink, hread, rfl⟩, -⟩ :=
      hr [] [] [] List.not_mem_nil (fun _ hc => nomatch hc) fun _ hc => nomatch hc
    have hv : v ≠ [] := fun hnil => h (by rw [hnil]; rfl)
    rw [shareLink_map] at hlink
    cases hlink
    rw [readOffer_link List.not_mem_nil hv] at hread
    have hmem := Uri.decodeURIComponent_eq_self.1 (Option.some.inj hread)
    intro c hc
    obtain ⟨d, hd, rfl⟩ := List.mem_map.1 hc
    exact ⟨d, rfl, fun heq => hmem (heq ▸ hd)⟩
  · intro hpacked
    obtain ⟨cs, rfl, hmem⟩ := exists_map_char hpacked
    have hcs : cs ≠ [] := fun hnil => h (by rw [hnil]; rfl)
    have hdecode := Uri.decodeURIComponent_of_not_mem hmem
    intro page before after hpage hbefore hafter
    refine ⟨⟨_, cs, shareLink_map, ?_, rfl⟩, ⟨_, cs, shareLink_map, ?_, rfl⟩⟩
    · rw [readOffer_link hpage hcs, hdecode]
    · rw [readAnswer_link hpage hbefore hafter hcs, hdecode]

/-- What is packed is not empty. -/
theorem packSdp_ne_nil {desc : Description} (h : packSdp desc = some packed) : packed ≠ [] := by
  obtain ⟨fp, -, rfl⟩ := Option.map_eq_some_iff.1 h
  rw [List.intercalate_cons_cons, List.append_assoc]
  exact List.append_ne_nil_of_right_ne_nil _ (List.cons_ne_nil _ _)

theorem recovers_iff_session : Recovers (codePoints "o~A~u1~p+/~qwk~".toList) ↔
    ∀ c ∈ codePoints "o~A~u1~p+/~qwk~".toList, ∃ d : Char, c = .char d ∧ d ≠ '%' :=
  recovers_iff (packSdp_ne_nil packSdp_session)

/-- A description with an address in a zone. -/
def zoned : Description where
  type := .offer
  sdp := "a=ice-ufrag:u\r\na=ice-pwd:p\r\na=fingerprint:sha-256 AB\r\na=setup:actpass\r\n".toList ++
    "a=candidate:1 1 udp 2 fe80::1%eth0 9 typ host\r\n".toList

/-- The zone is taken for an escape, and decoding throws. -/
theorem not_recovers : packSdp zoned = some (codePoints "o~A~u~p~qw~fe80::1%eth0,9".toList) ∧
    ¬ Recovers (codePoints "o~A~u~p~qw~fe80::1%eth0,9".toList) := by
  refine ⟨by decide +kernel, fun h => ?_⟩
  obtain ⟨⟨link, v, hlink, hread, -⟩, -⟩ :=
    h [] [] [] List.not_mem_nil (fun _ hc => nomatch hc) fun _ hc => nomatch hc
  rw [codePoints, shareLink_map] at hlink
  cases hlink
  rw [readOffer_link List.not_mem_nil (by decide)] at hread
  have hthrows : decodeURIComponent "o~A~u~p~qw~fe80::1%eth0,9".toList = none := by
    decide +kernel
  cases hthrows.symm.trans (Option.some.inj hread)

end IrohWebrtc
