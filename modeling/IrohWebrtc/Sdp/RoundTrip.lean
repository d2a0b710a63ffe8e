import IrohWebrtc.Sdp.Packing

/-!
# The round trip of a session description

Of what `packSdp` makes of lines that say something, `unpackSdp` makes lines that say
the same (`unpackSdp_packedFields`), with the fingerprint in upper case. These are
plain in turn, so that the same string is packed of them (`round_trip`).
-/

namespace IrohWebrtc

variable {i : Bool} {a : Attribute} {s t u w : Str} {l : SdpLine} {lines : List SdpLine}
  {c : UdpCandidate} {x : SessionData}

/-! ## The rebuilt lines -/

/-- A number as a token. -/
def numeral (n : ℕ) : Token Char.isDigit :=
  ⟨Nat.toDigits 10 n, Nat.toDigits_ne_nil,
    fun _ h => Nat.isDigit_of_mem_toDigits (by decide) (by decide) h⟩

theorem decimal_natCast (n : ℕ) : decimal n = (numeral n).1 := by
  change (toString n).toList = Nat.toDigits 10 n
  rw [Nat.toString_eq_ofList_toDigits, String.toList_ofList]

theorem nonspace_of_isDigit {y : Char} (h : y.isDigit) : nonspace y :=
  nonspace_of_isIce (by simp [isIce, Char.isAlphanum, h])

theorem isHex_toUpper {y : Char} (h : isHex y) : isHex y.toUpper := by
  have hall : ∀ y ∈ "0123456789ABCDEFabcdef".toList, isHex y.toUpper := by decide
  exact hall y (of_decide_eq_true h)

def Fingerprint.toUpper (f : Fingerprint) : Fingerprint :=
  ⟨f.1.map fun b => ⟨(b.1.1.toUpper, b.1.2.toUpper), isHex_toUpper b.2.1, isHex_toUpper b.2.2⟩,
    fun h => f.2 (List.map_eq_nil_iff.1 h)⟩

/-- The priority of the `n`-th candidate. -/
def UdpCandidate.priority (n : ℕ) (c : UdpCandidate) : ℕ :=
  match c.typ with
  | .host => 2122252543 - n
  | .srflx .. | .relay .. => 1686052607 - n

/-- The line of the `n`-th candidate. -/
def UdpCandidate.line (n : ℕ) (c : UdpCandidate) : SdpLine :=
  .udp ⟨(numeral n).1, (numeral n).2.1, fun y h => nonspace_of_isDigit ((numeral n).2.2 y h)⟩
    ⟨"udp".toList, show _ = _ by decide⟩ (numeral (c.priority n)) c []

/-- The lines that are rebuilt. -/
def rebuild (x : SessionData) : List SdpLine :=
  [.other "v=0".toList, .other "o=- 0 0 IN IP4 0.0.0.0".toList, .other "s=-".toList,
    .other "t=0 0".toList, .other "a=group:BUNDLE 0".toList,
    .other "a=msid-semantic: WMS".toList,
    .other "m=application 9 UDP/DTLS/SCTP webrtc-datachannel".toList,
    .other "c=IN IP4 0.0.0.0".toList, .ufrag x.ufrag, .pwd x.pwd,
    .fingerprint x.fingerprint.toUpper, .setup x.setup, .other "a=mid:0".toList,
    .other "a=sctp-port:5000".toList, .other "a=max-message-size:262144".toList] ++
  x.candidates.mapIdx fun n c => c.line n

theorem filterMap_mapIdx {α β γ : Type*} {f : ℕ → α → β} {g : β → Option γ} {k : ℕ → α → γ}
    (h : ∀ n y, g (f n y) = some (k n y)) (ys : List α) :
    (ys.mapIdx f).filterMap g = ys.mapIdx k := by
  induction ys generalizing f k with
  | nil => rfl
  | cons y ys ih =>
    rw [List.mapIdx_cons, List.mapIdx_cons, List.filterMap_cons_some (h 0 y),
      ih fun n y => h (n + 1) y]

theorem filterMap_mapIdx_none {α β γ : Type*} {f : ℕ → α → β} {g : β → Option γ}
    (h : ∀ n y, g (f n y) = none) (ys : List α) : (ys.mapIdx f).filterMap g = [] := by
  rw [List.filterMap_eq_nil_iff]
  intro l hl
  obtain ⟨n, hn, rfl⟩ := List.mem_mapIdx.1 hl
  exact h _ _

theorem says_rebuild : Says (rebuild x) { x with fingerprint := x.fingerprint.toUpper } := by
  constructor
  · rw [rebuild, List.filterMap_append, filterMap_mapIdx_none fun _ _ => rfl]
    rfl
  · rw [rebuild, List.filterMap_append, filterMap_mapIdx_none fun _ _ => rfl]
    rfl
  · rw [rebuild, List.filterMap_append, filterMap_mapIdx_none fun _ _ => rfl]
    rfl
  · rw [rebuild, List.filterMap_append, filterMap_mapIdx_none fun _ _ => rfl]
    rfl
  · have hcandidates := filterMap_mapIdx (f := fun n c => UdpCandidate.line n c)
      (g := (·.candidate?)) (k := fun _ c => c) (fun _ _ => rfl) x.candidates
    rw [rebuild, List.filterMap_append, hcandidates, List.mapIdx_eq_zipIdx_map]
    exact List.zipIdx_map_fst 0 _

/-- There is no attribute in the lines that are always the same. -/
theorem lacks_fixed : ∀ s ∈ ["v=0".toList, "o=- 0 0 IN IP4 0.0.0.0".toList, "s=-".toList,
    "t=0 0".toList, "a=group:BUNDLE 0".toList, "a=msid-semantic: WMS".toList,
    "m=application 9 UDP/DTLS/SCTP webrtc-datachannel".toList, "c=IN IP4 0.0.0.0".toList,
    "a=mid:0".toList, "a=sctp-port:5000".toList, "a=max-message-size:262144".toList],
    Lacks i a s := by
  simp only [String.reduceToList]
  cases i <;> cases a <;>
    simp only [Lacks, Attribute.text, Attribute.name, String.reduceToList] <;> decide +kernel

theorem plain_line {n : ℕ} : (c.line n).Plain i :=
  ⟨fun _ hw => absurd hw List.not_mem_nil, fun _ _ hw => nomatch hw⟩

/-- The rebuilt lines begin with all attributes. -/
theorem plain_rebuild (i : Bool) (x : SessionData) : PlainLines i (rebuild x) := by
  refine plainLines_append (fun l hl => ?_) (fun l hl => ?_) fun a ha => ?_
  · rcases List.mem_append.1 hl with hl | hl
    · cases l with
      | other text => exact fun a => lacks_fixed text (by simpa using hl)
      | udp | tcp => simp at hl
      | ufrag | pwd | fingerprint | setup => trivial
    · obtain ⟨n, hn, rfl⟩ := List.mem_mapIdx.1 hl
      exact plain_line
  · cases l with
    | udp | tcp => simp at hl
    | ufrag | pwd | fingerprint | setup | other => exact nofun
  · cases a with
    | candidate => exact absurd rfl ha
    | ufrag | pwd | fingerprint | setup => simp [SdpLine.kind]

/-! ## Unpacking -/

theorem b64ToFp_urlDigits (f : Fingerprint) :
    b64ToFp (urlDigits f.bytes) = some f.toUpper.text := by
  have hhex : ∀ m < 16, ∀ n < 16, (Nat.toDigits 16 (16 * m + n)).leftpad 2 '0' =
      [Nat.digitChar m, Nat.digitChar n] := by
    decide +kernel
  rw [b64ToFp, unb64u_urlDigits, Option.map_some, Fingerprint.text, Fingerprint.bytes,
    Fingerprint.toUpper, List.map_map, List.map_map]
  refine congrArg (some ∘ [':'].intercalate) (List.map_congr_left fun b _ => ?_)
  have hb := hex_facts b.2.1
  have hb' := hex_facts b.2.2
  have hcode := hexCode_pair b.2.1 b.2.2
  have hbyte : (UInt8.ofNat (hexCode [b.1.1, b.1.2])).toNat =
      16 * hexValue b.1.1 + hexValue b.1.2 := by
    rw [UInt8.toNat_ofNat_of_lt', hcode]
    change hexCode [b.1.1, b.1.2] < 256
    omega
  simp only [Function.comp_apply, hbyte, hhex _ hb.1 _ hb'.1, List.map_cons, List.map_nil,
    ← hb.2.2.2, ← hb'.2.2.2]

theorem udp_eq : " 1 udp ".toList = [' '] ++ (['1'] ++ ([' '] ++ ("udp".toList ++ [' ']))) := by
  decide

theorem host_eq : " typ host".toList = " typ ".toList ++ "host".toList := by decide

theorem space_eq : " ".toList = [' '] := by decide

theorem decimal_sub {m n : ℕ} (h : n ≤ m) : decimal ((m : ℤ) - n) = (numeral (m - n)).1 := by
  rw [← decimal_natCast, Int.ofNat_sub h]

theorem unpackCandidate_fields {n : ℕ} (hn : n < 268435456) :
    unpackCandidate n c.fields = (c.line n).text := by
  have hhost : decimal (2122252543 - n) = (numeral (2122252543 - n)).1 :=
    decimal_sub (m := 2122252543) (by omega)
  have hother : decimal (1686052607 - n) = (numeral (1686052607 - n)).1 :=
    decimal_sub (m := 1686052607) (by omega)
  obtain ⟨address, port, typ⟩ := c
  rw [UdpCandidate.line, udp_text]
  have hnil : spaced [] = [] := rfl
  cases typ with
  | host =>
    rw [unpackCandidate, if_pos (show List.length _ = 2 from rfl)]
    simp only [hhost, decimal_natCast, UdpCandidate.fields, UdpCandidate.priority, front,
      Typ.words, List.map_nil, hnil, List.append_nil, List.intercalate_singleton,
      List.append_assoc, udp_eq, host_eq, space_eq]
    rfl
  | srflx raddr rport =>
    have hlength : (UdpCandidate.fields ⟨address, port, .srflx raddr rport⟩).length ≠ 2 := by
      simp [UdpCandidate.fields]
    rw [unpackCandidate, if_neg hlength]
    simp only [hother, decimal_natCast, UdpCandidate.fields, UdpCandidate.priority, front,
      Typ.words, List.map_nil, hnil, List.append_nil, List.intercalate_cons_cons,
      List.intercalate_singleton, List.append_assoc, udp_eq, space_eq, raddr_eq, rport_eq]
    rfl
  | relay raddr rport =>
    have hlength : (UdpCandidate.fields ⟨address, port, .relay raddr rport⟩).length ≠ 2 := by
      simp [UdpCandidate.fields]
    rw [unpackCandidate, if_neg hlength]
    simp only [hother, decimal_natCast, UdpCandidate.fields, UdpCandidate.priority, front,
      Typ.words, List.map_nil, hnil, List.append_nil, List.intercalate_cons_cons,
      List.intercalate_singleton, List.append_assoc, udp_eq, space_eq, raddr_eq, rport_eq]
    rfl

/-- Nothing that is put between fields is in one of a candidate. -/
theorem separator_not_mem {y : Char} (hy : y ∈ [',', ';', '~']) {f : Str} (hf : f ∈ c.fields) :
    y ∉ f := by
  have haddress : ∀ v : Token isAddress, y ∉ v.1 := by
    intro v h
    have := v.2.2 y h
    rw [isAddress, Bool.and_eq_true, decide_eq_true_eq] at this
    exact this.2 hy
  have hdigits : ∀ v : Token Char.isDigit, y ∉ v.1 := by
    intro v h
    have hall : ∀ y ∈ [',', ';', '~'], ¬ y.isDigit := by decide
    exact hall y hy (v.2.2 y h)
  have hletter : ∀ z : Char, z.isLower → y ∉ [z] := by
    intro z hz h
    have hall : ∀ y ∈ [',', ';', '~'], ¬ y.isLower := by decide
    exact hall y hy (List.mem_singleton.1 h ▸ hz)
  obtain ⟨address, port, typ⟩ := c
  cases typ with
  | host =>
    rcases List.mem_pair.1 hf with rfl | rfl
    · exact haddress address
    · exact hdigits port
  | srflx raddr rport | relay raddr rport =>
    simp only [UdpCandidate.fields, List.mem_cons, List.not_mem_nil, or_false] at hf
    rcases hf with rfl | rfl | rfl | rfl | rfl
    · exact haddress address
    · exact hdigits port
    · exact hletter _ (by decide)
    · exact haddress raddr
    · exact hdigits rport

theorem fields_ne_nil : c.fields ≠ [] := by
  obtain ⟨address, port, typ⟩ := c
  cases typ <;> exact List.cons_ne_nil _ _

theorem intercalate_fields_ne_nil : [','].intercalate c.fields ≠ [] := by
  obtain ⟨address, port, typ⟩ := c
  have hne := address.2.1
  cases typ <;> simp [UdpCandidate.fields, hne]

/-- The packed candidates. -/
def packedCandidates (cs : List UdpCandidate) : Str :=
  [';'].intercalate (cs.map fun c => [','].intercalate c.fields)

theorem separator_not_mem_packedCandidates {cs : List UdpCandidate} : '~' ∉ packedCandidates cs := by
  intro h
  rcases mem_intercalate h with h | ⟨s, hs, h⟩
  · exact absurd h (by decide)
  · obtain ⟨c, -, rfl⟩ := List.mem_map.1 hs
    rcases mem_intercalate h with h | ⟨f, hf, h⟩
    · exact absurd h (by decide)
    · exact separator_not_mem (by decide) hf h

theorem splitOn_packedCandidates {cs : List UdpCandidate} (h : cs ≠ []) :
    (packedCandidates cs).splitOn ';' = cs.map fun c => [','].intercalate c.fields := by
  refine List.splitOn_intercalate ';' (fun s hs h => ?_) (by simpa using h)
  obtain ⟨c, -, rfl⟩ := List.mem_map.1 hs
  rcases mem_intercalate h with h | ⟨f, hf, h⟩
  · exact absurd h (by decide)
  · exact separator_not_mem (by decide) hf h

theorem splitOn_fields : ([','].intercalate c.fields).splitOn ',' = c.fields :=
  List.splitOn_intercalate ',' (fun _ hf => separator_not_mem (by decide) hf) fields_ne_nil

theorem splitOn_packedFields {type : SdpType} :
    (['~'].intercalate (packedFields type x)).splitOn '~' = packedFields type x := by
  refine List.splitOn_intercalate '~' (fun f hf => ?_) (List.cons_ne_nil _ _)
  simp only [packedFields, List.mem_cons, List.not_mem_nil, or_false] at hf
  rcases hf with rfl | rfl | rfl | rfl | rfl | rfl
  · cases type <;> decide
  · cases x.setup <;> decide
  · exact fun h => absurd (x.ufrag.2.2 _ h) (by decide)
  · exact fun h => absurd (x.pwd.2.2 _ h) (by decide)
  · intro h
    obtain ⟨n, hn, heq⟩ := List.mem_map.1 h
    exact (urlDigit_ne (Base64.lt_of_mem_digits hn)).1 heq
  · exact separator_not_mem_packedCandidates

theorem intercalate_crlf (h : lines ≠ []) :
    crlf.intercalate (lines.map (·.text)) ++ crlf = render lines := by
  induction lines with
  | nil => exact absurd rfl h
  | cons l lines ih =>
    cases lines with
    | nil => simp [render]
    | cons l' lines =>
      rw [List.map_cons, List.map_cons, List.intercalate_cons_cons, List.append_assoc,
        ← List.map_cons, ih (List.cons_ne_nil _ _)]
      rfl

theorem unpack_candidates {cs : List UdpCandidate} (h : cs.length < 268435456) :
    (match (some (packedCandidates cs) : Option Str) with
      | none | some [] => []
      | some candStr => (candStr.splitOn ';').mapIdx fun n c =>
        unpackCandidate n (c.splitOn ',')) = (cs.mapIdx fun n c => c.line n).map (·.text) := by
  by_cases hcs : cs = []
  · subst hcs
    rfl
  · have hne : packedCandidates cs ≠ [] := by
      intro hnil
      have hsplit := splitOn_packedCandidates hcs
      rw [hnil, List.splitOn_nil] at hsplit
      obtain ⟨c, -, hc⟩ := List.map_eq_singleton_iff.1 hsplit.symm
      exact intercalate_fields_ne_nil hc
    have hmapIdx : ((packedCandidates cs).splitOn ';').mapIdx (fun n c =>
        unpackCandidate n (c.splitOn ',')) = (cs.mapIdx fun n c => c.line n).map (·.text) := by
      rw [splitOn_packedCandidates hcs]
      refine List.ext_getElem (by simp) fun n hn _ => ?_
      simp only [List.getElem_mapIdx, List.getElem_map, splitOn_fields]
      refine unpackCandidate_fields (lt_trans ?_ h)
      simpa using hn
    rw [← hmapIdx]
    cases hp : packedCandidates cs with
    | nil => exact absurd hp hne
    | cons y s => rfl

/-- The lines without candidates. -/
theorem text_rebuild : (rebuild x).map (·.text) = [
      "v=0".toList, "o=- 0 0 IN IP4 0.0.0.0".toList, "s=-".toList, "t=0 0".toList,
      "a=group:BUNDLE 0".toList, "a=msid-semantic: WMS".toList,
      "m=application 9 UDP/DTLS/SCTP webrtc-datachannel".toList, "c=IN IP4 0.0.0.0".toList,
      "a=ice-ufrag:".toList ++ x.ufrag.1, "a=ice-pwd:".toList ++ x.pwd.1,
      "a=fingerprint:sha-256 ".toList ++ x.fingerprint.toUpper.text,
      "a=setup:".toList ++ x.setup.text, "a=mid:0".toList, "a=sctp-port:5000".toList,
      "a=max-message-size:262144".toList] ++
      (x.candidates.mapIdx fun n c => c.line n).map (·.text) := by
  have hother : ∀ s, (SdpLine.other s).text = s := fun s =>
    show [' '].intercalate [s] = s from List.intercalate_singleton
  have hufrag : ∀ v, (SdpLine.ufrag v).text = "a=ice-ufrag:".toList ++ v.1 :=
    fun v => congrArg (_ ++ ·) List.intercalate_singleton
  have hpwd : ∀ v, (SdpLine.pwd v).text = "a=ice-pwd:".toList ++ v.1 :=
    fun v => congrArg (_ ++ ·) List.intercalate_singleton
  have hsetup : ∀ v, (SdpLine.setup v).text = "a=setup:".toList ++ v.text :=
    fun v => congrArg (_ ++ ·) List.intercalate_singleton
  rw [rebuild, List.map_append]
  simp only [List.map_cons, List.map_nil, hother, hufrag, hpwd, hsetup, fingerprint_text]

theorem unpackSdp_packedFields {type : SdpType} (h : x.candidates.length < 268435456) :
    unpackSdp (['~'].intercalate (packedFields type x)) = some ⟨type, render (rebuild x)⟩ := by
  have hfields : ∃ f₀ f₁, packedFields type x = [f₀, f₁, x.ufrag.1, x.pwd.1,
      urlDigits x.fingerprint.bytes, packedCandidates x.candidates] ∧
      (if some f₀ = some ['o'] then SdpType.offer else SdpType.answer) = type ∧
      (if some f₁ = some ['A'] then "actpass".toList
        else if some f₁ = some ['a'] then "active".toList else "passive".toList) =
        x.setup.text := by
    refine ⟨_, _, rfl, ?_, ?_⟩
    · cases type <;> decide
    · cases x.setup <;> decide
  obtain ⟨f₀, f₁, hfields, hf₀, hf₁⟩ := hfields
  have hrender : crlf.intercalate ((rebuild x).map (·.text)) ++ crlf = render (rebuild x) :=
    intercalate_crlf (List.cons_ne_nil _ _)
  rw [text_rebuild, ← unpack_candidates h] at hrender
  rw [unpackSdp, splitOn_packedFields, hfields, ← hrender]
  simp only [List.getElem?_cons_zero, List.getElem?_cons_succ, hf₀, hf₁, Option.bind_some,
    b64ToFp_urlDigits, Option.map_some, template, Option.getD_some]
  rfl

/-! ## The round trip -/

theorem Fingerprint.bytes_toUpper (f : Fingerprint) : f.toUpper.bytes = f.bytes := by
  have hvalue : ∀ y ∈ "0123456789ABCDEFabcdef".toList, hexValue y.toUpper = hexValue y := by
    decide
  rw [Fingerprint.bytes, Fingerprint.bytes, Fingerprint.toUpper, List.map_map]
  refine List.map_congr_left fun b _ => congrArg UInt8.ofNat ?_
  simp only [hexCode_pair b.2.1 b.2.2, hexCode_pair (isHex_toUpper b.2.1) (isHex_toUpper b.2.2),
    hvalue _ (of_decide_eq_true b.2.1), hvalue _ (of_decide_eq_true b.2.2)]

theorem Fingerprint.text_toUpper (f : Fingerprint) :
    f.toUpper.text.map Char.toUpper = f.text.map Char.toUpper := by
  have htwice : ∀ y ∈ "0123456789ABCDEFabcdef".toList, y.toUpper.toUpper = y.toUpper := by
    decide
  have hmap : ∀ l : List HexByte,
      ([':'].intercalate (l.map fun b => [b.1.1.toUpper, b.1.2.toUpper])).map Char.toUpper =
        ([':'].intercalate (l.map fun b => [b.1.1, b.1.2])).map Char.toUpper := by
    intro l
    induction l with
    | nil => rfl
    | cons b l ih =>
      have hb := htwice _ (of_decide_eq_true b.2.1)
      have hb' := htwice _ (of_decide_eq_true b.2.2)
      cases l with
      | nil => simp [hb, hb']
      | cons b' l =>
        simp only [List.map_cons, List.intercalate_cons_cons, List.map_append] at ih ⊢
        rw [ih, hb, hb']
  rw [Fingerprint.toUpper, Fingerprint.text, List.map_map]
  exact hmap f.1

/-- What lines say comes back from the packed string, up to the case of the fingerprint,
    in lines that say nothing else, and the same string is packed of these. -/
def RoundTrip (i : Bool) (type : SdpType) (lines : List SdpLine) (x : SessionData) : Prop :=
  ∃ packed lines' x', packSdp ⟨type, render lines⟩ = some (codePoints packed) ∧
    unpackSdp packed = some ⟨type, render lines'⟩ ∧ PlainLines i lines' ∧ Says lines' x' ∧
    (x'.ufrag, x'.pwd, x'.setup, x'.candidates) = (x.ufrag, x.pwd, x.setup, x.candidates) ∧
    x'.fingerprint.text.map Char.toUpper = x.fingerprint.text.map Char.toUpper ∧
    packSdp ⟨type, render lines'⟩ = some (codePoints packed)

theorem packedFields_toUpper {type : SdpType} :
    packedFields type { x with fingerprint := x.fingerprint.toUpper } = packedFields type x := by
  simp only [packedFields, Fingerprint.bytes_toUpper]

theorem round_trip {type : SdpType} (hp : PlainLines true lines) (hx : Says lines x)
    (h : x.candidates.length < 268435456) : RoundTrip true type lines x := by
  have hplain := plain_rebuild true x
  refine ⟨_, rebuild x, _, packSdp_render hp hx, unpackSdp_packedFields h, hplain, says_rebuild,
    rfl, x.fingerprint.text_toUpper, ?_⟩
  rw [packSdp_render hplain says_rebuild, packedFields_toUpper]

/-- What a session without candidates says. -/
def session : SessionData where
  ufrag := ⟨"u1".toList, by decide⟩
  pwd := ⟨"p+/".toList, by decide⟩
  fingerprint := ⟨[⟨('a', 'B'), by decide⟩, ⟨('0', '9'), by decide⟩], by decide⟩
  setup := .actpass
  candidates := []

/-- The lines of attributes in a session. -/
def sessionLines : List SdpLine :=
  [.ufrag session.ufrag, .pwd session.pwd, .fingerprint session.fingerprint, .setup session.setup]

theorem plain_sessionLines (h : ∀ l ∈ lines, l.Plain i) : PlainLines i (sessionLines ++ lines) := by
  refine plainLines_append (fun l hl => ?_) (by decide) fun a ha => ?_
  · rcases List.mem_append.1 hl with hl | hl
    · simp only [sessionLines, List.mem_cons, List.not_mem_nil, or_false] at hl
      rcases hl with rfl | rfl | rfl | rfl <;> trivial
    · exact h l hl
  · cases a with
    | candidate => exact absurd rfl ha
    | ufrag | pwd | fingerprint | setup => simp [sessionLines, SdpLine.kind]

theorem packSdp_session :
    packSdp ⟨.offer, render sessionLines⟩ = some (codePoints "o~A~u1~p+/~qwk~".toList) := by
  have hplain : PlainLines true (sessionLines ++ []) := plain_sessionLines fun _ hl => nomatch hl
  have hfields : ['~'].intercalate (packedFields .offer session) = "o~A~u1~p+/~qwk~".toList := by
    decide
  rw [← hfields, ← packSdp_render hplain ⟨rfl, rfl, rfl, rfl, rfl⟩, List.append_nil]

def hostCandidate : UdpCandidate :=
  ⟨⟨"10.0.0.6".toList, by decide⟩, ⟨['6'], by decide⟩, .host⟩

/-- What a session with this candidate says. -/
def hostSession : SessionData := { session with candidates := [hostCandidate] }

theorem round_trip_candidates :
    RoundTrip true .offer (sessionLines ++ [hostCandidate.line 7]) hostSession := by
  refine round_trip (plain_sessionLines fun l hl => ?_) ⟨rfl, rfl, rfl, rfl, rfl⟩ (by decide)
  exact List.mem_singleton.1 hl ▸ plain_line

theorem matchAll_render_nil (hp : ∀ l ∈ lines, l.Plain i)
    (h : lines.filterMap (·.candidate?) = []) :
    candidateRe.matchAll (canonicalize i) (render lines) = [] := by
  rw [List.filterMap_eq_nil_iff] at h
  induction lines with
  | nil => rfl
  | cons l lines ih =>
    rw [render, List.flatMap_cons, ← render,
      matchAll_other (hp l List.mem_cons_self) (h l List.mem_cons_self)]
    exact ih (fun l hl => hp l (List.mem_cons_of_mem _ hl)) fun l hl =>
      h l (List.mem_cons_of_mem _ hl)

/-- What is packed has the fields of what comes back. -/
theorem fields_of_roundTrip {type : SdpType} (h : RoundTrip true type lines x) :
    ∃ packed x', packSdp ⟨type, render lines⟩ = some (codePoints packed) ∧
      packed.splitOn '~' = packedFields type x' ∧
      (x'.ufrag, x'.pwd, x'.setup, x'.candidates) = (x.ufrag, x.pwd, x.setup, x.candidates) := by
  obtain ⟨packed, lines', x', hpack, -, hp, hx, heq, -, hrepack⟩ := h
  refine ⟨packed, x', hpack, ?_, heq⟩
  rw [packSdp_render hp hx] at hrepack
  rw [← codePoints_injective (Option.some.inj hrepack), splitOn_packedFields]

/-- A line that has no attribute in it by case, and is taken for a candidate. -/
def capitals : SdpLine := .other "A=CANDIDATE:1 1 UDP 1 10.0.0.7 9 TYP host".toList

/-- A candidate with a foundation that is taken for the ufrag, unless this comes first. -/
def marked : SdpLine :=
  .udp ⟨"a=ice-ufrag:u2".toList, by decide⟩ ⟨"udp".toList, show _ = _ by decide⟩
    ⟨['1'], by decide⟩ hostCandidate []

/-- A candidate with extensions that are taken for another one. -/
def extended : SdpLine :=
  .udp ⟨['1'], by decide⟩ ⟨"udp".toList, show _ = _ by decide⟩ ⟨['1'], by decide⟩ hostCandidate
    [⟨"a=candidate:2".toList, by decide⟩, ⟨['1'], by decide⟩, ⟨"udp".toList, by decide⟩,
      ⟨['1'], by decide⟩, ⟨"10.0.0.9".toList, by decide⟩, ⟨['9'], by decide⟩,
      ⟨"typ".toList, by decide⟩, ⟨"host".toList, by decide⟩]

/-- What is packed of them, each as the patterns find it. -/
theorem packSdp_found :
    packSdp ⟨.offer, render (sessionLines ++ [capitals])⟩ =
      some (codePoints "o~A~u1~p+/~qwk~10.0.0.7,9".toList) ∧
    packSdp ⟨.offer, render (marked :: sessionLines)⟩ =
      some (codePoints "o~A~u2~p+/~qwk~10.0.0.6,6".toList) ∧
    packSdp ⟨.offer, render (sessionLines ++ [extended])⟩ =
      some (codePoints "o~A~u1~p+/~qwk~10.0.0.6,6;10.0.0.9,9".toList) := by
  decide +kernel

theorem not_round_trip_capitals :
    ¬ RoundTrip false .offer (sessionLines ++ [capitals]) session := by
  rintro ⟨packed, lines', x', hpack, hunpack, hp, hx, heq, -⟩
  obtain rfl := codePoints_injective (Option.some.inj (hpack.symm.trans packSdp_found.1))
  have hfound : (unpackSdp "o~A~u1~p+/~qwk~10.0.0.7,9".toList).map (fun d =>
      (candidateRe.matchAll (canonicalize false) d.sdp).length) = some 1 := by
    decide +kernel
  have hcands : lines'.filterMap (·.candidate?) = [] :=
    hx.candidates.trans (congrArg (·.2.2.2) heq)
  rw [hunpack, Option.map_some, matchAll_render_nil hp.line hcands] at hfound
  cases hfound

theorem not_round_trip_marked : ¬ RoundTrip true .offer (marked :: sessionLines) hostSession := by
  intro h
  obtain ⟨packed, x', hpack, hfields, heq⟩ := fields_of_roundTrip h
  obtain rfl := codePoints_injective (Option.some.inj (hpack.symm.trans packSdp_found.2.1))
  have hufrag : x'.ufrag.1 = "u2".toList :=
    (Option.some.inj (congrArg (·[2]?) hfields)).symm
  rw [show x'.ufrag = session.ufrag from congrArg (·.1) heq] at hufrag
  exact absurd hufrag (by decide)

theorem not_round_trip_extended :
    ¬ RoundTrip true .offer (sessionLines ++ [extended]) hostSession := by
  intro h
  obtain ⟨packed, x', hpack, hfields, heq⟩ := fields_of_roundTrip h
  obtain rfl := codePoints_injective (Option.some.inj (hpack.symm.trans packSdp_found.2.2))
  have hcands : [';'].intercalate (x'.candidates.map fun c => [','].intercalate c.fields) =
      "10.0.0.6,6;10.0.0.9,9".toList :=
    (Option.some.inj (congrArg (·[5]?) hfields)).symm
  rw [show x'.candidates = [hostCandidate] from congrArg (·.2.2.2) heq] at hcands
  exact absurd hcands (by decide)

/-- Ignoring case, the patterns find more than the attributes, and they find an attribute in a
    word before its own line, and a candidate in what follows another one. -/
theorem not_round_trip :
    (¬ ∀ (type : SdpType) (lines : List SdpLine) (x : SessionData), PlainLines false lines →
      Says lines x → x.candidates.length < 268435456 → RoundTrip false type lines x) ∧
    (Says (marked :: sessionLines) hostSession ∧
      ¬ RoundTrip true .offer (marked :: sessionLines) hostSession) ∧
    Says (sessionLines ++ [extended]) hostSession ∧
      ¬ RoundTrip true .offer (sessionLines ++ [extended]) hostSession := by
  refine ⟨fun h => ?_, ⟨⟨rfl, rfl, rfl, rfl, rfl⟩, not_round_trip_marked⟩,
    ⟨rfl, rfl, rfl, rfl, rfl⟩, not_round_trip_extended⟩
  have hplain : PlainLines false (sessionLines ++ [capitals]) := by
    refine plain_sessionLines fun l hl => ?_
    obtain rfl := List.mem_singleton.1 hl
    intro a
    rw [Lacks]
    cases a <;> decide
  exact not_round_trip_capitals
    (h .offer _ session hplain ⟨rfl, rfl, rfl, rfl, rfl⟩ (by decide))

end IrohWebrtc
