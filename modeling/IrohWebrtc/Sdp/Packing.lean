import IrohWebrtc.Sdp.Lines

/-!
# What is packed

Of lines that say something (`Says`), `packSdp` makes a string of what they say and
of nothing else (`packSdp_render`). The pattern of candidates matches the lines of
candidates over UDP, each up to its extensions, and nothing in the other lines.
-/

namespace IrohWebrtc

open Uri (CodePoint)

variable {i : Bool} {a : Attribute} {s t u w : Str} {c d z : Char} {l : SdpLine}
  {ws : List Str} {lines : List SdpLine} {p : Transport}

/-! ## Words without attributes -/

theorem mem_intercalate {α : Type*} {sep : List α} {ls : List (List α)} {y : α}
    (h : y ∈ sep.intercalate ls) : y ∈ sep ∨ ∃ l ∈ ls, y ∈ l := by
  induction ls with
  | nil => cases h
  | cons l ls ih =>
    cases ls with
    | nil =>
      rw [List.intercalate_singleton] at h
      exact .inr ⟨l, List.mem_singleton_self l, h⟩
    | cons l' ls =>
      rw [List.intercalate_cons_cons, List.mem_append, List.mem_append] at h
      rcases h with (h | h) | h
      · exact .inr ⟨l, List.mem_cons_self, h⟩
      · exact .inl h
      · exact (ih h).imp_right fun ⟨l'', hl, h⟩ => ⟨l'', List.mem_cons_of_mem _ hl, h⟩

theorem Fingerprint.mem_text {f : Fingerprint} {y : Char} (h : y ∈ f.text) :
    isHex y ∨ y = ':' := by
  rcases mem_intercalate h with h | ⟨s, hs, h⟩
  · exact .inr (List.mem_singleton.1 h)
  · obtain ⟨b, -, rfl⟩ := List.mem_map.1 hs
    simp only [List.mem_cons, List.not_mem_nil, or_false] at h
    rcases h with rfl | rfl
    · exact .inl b.2.1
    · exact .inl b.2.2

theorem lacks_of_isIce (v : Token isIce) : Lacks i a v.1 :=
  lacks_of_not_mem fun h => absurd (v.2.2 _ h) (by decide)

theorem lacks_of_isDigit (v : Token Char.isDigit) : Lacks i a v.1 :=
  lacks_of_not_mem fun h => absurd (v.2.2 _ h) (by decide)

theorem lacks_transport (t : TransportName p) : Lacks i a t.1 := by
  refine lacks_of_not_mem fun h => ?_
  have hmem : '=' ∈ t.1.map Char.toUpper := List.mem_map.2 ⟨_, h, by decide⟩
  cases p with
  | udp =>
    rw [show t.1.map Char.toUpper = "UDP".toList from t.2] at hmem
    exact absurd hmem (by decide)
  | tcp =>
    rw [show t.1.map Char.toUpper = "TCP".toList from t.2] at hmem
    exact absurd hmem (by decide)

theorem lacks_fingerprint (v : Fingerprint) (hw : w ∈ (SdpLine.fingerprint v).words) :
    Lacks i a w := by
  rcases List.mem_pair.1 hw with rfl | rfl
  · exact lacks_of_not_mem List.not_mem_nil
  · refine lacks_of_not_mem fun h => ?_
    rcases Fingerprint.mem_text h with h | h
    · exact absurd h (by decide)
    · exact absurd h (by decide)

theorem lacks_setup (v : Setup) : Lacks i a v.text := by
  refine lacks_of_not_mem ?_
  cases v <;> decide

/-- There is no attribute in the words of plain lines, but in those of candidates. -/
theorem lacks_words (hl : l.Plain i) (hk : l.kind ≠ some .candidate) (hw : w ∈ l.words) :
    Lacks i a w := by
  cases l with
  | ufrag v | pwd v => exact List.mem_singleton.1 hw ▸ lacks_of_isIce v
  | fingerprint v => exact lacks_fingerprint v hw
  | setup v => exact List.mem_singleton.1 hw ▸ lacks_setup v
  | other text => exact List.mem_singleton.1 hw ▸ hl a
  | udp | tcp => exact absurd rfl hk

/-- Plain lines that begin with all attributes. -/
theorem plainLines_append {first : List SdpLine} (hl : ∀ l ∈ first ++ lines, l.Plain i)
    (hk : ∀ l ∈ first, l.kind ≠ some .candidate)
    (ha : ∀ a ≠ .candidate, ∃ l ∈ first, l.kind = some a) : PlainLines i (first ++ lines) where
  line := hl
  before a ha' l hmem w hw := by
    have hstop : ¬ (first.takeWhile fun l => l.kind ≠ some a).length = first.length := by
      intro hlength
      obtain ⟨l', hl', hkind⟩ := ha a ha'
      rw [← (List.takeWhile_prefix _).eq_of_length hlength] at hl'
      simpa [hkind] using List.mem_takeWhile_imp hl'
    rw [List.takeWhile_append, if_neg hstop] at hmem
    have hfirst := (List.takeWhile_prefix _).subset hmem
    exact lacks_words (hl l (List.mem_append_left _ hfirst)) (hk l hfirst) hw

/-! ## Candidates -/

/-- The captures of a candidate. -/
def UdpCandidate.captures (c : UdpCandidate) : Captures Char :=
  match c.typ with
  | .host => [(3, "host".toList), (2, c.port), (1, c.address)]
  | .srflx raddr rport =>
    [(5, rport), (4, raddr), (3, "srflx".toList), (2, c.port), (1, c.address)]
  | .relay raddr rport =>
    [(5, rport), (4, raddr), (3, "relay".toList), (2, c.port), (1, c.address)]

/-- What is packed of a candidate, in fields. -/
def UdpCandidate.fields (c : UdpCandidate) : List Str :=
  match c.typ with
  | .host => [c.address, c.port]
  | .srflx raddr rport => [c.address, c.port, ['s'], raddr, rport]
  | .relay raddr rport => [c.address, c.port, ['r'], raddr, rport]

theorem codePoints_injective : Function.Injective codePoints :=
  List.map_injective_iff.2 fun _ _ h => CodePoint.char.inj h

theorem codePoints_intercalate (c : Char) (ls : List Str) :
    codePoints ([c].intercalate ls) = [.char c].intercalate (ls.map codePoints) := by
  induction ls with
  | nil => rfl
  | cons s ls ih =>
    cases ls with
    | nil => rw [List.map_singleton, List.intercalate_singleton, List.intercalate_singleton]
    | cons t ls =>
      rw [List.intercalate_cons_cons, List.map_cons, List.map_cons, List.intercalate_cons_cons,
        ← List.map_cons, ← ih]
      simp only [codePoints, List.map_append, List.map_cons, List.map_nil]

theorem packCandidate_captures (c : UdpCandidate) :
    packCandidate c.captures = codePoints ([','].intercalate c.fields) := by
  rw [codePoints_intercalate]
  obtain ⟨address, port, typ⟩ := c
  cases typ <;> rfl

/-- Words after a first one, each after a space. -/
def spaced (ws : List Str) : Str := ws.flatMap (' ' :: ·)

theorem intercalate_space : [' '].intercalate (w :: ws) = w ++ spaced ws := by
  induction ws generalizing w with
  | nil => simp [spaced]
  | cons w' ws ih =>
    rw [List.intercalate_cons_cons, ih]
    simp [spaced]

theorem clear_spaced (h : ∀ w ∈ ws, Lacks i a w) :
    Regex.Clear (canonicalize (a.flag i)) a.text (spaced ws ++ crlf) := by
  have hnil : Lacks i a [] := lacks_of_not_mem List.not_mem_nil
  have hwords : Regex.Clear (canonicalize (a.flag i)) a.text
      ([' '].intercalate ([] :: ws) ++ crlf) := clear_words (by simpa [hnil] using h)
  rwa [intercalate_space] at hwords

/-- A word and a space are at the beginning of words only if the first is this word. -/
theorem map_eq_of_starts (hw : ' ' ∉ w ∧ '\r' ∉ w) (hu : ' ' ∉ u)
    (hs : s.head? = some ' ' ∨ s.head? = some '\r')
    (h : Regex.Starts (canonicalize i) (w ++ [' ']) (u ++ s)) :
    w.map (canonicalize i) = u.map (canonicalize i) := by
  have hspace : canonicalize i ' ' = ' ' := by cases i <;> rfl
  have hcr : canonicalize i '\r' = '\r' := by cases i <;> rfl
  induction w generalizing u with
  | nil =>
    cases u with
    | nil => rfl
    | cons c u =>
      rw [Regex.Starts, List.nil_append, List.map_cons, List.cons_append, List.map_cons,
        List.cons_prefix_cons, hspace] at h
      obtain rfl := eq_of_canonicalize (by decide) h.1.symm
      exact absurd List.mem_cons_self hu
  | cons c w ih =>
    cases u with
    | nil =>
      have hc : canonicalize i c = ' ' ∨ canonicalize i c = '\r' := by
        rcases hs with hs | hs <;> obtain ⟨s, rfl⟩ := List.head?_eq_some_iff.1 hs <;>
          rw [Regex.Starts, List.cons_append, List.nil_append, List.map_cons, List.map_cons,
            List.cons_prefix_cons] at h
        · exact .inl (h.1.trans hspace)
        · exact .inr (h.1.trans hcr)
      rcases hc with hc | hc
      · obtain rfl := eq_of_canonicalize (by decide) hc
        exact absurd List.mem_cons_self hw.1
      · obtain rfl := eq_of_canonicalize (by decide) hc
        exact absurd List.mem_cons_self hw.2
    | cons d u =>
      rw [Regex.Starts, List.cons_append, List.cons_append, List.map_cons, List.map_cons,
        List.cons_prefix_cons] at h
      rw [List.map_cons, List.map_cons, h.1]
      refine congrArg (_ :: ·) (ih ?_ ?_ h.2)
      · exact ⟨fun h => hw.1 (List.mem_cons_of_mem _ h), fun h => hw.2 (List.mem_cons_of_mem _ h)⟩
      · exact fun h => hu (List.mem_cons_of_mem _ h)

theorem head?_spaced (ws : List Str) (s : Str) : (spaced ws ++ (crlf ++ s)).head? = some ' ' ∨
    (spaced ws ++ (crlf ++ s)).head? = some '\r' := by
  cases ws with
  | nil => exact .inr rfl
  | cons w ws => exact .inl rfl

/-- The pattern of a candidate's type. -/
abbrev typRe : List (Regex Char) :=
  [.capture 3 (.plus nonspace),
    .opt (.cat [.lit " raddr ".toList, .capture 4 (.plus nonspace), .lit " rport ".toList,
      .capture 5 (.plus Char.isDigit)])]

/-- The pattern of candidates up to the type. -/
theorem exec_candidateRe (foundation : Token nonspace) (transport : TransportName .udp)
    (priority : Token Char.isDigit) {port : Token Char.isDigit} {address : Token isAddress}
    {β : Type*} {k : Captures Char → Str → Option β} :
    candidateRe.exec (canonicalize true) [] ("a=candidate:".toList ++ (foundation.1 ++
      ([' '] ++ (['1'] ++ (([' '] ++ (transport.1 ++ [' '])) ++ (priority.1 ++
      ([' '] ++ (address.1 ++ ([' '] ++ (port.1 ++ (" typ ".toList ++ s))))))))))) k =
    (Regex.cat typRe).exec (canonicalize true) [(2, port.1), (1, address.1)] s k := by
  have hspace : ¬ nonspace ' ' := by decide
  have hdigit : ¬ Char.isDigit ' ' := by decide
  let one : Token Char.isDigit := ⟨['1'], by decide⟩
  let address' : Token nonspace := ⟨address.1, address.2.1, fun c hc => by
    have := address.2.2 c hc
    rw [isAddress, Bool.and_eq_true] at this
    exact this.1⟩
  have htransport : ([' '] ++ (transport.1 ++ [' '])).map (canonicalize true) =
      " udp ".toList.map (canonicalize true) := by
    have htrans : transport.1.map (canonicalize true) = "udp".toList.map (canonicalize true) :=
      transport.2
    simp only [List.map_append, htrans]
    rfl
  rw [candidateRe, Regex.exec_cat_cons, Regex.exec_lit_self, exec_field hspace rfl rfl,
    Regex.exec_cat_cons, Regex.exec_lit_self]
  rw [exec_field (v := one) hdigit rfl rfl, Regex.exec_cat_cons, Regex.exec_lit_append htransport]
  rw [exec_field hdigit rfl rfl, Regex.exec_cat_cons, Regex.exec_lit_self]
  rw [exec_capture_field (v := address') hspace rfl rfl, Regex.exec_cat_cons,
    Regex.exec_lit_self, exec_capture_field hdigit rfl rfl, Regex.exec_cat_cons,
    Regex.exec_lit_self]

/-- A type with a related address. -/
theorem exec_typRe (word : Str) (raddr : Token isAddress) (rport : Token Char.isDigit)
    {m : Captures Char} (hne : word ≠ []) (hword : ∀ c ∈ word, nonspace c)
    (hs : s.head? = some ' ' ∨ s.head? = some '\r') :
    (Regex.cat typRe).exec (canonicalize true) m (word ++ (" raddr ".toList ++ (raddr.1 ++
      (" rport ".toList ++ (rport.1 ++ s))))) (fun m s => some (m, s)) =
    some ([(5, rport.1), (4, raddr.1), (3, word)] ++ m, s) := by
  have hspace : ¬ nonspace ' ' := by decide
  let raddr' : Token nonspace := ⟨raddr.1, raddr.2.1, fun c hc => by
    have := raddr.2.2 c hc
    rw [isAddress, Bool.and_eq_true] at this
    exact this.1⟩
  have hdigit : ∀ c ∈ s.head?, ¬ c.isDigit := by
    rcases hs with hs | hs <;> rw [hs] <;> rintro c ⟨⟩ <;> decide
  rw [Regex.exec_cat_cons]
  refine Regex.exec_capture_greedy hne hword (not_of_head? hspace rfl) ?_
  rw [Regex.exec_cat_cons, Regex.exec, Regex.exec_cat_cons, Regex.exec_lit_self,
    exec_capture_field (v := raddr') hspace rfl rfl, Regex.exec_cat_cons, Regex.exec_lit_self,
    Regex.exec_cat_cons]
  rw [Regex.exec_capture_greedy rport.2.1 rport.2.2 hdigit rfl]
  rfl

/-- A type without one. -/
theorem exec_typRe_host (word : Str) {m : Captures Char} (hne : word ≠ [])
    (hword : ∀ c ∈ word, nonspace c) (hs : s.head? = some ' ' ∨ s.head? = some '\r')
    (h : ¬ Regex.Starts (canonicalize true) " raddr ".toList s) :
    (Regex.cat typRe).exec (canonicalize true) m (word ++ s) (fun m s => some (m, s)) =
    some ((3, word) :: m, s) := by
  have hspace : ∀ c ∈ s.head?, ¬ nonspace c := by
    rcases hs with hs | hs <;> rw [hs] <;> rintro c ⟨⟩ <;> decide
  rw [Regex.exec_cat_cons]
  refine Regex.exec_capture_greedy hne hword hspace ?_
  rw [Regex.exec_cat_cons, Regex.exec, Regex.exec_cat_cons, Regex.exec_lit_of_not_starts h]
  rfl

/-- There is no related address after the type of a plain candidate of type host. -/
theorem not_starts_raddr {extensions : List Word}
    (h : ∀ w ∈ extensions.head?, w.1.map Char.toUpper ≠ "RADDR".toList) :
    ¬ Regex.Starts (canonicalize true) " raddr ".toList
      (spaced (extensions.map (·.1)) ++ (crlf ++ s)) := by
  cases extensions with
  | nil => exact Regex.not_starts_of_differ (u := crlf) (by decide)
  | cons w extensions =>
    intro hs
    have hraddr : Regex.Starts (canonicalize true) ("raddr".toList ++ [' '])
        (w.1 ++ (spaced (extensions.map (·.1)) ++ (crlf ++ s))) := by
      have hs' : Regex.Starts (canonicalize true) (' ' :: ("raddr".toList ++ [' ']))
          (' ' :: (w.1 ++ (spaced (extensions.map (·.1)) ++ (crlf ++ s)))) := by
        simpa [spaced] using hs
      exact (List.cons_prefix_cons.1 hs').2
    exact h w rfl (map_eq_of_starts (by decide) w.2 (head?_spaced _ s) hraddr).symm

variable {foundation : Token nonspace} {priority component : Token Char.isDigit}
  {c : UdpCandidate} {extensions rest : List Word}

/-- A candidate from its foundation to its type. -/
def front (foundation transport priority : Str) (c : UdpCandidate) : Str :=
  foundation ++ ([' '] ++ (['1'] ++ (([' '] ++ (transport ++ [' '])) ++ (priority ++ ([' '] ++
    (c.address.1 ++ ([' '] ++ (c.port.1 ++ " typ ".toList))))))))

theorem typ_eq : " typ ".toList = [' '] ++ ("typ".toList ++ [' ']) := by decide

theorem raddr_eq : " raddr ".toList = [' '] ++ ("raddr".toList ++ [' ']) := by decide

theorem rport_eq : " rport ".toList = [' '] ++ ("rport".toList ++ [' ']) := by decide

theorem udp_text {transport : TransportName .udp} :
    (SdpLine.udp foundation transport priority c extensions).text =
      "a=candidate:".toList ++ (front foundation transport priority c ++
        ([' '].intercalate c.typ.words ++ spaced (extensions.map (·.1)))) := by
  obtain ⟨address, port, typ⟩ := c
  cases typ <;>
    simp only [SdpLine.text, SdpLine.kind, SdpLine.words, Attribute.text, Attribute.name,
      Typ.words, front, intercalate_space, spaced, typ_eq, Option.elim_some, List.cons_append,
      List.nil_append, List.append_assoc, List.flatMap_cons, List.flatMap_nil, List.append_nil]

/-- The pattern of candidates matches one up to its extensions. -/
theorem matchHere_udp {transport : TransportName .udp}
    (hl : (SdpLine.udp foundation transport priority c extensions).Plain true) :
    candidateRe.matchHere (canonicalize true)
        ("a=candidate:".toList ++ (front foundation transport priority c ++
          ([' '].intercalate c.typ.words ++ (spaced (extensions.map (·.1)) ++ (crlf ++ s))))) =
      some (c.captures, spaced (extensions.map (·.1)) ++ (crlf ++ s)) := by
  have htyp : (Regex.cat typRe).exec (canonicalize true) [(2, c.port.1), (1, c.address.1)]
      ([' '].intercalate c.typ.words ++ (spaced (extensions.map (·.1)) ++ (crlf ++ s)))
      (fun m s => some (m, s)) =
      some (c.captures, spaced (extensions.map (·.1)) ++ (crlf ++ s)) := by
    obtain ⟨address, port, typ⟩ := c
    cases typ with
    | host =>
      exact exec_typRe_host "host".toList (by decide) (by decide) (head?_spaced _ s)
        (not_starts_raddr (hl.2 rfl))
    | srflx raddr rport =>
      have htyp := exec_typRe "srflx".toList raddr rport (m := [(2, port.1), (1, address.1)])
        (by decide) (by decide) (head?_spaced (extensions.map (·.1)) s)
      simpa [Typ.words, UdpCandidate.captures, intercalate_space, spaced] using htyp
    | relay raddr rport =>
      have htyp := exec_typRe "relay".toList raddr rport (m := [(2, port.1), (1, address.1)])
        (by decide) (by decide) (head?_spaced (extensions.map (·.1)) s)
      simpa [Typ.words, UdpCandidate.captures, intercalate_space, spaced] using htyp
  rw [Regex.matchHere, ← htyp, ← exec_candidateRe foundation transport priority]
  simp only [front, List.append_assoc]

/-- It does not match a candidate over TCP. -/
theorem matchHere_tcp {transport : TransportName .tcp} :
    candidateRe.matchHere (canonicalize i)
      ((SdpLine.tcp foundation component transport rest).text ++ s) = none := by
  have hspace : ¬ nonspace ' ' := by decide
  have hdigit : ¬ Char.isDigit ' ' := by decide
  have htext : (SdpLine.tcp foundation component transport rest).text ++ s =
      "a=candidate:".toList ++ (foundation.1 ++ ([' '] ++ (component.1 ++
        ([' '] ++ (transport.1 ++ (spaced (rest.map (·.1)) ++ s)))))) := by
    simp only [SdpLine.text, SdpLine.kind, SdpLine.words, Attribute.text, Attribute.name,
      intercalate_space, spaced,
      Option.elim_some, List.cons_append, List.nil_append, List.append_assoc, List.flatMap_cons]
  have htransport : ¬ Regex.Starts (canonicalize i) " udp ".toList
      ([' '] ++ (transport.1 ++ (spaced (rest.map (·.1)) ++ s))) := by
    have hname : transport.1.map Char.toUpper = ['T', 'C', 'P'] := transport.2.trans (by decide)
    obtain ⟨c, t, ht, hc, -⟩ := List.map_eq_cons_iff.1 hname
    have hudp : " udp ".toList = [' ', 'u', 'd', 'p', ' '] := by decide
    rw [ht, hudp]
    intro hs
    have hu : canonicalize i 'u' = canonicalize i c :=
      (List.cons_prefix_cons.1 (List.cons_prefix_cons.1 hs).2).1
    cases i with
    | false =>
      obtain rfl : 'u' = c := hu
      exact absurd hc (by decide)
    | true =>
      have hu : Char.toUpper 'u' = c.toUpper := hu
      rw [hc] at hu
      exact absurd hu (by decide)
  rw [htext, Regex.matchHere, candidateRe, Regex.exec_cat_cons, Regex.exec_lit_self,
    exec_field hspace rfl rfl, Regex.exec_cat_cons, Regex.exec_lit_self,
    exec_field hdigit rfl rfl, Regex.exec_cat_cons, Regex.exec_lit_of_not_starts htransport]

theorem text_tail (h : l.kind = some a) :
    (l.text ++ crlf).tail = a.text.tail ++ ([' '].intercalate l.words ++ crlf) := by
  have hne : a.text ≠ [] := by cases a <;> decide
  rw [SdpLine.text, h, Option.elim_some, List.append_assoc, List.tail_append_of_ne_nil hne]

/-- There is no candidate in the words of a line without one over UDP. -/
theorem lacks_candidate (hl : l.Plain i) (h : l.candidate? = none) (hw : w ∈ l.words) :
    Lacks i .candidate w := by
  cases l with
  | tcp foundation component transport rest =>
    rcases List.mem_append.1 hw with hw | hw
    · simp only [List.mem_cons, List.not_mem_nil, or_false] at hw
      rcases hw with rfl | rfl | rfl
      · exact hl.1
      · exact lacks_of_isDigit component
      · exact lacks_transport transport
    · obtain ⟨w', hrest, rfl⟩ := List.mem_map.1 hw
      exact hl.2 w' hrest
  | udp => cases h
  | ufrag | pwd | fingerprint | setup | other => exact lacks_words hl nofun hw

/-- There is no match in a line without a candidate over UDP. -/
theorem matchAll_other (hl : l.Plain i) (h : l.candidate? = none) :
    candidateRe.matchAll (canonicalize i) (l.text ++ crlf ++ s) =
      candidateRe.matchAll (canonicalize i) s := by
  have hwords : ∀ w ∈ l.words, Lacks i .candidate w := fun _ => lacks_candidate hl h
  by_cases hk : l.kind = some .candidate
  · refine Regex.matchAll_append_of_tail ?_ ?_
    · cases l with
      | tcp foundation component transport rest =>
        rw [List.append_assoc]
        exact matchHere_tcp
      | udp => cases h
      | ufrag | pwd | fingerprint | setup | other => cases hk
    · rw [text_tail hk]
      exact clear_rest hwords
  · exact Regex.matchAll_append (clear_line hwords hk)

/-- There is one in the line of a candidate. -/
theorem matchAll_udp {transport : TransportName .udp}
    (hl : (SdpLine.udp foundation transport priority c extensions).Plain true) :
    candidateRe.matchAll (canonicalize true)
        ((SdpLine.udp foundation transport priority c extensions).text ++ crlf ++ s) =
      c.captures :: candidateRe.matchAll (canonicalize true) s := by
  have hextensions : ∀ w ∈ extensions.map (·.1), Lacks true .candidate w := by
    intro w hw
    obtain ⟨w, hextension, rfl⟩ := List.mem_map.1 hw
    exact hl.1 w hextension
  let u := "a=candidate:".toList ++ (front foundation transport priority c ++
    [' '].intercalate c.typ.words)
  have hu : u ≠ [] := fun h => absurd (List.append_eq_nil_iff.1 h).1 (by decide)
  have hmatch : candidateRe.matchAll (canonicalize true)
      (u ++ (spaced (extensions.map (·.1)) ++ (crlf ++ s))) =
        c.captures :: candidateRe.matchAll (canonicalize true)
          (spaced (extensions.map (·.1)) ++ (crlf ++ s)) :=
    Regex.matchAll_of_matchHere (by simpa only [u, List.append_assoc] using matchHere_udp hl) hu
  have hclear : candidateRe.matchAll (canonicalize true)
      (spaced (extensions.map (·.1)) ++ crlf ++ s) = candidateRe.matchAll (canonicalize true) s :=
    Regex.matchAll_append (clear_spaced hextensions)
  rw [udp_text]
  simp only [u, List.append_assoc] at hmatch hclear ⊢
  rw [hmatch, hclear]

theorem matchAll_render (hp : ∀ l ∈ lines, l.Plain true) :
    candidateRe.matchAll (canonicalize true) (render lines) =
      (lines.filterMap (·.candidate?)).map (·.captures) := by
  induction lines with
  | nil => rfl
  | cons l lines ih =>
    have hl := hp l List.mem_cons_self
    have ih := ih fun l hl => hp l (List.mem_cons_of_mem _ hl)
    rw [render, List.flatMap_cons, ← render]
    cases hc : l.candidate? with
    | none => rw [matchAll_other hl hc, ih, List.filterMap_cons_none hc]
    | some c =>
      cases l with
      | udp foundation transport priority c' extensions =>
        rw [matchAll_udp hl, ih, List.filterMap_cons_some hc]
        cases hc
        rfl
      | ufrag | pwd | fingerprint | setup | tcp | other => cases hc

/-! ## Fingerprints -/

/-- A digit in the alphabet for URLs. -/
def urlDigit (n : ℕ) : Char :=
  if Base64.digit n = '+' then '-' else if Base64.digit n = '/' then '_' else Base64.digit n

theorem urlDigit_ne {n : ℕ} (h : n < 64) :
    urlDigit n ≠ '~' ∧ urlDigit n ≠ '=' ∧ urlDigit n ≠ '%' := by
  revert n
  decide +kernel

theorem replaceAll_digit {n : ℕ} (h : n < 64) :
    replaceAll '/' '_' (replaceAll '+' '-' [Base64.digit n]) = [urlDigit n] ∧
      replaceAll '_' '/' (replaceAll '-' '+' [urlDigit n]) = [Base64.digit n] := by
  revert n
  decide +kernel

theorem replaceAll_append {a b : Char} :
    replaceAll a b (s ++ t) = replaceAll a b s ++ replaceAll a b t :=
  List.map_append

/-- What `b64u` makes of bytes. -/
def urlDigits (l : List UInt8) : Str := (Base64.digits l).map urlDigit

theorem rdropWhile_padding {n : ℕ} (h : '=' ∉ s) :
    (s ++ List.replicate n '=').rdropWhile (· = '=') = s := by
  induction n with
  | zero =>
    rw [List.replicate_zero, List.append_nil, List.rdropWhile_eq_self_iff]
    intro hne heq
    exact h (of_decide_eq_true heq ▸ List.getLast_mem hne)
  | succ n ih =>
    rw [List.replicate_succ', ← List.append_assoc, List.rdropWhile_concat_pos _ _ _ (by simp), ih]

theorem replaceAll_digits {ns : List ℕ} (h : ∀ n ∈ ns, n < 64) :
    replaceAll '/' '_' (replaceAll '+' '-' (ns.map Base64.digit)) = ns.map urlDigit ∧
      replaceAll '_' '/' (replaceAll '-' '+' (ns.map urlDigit)) = ns.map Base64.digit := by
  simp only [replaceAll, List.map_map]
  exact ⟨List.map_congr_left fun n hn => List.head_eq_of_cons_eq (replaceAll_digit (h n hn)).1,
    List.map_congr_left fun n hn => List.head_eq_of_cons_eq (replaceAll_digit (h n hn)).2⟩

theorem b64u_toNat (l : List UInt8) : b64u (l.map (·.toNat)) = some (urlDigits l) := by
  have hbtoa : btoa (l.map (·.toNat)) = some (Base64.encode l) := by
    have hall : (l.map (·.toNat)).all (· < 256) := by
      simp only [List.all_map, List.all_eq_true, Function.comp_apply, decide_eq_true_eq]
      exact fun a _ => a.toNat_lt
    rw [btoa, if_pos hall, List.map_map]
    have hid : (UInt8.ofNat ∘ fun a : UInt8 => a.toNat) = id := funext fun a => UInt8.ofNat_toNat
    rw [hid, List.map_id]
  have hpadding : '=' ∉ urlDigits l := by
    intro h
    obtain ⟨n, hn, heq⟩ := List.mem_map.1 h
    exact (urlDigit_ne (Base64.lt_of_mem_digits hn)).2.1 heq
  have hreplicate : ∀ n, replaceAll '/' '_' (replaceAll '+' '-' (List.replicate n '=')) =
      List.replicate n '=' := by
    intro n
    simp [replaceAll]
  rw [b64u, hbtoa, Option.map_some, Base64.encode, replaceAll_append, replaceAll_append,
    (replaceAll_digits fun n hn => Base64.lt_of_mem_digits hn).1, hreplicate]
  exact congrArg some (rdropWhile_padding hpadding)

theorem unb64u_urlDigits (l : List UInt8) : unb64u (urlDigits l) = some l := by
  rw [unb64u, urlDigits, (replaceAll_digits fun n hn => Base64.lt_of_mem_digits hn).2,
    Base64.decode_map_digit]

/-- The bytes of a fingerprint. -/
def Fingerprint.bytes (f : Fingerprint) : List UInt8 :=
  f.1.map fun b => .ofNat (hexCode [b.1.1, b.1.2])

theorem hex_facts {c : Char} (h : isHex c) :
    hexValue c < 16 ∧ c ≠ ':' ∧ c ≠ '=' ∧ c.toUpper = (Nat.digitChar (hexValue c)).toUpper := by
  have hall : ∀ c ∈ "0123456789ABCDEFabcdef".toList,
      hexValue c < 16 ∧ c ≠ ':' ∧ c ≠ '=' ∧ c.toUpper = (Nat.digitChar (hexValue c)).toUpper := by
    decide +kernel
  exact hall c (of_decide_eq_true h)

/-- Of integers of 53 bits, nothing is lost. -/
theorem toDouble_of_lt {n : ℕ} (h : n < 2 ^ 53) : toDouble n = n := by
  have hulp : n.log2 - 52 = 0 := by
    rcases eq_or_ne n 0 with rfl | hne
    · rfl
    · have := (Nat.log2_lt hne).2 h
      omega
  simp [toDouble, hulp, Nat.mod_one]

theorem hexCode_pair {c d : Char} (hc : isHex c) (hd : isHex d) :
    hexCode [c, d] = 16 * hexValue c + hexValue d := by
  have := (hex_facts hc).1
  have := (hex_facts hd).1
  simp only [hexCode, List.foldl_cons, List.foldl_nil]
  rw [toDouble_of_lt (by omega)]
  omega

theorem fpToB64_text (f : Fingerprint) : fpToB64 f.text = some (urlDigits f.bytes) := by
  have hcolon : ∀ s ∈ f.1.map fun b : HexByte => [b.1.1, b.1.2], ':' ∉ s := by
    intro s hs hmem
    obtain ⟨b, -, rfl⟩ := List.mem_map.1 hs
    simp only [List.mem_cons, List.not_mem_nil, or_false] at hmem
    exact hmem.elim (hex_facts b.2.1).2.1.symm (hex_facts b.2.2).2.1.symm
  have hcodes : (f.1.map fun b : HexByte => [b.1.1, b.1.2]).map hexCode =
      f.bytes.map (·.toNat) := by
    rw [Fingerprint.bytes, List.map_map, List.map_map]
    refine List.map_congr_left fun b _ => ?_
    have hcode := hexCode_pair b.2.1 b.2.2
    have := (hex_facts b.2.1).1
    have := (hex_facts b.2.2).1
    refine (UInt8.toNat_ofNat_of_lt' ?_).symm
    change hexCode [b.1.1, b.1.2] < 256
    rw [hcode]
    omega
  rw [fpToB64, Fingerprint.text, List.splitOn_intercalate ':' hcolon (by simpa using f.2), hcodes,
    b64u_toNat]

/-! ## The packed string -/

/-- The packed string of what is said, in fields. -/
def packedFields (type : SdpType) (x : SessionData) : List Str := [
  if type = .offer then ['o'] else ['a'],
  match x.setup with
    | .actpass => ['A']
    | .active => ['a']
    | .passive => ['p'],
  x.ufrag.1, x.pwd.1, urlDigits x.fingerprint.bytes,
  [';'].intercalate (x.candidates.map fun c => [','].intercalate c.fields)]

/-- The value of an attribute that one line has. -/
theorem g_filterMap {β : Type*} {f : SdpLine → Option β} {x : β} {name v : Str}
    {p : Char → Bool} (hp : PlainLines i lines) (hx : lines.filterMap f = [x])
    (ha : a ≠ .candidate) (hnone : ∀ l, f l = none → l.kind ≠ some a)
    (hsome : ∀ l, f l = some x → l.text = name ++ v) (hname : a.text <+: name) (hne : v ≠ [])
    (hv : ∀ c ∈ v, p c) (hcr : ¬ p '\r') :
    g (a.flag i) (attributeRe name p) (render lines) = v := by
  obtain ⟨l₁, l, l₂, heq, hl₁, hl, -⟩ := List.filterMap_eq_cons_iff.1 hx
  exact g_render hp heq ha (fun l hl => hnone l (hl₁ l hl)) hname (hsome l hl) hne hv hcr

theorem nonspace_of_isIce {c : Char} (h : isIce c) : nonspace c := by
  have hall : ∀ n < 123, isIce (Char.ofNat n) → nonspace (Char.ofNat n) := by decide +kernel
  rw [← Char.ofNat_toNat c] at h ⊢
  refine hall c.toNat ?_ h
  rw [Char.ofNat_toNat] at h
  simp only [isIce, Bool.or_eq_true, decide_eq_true_eq] at h
  rcases h with (h | rfl) | rfl
  · exact toNat_lt_of_isAlphanum h
  · decide
  · decide

theorem g_ufrag {x : SessionData} (hp : PlainLines i lines) (hx : Says lines x) :
    g false (attributeRe "a=ice-ufrag:".toList nonspace) (render lines) = x.ufrag := by
  refine g_filterMap (a := .ufrag) hp hx.ufrag (by decide) (fun l h hk => ?_) (fun l h => ?_)
    List.prefix_rfl x.ufrag.2.1 (fun c hc => nonspace_of_isIce (x.ufrag.2.2 c hc)) (by decide)
  · cases l with
    | ufrag => cases h
    | pwd | fingerprint | setup | udp | tcp | other => cases hk
  · cases l <;> cases h
    exact congrArg (_ ++ ·) (List.intercalate_singleton ..)

theorem g_pwd {x : SessionData} (hp : PlainLines i lines) (hx : Says lines x) :
    g false (attributeRe "a=ice-pwd:".toList nonspace) (render lines) = x.pwd := by
  refine g_filterMap (a := .pwd) hp hx.pwd (by decide) (fun l h hk => ?_) (fun l h => ?_)
    List.prefix_rfl x.pwd.2.1 (fun c hc => nonspace_of_isIce (x.pwd.2.2 c hc)) (by decide)
  · cases l with
    | pwd => cases h
    | ufrag | fingerprint | setup | udp | tcp | other => cases hk
  · cases l <;> cases h
    exact congrArg (_ ++ ·) (List.intercalate_singleton ..)

theorem g_setup {x : SessionData} (hp : PlainLines i lines) (hx : Says lines x) :
    g false (attributeRe "a=setup:".toList nonspace) (render lines) = x.setup.text := by
  refine g_filterMap (a := .setup) hp hx.setup (by decide) (fun l h hk => ?_) (fun l h => ?_)
    List.prefix_rfl ?_ ?_ (by decide)
  · cases l with
    | setup => cases h
    | ufrag | pwd | fingerprint | udp | tcp | other => cases hk
  · cases l <;> cases h
    exact congrArg (_ ++ ·) (List.intercalate_singleton ..)
  · cases x.setup <;> decide
  · cases x.setup <;> decide

theorem Fingerprint.text_ne_nil (f : Fingerprint) : f.text ≠ [] := by
  obtain ⟨_ | ⟨b, _ | ⟨b', l⟩⟩, hne⟩ := f
  · exact absurd rfl hne
  · exact List.cons_ne_nil _ _
  · exact List.cons_ne_nil _ _

theorem fingerprint_text (f : Fingerprint) :
    (SdpLine.fingerprint f).text = "a=fingerprint:sha-256 ".toList ++ f.text := by
  have hname : "a=fingerprint:sha-256 ".toList = Attribute.fingerprint.text ++ [' '] := by decide
  rw [hname, List.append_assoc]
  simp only [SdpLine.text, SdpLine.kind, SdpLine.words, Option.elim_some,
    List.intercalate_cons_cons, List.nil_append, List.intercalate_singleton]

theorem g_fingerprint {x : SessionData} (hp : PlainLines true lines) (hx : Says lines x) :
    g true (attributeRe "a=fingerprint:sha-256 ".toList fun c => isHex c || c = ':')
      (render lines) = x.fingerprint.text := by
  refine g_filterMap (a := .fingerprint) hp hx.fingerprint (by decide) (fun l h hk => ?_)
    (fun l h => ?_) ⟨[' '], by decide⟩ x.fingerprint.text_ne_nil (fun c hc => ?_) (by decide)
  · cases l with
    | fingerprint => cases h
    | ufrag | pwd | setup | udp | tcp | other => cases hk
  · cases l <;> cases h
    exact fingerprint_text _
  · simpa using Fingerprint.mem_text hc

theorem packSdp_render {type : SdpType} {x : SessionData} (hp : PlainLines true lines)
    (hx : Says lines x) :
    packSdp ⟨type, render lines⟩ =
      some (codePoints (['~'].intercalate (packedFields type x))) := by
  have hsetup : (if x.setup.text = "actpass".toList then ['A']
      else if x.setup.text = "active".toList then ['a'] else ['p']) =
      match x.setup with
      | .actpass => ['A']
      | .active => ['a']
      | .passive => ['p'] := by
    cases x.setup <;> decide
  have hcands : (candidateRe.matchAll (canonicalize true) (render lines)).map packCandidate =
      (x.candidates.map fun c => [','].intercalate c.fields).map codePoints := by
    rw [matchAll_render hp.line, hx.candidates, List.map_map, List.map_map]
    exact List.map_congr_left fun c _ => packCandidate_captures c
  simp only [packSdp, g_ufrag hp hx, g_pwd hp hx, g_setup hp hx, g_fingerprint hp hx, hcands,
    fpToB64_text, Option.map_some, packedFields, hsetup, codePoints_intercalate, List.map_cons,
    List.map_nil]

end IrohWebrtc
