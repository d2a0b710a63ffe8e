import IrohWebrtc.Chat.QrCode
import IrohWebrtc.Lib.Utf16
import IrohWebrtc.Manual

/-!
# Descriptions that people exchange

People open the links of pages, paste them, or scan them, right or wrong ones, in any order and
any number of times. Still a page applies one remote description at most, and it is what a page
of the other role has said in a link of its own (`descriptions_exchanged`): an offer is never
taken for an answer, nor a second answer for the first. What is no link of a page may be opened
or pasted too, if nothing can be unpacked from it (`Careful`): a link that is cut off, but not
so far, would be taken for what is left of it.
-/

namespace IrohWebrtc

open Qr (Modules)

/-! ## Links -/

def Role.type : Role → SdpType
  | .offerer => .offer
  | .answerer => .answer

def Role.other : Role → Role
  | .offerer => .answerer
  | .answerer => .offerer

/-- A description that has what links need. The zone of an address would be taken for an
    escape. -/
structure Linkable (sdp : Str) (x : SessionData) : Prop where
  lines : ∃ lines, sdp = render lines ∧ PlainLines true lines ∧ Says lines x
  short : x.candidates.length < 268435456
  zone : ∀ c ∈ x.candidates, ∀ f ∈ c.fields, '%' ∉ f

/-- What is packed of what is said. -/
def packedData (role : Role) (x : SessionData) : Str := ['~'].intercalate (packedFields role.type x)

/-- The link of what is said. -/
def linkOf (page : Str) (role : Role) (x : SessionData) : Str :=
  linkFor page ('#' :: role.key ++ '=' :: (packedData role x).flatMap Uri.encodeChar)

/-- Whether a URL's origin and path are written as in URLs, and mean themselves in HTML. -/
def IsPage (page : Str) : Prop := ∀ c ∈ page, isFragment c ∧ c ∉ ['#', '&']

variable {page : Str} {role : Role} {x : SessionData} {desc d : Description}

theorem Role.other_ne (role : Role) : role.other ≠ role := by
  cases role <;> decide

theorem Role.isUnreserved_key (role : Role) : ∀ c ∈ role.key, Uri.isUnreserved c := by
  cases role <;> decide

theorem IsPage.not_mem (h : IsPage page) : '#' ∉ page := fun hmem =>
  (h _ hmem).2 List.mem_cons_self

theorem packedData_ne_nil : packedData role x ≠ [] := by
  rw [packedData, packedFields, List.intercalate_cons_cons, List.append_assoc]
  exact List.append_ne_nil_of_right_ne_nil _ (List.cons_ne_nil _ _)

/-- There is no escape in what is packed. -/
theorem percent_not_mem (h : ∀ c ∈ x.candidates, ∀ f ∈ c.fields, '%' ∉ f) :
    '%' ∉ packedData role x := by
  intro hmem
  rcases mem_intercalate hmem with hmem | ⟨f, hf, hmem⟩
  · exact absurd hmem (by decide)
  simp only [packedFields, List.mem_cons, List.not_mem_nil, or_false] at hf
  rcases hf with rfl | rfl | rfl | rfl | rfl | rfl
  · cases role <;> exact absurd hmem (by decide)
  · cases hsetup : x.setup <;> rw [hsetup] at hmem <;> exact absurd hmem (by decide)
  · exact absurd (x.ufrag.2.2 _ hmem) (by decide)
  · exact absurd (x.pwd.2.2 _ hmem) (by decide)
  · obtain ⟨n, hn, heq⟩ := List.mem_map.1 hmem
    exact (urlDigit_ne (Base64.lt_of_mem_digits hn)).2.2 heq
  · rcases mem_intercalate hmem with hmem | ⟨s, hs, hmem⟩
    · exact absurd hmem (by decide)
    obtain ⟨c, hc, rfl⟩ := List.mem_map.1 hs
    rcases mem_intercalate hmem with hmem | ⟨f, hf, hmem⟩
    · exact absurd hmem (by decide)
    · exact h c hc f hf hmem

theorem Linkable.shareLink (h : Linkable desc.sdp x) (htype : desc.type = role.type) :
    ((packSdp desc).bind (shareLink page role.key)) = some (linkOf page role x) := by
  obtain ⟨lines, hsdp, hplain, hsays⟩ := h.lines
  have hpack : packSdp desc = some (codePoints (packedData role x)) := by
    obtain ⟨type, sdp⟩ := desc
    obtain rfl : type = role.type := htype
    obtain rfl : sdp = render lines := hsdp
    exact packSdp_render hplain hsays
  rw [hpack, Option.bind_some, codePoints, shareLink_map]
  rfl

/-- What is read of a parameter that is not in the link. -/
theorem readParam_encode_of_ne {key name cs : Str} (hkey : ∀ c ∈ key, Uri.isUnreserved c)
    (hne : name ≠ key) : readParam (key ++ '=' :: cs.flatMap Uri.encodeChar) name = none := by
  rw [readParam, searchParam_encode hkey, Uri.formGet_encode_of_ne hkey hne]

/-- A link's offer, or none. -/
theorem readOffer_linkOf (hpage : IsPage page)
    (h : ∀ c ∈ x.candidates, ∀ f ∈ c.fields, '%' ∉ f) :
    readOffer (locationHash (linkOf page role x)) =
      if role = .offerer then some (some (packedData role x)) else none := by
  rw [linkOf, readOffer, locationHash_linkFor hpage.not_mem role.isUnreserved_key]
  cases role with
  | offerer =>
    rw [if_pos rfl]
    exact (readParam_encode (Role.isUnreserved_key _) packedData_ne_nil).trans
      (congrArg some (Uri.decodeURIComponent_of_not_mem (percent_not_mem h)))
  | answerer =>
    rw [if_neg (by decide)]
    exact readParam_encode_of_ne (Role.isUnreserved_key .answerer) (by decide)

/-- A link's answer, or none. -/
theorem readAnswer_linkOf (hpage : IsPage page)
    (h : ∀ c ∈ x.candidates, ∀ f ∈ c.fields, '%' ∉ f) {before after : Str}
    (hbefore : ∀ c ∈ before, isSpace c) (hafter : ∀ c ∈ after, isSpace c) :
    readAnswer (before ++ linkOf page role x ++ after) =
      if role = .answerer then some (some (packedData role x)) else none := by
  have hspace : ∀ c ∈ role.key ++ '=' :: (packedData role x).flatMap Uri.encodeChar,
      ¬ isSpace c := by
    intro c hc
    refine not_isSpace_of_isFragment ?_
    rcases List.mem_append.1 hc with hc | hc
    · exact isFragment_of_isUnreserved (role.isUnreserved_key c hc)
    rcases List.mem_cons.1 hc with rfl | hc
    · decide
    · exact isFragment_encode hc
  rw [linkOf, readAnswer, List.cons_append, afterHash_trim hpage.not_mem hbefore hafter hspace]
  cases role with
  | offerer =>
    rw [if_neg (by decide)]
    exact readParam_encode_of_ne (Role.isUnreserved_key .offerer) (by decide)
  | answerer =>
    rw [if_pos rfl]
    exact (readParam_encode (Role.isUnreserved_key _) packedData_ne_nil).trans
      (congrArg some (Uri.decodeURIComponent_of_not_mem (percent_not_mem h)))

/-- What is made of what is packed. -/
theorem unpackSdp_packedData (h : x.candidates.length < 268435456) :
    unpackSdp (packedData role x) = some ⟨role.type, render (rebuild x)⟩ :=
  unpackSdp_packedFields h

/-! ## Copying and scanning -/

section

variable {R : Type*} [LT R] [DecidableLT R]

/-- Whether a text is got from a link that is shown: it is copied, or scanned. -/
def Gives (getLostPoint : Modules → R) (link text : Str) : Prop :=
  text = link ∨ (renderQR getLostPoint (Utf16.encode link)).Scans (text.map Char.toNat)

theorem toNat_lt_of_isFragment {c : Char} (h : isFragment c) : c.toNat < 128 := by
  rw [isFragment, Bool.and_eq_true, Bool.and_eq_true, decide_eq_true_eq, decide_eq_true_eq] at h
  have hle : c.toNat ≤ '~'.toNat := h.1.2
  exact Nat.lt_of_le_of_lt hle (by decide)

/-- Of code units below 128, no bits are lost. -/
theorem stringToBytes_encode {s : Str} (h : ∀ c ∈ s, c.toNat < 128) :
    Qr.stringToBytes (Utf16.encode s) = s.map Char.toNat := by
  induction s with
  | nil => rfl
  | cons c s ih =>
    rw [List.forall_mem_cons] at h
    have hunit : Utf16.encodeChar c = [.ofNat c.toNat] := if_pos (h.1.trans (by decide))
    have hbyte : (UInt16.ofNat c.toNat).toNat &&& 0xff = c.toNat := by
      rw [UInt16.toNat_ofNat', Nat.mod_eq_of_lt (h.1.trans (by decide)),
        Nat.and_two_pow_sub_one_eq_mod _ 8, Nat.mod_eq_of_lt (h.1.trans (by decide))]
    have hrest := ih h.2
    rw [Qr.stringToBytes] at hrest
    rw [Utf16.encode, List.flatMap_cons, hunit, List.singleton_append, Qr.stringToBytes,
      List.map_cons, hbyte, List.map_cons, ← hrest, Utf16.encode]

/-- What is got is the link. -/
theorem eq_of_gives {getLostPoint : Modules → R} {text : Str} (hpage : IsPage page)
    (h : Gives getLostPoint (linkOf page role x) text) : text = linkOf page role x := by
  rcases h with h | h
  · exact h
  · have hlink : ∀ c ∈ linkOf page role x, c.toNat < 128 := by
      intro c hc
      refine toNat_lt_of_isFragment ?_
      rcases List.mem_append.1 hc with hc | hc
      · exact (hpage c hc).1
      rcases List.mem_cons.1 hc with rfl | hc
      · decide
      rcases List.mem_append.1 hc with hc | hc
      · exact isFragment_of_isUnreserved (role.isUnreserved_key c hc)
      rcases List.mem_cons.1 hc with rfl | hc
      · decide
      · exact isFragment_encode hc
    have hbytes := bytes_of_scans h
    rw [stringToBytes_encode hlink] at hbytes
    exact List.map_injective_iff.2 (fun _ _ => Char.toNat_inj.1) hbytes

end

/-! ## One page -/

namespace ManualPage

/-- The description a page begins with, if its offer can be read. -/
def offerOf (hash : Str) : Option Description := ((readOffer hash).bind id).bind unpackSdp

/-- The description a click passes on, if its answer can be read. -/
def answerOf (ans : Str) : Option Description := ((readAnswer ans).bind id).bind unpackSdp

/-- Remote descriptions that a page has been given and has not applied. -/
def incoming (p : ManualPage) : List Description :=
  (match p.awaiting with
    | some (.setRemoteDescription d) => [d]
    | _ => []) ++ p.answers

/-- A page whose own descriptions have its role's type, and which takes answers only for an
    offer that it shows. -/
structure Sound (p : ManualPage) : Prop where
  localDescription : ∀ d ∈ p.pc.localDescription, d.type = p.role.type ∧ ∃ x, Linkable d.sdp x
  setting : ∀ d, p.awaiting = some (.setLocalDescription d) →
    d.type = p.role.type ∧ ∃ x, Linkable d.sdp x
  offering : p.awaiting = some .createOffer → p.role = .offerer
  becoming : p.awaiting = some .becomeOfferer → p.role = .offerer
  answering : p.awaiting = some .createAnswer → p.role = .answerer
  receiving : ∀ d, p.awaiting = some (.setRemoteDescription d) →
    p.role = .answerer ∧ p.pc.remoteDescription = none
  linked : p.link ≠ none → p.awaiting = none
  answers : ∀ d ∈ p.answers, d.type = .answer ∧ p.role = .offerer ∧ p.link ≠ none
  answered : p.role = .offerer → p.pc.remoteDescription ≠ none →
    p.pc.signalingState = .stable ∧ p.link ≠ none

/-- What a step of a page has done. -/
inductive Effect (page : Str) (p p' : ManualPage) : List ManualAct → Prop
  | quiet : p'.link = p.link → p'.pc.remoteDescription = p.pc.remoteDescription →
      Effect page p p' []
  | link {desc : Description} {link : Str} : desc.type = p.role.type →
      (∃ x, Linkable desc.sdp x) →
      (packSdp desc).bind (shareLink page p.role.key) = some link → p.link = none →
      p'.link = some link → p'.pc.remoteDescription = p.pc.remoteDescription →
      Effect page p p' [.link desc link]
  | applied {d : Description} : d ∈ p.incoming → p'.link = p.link →
      p.pc.remoteDescription = none → p'.pc.remoteDescription = some d →
      Effect page p p' [.applied d]

/-- A step of a page: it stays sound, and is given nothing but what is clicked. -/
structure Stepped (page : Str) (e : ManualEvent) (p p' : ManualPage) (acts : List ManualAct) :
    Prop where
  role : p'.role = p.role
  sound : p'.Sound
  incoming : ∀ d ∈ p'.incoming, d ∈ p.incoming ∨
    ∃ ans, e = .click ans ∧ answerOf ans = some d ∧ p.role = .offerer
  effect : Effect page p p' acts

variable {p p' : ManualPage} {e : ManualEvent} {acts : List ManualAct}

/-- What an event brings in: descriptions that can be linked, and answers. -/
structure Brings (e : ManualEvent) : Prop where
  created : ∀ sdp, e = .created sdp → ∃ x, Linkable sdp x
  gather : ∀ sdp, e = .gather sdp → ∃ x, Linkable sdp x
  click : ∀ ans d, e = .click ans → answerOf ans = some d → d.type = .answer

/-- A step that begins with one that is not seen. -/
theorem Stepped.after {p₁ : ManualPage} (h : Stepped page e p₁ p' acts) (hrole : p₁.role = p.role)
    (hincoming : ∀ d ∈ p₁.incoming, d ∈ p.incoming) (hlink : p₁.link = p.link)
    (hremote : p₁.pc.remoteDescription = p.pc.remoteDescription) : Stepped page e p p' acts where
  role := h.role.trans hrole
  sound := h.sound
  incoming d hd := (h.incoming d hd).imp (hincoming d) fun ⟨ans, he, hans, hoffer⟩ =>
    ⟨ans, he, hans, hrole ▸ hoffer⟩
  effect := by
    cases h.effect with
    | quiet h₁ h₂ => exact .quiet (h₁.trans hlink) (h₂.trans hremote)
    | link htype hx hshare hnone h₁ h₂ =>
      exact .link (hrole ▸ htype) hx (hrole ▸ hshare) (hlink ▸ hnone) h₁ (h₂.trans hremote)
    | applied hd h₁ h₂ h₃ =>
      exact .applied (hincoming _ hd) (h₁.trans hlink) (hremote ▸ h₂) h₃

theorem Stepped.of_eq {r : ManualPage × List ManualAct} (h : Stepped page e p r.1 r.2)
    (hr : some r = some (p', acts)) : Stepped page e p p' acts := by
  cases Option.some.inj hr
  exact h

/-- A handler that ends. -/
theorem Sound.forget (hp : p.Sound) : ({ p with awaiting := none } : ManualPage).Sound where
  localDescription := hp.localDescription
  setting := nofun
  offering := nofun
  becoming := nofun
  answering := nofun
  receiving := nofun
  linked _ := rfl
  answers := hp.answers
  answered := hp.answered

theorem Sound.ended (hp : p.Sound) : Stepped page e p { p with awaiting := none } [] where
  role := rfl
  sound := hp.forget
  incoming _ hd := .inl (List.mem_append_right _ hd)
  effect := .quiet rfl rfl

theorem Sound.showLink (hp : p.Sound) (hnone : p.link = none) :
    Stepped page e p (p.showLink page).1 (p.showLink page).2 := by
  rw [ManualPage.showLink]
  split
  · exact hp.ended
  · next desc hdesc =>
    split
    · exact hp.ended
    · next link hlink =>
      have hlocal := hp.localDescription desc hdesc
      refine ⟨rfl, ?_, fun d hd => .inl (List.mem_append_right _ hd),
        .link hlocal.1 hlocal.2 hlink hnone rfl rfl⟩
      have hsound := hp.forget
      exact { hsound with
        linked := fun _ => rfl
        answers := fun d hd => ⟨(hp.answers d hd).1, (hp.answers d hd).2.1, nofun⟩
        answered := fun hrole hremote => ⟨(hp.answered hrole hremote).1, nofun⟩ }

theorem Sound.wake (hp : p.Sound) : Stepped page e p (p.wake page).1 (p.wake page).2 := by
  rw [ManualPage.wake]
  split
  · next ha =>
    refine hp.showLink ?_
    by_contra hne
    exact absurd (ha.symm.trans (hp.linked hne)) nofun
  · exact ⟨rfl, hp, fun _ => .inl, .quiet rfl rfl⟩

theorem Sound.resume {a : ManualAwait} (hp : p.Sound) (ha : p.awaiting = some a)
    (h : p.resume page a = some (p', acts)) : Stepped page e p p' acts := by
  -- what is awaited is gone, and no link is shown yet
  have hlink : p.link = none := by
    by_contra hne
    exact absurd (ha.symm.trans (hp.linked hne)) nofun
  cases a with
  | becomeOfferer =>
    cases h
    refine ⟨rfl, ?_, fun d hd => .inl (List.mem_append_right _ hd), .quiet rfl rfl⟩
    have hsound := hp.forget
    exact { hsound with
      setting := nofun
      offering := fun _ => hp.becoming ha
      becoming := nofun
      answering := nofun
      receiving := nofun
      linked := fun hne => absurd hlink hne }
  | setRemoteDescription d =>
    obtain ⟨hrole, hremote⟩ := hp.receiving d ha
    simp only [ManualPage.resume] at h
    split at h
    · cases h
      exact hp.ended
    · next pc hpc =>
      cases h
      obtain ⟨hd, hlocal, -⟩ := PeerConnection.setRemoteDescription_eq hpc
      refine ⟨rfl, ?_, fun d hd => .inl (List.mem_append_right _ hd),
        .applied ?_ rfl hremote hd⟩
      · exact {
          localDescription := fun l hl => hp.localDescription l (hlocal l hl)
          setting := nofun
          offering := nofun
          becoming := nofun
          answering := fun _ => hrole
          receiving := nofun
          linked := fun hne => absurd hlink hne
          answers := hp.answers
          answered := fun hoffer => absurd (hrole.symm.trans hoffer) nofun }
      · rw [incoming, ha]
        exact List.mem_append_left _ (List.mem_singleton_self d)
  | setLocalDescription d =>
    obtain ⟨htype, hx⟩ := hp.setting d ha
    simp only [ManualPage.resume] at h
    split at h
    · cases h
      exact hp.ended
    · next pc hpc =>
      obtain ⟨hlocal, hremote⟩ := PeerConnection.setLocalDescription_eq hpc
      -- an offerer that has applied an answer has been through
      have hsound : ∀ a, (∀ d, a = some (.setLocalDescription d) → p.awaiting = a) →
          a ≠ some .createOffer → a ≠ some .becomeOfferer → a ≠ some .createAnswer →
          (∀ d, a ≠ some (.setRemoteDescription d)) →
          ({ p with pc := pc, awaiting := a } : ManualPage).Sound := fun a hset h₁ h₂ h₃ h₄ => {
        localDescription := fun l hl => by
          rw [Option.mem_def, hlocal] at hl
          cases hl
          exact ⟨htype, hx⟩
        setting := fun d hd => hp.setting d ((hset d hd).trans hd)
        offering := fun h => absurd h h₁
        becoming := fun h => absurd h h₂
        answering := fun h => absurd h h₃
        receiving := fun d h => absurd h (h₄ d)
        linked := fun hne => absurd hlink hne
        answers := hp.answers
        answered := fun hoffer hne =>
          absurd hlink (hp.answered hoffer (hremote ▸ hne)).2 }
      split at h
      · refine Stepped.of_eq (p := p) (((hsound p.awaiting (fun _ _ => rfl) ?_ ?_ ?_ ?_).showLink
          hlink).after rfl (fun _ => id) rfl hremote) h
        all_goals rw [ha]; exact nofun
      · cases h
        exact ⟨rfl, hsound _ nofun nofun nofun nofun nofun,
          fun d hd => .inl (List.mem_append_right _ hd), .quiet rfl hremote⟩
  | createOffer | createAnswer | waitIceComplete => cases h

theorem Sound.created {sdp : Str} (hp : p.Sound) (hx : ∃ x, Linkable sdp x)
    (h : p.act page (.created sdp) = some (p', acts)) : Stepped page e p p' acts := by
  have hlink : p.awaiting ≠ none → p.link = none := fun hne => by
    by_contra hlink
    exact hne (hp.linked hlink)
  have hset : ∀ type, type = p.role.type → p.awaiting ≠ none →
      Stepped page e p { p with awaiting := some (.setLocalDescription ⟨type, sdp⟩) } [] := by
    intro type htype hne
    refine ⟨rfl, ?_, fun d hd => .inl (List.mem_append_right _ hd), .quiet rfl rfl⟩
    have hsound := hp.forget
    exact { hsound with
      setting := fun d hd => by cases hd; exact ⟨htype, hx⟩
      offering := nofun
      becoming := nofun
      answering := nofun
      receiving := nofun
      linked := fun h => absurd (hlink hne) h }
  simp only [act] at h
  split at h
  · next ha =>
    cases h
    exact hset .offer (by rw [hp.offering ha]; rfl) (by rw [ha]; exact nofun)
  · next ha =>
    cases h
    exact hset .answer (by rw [hp.answering ha]; rfl) (by rw [ha]; exact nofun)
  · cases h

/-- The connection's own description changes, and what it has gathered. -/
theorem Sound.setPc (pc : PeerConnection) (hp : p.Sound)
    (hlocal : ∀ d ∈ pc.localDescription, d.type = p.role.type ∧ ∃ x, Linkable d.sdp x)
    (hremote : pc.remoteDescription = p.pc.remoteDescription)
    (hstate : pc.signalingState = p.pc.signalingState) :
    ({ p with pc := pc } : ManualPage).Sound where
  localDescription := hlocal
  setting := hp.setting
  offering := hp.offering
  becoming := hp.becoming
  answering := hp.answering
  receiving d hd := ⟨(hp.receiving d hd).1, hremote.trans (hp.receiving d hd).2⟩
  linked := hp.linked
  answers := hp.answers
  answered hoffer hne := by
    have h := hp.answered hoffer (hremote ▸ hne)
    exact ⟨hstate.trans h.1, h.2⟩

theorem Sound.answer {resolved : Bool} (hp : p.Sound)
    (h : p.act page (.answered resolved) = some (p', acts)) : Stepped page e p p' acts := by
  simp only [act] at h
  split at h
  · cases h
  · next d answers hanswers =>
    obtain ⟨htype, hoffer, hlink⟩ := hp.answers d (by rw [hanswers]; exact List.mem_cons_self)
    have hmem : ∀ d' ∈ answers, d' ∈ p.answers := fun d' hd' =>
      hanswers ▸ List.mem_cons_of_mem d hd'
    have hdrop : ({ p with answers := answers } : ManualPage).Sound :=
      { hp with answers := fun d' hd' => hp.answers d' (hmem d' hd') }
    have hincoming : ∀ d' ∈ ({ p with answers := answers } : ManualPage).incoming,
        d' ∈ p.incoming := fun d' hd' => by
      rcases List.mem_append.1 hd' with hd' | hd'
      · exact List.mem_append_left _ hd'
      · exact List.mem_append_right _ (hmem d' hd')
    have hquiet : Stepped page e p { p with answers := answers } [] :=
      ⟨rfl, hdrop, fun d' hd' => .inl (hincoming d' hd'), .quiet rfl rfl⟩
    split at h
    · next pc hpc =>
      cases resolved with
      | false =>
        cases h
        exact hquiet
      | true =>
        cases h
        obtain ⟨hremote, hlocal, hstate⟩ := PeerConnection.setRemoteDescription_eq hpc
        obtain ⟨hoffered, hstable⟩ := hstate htype
        -- after a first answer, the connection would have been stable
        have hnone : p.pc.remoteDescription = none := by
          by_contra hne
          exact absurd (hoffered.symm.trans (hp.answered hoffer hne).1) nofun
        refine ⟨rfl, ?_, fun d' hd' => .inl (hincoming d' hd'), .applied ?_ rfl hnone hremote⟩
        · exact { hdrop with
            localDescription := fun l hl => hp.localDescription l (hlocal l hl)
            receiving := fun d' hd' => absurd ((hp.receiving d' hd').1.symm.trans hoffer) nofun
            answered := fun _ _ => ⟨hstable, hlink⟩ }
        · rw [incoming, hanswers]
          exact List.mem_append_right _ List.mem_cons_self
    · cases h
      exact hquiet

/-- A step of a sound page. -/
theorem Sound.act (hp : p.Sound) (hb : Brings e) (h : p.act page e = some (p', acts)) :
    Stepped page e p p' acts := by
  cases e with
  | resume resolved =>
    cases resolved with
    | true =>
      obtain ⟨a, ha, h⟩ := Option.bind_eq_some_iff.1 h
      exact hp.resume ha h
    | false =>
      simp only [ManualPage.act] at h
      split at h <;> cases h
      exact hp.ended
  | created sdp => exact hp.created (hb.created sdp rfl) h
  | gather sdp =>
    obtain ⟨d, hd, h⟩ := Option.map_eq_some_iff.1 h
    cases h
    refine ⟨rfl, hp.setPc _ (fun l hl => ?_) rfl rfl, fun _ => .inl, .quiet rfl rfl⟩
    cases hl
    exact ⟨(hp.localDescription d hd).1, hb.gather sdp rfl⟩
  | icecandidate c =>
    simp only [ManualPage.act] at h
    split at h
    · exact hp.wake.of_eq h
    · cases h
      exact ⟨rfl, hp, fun _ => .inl, .quiet rfl rfl⟩
  | icegatheringstatechange complete =>
    have hsound := hp.setPc { p.pc with gathered := complete } hp.localDescription rfl rfl
    simp only [ManualPage.act] at h
    split at h
    · exact Stepped.of_eq (p := p) (hsound.wake.after rfl (fun _ => id) rfl rfl) h
    · cases h
      exact ⟨rfl, hsound, fun _ => .inl, .quiet rfl rfl⟩
  | timeout =>
    simp only [ManualPage.act] at h
    split at h
    · exact hp.wake.of_eq h
    · cases h
  | click ans =>
    simp only [ManualPage.act] at h
    split at h
    · next hlinked =>
      split at h
      · cases h
        exact ⟨rfl, hp, fun _ => .inl, .quiet rfl rfl⟩
      · next d hd =>
        cases h
        refine ⟨rfl, ?_, fun d' hd' => ?_, .quiet rfl rfl⟩
        · exact { hp with
            answers := fun d' hd' => (List.mem_append.1 hd').elim (hp.answers d') fun hd' => by
              rw [List.mem_singleton.1 hd']
              exact ⟨hb.click ans d rfl hd, hlinked⟩ }
        · rw [incoming, ← List.append_assoc] at hd'
          refine (List.mem_append.1 hd').imp id fun hd' => ?_
          exact ⟨ans, rfl, List.mem_singleton.1 hd' ▸ hd, hlinked.1⟩
    · cases h
  | answered resolved => exact hp.answer h

end ManualPage

/-! ## All pages -/

/-- The remote descriptions that a page has set. -/
def appliedAt (i : ℕ) (acts : List (ℕ × ManualAct)) : List Description :=
  acts.filterMap fun
    | (j, .applied d) => if j = i then some d else none
    | _ => none

/-- What is made of a link that a page of a role shows. -/
def FromLink (outs : List (ℕ × ManualAct)) (w : List ManualPage) (role : Role)
    (d : Description) : Prop :=
  ∃ j q desc link x, w[j]? = some q ∧ q.role = role ∧ q.link = some link ∧
    (j, .link desc link) ∈ outs ∧ desc.type = role.type ∧ Linkable desc.sdp x ∧
    d = ⟨role.type, render (rebuild x)⟩

/-- What pages show and have been given, after they have done so much. -/
structure Exchanged (page : Str) (outs : List (ℕ × ManualAct)) (w : List ManualPage) : Prop where
  sound : ∀ (i : ℕ) (p : ManualPage), w[i]? = some p → p.Sound
  shown : ∀ (i : ℕ) (p : ManualPage), w[i]? = some p → ∀ link, p.link = some link → ∃ desc x,
    (i, .link desc link) ∈ outs ∧ desc.type = p.role.type ∧ Linkable desc.sdp x ∧
      link = linkOf page p.role x
  given : ∀ (i : ℕ) (p : ManualPage), w[i]? = some p →
    ∀ d, d ∈ p.incoming ∨ p.pc.remoteDescription = some d → FromLink outs w p.role.other d
  applied : ∀ i, appliedAt i outs =
    (w[i]?.bind fun p : ManualPage => p.pc.remoteDescription).toList

/-- Pages stay, with their roles and links. -/
def Keeps (w w' : List ManualPage) : Prop :=
  ∀ (j : ℕ) (q : ManualPage), w[j]? = some q → ∃ q' : ManualPage, w'[j]? = some q' ∧
    q'.role = q.role ∧ ∀ link, q.link = some link → q'.link = some link

variable {outs outs' : List (ℕ × ManualAct)} {w w' : List ManualPage}

theorem FromLink.mono (h : FromLink outs w role d) (hw : Keeps w w') (houts : outs ⊆ outs') :
    FromLink outs' w' role d := by
  obtain ⟨j, q, desc, link, x, hq, hrole, hlink, hmem, hdesc⟩ := h
  obtain ⟨q', hq', hrole', hlink'⟩ := hw j q hq
  exact ⟨j, q', desc, link, x, hq', hrole'.trans hrole, hlink' link hlink, houts hmem, hdesc⟩

section

variable {R : Type*} [LT R] [DecidableLT R]

/-- Whether people do with links what they are for, if perhaps with wrong ones, and with
    nothing else from which a description can be unpacked; and whether browsers make
    descriptions that can be linked. -/
def Careful (getLostPoint : Modules → R)
    (t : Taken (List ManualPage) ManualWorldEvent (List (ℕ × ManualAct))) : Prop :=
  match t.event with
  | .visit url => ManualPage.offerOf (locationHash url) = none ∨
      ∃ q ∈ t.pre, ∃ link, q.link = some link ∧ Gives getLostPoint link url
  | .page _ (.click ans) => ManualPage.answerOf ans = none ∨
      ∃ q ∈ t.pre, ∃ link text before after, q.link = some link ∧ Gives getLostPoint link text ∧
        (∀ c ∈ before, isSpace c) ∧ (∀ c ∈ after, isSpace c) ∧ ans = before ++ text ++ after
  | .page _ (.created sdp) | .page _ (.gather sdp) => ∃ x, Linkable sdp x
  | _ => True

/-- What is read of a link is of the page that shows it. -/
theorem Exchanged.fromLink {q : ManualPage} {link : Str} (h : Exchanged page outs w) (hq : q ∈ w)
    (hlink : q.link = some link) : ∃ x, link = linkOf page q.role x ∧
      (∀ c ∈ x.candidates, ∀ f ∈ c.fields, '%' ∉ f) ∧
      unpackSdp (packedData q.role x) = some ⟨q.role.type, render (rebuild x)⟩ ∧
      FromLink outs w q.role ⟨q.role.type, render (rebuild x)⟩ := by
  obtain ⟨j, hq⟩ := List.mem_iff_getElem?.1 hq
  obtain ⟨desc, x, hmem, htype, hx, heq⟩ := h.shown j q hq link hlink
  exact ⟨x, heq, hx.zone, unpackSdp_packedData hx.short, j, q, desc, link, x, hq, rfl, hlink, hmem,
    htype, hx, rfl⟩

variable {getLostPoint : Modules → R}

theorem Exchanged.visit {url : Str} (h : Exchanged page outs w) (hpage : IsPage page)
    (hc : ManualPage.offerOf (locationHash url) = none ∨
      ∃ q ∈ w, ∃ link, q.link = some link ∧ Gives getLostPoint link url)
    (hd : ManualPage.offerOf (locationHash url) = some d) : FromLink outs w .offerer d := by
  rcases hc with hnone | ⟨q, hq, link, hlink, hgives⟩
  · exact nomatch hnone.symm.trans hd
  · obtain ⟨x, rfl, hzone, hunpack, hfrom⟩ := h.fromLink hq hlink
    obtain rfl := eq_of_gives hpage hgives
    rw [ManualPage.offerOf, readOffer_linkOf hpage hzone] at hd
    split at hd
    · next hrole =>
      rw [hrole] at hunpack hfrom hd
      obtain rfl := Option.some.inj (hunpack.symm.trans hd)
      exact hfrom
    · cases hd

theorem Exchanged.click {ans : Str} (h : Exchanged page outs w) (hpage : IsPage page)
    (hc : ManualPage.answerOf ans = none ∨ ∃ q ∈ w, ∃ link text before after,
      q.link = some link ∧ Gives getLostPoint link text ∧ (∀ c ∈ before, isSpace c) ∧
        (∀ c ∈ after, isSpace c) ∧ ans = before ++ text ++ after)
    (hd : ManualPage.answerOf ans = some d) : FromLink outs w .answerer d := by
  rcases hc with hnone | ⟨q, hq, link, text, before, after, hlink, hgives, hbefore, hafter, rfl⟩
  · exact nomatch hnone.symm.trans hd
  · obtain ⟨x, rfl, hzone, hunpack, hfrom⟩ := h.fromLink hq hlink
    obtain rfl := eq_of_gives hpage hgives
    rw [ManualPage.answerOf, readAnswer_linkOf hpage hzone hbefore hafter] at hd
    split at hd
    · next hrole =>
      rw [hrole] at hunpack hfrom hd
      obtain rfl := Option.some.inj (hunpack.symm.trans hd)
      exact hfrom
    · cases hd

theorem keeps_append (p : ManualPage) : Keeps w (w ++ [p]) := fun j q hq =>
  ⟨q, by rw [List.getElem?_append_left (List.getElem?_eq_some_iff.1 hq).1, hq], rfl, fun _ => id⟩

theorem appliedAt_append (i : ℕ) : appliedAt i (outs ++ outs') =
    appliedAt i outs ++ appliedAt i outs' := List.filterMap_append ..

/-- A page that is opened. -/
theorem Exchanged.start {hash : Str} (h : Exchanged page outs w)
    (hoffer : ∀ d, ManualPage.offerOf hash = some d → FromLink outs w .offerer d) :
    Exchanged page outs (w ++ [.start hash]) := by
  have hstart : (ManualPage.start hash).Sound ∧ (ManualPage.start hash).link = none ∧
      (ManualPage.start hash).pc.remoteDescription = none ∧
      ∀ d ∈ (ManualPage.start hash).incoming,
        FromLink outs w (ManualPage.start hash).role.other d := by
    rw [ManualPage.start]
    split
    · refine ⟨?_, rfl, rfl, fun d hd => absurd hd List.not_mem_nil⟩
      exact ⟨nofun, nofun, nofun, fun _ => rfl, nofun, nofun, fun h => absurd rfl h,
        fun d hd => absurd hd List.not_mem_nil, fun _ h => absurd rfl h⟩
    · next v hv =>
      rw [ManualPage.offerOf, hv, Option.bind_some, id_eq] at hoffer
      cases hd : v.bind unpackSdp with
      | none =>
        -- Unpacking has thrown.
        refine ⟨?_, rfl, rfl, fun d hd => absurd hd List.not_mem_nil⟩
        exact ⟨nofun, nofun, nofun, nofun, nofun, nofun, fun h => absurd rfl h,
          fun d hd => absurd hd List.not_mem_nil, nofun⟩
      | some d =>
        refine ⟨?_, rfl, rfl, fun d' hd' => ?_⟩
        · exact ⟨nofun, nofun, nofun, nofun, nofun, fun _ _ => ⟨rfl, rfl⟩, fun h => absurd rfl h,
            fun d hd => absurd hd List.not_mem_nil, nofun⟩
        · rw [List.mem_singleton.1 hd']
          exact hoffer d hd
  obtain ⟨hsound, hlink, hremote, hgiven⟩ := hstart
  -- the page is the new one, or one that was there
  have hcases : ∀ (i : ℕ) (p : ManualPage), (w ++ [.start hash])[i]? = some p →
      w[i]? = some p ∨ p = .start hash := by
    intro i p hp
    rw [List.getElem?_append] at hp
    split at hp
    · exact .inl hp
    · exact .inr (List.mem_singleton.1 (List.mem_of_getElem? hp))
  refine ⟨fun i p hp => ?_, fun i p hp link hlink' => ?_, fun i p hp d hd => ?_, fun i => ?_⟩
  · rcases hcases i p hp with hp | rfl
    · exact h.sound i p hp
    · exact hsound
  · rcases hcases i p hp with hp | rfl
    · exact h.shown i p hp link hlink'
    · exact nomatch hlink.symm.trans hlink'
  · rcases hcases i p hp with hp | rfl
    · exact (h.given i p hp d hd).mono (keeps_append _) (fun _ => id)
    · refine FromLink.mono (hd.elim (hgiven d) fun hd => ?_) (keeps_append _) fun _ => id
      exact nomatch hremote.symm.trans hd
  · rw [h.applied i, List.getElem?_append]
    split
    · rfl
    · next hi =>
      rw [List.getElem?_eq_none (Nat.le_of_not_lt hi), Option.bind_none]
      cases hget : [ManualPage.start hash][i - w.length]? with
      | none => rfl
      | some p =>
        rw [Option.bind_some, List.mem_singleton.1 (List.mem_of_getElem? hget), hremote]

theorem appliedAt_map (i j : ℕ) (acts : List ManualAct) :
    appliedAt j (acts.map (i, ·)) = if i = j then acts.filterMap (fun
      | .applied d => some d
      | _ => none) else [] := by
  rw [appliedAt, List.filterMap_map]
  split
  · next h =>
    refine List.filterMap_congr fun a _ => ?_
    cases a with
    | link desc link => rfl
    | applied d => exact if_pos h
  · next h =>
    refine List.filterMap_eq_nil_iff.2 fun a _ => ?_
    cases a with
    | link desc link => rfl
    | applied d => exact if_neg h

/-- A page that goes on, among the others. -/
theorem eq_or_of_set {i j : ℕ} {p p' q : ManualPage} (hp : w[i]? = some p)
    (hq : (w.set i p')[j]? = some q) : (j = i ∧ q = p') ∨ (j ≠ i ∧ w[j]? = some q) := by
  by_cases hj : j = i
  · subst hj
    rw [List.getElem?_set_self (List.getElem?_eq_some_iff.1 hp).1] at hq
    exact .inl ⟨rfl, (Option.some.inj hq).symm⟩
  · rw [List.getElem?_set_ne (Ne.symm hj)] at hq
    exact .inr ⟨hj, hq⟩

/-- No page loses its role or its link. -/
theorem keeps_set {i : ℕ} {p p' : ManualPage} {e : ManualEvent} {acts : List ManualAct}
    (hp : w[i]? = some p) (hs : ManualPage.Stepped page e p p' acts) :
    Keeps w (w.set i p') := by
  intro j q hq
  by_cases hj : j = i
  · subst hj
    obtain rfl := Option.some.inj (hp.symm.trans hq)
    refine ⟨p', List.getElem?_set_self (List.getElem?_eq_some_iff.1 hp).1, hs.role,
      fun link hlink => ?_⟩
    cases hs.effect with
    | quiet h₁ => exact h₁.trans hlink
    | link _ _ _ hnone => exact nomatch hnone.symm.trans hlink
    | applied _ h₁ => exact h₁.trans hlink
  · exact ⟨q, by rwa [List.getElem?_set_ne (Ne.symm hj)], rfl, fun _ => id⟩

/-- A page goes on. -/
theorem Exchanged.step {i : ℕ} {p p' : ManualPage} {e : ManualEvent} {acts : List ManualAct}
    (h : Exchanged page outs w) (hp : w[i]? = some p)
    (hs : ManualPage.Stepped page e p p' acts)
    (hclick : ∀ ans d, e = .click ans → ManualPage.answerOf ans = some d →
      FromLink outs w .answerer d) :
    Exchanged page (outs ++ acts.map (i, ·)) (w.set i p') := by
  have hself : (w.set i p')[i]? = some p' :=
    List.getElem?_set_self (List.getElem?_eq_some_iff.1 hp).1
  have hkeeps := keeps_set hp hs
  have houts : outs ⊆ outs ++ acts.map (i, ·) := List.subset_append_left _ _
  refine ⟨fun j q hq => ?_, fun j q hq link hlink => ?_, fun j q hq d hd => ?_, fun j => ?_⟩
  · rcases eq_or_of_set hp hq with ⟨rfl, rfl⟩ | ⟨-, hq⟩
    · exact hs.sound
    · exact h.sound j q hq
  · rcases eq_or_of_set hp hq with ⟨rfl, rfl⟩ | ⟨-, hq⟩
    · -- A link is that of before, or has just been made.
      have hold : p.link = some link → ∃ desc x, (j, .link desc link) ∈ outs ++ acts.map (j, ·) ∧
          desc.type = q.role.type ∧ Linkable desc.sdp x ∧ link = linkOf page q.role x := by
        intro hlink
        obtain ⟨desc, x, hmem, hdesc⟩ := h.shown j p hp link hlink
        exact ⟨desc, x, houts hmem, hs.role ▸ hdesc⟩
      cases hs.effect with
      | quiet h₁ => exact hold (h₁.symm.trans hlink)
      | applied _ h₁ => exact hold (h₁.symm.trans hlink)
      | link htype hx hshare _ h₁ =>
        obtain ⟨x, hx⟩ := hx
        obtain rfl := Option.some.inj (h₁.symm.trans hlink)
        refine ⟨_, x, List.mem_append_right _ (List.mem_singleton_self _), hs.role ▸ htype, hx, ?_⟩
        rw [hs.role]
        exact Option.some.inj (hshare.symm.trans (hx.shareLink htype))
    · obtain ⟨desc, x, hmem, hdesc⟩ := h.shown j q hq link hlink
      exact ⟨desc, x, houts hmem, hdesc⟩
  · rcases eq_or_of_set hp hq with ⟨rfl, rfl⟩ | ⟨-, hq⟩
    · -- A description that is going to be applied comes from a click, which a link is behind.
      refine FromLink.mono ?_ hkeeps houts
      rw [hs.role]
      have hincoming : d ∈ p.incoming → FromLink outs w p.role.other d :=
        fun hd => h.given j p hp d (.inl hd)
      rcases hd with hd | hd
      · rcases hs.incoming d hd with hd | ⟨ans, he, hans, hrole⟩
        · exact hincoming hd
        · rw [hrole]
          exact hclick ans d he hans
      · cases hs.effect with
        | quiet _ h₂ => exact h.given j p hp d (.inr (h₂.symm.trans hd))
        | link _ _ _ _ _ h₂ => exact h.given j p hp d (.inr (h₂.symm.trans hd))
        | applied hmem _ _ h₃ =>
          obtain rfl := Option.some.inj (h₃.symm.trans hd)
          exact hincoming hmem
    · exact (h.given j q hq d hd).mono hkeeps houts
  · rw [appliedAt_append, h.applied j, appliedAt_map]
    by_cases hj : i = j
    · subst hj
      rw [if_pos rfl, hself, hp, Option.bind_some, Option.bind_some]
      cases hs.effect with
      | quiet _ h₂ => rw [h₂, List.filterMap_nil, List.append_nil]
      | link _ _ _ _ _ h₂ => rw [h₂]; exact List.append_nil _
      | applied _ _ hnone h₃ =>
        rw [hnone, h₃]
        rfl
    · rw [if_neg hj, List.append_nil, List.getElem?_set_ne hj]

variable {h : List (Taken (List ManualPage) ManualWorldEvent (List (ℕ × ManualAct)))}

/-- What one event does. -/
theorem Exchanged.world {e : ManualWorldEvent} {out : List (ℕ × ManualAct)} (hpage : IsPage page)
    (hw : Exchanged page outs w) (hc : Careful getLostPoint ⟨w, e, out⟩)
    (h : (manual page).step w e = some (w', out)) : Exchanged page (outs ++ out) w' := by
  cases e with
  | visit url =>
    cases h
    rw [List.append_nil]
    split
    · exact hw.start fun d hd => hw.visit hpage hc hd
    · exact hw
  | page i e =>
    obtain ⟨p, hp, h⟩ := Option.bind_eq_some_iff.1 h
    obtain ⟨⟨p', acts⟩, hact, h⟩ := Option.bind_eq_some_iff.1 h
    cases h
    have hclick : ∀ ans d, e = .click ans → ManualPage.answerOf ans = some d →
        FromLink outs w .answerer d := by
      rintro ans d rfl hd
      exact hw.click hpage hc hd
    have hbrings : ManualPage.Brings e := by
      refine ⟨?_, ?_, fun ans d he hd => ?_⟩
      · rintro sdp rfl
        exact hc
      · rintro sdp rfl
        exact hc
      · obtain ⟨_, _, _, _, _, _, _, _, _, _, _, rfl⟩ := hclick ans d he hd
        rfl
    exact hw.step hp ((hw.sound i p hp).act hbrings hact) hclick

theorem exchanged_nil : Exchanged page [] [] := by
  have hnone : ∀ (i : ℕ) (p : ManualPage), ([] : List ManualPage)[i]? ≠ some p := by
    intro i p hp
    rw [List.getElem?_nil] at hp
    cases hp
  exact ⟨fun i p hp => absurd hp (hnone i p), fun i p hp => absurd hp (hnone i p),
    fun i p hp => absurd hp (hnone i p), fun i => by rw [List.getElem?_nil]; rfl⟩

theorem exchanged_of_run (hpage : IsPage page) (hr : (manual page).Run h w)
    (hc : ∀ t ∈ h, Careful getLostPoint t) : Exchanged page (h.flatMap (·.out)) w := by
  refine hr.induction (P := fun h w => (∀ t ∈ h, Careful getLostPoint t) →
    Exchanged page (h.flatMap (·.out)) w) ?_ ?_ hc
  · intro w hw _
    rw [Set.mem_singleton_iff.1 hw]
    exact exchanged_nil
  · intro h w e w' out _ ih hst hc
    rw [List.forall_mem_append, List.forall_mem_singleton] at hc
    rw [List.flatMap_append, List.flatMap_singleton]
    exact (ih hc.1).world hpage hc.2 hst

/-- A page applies one remote description at most, and this says what the link says that a page
    of the other role shows. -/
theorem descriptions_exchanged (getLostPoint : Modules → R) (hpage : IsPage page)
    (hr : (manual page).Run h w) (hc : ∀ t ∈ h, Careful getLostPoint t) {i : ℕ} {p : ManualPage}
    (hp : w[i]? = some p) :
    appliedAt i (h.flatMap (·.out)) = p.pc.remoteDescription.toList ∧
      ∀ d ∈ p.pc.remoteDescription, ∃ j q desc link x lines, w[j]? = some q ∧
        q.role = p.role.other ∧ q.link = some link ∧
        (j, .link desc link) ∈ h.flatMap (·.out) ∧ desc.type = q.role.type ∧
        Linkable desc.sdp x ∧ d = ⟨desc.type, render lines⟩ ∧
        Says lines { x with fingerprint := x.fingerprint.toUpper } := by
  have hw := exchanged_of_run hpage hr hc
  constructor
  · rw [hw.applied i, hp, Option.bind_some]
  · intro d hd
    obtain ⟨j, q, desc, link, x, hq, hrole, hlink, hmem, htype, hx, rfl⟩ :=
      hw.given i p hp d (.inr hd)
    exact ⟨j, q, desc, link, x, rebuild x, hq, hrole, hlink, hmem, hrole ▸ htype, hx,
      by rw [htype], says_rebuild⟩

/-- An offer is shared and opened. -/
theorem descriptions_exchanged_offer : ∃ h w p,
    (manual "http://a/".toList).Run h w ∧ w[1]? = some p ∧ p.role = .answerer ∧
      p.pc.remoteDescription = some ⟨.offer, render (rebuild session)⟩ ∧
      appliedAt 1 (h.flatMap (·.out)) = p.pc.remoteDescription.toList ∧
      ∀ d ∈ p.pc.remoteDescription, ∃ j q desc link x lines, w[j]? = some q ∧
        q.role = p.role.other ∧ q.link = some link ∧
        (j, .link desc link) ∈ h.flatMap (·.out) ∧ desc.type = q.role.type ∧
        Linkable desc.sdp x ∧ d = ⟨desc.type, render lines⟩ ∧
        Says lines { x with fingerprint := x.fingerprint.toUpper } := by
  let page := "http://a/".toList
  let link := linkOf page .offerer session
  let offer : Description := ⟨.offer, render sessionLines⟩
  let received : Description := ⟨.offer, render (rebuild session)⟩
  let pc : PeerConnection := ⟨.haveLocalOffer, some offer, none, false⟩
  let offered : ManualPage := ⟨.offerer, pc, none, some link, true, []⟩
  let opened : ManualPage := ⟨.answerer, {}, some (.setRemoteDescription received), none, false, []⟩
  let applied : ManualPage :=
    ⟨.answerer, ⟨.haveRemoteOffer, none, some received, false⟩, some .createAnswer, none, false, []⟩
  have hpage : IsPage page := fun c hc => by
    have hall : ∀ c ∈ page, isFragment c ∧ c ∉ ['#', '&'] := by decide
    exact hall c hc
  have hplain : PlainLines true (sessionLines ++ []) := plain_sessionLines fun _ hl => nomatch hl
  have hlinkable : Linkable offer.sdp session :=
    ⟨⟨sessionLines, rfl, hplain, ⟨rfl, rfl, rfl, rfl, rfl⟩⟩, by decide,
      fun c hc => absurd hc List.not_mem_nil⟩
  have h₀ : (manual page).step [] (.visit "http://a/?manual".toList) =
      some ([{ role := .offerer, awaiting := some .becomeOfferer }], []) := by decide +kernel
  have h₁ : (manual page).step [{ role := .offerer, awaiting := some .becomeOfferer }]
      (.page 0 (.resume true)) =
      some ([{ role := .offerer, awaiting := some .createOffer }], []) := by decide +kernel
  have h₂ : (manual page).step [{ role := .offerer, awaiting := some .createOffer }]
      (.page 0 (.created offer.sdp)) =
      some ([{ role := .offerer, awaiting := some (.setLocalDescription offer) }], []) := by
    decide +kernel
  have h₃ : (manual page).step
      [{ role := .offerer, awaiting := some (.setLocalDescription offer) }]
      (.page 0 (.resume true)) =
      some ([⟨.offerer, pc, some .waitIceComplete, none, false, []⟩], []) := by decide +kernel
  have h₄ : (manual page).step [⟨.offerer, pc, some .waitIceComplete, none, false, []⟩]
      (.page 0 .timeout) = some ([offered], [(0, .link offer link)]) := by decide +kernel
  have h₅ : (manual page).step [offered] (.visit link) = some ([offered, opened], []) := by
    decide +kernel
  have h₆ : (manual page).step [offered, opened] (.page 1 (.resume true)) =
      some ([offered, applied], [(1, .applied received)]) := by decide +kernel
  have hr := ((((((Machine.Run.nil (m := manual page) (s := []) rfl).snoc h₀).snoc h₁).snoc
    h₂).snoc h₃).snoc h₄).snoc h₅ |>.snoc h₆
  refine ⟨_, _, applied, hr, rfl, rfl, rfl,
    descriptions_exchanged (fun _ => 0) hpage hr ?_ rfl⟩
  simp only [List.nil_append, List.cons_append, List.forall_mem_cons]
  refine ⟨.inl (by decide +kernel), trivial, ⟨_, hlinkable⟩, trivial, trivial, .inr ?_, trivial,
    fun t ht => absurd ht List.not_mem_nil⟩
  exact ⟨offered, List.mem_singleton_self _, link, rfl, .inl rfl⟩

end

end IrohWebrtc
