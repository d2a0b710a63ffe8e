import IrohWebrtc.Signaling

/-!
# Tabs that are not disturbed

A hello says whose it is, and a tab that has a peer ignores it. Descriptions and
candidates do not, and go to every tab of the room: a tab applies them whoever
has posted them. That they are its peer's, and meant for it, holds as long as a
tab posts them when there is no third tab, and as long as no tab takes a peer
while some of another tab's are on their way to it (`Undisturbed`). Then

* what is on its way to a tab is posted by a tab whose peer it is, and this tab
  is its own peer, or its hello goes before (`Paired`);
* what a tab applies is posted by its peer, whose peer it is
  (`signaling_isolated`).
-/

namespace IrohWebrtc

variable {Id : Type*}

/-- A description or a candidate. -/
def Message.Payload : Message Id → Prop
  | .hello _ => False
  | .sdp _ | .ice _ => True

/-- A description or a candidate is handed to the connection. -/
def Act.Applies : Act Id → Prop
  | .setRemoteDescription _ | .addIceCandidate _ => True
  | _ => False

/-- A tab that has something to post of its connection, or may have. -/
def Tab.Busy (t : Tab Id) : Prop := t.localDescription ≠ none ∨ ∃ a ∈ t.awaiting, a ≠ .ready

namespace Room

/-- The peer a tab has taken. -/
def peerOf (w : Room Id) (x : Id) : Option Id := (w.party x).bind (·.peerId)

/-- An event by which a description or a candidate is posted. -/
def Posts (w : Room Id) : MediumEvent Id TabEvent → Prop
  | .act _ (.icecandidate _) => True
  | .act x (.resume i true) =>
    ∃ t type, w.party x = some t ∧ t.awaiting[i]? = some (.setLocalDescription type)
  | _ => False

/-- There are no three tabs. -/
def AtMostTwo (w : Room Id) : Prop :=
  ∀ x y z, w.party x ≠ none → w.party y ≠ none → w.party z ≠ none → x = y ∨ y = z ∨ x = z

/-- Descriptions and candidates are posted when there is no third tab, and a tab
    takes a hello for its peer's when none of another tab are on their way to it. -/
structure Undisturbed (t : Taken (Room Id) (MediumEvent Id TabEvent) (List (Act Id))) : Prop where
  alone : Posts t.pre t.event → AtMostTwo t.pre
  waits : ∀ y x id rest, t.event = .deliver y x → t.pre.chan (y, x) = .hello id :: rest →
    peerOf t.pre x = none → ∀ z m, z ≠ y → m ∈ t.pre.chan (z, x) → ¬ m.Payload

/-- Tabs whose descriptions and candidates go to their peers. -/
structure Paired (w : Room Id) : Prop where
  hello : ∀ y x id, .hello id ∈ w.chan (y, x) → id = y
  peer : ∀ x y, peerOf w x = some y → y ≠ x ∧ w.party y ≠ none
  /-- A tab that has a peer has said hello to it. -/
  greeting : ∀ x y, peerOf w y = some x → peerOf w x ≠ none ∨ .hello y ∈ w.chan (y, x)
  busy : ∀ x t, w.party x = some t → t.Busy → t.peerId ≠ none
  /-- What is on its way to a tab is posted by a tab whose peer it is. -/
  payload : ∀ y x m, m ∈ w.chan (y, x) → m.Payload → peerOf w y = some x
  /-- This tab is its peer, or its hello goes before. -/
  order : ∀ y x m, m ∈ w.chan (y, x) → m.Payload →
    peerOf w x = some y ∨ peerOf w x = none ∧ Heralded Message.Payload (· = .hello y) (w.chan (y, x))

variable {w w' : Room Id} {x y z : Id} {t t' : Tab Id} {m : Message Id}
  {rest : List (Message Id)} {acts : List (Act Id)} {e : MediumEvent Id TabEvent}

theorem peerOf_eq (hx : w.party x = some t) : peerOf w x = t.peerId := by
  rw [peerOf, hx]
  rfl

variable [LinearOrder Id]

theorem peerOf_perform_self : peerOf (Medium.perform Tab.program w x t acts) x = t.peerId :=
  peerOf_eq Medium.party_perform_self

theorem peerOf_perform_of_ne (h : z ≠ x) :
    peerOf (Medium.perform Tab.program w x t acts) z = peerOf w z := by
  rw [peerOf, Medium.party_perform_of_ne h, peerOf]

/-- A tab that does not take a peer changes nobody's. -/
theorem peerOf_perform (hx : w.party x = some t) (hp : t'.peerId = t.peerId) (z : Id) :
    peerOf (Medium.perform Tab.program w x t' acts) z = peerOf w z := by
  by_cases hz : z = x
  · subst hz
    rw [peerOf_perform_self, hp, peerOf_eq hx]
  · exact peerOf_perform_of_ne hz

/-! ## What tabs do by themselves -/

omit [LinearOrder Id] in
theorem busy_of_gathers (h : t.gathers) : t.Busy := by
  rw [Tab.gathers, Bool.or_eq_true] at h
  rcases h with h | h
  · exact .inl (Option.isSome_iff_ne_none.1 h)
  · obtain ⟨a, ha, hm⟩ := List.any_eq_true.1 h
    exact .inr ⟨a, ha, by rintro rfl; simp at hm⟩

omit [LinearOrder Id] in
/-- What a tab applies, it has got in a message. -/
theorem not_applies_act {k : TabEvent} (h : t.act x k = some (t', acts)) {a : Act Id}
    (ha : a ∈ acts) : ¬ a.Applies := by
  obtain ⟨-, ⟨i, type, -, -, -, -, rfl⟩ | ⟨c, -, -, -, rfl⟩ |
    ⟨-, rfl | rfl | ⟨type, rfl⟩ | ⟨-, rfl⟩⟩⟩ := Tab.act_cases h
  case inr.inr.inl => cases ha
  all_goals
    rw [List.mem_singleton.1 ha]
    exact id

omit [LinearOrder Id] in
/-- A tab does not get busy by itself. -/
theorem busy_of_act {k : TabEvent} (h : t.act x k = some (t', acts)) (hb : t'.Busy) : t.Busy := by
  obtain ⟨hq, hcases⟩ := Tab.act_cases h
  rcases hb with hb | hb
  · rcases hcases with ⟨i, type, -, ha, -⟩ | ⟨c, -, -, rfl, -⟩ | ⟨hd, -⟩
    · exact .inr ⟨_, List.mem_of_getElem? ha, nofun⟩
    · exact .inl hb
    · exact .inl (hd ▸ hb)
  · exact .inr (hq.handling hb)

/-- What a tab posts by itself: nothing, its hello, or something of its connection. -/
theorem act_posts {k : TabEvent} (h : t.act x k = some (t', acts)) :
    (acts.filterMap Tab.program.post = [] ∨ acts.filterMap Tab.program.post = [.hello x]) ∨
      ∃ m, m.Payload ∧ acts.filterMap Tab.program.post = [m] ∧ t.Busy ∧
        ∀ w : Room Id, w.party x = some t → Posts w (.act x k) := by
  obtain ⟨-, ⟨i, type, rfl, ha, -, -, rfl⟩ | ⟨c, rfl, hg, -, rfl⟩ |
    ⟨-, rfl | rfl | ⟨type, rfl⟩ | ⟨-, rfl⟩⟩⟩ := Tab.act_cases h
  · exact .inr ⟨.sdp type, trivial, rfl, .inr ⟨_, List.mem_of_getElem? ha, nofun⟩,
      fun w hx => ⟨t, type, hx, ha⟩⟩
  · exact .inr ⟨.ice c, trivial, rfl, busy_of_gathers hg, fun _ _ => trivial⟩
  · exact .inl (.inl rfl)
  · exact .inl (.inr rfl)
  · exact .inl (.inl rfl)
  · exact .inl (.inl rfl)

/-! ## Every step keeps tabs paired -/

/-- A tab that joins has heard of nobody, and nobody of it. -/
theorem Paired.join (hi : Paired w) (hx : w.party x = none) :
    Paired { w with party := Function.update w.party x (some Tab.opened) } := by
  have hpeer : ∀ z, peerOf { w with party := Function.update w.party x (some Tab.opened) } z =
      peerOf w z := by
    intro z
    by_cases hz : z = x
    · subst hz
      simp [peerOf, hx, Tab.opened]
    · simp [peerOf, hz]
  refine ⟨hi.hello, fun y z h => ?_, fun y z h => ?_, fun z t hz hb => ?_, fun y z m hm hp => ?_,
    fun y z m hm hp => ?_⟩
  · rw [hpeer] at h
    obtain ⟨hne, hz⟩ := hi.peer y z h
    have hzx : z ≠ x := by
      rintro rfl
      exact hz hx
    exact ⟨hne, by simpa [hzx] using hz⟩
  · rw [hpeer] at h ⊢
    exact hi.greeting y z h
  · by_cases hzx : z = x
    · subst hzx
      simp only [Function.update_self, Option.some.injEq] at hz
      subst hz
      simp [Tab.Busy, Tab.opened] at hb
    · exact hi.busy z t (by simpa [hzx] using hz) hb
  · rw [hpeer]
    exact hi.payload y z m hm hp
  · rw [hpeer]
    exact hi.order y z m hm hp

/-- What is left in a queue was in it. -/
theorem mem_of_pop (hc : w.chan (y, x) = m :: rest) {p : Id × Id} {m' : Message Id}
    (hm : m' ∈ Function.update w.chan (y, x) rest p) : m' ∈ w.chan p := by
  by_cases hp : p = (y, x)
  · subst hp
    rw [Function.update_self] at hm
    rw [hc]
    exact List.mem_cons_of_mem _ hm
  · rwa [Function.update_of_ne hp] at hm

/-- A message is taken by a tab that has a peer. -/
theorem Paired.pop (hi : Paired w) (hc : w.chan (y, x) = m :: rest) (hx : peerOf w x ≠ none) :
    Paired { w with chan := Function.update w.chan (y, x) rest } := by
  refine { hi with
    hello := fun b a id hm => hi.hello b a id (mem_of_pop hc hm)
    greeting := fun a b h => ?_
    payload := fun b a m' hm hp => hi.payload b a m' (mem_of_pop hc hm) hp
    order := fun b a m' hm hp => ?_ }
  · by_cases ha : a = x
    · exact .inl (ha ▸ hx)
    · have hne : (b, a) ≠ (y, x) := fun h => ha (congrArg Prod.snd h)
      simp only [Function.update_of_ne hne]
      exact hi.greeting a b h
  · rcases hi.order b a m' (mem_of_pop hc hm) hp with h | ⟨h, hh⟩
    · exact .inl h
    · have hne : (b, a) ≠ (y, x) := by
        rintro ⟨⟩
        exact hx h
      simp only [Function.update_of_ne hne]
      exact .inr ⟨h, hh⟩

omit [LinearOrder Id] in
/-- What is on its way to a tab without a peer comes after a hello. -/
theorem Paired.heralded (hi : Paired w) (hx : peerOf w x = none) :
    Heralded Message.Payload (· = .hello y) (w.chan (y, x)) := by
  intro l₁ m l₂ heq hm
  rcases hi.order y x m (by simp [heq]) hm with h | ⟨-, h⟩
  · rw [hx] at h
    cases h
  · exact h l₁ m l₂ heq hm

/-- A tab that takes no peer may post hellos, and to a tab whose peer it is, or has
    said hello to, what it likes. -/
theorem Paired.perform (hi : Paired w) (hx : w.party x = some t) (hp : t'.peerId = t.peerId)
    (hb : t'.Busy → t'.peerId ≠ none)
    (hhello : ∀ id, .hello id ∈ acts.filterMap Tab.program.post → id = x)
    (hpost : ∀ z, z ≠ x → w.party z ≠ none →
      (∀ m ∈ acts.filterMap Tab.program.post, ¬ m.Payload) ∨ peerOf w x = some z ∧
        (peerOf w z = some x ∨ peerOf w z = none ∧ .hello x ∈ w.chan (x, z))) :
    Paired (Medium.perform Tab.program w x t' acts) := by
  have hpeer : ∀ z, peerOf (Medium.perform Tab.program w x t' acts) z = peerOf w z :=
    peerOf_perform hx hp
  refine ⟨fun b a id hm => ?_, fun a b h => ?_, fun a b h => ?_, fun a s ha hs => ?_,
    fun b a m hm hpay => ?_, fun b a m hm hpay => ?_⟩
  · rcases Medium.mem_chan_perform hm with hm | ⟨rfl, -, -, hm⟩
    · exact hi.hello b a id hm
    · exact hhello id hm
  · rw [hpeer] at h
    obtain ⟨hne, hb⟩ := hi.peer a b h
    refine ⟨hne, ?_⟩
    by_cases hbx : b = x
    · subst hbx
      simp
    · rwa [Medium.party_perform_of_ne hbx]
  · rw [hpeer] at h ⊢
    exact (hi.greeting a b h).imp_right fun h => List.mem_append_left _ h
  · by_cases hax : a = x
    · subst hax
      rw [Medium.party_perform_self] at ha
      cases ha
      exact hb hs
    · rw [Medium.party_perform_of_ne hax] at ha
      exact hi.busy a s ha hs
  · rw [hpeer]
    rcases Medium.mem_chan_perform hm with hm | ⟨rfl, ha, hpa, hm⟩
    · exact hi.payload b a m hm hpay
    · rcases hpost a ha hpa with h | ⟨h, -⟩
      · exact absurd hpay (h m hm)
      · exact h
  · rw [hpeer]
    by_cases hbx : b = x ∧ a ≠ x ∧ w.party a ≠ none
    · obtain ⟨rfl, ha, hpa⟩ := hbx
      rw [Medium.chan_perform ha hpa] at hm ⊢
      rcases hpost a ha hpa with h | ⟨-, h | ⟨hn, h⟩⟩
      · have hm : m ∈ w.chan (b, a) :=
          (List.mem_append.1 hm).resolve_right fun hm => h m hm hpay
        exact (hi.order b a m hm hpay).imp_right fun ⟨hn, hh⟩ => ⟨hn, hh.append (.inl h)⟩
      · exact .inl h
      · exact .inr ⟨hn, (hi.heralded hn).append (.inr ⟨_, h, rfl⟩)⟩
    · have hchan : (Medium.perform Tab.program w x t' acts).chan (b, a) = w.chan (b, a) := by
        simp [Medium.perform, Option.isSome_iff_ne_none, hbx]
      rw [hchan] at hm ⊢
      exact hi.order b a m hm hpay

/-- A tab takes a peer. -/
theorem Paired.take (hi : Paired w) (hw : w.Wired) (hx : peerOf w x = none)
    (hc : w.chan (y, x) = .hello y :: rest) (hp : t'.peerId = some y)
    (hms : acts.filterMap Tab.program.post = [.hello x])
    (hwait : ∀ z m, z ≠ y → m ∈ w.chan (z, x) → ¬ m.Payload) :
    Paired (Medium.perform Tab.program
      { w with chan := Function.update w.chan (y, x) rest } x t' acts) := by
  set w₁ : Room Id := { w with chan := Function.update w.chan (y, x) rest }
  obtain ⟨hyx, hy, -⟩ := hw y x (.hello y) (by simp [hc])
  have hself : peerOf (Medium.perform Tab.program w₁ x t' acts) x = some y := by
    rw [peerOf_perform_self, hp]
  have hother : ∀ z, z ≠ x → peerOf (Medium.perform Tab.program w₁ x t' acts) z = peerOf w z :=
    fun z hz => peerOf_perform_of_ne hz
  -- What is on its way now was before, but for the hello.
  have hmem : ∀ b a m, m ∈ (Medium.perform Tab.program w₁ x t' acts).chan (b, a) →
      m ∈ w.chan (b, a) ∨ b = x ∧ m = .hello x := by
    intro b a m hm
    rcases Medium.mem_chan_perform hm with hm | ⟨hb, -, -, hm⟩
    · exact .inl (mem_of_pop hc hm)
    · rw [hms] at hm
      exact .inr ⟨hb, List.mem_singleton.1 hm⟩
  have hkeep : ∀ b a, a ≠ x → ∀ m ∈ w.chan (b, a),
      m ∈ (Medium.perform Tab.program w₁ x t' acts).chan (b, a) := by
    intro b a ha m hm
    refine List.mem_append_left _ ?_
    simpa [w₁, ha] using hm
  have hpayload : ∀ b a m, m ∈ w.chan (b, a) → m.Payload → b ≠ x := by
    rintro b a m hm hpay rfl
    have := hi.payload b a m hm hpay
    rw [hx] at this
    cases this
  refine ⟨fun b a id hm => ?_, fun a b h => ?_, fun a b h => ?_, fun a s ha hs => ?_,
    fun b a m hm hpay => ?_, fun b a m hm hpay => ?_⟩
  · rcases hmem b a _ hm with hm | ⟨rfl, hm⟩
    · exact hi.hello b a id hm
    · exact Message.hello.inj hm
  · have hparty : w.party b ≠ none → (Medium.perform Tab.program w₁ x t' acts).party b ≠ none := by
      intro hb
      by_cases hbx : b = x
      · subst hbx
        simp
      · rwa [Medium.party_perform_of_ne hbx]
    by_cases ha : a = x
    · subst ha
      rw [hself] at h
      cases h
      exact ⟨hyx, hparty hy⟩
    · rw [hother a ha] at h
      exact (hi.peer a b h).imp_right hparty
  · by_cases ha : a = x
    · subst ha
      exact .inl (by simp [hself])
    · rw [hother a ha]
      by_cases hb : b = x
      · -- The peer that is taken is greeted.
        subst hb
        rw [hself] at h
        cases h
        refine .inr ?_
        rw [Medium.chan_perform (w := w₁) hyx hy, hms]
        exact List.mem_append_right _ (List.mem_singleton_self _)
      · rw [hother b hb] at h
        exact (hi.greeting a b h).imp_right (hkeep b a ha _)
  · by_cases hax : a = x
    · subst hax
      rw [Medium.party_perform_self] at ha
      cases ha
      simp [hp]
    · rw [Medium.party_perform_of_ne hax] at ha
      exact hi.busy a s ha hs
  · rcases hmem b a m hm with hm | ⟨-, rfl⟩
    · rw [hother b (hpayload b a m hm hpay)]
      exact hi.payload b a m hm hpay
    · exact hpay.elim
  · rcases hmem b a m hm with hm' | ⟨-, rfl⟩
    · by_cases ha : a = x
      · subst ha
        by_cases hb : b = y
        · exact .inl (hb ▸ hself)
        · exact absurd hpay (hwait b m hb hm')
      · have hbx := hpayload b a m hm' hpay
        have hchan : (Medium.perform Tab.program w₁ x t' acts).chan (b, a) = w.chan (b, a) := by
          rw [Medium.chan_perform_of_ne hbx]
          simp [w₁, ha]
        rw [hother a ha, hchan]
        exact hi.order b a m hm' hpay
    · exact hpay.elim

/-- A hello is not applied. -/
theorem not_applies_hello {a : Act Id} (ha : a ∈ (t.onmessage x (.hello y)).2) : ¬ a.Applies := by
  simp only [Tab.onmessage] at ha
  split at ha
  · cases ha
  · split at ha
    · rw [List.mem_singleton.1 ha]
      exact id
    · rw [List.mem_singleton.1 ha]
      exact id

/-- What a tab does with a hello when it has no peer. -/
theorem onmessage_hello (hn : t.peerId = none) :
    (t.onmessage x (.hello y)).1.peerId = some y ∧
      (t.onmessage x (.hello y)).2 = [.postMessage (.hello x)] := by
  by_cases hxy : x > y <;> simp [Tab.onmessage, hn, hxy, Tab.becomeOfferer, Tab.becomeAnswerer]

/-- What a tab does with a message when it has a peer. -/
theorem onmessage_of_ne_none (hn : t.peerId ≠ none) :
    (t.onmessage x m).1.peerId = t.peerId ∧
      (t.onmessage x m).2.filterMap Tab.program.post = [] := by
  cases m with
  | hello id => simp [Tab.onmessage, hn]
  | sdp type | ice c => exact ⟨rfl, rfl⟩

omit [LinearOrder Id] in
/-- A tab applies what its peer has posted, whose peer it is. -/
theorem Paired.applied (hi : Paired w) (hc : w.chan (y, x) = m :: rest) (hm : m.Payload) :
    peerOf w x = some y ∧ peerOf w y = some x := by
  have hmem : m ∈ w.chan (y, x) := by simp [hc]
  refine ⟨?_, hi.payload y x m hmem hm⟩
  rcases hi.order y x m hmem hm with h | ⟨-, h⟩
  · exact h
  · rw [hc] at h
    exact absurd hm h.not_head

/-- A tab that posts something of its connection, where there is no third tab, has the
    other for its peer, and has said hello to it if it is not the other's. -/
theorem Paired.alone (hi : Paired w) (htwo : AtMostTwo w) (hx : w.party x = some t)
    (ht : t.Busy) (hz : z ≠ x) (hpz : w.party z ≠ none) : peerOf w x = some z ∧
      (peerOf w z = some x ∨ peerOf w z = none ∧ .hello x ∈ w.chan (x, z)) := by
  have hpx : w.party x ≠ none := by simp [hx]
  have hother : ∀ y, y ≠ x → w.party y ≠ none → y = z := by
    intro y hy hpy
    rcases htwo x y z hpx hpy hpz with h | h | h
    · exact absurd h.symm hy
    · exact h
    · exact absurd h.symm hz
  obtain ⟨p, hp⟩ := Option.ne_none_iff_exists'.1 (hi.busy x t hx ht)
  have hpeer : peerOf w x = some p := (peerOf_eq hx).trans hp
  obtain rfl : p = z := (hi.peer x p hpeer).elim (hother p)
  refine ⟨hpeer, ?_⟩
  cases hq : peerOf w p with
  | none =>
    rcases hi.greeting p x hpeer with h | h
    · exact absurd hq h
    · exact .inr ⟨rfl, h⟩
  | some q =>
    -- Its peer is another tab, so this one.
    obtain ⟨hqp, hpq⟩ := hi.peer p q hq
    by_cases hqx : q = x
    · exact .inl (hqx ▸ rfl)
    · exact absurd (hother q hqx hpq) hqp

/-- Every step of undisturbed tabs keeps them paired. -/
theorem Paired.step (hi : Paired w) (hw : w.Wired)
    (hst : Medium.step Tab.program w e = some (w', acts)) (hC : Undisturbed ⟨w, e, acts⟩) :
    Paired w' := by
  rcases Medium.step_cases hst with ⟨x, -, hx, -, rfl⟩ |
    ⟨y, x, t, m, rest, t', rfl, hx, hc, hrec, rfl⟩ | ⟨x, k, t, t', rfl, hx, hact, rfl⟩
  · exact hi.join hx
  · obtain ⟨rfl, rfl⟩ := Tab.receive_cases hrec
    by_cases hn : t.peerId = none
    · have hnone : peerOf w x = none := (peerOf_eq hx).trans hn
      cases m with
      | hello id =>
        obtain rfl : id = y := hi.hello y x id (by simp [hc])
        obtain ⟨hp, hms⟩ := onmessage_hello (x := x) (y := id) hn
        exact hi.take hw hnone hc hp (by rw [hms]; rfl) (hC.waits id x id rest rfl hc hnone)
      | sdp type | ice c =>
        have := (hi.applied hc trivial).1
        rw [hnone] at this
        cases this
    · obtain ⟨hp, hms⟩ := onmessage_of_ne_none (x := x) (m := m) hn
      have hpop := hi.pop hc (by rwa [peerOf_eq hx])
      exact hpop.perform hx hp (fun _ => hp ▸ hn) (by simp [hms]) (by simp [hms])
  · have hp := (Tab.act_cases hact).1.peerId
    have hb' : t'.Busy → t'.peerId ≠ none := fun h => hp ▸ hi.busy x t hx (busy_of_act hact h)
    rcases act_posts hact with (hms | hms) | ⟨m, hm, hms, ht, hposts⟩
    · exact hi.perform hx hp hb' (by simp [hms]) (by simp [hms])
    · exact hi.perform hx hp hb' (by simp [hms]) (by simp [hms, Message.Payload])
    · have htwo := hC.alone (hposts w hx)
      refine hi.perform hx hp hb' (fun id hid => ?_) fun z hz hpz =>
        .inr (hi.alone htwo hx ht hz hpz)
      rw [hms, List.mem_singleton] at hid
      subst hid
      exact hm.elim

/-- What is applied is the next message of a tab. -/
theorem applied_step (hst : (room Id).step w e = some (w', acts)) {a : Act Id} (ha : a ∈ acts)
    (happ : a.Applies) : ∃ y x t m rest, e = .deliver y x ∧ w.party x = some t ∧
      w.chan (y, x) = m :: rest ∧ m.Payload ∧ acts = (t.onmessage x m).2 := by
  rcases Medium.step_cases hst with ⟨x, -, -, rfl, -⟩ |
    ⟨y, x, t, m, rest, t', rfl, hx, hc, hrec, -⟩ | ⟨x, k, t, t', -, -, hact, -⟩
  · cases ha
  · obtain ⟨-, rfl⟩ := Tab.receive_cases hrec
    refine ⟨y, x, t, m, rest, rfl, hx, hc, ?_, rfl⟩
    cases m with
    | hello id => exact absurd happ (not_applies_hello ha)
    | sdp type | ice c => trivial
  · exact absurd happ (not_applies_act hact ha)

omit [LinearOrder Id] in
theorem paired_empty : Paired (⟨fun _ => none, fun _ => []⟩ : Room Id) := by
  constructor <;> simp [peerOf]

variable {h : RoomHistory Id}

omit [LinearOrder Id] in
theorem AtMostTwo.of_pair {a b : Id} (h : ∀ x, w.party x ≠ none → x = a ∨ x = b) :
    AtMostTwo w := by
  intro x y z hx hy hz
  rcases h x hx with rfl | rfl <;> rcases h y hy with rfl | rfl <;>
    rcases h z hz with rfl | rfl <;> simp

theorem AtMostTwo.of_step (htwo : AtMostTwo w') (hst : (room Id).step w e = some (w', acts)) :
    AtMostTwo w :=
  fun x y z hx hy hz => htwo x y z (Medium.party_step hst hx) (Medium.party_step hst hy)
    (Medium.party_step hst hz)

/-- Two tabs are not disturbed. -/
theorem undisturbed_of_run {h : RoomHistory Id} (hr : (room Id).Run h w) (htwo : AtMostTwo w) :
    ∀ t ∈ h, Undisturbed t := by
  refine hr.induction (P := fun h w => AtMostTwo w → ∀ t ∈ h, Undisturbed t)
    (fun _ _ _ t ht => absurd ht List.not_mem_nil) ?_ htwo
  intro h w e w' acts hr ih hst htwo t ht
  have htwo' := htwo.of_step hst
  rcases List.mem_append.1 ht with ht | ht
  · exact ih htwo' t ht
  · obtain rfl := List.mem_singleton.1 ht
    refine ⟨fun _ => htwo', fun y x id rest _ hc _ z m hz hm _ => ?_⟩
    obtain ⟨hyx, hy, hx⟩ := Medium.wired_of_run hr y x (.hello id) (hc ▸ List.mem_cons_self)
    obtain ⟨hzx, hz', -⟩ := Medium.wired_of_run hr z x m hm
    rcases htwo' x y z hx hy hz' with h | h | h
    · exact hyx h.symm
    · exact hz h.symm
    · exact hzx h.symm

/-- Undisturbed tabs stay paired. -/
theorem Paired.wired_step (hi : w.Wired ∧ Paired w)
    (hC : Undisturbed ⟨w, e, acts⟩) (hst : (room Id).step w e = some (w', acts)) :
    w'.Wired ∧ Paired w' :=
  ⟨hi.1.step hst, hi.2.step hi.1 hst hC⟩

end Room

open Room

variable [LinearOrder Id] {w : Room Id} {h : RoomHistory Id}

/-- Whenever a tab hands a description or a candidate to its connection, in a run of
    undisturbed tabs, it has been posted by its peer, and it is the peer of this. -/
theorem signaling_isolated (hr : (room Id).Run h w) (hC : ∀ t ∈ h, Undisturbed t) :
    ∀ t ∈ h, ∀ a ∈ t.out, a.Applies → ∃ y x, t.event = .deliver y x ∧
      peerOf t.pre x = some y ∧ peerOf t.pre y = some x := by
  refine hr.forall_taken (C := Undisturbed) (I := fun w => w.Wired ∧ Paired w)
    ?_ (fun _ _ _ _ hi hC hst => Paired.wired_step hi hC hst) ?_ hC
  · rintro _ rfl
    exact ⟨Medium.wired_empty, paired_empty⟩
  · intro w e w' acts hi _ hst a ha happ
    obtain ⟨y, x, t, m, rest, rfl, -, hc, hm, -⟩ := applied_step hst ha happ
    exact ⟨y, x, rfl, hi.2.applied hc hm⟩

/-- Two tabs that find each other: an offer, a candidate and an answer. -/
def pairEvents : List (MediumEvent ℕ TabEvent) :=
  [.join 1, .act 1 .greet, .join 2, .act 2 .greet, .deliver 2 1, .deliver 1 2,
    .act 2 (.resume 0 true), .act 2 (.resume 0 true), .act 2 (.resume 0 true),
    .act 2 (.icecandidate "c"), .deliver 2 1, .deliver 2 1, .deliver 2 1,
    .act 1 (.resume 0 true), .act 1 (.resume 0 true), .act 1 (.resume 0 true), .deliver 1 2]

theorem signaling_isolated_pair : ∃ h w, (room ℕ).Run h w ∧
    .addIceCandidate "c" ∈ h.flatMap (·.out) ∧
    ∀ t ∈ h, ∀ a ∈ t.out, a.Applies → ∃ y x, t.event = .deliver y x ∧
      peerOf t.pre x = some y ∧ peerOf t.pre y = some x := by
  have hr := (Machine.Run.nil (m := room ℕ) (s := ⟨fun _ => none, fun _ => []⟩) rfl).exec
    pairEvents rfl
  refine ⟨_, _, hr, by decide, signaling_isolated hr (undisturbed_of_run hr ?_)⟩
  refine AtMostTwo.of_pair (a := 1) (b := 2) fun x hx => ?_
  have hjoin : MediumEvent.join x ∈ pairEvents := Medium.joined_of_run hr hx
  simpa [pairEvents] using hjoin

/-- A third tab applies the offer of one of two that have found each other. -/
theorem signaling_disturbed : ¬ ∀ h w, (room ℕ).Run h w → ∀ t ∈ h, ∀ a ∈ t.out, a.Applies →
    ∃ y x, t.event = .deliver y x ∧ peerOf t.pre x = some y ∧ peerOf t.pre y = some x := by
  intro hall
  have hr := (Machine.Run.nil (m := room ℕ) (s := ⟨fun _ => none, fun _ => []⟩) rfl).exec
    [.join 1, .act 1 .greet, .join 2, .act 2 .greet, .deliver 2 1, .deliver 1 2, .join 3,
      .act 3 .greet, .act 2 (.resume 0 true), .act 2 (.resume 0 true), .act 2 (.resume 0 true)] rfl
  have hr := hr.snoc (e := .deliver 2 3) rfl
  obtain ⟨y, x, he, hx, -⟩ := hall _ _ hr _ (List.mem_append_right _ (List.mem_singleton_self _))
    (.setRemoteDescription .offer) (List.mem_singleton_self _) trivial
  cases he
  cases hx

end IrohWebrtc
