import IrohWebrtc.Signaling.Isolation

/-!
# Roles

Two tabs of a room, and no third, take different roles, in whatever order they
open and their messages, continuations and candidates come. From the role a tab
has taken follows what it may post (`Tab.Sound`), and from what has been offered,
what may be answered (`Answering`):

* one offer is posted at most, and one answer;
* the offer is applied by the answerer, and the answer after the offer is set;
* a candidate is applied after a description of the same tab;
* the chats are started with opposite roles and swapped seeds.

This is `roles_agree`. It is assumed that a connection finds candidates after the
continuation of `setLocalDescription` only (`Gathered`).
-/

namespace IrohWebrtc

variable {Id : Type*}

/-- The role of the tab that posts a description of a type. -/
def SdpType.role : SdpType → Role
  | .offer => .offerer
  | .answer => .answerer

/-- What a tab of a role starts the chat with. -/
def Role.startChat : Role → Act Id
  | .offerer => .startChat 1 2 true
  | .answerer => .startChat 2 1 false

def Message.Description : Message Id → Prop
  | .sdp _ => True
  | .hello _ | .ice _ => False

def Message.Candidate : Message Id → Prop
  | .ice _ => True
  | .hello _ | .sdp _ => False

namespace Tab

/-- The description a tab has set, as a number. -/
def has (t : Tab Id) (type : SdpType) : ℕ := if t.localDescription = some type then 1 else 0

/-- The descriptions of a type a tab has posted, or is on the way to post. -/
def owes (t : Tab Id) (type : SdpType) : ℕ := t.making type + t.has type

variable {t t' : Tab Id} {type : SdpType} {x y : Id} {k : TabEvent} {acts : List (Act Id)}
  {m : Message Id}

theorem has_pos (h : t.localDescription = some type) : t.has type = 1 := if_pos h

theorem has_le_one (t : Tab Id) (type : SdpType) : t.has type ≤ 1 := by
  rw [has]
  split <;> omega

theorem localDescription_of_has (h : 0 < t.has type) : t.localDescription = some type := by
  by_contra hne
  rw [has, if_neg hne] at h
  exact absurd h (lt_irrefl 0)

theorem making_pos {i : ℕ} (h : t.awaiting[i]? = some (.setLocalDescription type)) :
    0 < t.making type :=
  List.countP_pos_iff.2 ⟨_, List.mem_of_getElem? h, by simp [Await.makes]⟩

theorem handling_of_making (h : 0 < t.making type) : t.Handling := by
  obtain ⟨a, ha, hm⟩ := List.countP_pos_iff.1 h
  refine ⟨a, ha, ?_⟩
  rintro rfl
  simp [Await.makes] at hm

theorem busy_of_owes (h : 0 < t.owes type) : t.Busy := by
  rcases Nat.add_pos_iff_pos_or_pos.1 h with h | h
  · exact .inr (handling_of_making h)
  · refine .inl ?_
    rw [localDescription_of_has h]
    exact Option.some_ne_none _

/-- A handler is suspended. -/
theorem making_snoc {a : Await} (h : t'.awaiting = t.awaiting ++ [a]) :
    t'.making type = t.making type + if a.makes = some type then 1 else 0 := by
  rw [making, h, List.countP_append, List.countP_singleton]
  simp [making]

/-- An offerer is on the way to an offer. -/
theorem becomeOfferer_making :
    t.becomeOfferer.making type = t.making type + if type = .offer then 1 else 0 := by
  rw [making_snoc (a := .becomeOfferer) rfl]
  cases type <;> rfl

/-- By itself, a tab is not on the way to more. -/
theorem act_owes (h : t.act x k = some (t', acts)) : t'.owes type ≤ t.owes type := by
  obtain ⟨hq, ⟨i, type', -, -, hd, hm, -⟩ | ⟨c, -, -, rfl, -⟩ | ⟨hd, -⟩⟩ := act_cases h
  · have hmaking := hq.making type
    rw [owes, owes, has, hd]
    split
    · next heq =>
      cases heq
      omega
    · omega
  · exact le_rfl
  · rw [owes, owes, has, has, hd]
    exact Nat.add_le_add_right (hq.making type) _

/-- What a tab posts by itself, it sets, if it is on the way to one description. -/
theorem act_has [DecidableEq Id] (h : t.act x k = some (t', acts))
    (hone : ∀ type, t.owes type ≤ 1)
    (heq : ∀ type type', 0 < t.owes type → 0 < t.owes type' → type = type') :
    acts.count (.postMessage (.sdp type)) + t.has type ≤ t'.has type := by
  obtain ⟨-, ⟨i, type', -, ha, hd, -, rfl⟩ | ⟨c, -, -, rfl, rfl⟩ | ⟨hd, hacts⟩⟩ := act_cases h
  · have hm := making_pos ha
    have howes : 0 < t.owes type' := Nat.add_pos_left hm _
    by_cases htype : type' = type
    · subst htype
      have := hone type'
      rw [owes] at this
      rw [has_pos hd, List.count_singleton_self]
      omega
    · have hnone : t.has type = 0 := by
        by_contra hne
        exact htype (heq _ _ howes (Nat.add_pos_right _ (Nat.pos_of_ne_zero hne)))
      rw [hnone, List.count_singleton, if_neg (by simp [htype])]
      exact Nat.zero_le _
  · rw [List.count_singleton, if_neg (by simp), Nat.zero_add]
  · have hcount : acts.count (.postMessage (.sdp type)) = 0 := by
      rw [List.count_eq_zero]
      rcases hacts with rfl | rfl | ⟨type', rfl⟩ | ⟨-, rfl⟩ <;> simp [startChat]
    rw [hcount, has, has, hd, Nat.zero_add]

/-- A message does not change the description a tab has set. -/
theorem onmessage_localDescription [LinearOrder Id] :
    (t.onmessage x m).1.localDescription = t.localDescription := by
  cases m with
  | hello id =>
    simp only [onmessage]
    split_ifs <;> rfl
  | sdp type | ice c => rfl

theorem onmessage_has [LinearOrder Id] : (t.onmessage x m).1.has type = t.has type := by
  rw [has, has, onmessage_localDescription]

/-- An offer is to be answered. -/
theorem onmessage_owes [LinearOrder Id] : (t.onmessage x m).1.owes .answer =
    t.owes .answer + if m = .sdp .offer then 1 else 0 := by
  rw [owes, onmessage_has, owes, Nat.add_right_comm]
  refine congrArg (· + _) ?_
  cases m with
  | hello id =>
    rw [if_neg nofun]
    simp only [onmessage]
    split_ifs
    · rfl
    · exact becomeOfferer_making
    · rfl
  | sdp type =>
    rw [making_snoc (t := t) rfl]
    cases type <;> rfl
  | ice c => rfl

/-- A tab that has a peer does not take a role. -/
theorem onmessage_role [LinearOrder Id] (hn : t.peerId ≠ none) :
    (t.onmessage x m).1.role = t.role := by
  cases m with
  | hello id => simp [onmessage, hn]
  | sdp type | ice c => rfl

/-- A message does not start the chat. -/
theorem onmessage_startChat [LinearOrder Id] {a b : UInt8} {i : Bool} :
    .startChat a b i ∉ (t.onmessage x m).2 := by
  cases m with
  | hello id =>
    simp only [onmessage]
    split_ifs <;> simp
  | sdp type | ice c => simp [onmessage]

/-- A message is answered by a hello at most. -/
theorem onmessage_posts [LinearOrder Id] {m' : Message Id}
    (ha : .postMessage m' ∈ (t.onmessage x m).2) : m' = .hello x := by
  cases m with
  | hello id =>
    simp only [onmessage] at ha
    split_ifs at ha
    · cases ha
    · exact Act.postMessage.inj (List.mem_singleton.1 ha)
    · exact Act.postMessage.inj (List.mem_singleton.1 ha)
  | sdp type | ice c => cases List.mem_singleton.1 ha

/-! ## A tab and its role -/

variable [LinearOrder Id]

/-- A tab has the role its peer's id gives it, and what comes with the role. -/
structure Sound (x : Id) (t : Tab Id) : Prop where
  role : t.role = t.peerId.map fun p => if x > p then .offerer else .answerer
  ondatachannel : t.ondatachannel ↔ t.role = some .answerer
  dc : t.dc → t.role ≠ none
  ready : .ready ∈ t.awaiting → t.role ≠ none
  offers : t.owes .offer ≤ if t.role = some .offerer then 1 else 0

theorem sound_opened : (opened : Tab Id).Sound x := by
  constructor <;> simp [opened, owes, making, has]

theorem Sound.act (hs : t.Sound x) (h : t.act x k = some (t', acts)) : t'.Sound x := by
  have hq := (act_cases h).1
  refine ⟨?_, ?_, fun hdc => ?_, fun hready => ?_, ?_⟩
  · rw [hq.role, hq.peerId]
    exact hs.role
  · rw [hq.role, hq.ondatachannel]
    exact hs.ondatachannel
  · rw [hq.role]
    rcases hq.dc hdc with hdc | hdc
    · exact hs.dc hdc
    · simp [hs.ondatachannel.1 hdc]
  · rw [hq.role]
    exact (hq.ready hready).elim hs.ready hs.dc
  · rw [hq.role]
    exact (act_owes h).trans hs.offers

theorem Sound.onmessage (hs : t.Sound x) : (t.onmessage x m).1.Sound x := by
  cases m with
  | hello id =>
    simp only [Tab.onmessage]
    split_ifs with hp hx
    · exact hs
    · -- It becomes the offerer, and goes to make an offer.
      have hnone : t.role = none := by
        rw [hs.role, not_not.1 hp]
        rfl
      have hoffers := hs.offers
      rw [hnone, if_neg (Option.some_ne_none _).symm] at hoffers
      refine ⟨by simp [becomeOfferer, hx], ?_, fun _ => Option.some_ne_none _,
        fun _ => Option.some_ne_none _, ?_⟩
      · have : ¬ t.ondatachannel := fun h => by simp [hs.ondatachannel.1 h] at hnone
        simp [becomeOfferer, this]
      · calc ({ t with peerId := some id } : Tab Id).becomeOfferer.owes .offer
            = t.making .offer + 1 + t.has .offer := congrArg (· + _) becomeOfferer_making
          _ = t.owes .offer + 1 := Nat.add_right_comm ..
          _ ≤ 1 := Nat.succ_le_succ hoffers
    · have hnone : t.role = none := by
        rw [hs.role, not_not.1 hp]
        rfl
      have hoffers := hs.offers
      rw [hnone, if_neg (Option.some_ne_none _).symm] at hoffers
      exact ⟨by simp [becomeAnswerer, hx], by simp [becomeAnswerer],
        fun _ => Option.some_ne_none _, fun _ => Option.some_ne_none _,
        hoffers.trans (Nat.zero_le _)⟩
  | sdp type =>
    refine ⟨hs.role, hs.ondatachannel, hs.dc, fun h => hs.ready ?_, ?_⟩
    · simpa [Tab.onmessage] using h
    · refine le_trans (le_of_eq ?_) hs.offers
      rw [owes, onmessage_has, making_snoc (t := t) rfl]
      cases type <;> rfl
  | ice c => exact hs

/-- Only the offerer is on the way to an offer. -/
theorem Sound.offerer (hs : t.Sound x) (h : 0 < t.owes .offer) : t.role = some .offerer := by
  by_contra hne
  have := hs.offers
  rw [if_neg hne] at this
  exact absurd (h.trans_le this) (lt_irrefl 0)

end Tab

namespace Room

/-- The role a tab has taken. -/
def roleOf (w : Room Id) (x : Id) : Option Role := (w.party x).bind (·.role)

/-- A connection finds candidates after the continuation of `setLocalDescription`. -/
def Gathered (t : Taken (Room Id) (MediumEvent Id TabEvent) (List (Act Id))) : Prop :=
  match t.event with
  | .act x (.icecandidate _) => (t.pre.party x).bind (·.localDescription) ≠ none
  | _ => True

instance : DecidablePred (@Gathered Id)
  | ⟨w, .act x (.icecandidate _), _⟩ =>
    inferInstanceAs (Decidable ((w.party x).bind (·.localDescription) ≠ none))
  | ⟨_, .act _ .greet, _⟩ | ⟨_, .act _ (.resume ..), _⟩ | ⟨_, .act _ .datachannel, _⟩
  | ⟨_, .act _ .onopen, _⟩ | ⟨_, .join _, _⟩ | ⟨_, .deliver .., _⟩ => .isTrue trivial

/-- A description that `y` has posted has been handed to the connection of `x`. -/
def Described (h : RoomHistory Id) (y x : Id) : Prop :=
  ∃ t ∈ h, t.event = .deliver y x ∧ ∃ type, .setRemoteDescription type ∈ t.out

/-- There are no three tabs, and each has the role its peer's id gives it. -/
structure Orderly [LinearOrder Id] (w : Room Id) : Prop where
  wired : w.Wired
  paired : Paired w
  two : AtMostTwo w
  sound : ∀ x t, w.party x = some t → t.Sound x

/-- Who answers has been offered, and offers are answered once. -/
structure Answering [DecidableEq Id] (w : Room Id) : Prop where
  sent : ∀ y x type, .sdp type ∈ w.chan (y, x) → ∃ t, w.party y = some t ∧ 0 < t.has type
  owes : ∀ x y s t, x ≠ y → w.party x = some s → w.party y = some t →
    (w.chan (y, x)).count (.sdp .offer) + s.owes .answer ≤ t.has .offer

/-- The candidates of a tab that are on their way come after its description, or this
    has been applied. -/
structure Told (h : RoomHistory Id) (w : Room Id) : Prop where
  sdp : ∀ y x t, w.party y = some t → t.localDescription ≠ none → t.peerId = some x →
    (∃ m ∈ w.chan (y, x), m.Description) ∨ Described h y x
  ice : ∀ y x, Heralded Message.Candidate Message.Description (w.chan (y, x)) ∨ Described h y x

variable [LinearOrder Id] {w w' : Room Id} {x y z : Id} {s t t' : Tab Id} {type : SdpType}
  {k : TabEvent} {m : Message Id} {rest : List (Message Id)}
  {acts : List (Act Id)} {e : MediumEvent Id TabEvent} {h : RoomHistory Id} {r : Role}

theorem sound_of_run (hr : (room Id).Run h w) (hx : w.party x = some t) : t.Sound x :=
  Medium.party_invariant (J := Tab.Sound) (fun _ => Tab.sound_opened)
    (fun _ _ _ _ _ ht hrec => (Tab.receive_cases hrec).1 ▸ ht.onmessage)
    (fun _ _ _ _ _ ht hact => ht.act hact) hr hx

theorem orderly_of_run (hr : (room Id).Run h w) (htwo : AtMostTwo w) : Orderly w where
  wired := Medium.wired_of_run hr
  paired := (hr.invariant_of (C := Undisturbed) (I := fun w => w.Wired ∧ Paired w)
    (by rintro _ rfl; exact ⟨Medium.wired_empty, paired_empty⟩)
    (fun _ _ _ _ hi hC hst => Paired.wired_step hi hC hst) (undisturbed_of_run hr htwo)).2
  two := htwo
  sound _ _ hx := sound_of_run hr hx

/-- A tab that has a peer has the other tab. -/
theorem Orderly.peerId (ho : Orderly w) (hxy : x ≠ y) (hx : w.party x = some s)
    (hy : w.party y = some t) (hs : s.peerId ≠ none) : s.peerId = some y := by
  obtain ⟨p, hp⟩ := Option.ne_none_iff_exists'.1 hs
  obtain ⟨hpx, hpp⟩ := ho.paired.peer x p ((peerOf_eq hx).trans hp)
  rcases ho.two x y p (by simp [hx]) (by simp [hy]) hpp with h | rfl | h
  · exact absurd h hxy
  · exact hp
  · exact absurd h.symm hpx

theorem Orderly.role (ho : Orderly w) (hxy : x ≠ y) (hx : w.party x = some s)
    (hy : w.party y = some t) (hs : s.peerId ≠ none) :
    s.role = some (if x > y then .offerer else .answerer) := by
  rw [(ho.sound x s hx).role, ho.peerId hxy hx hy hs]
  rfl

/-- Two tabs have different roles. -/
theorem Orderly.role_ne (ho : Orderly w) (hxy : x ≠ y) (hx : w.party x = some s)
    (hy : w.party y = some t) (hs : s.role = some r) : t.role ≠ some r := by
  intro ht
  have hpeer : ∀ z u, w.party z = some u → u.role = some r → u.peerId ≠ none := by
    intro z u hz hu hn
    rw [(ho.sound z u hz).role, hn] at hu
    cases hu
  have hs' := ho.role hxy hx hy (hpeer x s hx hs)
  have ht' := ho.role hxy.symm hy hx (hpeer y t hy ht)
  rw [hs] at hs'
  rw [ht, hs'] at ht'
  rcases lt_or_gt_of_ne hxy with hlt | hlt <;> simp [hlt, hlt.not_gt] at ht'

/-- A tab that posts a description, or is on the way to, has the role for it. -/
theorem Answering.role (ha : Answering w) (ho : Orderly w) (hx : w.party x = some s)
    (hs : 0 < s.owes type) : s.role = some type.role := by
  cases type with
  | offer => exact (ho.sound x s hx).offerer hs
  | answer =>
    -- The other tab has offered, so that its id is greater.
    have hpeer := ho.paired.busy x s hx (Tab.busy_of_owes hs)
    obtain ⟨y, hp⟩ := Option.ne_none_iff_exists'.1 hpeer
    obtain ⟨hyx, hy⟩ := ho.paired.peer x y ((peerOf_eq hx).trans hp)
    obtain ⟨t, hy⟩ := Option.ne_none_iff_exists'.1 hy
    have hoffer : 0 < t.has .offer :=
      hs.trans_le ((Nat.le_add_left _ _).trans (ha.owes x y s t hyx.symm hx hy))
    have hrole : t.role = some .offerer :=
      (ho.sound y t hy).offerer (Nat.add_pos_right _ hoffer)
    have hs' := ho.role hyx.symm hx hy hpeer
    have hne := ho.role_ne hyx hy hx hrole
    rw [hs'] at hne ⊢
    split at hne
    · exact absurd rfl hne
    · next hgt =>
      rw [if_neg hgt]
      rfl

/-- A tab posts one description at most. -/
theorem Answering.one (ha : Answering w) (ho : Orderly w) (hx : w.party x = some s) :
    s.owes type ≤ 1 := by
  rcases Nat.eq_zero_or_pos (s.owes type) with h | h
  · omega
  cases type with
  | offer =>
    have := (ho.sound x s hx).offers
    split at this <;> omega
  | answer =>
    obtain ⟨y, hp⟩ := Option.ne_none_iff_exists'.1 (ho.paired.busy x s hx (Tab.busy_of_owes h))
    obtain ⟨hyx, hy⟩ := ho.paired.peer x y ((peerOf_eq hx).trans hp)
    obtain ⟨t, hy⟩ := Option.ne_none_iff_exists'.1 hy
    exact (Nat.le_add_left _ _).trans ((ha.owes x y s t hyx.symm hx hy).trans (t.has_le_one .offer))

/-- What a tab posts by itself, it sets. -/
theorem Answering.act_has (ha : Answering w) (ho : Orderly w) (hx : w.party x = some t)
    (hact : t.act x k = some (t', acts)) :
    acts.count (.postMessage (.sdp type)) + t.has type ≤ t'.has type := by
  refine Tab.act_has hact (fun _ => ha.one ho hx) fun type₁ type₂ h₁ h₂ => ?_
  have hrole := (ha.role ho hx h₁).symm.trans (ha.role ho hx h₂)
  cases type₁ <;> cases type₂ <;> first | rfl | cases hrole

theorem Answering.join (ha : Answering w) (ho : Orderly w) (hz : w.party z = none)
    (htwo : AtMostTwo { w with party := Function.update w.party z (some Tab.opened) }) :
    Answering { w with party := Function.update w.party z (some Tab.opened) } := by
  have hne : ∀ y, w.party y ≠ none → y ≠ z := by
    rintro y hy rfl
    exact hy hz
  refine ⟨fun y x type hm => ?_, fun x y s t hxy hx hy => ?_⟩
  · obtain ⟨t, hy, ht⟩ := ha.sent y x type hm
    exact ⟨t, by simpa [hne y (by simp [hy])] using hy, ht⟩
  · -- Nothing is on its way to or from a tab that joins, and a tab that owes an answer
    -- has another.
    have hchan : x = z ∨ y = z → (w.chan (y, x)).count (.sdp .offer) = 0 := by
      intro h
      rw [List.count_eq_zero]
      intro hm
      obtain ⟨-, hpy, hpx⟩ := ho.wired y x _ hm
      exact h.elim (hne x hpx) (hne y hpy)
    by_cases hxz : x = z
    · subst hxz
      simp only [Function.update_self, Option.some.injEq] at hx
      subst hx
      simp only [hchan (.inl rfl)]
      simp [Tab.opened, Tab.owes, Tab.making, Tab.has]
    · simp only [Function.update_of_ne hxz] at hx
      by_cases hyz : y = z
      · simp only [hchan (.inr hyz), Nat.zero_add]
        refine le_trans (le_of_eq ?_) (Nat.zero_le _)
        by_contra howes
        have hbusy := Tab.busy_of_owes (Nat.pos_of_ne_zero howes)
        obtain ⟨p, hp⟩ := Option.ne_none_iff_exists'.1 (ho.paired.busy x s hx hbusy)
        obtain ⟨hpx, hpp⟩ := ho.paired.peer x p ((peerOf_eq hx).trans hp)
        rcases htwo x p z (by simp [hxz, hx]) (by simpa [hne p hpp] using hpp) (by simp)
          with h | h | h
        · exact hpx h.symm
        · exact hne p hpp h
        · exact hxz h
      · simp only [Function.update_of_ne hyz] at hy
        exact ha.owes x y s t hxy hx hy

theorem count_post {m : Message Id} :
    (acts.filterMap Tab.program.post).count m = acts.count (.postMessage m) := by
  rw [List.count_filterMap, List.count]
  refine List.countP_congr fun a _ => ?_
  cases a <;> simp [Tab.program]

theorem Answering.act (ha : Answering w) (ho : Orderly w) (hx : w.party x = some t)
    (hact : t.act x k = some (t', acts)) :
    Answering (Medium.perform Tab.program w x t' acts) := by
  have hhas : ∀ type, acts.count (.postMessage (.sdp type)) + t.has type ≤ t'.has type :=
    fun _ => ha.act_has ho hx hact
  refine ⟨fun y z type hm => ?_, fun z y s u hzy hz hy => ?_⟩
  · rcases Medium.mem_chan_perform hm with hm | ⟨rfl, -, -, hm⟩
    · obtain ⟨u, hy, hu⟩ := ha.sent y z type hm
      by_cases hyx : y = x
      · subst hyx
        obtain rfl := Option.some.inj (hx.symm.trans hy)
        exact ⟨t', Medium.party_perform_self, hu.trans_le ((Nat.le_add_left _ _).trans (hhas type))⟩
      · exact ⟨u, (Medium.party_perform_of_ne hyx).trans hy, hu⟩
    · have hpos : 0 < acts.count (.postMessage (.sdp type)) := by
        rw [← count_post]
        exact List.count_pos_iff.2 hm
      exact ⟨t', Medium.party_perform_self, hpos.trans_le ((Nat.le_add_right _ _).trans (hhas type))⟩
  · by_cases hyx : y = x
    · subst hyx
      rw [Medium.party_perform_self, Option.some.injEq] at hy
      subst hy
      rw [Medium.party_perform_of_ne hzy] at hz
      have howes := ha.owes z y s t hzy hz hx
      have := hhas .offer
      rw [← count_post] at this
      rw [Medium.chan_perform hzy (by simp [hz]), List.count_append]
      omega
    · rw [Medium.party_perform_of_ne hyx] at hy
      rw [Medium.chan_perform_of_ne hyx]
      by_cases hzx : z = x
      · subst hzx
        rw [Medium.party_perform_self, Option.some.injEq] at hz
        subst hz
        exact (Nat.add_le_add_left (Tab.act_owes hact) _).trans (ha.owes z y t u hzy hx hy)
      · rw [Medium.party_perform_of_ne hzx] at hz
        exact ha.owes z y s u hzy hz hy

theorem Answering.receive (ha : Answering w) (ho : Orderly w) (hx : w.party x = some t)
    (hc : w.chan (y, x) = m :: rest) : Answering (Medium.perform Tab.program
      { w with chan := Function.update w.chan (y, x) rest } x (t.onmessage x m).1
      (t.onmessage x m).2) := by
  have hpost : ∀ type, .sdp type ∉ (t.onmessage x m).2.filterMap Tab.program.post := by
    intro type hm
    rw [← List.count_pos_iff, count_post, List.count_pos_iff] at hm
    cases Tab.onmessage_posts hm
  obtain ⟨hyx, hpy, -⟩ := ho.wired y x m (by simp [hc])
  refine ⟨fun y' z type hm => ?_, fun z y' s u hzy hz hy => ?_⟩
  · have hm : .sdp type ∈ w.chan (y', z) := by
      rcases Medium.mem_chan_perform hm with hm | ⟨-, -, -, hm⟩
      · exact mem_of_pop hc hm
      · exact absurd hm (hpost type)
    obtain ⟨u, hy, hu⟩ := ha.sent y' z type hm
    by_cases hyx : y' = x
    · subst hyx
      obtain rfl := Option.some.inj (hx.symm.trans hy)
      refine ⟨_, Medium.party_perform_self, ?_⟩
      rwa [Tab.onmessage_has]
    · exact ⟨u, (Medium.party_perform_of_ne hyx).trans hy, hu⟩
  · by_cases hyx : y' = x
    · subst hyx
      rw [Medium.party_perform_self, Option.some.injEq] at hy
      subst hy
      rw [Medium.party_perform_of_ne hzy] at hz
      have hz' : w.party z = some s := hz
      rw [Tab.onmessage_has, Medium.chan_perform hzy (by simp [hz']), List.count_append,
        List.count_eq_zero.2 (hpost .offer)]
      simpa [hzy] using ha.owes z y' s t hzy hz' hx
    · rw [Medium.party_perform_of_ne hyx] at hy
      rw [Medium.chan_perform_of_ne hyx]
      by_cases hzx : z = x
      · -- The other tab's message is taken.
        subst hzx
        rw [Medium.party_perform_self, Option.some.injEq] at hz
        subst hz
        have hy' : w.party y' = some u := hy
        obtain rfl : y' = y := by
          rcases ho.two y' y z (by simp [hy']) hpy (by simp [hx]) with h | h | h
          · exact h
          · exact absurd h ‹y ≠ z›
          · exact absurd h hyx
        have := ha.owes z y' t u hzy hx hy'
        rw [hc, List.count_cons] at this
        simp only [Function.update_self, Tab.onmessage_owes, beq_iff_eq] at this ⊢
        omega
      · rw [Medium.party_perform_of_ne hzx] at hz
        have hne : (y', z) ≠ (y, x) := fun h => hzx (congrArg Prod.snd h)
        simp only [Function.update_of_ne hne]
        exact ha.owes z y' s u hzy hz hy

theorem answering_of_run (hr : (room Id).Run h w) (htwo : AtMostTwo w) : Answering w := by
  refine hr.induction (P := fun _ w => AtMostTwo w → Answering w) ?_ ?_ htwo
  · rintro _ rfl -
    exact ⟨fun _ _ _ hm => absurd hm List.not_mem_nil, fun _ _ _ _ _ hx => absurd hx nofun⟩
  · intro h w e w' acts hr ih hst htwo
    have htwo' := htwo.of_step hst
    have ho := orderly_of_run hr htwo'
    rcases Medium.step_cases hst with ⟨x, -, hx, -, rfl⟩ |
      ⟨y, x, t, m, rest, t', -, hx, hc, hrec, rfl⟩ | ⟨x, k, t, t', -, hx, hact, rfl⟩
    · exact (ih htwo').join ho hx htwo
    · obtain ⟨rfl, rfl⟩ := Tab.receive_cases hrec
      exact (ih htwo').receive ho hx hc
    · exact (ih htwo').act ho hx hact

/-! ## What has been posted -/

/-- A description of a type is posted once at most, and set when it has been. -/
theorem posted_once (hr : (room Id).Run h w) (htwo : AtMostTwo w) (type : SdpType) :
    (h.flatMap (·.out)).count (.postMessage (.sdp type)) ≤ 1 ∧
      (0 < (h.flatMap (·.out)).count (.postMessage (.sdp type)) →
        ∃ x t, w.party x = some t ∧ 0 < t.has type) := by
  refine hr.induction (P := fun h w => AtMostTwo w →
    (h.flatMap (·.out)).count (.postMessage (.sdp type)) ≤ 1 ∧
      (0 < (h.flatMap (·.out)).count (.postMessage (.sdp type)) →
        ∃ x t, w.party x = some t ∧ 0 < t.has type)) (fun _ _ _ => by simp) ?_ htwo
  intro h w e w' acts hr ih hst htwo
  have htwo' := htwo.of_step hst
  have ho := orderly_of_run hr htwo'
  have ha := answering_of_run hr htwo'
  obtain ⟨hone, hset⟩ := ih htwo'
  -- A step is one of a tab, which sets what it posts.
  have key : ∃ x t', w'.party = Function.update w.party x (some t') ∧
      (w.party x = none ∧ acts = [] ∨ ∃ t, w.party x = some t ∧
        acts.count (.postMessage (.sdp type)) + t.has type ≤ t'.has type ∧
          (0 < acts.count (.postMessage (.sdp type)) → 0 < t.owes type)) := by
    rcases Medium.step_cases hst with ⟨x, -, hx, rfl, rfl⟩ |
      ⟨y, x, t, m, rest, t', -, hx, -, hrec, rfl⟩ | ⟨x, k, t, t', -, hx, hact, rfl⟩
    · exact ⟨x, _, rfl, .inl ⟨hx, rfl⟩⟩
    · obtain ⟨rfl, rfl⟩ := Tab.receive_cases hrec
      have hzero : (t.onmessage x m).2.count (.postMessage (.sdp type)) = 0 := by
        rw [List.count_eq_zero]
        intro hm
        cases Tab.onmessage_posts hm
      refine ⟨x, _, rfl, .inr ⟨t, hx, ?_, fun h => by omega⟩⟩
      rw [hzero, Nat.zero_add, Tab.onmessage_has]
    · have hhas : acts.count (.postMessage (.sdp type)) + t.has type ≤ t'.has type :=
        ha.act_has ho hx hact
      refine ⟨x, t', rfl, .inr ⟨t, hx, hhas, fun h => ?_⟩⟩
      exact (Nat.add_pos_right _ (h.trans_le ((Nat.le_add_right _ _).trans hhas))).trans_le
        (Tab.act_owes hact)
  simp only [List.flatMap_append, List.flatMap_cons, List.flatMap_nil, List.append_nil,
    List.count_append]
  obtain ⟨x, t', hw', ⟨hx, rfl⟩ | ⟨t, hx, hhas, howes⟩⟩ := key
  · rw [List.count_nil, Nat.add_zero]
    refine ⟨hone, fun h => ?_⟩
    obtain ⟨y, u, hy, hu⟩ := hset h
    have hyx : y ≠ x := by
      rintro rfl
      rw [hx] at hy
      cases hy
    exact ⟨y, u, by rwa [hw', Function.update_of_ne hyx], hu⟩
  · have hx' : w'.party x = some t' := by rw [hw', Function.update_self]
    rcases Nat.eq_zero_or_pos (acts.count (.postMessage (.sdp type))) with hzero | hpos
    · rw [hzero, Nat.add_zero]
      refine ⟨hone, fun h => ?_⟩
      obtain ⟨y, u, hy, hu⟩ := hset h
      by_cases hyx : y = x
      · subst hyx
        obtain rfl := Option.some.inj (hx.symm.trans hy)
        exact ⟨y, t', hx', by omega⟩
      · exact ⟨y, u, by rwa [hw', Function.update_of_ne hyx], hu⟩
    · -- None has been posted, as the other tab has the other role.
      have hle := Tab.has_le_one t' type
      have hnone : ¬ 0 < (h.flatMap (·.out)).count (.postMessage (.sdp type)) := by
        intro hpos'
        obtain ⟨y, u, hy, hu⟩ := hset hpos'
        by_cases hyx : y = x
        · subst hyx
          obtain rfl := Option.some.inj (hx.symm.trans hy)
          omega
        · exact ho.role_ne hyx hy hx (ha.role ho hy (Nat.add_pos_right _ hu))
            (ha.role ho hx (howes hpos))
      exact ⟨by omega, fun _ => ⟨x, t', hx', by omega⟩⟩

/-! ## What comes before candidates -/

omit [LinearOrder Id] in
theorem Described.append {h' : RoomHistory Id} (hd : Described h y x) : Described (h ++ h') y x :=
  hd.imp fun _ ⟨hm, ht⟩ => ⟨List.mem_append_left _ hm, ht⟩

theorem Told.act (hi : Told h w) (ho : Orderly w) (hx : w.party x = some t)
    (hact : t.act x k = some (t', acts)) (hg : Gathered ⟨w, .act x k, acts⟩) :
    Told (h ++ [⟨w, .act x k, acts⟩]) (Medium.perform Tab.program w x t' acts) := by
  have hold : ∀ y z, (∃ m ∈ w.chan (y, z), m.Description) ∨ Described h y z →
      (∃ m ∈ (Medium.perform Tab.program w x t' acts).chan (y, z), m.Description) ∨
        Described (h ++ [⟨w, .act x k, acts⟩]) y z := by
    intro y z h
    exact h.imp (fun ⟨m, hm, hd⟩ => ⟨m, Medium.mem_perform_of_mem hm, hd⟩) (·.append)
  refine ⟨fun y z u hy hu hp => ?_, fun y z => ?_⟩
  · by_cases hyx : y = x
    · subst hyx
      rw [Medium.party_perform_self, Option.some.injEq] at hy
      subst hy
      obtain ⟨hq, hcases⟩ := Tab.act_cases hact
      have hpt : t.peerId = some z := hq.peerId.symm.trans hp
      rcases hcases with ⟨i, type, -, -, -, -, rfl⟩ | ⟨c, -, -, rfl, -⟩ | ⟨hd, -⟩
      · -- The peer is there to be sent the description.
        obtain ⟨hz, hpz⟩ := ho.paired.peer y z ((peerOf_eq hx).trans hpt)
        refine .inl ⟨.sdp type, ?_, trivial⟩
        rw [Medium.chan_perform hz hpz]
        exact List.mem_append_right _ (List.mem_singleton_self _)
      · exact hold y z (hi.sdp y z _ hx hu hpt)
      · exact hold y z (hi.sdp y z t hx (hd ▸ hu) hpt)
    · rw [Medium.party_perform_of_ne hyx] at hy
      exact hold y z (hi.sdp y z u hy hu hp)
  · rcases Medium.chan_perform_cases Tab.program w x t' acts y z with hc | ⟨rfl, hz, hpz, hc⟩
    · rw [hc]
      exact (hi.ice y z).imp_right (·.append)
    · rw [hc]
      rcases hi.ice y z with hh | hd
      · obtain ⟨-, ⟨i, type, -, -, -, -, rfl⟩ | ⟨c, rfl, hgather, -, rfl⟩ | ⟨-, hacts⟩⟩ :=
          Tab.act_cases hact
        · refine .inl (hh.append (.inl fun m hm => ?_))
          rw [List.mem_singleton.1 hm]
          exact id
        · -- The connection has its description, which has been posted to the other tab.
          have hd : t.localDescription ≠ none := by simpa [Gathered, hx] using hg
          have hp := (ho.paired.alone ho.two hx (.inl hd) hz hpz).1
          rw [peerOf_eq hx] at hp
          exact (hi.sdp y z t hx hd hp).imp (fun h => hh.append (.inr h)) (·.append)
        · refine .inl (hh.append (.inl fun m hm => ?_))
          rcases hacts with rfl | rfl | ⟨type, rfl⟩ | ⟨-, rfl⟩
          · cases hm
          · rw [List.mem_singleton.1 hm]
            exact id
          · cases hm
          · cases hm
      · exact .inr hd.append

theorem Told.receive (hi : Told h w) (ho : Orderly w) (hx : w.party x = some t)
    (hc : w.chan (y, x) = m :: rest) :
    Told (h ++ [⟨w, .deliver y x, (t.onmessage x m).2⟩]) (Medium.perform Tab.program
      { w with chan := Function.update w.chan (y, x) rest } x (t.onmessage x m).1
      (t.onmessage x m).2) := by
  obtain ⟨hyx, -, -⟩ := ho.wired y x m (by simp [hc])
  -- A description that is taken is applied.
  have htaken : m.Description → Described
      (h ++ [⟨w, .deliver y x, (t.onmessage x m).2⟩]) y x := by
    intro hm
    refine ⟨_, List.mem_append_right _ (List.mem_singleton_self _), rfl, ?_⟩
    cases m with
    | sdp type => exact ⟨type, List.mem_singleton_self _⟩
    | hello id | ice c => exact hm.elim
  have hold : ∀ b a, (∃ m ∈ w.chan (b, a), m.Description) ∨ Described h b a →
      (∃ n ∈ (Medium.perform Tab.program { w with chan := Function.update w.chan (y, x) rest } x
        (t.onmessage x m).1 (t.onmessage x m).2).chan (b, a), n.Description) ∨
        Described (h ++ [⟨w, .deliver y x, (t.onmessage x m).2⟩]) b a := by
    rintro b a (⟨n, hn, hd⟩ | hd)
    · by_cases hba : (b, a) = (y, x)
      · cases hba
        rw [hc] at hn
        rcases List.mem_cons.1 hn with rfl | hn
        · exact .inr (htaken hd)
        · refine .inl ⟨n, Medium.mem_perform_of_mem ?_, hd⟩
          simpa using hn
      · refine .inl ⟨n, Medium.mem_perform_of_mem ?_, hd⟩
        simpa [hba] using hn
    · exact .inr hd.append
  refine ⟨fun b a u hb hu hp => ?_, fun b a => ?_⟩
  · by_cases hbx : b = x
    · subst hbx
      rw [Medium.party_perform_self, Option.some.injEq] at hb
      subst hb
      have hd : t.localDescription ≠ none := by rwa [Tab.onmessage_localDescription] at hu
      have hn := ho.paired.busy b t hx (.inl hd)
      rw [(onmessage_of_ne_none hn).1] at hp
      exact hold b a (hi.sdp b a t hx hd hp)
    · rw [Medium.party_perform_of_ne hbx] at hb
      exact hold b a (hi.sdp b a u hb hu hp)
  · rcases hi.ice b a with hh | hd
    · rcases Medium.chan_perform_cases Tab.program
        { w with chan := Function.update w.chan (y, x) rest } x (t.onmessage x m).1
        (t.onmessage x m).2 b a with hchan | ⟨rfl, ha, -, hchan⟩
      · rw [hchan]
        by_cases hba : (b, a) = (y, x)
        · cases hba
          simp only [Function.update_self]
          rw [hc] at hh
          by_cases hm : m.Description
          · exact .inr (htaken hm)
          · exact .inl (hh.tail hm)
        · simp only [Function.update_of_ne hba]
          exact .inl hh
      · have hne : (b, a) ≠ (y, b) := fun h => ha (congrArg Prod.snd h)
        rw [hchan]
        simp only [Function.update_of_ne hne]
        refine .inl (hh.append (.inl fun n hn => ?_))
        have hn' : .postMessage n ∈ (t.onmessage b m).2 := by
          rw [← List.count_pos_iff, count_post, List.count_pos_iff] at hn
          exact hn
        rw [Tab.onmessage_posts hn']
        exact id
    · exact .inr hd.append

theorem told_of_run (hr : (room Id).Run h w) (htwo : AtMostTwo w) (hg : ∀ t ∈ h, Gathered t) :
    Told h w := by
  refine hr.induction (P := fun h w => AtMostTwo w → (∀ t ∈ h, Gathered t) → Told h w) ?_ ?_
    htwo hg
  · rintro _ rfl - -
    exact ⟨fun _ _ _ hy => absurd hy nofun, fun _ _ => .inl .nil⟩
  · intro h w e w' acts hr ih hst htwo hg
    have htwo' := htwo.of_step hst
    have ho := orderly_of_run hr htwo'
    have hi := ih htwo' fun t ht => hg t (List.mem_append_left _ ht)
    rcases Medium.step_cases hst with ⟨x, -, hx, -, rfl⟩ |
      ⟨y, x, t, m, rest, t', rfl, hx, hc, hrec, rfl⟩ | ⟨x, k, t, t', rfl, hx, hact, rfl⟩
    · refine ⟨fun y z t hy ht hp => ?_, fun y z => (hi.ice y z).imp_right (·.append)⟩
      by_cases hyx : y = x
      · subst hyx
        simp only [Function.update_self, Option.some.injEq] at hy
        subst hy
        exact absurd rfl ht
      · simp only [Function.update_of_ne hyx] at hy
        exact (hi.sdp y z t hy ht hp).imp_right (·.append)
    · obtain ⟨rfl, rfl⟩ := Tab.receive_cases hrec
      exact hi.receive ho hx hc
    · exact hi.act ho hx hact (hg _ (List.mem_append_right _ (List.mem_singleton_self _)))

/-! ## Roles and chats -/

omit [LinearOrder Id] in
theorem roleOf_eq (hx : w.party x = some t) : roleOf w x = t.role := by
  rw [roleOf, hx]
  rfl

/-- A tab keeps its role. -/
theorem roleOf_step (hr : (room Id).Run h w) (hst : (room Id).step w e = some (w', acts))
    (hz : roleOf w z = some r) : roleOf w' z = some r := by
  have hother : ∀ x t', z ≠ x → w'.party = Function.update w.party x (some t') →
      roleOf w' z = some r := by
    intro x t' hzx hw'
    rw [roleOf, hw', Function.update_of_ne hzx]
    exact hz
  rcases Medium.step_cases hst with ⟨x, -, hx, -, rfl⟩ |
    ⟨y, x, t, m, rest, t', -, hx, -, hrec, rfl⟩ | ⟨x, k, t, t', -, hx, hact, rfl⟩
  · refine hother x _ ?_ rfl
    rintro rfl
    rw [roleOf, hx] at hz
    cases hz
  · obtain ⟨rfl, rfl⟩ := Tab.receive_cases hrec
    by_cases hzx : z = x
    · subst hzx
      rw [roleOf_eq hx] at hz
      have hn : t.peerId ≠ none := by
        intro hn
        rw [(sound_of_run hr hx).role, hn] at hz
        cases hz
      rw [roleOf_eq Medium.party_perform_self, Tab.onmessage_role hn]
      exact hz
    · exact hother x _ hzx rfl
  · by_cases hzx : z = x
    · subst hzx
      rw [roleOf_eq hx] at hz
      rw [roleOf_eq Medium.party_perform_self, (Tab.act_cases hact).1.role]
      exact hz
    · exact hother x _ hzx rfl

/-- Who starts a chat does so with its role. -/
theorem started (hr : (room Id).Run h w) : ∀ t ∈ h, ∀ a b i, .startChat a b i ∈ t.out →
    ∃ r, roleOf w t.event.actor = some r ∧ .startChat a b i = (r.startChat : Act Id) := by
  refine hr.induction (P := fun h w => ∀ t ∈ h, ∀ a b i, .startChat a b i ∈ t.out →
    ∃ r, roleOf w t.event.actor = some r ∧ .startChat a b i = (r.startChat : Act Id))
    (fun _ _ t ht => absurd ht List.not_mem_nil) ?_
  intro h w e w' acts hr ih hst t ht a b i ha
  rcases List.mem_append.1 ht with ht | ht
  · obtain ⟨r, hrole, heq⟩ := ih t ht a b i ha
    exact ⟨r, roleOf_step hr hst hrole, heq⟩
  · obtain rfl := List.mem_singleton.1 ht
    rcases Medium.step_cases hst with ⟨x, -, -, rfl, -⟩ |
      ⟨y, x, t, m, rest, t', -, -, -, hrec, -⟩ | ⟨x, k, t, t', rfl, hx, hact, -⟩
    · cases ha
    · obtain ⟨-, rfl⟩ := Tab.receive_cases hrec
      exact absurd ha Tab.onmessage_startChat
    · obtain ⟨-, ⟨j, type, -, -, -, -, rfl⟩ | ⟨c, -, -, -, rfl⟩ |
        ⟨-, rfl | rfl | ⟨type, rfl⟩ | ⟨hready, rfl⟩⟩⟩ := Tab.act_cases hact
      case inr.inr.inr.inr.inr =>
        obtain ⟨r, hrole⟩ := Option.ne_none_iff_exists'.1 ((sound_of_run hr hx).ready hready)
        refine ⟨r, roleOf_step hr hst ((roleOf_eq hx).trans hrole), ?_⟩
        rw [List.mem_singleton.1 ha, Tab.startChat, hrole]
        cases r <;> rfl
      all_goals simp at ha

/-- A description that is applied has been set by the peer. -/
theorem applied_description (hr : (room Id).Run h w) (htwo : AtMostTwo w)
    (hst : (room Id).step w e = some (w', acts)) (ha : .setRemoteDescription type ∈ acts) :
    ∃ y x s t, e = .deliver y x ∧ x ≠ y ∧ w.party x = some s ∧ w.party y = some t ∧
      s.peerId = some y ∧ 0 < t.has type := by
  have ho := orderly_of_run hr htwo
  obtain ⟨y, x, s, m, rest, rfl, hx, hc, hm, rfl⟩ := applied_step hst ha trivial
  have hp := (ho.paired.applied hc hm).1
  rw [peerOf_eq hx] at hp
  obtain ⟨hyx, -, -⟩ := ho.wired y x m (by simp [hc])
  cases m with
  | hello id => exact hm.elim
  | sdp type =>
    cases List.mem_singleton.1 ha
    obtain ⟨t, hy, ht⟩ := (answering_of_run hr htwo).sent y x _ (hc ▸ List.mem_cons_self)
    exact ⟨y, x, s, t, rfl, hyx.symm, hx, hy, hp, ht⟩
  | ice c => cases List.mem_singleton.1 ha

end Room

open Room

/-- What two tabs agree on. -/
structure Agreed [LinearOrder Id] (h : RoomHistory Id) (w : Room Id) : Prop where
  roles : ∀ x y r, x ≠ y → roleOf w x = some r → roleOf w y ≠ some r
  once : ∀ type, (h.flatMap (·.out)).count (.postMessage (.sdp type)) ≤ 1
  offer : ∀ t ∈ h, .setRemoteDescription .offer ∈ t.out →
    ∃ s, t.pre.party t.event.actor = some s ∧ s.role = some .answerer ∧ s.ondatachannel
  answer : ∀ t ∈ h, .setRemoteDescription .answer ∈ t.out →
    ∃ s, t.pre.party t.event.actor = some s ∧ s.localDescription = some .offer
  /-- A candidate is applied after a description of the tab that has posted it. -/
  candidate : ∀ h₁ t h₂, h = h₁ ++ t :: h₂ → ∀ c, .addIceCandidate c ∈ t.out →
    ∃ y x, t.event = .deliver y x ∧ Described h₁ y x
  chats : ∀ t₁ ∈ h, ∀ t₂ ∈ h, t₁.event.actor ≠ t₂.event.actor → ∀ a₁ b₁ i₁ a₂ b₂ i₂,
    .startChat a₁ b₁ i₁ ∈ t₁.out → .startChat a₂ b₂ i₂ ∈ t₂.out → i₁ ≠ i₂ ∧ a₁ = b₂ ∧ b₁ = a₂

variable [LinearOrder Id] {w : Room Id} {h : RoomHistory Id}

/-- Two tabs agree on their roles, and do everything in its turn. -/
theorem roles_agree (hr : (room Id).Run h w) (htwo : AtMostTwo w) (hg : ∀ t ∈ h, Gathered t) :
    Agreed h w where
  roles x y r hxy hx hy := by
    rw [roleOf, Option.bind_eq_some_iff] at hx hy
    obtain ⟨s, hx, hs⟩ := hx
    obtain ⟨t, hy, ht⟩ := hy
    exact (orderly_of_run hr htwo).role_ne hxy hx hy hs ht
  once type := (posted_once hr htwo type).1
  offer t ht ha := by
    obtain ⟨h₁, h₂, heq⟩ := List.append_of_mem ht
    obtain ⟨hr, w', hst, htwo⟩ := hr.split (fun _ _ _ _ hst htwo => htwo.of_step hst) htwo heq
    have htwo := htwo.of_step hst
    have ho := orderly_of_run hr htwo
    obtain ⟨y, x, s, u, he, hxy, hx, hy, hp, hu⟩ := applied_description hr htwo hst ha
    rw [he]
    -- Its peer has the role for the offer.
    have hu := (ho.sound y u hy).offerer (Nat.add_pos_right _ hu)
    have hne := ho.role_ne hxy.symm hy hx hu
    have hs := ho.role hxy hx hy (by simp [hp])
    have hs : s.role = some .answerer := by
      split at hs
      · exact absurd hs hne
      · exact hs
    exact ⟨s, hx, hs, (ho.sound x s hx).ondatachannel.2 hs⟩
  answer t ht ha := by
    obtain ⟨h₁, h₂, heq⟩ := List.append_of_mem ht
    obtain ⟨hr, w', hst, htwo⟩ := hr.split (fun _ _ _ _ hst htwo => htwo.of_step hst) htwo heq
    have htwo := htwo.of_step hst
    obtain ⟨y, x, s, u, he, hxy, hx, hy, -, hu⟩ := applied_description hr htwo hst ha
    rw [he]
    have howes := (answering_of_run hr htwo).owes y x u s hxy.symm hy hx
    exact ⟨s, hx, Tab.localDescription_of_has (by rw [Tab.owes] at howes; omega)⟩
  candidate h₁ t h₂ heq c ha := by
    obtain ⟨hr, w', hst, htwo⟩ := hr.split (fun _ _ _ _ hst htwo => htwo.of_step hst) htwo heq
    have hg₁ : ∀ t ∈ h₁, Gathered t := fun t ht => hg t (heq ▸ List.mem_append_left _ ht)
    have hi := told_of_run hr (htwo.of_step hst) hg₁
    obtain ⟨y, x, s, m, rest, he, -, hc, hm, hacts⟩ := applied_step hst ha trivial
    refine ⟨y, x, he, (hi.ice y x).resolve_left fun hh => ?_⟩
    rw [hc] at hh
    cases m with
    | hello id => exact hm
    | sdp type =>
      rw [hacts] at ha
      cases List.mem_singleton.1 ha
    | ice c => exact hh.not_head trivial
  chats t₁ ht₁ t₂ ht₂ hne a₁ b₁ i₁ a₂ b₂ i₂ h₁ h₂ := by
    obtain ⟨r₁, hr₁, heq₁⟩ := started hr t₁ ht₁ a₁ b₁ i₁ h₁
    obtain ⟨r₂, hr₂, heq₂⟩ := started hr t₂ ht₂ a₂ b₂ i₂ h₂
    rw [roleOf, Option.bind_eq_some_iff] at hr₁ hr₂
    obtain ⟨s, hx, hs⟩ := hr₁
    obtain ⟨u, hy, hu⟩ := hr₂
    have hne := (orderly_of_run hr htwo).role_ne hne hx hy hs
    rw [hu] at hne
    cases r₁ <;> cases r₂ <;> cases heq₁ <;> cases heq₂ <;> simp at hne ⊢

/-- Two tabs that find each other, and start their chats. -/
def chatEvents : List (MediumEvent ℕ TabEvent) :=
  pairEvents ++ [.act 2 .onopen, .act 1 .datachannel, .act 1 .onopen, .act 2 (.resume 1 true),
    .act 1 (.resume 0 true)]

theorem roles_agree_pair : ∃ h w, (room ℕ).Run h w ∧
    .startChat 1 2 true ∈ h.flatMap (·.out) ∧ .startChat 2 1 false ∈ h.flatMap (·.out) ∧
    Agreed h w := by
  have hr := (Machine.Run.nil (m := room ℕ) (s := ⟨fun _ => none, fun _ => []⟩) rfl).exec
    chatEvents rfl
  refine ⟨_, _, hr, by decide, by decide, roles_agree hr ?_ (by decide)⟩
  refine AtMostTwo.of_pair (a := 1) (b := 2) fun x hx => ?_
  have hjoin : MediumEvent.join x ∈ chatEvents := Medium.joined_of_run hr hx
  simpa [chatEvents, pairEvents] using hjoin

end IrohWebrtc
