import IrohWebrtc.Adapter.Carrier
import IrohWebrtc.Chat.Session
import IrohWebrtc.WebrtcWasm

/-!
# The transport of a chat

Two pages joined by a data channel, each of which starts a chat over its end of it
(`start_chat`). The seeds of the two identities are those of the page's role, the peer's
being the other one (`startTransport`), so that each page knows both keys and puts its end
of the channel under the peer's (`Started`). Messages in flight are lost or arrive in any
order; a page that has not started its chat yet has no `onmessage`, and they are lost there.

* `Pages.Crossed`: what a page holds is what its role gives it.
* `arrivals_received`: a poll returns the next of what has arrived, if anything is left, and
  what has arrived has been sent to its key by the other page.
-/

namespace IrohWebrtc

open Wasm

/-! ## Identities -/

/-- The seed of a page's identity: 1 for the initiator, and 2. -/
def End.seed : End → UInt8
  | .initiator => 1
  | .responder => 2

/-- The key of a page, `publicKey` being that of the 32 bytes of a secret key. -/
def End.key (publicKey : Bytes → PeerKey) (e : End) : PeerKey :=
  publicKey (List.replicate 32 e.seed)

/-- The backend that `start_chat` builds over the data channel `dc`, and the peer its
    `onmessage` is for. -/
def startChatBackend {D : Type*} (publicKey : Bytes → PeerKey) (dc : D)
    (mySeed remoteSeed : UInt8) : Wasm.WebRtcBackend D × PeerKey :=
  let remoteKey := publicKey (List.replicate 32 remoteSeed)
  (⟨publicKey (List.replicate 32 mySeed), Function.update (fun _ => none) remoteKey (some dc)⟩,
    remoteKey)

/-! ## Pages -/

/-- A page that has started a chat: the peer that its `onmessage` is for, the queue this
    fills, its backend until this is split, then its receiver and the clones of its sender. -/
structure Page where
  src : PeerKey
  incoming : List Inbound
  backend : Option (Wasm.WebRtcBackend End)
  receiver : Option Wasm.WebRtcReceiver
  senders : List (Wasm.WebRtcSender End)

/-- Two pages, and the messages in flight from each of them. -/
structure Pages where
  page : End → Option Page
  wire : End → List MessageData

inductive PageEvent
  /-- `start_chat` is called, with the seeds of the page's role. -/
  | startChat (e : End)
  /-- The backend of a page is split. -/
  | split (e : End)
  /-- The `i`-th sender of a page is cloned. -/
  | clone (e : End) (i : ℕ)
  /-- `send` is called on the `i`-th sender of a page, and the channel takes it or throws. -/
  | send (e : End) (i : ℕ) (dst : PeerKey) (data : Bytes) (ok : Bool)
  /-- Something on a page sends what is no bytes. -/
  | sendOther (e : End)
  /-- The `j`-th message in flight from a page is lost. -/
  | lose (e : End) (j : ℕ)
  /-- The `j`-th message in flight from a page arrives at the other. -/
  | arrive (e : End) (j : ℕ)
  /-- The receiver of a page is polled. -/
  | pollRecv (e : End)

namespace Pages

def setPage (w : Pages) (e : End) (p : Page) : Pages :=
  { w with page := Function.update w.page e (some p) }

def setWire (w : Pages) (e : End) (l : List MessageData) : Pages :=
  { w with wire := Function.update w.wire e l }

/-- What an event does, if it can happen, and what a poll returned. -/
def step (publicKey : Bytes → PeerKey) (w : Pages) : PageEvent → Option (Pages × Option Inbound)
  | .startChat e =>
    match w.page e with
    | none =>
      let (backend, src) := startChatBackend publicKey e e.seed e.other.seed
      some (w.setPage e ⟨src, [], some backend, none, []⟩, none)
    | some _ => none
  | .split e =>
    match w.page e with
    | some p =>
      p.backend.map fun b => (w.setPage e { p with
        backend := none, receiver := some b.split.1, senders := [b.split.2] }, none)
    | none => none
  | .clone e i =>
    match w.page e with
    | some p =>
      p.senders[i]?.map fun s => (w.setPage e { p with senders := p.senders ++ [s] }, none)
    | none => none
  | .send e i dst data ok =>
    match w.page e with
    | some p =>
      p.senders[i]?.map fun s =>
        match s.send dst data with
        | some (dc, data) =>
          (w.setWire dc (w.wire dc ++ if ok then [.arrayBuffer data] else []), none)
        | none => (w, none)
    | none => none
  | .sendOther e => some (w.setWire e (w.wire e ++ [.other]), none)
  | .lose e j => (w.wire e)[j]?.map fun _ => (w.setWire e ((w.wire e).eraseIdx j), none)
  | .arrive e j =>
    (w.wire e)[j]?.map fun data =>
      let w' := w.setWire e ((w.wire e).eraseIdx j)
      match w.page e.other with
      | some p =>
        (w'.setPage e.other { p with incoming := p.incoming ++ (onMsg p.src data).toList }, none)
      | none => (w', none)
  | .pollRecv e =>
    match w.page e with
    | some p =>
      p.receiver.map fun r =>
        -- The closure is never dropped, so that the queue is not closed.
        match r.pollRecv false p.incoming with
        | (.ready inb, rest) => (w.setPage e { p with incoming := rest }, inb)
        | (.pending, _) => (w, none)
    | none => none

/-- The channel is open, and no chat has been started. -/
def opened : Pages := ⟨fun _ => none, fun _ => []⟩

end Pages

def pagesMachine (publicKey : Bytes → PeerKey) : Machine Pages PageEvent (Option Inbound) :=
  ⟨{Pages.opened}, Pages.step publicKey⟩

/-! ## What a history shows -/

/-- A step of a run of two pages. -/
abbrev PagesTaken := Taken Pages PageEvent (Option Inbound)

namespace Pages

/-- The datagram a step makes the receiver of a page return. -/
def returnedIn (e : End) (t : PagesTaken) : List Inbound :=
  match t.event with
  | .pollRecv e' => if e' = e then t.out.toList else []
  | _ => []

/-- The datagram that arrives at a page in a step, if the page has started its chat. -/
def arrivedIn (e : End) (t : PagesTaken) : List Inbound :=
  match t.event with
  | .arrive e' j =>
    if e' = e.other then
      match t.pre.page e, (t.pre.wire e')[j]? with
      | some p, some data => (onMsg p.src data).toList
      | _, _ => []
    else []
  | _ => []

/-- The bytes a step passes to a sender of a page with the destination `dst`. -/
def sentIn (e : End) (dst : PeerKey) (t : PagesTaken) : List Bytes :=
  match t.event with
  | .send e' _ dst' data _ => if e' = e ∧ dst' = dst then [data] else []
  | _ => []

/-! ## Steps -/

/-- The channels of a page, by its role. -/
def channelsOf (publicKey : Bytes → PeerKey) (e : End) : Channels End :=
  Function.update (fun _ => none) (e.other.key publicKey) (some e)

variable {publicKey : Bytes → PeerKey} {w w' : Pages} {ev : PageEvent} {o : Option Inbound}
  {e e' : End} {p : Page}

@[simp] theorem page_setPage_self : (w.setPage e p).page e = some p := Function.update_self ..

theorem page_setPage_of_ne (h : e' ≠ e) : (w.setPage e p).page e' = w.page e' :=
  Function.update_of_ne h ..

@[simp] theorem wire_setPage : (w.setPage e p).wire = w.wire := rfl

@[simp] theorem page_setWire {l : List MessageData} : (w.setWire e l).page = w.page := rfl

@[simp] theorem wire_setWire_self {l : List MessageData} : (w.setWire e l).wire e = l :=
  Function.update_self ..

theorem wire_setWire_of_ne {l : List MessageData} (h : e' ≠ e) :
    (w.setWire e l).wire e' = w.wire e' :=
  Function.update_of_ne h ..

/-- What a step can do. -/
inductive Moves (publicKey : Bytes → PeerKey) (w : Pages) :
    PageEvent → Pages → Option Inbound → Prop
  | startChat {e : End} (hpage : w.page e = none) :
      Moves publicKey w (.startChat e) (w.setPage e ⟨e.other.key publicKey, [],
        some ⟨e.key publicKey, channelsOf publicKey e⟩, none, []⟩) none
  | split {e : End} {p : Page} {b : Wasm.WebRtcBackend End} (hpage : w.page e = some p)
      (hbackend : p.backend = some b) :
      Moves publicKey w (.split e) (w.setPage e { p with
        backend := none, receiver := some b.split.1, senders := [b.split.2] }) none
  | clone {e : End} {i : ℕ} {p : Page} {s : Wasm.WebRtcSender End} (hpage : w.page e = some p)
      (hi : p.senders[i]? = some s) :
      Moves publicKey w (.clone e i) (w.setPage e { p with senders := p.senders ++ [s] }) none
  | send {e : End} {i : ℕ} {dst : PeerKey} {data : Bytes} {ok : Bool} {p : Page}
      {s : Wasm.WebRtcSender End} {dc : End} (hpage : w.page e = some p)
      (hi : p.senders[i]? = some s) (hdc : s.channels dst = some dc) :
      Moves publicKey w (.send e i dst data ok)
        (w.setWire dc (w.wire dc ++ if ok then [.arrayBuffer data] else [])) none
  | unsent {e : End} {i : ℕ} {dst : PeerKey} {data : Bytes} {ok : Bool} :
      Moves publicKey w (.send e i dst data ok) w none
  | sendOther {e : End} :
      Moves publicKey w (.sendOther e) (w.setWire e (w.wire e ++ [.other])) none
  | lose {e : End} {j : ℕ} {data : MessageData} (hj : (w.wire e)[j]? = some data) :
      Moves publicKey w (.lose e j) (w.setWire e ((w.wire e).eraseIdx j)) none
  | arrive {e : End} {j : ℕ} {data : MessageData} {p : Page} (hj : (w.wire e)[j]? = some data)
      (hpage : w.page e.other = some p) :
      Moves publicKey w (.arrive e j)
        ((w.setWire e ((w.wire e).eraseIdx j)).setPage e.other
          { p with incoming := p.incoming ++ (onMsg p.src data).toList }) none
  | unheard {e : End} {j : ℕ} {data : MessageData} (hj : (w.wire e)[j]? = some data)
      (hpage : w.page e.other = none) :
      Moves publicKey w (.arrive e j) (w.setWire e ((w.wire e).eraseIdx j)) none
  | receive {e : End} {p : Page} {inb : Inbound} {rest : List Inbound} (hpage : w.page e = some p)
      (hincoming : p.incoming = inb :: rest) :
      Moves publicKey w (.pollRecv e) (w.setPage e { p with incoming := rest }) (some inb)
  | idle {e : End} : Moves publicKey w (.pollRecv e) w none

theorem moves_of_step (hst : w.step publicKey ev = some (w', o)) : Moves publicKey w ev w' o := by
  cases ev with
  | startChat e =>
    simp only [step] at hst
    split at hst
    · next hpage =>
      cases hst
      exact .startChat hpage
    · cases hst
  | split e =>
    simp only [step] at hst
    split at hst
    · next p hpage =>
      obtain ⟨b, hb, heq⟩ := Option.map_eq_some_iff.1 hst
      cases heq
      exact .split hpage hb
    · cases hst
  | clone e i =>
    simp only [step] at hst
    split at hst
    · next p hpage =>
      obtain ⟨s, hs, heq⟩ := Option.map_eq_some_iff.1 hst
      cases heq
      exact .clone hpage hs
    · cases hst
  | send e i dst data ok =>
    simp only [step] at hst
    split at hst
    · next p hpage =>
      obtain ⟨s, hs, heq⟩ := Option.map_eq_some_iff.1 hst
      cases hdc : s.channels dst with
      | none =>
        rw [Wasm.WebRtcSender.send, hdc] at heq
        cases heq
        exact .unsent
      | some dc =>
        rw [Wasm.WebRtcSender.send, hdc] at heq
        cases heq
        exact .send hpage hs hdc
    · cases hst
  | sendOther e =>
    cases hst
    exact .sendOther
  | lose e j =>
    obtain ⟨data, hj, heq⟩ := Option.map_eq_some_iff.1 hst
    cases heq
    exact .lose hj
  | arrive e j =>
    obtain ⟨data, hj, heq⟩ := Option.map_eq_some_iff.1 hst
    cases hpage : w.page e.other with
    | none =>
      simp only [hpage] at heq
      cases heq
      exact .unheard hj hpage
    | some p =>
      simp only [hpage] at heq
      cases heq
      exact .arrive hj hpage
  | pollRecv e =>
    simp only [step] at hst
    split at hst
    · next p hpage =>
      obtain ⟨r, -, heq⟩ := Option.map_eq_some_iff.1 hst
      cases hincoming : p.incoming with
      | nil =>
        rw [hincoming] at heq
        cases heq
        exact .idle
      | cons inb rest =>
        rw [hincoming] at heq
        cases heq
        exact .receive hpage hincoming
    · cases hst

/-- What a page holds is what its role gives it. -/
structure Page.Crossed (publicKey : Bytes → PeerKey) (e : End) (p : Page) : Prop where
  src : p.src = e.other.key publicKey
  backend : ∀ b, p.backend = some b → b = ⟨e.key publicKey, channelsOf publicKey e⟩
  senders : ∀ s ∈ p.senders, s = ⟨channelsOf publicKey e, e.key publicKey⟩

def Crossed (publicKey : Bytes → PeerKey) (w : Pages) : Prop :=
  ∀ e p, w.page e = some p → Page.Crossed publicKey e p

theorem Crossed.setPage (hw : w.Crossed publicKey) (hp : Page.Crossed publicKey e p) :
    (w.setPage e p).Crossed publicKey := by
  intro e' p' hpage
  rcases eq_or_ne e' e with rfl | hne
  · rw [page_setPage_self] at hpage
    exact Option.some.inj hpage ▸ hp
  · rw [page_setPage_of_ne hne] at hpage
    exact hw e' p' hpage

theorem Crossed.step (hw : w.Crossed publicKey) (hst : w.step publicKey ev = some (w', o)) :
    w'.Crossed publicKey := by
  cases moves_of_step hst with
  | startChat hpage =>
    exact hw.setPage
      ⟨rfl, fun b h => (Option.some.inj h).symm, fun s h => absurd h List.not_mem_nil⟩
  | @split e p b hpage hbackend =>
    obtain rfl := (hw e p hpage).backend b hbackend
    refine hw.setPage ⟨(hw e p hpage).src, fun b h => ?_, fun s h => List.mem_singleton.1 h⟩
    cases h
  | @clone e i p s hpage hi =>
    have hp := hw e p hpage
    refine hw.setPage ⟨hp.src, hp.backend, fun s' hs' => ?_⟩
    rcases List.mem_append.1 hs' with hs' | hs'
    · exact hp.senders s' hs'
    · rw [List.mem_singleton.1 hs']
      exact hp.senders s (List.mem_of_getElem? hi)
  | send | unsent | sendOther | lose | unheard | idle => exact hw
  | @arrive e j data p hj hpage =>
    have hw' : Crossed publicKey (w.setWire e ((w.wire e).eraseIdx j)) := hw
    have hp := hw e.other p hpage
    exact hw'.setPage ⟨hp.src, hp.backend, hp.senders⟩
  | receive hpage =>
    have hp := hw _ _ hpage
    exact hw.setPage ⟨hp.src, hp.backend, hp.senders⟩

/-- The queue of a page. -/
def incoming (w : Pages) (e : End) : List Inbound := (w.page e).elim [] (·.incoming)

theorem incoming_setPage_of_ne (h : e' ≠ e) : (w.setPage e p).incoming e' = w.incoming e' := by
  rw [incoming, page_setPage_of_ne h, incoming]

@[simp] theorem incoming_setPage_self : (w.setPage e p).incoming e = p.incoming := by
  rw [incoming, page_setPage_self, Option.elim_some]

theorem incoming_of_page (h : w.page e = some p) : w.incoming e = p.incoming := by
  rw [incoming, h, Option.elim_some]

/-- What the receiver of a page returns in a step, and what is left in its queue, was there
    or arrives. -/
theorem returned_step (hst : w.step publicKey ev = some (w', o)) (e : End) :
    returnedIn e ⟨w, ev, o⟩ ++ w'.incoming e = w.incoming e ++ arrivedIn e ⟨w, ev, o⟩ := by
  cases moves_of_step hst with
  | @startChat e₁ hpage =>
    rcases eq_or_ne e e₁ with rfl | hne
    · simp [returnedIn, arrivedIn, incoming, hpage]
    · simp [returnedIn, arrivedIn, incoming_setPage_of_ne hne]
  | @split e₁ p b hpage | @clone e₁ i p s hpage =>
    rcases eq_or_ne e e₁ with rfl | hne
    · simp [returnedIn, arrivedIn, incoming_of_page hpage]
    · simp [returnedIn, arrivedIn, incoming_setPage_of_ne hne]
  | send | unsent | sendOther | lose => simp [returnedIn, arrivedIn, incoming]
  | @arrive e₁ j data p hj hpage =>
    rcases End.eq_or_eq_other e e₁ with rfl | rfl
    · have hne : e₁ ≠ e₁.other := End.ne_other e₁
      rw [incoming_setPage_of_ne hne]
      simp [returnedIn, arrivedIn, incoming]
    · rw [End.other_other] at hpage
      simp [returnedIn, arrivedIn, hj, hpage, incoming_of_page hpage]
  | @unheard e₁ j data hj hpage =>
    rcases End.eq_or_eq_other e e₁ with rfl | rfl
    · simp [returnedIn, arrivedIn, incoming]
    · rw [End.other_other] at hpage
      simp [returnedIn, arrivedIn, hpage, incoming]
  | @receive e₁ p inb rest hpage hincoming =>
    rcases eq_or_ne e e₁ with rfl | hne
    · simp [returnedIn, arrivedIn, incoming_of_page hpage, hincoming]
    · simp [returnedIn, arrivedIn, incoming_setPage_of_ne hne, hne.symm]
  | idle => simp [returnedIn, arrivedIn]

/-- The datagrams in flight to a page. -/
def inFlight (publicKey : Bytes → PeerKey) (w : Pages) (e : End) : List Inbound :=
  (w.wire e.other).filterMap (onMsg (e.other.key publicKey))

@[simp] theorem inFlight_setPage : (w.setPage e' p).inFlight publicKey e = w.inFlight publicKey e :=
  rfl

theorem inFlight_setWire_of_ne {l : List MessageData} (h : e' ≠ e.other) :
    (w.setWire e' l).inFlight publicKey e = w.inFlight publicKey e := by
  rw [inFlight, inFlight, wire_setWire_of_ne h.symm]

@[simp] theorem inFlight_setWire_self (l : List MessageData) :
    (w.setWire e.other l).inFlight publicKey e = l.filterMap (onMsg (e.other.key publicKey)) := by
  rw [inFlight, wire_setWire_self]

theorem filterMap_eraseIdx_perm {α β : Type*} {f : α → Option β} {l : List α} {j : ℕ} {a : α}
    (hj : l[j]? = some a) :
    ((f a).toList ++ (l.eraseIdx j).filterMap f).Perm (l.filterMap f) := by
  obtain ⟨hlt, rfl⟩ := List.getElem?_eq_some_iff.1 hj
  have hperm := (List.getElem_cons_eraseIdx_perm hlt).filterMap f
  rw [List.filterMap_cons] at hperm
  cases hf : f l[j] with
  | none => simpa [hf] using hperm
  | some b => simpa [hf] using hperm

/-- What arrives at a page in a step, and what is still in flight to it, was in flight or is
    sent to its key by the other page. -/
theorem arrived_step (hw : w.Crossed publicKey) (hst : w.step publicKey ev = some (w', o))
    (e : End) :
    (arrivedIn e ⟨w, ev, o⟩ ++ inFlight publicKey w' e).Subperm
      (inFlight publicKey w e ++ (sentIn e.other (e.key publicKey) ⟨w, ev, o⟩).map
        (Inbound.mk · (e.other.key publicKey))) := by
  cases moves_of_step hst with
  | startChat | split | clone | receive => simp [arrivedIn, inFlight, sentIn, List.Subperm.refl]
  | @send e₁ i dst data ok p s dc hpage hi hdc =>
    obtain rfl := (hw e₁ p hpage).senders s (List.mem_of_getElem? hi)
    obtain ⟨rfl, rfl⟩ : dst = e₁.other.key publicKey ∧ e₁ = dc := by
      by_cases hdst : dst = e₁.other.key publicKey
      · refine ⟨hdst, ?_⟩
        simpa [channelsOf, hdst] using hdc
      · simp [channelsOf, hdst] at hdc
    rcases End.eq_or_eq_other e e₁ with rfl | rfl
    · rw [inFlight_setWire_of_ne (End.ne_other e₁)]
      exact (List.sublist_append_left _ _).subperm
    · rw [inFlight_setWire_self, End.other_other, List.filterMap_append, inFlight]
      cases ok with
      | true => simp [arrivedIn, sentIn, onMsg, MessageData.bytes, List.Subperm.refl]
      | false => exact (by simp [arrivedIn] : List.Sublist _ _).subperm
  | unsent | idle => exact (List.sublist_append_left _ _).subperm
  | @sendOther e₁ =>
    rcases End.eq_or_eq_other e e₁ with rfl | rfl
    · rw [inFlight_setWire_of_ne (End.ne_other e₁)]
      exact (List.sublist_append_left _ _).subperm
    · rw [inFlight_setWire_self, List.filterMap_append]
      have hother : [MessageData.other].filterMap (onMsg (e.other.key publicKey)) = [] := rfl
      rw [hother, List.append_nil]
      exact (List.sublist_append_left _ _).subperm
  | @lose e₁ j data hj =>
    rcases End.eq_or_eq_other e e₁ with rfl | rfl
    · rw [inFlight_setWire_of_ne (End.ne_other e₁)]
      exact (List.sublist_append_left _ _).subperm
    · rw [inFlight_setWire_self]
      refine List.Sublist.subperm (.trans ?_ (List.sublist_append_left _ _))
      exact (List.eraseIdx_sublist _ _).filterMap _
  | @arrive e₁ j data p hj hpage =>
    rw [inFlight_setPage]
    rcases End.eq_or_eq_other e e₁ with rfl | rfl
    · rw [inFlight_setWire_of_ne (End.ne_other e₁)]
      exact List.Sublist.subperm (by simp [arrivedIn])
    · rw [End.other_other] at hpage
      rw [inFlight_setWire_self]
      have harrived : arrivedIn e ⟨w, .arrive e.other j, none⟩ =
          (onMsg (e.other.key publicKey) data).toList := by
        simp [arrivedIn, hpage, hj, (hw e p hpage).src]
      rw [harrived]
      exact (filterMap_eraseIdx_perm hj).subperm.trans (List.sublist_append_left _ _).subperm
  | @unheard e₁ j data hj hpage =>
    rcases End.eq_or_eq_other e e₁ with rfl | rfl
    · rw [inFlight_setWire_of_ne (End.ne_other e₁)]
      exact List.Sublist.subperm (by simp [arrivedIn])
    · rw [End.other_other] at hpage
      rw [inFlight_setWire_self]
      have harrived : arrivedIn e ⟨w, .arrive e.other j, none⟩ = [] := by
        simp [arrivedIn, hpage]
      rw [harrived]
      refine List.Sublist.subperm (.trans ?_ (List.sublist_append_left _ _))
      exact (List.eraseIdx_sublist _ _).filterMap _

/-! ## Runs -/

section Runs

variable {h : List PagesTaken}

theorem crossed_of_run (hr : (pagesMachine publicKey).Run h w) : w.Crossed publicKey :=
  hr.invariant (by rintro _ rfl e p hpage; cases hpage) fun _ _ _ _ hw hst => hw.step hst

/-- What has arrived has been returned or is in the queue. -/
theorem returned_append_incoming (hr : (pagesMachine publicKey).Run h w) (e : End) :
    h.flatMap (returnedIn e) ++ w.incoming e = h.flatMap (arrivedIn e) :=
  hr.conserve .eq (G := fun _ => True) (q := (·.incoming e)) (arrivedIn e)
    (returnedIn e) (by rintro _ rfl; rfl)
    (fun _ _ _ _ _ _ hst _ => ⟨trivial, returned_step hst e⟩) trivial

/-- What the receiver of a page has returned is the beginning of what has arrived. -/
theorem returned_isPrefix (hr : (pagesMachine publicKey).Run h w) (e : End) :
    h.flatMap (returnedIn e) <+: h.flatMap (arrivedIn e) :=
  ⟨_, returned_append_incoming hr e⟩

/-- A poll returns the head of the queue. -/
theorem step_pollRecv (hpage : w.page e = some p) (hreceiver : p.receiver.isSome) :
    ∃ w', w.step publicKey (.pollRecv e) = some (w', p.incoming.head?) := by
  obtain ⟨r, hr⟩ := Option.isSome_iff_exists.1 hreceiver
  simp only [step, hpage, hr, Option.map_some]
  cases p.incoming with
  | nil => exact ⟨_, rfl⟩
  | cons inb rest => exact ⟨_, rfl⟩

/-- A poll returns the first of what has arrived that has not been returned. -/
theorem next_returned (hr : (pagesMachine publicKey).Run h w) (hpage : w.page e = some p)
    (hreceiver : p.receiver.isSome) : ∃ w', w.step publicKey (.pollRecv e) =
      some (w', (h.flatMap (arrivedIn e))[(h.flatMap (returnedIn e)).length]?) := by
  rw [← returned_append_incoming hr e, List.getElem?_append_right le_rfl, Nat.sub_self,
    incoming_of_page hpage, ← List.head?_eq_getElem?]
  exact step_pollRecv hpage hreceiver

/-- What has arrived at a page has been sent to its key by the other one. -/
theorem arrived_subperm (hr : (pagesMachine publicKey).Run h w) (e : End) :
    (h.flatMap (arrivedIn e)).Subperm ((h.flatMap (sentIn e.other (e.key publicKey))).map
      (Inbound.mk · (e.other.key publicKey))) := by
  have hcons := hr.conserve .subperm (G := fun _ => True) (q := (·.inFlight publicKey e))
    (fun t => (sentIn e.other (e.key publicKey) t).map (Inbound.mk · (e.other.key publicKey)))
    (arrivedIn e) (by rintro _ rfl; rfl)
    (fun _ _ _ _ _ hr hst _ => ⟨trivial, arrived_step (crossed_of_run hr) hst e⟩) trivial
  rw [List.map_flatMap]
  exact (List.sublist_append_left _ _).subperm.trans hcons

/-- The receiver of a page returns what has arrived since its chat was started, in the order
    of its arrival, nothing left out: a poll returns the next of it, and is pending exactly
    when all of it has been returned. This has been sent by the other page, with the page's
    key for its destination, each no more often than it was sent, and is tagged with the
    other page's key. -/
theorem arrivals_received (hr : (pagesMachine publicKey).Run h w) (e : End) :
    h.flatMap (returnedIn e) <+: h.flatMap (arrivedIn e) ∧
      (∀ p, w.page e = some p → p.receiver.isSome → ∃ w', w.step publicKey (.pollRecv e) =
        some (w', (h.flatMap (arrivedIn e))[(h.flatMap (returnedIn e)).length]?)) ∧
      (h.flatMap (arrivedIn e)).Subperm ((h.flatMap (sentIn e.other (e.key publicKey))).map
        (Inbound.mk · (e.other.key publicKey))) :=
  ⟨returned_isPrefix hr e, fun _ => next_returned hr, arrived_subperm hr e⟩

/-- Two datagrams, the second of which arrives first, and one that is lost. -/
theorem arrivals_received_reordered : ∃ h w,
    (pagesMachine fun l => .replicate 32 (l.headD 0)).Run h w ∧
      h.flatMap (returnedIn .initiator) = [⟨[8], .replicate 32 2⟩] ∧
      h.flatMap (returnedIn .initiator) <+: h.flatMap (arrivedIn .initiator) ∧
      ∃ w', w.step (fun l => .replicate 32 (l.headD 0)) (.pollRecv .initiator) =
        some (w', some ⟨[7], .replicate 32 2⟩) := by
  have hr := (Machine.Run.nil (m := pagesMachine fun l => .replicate 32 (l.headD 0))
    (s := opened) rfl).exec
    [.startChat .responder, .split .responder, .clone .responder 0,
      .send .responder 1 (.replicate 32 1) [7] true, .send .responder 0 (.replicate 32 1) [8] true,
      .send .responder 0 (.replicate 32 1) [9] true, .send .responder 0 (.replicate 32 2) [5] true,
      .startChat .initiator, .split .initiator, .arrive .responder 1, .arrive .responder 0,
      .lose .responder 0, .pollRecv .initiator] rfl
  obtain ⟨horder, hnext, -⟩ := arrivals_received hr .initiator
  exact ⟨_, _, hr, rfl, horder, hnext _ rfl rfl⟩

end Runs

end Pages

/-! ## The adapter over two pages -/

/-- The backends of two pages: their sends and polls, among all that can happen to them. -/
def pagesCarrier (publicKey : Bytes → PeerKey) : Carrier End Pages PageEvent (Option Inbound) where
  machine := pagesMachine publicKey
  localKey := End.key publicKey
  peers e e' := e' = e.other
  sends
    | .send e _ dst data _ => some (e, dst, data)
    | _ => none
  polls
    | .pollRecv e => some e
    | _ => none
  handed := id
  apart ev hev := by cases ev <;> first | rfl | exact absurd rfl hev

section Carrier

open Pages

variable {publicKey : Bytes → PeerKey}

theorem returnedIn_pagesCarrier (e : End) (t : PagesTaken) :
    (pagesCarrier publicKey).returnedIn e t = Pages.returnedIn e t := by
  obtain ⟨w, ev, o⟩ := t
  cases ev <;> simp [Carrier.returnedIn, pagesCarrier, Pages.returnedIn]

theorem sentIn_pagesCarrier (e : End) (t : PagesTaken) :
    (pagesCarrier publicKey).sentIn e t =
      (Pages.sentIn e.other (e.key publicKey) t).map (Inbound.mk · (e.other.key publicKey)) := by
  obtain ⟨w, ev, o⟩ := t
  cases ev with
  | send e' i dst data ok =>
    simp only [Carrier.sentIn, pagesCarrier, Pages.sentIn, decide_eq_true_eq]
    by_cases h : e' = e.other ∧ dst = e.key publicKey
    · rw [if_pos h, if_pos h, h.1]
      rfl
    · rw [if_neg h, if_neg h]
      rfl
  | _ => rfl

theorem faithful_pagesCarrier : (pagesCarrier publicKey).Faithful := by
  intro h w hr e
  rw [show (pagesCarrier publicKey).returnedIn e = Pages.returnedIn e from
      funext (returnedIn_pagesCarrier e),
    show (pagesCarrier publicKey).sentIn e = _ from funext (sentIn_pagesCarrier e),
    ← List.map_flatMap]
  exact (returned_isPrefix hr e).sublist.subperm.trans (arrived_subperm hr e)

open Adapted

variable {h : List (AdaptedTaken End Pages PageEvent (Option Inbound))} {w : Adapted End Pages}
  {i : ℕ} {endpoint : BackendEndpoint End End}

/-- Over the data channel of two pages, an endpoint reports pieces of what the other page's
    `poll_send` calls were given for its address, each no more often than it was given, with
    the address of the other page. -/
theorem chat_transport (hr : (pagesCarrier publicKey).adapted.Run h w)
    (hi : w.endpoints[i]? = some endpoint) :
    (h.flatMap (Adapted.reportedIn i)).Subperm
      ((h.flatMap (Adapted.transmittedIn (pagesCarrier publicKey) endpoint.rx)).map
        Inbound.report) :=
  reported_subperm faithful_pagesCarrier hr hi

/-- The first piece arrives before the responder has started its chat, the last one too big
    for the slot, and between them something that is no bytes. -/
theorem chat_transport_early : ∃ h w,
    (pagesCarrier fun l => .replicate 32 (l.headD 0)).adapted.Run h w ∧
      h.flatMap (Adapted.reportedIn 1) = [([8], addrOf (.replicate 32 1))] ∧
      (h.flatMap (Adapted.reportedIn 1)).Subperm ((h.flatMap (transmittedIn
        (pagesCarrier fun l => .replicate 32 (l.headD 0)) .responder)).map Inbound.report) := by
  have hr := (Machine.Run.nil
    (m := (pagesCarrier fun l => .replicate 32 (l.headD 0)).adapted)
    (s := Adapted.new (pagesCarrier fun l => .replicate 32 (l.headD 0)) opened)
    ⟨_, rfl, rfl⟩).exec
    [.carrier (.startChat .initiator), .carrier (.split .initiator), .bind .initiator,
      .pollSend 0 (addrOf (.replicate 32 2)) ⟨[7, 8, 9], some 1⟩,
      .send 0 (.send .initiator 0 (.replicate 32 2) [7] true), .carrier (.arrive .initiator 0),
      .carrier (.startChat .responder), .carrier (.split .responder), .bind .responder,
      .send 0 (.send .initiator 0 (.replicate 32 2) [8] true),
      .carrier (.sendOther .initiator),
      .send 0 (.send .initiator 0 (.replicate 32 2) [9] true),
      .carrier (.arrive .initiator 0), .carrier (.arrive .initiator 0),
      .carrier (.arrive .initiator 0),
      .pollRecv 1 ⟨[[0], []], [⟨0, 0⟩, ⟨0, 0⟩],
        [⟨addrOf (.replicate 32 0), none⟩, ⟨addrOf (.replicate 32 0), none⟩], rfl, rfl⟩,
      .poll 1 (.pollRecv .responder), .poll 1 (.pollRecv .responder),
      .poll 1 (.pollRecv .responder)] rfl
  exact ⟨_, _, hr, rfl, chat_transport hr (i := 1) rfl⟩

end Carrier

end IrohWebrtc
