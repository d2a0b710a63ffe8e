import IrohWebrtc.Lib.Broadcast
import Mathlib.Data.List.Perm.Basic
import Mathlib.Order.Defs.LinearOrder

/-!
# Signaling between tabs

`broadcastSignaling` of the chat page (`chat.js`), and the functions it calls to
take a role and to start the chat. The tabs of a room find each other over a
`BroadcastChannel`: each says hello, takes the first hello it hears for its
peer's, and says hello again; then the one with the greater id offers and the
other answers. A tab is a program on a broadcast medium (`Tab.program`); a
handler that awaits is suspended, and what it goes on with is kept with the tab.
-/

namespace IrohWebrtc

/-- The type of a session description. -/
inductive SdpType
  | offer
  | answer
  deriving DecidableEq

inductive Role
  | offerer
  | answerer
  deriving DecidableEq

/-- What tabs post. Descriptions are known by their type: a tab that has taken a
    role makes one of its own. -/
inductive Message (Id : Type*)
  | hello (id : Id)
  | sdp (type : SdpType)
  | ice (c : String)
  deriving DecidableEq

/-- Where a handler is suspended. -/
inductive Await
  /-- After `becomeOfferer()`. -/
  | becomeOfferer
  | createOffer
  | createAnswer
  | setLocalDescription (type : SdpType)
  | setRemoteDescription (type : SdpType)
  /-- In `startTransport`, until the wasm module is ready. -/
  | ready
  deriving DecidableEq

/-- The description a suspended handler is on the way to post. -/
def Await.makes : Await → Option SdpType
  | .becomeOfferer | .createOffer => some .offer
  | .createAnswer => some .answer
  | .setLocalDescription type => some type
  | .setRemoteDescription .offer => some .answer
  | .setRemoteDescription .answer | .ready => none

/-- What a tab does. -/
inductive Act (Id : Type*)
  | postMessage (m : Message Id)
  | setLocalDescription (type : SdpType)
  | setRemoteDescription (type : SdpType)
  | addIceCandidate (c : String)
  | startChat (mySeed remoteSeed : UInt8) (isInitiator : Bool)
  deriving DecidableEq

/-- What happens to a tab, apart from messages. -/
inductive TabEvent
  /-- `broadcastSignaling` says hello, having opened the channel. -/
  | greet
  /-- What the `i`-th suspended handler awaits is resolved or rejected. -/
  | resume (i : ℕ) (resolved : Bool)
  /-- The connection has found a candidate. -/
  | icecandidate (c : String)
  /-- The connection has got a data channel from the other side. -/
  | datachannel
  /-- The data channel is open. -/
  | onopen

/-- A tab. -/
structure Tab (Id : Type*) where
  greeted : Bool
  peerId : Option Id
  role : Option Role
  /-- A data channel has been wired. -/
  dc : Bool
  /-- `ondatachannel` has been installed. -/
  ondatachannel : Bool
  /-- The type of `pc.localDescription`. -/
  localDescription : Option SdpType
  awaiting : List Await
  deriving DecidableEq

namespace Tab

variable {Id : Type*} [LinearOrder Id]

/-- A tab that has opened the channel. -/
def opened : Tab Id := ⟨false, none, none, false, false, none, []⟩

/-- `becomeOfferer`, awaited. -/
def becomeOfferer (t : Tab Id) : Tab Id :=
  { t with role := some .offerer, dc := true, awaiting := t.awaiting ++ [.becomeOfferer] }

def becomeAnswerer (t : Tab Id) : Tab Id :=
  { t with role := some .answerer, ondatachannel := true }

/-- `bc.onmessage`, up to its first `await`. -/
def onmessage (myId : Id) (t : Tab Id) : Message Id → Tab Id × List (Act Id)
  | .hello id =>
    if t.peerId ≠ none then (t, [])
    else if myId > id then
      ({ t with peerId := some id }.becomeOfferer, [.postMessage (.hello myId)])
    else ({ t with peerId := some id }.becomeAnswerer, [.postMessage (.hello myId)])
  | .sdp type =>
    ({ t with awaiting := t.awaiting ++ [.setRemoteDescription type] },
      [.setRemoteDescription type])
  | .ice c => (t, [.addIceCandidate c])

/-- A handler goes on, up to its next `await`. -/
def resume (t : Tab Id) : Await → Tab Id × List (Act Id)
  | .becomeOfferer => ({ t with awaiting := t.awaiting ++ [.createOffer] }, [])
  | .createOffer =>
    ({ t with awaiting := t.awaiting ++ [.setLocalDescription .offer] },
      [.setLocalDescription .offer])
  | .setRemoteDescription .offer => ({ t with awaiting := t.awaiting ++ [.createAnswer] }, [])
  | .setRemoteDescription .answer => (t, [])
  | .createAnswer =>
    ({ t with awaiting := t.awaiting ++ [.setLocalDescription .answer] },
      [.setLocalDescription .answer])
  -- The description that is posted is the one that has just been set.
  | .setLocalDescription type =>
    ({ t with localDescription := some type }, [.postMessage (.sdp type)])
  | .ready =>
    let initiator := t.role = some .offerer
    (t, [.startChat (if initiator then 1 else 2) (if initiator then 2 else 1) initiator])

/-- `setLocalDescription` has been called, so that the connection may find candidates. -/
def gathers (t : Tab Id) : Bool :=
  t.localDescription.isSome || t.awaiting.any fun a => a matches .setLocalDescription _

/-- What happens to a tab by itself. -/
def act (myId : Id) (t : Tab Id) : TabEvent → Option (Tab Id × List (Act Id))
  | .greet =>
    if t.greeted then none
    else some ({ t with greeted := true }, [.postMessage (.hello myId)])
  | .resume i resolved =>
    match t.awaiting[i]? with
    | some a =>
      let t := { t with awaiting := t.awaiting.eraseIdx i }
      -- A rejection ends the handler.
      some (if resolved then t.resume a else (t, []))
    | none => none
  | .icecandidate c => if t.gathers then some (t, [.postMessage (.ice c)]) else none
  | .datachannel => if t.ondatachannel then some ({ t with dc := true }, []) else none
  | .onopen => if t.dc then some ({ t with awaiting := t.awaiting ++ [.ready] }, []) else none

/-- The program of a tab. It receives messages once `broadcastSignaling` is through. -/
def program : Program Id (Tab Id) (Message Id) (Act Id) TabEvent where
  start := opened
  receive myId t m := if t.greeted then some (t.onmessage myId m) else none
  act := act
  post
    | .postMessage m => some m
    | _ => none

/-! ## What a tab does by itself -/

/-- How many handlers are on the way to post a description of a type. -/
def making (t : Tab Id) (type : SdpType) : ℕ := t.awaiting.countP (·.makes = some type)

/-- A handler of signaling is suspended. -/
def Handling (t : Tab Id) : Prop := ∃ a ∈ t.awaiting, a ≠ .ready

/-- What a tab starts the chat with. -/
def startChat (t : Tab Id) : Act Id :=
  let initiator := t.role = some .offerer
  .startChat (if initiator then 1 else 2) (if initiator then 2 else 1) initiator

/-- A tab goes on without taking a peer or a role. -/
structure Quiet (t t' : Tab Id) : Prop where
  peerId : t'.peerId = t.peerId
  role : t'.role = t.role
  ondatachannel : t'.ondatachannel = t.ondatachannel
  dc : t'.dc → t.dc ∨ t.ondatachannel
  ready : .ready ∈ t'.awaiting → .ready ∈ t.awaiting ∨ t.dc
  making : ∀ type, t'.making type ≤ t.making type
  handling : t'.Handling → t.Handling

variable {t t' : Tab Id} {a b : Await} {i : ℕ} {type : SdpType} {x : Id} {acts : List (Act Id)}

omit [LinearOrder Id] in
theorem making_of_getElem? (ha : t.awaiting[i]? = some a) :
    t.making type = ({ t with awaiting := t.awaiting.eraseIdx i } : Tab Id).making type +
      if a.makes = some type then 1 else 0 := by
  obtain ⟨hi, rfl⟩ := List.getElem?_eq_some_iff.1 ha
  rw [making, making, ← (List.getElem_cons_eraseIdx_perm hi).countP_eq, List.countP_cons]
  simp

omit [LinearOrder Id] in
/-- A handler that ends. -/
theorem Quiet.erase (i : ℕ) (d : Option SdpType) :
    t.Quiet { t with awaiting := t.awaiting.eraseIdx i, localDescription := d } where
  peerId := rfl
  role := rfl
  ondatachannel := rfl
  dc := .inl
  ready h := .inl (List.mem_of_mem_eraseIdx h)
  making _ := (List.eraseIdx_sublist ..).countP_le
  handling := fun ⟨a, ha, hne⟩ => ⟨a, List.mem_of_mem_eraseIdx ha, hne⟩

omit [LinearOrder Id] in
/-- A handler that goes on to the next `await`. -/
theorem Quiet.next (ha : t.awaiting[i]? = some a) (hb : b.makes = a.makes) (hne : a ≠ .ready)
    (hb' : b ≠ .ready) :
    t.Quiet { t with awaiting := t.awaiting.eraseIdx i ++ [b] } where
  peerId := rfl
  role := rfl
  ondatachannel := rfl
  dc := .inl
  ready h := by
    rcases List.mem_append.1 h with h | h
    · exact .inl (List.mem_of_mem_eraseIdx h)
    · exact absurd (List.mem_singleton.1 h).symm hb'
  making type := by
    rw [making_of_getElem? ha, Tab.making, Tab.making, List.countP_append, List.countP_singleton,
      hb]
    simp
  handling _ := ⟨a, List.mem_of_getElem? ha, hne⟩

omit [LinearOrder Id] in
/-- What a tab does by itself: it posts a description it has just set, or a
    candidate, or nothing but its hello. -/
theorem act_cases {k : TabEvent} (h : t.act x k = some (t', acts)) : t.Quiet t' ∧
    ((∃ i type, k = .resume i true ∧ t.awaiting[i]? = some (.setLocalDescription type) ∧
        t'.localDescription = some type ∧ t'.making type + 1 ≤ t.making type ∧
        acts = [.postMessage (.sdp type)]) ∨
      (∃ c, k = .icecandidate c ∧ t.gathers ∧ t' = t ∧ acts = [.postMessage (.ice c)]) ∨
      t'.localDescription = t.localDescription ∧
        (acts = [] ∨ acts = [.postMessage (.hello x)] ∨
          (∃ type, acts = [.setLocalDescription type]) ∨
          .ready ∈ t.awaiting ∧ acts = [t.startChat])) := by
  cases k with
  | greet =>
    simp only [act] at h
    split at h <;> cases h
    exact ⟨⟨rfl, rfl, rfl, .inl, .inl, fun _ => le_rfl, id⟩, .inr (.inr ⟨rfl, .inr (.inl rfl)⟩)⟩
  | resume i resolved =>
    simp only [act] at h
    split at h
    · next a ha =>
      cases resolved with
      | false =>
        cases h
        exact ⟨.erase i _, .inr (.inr ⟨rfl, .inl rfl⟩)⟩
      | true =>
        rcases a with _ | _ | _ | type | (_ | _) | _ <;> cases h
        · exact ⟨.next ha rfl nofun nofun, .inr (.inr ⟨rfl, .inl rfl⟩)⟩
        · exact ⟨.next ha rfl nofun nofun, .inr (.inr ⟨rfl, .inr (.inr (.inl ⟨_, rfl⟩))⟩)⟩
        · exact ⟨.next ha rfl nofun nofun, .inr (.inr ⟨rfl, .inr (.inr (.inl ⟨_, rfl⟩))⟩)⟩
        · -- The description that has been set is posted.
          refine ⟨.erase i _, .inl ⟨i, type, rfl, ha, rfl, ?_, rfl⟩⟩
          exact (making_of_getElem? ha).trans (congrArg _ (if_pos rfl)) |>.ge
        · exact ⟨.next ha rfl nofun nofun, .inr (.inr ⟨rfl, .inl rfl⟩)⟩
        · exact ⟨.erase i _, .inr (.inr ⟨rfl, .inl rfl⟩)⟩
        · exact ⟨.erase i _, .inr (.inr ⟨rfl, .inr (.inr (.inr ⟨List.mem_of_getElem? ha, rfl⟩))⟩)⟩
    · cases h
  | icecandidate c =>
    simp only [act] at h
    split at h
    · next hg =>
      cases h
      exact ⟨⟨rfl, rfl, rfl, .inl, .inl, fun _ => le_rfl, id⟩, .inr (.inl ⟨c, rfl, hg, rfl, rfl⟩)⟩
    · cases h
  | datachannel =>
    simp only [act] at h
    split at h
    · next hd =>
      cases h
      exact ⟨⟨rfl, rfl, rfl, fun _ => .inr hd, .inl, fun _ => le_rfl, id⟩,
        .inr (.inr ⟨rfl, .inl rfl⟩)⟩
    · cases h
  | onopen =>
    simp only [act] at h
    split at h
    · next hd =>
      cases h
      refine ⟨⟨rfl, rfl, rfl, .inl, fun _ => .inr hd, fun type => ?_, ?_⟩,
        .inr (.inr ⟨rfl, .inl rfl⟩)⟩
      · rw [making, List.countP_append]
        exact le_rfl
      · rintro ⟨a, ha, hne⟩
        rcases List.mem_append.1 ha with ha | ha
        · exact ⟨a, ha, hne⟩
        · exact absurd (List.mem_singleton.1 ha) hne
    · cases h

/-- What a tab does with a message. -/
theorem receive_cases {m : Message Id} (h : program.receive x t m = some (t', acts)) :
    t' = (t.onmessage x m).1 ∧ acts = (t.onmessage x m).2 := by
  simp only [program] at h
  split at h
  · have := Option.some.inj h
    exact ⟨congrArg Prod.fst this.symm, congrArg Prod.snd this.symm⟩
  · cases h

end Tab

section Room

variable (Id : Type*) [LinearOrder Id]

/-- A room: its tabs, and what they have posted to each other. -/
abbrev Room := Medium Id (Tab Id) (Message Id)

abbrev RoomHistory := List (Taken (Room Id) (MediumEvent Id TabEvent) (List (Act Id)))

/-- The room, empty at first, in which tabs are opened. -/
abbrev room : Machine (Room Id) (MediumEvent Id TabEvent) (List (Act Id)) :=
  Medium.machine Tab.program

end Room

end IrohWebrtc
