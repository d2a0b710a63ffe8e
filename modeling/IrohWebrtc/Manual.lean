import IrohWebrtc.Lib.Machine
import IrohWebrtc.Sdp.Link

/-!
# Manual signaling

`manualSignaling` of the chat page (`chat.js`), for two devices: a page makes a link of an offer,
which is opened elsewhere, where the page makes a link of an answer, which is pasted into the
first one. What carries the links is people, who copy them or scan them, open and paste them.

A page is suspended where `manualSignaling` awaits something (`ManualAwait`); once there is an
offer to share, each click of the button is a handler of its own. The pages of any number of
people are a machine (`manual`), whose events are what people and browsers do.
-/

namespace IrohWebrtc

/-! ## Connections -/

/-- `pc.signalingState` -/
inductive SignalingState
  | stable
  | haveLocalOffer
  | haveRemoteOffer
  deriving DecidableEq

/-- An `RTCPeerConnection`, as far as descriptions go. -/
structure PeerConnection where
  signalingState : SignalingState := .stable
  localDescription : Option Description := none
  remoteDescription : Option Description := none
  /-- Whether `iceGatheringState` is `"complete"`. -/
  gathered : Bool := false
  deriving DecidableEq

namespace PeerConnection

/-- `setLocalDescription`, if the state allows it. -/
def setLocalDescription (pc : PeerConnection) (d : Description) : Option PeerConnection :=
  match d.type, pc.signalingState with
  | .offer, .stable | .offer, .haveLocalOffer =>
    some { pc with signalingState := .haveLocalOffer, localDescription := some d }
  | .answer, .haveRemoteOffer =>
    some { pc with signalingState := .stable, localDescription := some d }
  | _, _ => none

/-- `setRemoteDescription`, if the state allows it. -/
def setRemoteDescription (pc : PeerConnection) (d : Description) : Option PeerConnection :=
  match d.type, pc.signalingState with
  -- The own offer is rolled back.
  | .offer, .haveLocalOffer => some { pc with
      signalingState := .haveRemoteOffer, localDescription := none, remoteDescription := some d }
  | .offer, .stable | .offer, .haveRemoteOffer =>
    some { pc with signalingState := .haveRemoteOffer, remoteDescription := some d }
  | .answer, .haveLocalOffer =>
    some { pc with signalingState := .stable, remoteDescription := some d }
  | .answer, _ => none

variable {pc pc' : PeerConnection} {d : Description}

theorem setLocalDescription_eq (h : pc.setLocalDescription d = some pc') :
    pc'.localDescription = some d ∧ pc'.remoteDescription = pc.remoteDescription := by
  rw [setLocalDescription] at h
  split at h <;> cases h <;> exact ⟨rfl, rfl⟩

theorem setRemoteDescription_eq (h : pc.setRemoteDescription d = some pc') :
    pc'.remoteDescription = some d ∧
      (∀ l ∈ pc'.localDescription, l ∈ pc.localDescription) ∧
      (d.type = .answer → pc.signalingState = .haveLocalOffer ∧ pc'.signalingState = .stable) := by
  rw [setRemoteDescription] at h
  split at h
  · next htype _ =>
    cases h
    exact ⟨rfl, nofun, fun hanswer => nomatch htype.symm.trans hanswer⟩
  · next htype _ =>
    cases h
    exact ⟨rfl, fun _ => id, fun hanswer => nomatch htype.symm.trans hanswer⟩
  · next htype _ =>
    cases h
    exact ⟨rfl, fun _ => id, fun hanswer => nomatch htype.symm.trans hanswer⟩
  · next hstate =>
    cases h
    exact ⟨rfl, fun _ => id, fun _ => ⟨hstate, rfl⟩⟩
  · cases h

end PeerConnection

/-! ## Pages -/

/-- `/typ srflx/.test(s)` -/
def isSrflx (s : Str) : Bool := "typ srflx".toList <:+: s

/-- A candidate, as the connection reports it. -/
structure IceCandidate where
  type : Option Str
  candidate : Option Str
  deriving DecidableEq

/-- Whether a candidate says that other networks can reach the page. -/
def IceCandidate.isPublic (c : IceCandidate) : Bool :=
  c.type = some "srflx".toList || isSrflx (c.candidate.getD [])

/-- Where `manualSignaling` is suspended. -/
inductive ManualAwait
  | becomeOfferer
  | createOffer
  | createAnswer
  | setLocalDescription (d : Description)
  | setRemoteDescription (d : Description)
  | waitIceComplete
  deriving DecidableEq

/-- A page in manual mode. -/
structure ManualPage where
  role : Role
  pc : PeerConnection := {}
  /-- `none` when `manualSignaling` has returned or thrown. -/
  awaiting : Option ManualAwait
  /-- The link on the page. -/
  link : Option Str := none
  /-- Whether the page says that the link is for the local network only. -/
  lanOnly : Bool := false
  /-- What clicks have called `setRemoteDescription` with, which has not returned. -/
  answers : List Description := []
  deriving DecidableEq

/-- What a page has done. -/
inductive ManualAct
  /-- It shows a link of its description. -/
  | link (desc : Description) (link : Str)
  /-- It has set a remote description. -/
  | applied (d : Description)
  deriving DecidableEq

/-- What happens to a page. -/
inductive ManualEvent
  /-- What is awaited is resolved or rejected. -/
  | resume (resolved : Bool)
  /-- `createOffer` or `createAnswer` is resolved. -/
  | created (sdp : Str)
  /-- The connection adds to its description. -/
  | gather (sdp : Str)
  | icecandidate (c : Option IceCandidate)
  | icegatheringstatechange (complete : Bool)
  /-- The timer of `waitIceComplete`. -/
  | timeout
  /-- A click on the button, with what is in the field for the answer. -/
  | click (ans : Str)
  /-- What the first of the clicks awaits is resolved or rejected. -/
  | answered (resolved : Bool)

/-- The name of the parameter in a page's link. -/
def Role.key : Role → Str
  | .offerer => "offer".toList
  | .answerer => "answer".toList

namespace ManualPage

/-- `manualSignaling`, up to its first `await`. -/
def start (hash : Str) : ManualPage :=
  match readOffer hash with
  | none => { role := .offerer, awaiting := some .becomeOfferer }
  | some v =>
    { role := .answerer, awaiting := (v.bind unpackSdp).map .setRemoteDescription }

/-- The end of `manualSignaling`, after `waitIceComplete`. -/
def showLink (page : Str) (p : ManualPage) : ManualPage × List ManualAct :=
  let p := { p with awaiting := none }
  match p.pc.localDescription with
  | none => (p, [])
  | some desc =>
    match (packSdp desc).bind (shareLink page p.role.key) with
    | none => (p, [])
    | some link => ({ p with link := some link, lanOnly := !isSrflx desc.sdp }, [.link desc link])

/-- `manualSignaling` goes on, up to its next `await`. -/
def resume (page : Str) (p : ManualPage) : ManualAwait → Option (ManualPage × List ManualAct)
  | .becomeOfferer => some ({ p with awaiting := some .createOffer }, [])
  | .setRemoteDescription d =>
    match p.pc.setRemoteDescription d with
    | none => some ({ p with awaiting := none }, [])
    | some pc => some ({ p with pc := pc, awaiting := some .createAnswer }, [.applied d])
  | .setLocalDescription d =>
    match p.pc.setLocalDescription d with
    | none => some ({ p with awaiting := none }, [])
    | some pc =>
      let p := { p with pc := pc }
      -- `waitIceComplete` returns at once when there is nothing to wait for.
      some (if pc.gathered then p.showLink page
        else ({ p with awaiting := some .waitIceComplete }, []))
  | .createOffer | .createAnswer | .waitIceComplete => none

/-- The listeners of `waitIceComplete` and its timer, if they are installed. -/
def wake (page : Str) (p : ManualPage) : ManualPage × List ManualAct :=
  if p.awaiting = some .waitIceComplete then p.showLink page else (p, [])

def act (page : Str) (p : ManualPage) : ManualEvent → Option (ManualPage × List ManualAct)
  | .resume true => p.awaiting.bind (p.resume page)
  | .resume false =>
    if p.awaiting ≠ none ∧ p.awaiting ≠ some .waitIceComplete then
      some ({ p with awaiting := none }, [])
    else none
  | .created sdp =>
    match p.awaiting with
    | some .createOffer =>
      some ({ p with awaiting := some (.setLocalDescription ⟨.offer, sdp⟩) }, [])
    | some .createAnswer =>
      some ({ p with awaiting := some (.setLocalDescription ⟨.answer, sdp⟩) }, [])
    | _ => none
  | .gather sdp => p.pc.localDescription.map fun d =>
    ({ p with pc := { p.pc with localDescription := some ⟨d.type, sdp⟩ } }, [])
  | .icecandidate c => some (if c.any (·.isPublic) then p.wake page else (p, []))
  | .icegatheringstatechange complete =>
    let p := { p with pc := { p.pc with gathered := complete } }
    some (if complete then p.wake page else (p, []))
  | .timeout => if p.awaiting = some .waitIceComplete then some (p.wake page) else none
  | .click ans =>
    if p.role = .offerer ∧ p.link ≠ none then
      -- Nothing happens without the parameter, nor when decoding or unpacking it throws.
      match ((readAnswer ans).bind id).bind unpackSdp with
      | none => some (p, [])
      | some d => some ({ p with answers := p.answers ++ [d] }, [])
    else none
  | .answered resolved =>
    match p.answers with
    | [] => none
    | d :: answers =>
      match p.pc.setRemoteDescription d with
      | some pc => some (if resolved then ({ p with pc := pc, answers := answers }, [.applied d])
        else ({ p with answers := answers }, []))
      | none => some ({ p with answers := answers }, [])

end ManualPage

/-! ## People -/

/-- What people do, and what happens to the `i`-th of their pages. -/
inductive ManualWorldEvent
  | visit (url : Str)
  | page (i : ℕ) (e : ManualEvent)

/-- The query of a URL, as `location.search` has it. -/
def search (url : Str) : Str := (url.takeWhile (· ≠ '#')).dropWhile (· ≠ '?')

/-- Whether the page at a URL is in manual mode. -/
def isManual (url : Str) : Bool :=
  (searchParam (search url) "manual".toList).isSome || "#offer=".toList <+: locationHash url

/-- The pages in manual mode, with the same origin and path. -/
def manual (page : Str) : Machine (List ManualPage) ManualWorldEvent (List (ℕ × ManualAct)) where
  init := {[]}
  step w
    | .visit url => some (if isManual url then w ++ [.start (locationHash url)] else w, [])
    | .page i e => do
      let p ← w[i]?
      let (p', acts) ← p.act page e
      return (w.set i p', acts.map (i, ·))

end IrohWebrtc
