import IrohWebrtc.Datagram
import Mathlib.Logic.Function.Basic

/-!
# The browser WebRTC backend

A backend over data channels that are open already (`webrtc_wasm.rs`). Inbound messages go
through the closure that `wire_inbound` installs on a channel into the queue of the
receiver, and a sender looks up the channel of its destination. Data channels are named by
`D`, and the queue is that of the page.
-/

namespace IrohWebrtc

namespace Wasm

/-- What a data channel hands to `onmessage`. -/
inductive MessageData
  | arrayBuffer (bytes : Bytes)
  | uint8Array (bytes : Bytes)
  /-- A string, or anything else. -/
  | other

/-- The data channels that are open, by peer key. -/
abbrev Channels (D : Type*) := PeerKey → Option D

structure WebRtcBackend (D : Type*) where
  localKey : PeerKey
  channels : Channels D

/-- The receive half, which is the queue's. -/
structure WebRtcReceiver where

structure WebRtcSender (D : Type*) where
  channels : Channels D
  localKey : PeerKey

variable {D : Type*}

/-- `split` -/
def WebRtcBackend.split (b : WebRtcBackend D) : WebRtcReceiver × WebRtcSender D :=
  (⟨⟩, ⟨b.channels, b.localKey⟩)

/-- `WebRtcSender::send`: the channel the bytes are written to, if there is one. -/
def WebRtcSender.send (s : WebRtcSender D) (dst : PeerKey) (data : Bytes) : Option (D × Bytes) :=
  (s.channels dst).map fun dc => (dc, data)

/-- `WebRtcReceiver::poll_recv` on a queue, closed or idle when it is empty. -/
def WebRtcReceiver.pollRecv (_ : WebRtcReceiver) (closed : Bool) :
    List Inbound → Poll (Option Inbound) × List Inbound
  | inb :: rest => (.ready (some inb), rest)
  | [] => (if closed then .ready none else .pending, [])

/-- The bytes of a message. -/
def MessageData.bytes : MessageData → Option Bytes
  | .arrayBuffer bytes | .uint8Array bytes => some bytes
  | .other => none

/-- The closure of `wire_inbound`, for the peer `src`: what it puts into the queue. -/
def onMsg (src : PeerKey) (data : MessageData) : Option Inbound :=
  data.bytes.map fun bytes => ⟨bytes, src⟩

end Wasm

end IrohWebrtc
