import IrohWebrtc.Datagram

/-!
# The native WebRTC backend

A connected pair of backends over one WebRTC data channel
(`webrtc_native.rs`). Each side, offerer and answerer, has a peer connection, a
data channel and the receiving end of the queue its channel's messages are
bridged into; these objects are named by their side. What `split` hands out
shares them: the receiver holds the queue and the connection, the sender the
channel and the connection, each with the key of the peer.
-/

namespace IrohWebrtc

/-- The two sides of a connected pair. -/
inductive Side
  | offerer
  | answerer
  deriving DecidableEq, Repr

/-- The other side. -/
def Side.other : Side → Side
  | .offerer => .answerer
  | .answerer => .offerer

@[simp] theorem Side.other_other (s : Side) : s.other.other = s := by cases s <;> rfl

theorem Side.other_injective : Function.Injective Side.other :=
  fun s s' h => by rw [← Side.other_other s, h, Side.other_other]

theorem Side.eq_or_eq_other (s s' : Side) : s' = s ∨ s' = s.other := by
  cases s <;> cases s' <;> simp [other]

@[simp] theorem Side.other_ne (s : Side) : s.other ≠ s := by cases s <;> simp [other]

@[simp] theorem Side.ne_other (s : Side) : s ≠ s.other := (Side.other_ne s).symm

/-- One side of a connected pair: its peer connection, its data channel, and the
    queue its channel's messages are bridged into. -/
structure DcEndpoint where
  pc : Side
  dc : Side
  incoming : Side

/-- What `connect_pair` returns. -/
def connectPair : DcEndpoint × DcEndpoint :=
  (⟨.offerer, .offerer, .offerer⟩, ⟨.answerer, .answerer, .answerer⟩)

/-- A backend for one endpoint that talks to exactly one peer. -/
structure WebRtcBackend where
  localKey : PeerKey
  remote : PeerKey
  endpoint : DcEndpoint

/-- `connected_backends`: each side of a pair wrapped as a backend. -/
def connectedBackends (keyA keyB : PeerKey) : WebRtcBackend × WebRtcBackend :=
  (⟨keyA, keyB, connectPair.1⟩, ⟨keyB, keyA, connectPair.2⟩)

structure WebRtcReceiver where
  remote : PeerKey
  incoming : Side
  /-- Keeps the peer connection alive. -/
  pc : Side

structure WebRtcSender where
  remote : PeerKey
  dc : Side
  /-- Keeps the peer connection alive. -/
  pc : Side

/-- `split`: the two halves of a backend. -/
def WebRtcBackend.split (b : WebRtcBackend) : WebRtcReceiver × WebRtcSender :=
  (⟨b.remote, b.endpoint.incoming, b.endpoint.pc⟩, ⟨b.remote, b.endpoint.dc, b.endpoint.pc⟩)

/-- `WebRtcSender::send`: the task it spawns, sending the bytes on a data channel. -/
def WebRtcSender.send (s : WebRtcSender) (dst : PeerKey) (data : Bytes) : Option (Side × Bytes) :=
  if dst ≠ s.remote then none else some (s.dc, data)

/-- `WebRtcReceiver::poll_recv` on a queue: the oldest message, tagged with the
    key of the peer; on an empty queue, closed or idle. -/
def WebRtcReceiver.pollRecv (r : WebRtcReceiver) (closed : Bool) (queue : List Bytes) :
    Poll (Option Inbound) × List Bytes :=
  match queue with
  | data :: rest => (.ready (some ⟨data, r.remote⟩), rest)
  | [] => (if closed then .ready none else .pending, [])

/-- The key of a side of a pair built by `connectedBackends keyA keyB`. -/
def Side.key (keyA keyB : PeerKey) : Side → PeerKey
  | .offerer => keyA
  | .answerer => keyB

/-- The backend of a side. -/
def Side.backend (keyA keyB : PeerKey) : Side → WebRtcBackend
  | .offerer => (connectedBackends keyA keyB).1
  | .answerer => (connectedBackends keyA keyB).2

/-- The keys of a pair cross: each side holds its own objects and the key of the other. -/
theorem Side.backend_eq (keyA keyB : PeerKey) (s : Side) : s.backend keyA keyB =
    ⟨s.key keyA keyB, s.other.key keyA keyB, s, s, s⟩ := by
  cases s <;> rfl

end IrohWebrtc
