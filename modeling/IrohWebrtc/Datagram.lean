import Mathlib.Data.List.Basic

/-!
# The datagram carrier

The types of the carrier seam (`datagram.rs`): peers are addressed by their
32-byte public key, an inbound datagram carries the key of the peer it came
from, and a receiver is polled.
-/

namespace IrohWebrtc

/-- A byte string. -/
abbrev Bytes := List UInt8

/-- Routing key for a peer: its public key (32 bytes). -/
abbrev PeerKey := Vector UInt8 32

/-- An inbound datagram plus the peer it came from. -/
structure Inbound where
  data : Bytes
  src : PeerKey
  deriving DecidableEq, Repr

/-- The outcome of a poll. -/
inductive Poll (α : Type*)
  | ready (a : α)
  | pending
  deriving DecidableEq, Repr

end IrohWebrtc
