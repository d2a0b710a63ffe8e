import IrohWebrtc.Adapter.Carrier
import IrohWebrtc.WebrtcNative.Delivery

/-!
# The adapter over a native pair

A pair of native backends with the adapter above each of them: what the endpoints of the
second milestone's test are made of. Whatever order tasks run in and messages are lost or
arrive in, an endpoint reports what the other one has transmitted to its address.
-/

namespace IrohWebrtc

open Adapted

/-- A pair of native backends: its sends and polls, among all that can happen to it. -/
def nativeCarrier (keyA keyB : PeerKey) :
    Carrier Side PairWorld PairEvent (Option Inbound) where
  machine := pairMachine keyA keyB
  localKey side := (side.backend keyA keyB).localKey
  peers side side' := side' = side.other
  sends
    | .send side _ dst data => some (side, dst, data)
    | _ => none
  polls
    | .pollRecv side _ => some side
    | _ => none
  handed := id
  apart e he := by cases e <;> first | rfl | exact absurd rfl he

variable {keyA keyB : PeerKey} {h : List PairTaken}

theorem returnedIn_nativeCarrier (side : Side) (t : PairTaken) :
    (nativeCarrier keyA keyB).returnedIn side t = returnedIn side t := by
  obtain ⟨w, e, o⟩ := t
  cases e <;> simp [Carrier.returnedIn, nativeCarrier, returnedIn]

theorem sentIn_nativeCarrier (side : Side) (t : PairTaken) :
    (nativeCarrier keyA keyB).sentIn side t =
      (sentIn side.other (side.key keyA keyB) t).map
        (Inbound.mk · (side.other.key keyA keyB)) := by
  obtain ⟨w, e, o⟩ := t
  cases e with
  | send side' i dst data =>
    simp only [Carrier.sentIn, nativeCarrier, sentIn, Side.backend_eq, decide_eq_true_eq]
    by_cases h : side' = side.other ∧ dst = side.key keyA keyB
    · rw [if_pos h, if_pos h, h.1]
      rfl
    · rw [if_neg h, if_neg h]
      rfl
  | _ => rfl

theorem faithful_nativeCarrier : (nativeCarrier keyA keyB).Faithful := by
  intro h w hr side
  have hsub := returned_subperm hr side
  rw [show (nativeCarrier keyA keyB).returnedIn side = returnedIn side from
      funext (returnedIn_nativeCarrier side),
    show (nativeCarrier keyA keyB).sentIn side = _ from funext (sentIn_nativeCarrier side),
    ← List.map_flatMap]
  exact (List.sublist_append_left _ _).subperm.trans hsub

section Runs

variable {h : List (AdaptedTaken Side PairWorld PairEvent (Option Inbound))}
  {w : Adapted Side PairWorld} {i : ℕ} {endpoint : BackendEndpoint Side Side}

/-- Over a native pair, an endpoint reports pieces of what the other side's `poll_send`
    calls were given for its address, each no more often than it was given, with the
    address of the other side. -/
theorem native_transport (hr : (nativeCarrier keyA keyB).adapted.Run h w)
    (hi : w.endpoints[i]? = some endpoint) :
    (h.flatMap (Adapted.reportedIn i)).Subperm
      ((h.flatMap (Adapted.transmittedIn (nativeCarrier keyA keyB) endpoint.rx)).map
        Inbound.report) :=
  reported_subperm faithful_nativeCarrier hr hi

/-- A batch of three pieces, of which the last overtakes the first and the second is lost,
    and a piece that an endpoint transmits to its own address. -/
theorem native_transport_batch : ∃ h w,
    (nativeCarrier (.replicate 32 1) (.replicate 32 2)).adapted.Run h w ∧
      h.flatMap (Adapted.reportedIn 1) =
        [([9], addrOf (.replicate 32 1)), ([7, 7], addrOf (.replicate 32 1))] ∧
      (h.flatMap (Adapted.reportedIn 1)).Subperm
        ((h.flatMap (Adapted.transmittedIn (nativeCarrier (.replicate 32 1) (.replicate 32 2))
          .answerer)).map Inbound.report) := by
  have hr := (Machine.Run.nil
    (m := (nativeCarrier (.replicate 32 1) (.replicate 32 2)).adapted)
    (s := Adapted.new (nativeCarrier (.replicate 32 1) (.replicate 32 2))
      (PairWorld.connected (.replicate 32 1) (.replicate 32 2))) ⟨_, rfl, rfl⟩).exec
    [.carrier (.split .offerer), .carrier (.split .answerer), .bind .offerer, .bind .answerer,
      .bind .offerer, .pollSend 0 (addrOf (.replicate 32 2)) ⟨[7, 7, 8, 8, 9], some 2⟩,
      .pollSend 1 (addrOf (.replicate 32 2)) ⟨[5], none⟩,
      .send 0 (.send .offerer 0 (.replicate 32 2) [7, 7]),
      .send 1 (.send .answerer 0 (.replicate 32 2) [5]),
      .send 0 (.send .offerer 0 (.replicate 32 2) [8, 8]),
      .send 0 (.send .offerer 0 (.replicate 32 2) [9]),
      .carrier (.run .offerer 2 true), .carrier (.run .offerer 1 true),
      .carrier (.run .offerer 0 true), .carrier (.lose .offerer 1),
      .carrier (.arrive .offerer 0), .carrier (.arrive .offerer 0),
      .carrier (.callback .answerer 0), .carrier (.callback .answerer 0),
      .pollRecv 1 ⟨[[0, 0, 0, 0], [0, 0, 0, 0]], [⟨0, 0⟩, ⟨0, 0⟩],
        [⟨addrOf (.replicate 32 0), none⟩, ⟨addrOf (.replicate 32 0), none⟩], rfl, rfl⟩,
      .poll 1 (.pollRecv .answerer false), .poll 1 (.pollRecv .answerer false)] rfl
  exact ⟨_, _, hr, rfl, native_transport hr (i := 1) rfl⟩

end Runs

end IrohWebrtc
