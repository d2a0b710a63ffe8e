import IrohWebrtc.Lib.Machine
import IrohWebrtc.WebrtcNative
import Mathlib.Algebra.Order.Group.Multiset
import Mathlib.Tactic.Abel

/-!
# Delivery over a native pair

The data plane of a connected pair. A send spawns a task; a task run sends its
message on a data channel, or fails; a message in flight is lost or arrives at
the other side, in any order; its arrival calls back, the callback's future
puts it into the queue of that side, and a poll of the receiver takes it out.

Tasks, messages and futures are taken in any order, so what is conserved is a
multiset: for each side, what its receiver has returned and what is on the way
to it are among the byte strings the other side's senders were given for it.
-/

namespace IrohWebrtc

/-- A native pair: for each side, its backend until it is split, then its
    receiver and the clones of its sender; for each data channel, the tasks
    spawned to send on it and its messages in flight; for each side, the futures
    of its message callback and the queue they fill. -/
structure PairWorld where
  backend : Side → Option WebRtcBackend
  receiver : Side → Option WebRtcReceiver
  senders : Side → List WebRtcSender
  tasks : Side → List Bytes
  wire : Side → List Bytes
  callbacks : Side → List Bytes
  incoming : Side → List Bytes

/-- What can happen. -/
inductive PairEvent
  /-- The backend of a side is split. -/
  | split (side : Side)
  /-- The `i`-th sender of a side is cloned. -/
  | clone (side : Side) (i : ℕ)
  /-- `send` is called on the `i`-th sender of a side. -/
  | send (side : Side) (i : ℕ) (dst : PeerKey) (data : Bytes)
  /-- The `j`-th task of a data channel runs, and its send succeeds or not. -/
  | run (dc : Side) (j : ℕ) (ok : Bool)
  /-- The `j`-th message in flight of a data channel is lost. -/
  | lose (dc : Side) (j : ℕ)
  /-- The `j`-th message in flight of a data channel arrives at the other side. -/
  | arrive (dc : Side) (j : ℕ)
  /-- The `j`-th callback future of a side runs. -/
  | callback (side : Side) (j : ℕ)
  /-- The receiver of a side is polled. -/
  | pollRecv (side : Side) (closed : Bool)

namespace PairWorld

/-- What an event does, if it can happen, and what a poll returned. -/
def step (w : PairWorld) : PairEvent → Option (PairWorld × Option Inbound)
  | .split side =>
    match w.backend side with
    | some b =>
      some ({ w with
        backend := Function.update w.backend side none
        receiver := Function.update w.receiver side (some b.split.1)
        senders := Function.update w.senders side (w.senders side ++ [b.split.2]) }, none)
    | none => none
  | .clone side i =>
    match (w.senders side)[i]? with
    | some s =>
      some ({ w with senders := Function.update w.senders side (w.senders side ++ [s]) }, none)
    | none => none
  | .send side i dst data =>
    match (w.senders side)[i]? with
    | some s =>
      match s.send dst data with
      | some (dc, buf) =>
        some ({ w with tasks := Function.update w.tasks dc (w.tasks dc ++ [buf]) }, none)
      | none => some (w, none)
    | none => none
  | .run dc j ok =>
    match (w.tasks dc)[j]? with
    | some buf =>
      some ({ w with
        tasks := Function.update w.tasks dc ((w.tasks dc).eraseIdx j)
        wire := Function.update w.wire dc (w.wire dc ++ if ok then [buf] else []) }, none)
    | none => none
  | .lose dc j =>
    match (w.wire dc)[j]? with
    | some _ =>
      some ({ w with wire := Function.update w.wire dc ((w.wire dc).eraseIdx j) }, none)
    | none => none
  | .arrive dc j =>
    match (w.wire dc)[j]? with
    | some buf =>
      some ({ w with
        wire := Function.update w.wire dc ((w.wire dc).eraseIdx j)
        callbacks := Function.update w.callbacks dc.other (w.callbacks dc.other ++ [buf]) }, none)
    | none => none
  | .callback side j =>
    match (w.callbacks side)[j]? with
    | some buf =>
      some ({ w with
        callbacks := Function.update w.callbacks side ((w.callbacks side).eraseIdx j)
        incoming := Function.update w.incoming side (w.incoming side ++ [buf]) }, none)
    | none => none
  | .pollRecv side closed =>
    match w.receiver side with
    | some r =>
      match r.pollRecv closed (w.incoming r.incoming) with
      | (.ready inb, rest) =>
        some ({ w with incoming := Function.update w.incoming r.incoming rest }, inb)
      | (.pending, _) => some (w, none)
    | none => none

/-- The pair as `connected_backends` returns it. -/
def connected (keyA keyB : PeerKey) : PairWorld where
  backend side := some (side.backend keyA keyB)
  receiver _ := none
  senders _ := []
  tasks _ := []
  wire _ := []
  callbacks _ := []
  incoming _ := []

end PairWorld

/-- The pair built by `connected_backends keyA keyB`. -/
def pairMachine (keyA keyB : PeerKey) : Machine PairWorld PairEvent (Option Inbound) :=
  ⟨{PairWorld.connected keyA keyB}, PairWorld.step⟩

/-! ## What a history shows -/

/-- A step of a run of the pair. -/
abbrev PairTaken := Taken PairWorld PairEvent (Option Inbound)

/-- The bytes a step passes to a sender of `side` with the destination `dst`. -/
def sentIn (side : Side) (dst : PeerKey) (t : PairTaken) : List Bytes :=
  match t.event with
  | .send side' _ dst' data => if side' = side ∧ dst' = dst then [data] else []
  | _ => []

/-- The datagram a step makes the receiver of `side` return. -/
def returnedIn (side : Side) (t : PairTaken) : List Inbound :=
  match t.event with
  | .pollRecv side' _ => if side' = side then t.out.toList else []
  | _ => []

/-- The byte strings passed to the senders of `side` with the destination `dst`. -/
def sentBy (side : Side) (dst : PeerKey) (h : List PairTaken) : List Bytes :=
  h.flatMap (sentIn side dst)

/-- The datagrams returned by the receiver of `side`. -/
def returnedBy (side : Side) (h : List PairTaken) : List Inbound := h.flatMap (returnedIn side)

/-! ## Steps -/

namespace PairWorld

variable {keyA keyB : PeerKey} {w w' : PairWorld} {e : PairEvent} {o : Option Inbound}

/-- Taking the `j`-th item out of a list. -/
theorem coe_eraseIdx {α : Type*} {l : List α} {j : ℕ} {a : α} (h : l[j]? = some a) :
    (l : Multiset α) = {a} + (l.eraseIdx j : Multiset α) := by
  obtain ⟨hj, rfl⟩ := List.getElem?_eq_some_iff.1 h
  rw [Multiset.singleton_add, Multiset.cons_coe, Multiset.coe_eq_coe]
  exact (List.getElem_cons_eraseIdx_perm hj).symm

/-- What a side holds of a pair is what its own backend gave it. -/
structure Crossed (keyA keyB : PeerKey) (w : PairWorld) : Prop where
  backend : ∀ side b, w.backend side = some b → b = side.backend keyA keyB
  receiver : ∀ side r, w.receiver side = some r → r = (side.backend keyA keyB).split.1
  senders : ∀ side, ∀ s ∈ w.senders side, s = (side.backend keyA keyB).split.2

theorem crossed_connected : Crossed keyA keyB (connected keyA keyB) where
  backend _ _ h := (Option.some.inj h).symm
  receiver _ _ h := absurd h (by simp [connected])
  senders _ _ h := absurd h List.not_mem_nil

/-- A step that adds a genuine sender to a side keeps the pair crossed. -/
theorem Crossed.addSender (hc : Crossed keyA keyB w) {side : Side} {s : WebRtcSender}
    (hs : s = (side.backend keyA keyB).split.2) (side' : Side) :
    ∀ s' ∈ Function.update w.senders side (w.senders side ++ [s]) side',
      s' = (side'.backend keyA keyB).split.2 := by
  intro s' hs'
  by_cases h : side' = side
  · subst h
    rw [Function.update_self, List.mem_append, List.mem_singleton] at hs'
    rcases hs' with hs' | rfl
    · exact hc.senders side' s' hs'
    · exact hs
  · rw [Function.update_of_ne h] at hs'
    exact hc.senders side' s' hs'

theorem Crossed.step (hc : Crossed keyA keyB w) (hst : w.step e = some (w', o)) :
    Crossed keyA keyB w' := by
  cases e with
  | split side =>
    simp only [PairWorld.step] at hst
    split at hst
    · next b hb =>
      obtain rfl := hc.backend side b hb
      simp only [Option.some.injEq, Prod.mk.injEq] at hst
      rw [← hst.1]
      refine ⟨fun side' b h => ?_, fun side' r h => ?_, fun side' => hc.addSender rfl side'⟩
      · by_cases hs : side' = side
        · subst hs; simp at h
        · exact hc.backend side' b (by simpa [hs] using h)
      · by_cases hs : side' = side
        · subst hs; simpa using h.symm
        · exact hc.receiver side' r (by simpa [hs] using h)
    · exact absurd hst (by simp)
  | clone side i =>
    simp only [PairWorld.step] at hst
    split at hst
    · next s hs =>
      simp only [Option.some.injEq, Prod.mk.injEq] at hst
      rw [← hst.1]
      exact ⟨hc.backend, hc.receiver,
        fun side' => hc.addSender (hc.senders side s (List.mem_of_getElem? hs)) side'⟩
    · exact absurd hst (by simp)
  | send side i dst data =>
    simp only [PairWorld.step] at hst
    split at hst
    · split at hst <;>
        (simp only [Option.some.injEq, Prod.mk.injEq] at hst; rw [← hst.1]
         exact ⟨hc.backend, hc.receiver, hc.senders⟩)
    · exact absurd hst (by simp)
  | run dc j ok | lose dc j | arrive dc j | callback dc j =>
    simp only [PairWorld.step] at hst
    split at hst
    · simp only [Option.some.injEq, Prod.mk.injEq] at hst
      rw [← hst.1]
      exact ⟨hc.backend, hc.receiver, hc.senders⟩
    · exact absurd hst (by simp)
  | pollRecv side closed =>
    simp only [PairWorld.step] at hst
    split at hst
    · split at hst <;>
        (simp only [Option.some.injEq, Prod.mk.injEq] at hst; rw [← hst.1]
         exact ⟨hc.backend, hc.receiver, hc.senders⟩)
    · exact absurd hst (by simp)

/-- The byte strings on their way to a side: in the tasks of the other side's
    channel, in flight on it, and in the callbacks and the queue of the side. -/
def onTheWay (w : PairWorld) (side : Side) : List Bytes :=
  w.tasks side.other ++ w.wire side.other ++ w.callbacks side ++ w.incoming side

/-- The byte strings on their way to a side, in no order. -/
theorem coe_onTheWay (w : PairWorld) (side : Side) : (w.onTheWay side : Multiset Bytes) =
    w.tasks side.other + w.wire side.other + w.callbacks side + w.incoming side := by
  simp only [onTheWay, ← Multiset.coe_add]

/-- What a step does to the bytes on their way to a side: what its receiver
    returns, tagged with the key of the other side, and what is left on the way
    were on the way, or are passed to a sender of the other side for it. -/
theorem step_onTheWay (hc : Crossed keyA keyB w) (hst : w.step e = some (w', o)) (side : Side) :
    ∃ l : List Bytes,
      returnedIn side ⟨w, e, o⟩ = l.map (Inbound.mk · (side.other.key keyA keyB)) ∧
      (l : Multiset Bytes) + w'.onTheWay side ≤
        w.onTheWay side + sentIn side.other (side.key keyA keyB) ⟨w, e, o⟩ := by
  simp only [coe_onTheWay]
  cases e with
  | split side' | clone side' i =>
    simp only [PairWorld.step] at hst
    split at hst
    · simp only [Option.some.injEq, Prod.mk.injEq] at hst
      rw [← hst.1]
      exact ⟨[], rfl, by simp [sentIn]⟩
    · exact absurd hst (by simp)
  | send side' i dst data =>
    simp only [PairWorld.step] at hst
    split at hst
    · next s hs =>
      obtain rfl := hc.senders side' s (List.mem_of_getElem? hs)
      rw [Side.backend_eq] at hst
      by_cases hdst : dst = side'.other.key keyA keyB
      · simp only [WebRtcBackend.split, WebRtcSender.send, hdst, ne_eq, not_true_eq_false, if_false,
          Option.some.injEq, Prod.mk.injEq] at hst
        rw [← hst.1]
        refine ⟨[], rfl, le_of_eq ?_⟩
        rcases Side.eq_or_eq_other side side' with rfl | rfl
        · simp [sentIn]
        · simp only [Function.update_self, sentIn, hdst, Side.other_other, ← Multiset.coe_add,
            true_and, if_true, Multiset.coe_nil]
          abel
      · simp only [WebRtcBackend.split, WebRtcSender.send, hdst, ne_eq, not_false_eq_true, if_true,
          Option.some.injEq, Prod.mk.injEq] at hst
        rw [← hst.1]
        exact ⟨[], rfl, by simp only [Multiset.coe_nil, zero_add]; exact Multiset.le_add_right _ _⟩
    · exact absurd hst (by simp)
  | run dc j ok =>
    simp only [PairWorld.step] at hst
    split at hst
    · next buf hj =>
      simp only [Option.some.injEq, Prod.mk.injEq] at hst
      rw [← hst.1]
      refine ⟨[], rfl, ?_⟩
      rcases Side.eq_or_eq_other side dc with rfl | rfl
      · simp [sentIn]
      · simp only [Function.update_self, coe_eraseIdx hj, ← Multiset.coe_add]
        cases ok with
        | true =>
          refine le_of_eq ?_
          simp only [sentIn, if_true, Multiset.coe_nil, Multiset.coe_singleton]
          abel
        | false =>
          refine (Multiset.le_add_left _ {buf}).trans_eq ?_
          simp only [sentIn, Bool.false_eq_true, if_false, Multiset.coe_nil]
          abel
    · exact absurd hst (by simp)
  | lose dc j =>
    simp only [PairWorld.step] at hst
    split at hst
    · next buf hj =>
      simp only [Option.some.injEq, Prod.mk.injEq] at hst
      rw [← hst.1]
      refine ⟨[], rfl, ?_⟩
      rcases Side.eq_or_eq_other side dc with rfl | rfl
      · simp [sentIn]
      · simp only [Function.update_self, coe_eraseIdx hj]
        refine (Multiset.le_add_left _ {buf}).trans_eq ?_
        simp only [sentIn, Multiset.coe_nil]
        abel
    · exact absurd hst (by simp)
  | arrive dc j =>
    simp only [PairWorld.step] at hst
    split at hst
    · next buf hj =>
      simp only [Option.some.injEq, Prod.mk.injEq] at hst
      rw [← hst.1]
      refine ⟨[], rfl, le_of_eq ?_⟩
      rcases Side.eq_or_eq_other side dc with rfl | rfl
      · simp [sentIn]
      · simp only [Function.update_self, Side.other_other, coe_eraseIdx hj, ← Multiset.coe_add,
          sentIn, Multiset.coe_nil, Multiset.coe_singleton]
        abel
    · exact absurd hst (by simp)
  | callback side' j =>
    simp only [PairWorld.step] at hst
    split at hst
    · next buf hj =>
      simp only [Option.some.injEq, Prod.mk.injEq] at hst
      rw [← hst.1]
      refine ⟨[], rfl, le_of_eq ?_⟩
      rcases Side.eq_or_eq_other side side' with rfl | rfl
      · simp only [Function.update_self, coe_eraseIdx hj, ← Multiset.coe_add, sentIn,
          Multiset.coe_nil, Multiset.coe_singleton]
        abel
      · simp [sentIn]
    · exact absurd hst (by simp)
  | pollRecv side' closed =>
    simp only [PairWorld.step] at hst
    split at hst
    · next r hr =>
      obtain rfl := hc.receiver side' r hr
      simp only [Side.backend_eq, WebRtcBackend.split, WebRtcReceiver.pollRecv] at hst
      cases hq : w.incoming side' with
      | nil =>
        have ho : returnedIn side ⟨w, .pollRecv side' closed, o⟩ = [] ∧ w' = w := by
          cases closed <;>
            simp only [hq, if_true, if_false, Bool.false_eq_true, Option.some.injEq,
              Prod.mk.injEq] at hst
          · rw [← hst.1, ← hst.2]
            simp [returnedIn]
          · rw [← hst.1, ← hst.2, ← hq, Function.update_eq_self]
            simp [returnedIn]
        exact ⟨[], ho.1, by simp [ho.2, sentIn]⟩
      | cons data rest =>
        simp only [hq, Option.some.injEq, Prod.mk.injEq] at hst
        rw [← hst.1, ← hst.2]
        rcases Side.eq_or_eq_other side side' with rfl | rfl
        · refine ⟨[data], by simp [returnedIn], le_of_eq ?_⟩
          simp only [Function.update_self, hq, sentIn, ← Multiset.cons_coe, Multiset.coe_nil,
            ← Multiset.singleton_add]
          abel
        · exact ⟨[], by simp [returnedIn], by simp [sentIn]⟩
    · exact absurd hst (by simp)

/-- A send to another key than that of the other side leaves no trace. -/
theorem step_send_of_ne (hc : Crossed keyA keyB w) {side : Side} {i : ℕ} {dst : PeerKey}
    {data : Bytes} (hdst : dst ≠ side.other.key keyA keyB)
    (hst : w.step (.send side i dst data) = some (w', o)) : w' = w := by
  simp only [PairWorld.step] at hst
  split at hst
  · next s hs =>
    obtain rfl := hc.senders side s (List.mem_of_getElem? hs)
    simp only [Side.backend_eq, WebRtcBackend.split, WebRtcSender.send, ne_eq, hdst,
      not_false_eq_true, if_true, Option.some.injEq, Prod.mk.injEq] at hst
    exact hst.1.symm
  · exact absurd hst (by simp)

end PairWorld

/-! ## Runs -/

section Runs

open PairWorld

variable {keyA keyB : PeerKey} {h : List PairTaken} {w : PairWorld}

theorem crossed_of_run (hr : (pairMachine keyA keyB).Run h w) : Crossed keyA keyB w :=
  hr.invariant (by rintro _ rfl; exact crossed_connected) fun _ _ _ _ hc hst => hc.step hst

/-- What the receiver of a side has returned and what is on its way there are
    among the byte strings passed to the other side's senders for it. -/
theorem returned_subperm (hr : (pairMachine keyA keyB).Run h w) (side : Side) :
    (returnedBy side h ++ (w.onTheWay side).map (Inbound.mk · (side.other.key keyA keyB))).Subperm
      ((sentBy side.other (side.key keyA keyB) h).map (Inbound.mk · (side.other.key keyA keyB))) := by
  have := hr.conserve .subperm (G := fun _ => True)
    (q := fun w => (w.onTheWay side).map (Inbound.mk · (side.other.key keyA keyB)))
    (fun t => (sentIn side.other (side.key keyA keyB) t).map
      (Inbound.mk · (side.other.key keyA keyB))) (returnedIn side) (by rintro _ rfl; rfl)
    (fun h s e s' o hr hst _ => by
      obtain ⟨l, hl, hle⟩ := step_onTheWay (crossed_of_run hr) hst side
      rw [hl, ← List.map_append, ← List.map_append, ← Multiset.coe_le, ← Multiset.map_coe,
        ← Multiset.map_coe]
      exact ⟨trivial, Multiset.map_le_map (by simpa only [← Multiset.coe_add] using hle)⟩)
    trivial
  simpa only [returnedBy, sentBy, List.map_flatMap] using this

/-- Every datagram returned is tagged with the key of the other side. -/
theorem src_of_returned (hr : (pairMachine keyA keyB).Run h w) {side : Side} {inb : Inbound}
    (hi : inb ∈ returnedBy side h) : inb.src = side.other.key keyA keyB := by
  have := (returned_subperm hr side).subset (List.mem_append_left _ hi)
  obtain ⟨data, -, rfl⟩ := List.mem_map.1 this
  rfl

/-- Safety of a native pair, whatever order tasks run in and messages are lost or
    arrive in. For each side:

    * what its receiver returns is among the byte strings passed to the other
      side's senders with exactly its key, as multisets, each tagged with the
      key of the other side;
    * a datagram its senders are given for any other key, its own included,
      leaves no trace;
    * a reply to the tag of a received datagram is sent on its own channel, the
      one the datagram came from. -/
theorem pair_delivery (hne : keyA ≠ keyB) (hr : (pairMachine keyA keyB).Run h w) (side : Side) :
    (returnedBy side h : Multiset Inbound) ≤
        ↑((sentBy side.other (side.key keyA keyB) h).map
          (Inbound.mk · (side.other.key keyA keyB))) ∧
      (∀ i dst data w' o, dst ≠ side.other.key keyA keyB ∨ dst = side.key keyA keyB →
        w.step (.send side i dst data) = some (w', o) → w' = w) ∧
      ∀ inb ∈ returnedBy side h, ∀ s ∈ w.senders side, ∀ data,
        s.send inb.src data = some (side, data) := by
  have hc := crossed_of_run hr
  refine ⟨?_, fun i dst data w' o hdst hst => ?_, fun inb hi s hs data => ?_⟩
  · exact Multiset.coe_le.2 ((List.sublist_append_left _ _).subperm.trans
      (returned_subperm hr side))
  · have hother : side.key keyA keyB ≠ side.other.key keyA keyB := by
      cases side
      · exact hne
      · exact hne.symm
    rcases hdst with hdst | rfl
    · exact step_send_of_ne hc hdst hst
    · exact step_send_of_ne hc hother hst
  · rw [hc.senders side s hs, src_of_returned hr hi, Side.backend_eq]
    simp [WebRtcBackend.split, WebRtcSender.send]

/-- Two messages, the second arriving first, and one to a key of nobody. -/
theorem pair_delivery_reordered :
    ∃ h w, (pairMachine (.replicate 32 1) (.replicate 32 2)).Run h w ∧
      returnedBy .answerer h = [⟨[8], .replicate 32 1⟩] ∧
      (returnedBy .answerer h : Multiset Inbound) ≤
        ↑((sentBy .offerer (.replicate 32 2) h).map (Inbound.mk · (.replicate 32 1))) := by
  have hr := (Machine.Run.nil (m := pairMachine (.replicate 32 1) (.replicate 32 2))
    (s := connected (.replicate 32 1) (.replicate 32 2)) rfl).exec
    [.split .offerer, .split .answerer, .send .offerer 0 (.replicate 32 2) [7],
      .send .offerer 0 (.replicate 32 3) [9], .send .offerer 0 (.replicate 32 2) [8],
      .run .offerer 0 true, .run .offerer 0 true, .arrive .offerer 1, .callback .answerer 0,
      .pollRecv .answerer false] rfl
  exact ⟨_, _, hr, rfl, (pair_delivery (by decide) hr .answerer).1⟩

end Runs

end IrohWebrtc
