import IrohWebrtc.Adapter
import IrohWebrtc.Lib.Refinement
import Mathlib.Data.List.Nodup
import Mathlib.Data.List.Perm.Subperm

/-!
# The adapter over any backend

The adapter as a layer above a backend (`adapter.rs`), whatever the backend is: a machine
some of whose events are sends and polls of its halves (`Carrier`). A transport parks the
halves until it is bound (`BackendTransport`), an endpoint has them then. Its `poll_recv`
calls poll the receiver one inner poll at a time, its `poll_send` calls hand their pieces
over one by one, and anything may happen to the backend in between.

* `Adapted.refines`: what the adapter does to the backend is a run of the backend.
* `bound_once`: a transport is bound once, whoever calls, so that receivers are polled by
  one endpoint each.
* `Carrier.Faithful`: what a receiver returns has been sent to its key. Then what endpoints
  report has been transmitted to their address (`reported_subperm`).
-/

namespace IrohWebrtc

/-! ## Transports -/

/-- `BackendTransport`: the halves of a backend, parked until the transport is bound. -/
structure BackendTransport (R S : Type*) where
  localAddr : CustomAddr
  parts : Option (R × S)

/-- `BackendEndpoint`. Its `watch` is of one list that never changes. -/
structure BackendEndpoint (R S : Type*) where
  localAddr : CustomAddr
  rx : R
  tx : S
  watch : List CustomAddr

namespace BackendTransport

variable {R S : Type*}

/-- `BackendTransport::new`, of a backend of a local key that is split in two halves. -/
def new (localKey : PeerKey) (halves : R × S) : BackendTransport R S :=
  ⟨addrOf localKey, some halves⟩

/-- `bind`: the transport it leaves, and its result. -/
def bind (t : BackendTransport R S) :
    BackendTransport R S × Except String (BackendEndpoint R S) :=
  match t.parts with
  | some (rx, tx) => ({ t with parts := none }, .ok ⟨t.localAddr, rx, tx, [t.localAddr]⟩)
  | none => (t, .error "backend already bound")

end BackendTransport

/-! ## Backends -/

/-- Backends, named by `N`, as a machine: whose sends can reach a receiver, which of its
    events are sends and polls, and what a poll hands out. -/
structure Carrier (N S E O : Type*) where
  machine : Machine S E O
  localKey : N → PeerKey
  peers : N → N → Bool
  sends : E → Option (N × PeerKey × Bytes)
  polls : E → Option N
  handed : O → Option Inbound
  apart : ∀ e, polls e ≠ none → sends e = none

namespace Carrier

variable {N S E O : Type*} [DecidableEq N] (c : Carrier N S E O)

/-- The datagram a step makes the receiver of `n` return. -/
def returnedIn (n : N) (t : Taken S E O) : List Inbound :=
  if c.polls t.event = some n then (c.handed t.out).toList else []

omit [DecidableEq N] in
/-- The datagram a step sends to the key of `n`, if it is sent by a peer of `n`. -/
def sentIn (n : N) (t : Taken S E O) : List Inbound :=
  match c.sends t.event with
  | some (m, dst, data) =>
    if c.peers n m ∧ dst = c.localKey n then [⟨data, c.localKey m⟩] else []
  | none => []

/-- What receivers return has been sent to their keys, by the peers it is tagged with:
    nothing is made up, altered or doubled. -/
def Faithful : Prop :=
  ∀ h s, c.machine.Run h s → ∀ n, (h.flatMap (c.returnedIn n)).Subperm (h.flatMap (c.sentIn n))

end Carrier

/-! ## The layer of the adapter -/

/-- Backends with transports above them: the endpoints that have been bound, their
    `poll_recv` calls running, with their slots and the number of slots filled, and the
    `poll_send` calls, with their sender and the pieces still to be handed over. -/
structure Adapted (N S : Type*) where
  carrier : S
  transports : N → BackendTransport N N
  endpoints : List (BackendEndpoint N N)
  calls : ℕ → Option (RecvSlots × ℕ)
  sends : List (N × List (PeerKey × Bytes))

/-- What can happen. -/
inductive AdaptedEvent (N E : Type*)
  /-- `bind` is called on a transport. -/
  | bind (n : N)
  /-- A sender of the `i`-th endpoint starts a `poll_send`. -/
  | pollSend (i : ℕ) (dst : CustomAddr) (transmit : Transmit)
  /-- The `j`-th `poll_send` hands its next piece over, which the backend does by `e`. -/
  | send (j : ℕ) (e : E)
  /-- The `i`-th endpoint starts a `poll_recv`. -/
  | pollRecv (i : ℕ) (slots : RecvSlots)
  /-- The `poll_recv` of the `i`-th endpoint makes its next inner poll, which is `e`. -/
  | poll (i : ℕ) (e : E)
  /-- Anything else happens to the backends. -/
  | carrier (e : E)

/-- What a call returns. -/
inductive AdaptedReturn
  | nothing
  | bound (result : Except String Unit)
  | sent (result : Poll (Except String Unit))
  | received (i : ℕ) (slots : RecvSlots) (result : Poll (Except String ℕ))

namespace Adapted

variable {N S E O : Type*}

/-- The state of the `poll_recv` call of the `i`-th endpoint. -/
def setCall (w : Adapted N S) (i : ℕ) : RecvCall → Adapted N S × AdaptedReturn
  | .looping slots count =>
    ({ w with calls := Function.update w.calls i (some (slots, count)) }, .nothing)
  | .returned slots result =>
    ({ w with calls := Function.update w.calls i none }, .received i slots result)

/-- The datagrams in the slots of the `poll_recv` call of the `i`-th endpoint. -/
def inSlots (w : Adapted N S) (i : ℕ) : List (Bytes × CustomAddr) :=
  match w.calls i with
  | some (slots, count) => slots.reports count
  | none => []

@[simp] theorem carrier_setCall (w : Adapted N S) (i : ℕ) (call : RecvCall) :
    (w.setCall i call).1.carrier = w.carrier := by
  cases call <;> rfl

@[simp] theorem endpoints_setCall (w : Adapted N S) (i : ℕ) (call : RecvCall) :
    (w.setCall i call).1.endpoints = w.endpoints := by
  cases call <;> rfl

@[simp] theorem transports_setCall (w : Adapted N S) (i : ℕ) (call : RecvCall) :
    (w.setCall i call).1.transports = w.transports := by
  cases call <;> rfl

@[simp] theorem sends_setCall (w : Adapted N S) (i : ℕ) (call : RecvCall) :
    (w.setCall i call).1.sends = w.sends := by
  cases call <;> rfl

variable [DecidableEq N] (c : Carrier N S E O)

/-- What an event does, if it can happen, what it returns, and what it does to the backends. -/
def step (w : Adapted N S) :
    AdaptedEvent N E → Option (Adapted N S × AdaptedReturn × Option (E × O))
  | .bind n =>
    match (w.transports n).bind with
    | (t, .ok endpoint) =>
      some ({ w with
        transports := Function.update w.transports n t
        endpoints := w.endpoints ++ [endpoint] }, .bound (.ok ()), none)
    | (_, .error e) => some (w, .bound (.error e), none)
  | .pollSend i dst transmit =>
    match w.endpoints[i]? with
    | some endpoint =>
      let (pieces, result) := IrohWebrtc.pollSend dst transmit
      some ({ w with sends := w.sends ++ [(endpoint.tx, pieces)] }, .sent result, none)
    | none => none
  | .send j e =>
    match w.sends[j]? with
    | some (tx, (dst, data) :: rest) =>
      if c.sends e = some (tx, dst, data) then
        (c.machine.step w.carrier e).map fun (s, o) =>
          ({ w with carrier := s, sends := w.sends.set j (tx, rest) }, .nothing, some (e, o))
      else none
    | _ => none
  | .pollRecv i slots =>
    match w.endpoints[i]?, w.calls i with
    | some _, none =>
      let (w, out) := w.setCall i (.start slots)
      some (w, out, none)
    | _, _ => none
  | .poll i e =>
    match w.endpoints[i]?, w.calls i with
    | some endpoint, some (slots, count) =>
      if c.polls e = some endpoint.rx then
        (c.machine.step w.carrier e).map fun (s, o) =>
          let p : Poll (Option Inbound) := match c.handed o with
            | some inb => .ready (some inb)
            | none => .pending
          let (w, out) := { w with carrier := s }.setCall i
            (.resume endpoint.localAddr slots count p)
          (w, out, some (e, o))
      else none
    | _, _ => none
  | .carrier e =>
    if c.sends e = none ∧ c.polls e = none then
      (c.machine.step w.carrier e).map fun (s, o) => ({ w with carrier := s }, .nothing, some (e, o))
    else none

/-- The backends with a transport above each of them. -/
def new (s : S) : Adapted N S where
  carrier := s
  transports n := .new (c.localKey n) (n, n)
  endpoints := []
  calls _ := none
  sends := []

end Adapted

namespace Carrier

variable {N S E O : Type*} [DecidableEq N] (c : Carrier N S E O)

/-- The backends of `c` behind the adapter. -/
def adapted : Machine (Adapted N S) (AdaptedEvent N E) (AdaptedReturn × Option (E × O)) :=
  ⟨{w | ∃ s ∈ c.machine.init, w = Adapted.new c s}, Adapted.step c⟩

end Carrier

/-- A step of a run of backends behind the adapter. -/
abbrev AdaptedTaken (N S E O : Type*) :=
  Taken (Adapted N S) (AdaptedEvent N E) (AdaptedReturn × Option (E × O))

/-! ## What a history shows -/

namespace Adapted

section History

variable {N S E O : Type*}

/-- The datagrams reported by a `poll_recv` call of the `i`-th endpoint that a step lets
    return. -/
def reportedIn (i : ℕ) (t : AdaptedTaken N S E O) : List (Bytes × CustomAddr) :=
  match t.out.1 with
  | .received i' slots (.ready (.ok count)) => if i' = i then slots.reports count else []
  | _ => []

variable [DecidableEq N] (c : Carrier N S E O)

/-- What a call of `bind` on a transport returns in a step. -/
def bindIn (n : N) (t : AdaptedTaken N S E O) : List (Except String Unit) :=
  match t.event, t.out.1 with
  | .bind m, .bound result => if m = n then [result] else []
  | _, _ => []

/-- The pieces for the key of `n` of a `poll_send`, by the sender `m`. -/
def piecesFor (n m : N) (pieces : List (PeerKey × Bytes)) : List Inbound :=
  if c.peers n m then
    (pieces.filter (·.1 = c.localKey n)).map fun p => ⟨p.2, c.localKey m⟩
  else []

/-- The pieces for the key of `n` of a `poll_send` that a step starts at a peer of `n`. -/
def transmittedIn (n : N) (t : AdaptedTaken N S E O) : List Inbound :=
  match t.event with
  | .pollSend i dst transmit =>
    match t.pre.endpoints[i]? with
    | some endpoint => piecesFor c n endpoint.tx (pollSend dst transmit).1
    | none => []
  | _ => []

end History

variable {N S E O : Type*} [DecidableEq N] {c : Carrier N S E O} {w w' : Adapted N S}
  {e : AdaptedEvent N E} {o : AdaptedReturn × Option (E × O)} {i j : ℕ} {n : N}

/-- What a step can do. -/
inductive Moves (c : Carrier N S E O) (w : Adapted N S) :
    AdaptedEvent N E → Adapted N S → AdaptedReturn × Option (E × O) → Prop
  | bind {n rx tx : N} (hparts : (w.transports n).parts = some (rx, tx)) :
      Moves c w (.bind n) { w with
        transports := Function.update w.transports n { w.transports n with parts := none }
        endpoints := w.endpoints ++
          [⟨(w.transports n).localAddr, rx, tx, [(w.transports n).localAddr]⟩] }
        (.bound (.ok ()), none)
  | refuse {n : N} (hparts : (w.transports n).parts = none) :
      Moves c w (.bind n) w (.bound (.error "backend already bound"), none)
  | pollSend {i : ℕ} {dst : CustomAddr} {transmit : Transmit} {endpoint : BackendEndpoint N N}
      (hi : w.endpoints[i]? = some endpoint) :
      Moves c w (.pollSend i dst transmit)
        { w with sends := w.sends ++ [(endpoint.tx, (IrohWebrtc.pollSend dst transmit).1)] }
        (.sent (IrohWebrtc.pollSend dst transmit).2, none)
  | send {j : ℕ} {e : E} {tx : N} {dst : PeerKey} {data : Bytes} {rest : List (PeerKey × Bytes)}
      {s : S} {o : O} (hj : w.sends[j]? = some (tx, (dst, data) :: rest))
      (hsends : c.sends e = some (tx, dst, data))
      (hst : c.machine.step w.carrier e = some (s, o)) :
      Moves c w (.send j e) { w with carrier := s, sends := w.sends.set j (tx, rest) }
        (.nothing, some (e, o))
  | pollRecv {i : ℕ} {slots : RecvSlots} (hcall : w.calls i = none) :
      Moves c w (.pollRecv i slots) (w.setCall i (.start slots)).1
        ((w.setCall i (.start slots)).2, none)
  | poll {i : ℕ} {e : E} {endpoint : BackendEndpoint N N} {slots : RecvSlots} {count : ℕ} {s : S}
      {o : O} {p : Poll (Option Inbound)} (hi : w.endpoints[i]? = some endpoint)
      (hcall : w.calls i = some (slots, count)) (hpolls : c.polls e = some endpoint.rx)
      (hst : c.machine.step w.carrier e = some (s, o))
      (hp : ∀ inb, p = .ready (some inb) ↔ c.handed o = some inb) :
      Moves c w (.poll i e)
        (setCall { w with carrier := s } i (.resume endpoint.localAddr slots count p)).1
        ((setCall { w with carrier := s } i (.resume endpoint.localAddr slots count p)).2,
          some (e, o))
  | carrier {e : E} {s : S} {o : O} (hsends : c.sends e = none) (hpolls : c.polls e = none)
      (hst : c.machine.step w.carrier e = some (s, o)) :
      Moves c w (.carrier e) { w with carrier := s } (.nothing, some (e, o))

theorem moves_of_step (hst : w.step c e = some (w', o)) : Moves c w e w' o := by
  cases e with
  | bind n =>
    simp only [step, BackendTransport.bind] at hst
    cases hparts : (w.transports n).parts with
    | some p =>
      rw [hparts] at hst
      cases hst
      exact .bind hparts
    | none =>
      rw [hparts] at hst
      cases hst
      exact .refuse hparts
  | pollSend i dst transmit =>
    simp only [step] at hst
    split at hst
    · next endpoint hi =>
      cases hst
      exact .pollSend hi
    · cases hst
  | send j e =>
    simp only [step] at hst
    split at hst
    · next tx dst data rest hj =>
      split at hst
      · next hsends =>
        obtain ⟨⟨s, o'⟩, hs, heq⟩ := Option.map_eq_some_iff.1 hst
        cases heq
        exact .send hj hsends hs
      · cases hst
    · cases hst
  | pollRecv i slots =>
    simp only [step] at hst
    split at hst
    · next hcall =>
      cases hst
      exact .pollRecv hcall
    · cases hst
  | poll i e =>
    simp only [step] at hst
    split at hst
    · next endpoint slots count hi hcall =>
      split at hst
      · next hpolls =>
        obtain ⟨⟨s, o'⟩, hs, heq⟩ := Option.map_eq_some_iff.1 hst
        cases heq
        refine .poll hi hcall hpolls hs fun inb => ?_
        cases hhanded : c.handed o' <;> simp
      · cases hst
    · cases hst
  | carrier e =>
    simp only [step] at hst
    split at hst
    · next hno =>
      obtain ⟨⟨s, o'⟩, hs, heq⟩ := Option.map_eq_some_iff.1 hst
      cases heq
      exact .carrier hno.1 hno.2 hs
    · cases hst

/-- What the adapter does to the backends is a run of theirs. -/
theorem refines (c : Carrier N S E O) :
    c.adapted.Refines c.machine (·.carrier) (·.out.2) where
  init := by
    rintro _ ⟨s, hs, rfl⟩
    exact hs
  step w e w' o hst := by
    cases moves_of_step hst with
    | bind | refuse | pollSend | pollRecv => simp [Machine.Step]
    | send _ _ hs | poll _ _ _ hs _ | carrier _ _ hs => simpa [Machine.Step] using hs

/-- The steps of the backends in a history of the adapter. -/
def carried (t : AdaptedTaken N S E O) : Option (Taken S E O) :=
  Machine.refined (·.carrier) (·.out.2) t

omit [DecidableEq N] in
theorem flatMap_carried {X : Type*} (f : Taken S E O → List X)
    (h : List (AdaptedTaken N S E O)) : (h.filterMap carried).flatMap f =
      h.flatMap fun t => (carried t).toList.flatMap f :=
  Machine.flatMap_refined f

theorem run_carried {h : List (AdaptedTaken N S E O)} (hr : c.adapted.Run h w) :
    c.machine.Run (h.filterMap carried) w.carrier :=
  (refines c).run hr

/-! ## Binding -/

/-- The halves of the backends: parked with their transport, or with one endpoint. -/
structure Parked (c : Carrier N S E O) (w : Adapted N S) : Prop where
  localAddr : ∀ n, (w.transports n).localAddr = addrOf (c.localKey n)
  parts : ∀ n, (w.transports n).parts = some (n, n) ∨ (w.transports n).parts = none
  parked : ∀ n, (w.transports n).parts ≠ none ↔ n ∉ w.endpoints.map (·.rx)
  nodup : (w.endpoints.map (·.rx)).Nodup
  endpoints : ∀ endpoint ∈ w.endpoints, endpoint =
    ⟨addrOf (c.localKey endpoint.rx), endpoint.rx, endpoint.rx,
      [addrOf (c.localKey endpoint.rx)]⟩

omit [DecidableEq N] in
theorem parked_new (s : S) : Parked c (new c s) where
  localAddr _ := rfl
  parts _ := .inl rfl
  parked _ := by simp [new, BackendTransport.new]
  nodup := List.nodup_nil
  endpoints _ h := absurd h List.not_mem_nil

theorem Parked.step (hw : Parked c w) (hst : w.step c e = some (w', o)) : Parked c w' := by
  cases moves_of_step hst with
  | @bind n rx tx hparts =>
    obtain ⟨rfl, rfl⟩ : rx = n ∧ tx = n := by
      rcases hw.parts n with h | h <;> rw [hparts] at h <;> cases h
      exact ⟨rfl, rfl⟩
    have hfresh : tx ∉ w.endpoints.map (·.rx) := (hw.parked tx).1 (by simp [hparts])
    refine ⟨fun m => ?_, fun m => ?_, fun m => ?_, ?_, fun endpoint h => ?_⟩
    · rcases eq_or_ne m tx with rfl | hne
      · simpa using hw.localAddr m
      · simpa [hne] using hw.localAddr m
    · rcases eq_or_ne m tx with rfl | hne
      · simp
      · simpa [hne] using hw.parts m
    · rcases eq_or_ne m tx with rfl | hne
      · simp
      · simpa [hne] using hw.parked m
    · rw [List.map_append, List.map_singleton, ← List.concat_eq_append]
      exact List.Nodup.concat hfresh hw.nodup
    · rcases List.mem_append.1 h with h | h
      · exact hw.endpoints endpoint h
      · rw [List.mem_singleton.1 h, hw.localAddr]
  | refuse | pollSend | send | carrier => exact ⟨hw.1, hw.2, hw.3, hw.4, hw.5⟩
  | pollRecv | poll =>
    exact ⟨by simpa using hw.1, by simpa using hw.2, by simpa using hw.3, by simpa using hw.4,
      by simpa using hw.5⟩

section Runs

variable {h : List (AdaptedTaken N S E O)}

theorem parked_of_run (hr : c.adapted.Run h w) : Parked c w :=
  hr.invariant (by rintro _ ⟨s, -, rfl⟩; exact parked_new s) fun _ _ _ _ hw hst => hw.step hst

/-- The calls of `bind` on a transport: the first binds it, the others are refused. -/
theorem binds_of_run (hr : c.adapted.Run h w) (n : N) :
    ((w.transports n).parts ≠ none → h.flatMap (bindIn n) = []) ∧
      ((w.transports n).parts = none → ∃ k, h.flatMap (bindIn n) =
        .ok () :: List.replicate k (.error "backend already bound")) := by
  refine hr.induction (P := fun h w => ((w.transports n).parts ≠ none →
    h.flatMap (bindIn n) = []) ∧ ((w.transports n).parts = none → ∃ k, h.flatMap (bindIn n) =
      .ok () :: List.replicate k (.error "backend already bound"))) ?_ ?_
  · rintro _ ⟨s, -, rfl⟩
    exact ⟨fun _ => rfl, fun h => absurd h (by simp [new, BackendTransport.new])⟩
  · intro h w e w' o _ ih hst
    rw [List.flatMap_append, List.flatMap_singleton]
    cases moves_of_step hst with
    | @bind m rx tx hparts =>
      rcases eq_or_ne n m with rfl | hne
      · refine ⟨fun h => absurd h (by simp), fun _ => ⟨0, ?_⟩⟩
        rw [ih.1 (by simp [hparts])]
        simp [bindIn]
      · simpa [bindIn, hne, hne.symm] using ih
    | @refuse m hparts =>
      rcases eq_or_ne n m with rfl | hne
      · refine ⟨fun h => absurd hparts h, fun _ => ?_⟩
        obtain ⟨k, hk⟩ := ih.2 hparts
        refine ⟨k + 1, ?_⟩
        rw [hk, List.replicate_succ']
        simp [bindIn]
      · simpa [bindIn, hne.symm] using ih
    | pollSend | send | carrier | pollRecv | poll => simpa [bindIn] using ih

/-- Whoever calls `bind` and when, a transport is bound by the first call, and the others
    are refused. The receivers of the endpoints are distinct, and each endpoint has the
    address of its receiver's key and both halves of its backend. -/
theorem bound_once (hr : c.adapted.Run h w) :
    (∀ n, h.flatMap (bindIn n) = [] ∨
      ∃ k, h.flatMap (bindIn n) = .ok () :: List.replicate k (.error "backend already bound")) ∧
    (w.endpoints.map (·.rx)).Nodup ∧
    ∀ endpoint ∈ w.endpoints, endpoint.tx = endpoint.rx ∧
      endpoint.localAddr = addrOf (c.localKey endpoint.rx) ∧
      endpoint.watch = [endpoint.localAddr] := by
  have hparked := parked_of_run hr
  refine ⟨fun n => ?_, hparked.nodup, fun endpoint hep => ?_⟩
  · by_cases hparts : (w.transports n).parts = none
    · exact .inr ((binds_of_run hr n).2 hparts)
    · exact .inl ((binds_of_run hr n).1 hparts)
  · rw [hparked.endpoints endpoint hep]
    exact ⟨rfl, rfl, rfl⟩

/-- Two backends to which nothing happens, one of which is bound twice. -/
theorem bound_once_twice : ∃ (c : Carrier Bool Unit Unit Unit) (h : _) (w : _),
    c.adapted.Run h w ∧
      h.flatMap (bindIn true) = [.ok (), .error "backend already bound"] ∧
      (w.endpoints.map (·.rx)).Nodup := by
  let c : Carrier Bool Unit Unit Unit := ⟨⟨{()}, fun _ _ => none⟩,
    fun b => .replicate 32 b.toUInt8, (· != ·), fun _ => none, fun _ => none, fun _ => none,
    fun _ _ => rfl⟩
  have hr := (Machine.Run.nil (m := c.adapted) (s := Adapted.new c ()) ⟨_, rfl, rfl⟩).exec
    [.bind true, .bind false, .bind true] rfl
  exact ⟨c, _, _, hr, rfl, (bound_once hr).2.1⟩

end Runs

/-! ## Receiving -/

theorem report_injective : Function.Injective Inbound.report := by
  rintro ⟨data, src⟩ ⟨data', src'⟩ h
  simp only [Inbound.report, Prod.mk.injEq, addrOf_inj] at h
  obtain ⟨rfl, rfl⟩ := h
  rfl

/-- Every running call has a slot left to fill. -/
def HasRoom (w : Adapted N S) : Prop :=
  ∀ i slots count, w.calls i = some (slots, count) → count < slots.bufs.length

omit [DecidableEq N] in
theorem hasRoom_setCall {call : RecvCall} (hroom : w.HasRoom) (hcall : call.HasRoom) (i : ℕ) :
    (w.setCall i call).1.HasRoom := by
  intro j slots count h
  cases call <;> rcases eq_or_ne j i with rfl | hne
  · simp only [setCall, Function.update_self, Option.some.injEq, Prod.mk.injEq] at h
    obtain ⟨rfl, rfl⟩ := h
    exact hcall
  · exact hroom j slots count (by simpa [setCall, hne] using h)
  · simp [setCall] at h
  · exact hroom j slots count (by simpa [setCall, hne] using h)

theorem HasRoom.step (hw : w.HasRoom) (hst : w.step c e = some (w', o)) : w'.HasRoom := by
  cases moves_of_step hst with
  | bind | refuse | pollSend | send | carrier => exact hw
  | @pollRecv i slots => exact hasRoom_setCall hw (RecvCall.hasRoom_start slots) i
  | @poll i e endpoint slots count s o p hi hcall =>
    have hroom : HasRoom { w with carrier := s } := hw
    exact hasRoom_setCall hroom (RecvCall.hasRoom_resume _ p (hw i slots count hcall)) i

omit [DecidableEq N] in
/-- A step lets a call go on or return: what it reports and has in its slots are the
    datagrams of the call. -/
theorem reported_setCall {v : Option (E × O)} (w₀ : Adapted N S) (i : ℕ) (call : RecvCall) :
    reportedIn i ⟨w, e, (w₀.setCall i call).2, v⟩ ++ (w₀.setCall i call).1.inSlots i =
      call.reports := by
  cases call with
  | looping slots count => simp [setCall, reportedIn, inSlots, RecvCall.reports]
  | returned slots result =>
    cases result with
    | ready res => cases res <;> simp [setCall, reportedIn, inSlots, RecvCall.reports]
    | pending => simp [setCall, reportedIn, inSlots, RecvCall.reports]

omit [DecidableEq N] in
/-- The calls of other endpoints are not concerned. -/
theorem reported_setCall_of_ne {v : Option (E × O)} (w₀ : Adapted N S) (h : j ≠ i)
    (call : RecvCall) :
    reportedIn i ⟨w, e, (w₀.setCall j call).2, v⟩ ++ (w₀.setCall j call).1.inSlots i =
      w₀.inSlots i := by
  cases call with
  | looping slots count => simp [setCall, reportedIn, inSlots, h.symm]
  | returned slots result =>
    cases result with
    | ready res => cases res <;> simp [setCall, reportedIn, inSlots, h.symm, h]
    | pending => simp [setCall, reportedIn, inSlots, h.symm]

/-- The datagrams the receiver of `n` hands out in a step. -/
def returnedIn (c : Carrier N S E O) (n : N) (t : AdaptedTaken N S E O) : List Inbound :=
  (carried t).toList.flatMap (c.returnedIn n)

/-- The `i`-th endpoint is on the receiver of `n`, if it is there yet. -/
def EndpointOn (w : Adapted N S) (i : ℕ) (n : N) : Prop :=
  ∀ endpoint, w.endpoints[i]? = some endpoint → endpoint.rx = n

omit [DecidableEq N] in
theorem reports_resume_sublist (self : CustomAddr) {slots : RecvSlots} {count : ℕ}
    {p : Poll (Option Inbound)} {handed : Option Inbound} (hroom : count < slots.bufs.length)
    (hp : ∀ inb, p = .ready (some inb) ↔ handed = some inb) :
    (RecvCall.resume self slots count p).reports.Sublist
      (slots.reports count ++ handed.toList.map Inbound.report) := by
  cases handed with
  | none =>
    rw [RecvCall.reports_resume_of_idle _ _ _ fun inb h => by simpa using (hp inb).1 h]
    simp
  | some inb =>
    rw [(hp inb).2 rfl, RecvCall.reports_resume self inb hroom]
    refine List.Sublist.append_left ?_ _
    split_ifs
    · exact .refl _
    · exact List.nil_sublist _

/-- What a step reports and leaves in the slots of a call was there, or comes from the
    receiver. -/
theorem reported_step (hroom : w.HasRoom) (hst : w.step c e = some (w', o))
    (hon : w'.EndpointOn i n) :
    w.EndpointOn i n ∧ (reportedIn i ⟨w, e, o⟩ ++ w'.inSlots i).Sublist
      (w.inSlots i ++ (returnedIn c n ⟨w, e, o⟩).map Inbound.report) := by
  cases moves_of_step hst with
  | bind hparts =>
    refine ⟨fun endpoint h => hon endpoint ?_, by simp [reportedIn, inSlots]⟩
    rw [List.getElem?_append_left (List.getElem?_eq_some_iff.1 h).1]
    exact h
  | refuse | pollSend | send | carrier => exact ⟨hon, by simp [reportedIn, inSlots]⟩
  | @pollRecv j slots hcall =>
    refine ⟨by simpa [EndpointOn] using hon, ?_⟩
    rcases eq_or_ne j i with rfl | hne
    · rw [reported_setCall, RecvCall.reports_start]
      exact List.nil_sublist _
    · rw [reported_setCall_of_ne _ hne]
      exact List.sublist_append_left _ _
  | @poll j e endpoint slots count s o p hj hcall hpolls hs hp =>
    refine ⟨by simpa [EndpointOn] using hon, ?_⟩
    rcases eq_or_ne j i with rfl | hne
    · have hrx : endpoint.rx = n := hon endpoint (by simpa using hj)
      have hreturned : ∀ ret, returnedIn c n ⟨w, .poll j e, ret, some (e, o)⟩ =
          (c.handed o).toList := by
        simp [returnedIn, carried, Machine.refined, Carrier.returnedIn, hpolls, hrx]
      have hslots : w.inSlots j = slots.reports count := by rw [inSlots, hcall]
      rw [reported_setCall, hreturned, hslots]
      exact reports_resume_sublist _ (hroom j slots count hcall) hp
    · rw [reported_setCall_of_ne _ hne]
      exact List.sublist_append_left _ _

/-! ## Sending -/

/-- The pieces for the key of `n` that are still to be handed over, with their senders. -/
def pendingFor (c : Carrier N S E O) (n : N) (w : Adapted N S) : List Inbound :=
  w.sends.flatMap fun p => piecesFor c n p.1 p.2

/-- What a step sends to the key of `n`. -/
def sentIn (c : Carrier N S E O) (n : N) (t : AdaptedTaken N S E O) : List Inbound :=
  (carried t).toList.flatMap (c.sentIn n)

omit [DecidableEq N] in
theorem perm_set {α β : Type*} {l : List α} {a b : α} {x : List β} (f : α → List β)
    (hj : l[j]? = some a) (hx : x ++ f b = f a) : (x ++ (l.set j b).flatMap f).Perm (l.flatMap f) := by
  induction l generalizing j with
  | nil => simp at hj
  | cons d l ih =>
    cases j with
    | zero =>
      obtain rfl : d = a := by simpa using hj
      rw [List.set_cons_zero, List.flatMap_cons, List.flatMap_cons, ← List.append_assoc, hx]
    | succ j =>
      rw [List.set_cons_succ, List.flatMap_cons, List.flatMap_cons]
      refine (List.perm_append_comm_assoc _ _ _).trans ?_
      exact (ih (by simpa using hj)).append_left _

/-- What a step sends and leaves to be handed over was there, or is transmitted. -/
theorem sent_step (hst : w.step c e = some (w', o)) (n : N) :
    (sentIn c n ⟨w, e, o⟩ ++ pendingFor c n w').Perm
      (pendingFor c n w ++ transmittedIn c n ⟨w, e, o⟩) := by
  cases moves_of_step hst with
  | bind | refuse => simp [sentIn, carried, Machine.refined, pendingFor, transmittedIn]
  | pollSend hi =>
    simp [sentIn, carried, Machine.refined, pendingFor, transmittedIn, hi]
  | @send j e tx dst data rest s o hj hsends hs =>
    have hsent : sentIn c n ⟨w, .send j e, .nothing, some (e, o)⟩ =
        if c.peers n tx ∧ dst = c.localKey n then [⟨data, c.localKey tx⟩] else [] := by
      simp [sentIn, carried, Machine.refined, Carrier.sentIn, hsends]
    rw [hsent]
    refine (perm_set _ hj ?_).trans (by simp [transmittedIn, pendingFor])
    by_cases hpeers : c.peers n tx
    · by_cases hdst : dst = c.localKey n <;> simp [piecesFor, hpeers, hdst]
    · simp [piecesFor, hpeers]
  | pollRecv => simp [sentIn, carried, Machine.refined, pendingFor, transmittedIn]
  | @poll j e endpoint slots count s o p hj hcall hpolls hs hp =>
    simp [sentIn, carried, Machine.refined, Carrier.sentIn, c.apart e (by simp [hpolls]),
      pendingFor, transmittedIn]
  | carrier hsends hpolls hs =>
    simp [sentIn, carried, Machine.refined, Carrier.sentIn, hsends, pendingFor, transmittedIn]

/-! ## Runs -/

section Runs

variable {h : List (AdaptedTaken N S E O)}

theorem hasRoom_of_run (hr : c.adapted.Run h w) : w.HasRoom :=
  hr.invariant (by rintro _ ⟨s, -, rfl⟩ i slots count h; cases h)
    fun _ _ _ _ hroom hst => hroom.step hst

/-- An endpoint reports what its receiver hands out. -/
theorem reported_sublist_returned (hr : c.adapted.Run h w) (hon : w.EndpointOn i n) :
    (h.flatMap (reportedIn i)).Sublist
      (((h.filterMap carried).flatMap (c.returnedIn n)).map Inbound.report) := by
  have hcons := hr.conserve .sublist (G := fun w => w.EndpointOn i n) (q := (·.inSlots i))
    (fun t => (returnedIn c n t).map Inbound.report) (reportedIn i)
    (by rintro _ ⟨s, -, rfl⟩; rfl)
    (fun h s e s' o hr hst hon => reported_step (hasRoom_of_run hr) hst hon) hon
  rw [← List.map_flatMap] at hcons
  rw [flatMap_carried]
  exact (List.sublist_append_left _ _).trans hcons

/-- What is sent to the key of `n` has been transmitted. -/
theorem sent_subperm (hr : c.adapted.Run h w) (n : N) :
    ((h.filterMap carried).flatMap (c.sentIn n)).Subperm (h.flatMap (transmittedIn c n)) := by
  have hcons := hr.conserve .subperm (G := fun _ => True) (q := pendingFor c n)
    (transmittedIn c n) (sentIn c n) (by rintro _ ⟨s, -, rfl⟩; rfl)
    (fun h s e s' o _ hst _ => ⟨trivial, (sent_step hst n).subperm⟩) trivial
  rw [flatMap_carried]
  exact (List.sublist_append_left _ _).subperm.trans hcons

/-- Over faithful backends, an endpoint reports what has been transmitted to its address:
    the pieces its peers' `poll_send` calls cut of what they were given for it, as they are,
    each no more often than it was given, with the address of the peer that sent it. -/
theorem reported_subperm (hc : c.Faithful) (hr : c.adapted.Run h w)
    {endpoint : BackendEndpoint N N} (hi : w.endpoints[i]? = some endpoint) :
    (h.flatMap (reportedIn i)).Subperm
      ((h.flatMap (transmittedIn c endpoint.rx)).map Inbound.report) := by
  have hon : w.EndpointOn i endpoint.rx := fun endpoint' hi' => by
    rw [hi] at hi'
    rw [Option.some.inj hi']
  have hfaithful := hc _ _ (run_carried hr) endpoint.rx
  exact (reported_sublist_returned hr hon).subperm.trans
    ((hfaithful.trans (sent_subperm hr _)).map report_injective)

end Runs

end Adapted

end IrohWebrtc
