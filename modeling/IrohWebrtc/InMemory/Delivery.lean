import IrohWebrtc.Adapter
import IrohWebrtc.InMemory
import IrohWebrtc.Lib.Machine

/-!
# Delivery over the in-memory network

Endpoints on a shared in-memory network, each behind the adapter: backends are
registered and bound, `poll_send` calls hand their segments to the network one
by one, and `poll_recv` calls poll their receiver one inner poll at a time.
Everything may happen in between: a key may be registered again in the middle
of a batch, and datagrams pushed in the middle of a `poll_recv` call.

What becomes of a datagram is read off the history of a run, for a channel `r`
registered under the key `k`:

* `addressedTo`: the segments handed to the network for `k` while `r` was the
  current registration of `k`, with what `r`'s queue held at that moment;
* `takenBy`: the datagrams taken off `r`'s queue, with the size of the slot met;
* `reportedBy`: the datagrams reported by the calls that have returned.

Two conservation laws account for all of them. What was not sent to a full
queue has been taken off the queue or is still in it (`accepted_eq`); what was
taken and fitted its slot has been reported, or sits in a slot of the call
still running (`fitting_eq`).
-/

namespace IrohWebrtc

/-- Endpoints on the in-memory network: the network, the backends whose halves
    an endpoint has taken, the `poll_recv` calls running, with their slots and
    the number of slots filled, and the `poll_send` calls, with the key of
    their sender and the backend sends still to be made. -/
structure MemWorld where
  net : MemNetwork
  bound : ℕ → Bool
  calls : ℕ → Option (RecvSlots × ℕ)
  sends : List (PeerKey × List (PeerKey × Bytes))

/-- What can happen. -/
inductive MemEvent
  /-- `MemNetwork::backend` registers a key. -/
  | backend (key : PeerKey)
  /-- An endpoint is bound on the `r`-th backend. -/
  | bind (r : ℕ)
  /-- A sender of the `r`-th endpoint starts a `poll_send` addressed to `dst`. -/
  | pollSend (r : ℕ) (dst : PeerKey) (transmit : Transmit)
  /-- The `j`-th `poll_send` makes its next backend send. -/
  | send (j : ℕ)
  /-- The `r`-th endpoint starts a `poll_recv`. -/
  | pollRecv (r : ℕ) (slots : RecvSlots)
  /-- The `poll_recv` of the `r`-th endpoint makes its next inner poll. -/
  | poll (r : ℕ) (budget : Bool)
  /-- The receive half of the `r`-th backend is dropped. -/
  | drop (r : ℕ)

/-- A `poll_recv` call that returned: of which endpoint, with what. -/
abbrev MemReturn := Option (ℕ × RecvSlots × Poll (Except String ℕ))

namespace MemWorld

/-- The state of the `poll_recv` call of the `r`-th endpoint. -/
def setCall (w : MemWorld) (r : ℕ) : RecvCall → MemWorld × MemReturn
  | .looping slots count => ({ w with calls := Function.update w.calls r (some (slots, count)) }, none)
  | .returned slots result =>
    ({ w with calls := Function.update w.calls r none }, some (r, slots, result))

/-- What an event does, if it can happen. -/
def step (w : MemWorld) : MemEvent → Option (MemWorld × MemReturn)
  | .backend key => some ({ w with net := (w.net.backend key).1 }, none)
  | .bind r =>
    -- A second bind is refused, and changes nothing.
    if r < w.net.chans.length then
      some ({ w with bound := Function.update w.bound r true }, none)
    else none
  | .pollSend r dst transmit =>
    match w.bound r, w.net.keyOfChan r with
    | true, some key =>
      some ({ w with sends := w.sends ++ [(key, (IrohWebrtc.pollSend (addrOf dst) transmit).1)] },
        none)
    | _, _ => none
  | .send j =>
    match w.sends[j]? with
    | some (key, (dst, data) :: rest) =>
      some ({ w with net := w.net.send key dst data, sends := w.sends.set j (key, rest) }, none)
    | _ => none
  | .pollRecv r slots =>
    match w.bound r, w.net.chans[r]?, w.calls r with
    | true, some c, none => if c.rxAlive then some (w.setCall r (.start slots)) else none
    | _, _, _ => none
  | .poll r budget =>
    match w.net.keyOfChan r, w.calls r with
    | some key, some (slots, count) =>
      some ({ w with net := (w.net.pollRecv r budget).1 }.setCall r
        (.resume (addrOf key) slots count (w.net.pollRecv r budget).2))
    | _, _ => none
  | .drop r =>
    match w.calls r with
    | none => some ({ w with net := w.net.dropReceiver r }, none)
    | some _ => none

/-- The empty network, and nothing running. -/
def new : MemWorld := ⟨.new, fun _ => false, fun _ => none, []⟩

/-- The datagrams in the slots of the running `poll_recv` call. -/
def inSlots (w : MemWorld) (r : ℕ) : List (Bytes × CustomAddr) :=
  match w.calls r with
  | some (slots, count) => slots.reports count
  | none => []

end MemWorld

/-- The endpoints on an in-memory network, initially empty. -/
def memMachine : Machine MemWorld MemEvent MemReturn := ⟨{MemWorld.new}, MemWorld.step⟩

/-! ## What a history shows -/

/-- A step of a run of the network. -/
abbrev MemTaken := Taken MemWorld MemEvent MemReturn

/-- A segment handed to the network: what its queue held then, its sender's key
    and its bytes. -/
structure Segment where
  held : ℕ
  src : PeerKey
  data : Bytes

/-- The datagram a segment becomes. -/
def Segment.inbound (o : Segment) : Inbound := ⟨o.data, o.src⟩

/-- The segment a step hands to the network for `k`, if `r` is then the current
    registration of `k`. -/
def addressedBy (k : PeerKey) (r : ℕ) (t : MemTaken) : List Segment :=
  match t.event with
  | .send j =>
    match t.pre.sends[j]? with
    | some (src, (dst, data) :: _) =>
      if dst = k ∧ t.pre.net.inner k = some r then [⟨(t.pre.net.queued r).length, src, data⟩] else []
    | _ => []
  | _ => []

/-- The datagram a step takes off `r`'s queue, with the size of the slot met. -/
def takenIn (r : ℕ) (t : MemTaken) : List (ℕ × Inbound) :=
  match t.event with
  | .poll r' budget =>
    match t.pre.calls r', (t.pre.net.pollRecv r' budget).2 with
    | some (slots, count), .ready (some inb) => if r' = r then [(slots.size count, inb)] else []
    | _, _ => []
  | _ => []

/-- The datagrams reported by a `poll_recv` call that a step lets return. -/
def reportedIn (r : ℕ) (t : MemTaken) : List (Bytes × CustomAddr) :=
  match t.out with
  | some (r', slots, .ready (.ok count)) => if r' = r then slots.reports count else []
  | _ => []

variable (k : PeerKey) (r : ℕ) (h : List MemTaken)

/-- The segments addressed to `k` while `r` was its current registration. -/
def addressedTo : List Segment := h.flatMap (addressedBy k r)

/-- The datagrams taken off `r`'s queue, with the slots they met. -/
def takenBy : List (ℕ × Inbound) := h.flatMap (takenIn r)

/-- The datagrams reported by `r`'s `poll_recv` calls: their bytes and source. -/
def reportedBy : List (Bytes × CustomAddr) := h.flatMap (reportedIn r)

/-- A segment did not meet a full queue. -/
def Segment.accepted (o : Segment) : Bool := o.held ≠ memCapacity

/-- A datagram fits the slot it met. -/
def fits (p : ℕ × Inbound) : Bool := p.2.data.length ≤ p.1

/-! ## Steps -/

namespace MemWorld

variable {w w' : MemWorld} {e : MemEvent} {o : MemReturn} {k : PeerKey} {r : ℕ}

/-- What an event can do to the network. -/
inductive NetChange (w : MemWorld) : MemEvent → MemNetwork → Prop
  | backend (key : PeerKey) : NetChange w (.backend key) (w.net.backend key).1
  | bind (r : ℕ) : NetChange w (.bind r) w.net
  | pollSend (r : ℕ) (dst : PeerKey) (transmit : Transmit) :
      NetChange w (.pollSend r dst transmit) w.net
  | send {j : ℕ} {src dst : PeerKey} {data : Bytes} {rest : List (PeerKey × Bytes)} :
      w.sends[j]? = some (src, (dst, data) :: rest) →
      NetChange w (.send j) (w.net.send src dst data)
  | pollRecv (r : ℕ) (slots : RecvSlots) : NetChange w (.pollRecv r slots) w.net
  | poll {r budget} {call : RecvSlots × ℕ} : w.calls r = some call →
      NetChange w (.poll r budget) (w.net.pollRecv r budget).1
  | drop (r : ℕ) : NetChange w (.drop r) (w.net.dropReceiver r)

@[simp] theorem net_setCall (w : MemWorld) (r : ℕ) (c : RecvCall) :
    (w.setCall r c).1.net = w.net := by
  cases c <;> rfl

/-- What a step does to the network. -/
theorem step_net (hst : w.step e = some (w', o)) : NetChange w e w'.net := by
  cases e with
  | backend key =>
    simp only [step, Option.some.injEq, Prod.mk.injEq] at hst
    rw [← hst.1]
    exact .backend key
  | bind r =>
    simp only [step, Option.ite_none_right_eq_some, Option.some.injEq, Prod.mk.injEq] at hst
    rw [← hst.2.1]
    exact .bind r
  | pollSend r dst transmit =>
    simp only [step] at hst
    split at hst
    · simp only [Option.some.injEq, Prod.mk.injEq] at hst
      rw [← hst.1]
      exact .pollSend r dst transmit
    · exact absurd hst (by simp)
  | send j =>
    simp only [step] at hst
    split at hst
    · next hj =>
      simp only [Option.some.injEq, Prod.mk.injEq] at hst
      rw [← hst.1]
      exact .send hj
    · exact absurd hst (by simp)
  | pollRecv r slots =>
    simp only [step] at hst
    split at hst
    · simp only [Option.ite_none_right_eq_some, Option.some.injEq] at hst
      rw [show w' = (w', o).1 from rfl, ← hst.2, net_setCall]
      exact .pollRecv r slots
    · exact absurd hst (by simp)
  | poll r budget =>
    simp only [step] at hst
    split at hst
    · next hc =>
      simp only [Option.some.injEq] at hst
      rw [show w' = (w', o).1 from rfl, ← hst, net_setCall]
      exact .poll hc
    · exact absurd hst (by simp)
  | drop r =>
    simp only [step] at hst
    split at hst
    · simp only [Option.some.injEq, Prod.mk.injEq] at hst
      rw [← hst.1]
      exact .drop r
    · exact absurd hst (by simp)

variable {n' : MemNetwork}

/-- The key of a channel never changes. -/
theorem NetChange.keyOfChan (hn : NetChange w e n') (hk : w.net.keyOfChan r = some k) :
    n'.keyOfChan r = some k := by
  cases hn with
  | backend key =>
    have hr : r ≠ w.net.chans.length := by
      rintro rfl
      simp [MemNetwork.keyOfChan] at hk
    rw [MemNetwork.keyOfChan_backend, if_neg hr, hk]
  | bind | pollSend | pollRecv => exact hk
  | send hj => rw [MemNetwork.keyOfChan_send, hk]
  | poll hc => rw [MemNetwork.keyOfChan_pollRecv, hk]
  | drop => rw [MemNetwork.keyOfChan_dropReceiver, hk]

/-- A dropped receiving half stays dropped. -/
theorem NetChange.dropped (hn : NetChange w e n') (hd : w.net.Dropped r) : n'.Dropped r := by
  cases hn with
  | backend key => exact (MemNetwork.dropped_backend_iff ..).2 hd
  | bind | pollSend | pollRecv => exact hd
  | send hj => exact (MemNetwork.dropped_send_iff ..).2 hd
  | poll hc => exact (MemNetwork.dropped_pollRecv_iff ..).2 hd
  | drop => exact MemNetwork.dropped_dropReceiver _ _ hd

/-- The registry maps a key to a channel registered under it. -/
def Registry (n : MemNetwork) : Prop := ∀ k r, n.inner k = some r → n.keyOfChan r = some k

theorem NetChange.registry (hn : NetChange w e n') (hreg : Registry w.net) : Registry n' := by
  intro k r hk
  have hold (h : w.net.inner k = some r) : n'.keyOfChan r = some k := hn.keyOfChan (hreg k r h)
  cases hn with
  | backend key =>
    by_cases hkey : k = key
    · subst hkey
      simp only [MemNetwork.backend, Function.update_self, Option.some.injEq] at hk
      rw [MemNetwork.keyOfChan_backend, if_pos hk.symm]
    · exact hold (by simpa [MemNetwork.backend, hkey] using hk)
  | bind | pollSend | pollRecv | drop => exact hold hk
  | send hj => exact hold (by simpa using hk)
  | poll hc => exact hold (by simpa using hk)

/-- What a step does to the queue of a channel of the key `k`: what it takes off
    and leaves is what was queued and what it adds, unless the receiving half is
    dropped. -/
theorem NetChange.queued (hn : NetChange w e n') (hreg : Registry w.net)
    (hk : ∀ k', n'.keyOfChan r = some k' → k' = k) :
    (takenIn r ⟨w, e, o⟩).map Prod.snd ++ n'.queued r =
        w.net.queued r ++ ((addressedBy k r ⟨w, e, o⟩).filter Segment.accepted).map Segment.inbound ∨
      (n'.Dropped r ∧ takenIn r ⟨w, e, o⟩ = [] ∧ (n'.queued r).Sublist (w.net.queued r)) := by
  cases hn with
  | backend key => exact .inl (by simp [takenIn, addressedBy])
  | bind | pollSend | pollRecv => exact .inl (by simp [takenIn, addressedBy])
  | @send j src dst data rest hj =>
    by_cases hd : w.net.Dropped r
    · refine .inr ⟨(MemNetwork.dropped_send_iff ..).2 hd, rfl, ?_⟩
      rw [MemNetwork.queued_send_of_dropped _ _ hd]
    · refine .inl ?_
      by_cases hdst : w.net.inner dst = some r
      · -- The channel is the current registration of `dst`, so `dst` is its key.
        have hkey := hreg dst r hdst
        obtain rfl : dst = k := hk dst (by rwa [MemNetwork.keyOfChan_send])
        rw [MemNetwork.queued_send _ _ hdst hkey hd]
        by_cases hfull : (w.net.queued r).length = memCapacity <;>
          simp [takenIn, addressedBy, hj, hdst, Segment.accepted, Segment.inbound, hfull]
      · rw [MemNetwork.queued_send_of_ne _ _ hdst]
        have : ¬(dst = k ∧ w.net.inner k = some r) := fun ⟨h, h'⟩ => hdst (h ▸ h')
        simp [takenIn, addressedBy, hj, this]
  | @poll r' budget call hc =>
    refine .inl ?_
    by_cases hr : r' = r
    · subst hr
      cases hp : (w.net.pollRecv r' budget).2 with
      | ready opt =>
        cases opt with
        | some inb =>
          simp [takenIn, addressedBy, hc, hp, MemNetwork.queued_pollRecv_of_ready _ _ hp]
        | none =>
          rw [MemNetwork.pollRecv_of_not_ready _ _ _ (by simp [hp])]
          simp [takenIn, addressedBy, hc, hp]
      | pending =>
        rw [MemNetwork.pollRecv_of_not_ready _ _ _ (by simp [hp])]
        simp [takenIn, addressedBy, hc, hp]
    · have : takenIn r ⟨w, .poll r' budget, o⟩ = [] := by
        simp only [takenIn, hr, if_false]
        split <;> rfl
      rw [this, MemNetwork.queued_pollRecv_of_ne _ _ hr]
      simp [addressedBy]
  | drop r' =>
    by_cases hr : r' = r
    · subst hr
      cases hkey : w.net.keyOfChan r' with
      | none =>
        have hq : w.net.queued r' = [] := by
          simp only [MemNetwork.keyOfChan, Option.map_eq_none_iff] at hkey
          simp [MemNetwork.queued, hkey]
        exact .inl (by simp [takenIn, addressedBy, MemNetwork.queued_dropReceiver_self, hq])
      | some k' =>
        refine .inr ⟨MemNetwork.dropped_dropReceiver_self _ _ hkey, rfl, ?_⟩
        rw [MemNetwork.queued_dropReceiver_self]
        exact List.nil_sublist _
    · refine .inl ?_
      rw [MemNetwork.queued_dropReceiver_of_ne _ _ hr]
      simp [takenIn, addressedBy]

/-- Every running call has a slot left to fill. -/
def HasRoom (w : MemWorld) : Prop :=
  ∀ r slots count, w.calls r = some (slots, count) → count < slots.bufs.length

/-- A step lets a call go on or return: what it reports and has in its slots
    are the datagrams of the call. -/
theorem reported_setCall (w₀ : MemWorld) (r : ℕ) (c : RecvCall) :
    reportedIn r ⟨w, e, (w₀.setCall r c).2⟩ ++ (w₀.setCall r c).1.inSlots r = c.reports := by
  cases c with
  | looping slots count => simp [setCall, reportedIn, inSlots, RecvCall.reports]
  | returned slots result =>
    cases result with
    | ready res => cases res <;> simp [setCall, reportedIn, inSlots, RecvCall.reports]
    | pending => simp [setCall, reportedIn, inSlots, RecvCall.reports]

/-- The calls of other endpoints are not concerned. -/
theorem reported_setCall_of_ne (w₀ : MemWorld) {r r' : ℕ} (h : r' ≠ r) (c : RecvCall) :
    reportedIn r ⟨w, e, (w₀.setCall r' c).2⟩ ++ (w₀.setCall r' c).1.inSlots r = w₀.inSlots r := by
  cases c with
  | looping slots count => simp [setCall, reportedIn, inSlots, Function.update_of_ne h.symm]
  | returned slots result =>
    cases result with
    | ready res => cases res <;> simp [setCall, reportedIn, inSlots, Function.update_of_ne h.symm, h]
    | pending => simp [setCall, reportedIn, inSlots, Function.update_of_ne h.symm]

theorem hasRoom_setCall {w₀ : MemWorld} (hroom : HasRoom w₀) {c : RecvCall} (hc : c.HasRoom)
    (r : ℕ) : HasRoom (w₀.setCall r c).1 := by
  intro r' slots count h
  cases c <;> by_cases hr : r' = r
  · subst hr
    simp only [setCall, Function.update_self, Option.some.injEq, Prod.mk.injEq] at h
    obtain ⟨rfl, rfl⟩ := h
    exact hc
  · exact hroom r' slots count (by simpa [setCall, hr] using h)
  · simp [setCall, hr] at h
  · exact hroom r' slots count (by simpa [setCall, hr] using h)

/-- What an event can do to the running `poll_recv` calls: nothing, starting
    one, or letting one make its next inner poll. -/
inductive CallChange (w : MemWorld) : MemEvent → MemWorld × MemReturn → Prop
  | none {e : MemEvent} {w' : MemWorld} : w'.calls = w.calls →
      (∀ r budget, e ≠ .poll r budget) → CallChange w e (w', .none)
  | start {r : ℕ} (slots : RecvSlots) : w.calls r = .none →
      CallChange w (.pollRecv r slots) (w.setCall r (.start slots))
  | resume {r : ℕ} {slots : RecvSlots} {count : ℕ} (self : CustomAddr) (budget : Bool) :
      w.calls r = some (slots, count) →
      CallChange w (.poll r budget) (setCall { w with net := (w.net.pollRecv r budget).1 } r
        (.resume self slots count (w.net.pollRecv r budget).2))

/-- What a step does to the running calls. -/
theorem step_calls (hst : w.step e = some (w', o)) : CallChange w e (w', o) := by
  cases e with
  | backend key =>
    simp only [step, Option.some.injEq] at hst
    rw [← hst]
    exact .none rfl (by simp)
  | bind r =>
    simp only [step, Option.ite_none_right_eq_some, Option.some.injEq] at hst
    rw [← hst.2]
    exact .none rfl (by simp)
  | pollSend r dst transmit =>
    simp only [step] at hst
    split at hst
    · rw [← Option.some.inj hst]
      exact .none rfl (by simp)
    · exact absurd hst (by simp)
  | send j =>
    simp only [step] at hst
    split at hst
    · rw [← Option.some.inj hst]
      exact .none rfl (by simp)
    · exact absurd hst (by simp)
  | pollRecv r slots =>
    simp only [step] at hst
    split at hst
    · next hcall =>
      simp only [Option.ite_none_right_eq_some, Option.some.injEq] at hst
      rw [← hst.2]
      exact .start slots hcall
    · exact absurd hst (by simp)
  | poll r budget =>
    simp only [step] at hst
    split at hst
    · next hcall =>
      rw [← Option.some.inj hst]
      exact .resume _ budget hcall
    · exact absurd hst (by simp)
  | drop r =>
    simp only [step] at hst
    split at hst
    · rw [← Option.some.inj hst]
      exact .none rfl (by simp)
    · exact absurd hst (by simp)

variable {p : MemWorld × MemReturn}

theorem CallChange.hasRoom (hc : CallChange w e p) (hroom : HasRoom w) : HasRoom p.1 := by
  cases hc with
  | none hcalls _ => exact fun r slots count h => hroom r slots count (hcalls ▸ h)
  | start slots _ => exact hasRoom_setCall hroom (RecvCall.hasRoom_start slots) _
  | @resume r slots count self budget hcall =>
    have hroom' : HasRoom { w with net := (w.net.pollRecv r budget).1 } := hroom
    exact hasRoom_setCall hroom' (RecvCall.hasRoom_resume self _ (hroom r slots count hcall)) r

/-- What a step does to the slots of a running call: what it reports and leaves
    is what was there and what it takes that fits. -/
theorem CallChange.inSlots (hc : CallChange w e p) (hroom : HasRoom w) :
    reportedIn r ⟨w, e, p.2⟩ ++ p.1.inSlots r =
      w.inSlots r ++ ((takenIn r ⟨w, e, p.2⟩).filter fits).map fun p => p.2.report := by
  cases hc with
  | none hcalls hpoll =>
    have htaken : takenIn r ⟨w, e, .none⟩ = [] := by
      cases e with
      | poll r budget => exact absurd rfl (hpoll r budget)
      | _ => rfl
    simp [reportedIn, htaken, MemWorld.inSlots, hcalls]
  | @start r' slots hcall =>
    by_cases hr : r' = r
    · subst hr
      rw [reported_setCall, RecvCall.reports_start]
      simp [takenIn, MemWorld.inSlots, hcall]
    · rw [reported_setCall_of_ne _ hr]
      simp [takenIn]
  | @resume r' slots count self budget hcall =>
    by_cases hr : r' = r
    · subst hr
      rw [reported_setCall]
      have hslots : w.inSlots r' = slots.reports count := by simp [MemWorld.inSlots, hcall]
      cases hp : (w.net.pollRecv r' budget).2 with
      | ready opt =>
        cases opt with
        | some inb =>
          rw [RecvCall.reports_resume _ _ (hroom _ _ _ hcall), hslots]
          by_cases hfit : inb.data.length ≤ slots.size count <;>
            simp [takenIn, hcall, hp, fits, hfit]
        | none =>
          rw [RecvCall.reports_resume_of_idle _ _ _ (by simp), hslots]
          simp [takenIn, hcall, hp]
      | pending =>
        rw [RecvCall.reports_resume_of_idle _ _ _ (by simp), hslots]
        simp [takenIn, hcall, hp]
    · have htaken (o : MemReturn) : takenIn r ⟨w, .poll r' budget, o⟩ = [] := by
        simp only [takenIn, hr, if_false]
        split <;> rfl
      rw [reported_setCall_of_ne _ hr]
      simp [htaken, MemWorld.inSlots]

end MemWorld

/-! ## Runs -/

section Runs

open MemWorld

variable {h : List MemTaken} {w : MemWorld} {k : PeerKey} {r : ℕ}

theorem registry_of_run (hr : memMachine.Run h w) : Registry w.net :=
  hr.invariant (I := fun w => Registry w.net)
    (by rintro _ rfl k r hk; exact absurd hk (by simp [new, MemNetwork.new]))
    fun _ _ _ _ hreg hst => (step_net hst).registry hreg

theorem hasRoom_of_run (hr : memMachine.Run h w) : HasRoom w :=
  hr.invariant (by rintro _ rfl r slots count hc; exact absurd hc (by simp [new]))
    fun _ _ _ _ hroom hst => (step_calls hst).hasRoom hroom

/-- While its receiving half is there, what was not sent to `r`'s queue when it
    was full has been taken off the queue or is still in it, in order. -/
theorem accepted_eq (hr : memMachine.Run h w) (hk : w.net.keyOfChan r = some k)
    (hd : ¬w.net.Dropped r) :
    (takenBy r h).map Prod.snd ++ w.net.queued r =
      ((addressedTo k r h).filter Segment.accepted).map Segment.inbound := by
  have hG : (∀ k', w.net.keyOfChan r = some k' → k' = k) ∧ ¬w.net.Dropped r :=
    ⟨fun k' h' => Option.some.inj (h'.symm.trans hk), hd⟩
  have := hr.conserve .eq (q := fun w => w.net.queued r)
    (G := fun w => (∀ k', w.net.keyOfChan r = some k' → k' = k) ∧ ¬w.net.Dropped r)
    (fun t => ((addressedBy k r t).filter Segment.accepted).map Segment.inbound)
    (fun t => (takenIn r t).map Prod.snd) (by rintro _ rfl; rfl)
    (fun h s e s' o hr hst hG => by
      have hn := step_net hst
      refine ⟨⟨fun k' hk' => hG.1 k' (hn.keyOfChan hk'), fun hd => hG.2 (hn.dropped hd)⟩, ?_⟩
      rcases hn.queued (o := o) (registry_of_run hr) hG.1 with heq | ⟨hd, -, -⟩
      · exact heq
      · exact absurd hd hG.2) hG
  simpa only [takenBy, addressedTo, List.filter_flatMap, List.map_flatMap] using this

/-- Whether or not its receiving half is there, what was taken off `r`'s queue
    or is in it is some of what was addressed to it, in order. -/
theorem taken_sublist (hr : memMachine.Run h w) (hk : w.net.keyOfChan r = some k) :
    ((takenBy r h).map Prod.snd ++ w.net.queued r).Sublist
      (((addressedTo k r h).filter Segment.accepted).map Segment.inbound) := by
  have hG : ∀ k', w.net.keyOfChan r = some k' → k' = k :=
    fun k' h' => Option.some.inj (h'.symm.trans hk)
  have := hr.conserve .sublist (q := fun w => w.net.queued r)
    (G := fun w => ∀ k', w.net.keyOfChan r = some k' → k' = k)
    (fun t => ((addressedBy k r t).filter Segment.accepted).map Segment.inbound)
    (fun t => (takenIn r t).map Prod.snd) (by rintro _ rfl; rfl)
    (fun h s e s' o hr hst hG => by
      have hn := step_net hst
      refine ⟨fun k' hk' => hG k' (hn.keyOfChan hk'), ?_⟩
      rcases hn.queued (o := o) (registry_of_run hr) hG with heq | ⟨-, htaken, hsub⟩
      · rw [heq]
      · simpa [htaken] using hsub.trans (List.sublist_append_left _ _)) hG
  simpa only [takenBy, addressedTo, List.filter_flatMap, List.map_flatMap] using this

/-- What was taken off `r`'s queue and fitted its slot has been reported, or is
    in a slot of the running call, in order. -/
theorem fitting_eq (hr : memMachine.Run h w) :
    reportedBy r h ++ w.inSlots r = ((takenBy r h).filter fits).map fun p => p.2.report := by
  have := hr.conserve .eq (q := fun w => w.inSlots r) (G := fun _ => True)
    (fun t => ((takenIn r t).filter fits).map fun p => p.2.report)
    (reportedIn r) (by rintro _ rfl; rfl)
    (fun h s e s' o hr hst _ => ⟨trivial, (step_calls hst).inSlots (hasRoom_of_run hr)⟩) trivial
  simpa only [takenBy, reportedBy, List.filter_flatMap, List.map_flatMap] using this

/-- Every report is one of the segments addressed to `r`, in order. -/
theorem reported_sublist (hr : memMachine.Run h w) (hk : w.net.keyOfChan r = some k) :
    (reportedBy r h).Sublist ((addressedTo k r h).map fun o => o.inbound.report) := by
  calc (reportedBy r h).Sublist (reportedBy r h ++ w.inSlots r) := List.sublist_append_left ..
    _ = ((takenBy r h).filter fits).map fun p => p.2.report := fitting_eq hr
    _ = (((takenBy r h).filter fits).map Prod.snd).map Inbound.report := by simp
    (((takenBy r h).filter fits).map Prod.snd).map Inbound.report |>.Sublist
        (((takenBy r h).map Prod.snd ++ w.net.queued r).map Inbound.report) := by
      refine List.Sublist.map _ (.trans ?_ (List.sublist_append_left ..))
      exact List.filter_sublist.map _
    _ |>.Sublist ((((addressedTo k r h).filter Segment.accepted).map Segment.inbound).map
        Inbound.report) := (taken_sublist hr hk).map _
    _ |>.Sublist ((addressedTo k r h).map fun o => o.inbound.report) := by
      rw [List.map_map]
      exact List.filter_sublist.map _

/-- Delivery over the in-memory network. For a receiver `r` registered under `k`:

    * what it reports with the source `s` is a subsequence of the segments the
      senders of key `s` addressed to `k` while `r` was its current
      registration, and every report is one of those, in order;
    * while its receive half is not dropped, every such segment was sent to a
      queue holding its capacity, or was taken off the queue and found longer
      than the slot it met, or is reported, in a slot of the running call, or
      still queued; and none is counted twice: what was not sent to a full queue
      is what was taken off and then what is queued, and what was taken and
      fitted is what is reported and then what the running call has. -/
theorem memNetwork_delivery (hr : memMachine.Run h w) (hk : w.net.keyOfChan r = some k) :
    (∀ s, (((reportedBy r h).filter (·.2 = addrOf s)).map Prod.fst).Sublist
        (((addressedTo k r h).filter (·.src = s)).map Segment.data)) ∧
      (reportedBy r h).Sublist ((addressedTo k r h).map fun o => (o.data, addrOf o.src)) ∧
      (¬w.net.Dropped r →
        (∀ o ∈ addressedTo k r h, o.held = memCapacity ∨
          (∃ slot, (slot, o.inbound) ∈ takenBy r h ∧ slot < o.data.length) ∨
          (o.data, addrOf o.src) ∈ reportedBy r h ++ w.inSlots r ∨ o.inbound ∈ w.net.queued r) ∧
        ((addressedTo k r h).filter (·.held ≠ memCapacity)).map Segment.inbound =
          (takenBy r h).map Prod.snd ++ w.net.queued r ∧
        ((takenBy r h).filter fun p => p.2.data.length ≤ p.1).map (fun p => p.2.report) =
          reportedBy r h ++ w.inSlots r) := by
  have hsub := reported_sublist hr hk
  refine ⟨fun s => ?_, hsub, fun hd => ⟨fun o ho => ?_, (accepted_eq hr hk hd).symm,
    (fitting_eq hr).symm⟩⟩
  · have := (hsub.filter fun p => p.2 = addrOf s).map Prod.fst
    simpa [List.filter_map, Function.comp_def, Segment.inbound, Inbound.report] using this
  · refine or_iff_not_imp_left.2 fun hheld => ?_
    -- It was accepted, so it was taken off the queue or is still in it.
    have hacc : o.inbound ∈ (takenBy r h).map Prod.snd ++ w.net.queued r := by
      rw [accepted_eq hr hk hd]
      exact List.mem_map_of_mem (List.mem_filter.2 ⟨ho, by simpa [Segment.accepted] using hheld⟩)
    rcases List.mem_append.1 hacc with htaken | hqueued
    · obtain ⟨⟨slot, inb⟩, htaken, rfl⟩ := List.mem_map.1 htaken
      rcases Nat.lt_or_ge slot o.data.length with hbig | hfit
      · exact .inl ⟨slot, htaken, hbig⟩
      · refine .inr (.inl ?_)
        rw [fitting_eq hr]
        exact List.mem_map_of_mem (f := fun p : ℕ × Inbound => p.2.report)
          (List.mem_filter.2 ⟨htaken, decide_eq_true hfit⟩)
    · exact .inr (.inr hqueued)

/-- Two endpoints, and a batch of two segments from the first to the second. -/
theorem memNetwork_delivery_batch :
    ∃ h w, memMachine.Run h w ∧ reportedBy 1 h = [([1, 2], addrOf (.replicate 32 7)),
        ([3], addrOf (.replicate 32 7))] ∧
      (reportedBy 1 h).Sublist ((addressedTo (.replicate 32 9) 1 h).map fun o =>
        (o.data, addrOf o.src)) := by
  have hr := (Machine.Run.nil (m := memMachine) (s := .new) rfl).exec
    [.backend (.replicate 32 7), .backend (.replicate 32 9), .bind 0, .bind 1,
      .pollSend 0 (.replicate 32 9) ⟨[1, 2, 3], some 2⟩, .send 0, .send 0,
      .pollRecv 1 ⟨[[0, 0], [0, 0]], [⟨0, 0⟩, ⟨0, 0⟩],
        [⟨⟨0, []⟩, none⟩, ⟨⟨0, []⟩, none⟩], rfl, rfl⟩, .poll 1 true, .poll 1 true] rfl
  exact ⟨_, _, hr, rfl, (memNetwork_delivery hr rfl).2.1⟩

end Runs

end IrohWebrtc
