import IrohWebrtc.Adapter
import IrohWebrtc.InMemory
import IrohWebrtc.Lib.Machine

/-!
# No lost wakeup

A driver calls `poll_recv`, sleeps when the call is pending, and calls it again
when it is woken, while others push into the backend's receiver or close it. A
receiver (`DatagramReceiver`) is given by its operations, each with the wakes it
issues, together with the contract it honours; what the contract leaves open is
a choice `C` of the operation. That of the in-memory network honours it
(`memReceiver`).

The adapter returns from several places, and only some of them leave a waker
registered. What a pending return leaves behind is `Armed`: a wake already
issued, or an empty queue with the waker registered, or an empty queue closed
for good. Pushing, closing and polling keep it so.
-/

namespace IrohWebrtc

/-- A backend receiver honouring the contract of `DatagramReceiver`: its queue,
    whether it is closed, the waker registered, and its operations with the
    wakes they issue. -/
structure DatagramReceiver (σ C W : Type*) where
  queue : σ → List Inbound
  closed : σ → Prop
  waker : σ → Option W
  poll : C → W → σ → σ × Poll (Option Inbound) × List W
  push : C → Inbound → σ → σ × List W
  close : C → σ → σ × List W
  /-- Pending is returned with an empty queue and the waker registered, or after
      scheduling a wake. -/
  poll_pending : ∀ c w s, (poll c w s).2.1 = .pending →
    w ∈ (poll c w s).2.2 ∨ queue (poll c w s).1 = [] ∧ waker (poll c w s).1 = some w
  /-- `Ready(None)` is returned only when closed and drained. -/
  poll_none : ∀ c w s, (poll c w s).2.1 = .ready none →
    closed (poll c w s).1 ∧ queue (poll c w s).1 = []
  /-- A push wakes the registered waker, unless it drops the datagram. -/
  push_wakes : ∀ c inb s w, waker s = some w →
    w ∈ (push c inb s).2 ∨ queue (push c inb s).1 = queue s ∧ waker (push c inb s).1 = some w
  /-- Nothing is pushed into a closed queue. -/
  push_closed : ∀ c inb s, closed s → closed (push c inb s).1 ∧ queue (push c inb s).1 = queue s
  /-- Closing wakes the registered waker. -/
  close_wakes : ∀ c s w, waker s = some w → w ∈ (close c s).2
  /-- Closing leaves what is queued. -/
  close_closed : ∀ c s, closed (close c s).1 ∧ queue (close c s).1 = queue s

/-- The driver and the receiver: the `poll_recv` call running, with its waker,
    its slots and the number of slots filled, or the result of the most recent
    call with its waker; and the wakes issued since that call started. -/
structure Driver (σ W : Type*) where
  rx : σ
  call : Option (W × RecvSlots × ℕ)
  last : Option (W × Poll (Except String ℕ))
  wakes : List W

/-- What can happen: a push, a close, the driver calling `poll_recv`, and the
    running call making its next inner poll. -/
inductive DriverEvent (C W : Type*)
  | push (c : C) (inb : Inbound)
  | close (c : C)
  | pollRecv (w : W) (slots : RecvSlots)
  | poll (c : C)

namespace Driver

variable {σ C W : Type*} (R : DatagramReceiver σ C W) (self : CustomAddr)

/-- What an event does, if it can happen. -/
def step (d : Driver σ W) : DriverEvent C W → Option (Driver σ W × Unit)
  | .push c inb =>
    some ({ d with rx := (R.push c inb d.rx).1, wakes := d.wakes ++ (R.push c inb d.rx).2 }, ())
  | .close c => some ({ d with rx := (R.close c d.rx).1, wakes := d.wakes ++ (R.close c d.rx).2 }, ())
  | .pollRecv w slots =>
    match d.call, RecvCall.start slots with
    -- A call has at least one slot, and then starts looping.
    | none, .looping slots count => some (⟨d.rx, some (w, slots, count), none, []⟩, ())
    | _, _ => none
  | .poll c =>
    match d.call with
    | some (w, slots, count) =>
      let (rx, p, wakes) := R.poll c w d.rx
      match RecvCall.resume self slots count p with
      | .looping slots count => some (⟨rx, some (w, slots, count), none, d.wakes ++ wakes⟩, ())
      | .returned _ result => some (⟨rx, none, some (w, result), d.wakes ++ wakes⟩, ())
    | none => none

/-- The driver of an endpoint at the address `self`, over any state of the receiver. -/
def machine : Machine (Driver σ W) (DriverEvent C W) Unit where
  init := {d | d.call = none ∧ d.last = none}
  step := step R self

/-- What a pending return leaves behind for its waker: a wake issued, or an empty
    queue with the waker registered, or an empty queue closed for good. -/
def Armed (d : Driver σ W) (w : W) : Prop :=
  w ∈ d.wakes ∨ R.queue d.rx = [] ∧ (R.waker d.rx = some w ∨ R.closed d.rx)

/-- After a pending return, the driver is armed. -/
def Inv (d : Driver σ W) : Prop := ∀ w, d.last = some (w, .pending) → d.Armed R w

variable {R self} {d d' : Driver σ W} {w : W}

theorem Armed.push (ha : d.Armed R w) (c : C) (inb : Inbound) :
    Armed R { d with rx := (R.push c inb d.rx).1, wakes := d.wakes ++ (R.push c inb d.rx).2 } w := by
  rcases ha with hw | ⟨hq, hw | hc⟩
  · exact .inl (List.mem_append_left _ hw)
  · rcases R.push_wakes c inb d.rx w hw with hw' | ⟨hq', hw'⟩
    · exact .inl (List.mem_append_right _ hw')
    · exact .inr ⟨hq'.trans hq, .inl hw'⟩
  · obtain ⟨hc', hq'⟩ := R.push_closed c inb d.rx hc
    exact .inr ⟨hq'.trans hq, .inr hc'⟩

theorem Armed.close (ha : d.Armed R w) (c : C) :
    Armed R { d with rx := (R.close c d.rx).1, wakes := d.wakes ++ (R.close c d.rx).2 } w := by
  rcases ha with hw | ⟨hq, -⟩
  · exact .inl (List.mem_append_left _ hw)
  · obtain ⟨hc', hq'⟩ := R.close_closed c d.rx
    exact .inr ⟨hq'.trans hq, .inr hc'⟩

/-- A call returns pending only when its last inner poll handed nothing out. -/
theorem resume_pending {slots slots' : RecvSlots} {count : ℕ} {p : Poll (Option Inbound)}
    (h : RecvCall.resume self slots count p = .returned slots' .pending) :
    p = .pending ∨ p = .ready none := by
  cases p with
  | pending => exact .inl rfl
  | ready opt =>
    cases opt with
    | none => exact .inr rfl
    | some inb =>
      simp only [RecvCall.resume, RecvCall.finish] at h
      split_ifs at h <;> simp_all

theorem inv_step {e : DriverEvent C W} {o : Unit} (hi : d.Inv R)
    (hst : d.step R self e = some (d', o)) : d'.Inv R := by
  cases e with
  | push c inb =>
    simp only [step, Option.some.injEq, Prod.mk.injEq] at hst
    rw [← hst.1]
    exact fun w hw => (hi w hw).push c inb
  | close c =>
    simp only [step, Option.some.injEq, Prod.mk.injEq] at hst
    rw [← hst.1]
    exact fun w hw => (hi w hw).close c
  | pollRecv w slots =>
    simp only [step] at hst
    split at hst
    · simp only [Option.some.injEq, Prod.mk.injEq] at hst
      rw [← hst.1]
      exact fun w hw => absurd hw (by simp)
    · exact absurd hst (by simp)
  | poll c =>
    simp only [step] at hst
    split at hst
    · next w slots count hcall =>
      split at hst
      · simp only [Option.some.injEq, Prod.mk.injEq] at hst
        rw [← hst.1]
        exact fun w hw => absurd hw (by simp)
      · next slots' result hres =>
        simp only [Option.some.injEq, Prod.mk.injEq] at hst
        rw [← hst.1]
        intro w' hw'
        simp only [Option.some.injEq, Prod.mk.injEq] at hw'
        obtain ⟨rfl, rfl⟩ := hw'
        -- The call returned pending, so its last inner poll was idle or closed.
        rcases resume_pending hres with hp | hp
        · rcases R.poll_pending c w d.rx hp with hw | ⟨hq, hw⟩
          · exact .inl (List.mem_append_right _ hw)
          · exact .inr ⟨hq, .inl hw⟩
        · obtain ⟨hc, hq⟩ := R.poll_none c w d.rx hp
          exact .inr ⟨hq, .inr hc⟩
    · exact absurd hst (by simp)

theorem inv_of_run {h : List (Taken (Driver σ W) (DriverEvent C W) Unit)}
    (hr : (machine R self).Run h d) : d.Inv R := by
  refine Machine.Run.invariant (I := fun d => d.Inv R) ?_ ?_ hr
  · intro d hd w hw
    exact absurd (hd.2.symm.trans hw) (by simp)
  · exact fun _ _ _ _ hi hst => inv_step hi hst

end Driver

/-! ## The in-memory receiver -/

namespace MemNetwork

variable {W : Type*} (r : ℕ)

/-- The channel is closed: the registry does not hold its sending half. -/
def Closed (net : MemNetwork) : Prop := ∀ k, net.keyOfChan r = some k → net.inner k ≠ some r

/-- `MemReceiver::poll_recv` with its waker: an idle poll registers it, and a
    poll out of budget wakes it at once. -/
def poll (budget : Bool) (w : W) (s : MemNetwork × Option W) :
    (MemNetwork × Option W) × Poll (Option Inbound) × List W :=
  match s.1.pollRecv r budget with
  | (net, .pending) =>
    if budget then ((net, some w), .pending, []) else ((net, s.2), .pending, [w])
  | (net, p) => ((net, s.2), p, [])

/-- `MemSender::send` to the key of the channel: a datagram queued wakes the receiver. -/
def push (inb : Inbound) (s : MemNetwork × Option W) : (MemNetwork × Option W) × List W :=
  match s.1.keyOfChan r with
  | some k =>
    let net := s.1.send inb.src k inb.data
    if net.queued r = s.1.queued r then ((net, s.2), []) else ((net, none), s.2.toList)
  | none => (s, [])

/-- Registering the key of the channel again drops its sending half, which wakes
    the receiver. -/
def close (s : MemNetwork × Option W) : (MemNetwork × Option W) × List W :=
  match s.1.keyOfChan r with
  | some k => (((s.1.backend k).1, none), s.2.toList)
  | none => ((s.1, none), s.2.toList)

theorem poll_pending (budget : Bool) (w : W) (s : MemNetwork × Option W)
    (h : (poll r budget w s).2.1 = .pending) : w ∈ (poll r budget w s).2.2 ∨
      (poll r budget w s).1.1.queued r = [] ∧ (poll r budget w s).1.2 = some w := by
  simp only [poll] at h ⊢
  split at h
  · next net hp =>
    have hnet : net = s.1 := by
      rw [← s.1.pollRecv_of_not_ready r budget (by simp [hp]), hp]
    cases budget with
    | true => exact .inr ⟨by rw [hnet]; exact s.1.queued_of_pending r (by rw [hp]), rfl⟩
    | false => exact .inl (by simp)
  · next net p hne hp => exact absurd h hne

theorem poll_none (budget : Bool) (w : W) (s : MemNetwork × Option W)
    (h : (poll r budget w s).2.1 = .ready none) :
    Closed r (poll r budget w s).1.1 ∧ (poll r budget w s).1.1.queued r = [] := by
  simp only [poll] at h ⊢
  split at h
  · cases budget <;> simp at h
  · next net p hne hp =>
    obtain rfl : p = .ready none := h
    have hnet : net = s.1 := by
      rw [← s.1.pollRecv_of_not_ready r budget (by simp [hp]), hp]
    obtain ⟨hq, hc⟩ := s.1.closed_of_ready_none r budget (by rw [hp])
    rw [hnet]
    exact ⟨hc, hq⟩

theorem push_wakes (inb : Inbound) (s : MemNetwork × Option W) (w : W) (hw : s.2 = some w) :
    w ∈ (push r inb s).2 ∨
      (push r inb s).1.1.queued r = s.1.queued r ∧ (push r inb s).1.2 = some w := by
  unfold push
  split
  · next k hk =>
    by_cases h : (s.1.send inb.src k inb.data).queued r = s.1.queued r
    · exact .inr (by rw [if_pos h]; exact ⟨h, hw⟩)
    · exact .inl (by simp [h, hw])
  · exact .inr ⟨rfl, hw⟩

theorem push_closed (inb : Inbound) (s : MemNetwork × Option W) (hc : Closed r s.1) :
    Closed r (push r inb s).1.1 ∧ (push r inb s).1.1.queued r = s.1.queued r := by
  unfold push
  split
  · next k hk =>
    have hq := s.1.queued_send_of_ne r (hc k hk) inb.src inb.data
    rw [if_pos hq]
    exact ⟨fun k' hk' => by simpa using hc k' (by rwa [keyOfChan_send] at hk'), hq⟩
  · exact ⟨hc, rfl⟩

theorem close_closed (s : MemNetwork × Option W) :
    Closed r (close r s).1.1 ∧ (close r s).1.1.queued r = s.1.queued r := by
  unfold close
  split
  · next k hk =>
    -- The registry now holds a channel that did not exist.
    have hr : r ≠ s.1.chans.length := by
      rintro rfl
      simp [keyOfChan] at hk
    refine ⟨fun k' hk' => ?_, queued_backend ..⟩
    rw [keyOfChan_backend, if_neg hr, hk] at hk'
    simpa [backend, ← Option.some.inj hk'] using hr.symm
  · next hk => exact ⟨fun k hk' => absurd (hk.symm.trans hk') (by simp), rfl⟩

theorem close_wakes (s : MemNetwork × Option W) (w : W) (hw : s.2 = some w) :
    w ∈ (close r s).2 := by
  unfold close
  split <;> simp [hw]

end MemNetwork

/-- The receiver of the channel `r` of an in-memory network. -/
def memReceiver (W : Type*) (r : ℕ) : DatagramReceiver (MemNetwork × Option W) Bool W where
  queue s := s.1.queued r
  closed s := s.1.Closed r
  waker s := s.2
  poll := MemNetwork.poll r
  push _ := MemNetwork.push r
  close _ := MemNetwork.close r
  poll_pending := MemNetwork.poll_pending r
  poll_none := MemNetwork.poll_none r
  push_wakes _ := MemNetwork.push_wakes r
  push_closed _ := MemNetwork.push_closed r
  close_wakes _ := MemNetwork.close_wakes r
  close_closed _ := MemNetwork.close_closed r

/-! ## The driver never sleeps on a queued datagram -/

/-- No lost wakeup: over any receiver honouring the contract, when the most
    recent `poll_recv` returned pending and a datagram is queued, the waker of
    that call has been woken since the call started. -/
theorem no_lost_wakeup {σ C W : Type*} {R : DatagramReceiver σ C W} {self : CustomAddr}
    {h : List (Taken (Driver σ W) (DriverEvent C W) Unit)} {d : Driver σ W} {w : W}
    (hr : (Driver.machine R self).Run h d) (hl : d.last = some (w, .pending))
    (hq : R.queue d.rx ≠ []) : w ∈ d.wakes := by
  rcases Driver.inv_of_run hr w hl with hw | ⟨hq', -⟩
  · exact hw
  · exact absurd hq' hq

/-- A call that only discards a datagram pushed while it runs, and a datagram
    pushed after it returned. -/
theorem no_lost_wakeup_discard :
    ∃ h d, (Driver.machine (memReceiver ℕ 0) (addrOf (.replicate 32 7))).Run h d ∧
      (memReceiver ℕ 0).queue d.rx = [⟨[3], .replicate 32 9⟩] ∧ 5 ∈ d.wakes := by
  have hr := (Machine.Run.nil (m := Driver.machine (memReceiver ℕ 0) (addrOf (.replicate 32 7)))
    (s := ⟨((MemNetwork.new.backend (.replicate 32 7)).1, none), none, none, []⟩) ⟨rfl, rfl⟩).exec
    [.pollRecv 5 ⟨[[0]], [⟨0, 0⟩], [⟨⟨0, []⟩, none⟩], rfl, rfl⟩,
      .push true ⟨[1, 2], .replicate 32 9⟩, .poll true, .poll true,
      .push true ⟨[3], .replicate 32 9⟩] rfl
  exact ⟨_, _, hr, rfl,
    no_lost_wakeup hr rfl (List.cons_ne_nil (⟨[3], .replicate 32 9⟩ : Inbound) [])⟩

end IrohWebrtc
