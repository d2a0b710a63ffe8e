import IrohWebrtc.Datagram
import IrohWebrtc.Lib.Queue

/-!
# The in-memory network

A shared registry of bounded channels keyed by peer (`in_memory.rs`). The
channels ever created are numbered in the order of their creation, and the
registry maps a key to the channel whose sending half it holds: registering a
key again replaces the sending half, and the receiver of the old channel is
left with what is still queued for it.

A network handle stays alive throughout, so that a channel is closed exactly
when the registry no longer holds its sending half.
-/

namespace IrohWebrtc

/-- The capacity of a channel. -/
def memCapacity : ℕ := 1024

/-- A channel of the network: the key it was registered under, the datagrams
    queued, and whether its receiving half is still there. -/
structure MemChan where
  key : PeerKey
  queue : BoundedQueue Inbound memCapacity
  rxAlive : Bool

/-- The network: the channels created so far, and the registry. -/
structure MemNetwork where
  chans : List MemChan
  inner : PeerKey → Option ℕ

/-- The backend handed to an endpoint: its key and its receiving half. -/
structure MemBackend where
  key : PeerKey
  rx : ℕ

namespace MemNetwork

/-- An empty network. -/
def new : MemNetwork := ⟨[], fun _ => none⟩

/-- Registering a key: a new channel, whose sending half replaces what the
    registry held under the key. -/
def backend (net : MemNetwork) (key : PeerKey) : MemNetwork × MemBackend :=
  (⟨net.chans ++ [⟨key, .empty, true⟩], Function.update net.inner key (some net.chans.length)⟩,
    ⟨key, net.chans.length⟩)

/-- `mpsc::Sender::try_send`: refused when the receiving half is gone or the
    queue is full, and the datagram is dropped. -/
def trySend (net : MemNetwork) (tx : ℕ) (inb : Inbound) : MemNetwork :=
  { net with chans := net.chans.modify tx fun c =>
      if c.rxAlive then { c with queue := (c.queue.tryPush inb).getD c.queue } else c }

/-- `MemSender::send`: look the destination up, and try to send. -/
def send (net : MemNetwork) (src dst : PeerKey) (data : Bytes) : MemNetwork :=
  match net.inner dst with
  | some tx => net.trySend tx ⟨data, src⟩
  | none => net

/-- `MemReceiver::poll_recv`: the oldest datagram queued; on an empty queue,
    closed or idle. Without a `budget` the poll is pending whatever is queued:
    the runtime makes a task that has polled too much yield. -/
def pollRecv (net : MemNetwork) (rx : ℕ) (budget : Bool) : MemNetwork × Poll (Option Inbound) :=
  match net.chans[rx]? with
  | none => (net, .ready none)
  | some c =>
    if !budget then (net, .pending)
    else
      match c.queue.pop with
      | some (inb, queue) =>
        ({ net with chans := net.chans.set rx { c with queue := queue } }, .ready (some inb))
      | none => (net, if net.inner c.key = some rx then .pending else .ready none)

/-- Dropping a receiving half drops what is queued for it. -/
def dropReceiver (net : MemNetwork) (rx : ℕ) : MemNetwork :=
  { net with chans := net.chans.modify rx fun c => { c with queue := .empty, rxAlive := false } }

/-- The datagrams queued on a channel. -/
def queued (net : MemNetwork) (rx : ℕ) : List Inbound :=
  (net.chans[rx]?.map fun c => c.queue.items).getD []

/-- The receiving half of a channel has been dropped. -/
def Dropped (net : MemNetwork) (rx : ℕ) : Prop := ∃ c, net.chans[rx]? = some c ∧ c.rxAlive = false

/-- The key a channel was registered under. -/
def keyOfChan (net : MemNetwork) (rx : ℕ) : Option PeerKey := net.chans[rx]?.map MemChan.key

/-! ## What the operations do to a channel -/

variable (net : MemNetwork) (r : ℕ)

@[simp] theorem queued_backend (key : PeerKey) : (net.backend key).1.queued r = net.queued r := by
  simp only [queued, backend, List.getElem?_append, List.getElem?_singleton]
  split_ifs with h₁ h₂
  · rfl
  · rw [List.getElem?_eq_none (by omega)]
    rfl
  · rw [List.getElem?_eq_none (by omega)]

theorem keyOfChan_backend (key : PeerKey) : (net.backend key).1.keyOfChan r =
    if r = net.chans.length then some key else net.keyOfChan r := by
  simp only [keyOfChan, backend, List.getElem?_append, List.getElem?_singleton]
  split_ifs <;> first | rfl | omega | rw [List.getElem?_eq_none (by omega)]

theorem dropped_backend_iff (key : PeerKey) :
    (net.backend key).1.Dropped r ↔ net.Dropped r := by
  simp only [Dropped, backend, List.getElem?_append, List.getElem?_singleton]
  split_ifs with h₁ h₂
  · rfl
  · simp [List.getElem?_eq_none (show net.chans.length ≤ r by omega)]
  · simp [List.getElem?_eq_none (show net.chans.length ≤ r by omega)]

@[simp] theorem inner_trySend (tx : ℕ) (inb : Inbound) : (net.trySend tx inb).inner = net.inner :=
  rfl

theorem keyOfChan_trySend (tx : ℕ) (inb : Inbound) :
    (net.trySend tx inb).keyOfChan r = net.keyOfChan r := by
  simp only [keyOfChan, trySend, List.getElem?_modify]
  cases net.chans[r]? with
  | none => rfl
  | some c => by_cases h : tx = r <;> by_cases hc : c.rxAlive <;> simp [h, hc]

theorem dropped_trySend_iff (tx : ℕ) (inb : Inbound) :
    (net.trySend tx inb).Dropped r ↔ net.Dropped r := by
  simp only [Dropped, trySend, List.getElem?_modify]
  cases net.chans[r]? with
  | none => simp
  | some c => by_cases h : tx = r <;> by_cases hc : c.rxAlive <;> simp [h, hc]

/-- Trying to send on another channel changes nothing. -/
theorem queued_trySend_of_ne {tx : ℕ} (h : tx ≠ r) (inb : Inbound) :
    (net.trySend tx inb).queued r = net.queued r := by
  simp only [queued, trySend, List.getElem?_modify, h, if_false]
  cases net.chans[r]? <;> rfl

/-- Trying to send queues the datagram last, unless the queue is full or the
    receiving half has been dropped. -/
theorem queued_trySend_self (inb : Inbound) {k : PeerKey} (hk : net.keyOfChan r = some k)
    (hd : ¬net.Dropped r) : (net.trySend r inb).queued r =
      net.queued r ++ if (net.queued r).length = memCapacity then [] else [inb] := by
  simp only [keyOfChan, Option.map_eq_some_iff] at hk
  obtain ⟨c, hc, -⟩ := hk
  have ha : c.rxAlive = true := by
    by_contra ha
    exact hd ⟨c, hc, Bool.eq_false_iff.2 ha⟩
  simp only [queued, trySend, List.getElem?_modify, hc, if_true, ha, Option.map_eq_map,
    Option.map_some, Option.getD_some, BoundedQueue.items_getD_tryPush]
  split <;> simp

/-- A dropped receiving half queues nothing. -/
theorem queued_trySend_of_dropped (inb : Inbound) (hd : net.Dropped r) :
    (net.trySend r inb).queued r = net.queued r := by
  obtain ⟨c, hc, ha⟩ := hd
  simp [queued, trySend, hc, ha]

@[simp] theorem inner_send (src dst : PeerKey) (data : Bytes) :
    (net.send src dst data).inner = net.inner := by
  unfold send
  split <;> rfl

theorem keyOfChan_send (src dst : PeerKey) (data : Bytes) :
    (net.send src dst data).keyOfChan r = net.keyOfChan r := by
  unfold send
  split
  · rw [keyOfChan_trySend]
  · rfl

theorem dropped_send_iff (src dst : PeerKey) (data : Bytes) :
    (net.send src dst data).Dropped r ↔ net.Dropped r := by
  unfold send
  split
  · rw [dropped_trySend_iff]
  · rfl

/-- Sending to a destination registered elsewhere changes nothing. -/
theorem queued_send_of_ne {dst : PeerKey} (h : net.inner dst ≠ some r) (src : PeerKey)
    (data : Bytes) : (net.send src dst data).queued r = net.queued r := by
  unfold send
  split
  · next tx htx => exact net.queued_trySend_of_ne r (fun hr => h (hr ▸ htx)) _
  · rfl

/-- Sending to the current registration of a key queues the datagram last,
    unless the queue is full. -/
theorem queued_send {dst : PeerKey} (h : net.inner dst = some r) {k : PeerKey}
    (hk : net.keyOfChan r = some k) (hd : ¬net.Dropped r) (src : PeerKey) (data : Bytes) :
    (net.send src dst data).queued r =
      net.queued r ++ if (net.queued r).length = memCapacity then [] else [⟨data, src⟩] := by
  simp only [send, h]
  exact net.queued_trySend_self r _ hk hd

/-- Sending to a dropped receiving half queues nothing. -/
theorem queued_send_of_dropped (hd : net.Dropped r) (src dst : PeerKey) (data : Bytes) :
    (net.send src dst data).queued r = net.queued r := by
  by_cases h : net.inner dst = some r
  · simp only [send, h]
    exact net.queued_trySend_of_dropped r _ hd
  · exact net.queued_send_of_ne r h src data

/-- What a poll of the receiver does: nothing, being idle, closed or out of
    budget, or taking the oldest datagram off the queue. -/
theorem pollRecv_cases (rx : ℕ) (budget : Bool) :
    ((net.pollRecv rx budget).1 = net ∧ ∀ inb, (net.pollRecv rx budget).2 ≠ .ready (some inb)) ∨
    ∃ c inb queue, net.chans[rx]? = some c ∧ c.queue.pop = some (inb, queue) ∧
      net.pollRecv rx budget =
        ({ net with chans := net.chans.set rx { c with queue := queue } }, .ready (some inb)) := by
  unfold pollRecv
  cases hc : net.chans[rx]? with
  | none => exact .inl ⟨rfl, by simp⟩
  | some c =>
    cases budget with
    | false => exact .inl ⟨rfl, by simp⟩
    | true =>
      cases hp : c.queue.pop with
      | none =>
        refine .inl ⟨by simp [hp], fun inb => ?_⟩
        by_cases hi : net.inner c.key = some rx <;> simp [hp, hi]
      | some p => exact .inr ⟨c, p.1, p.2, rfl, hp, by simp [hp]⟩

@[simp] theorem inner_pollRecv (rx : ℕ) (budget : Bool) :
    (net.pollRecv rx budget).1.inner = net.inner := by
  obtain ⟨h, -⟩ | ⟨c, inb, queue, -, -, h⟩ := net.pollRecv_cases rx budget <;> rw [h]

theorem keyOfChan_pollRecv (rx : ℕ) (budget : Bool) :
    (net.pollRecv rx budget).1.keyOfChan r = net.keyOfChan r := by
  obtain ⟨h, -⟩ | ⟨c, inb, queue, hc, -, h⟩ := net.pollRecv_cases rx budget
  · rw [h]
  · simp only [h, keyOfChan, List.getElem?_set]
    split_ifs with hr hlt
    · rw [← hr, hc]; rfl
    · rw [List.getElem?_eq_none (by omega)]
    · rfl

theorem dropped_pollRecv_iff (rx : ℕ) (budget : Bool) :
    (net.pollRecv rx budget).1.Dropped r ↔ net.Dropped r := by
  obtain ⟨h, -⟩ | ⟨c, inb, queue, hc, -, h⟩ := net.pollRecv_cases rx budget
  · rw [h]
  · simp only [h, Dropped, List.getElem?_set]
    split_ifs with hr hlt
    · subst hr; simp [hc]
    · exact absurd (hr ▸ (List.getElem?_eq_some_iff.1 hc).1) hlt
    · rfl

/-- A poll of another receiver changes nothing. -/
theorem queued_pollRecv_of_ne {rx : ℕ} (h : rx ≠ r) (budget : Bool) :
    (net.pollRecv rx budget).1.queued r = net.queued r := by
  obtain ⟨hp, -⟩ | ⟨c, inb, queue, -, -, hp⟩ := net.pollRecv_cases rx budget
  · rw [hp]
  · simp [hp, queued, h]

/-- A datagram handed out was the oldest one queued. -/
theorem queued_pollRecv_of_ready {budget : Bool} {inb : Inbound}
    (h : (net.pollRecv r budget).2 = .ready (some inb)) :
    net.queued r = inb :: (net.pollRecv r budget).1.queued r := by
  obtain ⟨-, hp⟩ | ⟨c, inb', queue, hc, hq, hp⟩ := net.pollRecv_cases r budget
  · exact absurd h (hp inb)
  · have hlt := (List.getElem?_eq_some_iff.1 hc).1
    simp only [hp, Poll.ready.injEq, Option.some.injEq] at h
    have hitems := BoundedQueue.items_of_pop hq
    simp only [queued, hp, List.getElem?_set_self hlt, hc, Option.map_some, Option.getD_some]
    rw [hitems, h]

/-- A pending poll within its budget found the queue empty. -/
theorem queued_of_pending (h : (net.pollRecv r true).2 = .pending) : net.queued r = [] := by
  unfold pollRecv at h
  cases hc : net.chans[r]? with
  | none => simp [queued, hc]
  | some c =>
    cases hp : c.queue.pop with
    | none => simp [queued, hc, BoundedQueue.pop_eq_none_iff.1 hp]
    | some p => simp [hc, hp] at h

/-- A poll returning `Ready(None)` found the channel closed and drained. -/
theorem closed_of_ready_none (budget : Bool) (h : (net.pollRecv r budget).2 = .ready none) :
    net.queued r = [] ∧ ∀ k, net.keyOfChan r = some k → net.inner k ≠ some r := by
  unfold pollRecv at h
  cases hc : net.chans[r]? with
  | none => simp [queued, keyOfChan, hc]
  | some c =>
    cases budget with
    | false => simp [hc] at h
    | true =>
      cases hp : c.queue.pop with
      | none =>
        refine ⟨by simp [queued, hc, BoundedQueue.pop_eq_none_iff.1 hp], fun k hk hi => ?_⟩
        obtain rfl : c.key = k := by simpa [keyOfChan, hc] using hk
        simp [hc, hp, hi] at h
      | some p => simp [hc, hp] at h

/-- A poll that hands nothing out changes nothing. -/
theorem pollRecv_of_not_ready (budget : Bool)
    (h : ∀ inb, (net.pollRecv r budget).2 ≠ .ready (some inb)) : (net.pollRecv r budget).1 = net := by
  obtain ⟨hp, -⟩ | ⟨c, inb, queue, -, -, hp⟩ := net.pollRecv_cases r budget
  · exact hp
  · exact absurd (by rw [hp]) (h inb)

@[simp] theorem inner_dropReceiver (rx : ℕ) : (net.dropReceiver rx).inner = net.inner := rfl

theorem keyOfChan_dropReceiver (rx : ℕ) :
    (net.dropReceiver rx).keyOfChan r = net.keyOfChan r := by
  simp only [keyOfChan, dropReceiver, List.getElem?_modify]
  cases net.chans[r]? with
  | none => rfl
  | some c => by_cases h : rx = r <;> simp [h]

theorem dropped_dropReceiver {rx : ℕ} (hd : net.Dropped r) : (net.dropReceiver rx).Dropped r := by
  obtain ⟨c, hc, ha⟩ := hd
  by_cases h : rx = r <;> simp [Dropped, dropReceiver, hc, ha, h]

/-- Dropping another receiver changes nothing. -/
theorem queued_dropReceiver_of_ne {rx : ℕ} (h : rx ≠ r) :
    (net.dropReceiver rx).queued r = net.queued r := by
  simp only [queued, dropReceiver, List.getElem?_modify, h, if_false]
  cases net.chans[r]? <;> rfl

theorem queued_dropReceiver_self : (net.dropReceiver r).queued r = [] := by
  simp only [queued, dropReceiver, List.getElem?_modify]
  cases net.chans[r]? <;> simp

theorem dropped_dropReceiver_self {k : PeerKey} (hk : net.keyOfChan r = some k) :
    (net.dropReceiver r).Dropped r := by
  simp only [keyOfChan, Option.map_eq_some_iff] at hk
  obtain ⟨c, hc, -⟩ := hk
  simp [Dropped, dropReceiver, hc]

end MemNetwork

end IrohWebrtc
