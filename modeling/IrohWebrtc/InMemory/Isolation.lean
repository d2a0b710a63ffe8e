import IrohWebrtc.InMemory
import IrohWebrtc.Lib.Projection

/-!
# What the backends of a key receive

The in-memory network with what may happen on it, in any order (`netMachine`). A backend
is known by its key and its number among those registered under the key. The channels of
one key are a part of the network on which events about other keys do not bear
(`projects_mailboxes`): what the backends of a key receive is known from the registrations
of the key, the sends addressed to it, and what its backends do (`receives_eq`).
-/

namespace IrohWebrtc

/-- What can happen on the network. -/
inductive NetEvent
  /-- A backend is registered. -/
  | register (key : PeerKey)
  /-- A backend of `src` sends to `dst`. -/
  | send (src dst : PeerKey) (data : Bytes)
  /-- The receiver of the `j`-th backend of a key is polled. -/
  | recv (key : PeerKey) (j : ℕ)
  /-- The receiver of the `j`-th backend of a key is dropped. -/
  | drop (key : PeerKey) (j : ℕ)

/-- Whether an event is about a key. -/
def NetEvent.about (k : PeerKey) : NetEvent → Bool
  | .register key | .recv key _ | .drop key _ => key = k
  | .send _ dst _ => dst = k

/-- The result of a receive. -/
abbrev NetOut := Option (Poll (Option Inbound))

namespace MemNetwork

/-- The numbers of the channels of a key. -/
def channels (net : MemNetwork) (key : PeerKey) : List ℕ := positions (·.key = key) net.chans

/-- The receiving half of the `j`-th backend of a key, as long as it is there. -/
def receiver (net : MemNetwork) (key : PeerKey) (j : ℕ) : Option ℕ :=
  match (net.channels key)[j]? with
  | none => none
  | some rx => if (net.chans[rx]?.map (·.rxAlive)).getD false then some rx else none

def step (net : MemNetwork) : NetEvent → Option (MemNetwork × NetOut)
  | .register key => some ((net.backend key).1, none)
  | .send src dst data => some (net.send src dst data, none)
  | .recv key j =>
    (net.receiver key j).map fun rx => ((net.pollRecv rx true).1, some (net.pollRecv rx true).2)
  | .drop key j => (net.receiver key j).map fun rx => (net.dropReceiver rx, none)

end MemNetwork

/-- A network, from the empty one. -/
def netMachine : Machine MemNetwork NetEvent NetOut := ⟨{MemNetwork.new}, MemNetwork.step⟩

/-! ## The mailboxes of one key -/

/-- What a datagram sent to a channel does to it. -/
def MemChan.push (inb : Inbound) (c : MemChan) : MemChan :=
  if c.rxAlive then { c with queue := (c.queue.tryPush inb).getD c.queue } else c

/-- What becomes of a channel of which the receiving half is dropped. -/
def MemChan.close (c : MemChan) : MemChan := { c with queue := .empty, rxAlive := false }

namespace Mailboxes

/-- The `j`-th of the channels, as long as its receiving half is there. -/
def open? (v : List MemChan) (j : ℕ) : Option MemChan := v[j]?.filter (·.rxAlive)

/-- What events about a key do to its channels, in the order of registration. Sends go to
    the last one, and the others are closed once they are drained. -/
def step (v : List MemChan) : NetEvent → Option (List MemChan × NetOut)
  | .register key => some (v ++ [⟨key, .empty, true⟩], none)
  | .send src _ data => some (v.modify (v.length - 1) (MemChan.push ⟨data, src⟩), none)
  | .recv _ j => (open? v j).map fun c =>
    match c.queue.pop with
    | some (inb, queue) =>
      (v.modify j fun c => { c with queue := queue }, some (.ready (some inb)))
    | none => (v, some (if j + 1 = v.length then .pending else .ready none))
  | .drop _ j => (open? v j).map fun _ => (v.modify j MemChan.close, none)

/-- The channels of a key on which nothing else bears. -/
def machine : Machine (List MemChan) NetEvent NetOut := ⟨{[]}, step⟩

end Mailboxes

namespace MemNetwork

/-- The channels of a key. -/
def mailboxes (k : PeerKey) (net : MemNetwork) : List MemChan := net.chans.filter (·.key = k)

/-- The registry holds the sending half of the channel registered last. -/
def Latest (net : MemNetwork) : Prop := ∀ k, net.inner k = (net.channels k).getLast?

variable {net net' : MemNetwork} {k key dst src : PeerKey} {j rx : ℕ} {c : MemChan} {e : NetEvent}
  {o : NetOut} {data : Bytes} {inb : Inbound} {f : MemChan → MemChan}

theorem channels_modify (hf : ∀ c, (f c).key = c.key) :
    channels { net with chans := net.chans.modify rx f } k = net.channels k :=
  positions_modify fun c => by rw [hf]

/-- The registry stays up to date as channels change. -/
theorem latest_modify (h : net.Latest) (hf : ∀ c, (f c).key = c.key) :
    Latest { net with chans := net.chans.modify rx f } := by
  intro k
  rw [channels_modify hf]
  exact h k

theorem latest_backend (h : net.Latest) : (net.backend key).1.Latest := by
  intro k
  have hchannels : (net.backend key).1.channels k =
      net.channels k ++ if key = k then [net.chans.length] else [] := by
    rw [channels, backend, positions_concat]
    simp only [channels, decide_eq_true_eq]
  rw [hchannels]
  change Function.update net.inner key (some net.chans.length) k = _
  by_cases hk : k = key
  · rw [hk, Function.update_self, if_pos rfl, List.getLast?_concat]
  · rw [Function.update_of_ne hk, if_neg (Ne.symm hk), List.append_nil, h k]

theorem key_push : (c.push inb).key = c.key := by
  rw [MemChan.push]
  split <;> rfl

theorem send_eq : net.send src dst data = match net.inner dst with
    | some tx => { net with chans := net.chans.modify tx (MemChan.push ⟨data, src⟩) }
    | none => net := rfl

/-- Taking the oldest datagram changes the queue of a channel. -/
theorem pollRecv_eq (hc : net.chans[rx]? = some c) : net.pollRecv rx true =
    match c.queue.pop with
    | some (inb, queue) =>
      ({ net with chans := net.chans.modify rx fun c => { c with queue := queue } },
        .ready (some inb))
    | none => (net, if net.inner c.key = some rx then .pending else .ready none) := by
  rw [pollRecv, hc]
  cases hp : c.queue.pop with
  | none => simp [hp]
  | some p => simp [hp, List.modify_eq_set_getElem?, hc]

/-- A receiving half is that of an open channel, at its place among those of its key. -/
theorem receiver_eq_some (h : net.receiver key j = some rx) :
    (net.channels key)[j]? = some rx ∧ ∃ c, net.chans[rx]? = some c ∧ c.key = key ∧
      Mailboxes.open? (net.mailboxes key) j = some c := by
  rw [receiver] at h
  cases hch : (net.channels key)[j]? with
  | none =>
    rw [hch] at h
    cases h
  | some rx' =>
    obtain ⟨hfilter, c, hc, hkey⟩ := getElem?_filter hch
    rw [hch] at h
    simp only [hc, Option.map_some, Option.getD_some] at h
    split_ifs at h with halive
    cases h
    refine ⟨rfl, c, hc, of_decide_eq_true hkey, ?_⟩
    rw [Mailboxes.open?, mailboxes, hfilter, hc]
    simp [halive]

/-- A channel is the registered one if it is the last of its key. -/
theorem inner_eq_iff (h : net.Latest) (hch : (net.channels key)[j]? = some rx) :
    net.inner key = some rx ↔ j + 1 = (net.mailboxes key).length := by
  have hlen : (net.channels key).length = (net.mailboxes key).length := length_positions
  have hlt := (List.getElem?_eq_some_iff.1 hch).1
  rw [h key, List.getLast?_eq_getElem?, ← hlen, ← hch]
  constructor
  · intro heq
    have hpos : (net.channels key).length - 1 < (net.channels key).length := by omega
    have := (List.getElem?_inj hpos nodup_positions).1 heq
    omega
  · intro heq
    rw [← heq, Nat.add_sub_cancel]

theorem latest_step (h : net.Latest) (hst : net.step e = some (net', o)) : net'.Latest := by
  cases e with
  | register key =>
    cases hst
    exact latest_backend h
  | send src dst data =>
    cases hst
    rw [send_eq]
    split
    · exact latest_modify h fun _ => key_push
    · exact h
  | recv key j =>
    obtain ⟨rx, hrx, heq⟩ := Option.map_eq_some_iff.1 hst
    obtain ⟨-, c, hc, -⟩ := receiver_eq_some hrx
    rw [pollRecv_eq hc] at heq
    cases hp : c.queue.pop with
    | none =>
      rw [hp] at heq
      cases heq
      exact h
    | some p =>
      rw [hp] at heq
      cases heq
      exact latest_modify h fun _ => rfl
  | drop key j =>
    obtain ⟨rx, hrx, heq⟩ := Option.map_eq_some_iff.1 hst
    cases heq
    exact latest_modify h fun _ => rfl

/-- A channel changes in the place it has among those of its key. -/
theorem mailboxes_modify (hf : ∀ c, (f c).key = c.key) (h : (net.channels k)[j]? = some rx) :
    mailboxes k { net with chans := net.chans.modify rx f } = (net.mailboxes k).modify j f :=
  filter_modify (fun c => by rw [hf]) h

/-- A channel of another key changes none of a key. -/
theorem mailboxes_modify_of_ne (hf : ∀ c, (f c).key = c.key)
    (h : ∀ c, net.chans[rx]? = some c → c.key ≠ k) :
    mailboxes k { net with chans := net.chans.modify rx f } = net.mailboxes k :=
  filter_modify_of_not (fun c => by rw [hf]) fun c hc => by simpa using h c hc

/-- Events about a key do to its channels what the machine of these does. -/
theorem mailboxes_step (h : net.Latest) (he : e.about k) (hst : net.step e = some (net', o)) :
    Mailboxes.step (net.mailboxes k) e = some (net'.mailboxes k, o) := by
  have hlen : (net.channels k).length = (net.mailboxes k).length := length_positions
  cases e with
  | register key =>
    obtain rfl : key = k := of_decide_eq_true he
    cases hst
    simp [Mailboxes.step, mailboxes, backend]
  | send src dst data =>
    obtain rfl : dst = k := of_decide_eq_true he
    cases hst
    rw [send_eq, h dst, Mailboxes.step]
    cases hlast : (net.channels dst).getLast? with
    | none =>
      have hnil : net.mailboxes dst = [] := by
        rw [← List.length_eq_zero_iff, ← hlen, List.getLast?_eq_none_iff.1 hlast]
        rfl
      rw [hnil, List.modify_nil]
    | some tx =>
      rw [List.getLast?_eq_getElem?, hlen] at hlast
      simp only [mailboxes_modify (fun _ => key_push) hlast]
  | recv key j =>
    obtain rfl : key = k := of_decide_eq_true he
    obtain ⟨rx, hrx, heq⟩ := Option.map_eq_some_iff.1 hst
    obtain ⟨hch, c, hc, hkey, hopen⟩ := receiver_eq_some hrx
    rw [pollRecv_eq hc, hkey] at heq
    rw [Mailboxes.step, hopen, Option.map_some]
    cases hp : c.queue.pop with
    | none =>
      rw [hp] at heq
      cases heq
      simp only [inner_eq_iff h hch]
    | some p =>
      rw [hp] at heq
      cases heq
      have hmodify := mailboxes_modify (f := fun c => { c with queue := p.2 }) (fun _ => rfl) hch
      simp only [hmodify]
  | drop key j =>
    obtain rfl : key = k := of_decide_eq_true he
    obtain ⟨rx, hrx, heq⟩ := Option.map_eq_some_iff.1 hst
    obtain ⟨hch, c, hc, hkey, hopen⟩ := receiver_eq_some hrx
    cases heq
    rw [Mailboxes.step, hopen, Option.map_some]
    exact congrArg (fun v => some (v, none))
      (mailboxes_modify (f := MemChan.close) (fun _ => rfl) hch).symm

/-- Events about other keys change none of the channels of a key. -/
theorem mailboxes_step_of_not_about (h : net.Latest) (he : ¬ e.about k)
    (hst : net.step e = some (net', o)) : net'.mailboxes k = net.mailboxes k := by
  cases e with
  | register key =>
    have hk : key ≠ k := fun hk => he (decide_eq_true hk)
    cases hst
    simp [mailboxes, backend, hk]
  | send src dst data =>
    have hk : dst ≠ k := fun hk => he (decide_eq_true hk)
    cases hst
    rw [send_eq, h dst]
    cases hlast : (net.channels dst).getLast? with
    | none => rfl
    | some tx =>
      rw [List.getLast?_eq_getElem?] at hlast
      obtain ⟨-, c, hc, hkey⟩ := getElem?_filter hlast
      refine mailboxes_modify_of_ne (fun _ => key_push) fun c' hc' => ?_
      cases hc.symm.trans hc'
      exact fun heq => hk ((of_decide_eq_true hkey).symm.trans heq)
  | recv key j =>
    have hk : key ≠ k := fun hk => he (decide_eq_true hk)
    obtain ⟨rx, hrx, heq⟩ := Option.map_eq_some_iff.1 hst
    obtain ⟨-, c, hc, hkey, -⟩ := receiver_eq_some hrx
    rw [pollRecv_eq hc] at heq
    cases hp : c.queue.pop with
    | none =>
      rw [hp] at heq
      cases heq
      rfl
    | some p =>
      rw [hp] at heq
      cases heq
      refine mailboxes_modify_of_ne (fun _ => rfl) fun c' hc' => ?_
      cases hc.symm.trans hc'
      exact fun heq => hk (hkey.symm.trans heq)
  | drop key j =>
    have hk : key ≠ k := fun hk => he (decide_eq_true hk)
    obtain ⟨rx, hrx, heq⟩ := Option.map_eq_some_iff.1 hst
    obtain ⟨-, c, hc, hkey, -⟩ := receiver_eq_some hrx
    cases heq
    refine mailboxes_modify_of_ne (fun _ => rfl) fun c' hc' => ?_
    cases hc.symm.trans hc'
    exact fun heq => hk (hkey.symm.trans heq)

theorem projects_mailboxes (k : PeerKey) :
    netMachine.Projects Mailboxes.machine (mailboxes k) (NetEvent.about k) Latest where
  init := by
    rintro net rfl
    rfl
  inv_init := by
    rintro net rfl k
    rfl
  inv_step _ _ _ _ h hst := latest_step h hst
  of_about _ _ _ _ h he hst := mailboxes_step h he hst
  of_not_about _ _ _ _ h he hst := mailboxes_step_of_not_about h he hst

/-- What the backends of a key receive is the same in all runs in which the same happens
    about the key. -/
theorem receives_eq {h h' : List (Taken MemNetwork NetEvent NetOut)} (k : PeerKey)
    (hr : netMachine.Run h net) (hr' : netMachine.Run h' net')
    (heq : (h.filter fun t => t.event.about k).map (·.event) =
      (h'.filter fun t => t.event.about k).map (·.event)) :
    (h.filter fun t => t.event.about k).map (·.out) =
      (h'.filter fun t => t.event.about k).map (·.out) :=
  (projects_mailboxes k).out_eq (fun _ hv _ hv' => hv.trans hv'.symm) hr hr' heq

/-- Two runs that differ in what is registered, sent and dropped elsewhere. -/
theorem receives_eq_pair : ∃ h h' net net', netMachine.Run h net ∧ netMachine.Run h' net' ∧
    h.length < h'.length ∧
    (h.filter fun t => t.event.about (.replicate 32 1)).map (·.out) =
      (h'.filter fun t => t.event.about (.replicate 32 1)).map (·.out) := by
  have hr := (Machine.Run.nil (m := netMachine) (s := MemNetwork.new) rfl).exec
    [.register (.replicate 32 1), .send (.replicate 32 2) (.replicate 32 1) [7],
      .recv (.replicate 32 1) 0, .recv (.replicate 32 1) 0] rfl
  have hr' := (Machine.Run.nil (m := netMachine) (s := MemNetwork.new) rfl).exec
    [.register (.replicate 32 2), .register (.replicate 32 1),
      .send (.replicate 32 2) (.replicate 32 1) [7], .register (.replicate 32 2),
      .send (.replicate 32 1) (.replicate 32 2) [8], .recv (.replicate 32 1) 0,
      .drop (.replicate 32 2) 1, .recv (.replicate 32 1) 0] rfl
  exact ⟨_, _, _, _, hr, hr', by decide, receives_eq _ hr hr' rfl⟩

end MemNetwork

end IrohWebrtc
