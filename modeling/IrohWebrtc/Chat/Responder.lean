import IrohWebrtc.Chat
import IrohWebrtc.Lib.Machine

/-!
# The responder's sessions

The responder of a chat accepts connections with a `ChatProto`, whose clones
share the receiving end of the outbound queue, behind a mutex, and the sending
end of the inbound one. Each connection runs `accept` on its own: once its
stream is there, a read loop is spawned that passes on to the inbound queue,
and a write loop if the outbound queue has not been taken before.

* `outbound_taken_once`: one connection at most obtains the outbound queue, and
  only this one is written its messages, each once and in order;
* `responder_pairing`: if no `accept` finds the queue taken, the messages shown
  are those of this connection.
-/

namespace IrohWebrtc

/-- Where a connection is. -/
inductive Accept
  /-- Not there yet. -/
  | absent
  /-- In `accept_bi`. -/
  | accepting
  /-- `accept_bi` failed. -/
  | rejected
  /-- Its read loop has been spawned, and its write loop if it obtained the queue. -/
  | serving (reader : ReadLoop) (writer : Option WriteLoop)

/-- A write loop has been spawned for it. -/
def Accept.Writes : Accept → Prop
  | .serving _ writer => writer.isSome
  | _ => False

/-- A read loop has been spawned for it. -/
def Accept.Reads : Accept → Prop
  | .serving .. => True
  | _ => False

/-- A responder: whether the page has the chat handle, the outbound queue as long
    as its receiving end is there, whether `ChatProto` still holds it, the
    connections, and the inbound queue, with the connection each message was
    read from. -/
structure Responder where
  handle : Bool
  queue : Option (List String)
  outbound : Bool
  conns : ℕ → Accept
  inbound : List (ℕ × String)

/-- What can happen. -/
inductive ResponderEvent
  /-- Connection `i` is accepted, and `accept_bi` waits for its stream. -/
  | connect (i : ℕ)
  /-- Its `accept_bi` completes, or fails. -/
  | acceptBi (i : ℕ)
  | acceptFail (i : ℕ)
  /-- Its stream hands bytes over to the read loop, or fails there. -/
  | read (i : ℕ) (bytes : Bytes)
  | readFail (i : ℕ)
  /-- Its write loop goes on to the next message, or ends as none will come. -/
  | next (i : ℕ)
  /-- Its stream takes up to `k` bytes, or fails there. -/
  | write (i : ℕ) (k : ℕ)
  | writeFail (i : ℕ)
  /-- `Chat::send`. -/
  | send (text : String)
  /-- The page drops the chat handle. -/
  | drop
  /-- `on_message` is called. -/
  | deliver

/-- What is observed. -/
inductive ResponderAct
  /-- A connection obtains the outbound queue. -/
  | obtained (i : ℕ)
  /-- Its write loop takes a message to write. -/
  | took (i : ℕ) (text : String)
  /-- `on_message` is called with a message of a connection. -/
  | shown (i : ℕ) (text : String)
  deriving DecidableEq

namespace Responder

/-- What an event does, if it can happen. -/
def step (w : Responder) : ResponderEvent → Option (Responder × List ResponderAct)
  | .connect i =>
    match w.conns i with
    | .absent => some ({ w with conns := Function.update w.conns i .accepting }, [])
    | _ => none
  | .acceptBi i =>
    match w.conns i with
    | .accepting =>
      if w.outbound then
        some ({ w with
          conns := Function.update w.conns i (.serving (.header []) (some .idle))
          outbound := false }, [.obtained i])
      else
        some ({ w with conns := Function.update w.conns i (.serving (.header []) none) }, [])
    | _ => none
  | .acceptFail i =>
    match w.conns i with
    | .accepting => some ({ w with conns := Function.update w.conns i .rejected }, [])
    | _ => none
  | .read i bytes =>
    match w.conns i with
    | .serving reader writer =>
      let (reader', texts) := feed ReadLoop.step reader (bytes.take reader.wanted)
      some ({ w with
        conns := Function.update w.conns i (.serving reader' writer)
        inbound := w.inbound ++ texts.map (i, ·) }, [])
    | _ => none
  | .readFail i =>
    match w.conns i with
    | .serving (.header _) writer | .serving (.body ..) writer =>
      some ({ w with conns := Function.update w.conns i (.serving .closed writer) }, [])
    | _ => none
  | .next i =>
    match w.conns i, w.queue with
    | .serving reader (some .idle), some (msg :: rest) =>
      some ({ w with
        conns := Function.update w.conns i (.serving reader (some (.next msg)))
        queue := some rest }, [.took i msg])
    | .serving reader (some .idle), some [] =>
      if w.handle then none
      else some ({ w with
        conns := Function.update w.conns i (.serving reader (some .finished))
        queue := none }, [])
    | _, _ => none
  | .write i k =>
    match w.conns i with
    | .serving reader (some loop) =>
      match loop.write k with
      | some (loop', _) =>
        some ({ w with conns := Function.update w.conns i (.serving reader (some loop')) }, [])
      | none => none
    | _ => none
  | .writeFail i =>
    match w.conns i with
    | .serving reader (some (.header ..)) | .serving reader (some (.body _)) =>
      some ({ w with
        conns := Function.update w.conns i (.serving reader (some .failed))
        queue := none }, [])
    | _ => none
  | .send text =>
    if w.handle then some ({ w with queue := w.queue.map (· ++ [text]) }, []) else none
  | .drop => if w.handle then some ({ w with handle := false }, []) else none
  | .deliver =>
    match w.inbound with
    | (i, text) :: rest => some ({ w with inbound := rest }, [.shown i text])
    | [] => none

/-- `start_chat` has returned, and no connection has come. -/
def listening : Responder := ⟨true, some [], true, fun _ => .absent, []⟩

end Responder

def responderMachine : Machine Responder ResponderEvent (List ResponderAct) :=
  ⟨{Responder.listening}, Responder.step⟩

/-! ## What a history shows -/

def ResponderAct.obtained? : ResponderAct → Option ℕ
  | .obtained i => some i
  | _ => none

def ResponderAct.took? : ResponderAct → Option (ℕ × String)
  | .took i text => some (i, text)
  | _ => none

def ResponderAct.shown? : ResponderAct → Option (ℕ × String)
  | .shown i text => some (i, text)
  | _ => none

def ResponderEvent.sent : ResponderEvent → List String
  | .send text => [text]
  | _ => []

namespace Responder

abbrev History := List (Taken Responder ResponderEvent (List ResponderAct))

/-- The connections that have obtained the outbound queue. -/
def obtainedBy (h : History) : List ℕ := h.flatMap (·.out.filterMap ResponderAct.obtained?)

/-- The messages that have been taken to be written, with the connection. -/
def tookBy (h : History) : List (ℕ × String) := h.flatMap (·.out.filterMap ResponderAct.took?)

/-- The messages that have been shown, with the connection they were read from. -/
def shownBy (h : History) : List (ℕ × String) := h.flatMap (·.out.filterMap ResponderAct.shown?)

/-- What has been passed to `Chat::send`. -/
def sentBy (h : History) : List String := h.flatMap (·.event.sent)

/-! ## The outbound queue -/

/-- The outbound queue has been obtained once or can be, its messages are taken by
    the connection that has obtained it, and what has been taken is what has been
    sent, up to what is in the queue. -/
structure Law (w : Responder) (owners : List ℕ) (took : List (ℕ × String)) (sent : List String) :
    Prop where
  once : owners.length + (if w.outbound then 1 else 0) = 1
  writes : ∀ i, (w.conns i).Writes → i ∈ owners
  takers : ∀ p ∈ took, p.1 ∈ owners
  queue : ∀ q, w.queue = some q → took.map Prod.snd ++ q = sent
  order : took.map Prod.snd <+: sent

variable {w w' : Responder} {owners : List ℕ} {took : List (ℕ × String)} {sent : List String}
  {e : ResponderEvent} {out : List ResponderAct}

/-- What a connection does with its own loops keeps the law. -/
theorem Law.update (hw : w.Law owners took sent) {i : ℕ} {a : Accept}
    (ha : a.Writes → i ∈ owners) :
    Law { w with conns := Function.update w.conns i a } owners took sent := by
  refine { hw with writes := ?_ }
  rw [Function.forall_update_iff w.conns fun j a => a.Writes → j ∈ owners]
  exact ⟨ha, fun j _ => hw.writes j⟩

/-- The first connection to obtain the queue keeps the law. -/
theorem Law.obtained (hw : w.Law owners took sent) {i : ℕ} {a : Accept} (ho : w.outbound = true) :
    Law { w with conns := Function.update w.conns i a, outbound := false } (owners ++ [i]) took
      sent := by
  have hnil : owners = [] := by simpa [ho] using hw.once
  subst hnil
  refine { hw with once := rfl, writes := ?_, takers := ?_ }
  · rw [Function.forall_update_iff w.conns fun j a => a.Writes → j ∈ [] ++ [i]]
    exact ⟨fun _ => List.mem_singleton_self i, fun j _ hj => absurd (hw.writes j hj) List.not_mem_nil⟩
  · exact fun p hp => absurd (hw.takers p hp) List.not_mem_nil

/-- A queue that goes with its write loop keeps the law. -/
theorem Law.dropped (hw : w.Law owners took sent) : Law { w with queue := none } owners took sent :=
  { hw with queue := by simp }

/-- Every step keeps the law. -/
theorem Law.step (hw : w.Law owners took sent) (hst : w.step e = some (w', out)) :
    w'.Law (owners ++ out.filterMap ResponderAct.obtained?)
      (took ++ out.filterMap ResponderAct.took?) (sent ++ e.sent) := by
  cases e with
  | connect i | acceptFail i =>
    simp only [Responder.step] at hst
    split at hst
    · cases hst
      simp only [List.filterMap_nil, ResponderEvent.sent, List.append_nil]
      exact hw.update False.elim
    · cases hst
  | acceptBi i =>
    simp only [Responder.step] at hst
    split at hst
    · split at hst
      · next ho =>
        cases hst
        simp only [List.filterMap_cons, List.filterMap_nil, ResponderAct.obtained?,
          ResponderAct.took?, ResponderEvent.sent, List.append_nil]
        exact hw.obtained ho
      · cases hst
        simp only [List.filterMap_nil, ResponderEvent.sent, List.append_nil]
        exact hw.update fun ha => absurd ha (by simp [Accept.Writes])
    · cases hst
  | read i bytes =>
    simp only [Responder.step] at hst
    split at hst
    · next reader writer hi =>
      cases hst
      simp only [List.filterMap_nil, ResponderEvent.sent, List.append_nil]
      have hu := hw.update (i := i) (a := .serving (feed ReadLoop.step reader
        (bytes.take reader.wanted)).1 writer) fun ha => hw.writes i (hi ▸ ha)
      exact { hu with }
    · cases hst
  | readFail i =>
    simp only [Responder.step] at hst
    split at hst
    · next hi =>
      cases hst
      simp only [List.filterMap_nil, ResponderEvent.sent, List.append_nil]
      exact hw.update fun ha => hw.writes i (hi ▸ ha)
    · next hi =>
      cases hst
      simp only [List.filterMap_nil, ResponderEvent.sent, List.append_nil]
      exact hw.update fun ha => hw.writes i (hi ▸ ha)
    · cases hst
  | next i =>
    simp only [Responder.step] at hst
    split at hst
    · next reader msg rest hi hq =>
      cases hst
      simp only [List.filterMap_cons, List.filterMap_nil, ResponderAct.obtained?,
        ResponderAct.took?, ResponderEvent.sent, List.append_nil]
      have hi : i ∈ owners := hw.writes i (hi ▸ rfl)
      have hsent : (took ++ [(i, msg)]).map Prod.snd ++ rest = sent := by
        rw [← hw.queue _ hq, List.map_append, List.append_assoc]
        rfl
      have hu := hw.update (i := i) (a := .serving reader (some (.next msg))) fun _ => hi
      refine { hu with takers := ?_, queue := ?_, order := hsent ▸ List.prefix_append _ _ }
      · simpa [or_imp, forall_and, hi] using hw.takers
      · rintro q ⟨⟩
        exact hsent
    · next reader hi hq =>
      split at hst
      · cases hst
      · cases hst
        simp only [List.filterMap_nil, ResponderEvent.sent, List.append_nil]
        exact (hw.update fun _ => hw.writes i (hi ▸ rfl)).dropped
    · cases hst
  | write i k =>
    simp only [Responder.step] at hst
    split at hst
    · next reader loop hi =>
      split at hst
      · cases hst
        simp only [List.filterMap_nil, ResponderEvent.sent, List.append_nil]
        exact hw.update fun _ => hw.writes i (hi ▸ rfl)
      · cases hst
    · cases hst
  | writeFail i =>
    simp only [Responder.step] at hst
    split at hst
    · next hi =>
      cases hst
      simp only [List.filterMap_nil, ResponderEvent.sent, List.append_nil]
      exact (hw.update fun _ => hw.writes i (hi ▸ rfl)).dropped
    · next hi =>
      cases hst
      simp only [List.filterMap_nil, ResponderEvent.sent, List.append_nil]
      exact (hw.update fun _ => hw.writes i (hi ▸ rfl)).dropped
    · cases hst
  | send text =>
    simp only [Responder.step] at hst
    split at hst
    · cases hst
      simp only [List.filterMap_nil, List.append_nil]
      refine { hw with queue := ?_, order := hw.order.trans (List.prefix_append _ _) }
      intro q hq
      obtain ⟨q', hq', rfl⟩ := Option.map_eq_some_iff.1 hq
      rw [← List.append_assoc, hw.queue q' hq']
      rfl
    · cases hst
  | drop =>
    simp only [Responder.step] at hst
    split at hst
    · cases hst
      simp only [List.filterMap_nil, ResponderEvent.sent, List.append_nil]
      exact { hw with }
    · cases hst
  | deliver =>
    simp only [Responder.step] at hst
    split at hst
    · cases hst
      simp only [List.filterMap_cons, List.filterMap_nil, ResponderAct.obtained?,
        ResponderAct.took?, ResponderEvent.sent, List.append_nil]
      exact { hw with }
    · cases hst

/-! ## The inbound queue -/

/-- No `accept` finds the outbound queue taken. -/
def FindsQueue (t : Taken Responder ResponderEvent (List ResponderAct)) : Prop :=
  ∀ i, t.event = .acceptBi i → t.pre.outbound = true

/-- Only the connection that has obtained the outbound queue is read, and what
    comes of it is shown. -/
structure Paired (w : Responder) (owners : List ℕ) (shown : List (ℕ × String)) : Prop where
  reads : ∀ i, (w.conns i).Reads → i ∈ owners
  inbound : ∀ p ∈ w.inbound, p.1 ∈ owners
  shown : ∀ p ∈ shown, p.1 ∈ owners

variable {shown : List (ℕ × String)} {h : History}

theorem Paired.update (hw : w.Paired owners shown) {i : ℕ} {a : Accept} (queue : Option (List String))
    (ha : a.Reads → i ∈ owners) :
    Paired { w with conns := Function.update w.conns i a, queue := queue } owners shown := by
  refine { hw with reads := ?_ }
  rw [Function.forall_update_iff w.conns fun j a => a.Reads → j ∈ owners]
  exact ⟨ha, fun j _ => hw.reads j⟩

/-- If no `accept` finds the queue taken, every step keeps the pairing. -/
theorem Paired.step (hw : w.Paired owners shown) (hst : w.step e = some (w', out))
    (hC : FindsQueue ⟨w, e, out⟩) :
    w'.Paired (owners ++ out.filterMap ResponderAct.obtained?)
      (shown ++ out.filterMap ResponderAct.shown?) := by
  cases e with
  | connect i | acceptFail i =>
    simp only [Responder.step] at hst
    split at hst
    · cases hst
      simp only [List.filterMap_nil, List.append_nil]
      exact hw.update _ False.elim
    · cases hst
  | acceptBi i =>
    have ho : w.outbound = true := hC i rfl
    simp only [Responder.step, ho, if_true] at hst
    split at hst
    · cases hst
      simp only [List.filterMap_cons, List.filterMap_nil, ResponderAct.obtained?,
        ResponderAct.shown?, List.append_nil]
      have hmono : ∀ {j}, j ∈ owners → j ∈ owners ++ [i] := fun hj => List.mem_append_left _ hj
      refine ⟨?_, fun p hp => hmono (hw.inbound p hp), fun p hp => hmono (hw.shown p hp)⟩
      rw [Function.forall_update_iff w.conns fun j a => a.Reads → j ∈ owners ++ [i]]
      exact ⟨fun _ => by simp, fun j _ hj => hmono (hw.reads j hj)⟩
    · cases hst
  | read i bytes =>
    simp only [Responder.step] at hst
    split at hst
    · next reader writer hi =>
      cases hst
      simp only [List.filterMap_nil, List.append_nil]
      have hi : i ∈ owners := hw.reads i (hi ▸ trivial)
      have hu := hw.update w.queue (a := .serving (feed ReadLoop.step reader
        (bytes.take reader.wanted)).1 writer) fun _ => hi
      refine { hu with inbound := fun p hp => ?_ }
      rcases List.mem_append.1 hp with hp | hp
      · exact hw.inbound p hp
      · obtain ⟨text, -, rfl⟩ := List.mem_map.1 hp
        exact hi
    · cases hst
  | readFail i =>
    simp only [Responder.step] at hst
    split at hst
    · next hi =>
      cases hst
      simp only [List.filterMap_nil, List.append_nil]
      exact hw.update _ fun _ => hw.reads i (hi ▸ trivial)
    · next hi =>
      cases hst
      simp only [List.filterMap_nil, List.append_nil]
      exact hw.update _ fun _ => hw.reads i (hi ▸ trivial)
    · cases hst
  | next i =>
    simp only [Responder.step] at hst
    split at hst
    · next hi _ =>
      cases hst
      simp only [List.filterMap_cons, List.filterMap_nil, ResponderAct.obtained?,
        ResponderAct.shown?, List.append_nil]
      exact hw.update _ fun _ => hw.reads i (hi ▸ trivial)
    · next hi _ =>
      split at hst
      · cases hst
      · cases hst
        simp only [List.filterMap_nil, List.append_nil]
        exact hw.update _ fun _ => hw.reads i (hi ▸ trivial)
    · cases hst
  | write i k =>
    simp only [Responder.step] at hst
    split at hst
    · next hi =>
      split at hst
      · cases hst
        simp only [List.filterMap_nil, List.append_nil]
        exact hw.update _ fun _ => hw.reads i (hi ▸ trivial)
      · cases hst
    · cases hst
  | writeFail i =>
    simp only [Responder.step] at hst
    split at hst
    · next hi =>
      cases hst
      simp only [List.filterMap_nil, List.append_nil]
      exact hw.update _ fun _ => hw.reads i (hi ▸ trivial)
    · next hi =>
      cases hst
      simp only [List.filterMap_nil, List.append_nil]
      exact hw.update _ fun _ => hw.reads i (hi ▸ trivial)
    · cases hst
  | send text | drop =>
    simp only [Responder.step] at hst
    split at hst
    · cases hst
      simp only [List.filterMap_nil, List.append_nil]
      exact { hw with }
    · cases hst
  | deliver =>
    simp only [Responder.step] at hst
    split at hst
    · next i text rest hq =>
      cases hst
      simp only [List.filterMap_cons, List.filterMap_nil, ResponderAct.obtained?,
        ResponderAct.shown?, List.append_nil]
      have hin := hw.inbound
      simp only [hq, List.mem_cons, or_imp, forall_and, forall_eq] at hin
      refine { hw with inbound := hin.2, shown := ?_ }
      simpa [or_imp, forall_and, hin.1] using hw.shown
    · cases hst

end Responder

open Responder

variable {w : Responder} {h : History}

theorem law_of_run (hr : responderMachine.Run h w) :
    w.Law (obtainedBy h) (tookBy h) (Responder.sentBy h) := by
  refine Machine.Run.induction
    (P := fun h w => w.Law (obtainedBy h) (tookBy h) (Responder.sentBy h)) ?_ ?_ hr
  · rintro _ rfl
    exact ⟨rfl, fun _ => False.elim, fun _ hp => absurd hp List.not_mem_nil, by
      rintro _ ⟨⟩
      rfl, List.prefix_rfl⟩
  · intro h w e w' out _ ih hst
    simpa [obtainedBy, tookBy, Responder.sentBy] using ih.step hst

theorem paired_of_run (hr : responderMachine.Run h w) (hC : ∀ t ∈ h, FindsQueue t) :
    w.Paired (obtainedBy h) (shownBy h) := by
  refine Machine.Run.induction
    (P := fun h w => (∀ t ∈ h, FindsQueue t) → w.Paired (obtainedBy h) (shownBy h)) ?_ ?_ hr hC
  · rintro _ rfl -
    exact ⟨fun _ => False.elim, fun _ hp => absurd hp List.not_mem_nil,
      fun _ hp => absurd hp List.not_mem_nil⟩
  · intro h w e w' out _ ih hst hC
    have hw := ih fun t ht => hC t (List.mem_append_left _ ht)
    simpa [obtainedBy, shownBy] using hw.step hst (hC _ (by simp))

/-- In every run, one connection at most obtains the outbound queue, only this one
    is written messages of the queue, and each message once, in the order sent. -/
theorem outbound_taken_once (hr : responderMachine.Run h w) :
    (obtainedBy h).length ≤ 1 ∧ (∀ p ∈ tookBy h, p.1 ∈ obtainedBy h) ∧
      (tookBy h).map Prod.snd <+: Responder.sentBy h := by
  have hw := law_of_run hr
  exact ⟨by have := hw.once; omega, hw.takers, hw.order⟩

/-- If no `accept` finds the outbound queue taken, then moreover every message shown
    has been read from the connection that has obtained it. -/
theorem responder_pairing (hr : responderMachine.Run h w) (hC : ∀ t ∈ h, FindsQueue t) :
    (obtainedBy h).length ≤ 1 ∧ (∀ p ∈ tookBy h, p.1 ∈ obtainedBy h) ∧
      (tookBy h).map Prod.snd <+: Responder.sentBy h ∧ ∀ p ∈ shownBy h, p.1 ∈ obtainedBy h := by
  obtain ⟨honce, htakers, horder⟩ := outbound_taken_once hr
  exact ⟨honce, htakers, horder, (paired_of_run hr hC).shown⟩

/-- One connection, asked and answered. -/
theorem responder_pairing_single : ∃ h w, responderMachine.Run h w ∧
    shownBy h = [(0, "hi")] ∧ tookBy h = [(0, "yo")] ∧ ∀ p ∈ shownBy h, p.1 ∈ obtainedBy h := by
  have hr := (Machine.Run.nil (m := responderMachine) (s := listening) rfl).exec
    [.send "yo", .connect 0, .acceptBi 0, .read 0 [0, 0, 0, 0], .next 0, .write 0 9,
      .read 0 [0, 0, 0, 2], .write 0 1, .read 0 [104], .read 0 [105], .deliver] rfl
  refine ⟨_, _, hr, rfl, rfl, (responder_pairing hr ?_).2.2.2⟩
  simp [FindsQueue, listening]

/-- Two connections: the first obtains the queue, what comes of the second is shown. -/
theorem responder_unpaired : ¬ ∀ h w, responderMachine.Run h w →
    (obtainedBy h).length ≤ 1 ∧ (∀ p ∈ tookBy h, p.1 ∈ obtainedBy h) ∧
      (tookBy h).map Prod.snd <+: Responder.sentBy h ∧ ∀ p ∈ shownBy h, p.1 ∈ obtainedBy h := by
  intro hall
  have hr := (Machine.Run.nil (m := responderMachine) (s := listening) rfl).exec
    [.connect 0, .connect 1, .acceptBi 0, .acceptBi 1, .read 1 [0, 0, 0, 2],
      .read 1 [104, 105], .deliver] rfl
  have hshown := (hall _ _ hr).2.2.2 (1, "hi") (List.mem_singleton.2 rfl)
  exact absurd hshown (by decide)

end IrohWebrtc
