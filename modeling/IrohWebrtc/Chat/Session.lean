import IrohWebrtc.Chat
import IrohWebrtc.Lib.Machine

/-!
# A chat session

A chat over one bi-stream (`start_chat`, and `ChatProto::accept` at the
responder). The initiator opens the stream and primes it with four zero bytes
before it has a chat handle; the responder has its handle at once, and what is
sent with it waits until the stream is accepted. Each direction is a `Channel`:
the queue of a chat handle, the write loop that takes from it, the bytes in the
stream, the read loop at the other end, and the queue of what it passes on.

* `Channel.Law`: the frames of what has been sent are what has been read, is in
  the stream, is left to write, or was lost when a write failed;
* `chat_in_order`: the messages shown at one end are the beginning of those sent
  at the other;
* `chat_complete_iff`: they are all of those, once everything has been written
  and read, if and only if none is longer than `maxMsg`.
-/

namespace IrohWebrtc

open WriteLoop (frame)

/-! ## One direction -/

/-- The writing half of an end's stream. -/
inductive Outlet
  /-- `start_chat` writes the priming frame: what is left of it. -/
  | priming (rest : Bytes)
  /-- The responder waits for the stream. -/
  | parked
  /-- The priming frame could not be written, and `start_chat` returned an error. -/
  | unopened
  /-- The write loop runs, or has ended. -/
  | writing (loop : WriteLoop)
  deriving DecidableEq

/-- What is left to write of a frame. -/
def Outlet.unwritten : Outlet → Bytes
  | .priming rest => rest
  | .writing loop => loop.unwritten
  | .parked | .unopened => []

/-- The receiving end of the outbound queue is gone. -/
def Outlet.Gone (o : Outlet) : Prop :=
  o = .unopened ∨ o = .writing .failed ∨ o = .writing .finished

instance (o : Outlet) : Decidable o.Gone := inferInstanceAs (Decidable (_ ∨ _))

/-- One direction of a chat, from the chat handle at one end to `on_message` at
    the other. -/
structure Channel where
  /-- The page has the chat handle. -/
  handle : Bool
  outbound : List String
  outlet : Outlet
  /-- What has been written and not been read. -/
  wire : Bytes
  /-- The read loop at the other end, once it has been spawned. -/
  reader : Option ReadLoop
  inbound : List String

/-- What can happen in one direction. -/
inductive Task
  /-- `Chat::send`. -/
  | send (text : String)
  /-- The page drops the chat handle. -/
  | drop
  /-- The write loop goes on to the next message, or ends as none will come. -/
  | next
  /-- The stream takes up to `k` bytes. -/
  | write (k : ℕ)
  /-- A write fails. -/
  | writeFail
  /-- The stream hands over up to `k` bytes. -/
  | read (k : ℕ)
  /-- A read fails, or the stream has ended. -/
  | readFail
  /-- `on_message` is called. -/
  | deliver

/-- What a task sends. -/
def Task.sent : Task → List String
  | .send text => [text]
  | _ => []

namespace Channel

/-- What a task does, if it can happen, and the messages shown by it. -/
def step (c : Channel) : Task → Option (Channel × List String)
  | .send text =>
    if c.handle then
      some (if c.outlet.Gone then c else { c with outbound := c.outbound ++ [text] }, [])
    else none
  | .drop => if c.handle then some ({ c with handle := false }, []) else none
  | .next =>
    match c.outlet, c.outbound with
    | .writing .idle, msg :: rest =>
      some ({ c with outlet := .writing (.next msg), outbound := rest }, [])
    | .writing .idle, [] =>
      if c.handle then none else some ({ c with outlet := .writing .finished }, [])
    | _, _ => none
  | .write k =>
    match c.outlet with
    | .writing loop =>
      match loop.write k with
      | some (loop', piece) =>
        some ({ c with outlet := .writing loop', wire := c.wire ++ piece }, [])
      | none => none
    | _ => none
  | .writeFail =>
    match c.outlet with
    | .writing (.header ..) | .writing (.body _) =>
      -- The loop ends, and the queue goes with it.
      some ({ c with outlet := .writing .failed, outbound := [] }, [])
    | _ => none
  | .read k =>
    match c.reader with
    | some loop =>
      let n := min k loop.wanted
      let (loop', texts) := feed ReadLoop.step loop (c.wire.take n)
      some ({ c with wire := c.wire.drop n, reader := some loop', inbound := c.inbound ++ texts }, [])
    | none => none
  | .readFail =>
    match c.reader with
    | some (.header _) | some (.body ..) => some ({ c with reader := some .closed }, [])
    | _ => none
  | .deliver =>
    match c.inbound with
    | msg :: rest => some ({ c with inbound := rest }, [msg])
    | [] => none

end Channel

/-! ## Both directions -/

/-- The two ends of a chat. -/
inductive End
  | initiator
  | responder
  deriving DecidableEq

/-- The other end. -/
def End.other : End → End
  | .initiator => .responder
  | .responder => .initiator

@[simp] theorem End.other_other (e : End) : e.other.other = e := by cases e <;> rfl

@[simp] theorem End.other_ne (e : End) : e.other ≠ e := by cases e <;> simp [other]

@[simp] theorem End.ne_other (e : End) : e ≠ e.other := (End.other_ne e).symm

theorem End.eq_or_eq_other (e e' : End) : e' = e ∨ e' = e.other := by
  cases e <;> cases e' <;> simp [other]

theorem End.other_injective : Function.Injective End.other := by
  intro e e' h
  rw [← End.other_other e, h, End.other_other]

/-- A chat: for each end, the direction from it to the other. -/
abbrev Session := End → Channel

/-- What can happen. -/
inductive ChatEvent
  /-- The stream takes up to `k` bytes of the priming frame. -/
  | prime (k : ℕ)
  /-- Writing it fails. -/
  | primeFail
  /-- The responder's `accept_bi` completes. -/
  | accept
  /-- A task of the direction from `dir`. -/
  | task (dir : End) (t : Task)

namespace Session

/-- What an event does, if it can happen, and the messages shown by it. -/
def step (w : Session) : ChatEvent → Option (Session × List String)
  | .prime k =>
    match (w .initiator).outlet with
    | .priming rest =>
      let c := { w .initiator with wire := (w .initiator).wire ++ rest.take k }
      if k < rest.length then
        some (Function.update w .initiator { c with outlet := .priming (rest.drop k) }, [])
      else
        -- Both loops are spawned, and the handle is returned.
        some (fun
          | .initiator => { c with outlet := .writing .idle, handle := true }
          | .responder => { w .responder with reader := some (.header []) }, [])
    | _ => none
  | .primeFail =>
    match (w .initiator).outlet with
    | .priming _ =>
      some (Function.update w .initiator
        { w .initiator with outbound := [], outlet := .unopened }, [])
    | _ => none
  | .accept =>
    match (w .responder).outlet with
    | .parked =>
      some (fun
        | .initiator => { w .initiator with reader := some (.header []) }
        | .responder => { w .responder with outlet := .writing .idle }, [])
    | _ => none
  | .task dir t => ((w dir).step t).map fun p => (Function.update w dir p.1, p.2)

/-- The stream has been opened, and nothing has been written on it. -/
def opened : Session
  | .initiator => ⟨false, [], .priming (toBeBytes 0), [], none, []⟩
  | .responder => ⟨true, [], .parked, [], none, []⟩

/-- What the end `dir` has passed to `Chat::send`. -/
def sentBy (dir : End) (h : List (Taken Session ChatEvent (List String))) : List String :=
  h.flatMap fun t => match t.event with
    | .task d task => if d = dir then task.sent else []
    | _ => []

/-- What `on_message` has been called with at the other end than `dir`. -/
def shownFrom (dir : End) (h : List (Taken Session ChatEvent (List String))) : List String :=
  h.flatMap fun t => match t.event with
    | .task d _ => if d = dir then t.out else []
    | _ => []

end Session

def chatMachine : Machine Session ChatEvent (List String) := ⟨{Session.opened}, Session.step⟩

/-! ## The law of a channel -/

namespace Channel

/-- What has been read, `read`, and what failing writes lost, `lost`, account for
    what a channel has been given, the messages `sent`, and has shown. -/
structure Law (sent shown : List String) (c : Channel) (read lost : Bytes) : Prop where
  /-- The frames of the messages are on their way or at their end. -/
  conserve : read ++ (c.wire ++ (c.outlet.unwritten ++ (c.outbound.flatMap frame ++ lost))) =
    sent.flatMap frame
  lost : lost ≠ [] → c.outlet = .unopened ∨ c.outlet = .writing .failed
  /-- What the read loop has passed on. -/
  received : (feed ReadLoop.step (.header []) read).2 = shown ++ c.inbound
  /-- Where it is. -/
  reader : ∀ loop, c.reader = some loop →
    loop = .closed ∨ loop = (feed ReadLoop.step (.header []) read).1
  unread : c.reader = none → read = []
  gone : c.outlet.Gone → c.outbound = []
  finished : c.outlet = .writing .finished → c.handle = false

/-- The law of a channel. -/
def Lawful (sent shown : List String) (c : Channel) : Prop := ∃ read lost, c.Law sent shown read lost

variable {sent shown out : List String} {c c' : Channel} {read lost : Bytes}

/-- Nothing has been lost while the queue is there. -/
theorem Law.lost_eq_nil (hc : c.Law sent shown read lost) (hg : ¬ c.outlet.Gone) : lost = [] := by
  by_contra hne
  rcases hc.lost hne with h | h
  · exact hg (.inl h)
  · exact hg (.inr (.inl h))

/-- The law of a channel is kept by a task that neither sends nor shows anything,
    and moves bytes from the outlet to the wire. -/
theorem Law.written (hc : c.Law sent shown read lost) (handle : Bool) (outbound : List String)
    (o : Outlet) (piece : Bytes) (hg : ¬ c.outlet.Gone)
    (h : piece ++ (o.unwritten ++ outbound.flatMap frame) =
      c.outlet.unwritten ++ c.outbound.flatMap frame)
    (hgone : o.Gone → outbound = []) (hfin : o = .writing .finished → handle = false) :
    Law sent shown { c with
      handle := handle, outbound := outbound, outlet := o, wire := c.wire ++ piece } read [] := by
  refine { hc with conserve := ?_, lost := fun h => absurd rfl h, gone := hgone, finished := hfin }
  rw [← hc.conserve, hc.lost_eq_nil hg, List.append_nil, List.append_nil, ← h, List.append_assoc]

/-- A failing write loses what is left to write. -/
theorem Law.failed {o : Outlet} (hc : c.Law sent shown read lost) (hg : ¬ c.outlet.Gone)
    (ho : o = .unopened ∨ o = .writing .failed) :
    Law sent shown { c with outbound := [], outlet := o } read
      (c.outlet.unwritten ++ c.outbound.flatMap frame) := by
  have hu : o.unwritten = [] := by rcases ho with rfl | rfl <;> rfl
  refine { hc with conserve := ?_, lost := fun _ => ho, gone := fun _ => rfl, finished := ?_ }
  · rw [← hc.conserve, hc.lost_eq_nil hg, hu]
    simp
  · rintro rfl
    simp at ho

/-- What is read is taken off the wire, and passed on. -/
theorem Law.taken {loop : ReadLoop} (hc : c.Law sent shown read lost) (hr : c.reader = some loop)
    {n : ℕ} (hn : n ≤ loop.wanted) :
    Law sent shown { c with
      wire := c.wire.drop n
      reader := some (feed ReadLoop.step loop (c.wire.take n)).1
      inbound := c.inbound ++ (feed ReadLoop.step loop (c.wire.take n)).2 }
      (read ++ c.wire.take n) lost := by
  have hconserve : read ++ c.wire.take n ++ (c.wire.drop n ++ (c.outlet.unwritten ++
      (c.outbound.flatMap frame ++ lost))) = sent.flatMap frame := by
    rw [← hc.conserve, List.append_assoc, ← List.append_assoc (c.wire.take n),
      List.take_append_drop]
  rcases hc.reader loop hr with rfl | rfl
  · obtain rfl : n = 0 := Nat.le_zero.1 hn
    exact { hc with
      conserve := hconserve
      received := by simpa using hc.received
      reader := by simp
      unread := by simp }
  · exact { hc with
      conserve := hconserve
      received := by rw [feed_append, hc.received, List.append_assoc]
      reader := by simp [feed_append]
      unread := by simp }

/-- A read loop that ends passes nothing more on. -/
theorem Law.closed (hc : c.Law sent shown read lost) :
    Law sent shown { c with reader := some .closed } read lost :=
  { hc with reader := by simp, unread := by simp }

/-- A read loop that is spawned has read nothing. -/
theorem Law.spawned (hc : c.Law sent shown read lost) (hr : c.reader = none) :
    Law sent shown { c with reader := some (.header []) } read lost := by
  refine { hc with reader := ?_, unread := by simp }
  rintro loop ⟨⟩
  rw [hc.unread hr]
  exact .inr rfl

/-- Every task keeps the law. -/
theorem Lawful.step {t : Task} (hc : c.Lawful sent shown) (hst : c.step t = some (c', out)) :
    c'.Lawful (sent ++ t.sent) (shown ++ out) := by
  obtain ⟨read, lost, hc⟩ := hc
  cases t with
  | send text =>
    simp only [Channel.step] at hst
    split at hst
    · next hh =>
      split at hst
      · next hg =>
        -- The queue is gone, and so is the message.
        cases hst
        have hl : c.outlet = .unopened ∨ c.outlet = .writing .failed := by
          rcases hg with h | h | h
          · exact .inl h
          · exact .inr h
          · exact absurd (hc.finished h) (by simp [hh])
        refine ⟨read, lost ++ frame text,
          { hc with conserve := ?_, lost := fun _ => hl, received := ?_ }⟩
        · simp only [Task.sent, List.flatMap_append, ← hc.conserve, List.append_assoc,
            List.flatMap_singleton]
        · rw [List.append_nil, hc.received]
      · next hg =>
        cases hst
        refine ⟨read, lost,
          { hc with conserve := ?_, received := ?_, gone := fun h => absurd h hg }⟩
        · simp only [Task.sent, List.flatMap_append, ← hc.conserve, hc.lost_eq_nil hg,
            List.append_assoc, List.flatMap_singleton, List.append_nil]
        · rw [List.append_nil, hc.received]
    · cases hst
  | drop =>
    simp only [Channel.step] at hst
    split at hst
    · cases hst
      simp only [Task.sent, List.append_nil]
      exact ⟨read, lost, { hc with finished := fun _ => rfl }⟩
    · cases hst
  | next =>
    simp only [Channel.step] at hst
    split at hst
    · next msg rest ho hq =>
      cases hst
      simp only [Task.sent, List.append_nil]
      have hl := hc.written c.handle rest (.writing (.next msg)) [] (by simp [Outlet.Gone, ho])
        (by rw [ho, hq]; rfl)
        (by simp [Outlet.Gone, WriteLoop.next]) (by simp [WriteLoop.next])
      exact ⟨read, [], by simpa using hl⟩
    · next ho hq =>
      split at hst
      · cases hst
      · next hh =>
        cases hst
        simp only [Task.sent, List.append_nil]
        have hl := hc.written c.handle [] (.writing .finished) []
          (by simp [Outlet.Gone, ho]) (by rw [ho, hq]; rfl)
          (fun _ => rfl) (by simpa using hh)
        exact ⟨read, [], by simpa [hq] using hl⟩
    · cases hst
  | write k =>
    simp only [Channel.step] at hst
    split at hst
    · next loop ho =>
      split at hst
      · next loop' piece hw =>
        cases hst
        simp only [Task.sent, List.append_nil]
        obtain ⟨hfail, hfin⟩ := WriteLoop.write_ne hw
        refine ⟨read, [], hc.written _ _ _ _ ?_ ?_ ?_ ?_⟩
        · rintro (h | h | h) <;> rw [ho] at h <;> cases h <;> cases hw
        · rw [ho, Outlet.unwritten, Outlet.unwritten, ← List.append_assoc,
            WriteLoop.write_unwritten hw]
        · rintro (h | h | h) <;> cases h
          · exact absurd rfl hfail
          · exact absurd rfl hfin
        · rintro ⟨⟩
          exact absurd rfl hfin
      · cases hst
    · cases hst
  | writeFail =>
    simp only [Channel.step] at hst
    split at hst
    · next ho =>
      cases hst
      simp only [Task.sent, List.append_nil]
      exact ⟨read, _, hc.failed (by simp [Outlet.Gone, ho]) (.inr rfl)⟩
    · next ho =>
      cases hst
      simp only [Task.sent, List.append_nil]
      exact ⟨read, _, hc.failed (by simp [Outlet.Gone, ho]) (.inr rfl)⟩
    · cases hst
  | read k =>
    simp only [Channel.step] at hst
    split at hst
    · next loop hr =>
      cases hst
      simp only [Task.sent, List.append_nil]
      exact ⟨_, lost, hc.taken hr (Nat.min_le_right _ _)⟩
    · cases hst
  | readFail =>
    simp only [Channel.step] at hst
    split at hst
    · cases hst
      simp only [Task.sent, List.append_nil]
      exact ⟨read, lost, hc.closed⟩
    · cases hst
      simp only [Task.sent, List.append_nil]
      exact ⟨read, lost, hc.closed⟩
    · cases hst
  | deliver =>
    simp only [Channel.step] at hst
    split at hst
    · next msg rest hq =>
      cases hst
      simp only [Task.sent, List.append_nil]
      exact ⟨read, lost, { hc with received := by rw [hc.received, hq, List.append_assoc]; rfl }⟩
    · cases hst

/-- The write loop is neither spawned nor removed by a task. -/
theorem step_outlet {t : Task} (hst : c.step t = some (c', out)) :
    c'.outlet = c.outlet ∨ ∃ loop loop', c.outlet = .writing loop ∧ c'.outlet = .writing loop' := by
  cases t with
  | send | drop | read | readFail | deliver =>
    simp only [Channel.step] at hst
    split at hst <;> cases hst
    all_goals first | exact .inl rfl | (split <;> exact .inl rfl)
  | next =>
    simp only [Channel.step] at hst
    split at hst
    · next ho _ =>
      cases hst
      exact .inr ⟨_, _, ho, rfl⟩
    · next ho _ =>
      split at hst <;> cases hst
      exact .inr ⟨_, _, ho, rfl⟩
    · cases hst
  | write k =>
    simp only [Channel.step] at hst
    split at hst
    · next loop ho =>
      split at hst <;> cases hst
      exact .inr ⟨_, _, ho, rfl⟩
    · cases hst
  | writeFail =>
    simp only [Channel.step] at hst
    split at hst
    · next ho =>
      cases hst
      exact .inr ⟨_, _, ho, rfl⟩
    · next ho =>
      cases hst
      exact .inr ⟨_, _, ho, rfl⟩
    · cases hst

/-- Nor is the read loop. -/
theorem step_reader {t : Task} (hst : c.step t = some (c', out)) :
    c'.reader.isSome = c.reader.isSome := by
  cases t with
  | send | drop | deliver | writeFail =>
    simp only [Channel.step] at hst
    split at hst <;> cases hst
    all_goals first | rfl | (split <;> rfl)
  | next =>
    simp only [Channel.step] at hst
    split at hst
    · cases hst
      rfl
    · split at hst <;> cases hst
      rfl
    · cases hst
  | write k =>
    simp only [Channel.step] at hst
    split at hst
    · split at hst <;> cases hst
      rfl
    · cases hst
  | read k =>
    simp only [Channel.step] at hst
    split at hst
    · next hr =>
      cases hst
      rw [hr]
      rfl
    · cases hst
  | readFail =>
    simp only [Channel.step] at hst
    split at hst
    · next hr =>
      cases hst
      rw [hr]
      rfl
    · next hr =>
      cases hst
      rw [hr]
      rfl
    · cases hst

end Channel

namespace Session

/-- What the stream starts with, as a message. -/
def priming : End → List String
  | .initiator => [""]
  | .responder => []

/-- The loops of an end are spawned together: before, nothing reads at it. -/
def Waiting (w : Session) : Prop :=
  ∀ dir, (∀ loop, (w dir).outlet ≠ .writing loop) → (w dir.other).reader = none

variable {w w' : Session} {h : List (Taken Session ChatEvent (List String))} {e : ChatEvent}
  {out : List String}

theorem step_task {dir : End} {t : Task} (hst : w.step (.task dir t) = some (w', out)) :
    ∃ c, (w dir).step t = some (c, out) ∧ w' = Function.update w dir c := by
  obtain ⟨⟨c, out'⟩, hst', hp⟩ := Option.map_eq_some_iff.1 hst
  cases hp
  exact ⟨c, hst', rfl⟩

theorem Waiting.step (hw : w.Waiting) (hst : w.step e = some (w', out)) : w'.Waiting := by
  cases e with
  | prime k =>
    simp only [Session.step] at hst
    split at hst
    · next rest ho =>
      split at hst <;> cases hst <;> rintro (_ | _) hn
      · exact hw .initiator fun loop => by simp [ho]
      · exact hw .responder hn
      · exact absurd rfl (hn .idle)
      · exact hw .responder hn
    · cases hst
  | primeFail =>
    simp only [Session.step] at hst
    split at hst
    · next rest ho =>
      cases hst
      rintro (_ | _) hn
      · exact hw .initiator fun loop => by simp [ho]
      · exact hw .responder hn
    · cases hst
  | accept =>
    simp only [Session.step] at hst
    split at hst
    · cases hst
      rintro (_ | _) hn
      · exact hw .initiator hn
      · exact absurd rfl (hn .idle)
    · cases hst
  | task dir t =>
    obtain ⟨c, hst', rfl⟩ := step_task hst
    intro d hn
    have hr : (w d.other).reader = none := by
      refine hw d fun loop ho => ?_
      by_cases hd : d = dir
      · subst hd
        rw [Function.update_self] at hn
        rcases Channel.step_outlet hst' with ho' | ⟨_, loop', -, ho'⟩
        · exact hn loop (ho'.trans ho)
        · exact hn loop' ho'
      · exact hn loop (by simpa [hd] using ho)
    by_cases hd : d.other = dir
    · subst hd
      rw [Function.update_self]
      exact Option.not_isSome_iff_eq_none.1 (by simp [Channel.step_reader hst', hr])
    · simpa [hd] using hr

theorem waiting_of_run (hr : chatMachine.Run h w) : w.Waiting := by
  refine Machine.Run.invariant (I := Waiting) ?_ (fun _ _ _ _ hw hst => hw.step hst) hr
  rintro _ rfl (_ | _) - <;> rfl

/-- Opening the stream keeps the law: the priming frame is on its way from the
    start, and a loop that is spawned has read nothing. -/
theorem lawful_opening {sent shown : List String} {dir : End} (hw : w.Waiting)
    (hc : (w dir).Lawful sent shown) (hst : w.step e = some (w', out))
    (he : ∀ d t, e ≠ .task d t) : (w' dir).Lawful sent shown := by
  obtain ⟨read, lost, hc⟩ := hc
  cases e with
  | prime k =>
    simp only [Session.step] at hst
    split at hst
    · next rest ho =>
      have hg : ¬ (w .initiator).outlet.Gone := by simp [Outlet.Gone, ho]
      split at hst
      · cases hst
        cases dir with
        | initiator =>
          refine ⟨read, [], hc.written _ _ (.priming (rest.drop k)) _ hg ?_ ?_ ?_⟩
          · rw [ho, Outlet.unwritten, Outlet.unwritten, ← List.append_assoc, List.take_append_drop]
          · simp [Outlet.Gone]
          · simp
        | responder => exact ⟨read, lost, hc⟩
      · next hk =>
        cases hst
        cases dir with
        | initiator =>
          refine ⟨read, [], hc.written _ _ (.writing .idle) _ hg ?_ ?_ ?_⟩
          · rw [ho, List.take_of_length_le (Nat.le_of_not_lt hk)]
            rfl
          · simp [Outlet.Gone]
          · simp
        | responder =>
          exact ⟨read, lost, hc.spawned (hw .initiator fun loop => by simp [ho])⟩
    · cases hst
  | primeFail =>
    simp only [Session.step] at hst
    split at hst
    · next rest ho =>
      cases hst
      cases dir with
      | initiator => exact ⟨read, _, hc.failed (by simp [Outlet.Gone, ho]) (.inl rfl)⟩
      | responder => exact ⟨read, lost, hc⟩
    · cases hst
  | accept =>
    simp only [Session.step] at hst
    split at hst
    · next ho =>
      cases hst
      cases dir with
      | initiator => exact ⟨read, lost, hc.spawned (hw .responder fun loop => by simp [ho])⟩
      | responder =>
        have hl := hc.written (w .responder).handle (w .responder).outbound (.writing .idle) []
          (by simp [Outlet.Gone, ho])
          (by rw [ho]; rfl) (by simp [Outlet.Gone]) (by simp)
        exact ⟨read, [], by simpa using hl⟩
    · cases hst
  | task d t => exact absurd rfl (he d t)

/-- What a step adds to what has been sent and shown in a direction, unless it is
    a task of this direction. -/
theorem sentBy_snoc (w : Session) (h : List (Taken Session ChatEvent (List String)))
    (out : List String) {dir : End} (he : ∀ t, e ≠ .task dir t) :
    sentBy dir (h ++ [⟨w, e, out⟩]) = sentBy dir h ∧
      shownFrom dir (h ++ [⟨w, e, out⟩]) = shownFrom dir h := by
  cases e with
  | task d t =>
    have hd : d ≠ dir := fun hd => he t (hd ▸ rfl)
    simp [sentBy, shownFrom, hd]
  | prime | primeFail | accept => simp [sentBy, shownFrom]

/-- Both directions obey the law. -/
theorem lawful_of_run (hr : chatMachine.Run h w) :
    ∀ dir, (w dir).Lawful (priming dir ++ sentBy dir h) (shownFrom dir h) := by
  refine Machine.Run.induction (P := fun h w => ∀ dir,
    (w dir).Lawful (priming dir ++ sentBy dir h) (shownFrom dir h)) ?_ ?_ hr
  · rintro _ rfl (_ | _) <;> refine ⟨[], [], ?_⟩
    · constructor <;> simp [opened, priming, sentBy, shownFrom, Outlet.unwritten, Outlet.Gone,
        frame, asBytes]
    · constructor <;> simp [opened, priming, sentBy, shownFrom, Outlet.unwritten, Outlet.Gone]
  · intro h w e w' out hr ih hst dir
    by_cases he : ∃ d t, e = .task d t
    · obtain ⟨d, t, rfl⟩ := he
      obtain ⟨c, hst', rfl⟩ := step_task hst
      by_cases hd : d = dir
      · subst hd
        simpa [sentBy, shownFrom] using (ih d).step hst'
      · obtain ⟨hs, hsh⟩ := sentBy_snoc w h out (e := .task d t)
          fun t' ht => hd (ChatEvent.task.inj ht).1
        rw [hs, hsh, Function.update_of_ne (Ne.symm hd)]
        exact ih dir
    · have he : ∀ d t, e ≠ .task d t := fun d t h => he ⟨d, t, h⟩
      obtain ⟨hs, hsh⟩ := sentBy_snoc w h out (he dir)
      rw [hs, hsh]
      exact lawful_opening (waiting_of_run hr) (ih dir) hst he

/-- What can be read of a direction: the messages sent that are not too long. -/
theorem read_opened {dir : End} {msgs : List String} (hlen : ∀ m ∈ msgs, m.utf8ByteSize < 2 ^ 32) :
    (feed ReadLoop.step (.header []) ((priming dir ++ msgs).flatMap frame)).2 =
      ReadLoop.admitted msgs := by
  cases dir with
  | initiator =>
    rw [ReadLoop.read_frames]
    · rfl
    · simpa [priming] using hlen
  | responder => exact ReadLoop.read_frames hlen

end Session

open Session

variable {w : Session} {h : List (Taken Session ChatEvent (List String))}

/-- The messages shown at one end are the beginning of those a read loop makes of the frames
    of those that have been sent at the other. -/
theorem shownFrom_isPrefix (hr : chatMachine.Run h w) (dir : End)
    (hlen : ∀ m ∈ sentBy dir h, m.utf8ByteSize < 2 ^ 32) :
    shownFrom dir h <+: ReadLoop.admitted (sentBy dir h) := by
  obtain ⟨read, lost, hc⟩ := lawful_of_run hr dir
  have hread : read <+: (priming dir ++ sentBy dir h).flatMap frame :=
    hc.conserve ▸ List.prefix_append _ _
  have hshown : shownFrom dir h <+: (feed ReadLoop.step (.header []) read).2 :=
    hc.received ▸ List.prefix_append _ _
  rw [← read_opened hlen]
  exact hshown.trans (feed_mono hread)

/-- At every moment, the messages shown at one end are the beginning of those that
    have been sent at the other, without the empty ones. -/
theorem chat_in_order (hr : chatMachine.Run h w) (dir : End)
    (hlen : ∀ m ∈ sentBy dir h, m.utf8ByteSize < 2 ^ 32) :
    shownFrom dir h <+: (sentBy dir h).filter (· ≠ "") :=
  (shownFrom_isPrefix hr dir hlen).trans (ReadLoop.admitted_isPrefix _)

/-- A message sent before the stream was accepted, one read in pieces, and one the
    stream failed in. -/
theorem chat_in_order_failing : ∃ h w, chatMachine.Run h w ∧
    shownFrom .responder h = ["yo"] ∧ shownFrom .initiator h = ["hé"] ∧
    shownFrom .initiator h <+: (sentBy .initiator h).filter (· ≠ "") := by
  have hr := (Machine.Run.nil (m := chatMachine) (s := opened) rfl).exec
    [.prime 1, .task .responder (.send "yo"), .accept, .task .initiator (.read 4),
      .prime 3, .task .responder .next, .task .responder (.write 4), .task .responder (.write 4),
      .task .responder (.read 4), .task .responder (.read 4), .task .responder .deliver,
      .task .initiator (.send "hé"), .task .initiator (.send ""), .task .initiator (.send "abc"),
      .task .initiator .next, .task .initiator (.write 2), .task .initiator (.write 2),
      .task .initiator (.write 9), .task .initiator .next, .task .initiator (.write 4),
      .task .initiator .next, .task .initiator (.write 4), .task .initiator (.write 2),
      .task .initiator .writeFail, .task .initiator (.read 3), .task .initiator (.read 4),
      .task .initiator (.read 2), .task .initiator (.read 1), .task .initiator (.read 4),
      .task .initiator (.read 4), .task .initiator (.read 4), .task .initiator .readFail,
      .task .initiator .deliver] rfl
  exact ⟨_, _, hr, rfl, rfl, chat_in_order hr .initiator (by decide)⟩

/-- Everything that has been sent in a direction has been written, and everything
    written has been read, unless the read loop has ended by itself. -/
structure Channel.Drained (c : Channel) : Prop where
  outbound : c.outbound = []
  outlet : c.outlet = .writing .idle ∨ c.outlet = .writing .finished
  wire : c.wire = [] ∨ c.reader = some .refused
  inbound : c.inbound = []

/-- In a drained direction, the messages that have been shown are those a read loop
    makes of the frames of those that have been sent. -/
theorem shown_of_drained (hr : chatMachine.Run h w) {dir : End}
    (hlen : ∀ m ∈ sentBy dir h, m.utf8ByteSize < 2 ^ 32) (hd : (w dir).Drained) :
    shownFrom dir h = ReadLoop.admitted (sentBy dir h) := by
  obtain ⟨read, lost, hc⟩ := lawful_of_run hr dir
  have hlost : lost = [] := by
    by_contra hne
    rcases hd.outlet with h | h <;> rcases hc.lost hne with h' | h' <;> rw [h] at h' <;> cases h'
  have hun : (w dir).outlet.unwritten = [] := by
    rcases hd.outlet with h | h <;> rw [h] <;> rfl
  have hcon := hc.conserve
  have hrec := hc.received
  rw [hun, hd.outbound, hlost] at hcon
  rw [hd.inbound, List.append_nil] at hrec
  rw [← hrec, ← read_opened hlen, ← hcon]
  rcases hd.wire with hw | hw
  · rw [hw]
    simp
  · -- The read loop has refused a length: it makes nothing of what follows.
    rcases hc.reader _ hw with h | h
    · cases h
    · rw [feed_append, ← h, feed_of_absorbing (s := ReadLoop.refused) fun _ => rfl, List.append_nil]

/-- Once everything has been written and read, all that has been sent has been
    shown if and only if no message is longer than `maxMsg`. -/
theorem chat_complete_iff (hr : chatMachine.Run h w) (dir : End)
    (hne : ∀ m ∈ sentBy dir h, m ≠ "") (hlen : ∀ m ∈ sentBy dir h, m.utf8ByteSize < 2 ^ 32)
    (hd : (w dir).Drained) :
    shownFrom dir h = sentBy dir h ↔ ∀ m ∈ sentBy dir h, m.utf8ByteSize ≤ maxMsg := by
  rw [shown_of_drained hr hlen hd]
  exact ReadLoop.admitted_eq_self hne

/-- One short message. -/
theorem chat_complete_short : ∃ h w, chatMachine.Run h w ∧ sentBy .responder h = ["yo"] ∧
    (shownFrom .responder h = sentBy .responder h ↔
      ∀ m ∈ sentBy .responder h, m.utf8ByteSize ≤ maxMsg) := by
  have hr := (Machine.Run.nil (m := chatMachine) (s := opened) rfl).exec
    [.task .responder (.send "yo"), .prime 4, .accept, .task .responder .next,
      .task .responder (.write 4), .task .responder (.write 2), .task .responder (.read 4),
      .task .responder (.read 2), .task .responder .deliver] rfl
  exact ⟨_, _, hr, rfl, chat_complete_iff hr .responder (by decide) (by decide)
    ⟨rfl, .inl rfl, .inl rfl, rfl⟩⟩

end IrohWebrtc
