import IrohWebrtc.Chat.Session
import IrohWebrtc.Lib.Ownership

/-!
# Draining a chat

As long as nothing has failed in a direction of a chat, everything that has been sent in it
can be written, read and passed on, and then it is drained (`exists_drained`): its loops
have something to do until there is nothing left (`Channel.Alive.works`). So it can when a
message is longer than `maxMsg`, which is not shown then (`chat_incomplete`).
-/

namespace IrohWebrtc

open Session
open WriteLoop (frame)

variable {w w' : Session} {h : List (Taken Session ChatEvent (List String))} {e : ChatEvent}
  {out : List String}

/-! ## Going on -/

/-- What the loops and the page do with what has been sent, as long as nothing fails. -/
def Task.Works : Task → Prop
  | .next | .write _ | .read _ | .deliver => True
  | .send _ | .drop | .writeFail | .readFail => False

theorem Task.Works.sent {t : Task} (h : t.Works) : t.sent = [] := by
  cases t <;> first | rfl | cases h

/-- What happens to a chat then. -/
def ChatEvent.Works : ChatEvent → Prop
  | .prime _ | .accept => True
  | .primeFail => False
  | .task _ t => t.Works

namespace Channel

/-- Both loops have been spawned, and neither has failed. -/
structure Alive (c : Channel) : Prop where
  writing : ∃ loop, c.outlet = .writing loop ∧ loop ≠ .failed
  finished : c.outlet = .writing .finished → c.outbound = []
  reading : ∃ loop, c.reader = some loop ∧ loop.Hungry

/-- How much an outlet has still to do: each byte is written, read and passed on. -/
def outletLeft : Outlet → ℕ
  | .writing (.header rest bytes) => 3 * (rest.length + bytes.length) + 2
  | .writing (.body rest) => 3 * rest.length + 1
  | _ => 0

/-- How much is left to do in a direction. -/
def left (c : Channel) : ℕ :=
  3 * (c.outbound.flatMap frame).length + 3 * c.outbound.length + outletLeft c.outlet +
    2 * c.wire.length + c.inbound.length

variable {c : Channel}

theorem step_write {loop loop' : WriteLoop} {k : ℕ} {piece : Bytes} (ho : c.outlet = .writing loop)
    (hw : loop.write k = some (loop', piece)) : c.step (.write k) =
      some ({ c with outlet := .writing loop', wire := c.wire ++ piece }, []) := by
  simp only [Channel.step, ho, hw]

theorem alive_of_writing {loop : WriteLoop} (ho : c.outlet = .writing loop)
    (hfailed : loop ≠ .failed) (hfinished : loop ≠ .finished)
    (hreading : ∃ loop, c.reader = some loop ∧ loop.Hungry) : c.Alive where
  writing := ⟨loop, ho, hfailed⟩
  finished := fun h => absurd (Outlet.writing.inj (ho.symm.trans h)) hfinished
  reading := hreading

/-- With nothing to write, a direction is drained or there is something to read or to show. -/
theorem Alive.reads (hc : c.Alive) (hq : c.outbound = [])
    (ho : c.outlet = .writing .idle ∨ c.outlet = .writing .finished) (hd : ¬ c.Drained) :
    ∃ t c' out, t.Works ∧ c.step t = some (c', out) ∧ c'.Alive ∧ c'.left < c.left := by
  obtain ⟨handle, outbound, outlet, wire, reader, inbound⟩ := c
  obtain ⟨loop, rfl, hloop⟩ := hc.reading
  cases inbound with
  | cons msg rest =>
    refine ⟨.deliver, _, _, trivial, rfl, ⟨hc.writing, hc.finished, hc.reading⟩, ?_⟩
    simp [left]
  | nil =>
    cases wire with
    | nil => exact absurd ⟨hq, ho, .inl rfl, rfl⟩ hd
    | cons b bytes =>
      rcases hloop with rfl | hpos
      · exact absurd ⟨hq, ho, .inr rfl, rfl⟩ hd
      · have hmin : min 1 loop.wanted = 1 := Nat.min_eq_left hpos
        refine ⟨.read 1, _, _, trivial, rfl,
          ⟨hc.writing, hc.finished, _, rfl, ReadLoop.Hungry.feed (.inr hpos) _⟩, ?_⟩
        have hle := ReadLoop.length_step_le loop b
        simp only [left, hmin, List.take_succ_cons, List.take_zero, feed_cons, feed_nil,
          List.drop_succ_cons, List.drop_zero, List.nil_append, List.append_nil,
          List.length_cons, List.length_nil]
        omega

/-- A direction is drained, or its loops and the page have something to do. -/
theorem Alive.works (hc : c.Alive) (hd : ¬ c.Drained) :
    ∃ t c' out, t.Works ∧ c.step t = some (c', out) ∧ c'.Alive ∧ c'.left < c.left := by
  obtain ⟨loop, ho, hloop⟩ := hc.writing
  obtain ⟨handle, outbound, outlet, wire, reader, inbound⟩ := c
  obtain rfl : outlet = .writing loop := ho
  cases loop with
  | failed => exact absurd rfl hloop
  | finished => exact hc.reads (hc.finished rfl) (.inr rfl) hd
  | idle =>
    cases outbound with
    | nil => exact hc.reads rfl (.inl rfl) hd
    | cons msg rest =>
      refine ⟨.next, _, _, trivial, rfl,
        alive_of_writing rfl (by simp [WriteLoop.next]) (by simp [WriteLoop.next]) hc.reading, ?_⟩
      simp only [left, List.flatMap_cons, List.length_cons, outletLeft, WriteLoop.next, frame,
        List.length_append]
      omega
  | header rest bytes =>
    -- The rest of the length is written.
    have hwrite : (WriteLoop.header rest bytes).write rest.length =
        some (if bytes = [] then .idle else .body bytes, rest) := by
      rw [WriteLoop.write, if_neg (Nat.lt_irrefl _), List.take_length]
    refine ⟨.write rest.length, _, _, trivial, step_write rfl hwrite, ?_, ?_⟩
    · split_ifs
      · exact alive_of_writing rfl (by simp) (by simp) hc.reading
      · exact alive_of_writing rfl (by simp) (by simp) hc.reading
    · split_ifs with hbytes <;>
        simp only [left, outletLeft, List.length_append, hbytes, List.length_nil] <;> omega
  | body rest =>
    have hwrite : (WriteLoop.body rest).write rest.length = some (.idle, rest) := by
      rw [WriteLoop.write, if_neg (Nat.lt_irrefl _), List.take_length]
    refine ⟨.write rest.length, _, _, trivial, step_write rfl hwrite,
      alive_of_writing rfl (by simp) (by simp) hc.reading, ?_⟩
    simp only [left, outletLeft, List.length_append]
    omega

/-- The loops and the page get everything done. -/
theorem Alive.drains (hc : c.Alive) : ∃ c', c'.Drained ∧
    Relation.ReflTransGen (fun c c' => ∃ t out, Task.Works t ∧ c.step t = some (c', out)) c c' := by
  obtain ⟨c', hreach, hsettled⟩ := exists_settled
    (r := fun c c' => (∃ t out, Task.Works t ∧ c.step t = some (c', out)) ∧
      c'.Alive ∧ c'.left < c.left) left (fun _ _ h => h.2.2) c
  have hc' : c'.Alive := by
    rcases hreach.cases_tail with rfl | ⟨_, -, h⟩
    · exact hc
    · exact h.2.1
  refine ⟨c', ?_, hreach.lift id fun _ _ h => h.1⟩
  by_contra hd
  obtain ⟨t, c'', out, ht, hst, halive, hlt⟩ := hc'.works hd
  exact hsettled c'' ⟨⟨t, out, ht, hst⟩, halive, hlt⟩

end Channel

namespace Session

/-- The loops of an end are spawned together: an end that writes reads. The initiator opens
    the stream, and the responder waits for it. -/
structure Spawned (w : Session) : Prop where
  initiator : (∃ rest, (w .initiator).outlet = .priming rest) ∨
    (w .initiator).outlet = .unopened ∨
    ∃ loop, (w .initiator).outlet = .writing loop ∧ (w .responder).reader.isSome
  responder : (w .responder).outlet = .parked ∨
    ∃ loop, (w .responder).outlet = .writing loop ∧ (w .initiator).reader.isSome

theorem Spawned.task {c : Channel} {t : Task} {dir : End} (hw : w.Spawned)
    (hst : (w dir).step t = some (c, out)) : Spawned (Function.update w dir c) := by
  have hreader := Channel.step_reader hst
  have hwriting : ∀ loop, (w dir).outlet = .writing loop → ∃ loop, c.outlet = .writing loop := by
    intro loop ho
    rcases Channel.step_outlet hst with ho' | ⟨_, loop', -, ho'⟩
    · exact ⟨loop, ho'.trans ho⟩
    · exact ⟨loop', ho'⟩
  have hstays : (∀ loop, (w dir).outlet ≠ .writing loop) → c.outlet = (w dir).outlet := by
    intro hn
    rcases Channel.step_outlet hst with ho' | ⟨loop, _, ho, -⟩
    · exact ho'
    · exact absurd ho (hn loop)
  cases dir with
  | initiator =>
    constructor
    · rcases hw.initiator with ⟨rest, ho⟩ | ho | ⟨loop, ho, hr⟩
      · exact .inl ⟨rest, (hstays (by simp [ho])).trans ho⟩
      · exact .inr (.inl ((hstays (by simp [ho])).trans ho))
      · obtain ⟨loop', ho'⟩ := hwriting loop ho
        exact .inr (.inr ⟨loop', ho', hr⟩)
    · exact hw.responder.imp id fun ⟨loop, ho, hr⟩ => ⟨loop, ho, hreader.trans hr⟩
  | responder =>
    constructor
    · exact hw.initiator.imp id (Or.imp id fun ⟨loop, ho, hr⟩ => ⟨loop, ho, hreader.trans hr⟩)
    · rcases hw.responder with ho | ⟨loop, ho, hr⟩
      · exact .inl ((hstays (by simp [ho])).trans ho)
      · obtain ⟨loop', ho'⟩ := hwriting loop ho
        exact .inr ⟨loop', ho', hr⟩

theorem Spawned.step (hw : w.Spawned) (hst : w.step e = some (w', out)) : w'.Spawned := by
  cases e with
  | prime k =>
    simp only [Session.step] at hst
    split at hst
    · next rest ho =>
      split at hst <;> cases hst
      · exact ⟨.inl ⟨_, rfl⟩, hw.responder⟩
      · exact ⟨.inr (.inr ⟨_, rfl, rfl⟩), hw.responder⟩
    · cases hst
  | primeFail =>
    simp only [Session.step] at hst
    split at hst
    · cases hst
      exact ⟨.inr (.inl rfl), hw.responder⟩
    · cases hst
  | accept =>
    simp only [Session.step] at hst
    split at hst
    · cases hst
      exact ⟨hw.initiator, .inr ⟨_, rfl, rfl⟩⟩
    · cases hst
  | task dir t =>
    obtain ⟨c, hst', rfl⟩ := step_task hst
    exact hw.task hst'

theorem spawned_of_run (hr : chatMachine.Run h w) : w.Spawned := by
  refine Machine.Run.invariant (I := Spawned) ?_ (fun _ _ _ _ hw hst => hw.step hst) hr
  rintro _ rfl
  exact ⟨.inl ⟨_, rfl⟩, .inl rfl⟩

/-- Nothing has failed that keeps a direction from being drained. -/
structure Unfailed (w : Session) (dir : End) : Prop where
  opened : (w .initiator).outlet ≠ .unopened
  outlet : (w dir).outlet ≠ .writing .failed
  reader : (w dir).reader ≠ some .closed

variable {dir : End}

/-- The initiator opens the stream. -/
theorem step_prime {rest : Bytes} (ho : (w .initiator).outlet = .priming rest) :
    ∃ w', w.step (.prime rest.length) = some (w', []) ∧
      w' .initiator = { w .initiator with
        handle := true, outlet := .writing .idle, wire := (w .initiator).wire ++ rest } ∧
      w' .responder = { w .responder with reader := some (.header []) } := by
  simp only [Session.step, ho, Nat.lt_irrefl, if_false, List.take_length]
  exact ⟨_, rfl, rfl, rfl⟩

/-- The responder accepts it. -/
theorem step_accept (ho : (w .responder).outlet = .parked) :
    ∃ w', w.step .accept = some (w', []) ∧
      w' .initiator = { w .initiator with reader := some (.header []) } ∧
      w' .responder = { w .responder with outlet := .writing .idle } := by
  simp only [Session.step, ho]
  exact ⟨_, rfl, rfl, rfl⟩

/-- The stream is opened and accepted. -/
theorem Unfailed.opens (hw : w.Unfailed dir) (hs : w.Spawned) : ∃ w' : Session,
    Relation.ReflTransGen (fun w w' : Session => ∃ e o, e.Works ∧ w.step e = some (w', o)) w w' ∧
      w'.Unfailed dir ∧ ∀ d, ∃ loop, (w' d).outlet = .writing loop := by
  obtain ⟨w₁, hprime, hw₁, hinitiator, hresponder⟩ : ∃ w₁ : Session,
      Relation.ReflTransGen (fun w w' : Session => ∃ e o, e.Works ∧ w.step e = some (w', o)) w w₁ ∧
        w₁.Unfailed dir ∧ (∃ loop, (w₁ .initiator).outlet = .writing loop) ∧
        (w₁ .responder).outlet = (w .responder).outlet := by
    rcases hs.initiator with ⟨rest, ho⟩ | ho | ⟨loop, ho, -⟩
    · obtain ⟨w₁, hst, hi, hr⟩ := step_prime ho
      refine ⟨w₁, .single ⟨.prime rest.length, _, trivial, hst⟩, ?_, ⟨_, by rw [hi]⟩, by rw [hr]⟩
      cases dir with
      | initiator => exact ⟨by simp [hi], by simp [hi], by simpa [hi] using hw.reader⟩
      | responder => exact ⟨by simp [hi], by simpa [hr] using hw.outlet, by simp [hr]⟩
    · exact absurd ho hw.opened
    · exact ⟨w, .refl, hw, ⟨loop, ho⟩, rfl⟩
  rcases hs.responder with ho | ⟨loop, ho, -⟩
  · obtain ⟨w₂, hst, hi, hr⟩ := step_accept (hresponder.trans ho)
    refine ⟨w₂, hprime.tail ⟨.accept, _, trivial, hst⟩, ?_, ?_⟩
    · have hopened : (w₂ .initiator).outlet ≠ .unopened := by simpa [hi] using hw₁.opened
      cases dir with
      | initiator => exact ⟨hopened, by simpa [hi] using hw₁.outlet, by simp [hi]⟩
      | responder => exact ⟨hopened, by simp [hr], by simpa [hr] using hw₁.reader⟩
    · rintro (_ | _)
      · simpa [hi] using hinitiator
      · exact ⟨_, by rw [hr]⟩
  · refine ⟨w₁, hprime, hw₁, ?_⟩
    rintro (_ | _)
    · exact hinitiator
    · exact ⟨loop, hresponder.trans ho⟩

/-- Once both ends write, the loops of a direction that has not failed are there. -/
theorem alive_of_run (hr : chatMachine.Run h w) (hw : w.Unfailed dir)
    (hwriting : ∀ d, ∃ loop, (w d).outlet = .writing loop) : (w dir).Alive := by
  obtain ⟨read, lost, hc⟩ := lawful_of_run hr dir
  obtain ⟨loop, ho⟩ := hwriting dir
  have hreader : (w dir).reader.isSome := by
    have hs := spawned_of_run hr
    cases dir with
    | initiator =>
      obtain ⟨loop', ho'⟩ := hwriting .responder
      rcases hs.responder with h | ⟨_, -, h⟩
      · exact nomatch ho'.symm.trans h
      · exact h
    | responder =>
      obtain ⟨loop', ho'⟩ := hwriting .initiator
      rcases hs.initiator with ⟨rest, h⟩ | h | ⟨_, -, h⟩
      · exact nomatch ho'.symm.trans h
      · exact nomatch ho'.symm.trans h
      · exact h
  obtain ⟨reader, hr⟩ := Option.isSome_iff_exists.1 hreader
  refine ⟨⟨loop, ho, ?_⟩, fun hfin => hc.gone (.inr (.inr hfin)), reader, hr, ?_⟩
  · rintro rfl
    exact hw.outlet ho
  · rcases hc.reader reader hr with rfl | rfl
    · exact absurd hr hw.reader
    · exact ReadLoop.hungry_header.feed read

/-- What works sends nothing. -/
theorem sentBy_eq_nil (hh : ∀ t ∈ h, t.event.Works) : sentBy dir h = [] := by
  refine List.flatMap_eq_nil_iff.2 fun t ht => ?_
  obtain ⟨w, e, out⟩ := t
  cases e with
  | task d t =>
    have ht : t.Works := hh _ ht
    simp [ht.sent]
  | prime | primeFail | accept => rfl

end Session

/-- From every state, a direction in which nothing has failed can be drained: the stream is
    opened and accepted, and the loops and the page go on. -/
theorem exists_drained (hr : chatMachine.Run h w) (dir : End) (hw : w.Unfailed dir) :
    ∃ h' w', chatMachine.Run (h ++ h') w' ∧ sentBy dir h' = [] ∧ (w' dir).Drained := by
  obtain ⟨w₁, hopens, hw₁, hwriting⟩ := hw.opens (spawned_of_run hr)
  obtain ⟨h₁, hr₁, hworks₁⟩ := hr.extend hopens
  obtain ⟨c, hdrained, hreach⟩ := (alive_of_run hr₁ hw₁ hwriting).drains
  have hlift : Relation.ReflTransGen (fun w w' : Session => ∃ e o, e.Works ∧
      w.step e = some (w', o)) (Function.update w₁ dir (w₁ dir)) (Function.update w₁ dir c) :=
    hreach.lift (Function.update w₁ dir) fun c c' ⟨t, out, ht, hst⟩ =>
      ⟨.task dir t, out, ht, by simp [Session.step, hst]⟩
  rw [Function.update_eq_self] at hlift
  obtain ⟨h₂, hr₂, hworks₂⟩ := hr₁.extend hlift
  refine ⟨h₁ ++ h₂, _, by rwa [← List.append_assoc], sentBy_eq_nil fun t ht => ?_, by simpa⟩
  exact (List.mem_append.1 ht).elim (hworks₁ t) (hworks₂ t)

/-- A message can be written to the end, however long it is. -/
theorem exists_drained_sent (msg : String) : ∃ h w, chatMachine.Run h w ∧
    sentBy .initiator h = [msg] ∧ (w .initiator).Drained := by
  have hr := (Machine.Run.nil (m := chatMachine) (s := opened) rfl).exec
    [.prime 4, .accept, .task .initiator (.send msg)] rfl
  obtain ⟨h', w', hr', hsent, hdrained⟩ := exists_drained hr .initiator
    ⟨nofun, nofun, nofun⟩
  refine ⟨_, w', hr', ?_, hdrained⟩
  rw [sentBy, List.flatMap_append, ← sentBy, ← sentBy, hsent]
  rfl

/-- A string of `n` bytes. -/
def repeated (n : ℕ) : String := .ofList (.replicate n 'a')

theorem utf8ByteSize_repeated (n : ℕ) : (repeated n).utf8ByteSize = n := by
  rw [← asBytes_length, asBytes_eq, repeated, String.toList_ofList, List.length_flatMap]
  simp [show 'a'.utf8Size = 1 from rfl]

/-- A message that is too long is not shown, though it is written and the read loop
    reads on as far as it does. -/
theorem chat_incomplete : ¬ ∀ h w dir, chatMachine.Run h w → (∀ m ∈ sentBy dir h, m ≠ "") →
    (∀ m ∈ sentBy dir h, m.utf8ByteSize < 2 ^ 32) → (w dir).Drained →
      shownFrom dir h = sentBy dir h := by
  intro hall
  have hsize := utf8ByteSize_repeated (maxMsg + 1)
  have hlen : (repeated (maxMsg + 1)).utf8ByteSize < 2 ^ 32 := by
    rw [hsize]
    decide
  have hne : repeated (maxMsg + 1) ≠ "" := by
    intro he
    rw [he] at hsize
    cases hsize
  obtain ⟨h, w, hr, hs, hd⟩ := exists_drained_sent (repeated (maxMsg + 1))
  have hsent : ∀ m ∈ sentBy .initiator h, m = repeated (maxMsg + 1) := by simp [hs]
  have hall := hall h w .initiator hr (fun m hm => hsent m hm ▸ hne) (fun m hm => hsent m hm ▸ hlen) hd
  rw [shown_of_drained hr (fun m hm => hsent m hm ▸ hlen) hd, ReadLoop.admitted_eq_self
    fun m hm => hsent m hm ▸ hne] at hall
  have hle := hall (repeated (maxMsg + 1)) (by simp [hs])
  omega

end IrohWebrtc
