import IrohWebrtc.Lib.Ownership
import IrohWebrtc.WebrtcNative

/-!
# The lifetime of a native pair

Who holds a peer connection of a connected pair: the backend of its side until
it is split, then the receiver and every clone of the sender, and the task that
forwards the ICE candidates of the *other* side, which adds them to it. That
task ends when every sender of its queue is gone; one of them is in the
callback registered on the connection of the side the candidates are of, which
lives as long as this connection does.

* `PairLife.step`: what the holders of a pair do, one event at a time;
* `PairLife.live`: the objects of a pair that are left, of which every step
  only releases those without an owner (`PairLife.step_live`);
* `pair_kept_alive`: as the two connections and the two tasks own each other in
  a circle, none of them is ever released.
-/

namespace IrohWebrtc

/-- A serialised ICE candidate. -/
abbrev Candidate := String

/-- Where a task forwarding candidates is. -/
inductive Forwarder
  /-- Waiting for a candidate. -/
  | recv
  /-- Waiting for `add_ice_candidate`. -/
  | adding (init : Candidate)
  /-- Ended, having released the connection. -/
  | ended
  deriving DecidableEq

/-- What lives of a native pair. For each side: its backend until it is split,
    then its receiver and the clones of its sender, the tasks sending on its
    data channel; whether its peer connection, with the callbacks on it, is
    there; the futures of its candidate callback, the queue they fill, and the
    task taking from this queue. -/
structure PairLife where
  backend : Side → Option WebRtcBackend
  receiver : Side → Option WebRtcReceiver
  senders : Side → List WebRtcSender
  tasks : Side → List Bytes
  connected : Side → Bool
  callbacks : Side → List (Option Candidate)
  candidates : Side → List Candidate
  forwarder : Side → Forwarder

/-- What can happen. -/
inductive LifeEvent
  /-- The backend of a side is split, or dropped. -/
  | split (side : Side)
  | dropBackend (side : Side)
  /-- The receiver of a side is dropped. -/
  | dropReceiver (side : Side)
  /-- The `i`-th sender of a side is cloned, or dropped. -/
  | clone (side : Side) (i : ℕ)
  | dropSender (side : Side) (i : ℕ)
  /-- `send` is called on the `i`-th sender of a side. -/
  | send (side : Side) (i : ℕ) (dst : PeerKey) (data : Bytes)
  /-- The `j`-th task of a data channel finishes. -/
  | finish (dc : Side) (j : ℕ)
  /-- A connection calls back with a candidate, or with none that serialises. -/
  | gather (side : Side) (c : Option Candidate)
  /-- The `j`-th future of the candidate callback of a side runs. -/
  | callback (side : Side) (j : ℕ)
  /-- The task forwarding the candidates of a side takes one. -/
  | take (side : Side)
  /-- It is done with it, whether it could be added or not. -/
  | added (side : Side)
  /-- It ends, as every sender of its queue is gone. -/
  | closed (side : Side)
  /-- A connection is dropped with its callbacks, as nothing holds it. -/
  | dropConnection (side : Side)

namespace PairLife

/-- The references of a side's objects to a peer connection, and that of the task
    forwarding its candidates. -/
def references (w : PairLife) (side pc : Side) : ℕ :=
  (w.backend side).toList.countP (·.endpoint.pc = pc) +
  (w.receiver side).toList.countP (·.pc = pc) +
  (w.senders side).countP (·.pc = pc) +
  if side.other = pc ∧ w.forwarder side ≠ .ended then 1 else 0

/-- The strong references to a peer connection. -/
def strongCount (w : PairLife) (pc : Side) : ℕ :=
  w.references .offerer pc + w.references .answerer pc

/-- The senders of the queue of the candidates of a side: the one its callback
    captured and those of the callback's futures. -/
def queueSenders (w : PairLife) (side : Side) : ℕ :=
  (if w.connected side then 1 else 0) + (w.callbacks side).length

/-- What an event does, if it can happen. -/
def step (w : PairLife) : LifeEvent → Option PairLife
  | .split side =>
    match w.backend side with
    | some b =>
      some { w with
        backend := Function.update w.backend side none
        receiver := Function.update w.receiver side (some b.split.1)
        senders := Function.update w.senders side (w.senders side ++ [b.split.2]) }
    | none => none
  | .dropBackend side =>
    match w.backend side with
    | some _ => some { w with backend := Function.update w.backend side none }
    | none => none
  | .dropReceiver side =>
    match w.receiver side with
    | some _ => some { w with receiver := Function.update w.receiver side none }
    | none => none
  | .clone side i =>
    match (w.senders side)[i]? with
    | some s => some { w with senders := Function.update w.senders side (w.senders side ++ [s]) }
    | none => none
  | .dropSender side i =>
    match (w.senders side)[i]? with
    | some _ =>
      some { w with senders := Function.update w.senders side ((w.senders side).eraseIdx i) }
    | none => none
  | .send side i dst data =>
    match (w.senders side)[i]? with
    | some s =>
      match s.send dst data with
      | some (dc, buf) =>
        some { w with tasks := Function.update w.tasks dc (w.tasks dc ++ [buf]) }
      | none => some w
    | none => none
  | .finish dc j =>
    match (w.tasks dc)[j]? with
    | some _ => some { w with tasks := Function.update w.tasks dc ((w.tasks dc).eraseIdx j) }
    | none => none
  | .gather side c =>
    if w.connected side then
      some { w with callbacks := Function.update w.callbacks side (w.callbacks side ++ [c]) }
    else none
  | .callback side j =>
    match (w.callbacks side)[j]? with
    | some c =>
      some { w with
        callbacks := Function.update w.callbacks side ((w.callbacks side).eraseIdx j)
        -- A candidate sent when the task that would take it has ended is dropped.
        candidates := Function.update w.candidates side
          (w.candidates side ++ if w.forwarder side = .ended then [] else c.toList) }
    | none => none
  | .take side =>
    match w.forwarder side, w.candidates side with
    | .recv, c :: rest =>
      some { w with
        forwarder := Function.update w.forwarder side (.adding c)
        candidates := Function.update w.candidates side rest }
    | _, _ => none
  | .added side =>
    match w.forwarder side with
    | .adding _ => some { w with forwarder := Function.update w.forwarder side .recv }
    | _ => none
  | .closed side =>
    if w.forwarder side = .recv ∧ w.candidates side = [] ∧ w.queueSenders side = 0 then
      some { w with forwarder := Function.update w.forwarder side .ended }
    else none
  | .dropConnection side =>
    if w.connected side ∧ w.strongCount side = 0 then
      some { w with connected := Function.update w.connected side false }
    else none

/-- The states `connected_backends` returns in. Candidates have been gathered
    since the descriptions were set and may be anywhere on their way. -/
def Returned (keyA keyB : PeerKey) (w : PairLife) : Prop :=
  ∀ side, w.backend side = some (side.backend keyA keyB) ∧ w.receiver side = none ∧
    w.senders side = [] ∧ w.tasks side = [] ∧ w.connected side ∧ w.forwarder side ≠ .ended

end PairLife

/-- The pair built by `connected_backends keyA keyB`. -/
def lifeMachine (keyA keyB : PeerKey) : Machine PairLife LifeEvent Unit :=
  ⟨{w | w.Returned keyA keyB}, fun w e => (w.step e).map (·, ())⟩

/-! ## Tearing the transport down -/

/-- The events by which drops cascade: what the runtime does by itself, without
    anything new happening to the pair. -/
def LifeEvent.Cascades : LifeEvent → Prop
  | .callback .. | .take _ | .added _ | .closed _ | .dropConnection _ => True
  | _ => False

namespace PairLife

variable {keyA keyB : PeerKey} {w w' : PairLife}

/-- No backend, receiver, sender or send task of the pair is left. -/
def Unowned (w : PairLife) : Prop :=
  ∀ side, w.backend side = none ∧ w.receiver side = none ∧ w.senders side = [] ∧
    w.tasks side = []

/-- One step of the cascade of drops. -/
def Cascade (w w' : PairLife) : Prop := ∃ e : LifeEvent, e.Cascades ∧ w.step e = some w'

/-- Once the drops have cascaded, no connection has a strong reference. -/
def TornDown (w : PairLife) : Prop :=
  ∀ w', Relation.ReflTransGen Cascade w w' → (∀ w'', ¬ Cascade w' w'') →
    ∀ pc, w'.strongCount pc = 0

/-! ## The circle of owners -/

/-- An object of a pair that can be kept alive: a peer connection with the
    callbacks on it, or the task forwarding the candidates of a side. -/
inductive Object
  | connection (side : Side)
  | forwarder (side : Side)

/-- Who owns whom: a connection, through the sender its candidate callback
    captured, the task that takes its candidates; a task, the connection of the
    other side. -/
def Object.Owns : Object → Object → Prop
  | .connection s, .forwarder s' => s = s'
  | .forwarder s, .connection s' => s.other = s'
  | _, _ => False

/-- The objects that are left. -/
def live (w : PairLife) : Set Object
  | .connection side => w.connected side
  | .forwarder side => w.forwarder side ≠ .ended

/-- The two connections and the two tasks own each other. -/
theorem Object.circular : Circular Object.Owns Set.univ := by
  rintro (side | side) -
  · exact ⟨.forwarder side.other, trivial, side.other_other⟩
  · exact ⟨.connection side, trivial, rfl⟩

/-- A task that forwards candidates holds a strong reference to the connection of
    the other side. -/
theorem strongCount_pos {side : Side} (h : w.forwarder side ≠ .ended) :
    0 < w.strongCount side.other := by
  have hpos : 0 < w.references side side.other := by
    rw [references, if_pos ⟨rfl, h⟩]
    omega
  cases side <;> simp only [strongCount, Side.other] at * <;> omega

/-- As long as a connection is there, its candidate callback holds a sender. -/
theorem queueSenders_pos {side : Side} (h : w.connected side) : 0 < w.queueSenders side := by
  simp only [queueSenders, h, if_true]
  omega

/-- A step leaves the live objects alone, except that a task ends when its queue
    has no sender, and a connection is dropped when nothing holds it. -/
theorem step_cases {e : LifeEvent} (hst : w.step e = some w') :
    (w'.connected = w.connected ∧ ∀ side, w.forwarder side ≠ .ended → w'.forwarder side ≠ .ended) ∨
    (∃ side, w.queueSenders side = 0 ∧
      w' = { w with forwarder := Function.update w.forwarder side .ended }) ∨
    (∃ side, w.strongCount side = 0 ∧
      w' = { w with connected := Function.update w.connected side false }) := by
  cases e with
  | split side | dropBackend side | dropReceiver side | clone side i | dropSender side i
  | finish dc j | callback side j =>
    simp only [step] at hst
    split at hst
    · cases hst
      exact .inl ⟨rfl, fun _ h => h⟩
    · cases hst
  | send side i dst data =>
    simp only [step] at hst
    split at hst
    · split at hst
      · cases hst
        exact .inl ⟨rfl, fun _ h => h⟩
      · cases hst
        exact .inl ⟨rfl, fun _ h => h⟩
    · cases hst
  | gather side c =>
    simp only [step] at hst
    split at hst
    · cases hst
      exact .inl ⟨rfl, fun _ h => h⟩
    · cases hst
  | take side | added side =>
    simp only [step] at hst
    split at hst
    · cases hst
      refine .inl ⟨rfl, fun s h => ?_⟩
      by_cases hs : s = side
      · simp [hs]
      · simpa [hs] using h
    · cases hst
  | closed side =>
    simp only [step] at hst
    split at hst
    · next h =>
      cases hst
      exact .inr (.inl ⟨side, h.2.2, rfl⟩)
    · cases hst
  | dropConnection side =>
    simp only [step] at hst
    split at hst
    · next h =>
      cases hst
      exact .inr (.inr ⟨side, h.2, rfl⟩)
    · cases hst

/-- A step leaves the live objects live, or releases one without an owner. -/
theorem step_live {e : LifeEvent} (hst : w.step e = some w') :
    w.live ⊆ w'.live ∨ Released Object.Owns w.live w'.live := by
  rcases step_cases hst with ⟨hc, hf⟩ | ⟨side, h0, rfl⟩ | ⟨side, h0, rfl⟩
  · refine .inl ?_
    rintro (s | s) hs
    · exact (congrFun hc s).trans hs
    · exact hf s hs
  · -- The only owner of the task is the connection, whose callback holds a sender.
    refine .inr ⟨.forwarder side, ?_, ?_⟩
    · rintro (s | s) hs hown
      · cases hown
        exact (queueSenders_pos hs).ne' h0
      · exact hown
    · rintro (s | s) ⟨hs, hne⟩
      · exact hs
      · have hne : s ≠ side := fun h => hne (h ▸ rfl)
        show Function.update w.forwarder side .ended s ≠ .ended
        rwa [Function.update_of_ne hne]
  · -- An owner of the connection would hold a strong reference.
    refine .inr ⟨.connection side, ?_, ?_⟩
    · rintro (s | s) hs hown
      · exact hown
      · cases hown
        exact (strongCount_pos hs).ne' h0
    · rintro (s | s) ⟨hs, hne⟩
      · have hne : s ≠ side := fun h => hne (h ▸ rfl)
        show Function.update w.connected side false s
        rwa [Function.update_of_ne hne]
      · exact hs

/-- The connections and the tasks of a pair are all there in every run. -/
theorem Run.live_eq {h : List (Taken PairLife LifeEvent Unit)}
    (hr : (lifeMachine keyA keyB).Run h w) : w.live = Set.univ := by
  refine Set.univ_subset_iff.1 (Object.circular.run live ?_ ?_ hr)
  · rintro s hs (side | side) -
    · exact (hs side).2.2.2.2.1
    · exact (hs side).2.2.2.2.2
  · intro s e s' o hst
    obtain ⟨w, hst, hw⟩ := Option.map_eq_some_iff.1 hst
    exact step_live (hst.trans (congrArg some (congrArg Prod.fst hw)))

/-! ## The drops do cascade -/

/-- A bound on the steps of the cascade: what the futures, the candidates, the
    task and the connection of a side can still do. -/
def pendingAt (w : PairLife) (side : Side) : ℕ :=
  3 * (w.callbacks side).length + 2 * (w.candidates side).length +
    (match w.forwarder side with | .adding _ => 2 | .recv => 1 | .ended => 0) +
    if w.connected side then 1 else 0

/-- What both sides can still do. -/
def pending (w : PairLife) : ℕ := w.pendingAt .offerer + w.pendingAt .answerer

theorem pending_lt (side : Side) (h : w'.pendingAt side < w.pendingAt side)
    (h' : w'.pendingAt side.other = w.pendingAt side.other) : w'.pending < w.pending := by
  cases side <;> simp only [pending, Side.other] at * <;> omega

/-- Every step of the cascade leaves less to do. -/
theorem Cascade.pending_lt (h : Cascade w w') : w'.pending < w.pending := by
  obtain ⟨e, he, hst⟩ := h
  cases e with
  | split | dropBackend | dropReceiver | clone | dropSender | send | finish | gather => exact he.elim
  | callback side j =>
    simp only [step] at hst
    split at hst
    · next c hc =>
      cases hst
      obtain ⟨hj, -⟩ := List.getElem?_eq_some_iff.1 hc
      refine PairLife.pending_lt side ?_ (by simp [pendingAt])
      have hlen : (if w.forwarder side = .ended then [] else c.toList).length ≤ 1 := by
        split <;> cases c <;> simp
      simp only [pendingAt, Function.update_self, List.length_append, List.length_eraseIdx_of_lt hj]
      omega
    · cases hst
  | take side =>
    simp only [step] at hst
    split at hst
    · next c rest hf hq =>
      cases hst
      refine PairLife.pending_lt side ?_ (by simp [pendingAt])
      simp only [pendingAt, Function.update_self, hf, hq, List.length_cons]
      omega
    · cases hst
  | added side =>
    simp only [step] at hst
    split at hst
    · next c hf =>
      cases hst
      refine PairLife.pending_lt side ?_ (by simp [pendingAt])
      simp only [pendingAt, Function.update_self, hf]
      omega
    · cases hst
  | closed side =>
    simp only [step] at hst
    split at hst
    · next h =>
      cases hst
      refine PairLife.pending_lt side ?_ (by simp [pendingAt])
      simp only [pendingAt, Function.update_self, h.1]
      omega
    · cases hst
  | dropConnection side =>
    simp only [step] at hst
    split at hst
    · next h =>
      cases hst
      refine PairLife.pending_lt side ?_ (by simp [pendingAt])
      simp [pendingAt, h.1]
    · cases hst

end PairLife

open PairLife

variable {keyA keyB : PeerKey} {w w' : PairLife} {h : List (Taken PairLife LifeEvent Unit)}

/-- A cascade extends a run. -/
theorem Cascade.run (hr : (lifeMachine keyA keyB).Run h w)
    (hc : Relation.ReflTransGen Cascade w w') : ∃ h', (lifeMachine keyA keyB).Run h' w' := by
  induction hc with
  | refl => exact ⟨h, hr⟩
  | tail _ hst ih =>
    obtain ⟨h', hr'⟩ := ih
    obtain ⟨e, -, hst⟩ := hst
    exact ⟨_, hr'.snoc (e := e) (o := ()) (by simp [lifeMachine, hst])⟩

/-- Each connection of a pair has a strong reference in every state of every run:
    the task forwarding the other side's candidates. -/
theorem pair_kept_alive (hr : (lifeMachine keyA keyB).Run h w) (pc : Side) :
    0 < w.strongCount pc := by
  have hf : Object.forwarder pc.other ∈ w.live := Run.live_eq hr ▸ trivial
  simpa using strongCount_pos hf

/-- The drops cascade to an end, and both connections are still there. -/
theorem pair_not_tornDown (hr : (lifeMachine keyA keyB).Run h w) : ¬ w.TornDown := by
  intro htd
  obtain ⟨w', hc, hend⟩ := exists_settled pending (fun _ _ => Cascade.pending_lt) w
  obtain ⟨h', hr'⟩ := Cascade.run hr hc
  exact (pair_kept_alive hr' .offerer).ne' (htd w' hc hend .offerer)

/-- The transport is never torn down. In whatever state of a run, also when no
    backend, receiver, sender or send task is left:
    * the drops cascade to an end in which a connection has a strong reference;
    * at every point of the cascade, each of the two connections has one. -/
theorem pair_never_torn_down (hr : (lifeMachine keyA keyB).Run h w) :
    ¬ w.TornDown ∧ ∀ w', Relation.ReflTransGen Cascade w w' → ∀ pc, 0 < w'.strongCount pc := by
  refine ⟨pair_not_tornDown hr, fun w' hc pc => ?_⟩
  obtain ⟨h', hr'⟩ := Cascade.run hr hc
  exact pair_kept_alive hr' pc

/-- The pair as it is returned when no candidate is on its way. -/
def PairLife.idle (keyA keyB : PeerKey) : PairLife where
  backend side := some (side.backend keyA keyB)
  receiver _ := none
  senders _ := []
  tasks _ := []
  connected _ := true
  callbacks _ := []
  candidates _ := []
  forwarder _ := .recv

/-- The offerer's backend is split and used before all it owns is dropped, the
    answerer's is dropped as it is, and a candidate is forwarded in between. -/
theorem droppedPair_run : ∃ h w, (lifeMachine (.replicate 32 1) (.replicate 32 2)).Run h w ∧
    w.Unowned := by
  have hr := (Machine.Run.nil (m := lifeMachine (.replicate 32 1) (.replicate 32 2))
    (s := PairLife.idle (.replicate 32 1) (.replicate 32 2))
      (by simp [lifeMachine, Returned, idle])).exec
    [.split .offerer, .clone .offerer 0, .gather .answerer (some "candidate"),
      .send .offerer 1 (.replicate 32 2) [7], .dropSender .offerer 0, .dropReceiver .offerer,
      .callback .answerer 0, .take .answerer, .dropBackend .answerer, .added .answerer,
      .dropSender .offerer 0, .finish .offerer 0] rfl
  refine ⟨_, _, hr, ?_⟩
  rintro (_ | _) <;> exact ⟨rfl, rfl, rfl, rfl⟩

/-- It is not torn down. -/
theorem droppedPair_not_tornDown : ¬ ∀ h w,
    (lifeMachine (.replicate 32 1) (.replicate 32 2)).Run h w → w.Unowned → w.TornDown := by
  intro hall
  obtain ⟨h, w, hr, hw⟩ := droppedPair_run
  exact pair_not_tornDown hr (hall h w hr hw)

/-- The connections that are left then. -/
theorem droppedPair_kept : ∃ h w, (lifeMachine (.replicate 32 1) (.replicate 32 2)).Run h w ∧
    w.Unowned ∧ ¬ w.TornDown := by
  obtain ⟨h, w, hr, hw⟩ := droppedPair_run
  exact ⟨h, w, hr, hw, (pair_never_torn_down hr).1⟩

end IrohWebrtc
