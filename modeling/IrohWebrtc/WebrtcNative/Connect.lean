import IrohWebrtc.Lib.Machine
import IrohWebrtc.WebrtcNative
import Mathlib.Data.List.Infix
import Mathlib.Logic.Function.Basic

/-!
# The exchange of candidates

`connect_pair` makes its calls one after another (`program`), any of which may fail up to
the two tasks that forward candidates. Each side's candidates come in callbacks, from when
its local description is set, and go through an unbounded queue to its task, which adds
them to the connection of the other side. The calls, the callbacks and the tasks go on
independently.

* `Exchange.Program`: what is set according to the calls still to be made. A task is there
  only when both remote descriptions are set (`program_step`).
* `conserved`: what has been passed to a connection, and what is on the way to it, are what
  the other side has found (`conserve_step`).
* `served`: what is on the way can still be passed, whatever comes of adding it.
* `failed_of_early`: a failure before there are tasks is final.
-/

namespace IrohWebrtc

/-- The calls of `connect_pair`. -/
inductive ConnectCall
  | newApi
  | newPeerConnection (s : Side)
  | createDataChannel
  | createOffer
  | createAnswer
  | setLocalDescription (s : Side)
  | setRemoteDescription (s : Side)
  /-- The task is spawned that forwards the candidates of a side. -/
  | spawn (s : Side)
  /-- A signal is awaited: the answerer's channel, or that a channel is open. -/
  | dataChannel
  | opened (s : Side)
  deriving DecidableEq

def ConnectCall.program : List ConnectCall := [
  .newApi, .newPeerConnection .offerer, .newPeerConnection .answerer, .createDataChannel,
  .createOffer, .setLocalDescription .offerer, .setRemoteDescription .answerer,
  .createAnswer, .setLocalDescription .answerer, .setRemoteDescription .offerer,
  .spawn .offerer, .spawn .answerer, .dataChannel, .opened .offerer, .opened .answerer]

/-- The task that forwards candidates. -/
inductive ForwardTask (Init : Type*)
  | absent
  /-- Waiting for a candidate in the queue. -/
  | receiving
  /-- Having taken one. -/
  | holding (init : Init)
  /-- Waiting for it to be added. -/
  | adding
  deriving DecidableEq

/-- What there is of one side. -/
structure ConnectPeer (Cand Init : Type*) where
  localDescription : Bool
  remoteDescription : Bool
  /-- The callback that is running, with its candidate or the end of candidates. -/
  callback : Option (Option Cand)
  /-- The candidates queued, as long as the queue's receiver is there. -/
  queue : Option (List Init)
  task : ForwardTask Init

/-- How `connect_pair` has ended. -/
inductive Outcome
  | running
  | failed
  | connected
  deriving DecidableEq

structure Exchange (Cand Init : Type*) where
  /-- The calls still to be made, the first of them being under way. -/
  rest : List ConnectCall
  /-- Whether the first has taken effect. -/
  applied : Bool
  outcome : Outcome
  peers : Side → ConnectPeer Cand Init

inductive ConnectEvent (Cand : Type*)
  /-- The call under way takes effect. -/
  | apply
  /-- The call under way returns. -/
  | ret (ok : Bool)
  /-- A side calls its callback. -/
  | found (s : Side) (c : Option Cand)
  /-- The callback of a side is run. -/
  | callback (s : Side)
  /-- The task of a side takes a candidate from the queue. -/
  | take (s : Side)
  /-- The task of a side calls `add_ice_candidate` on the other side. -/
  | add (s : Side)
  /-- This call returns. -/
  | added (s : Side) (ok : Bool)

/-- A candidate passed to a connection. -/
abbrev Passed (Init : Type*) := Option (Side × Init)

namespace Exchange

variable {Cand Init : Type*}

def setPeer (x : Exchange Cand Init) (s : Side) (p : ConnectPeer Cand Init) :
    Exchange Cand Init :=
  { x with peers := Function.update x.peers s p }

/-- What a call does. -/
def effect (x : Exchange Cand Init) : ConnectCall → Exchange Cand Init
  | .setLocalDescription s => x.setPeer s { x.peers s with localDescription := true }
  | .setRemoteDescription s => x.setPeer s { x.peers s with remoteDescription := true }
  | .spawn s => x.setPeer s { x.peers s with task := .receiving }
  | _ => x

/-- Returning an error drops the queues' receivers, if they are not with the tasks. -/
def fail (x : Exchange Cand Init) : Exchange Cand Init where
  rest := x.rest
  applied := x.applied
  outcome := .failed
  peers s := match (x.peers s).task with
    | .absent => { x.peers s with queue := none }
    | _ => x.peers s

/-- Spawning a task does not fail. -/
def fallible : ConnectCall → Bool
  | .spawn _ => false
  | _ => true

def step (toJson : Cand → Option Init) (x : Exchange Cand Init) :
    ConnectEvent Cand → Option (Exchange Cand Init × Passed Init)
  | .apply =>
    match x.rest, x.applied, x.outcome with
    | call :: _, false, .running => some ({ x.effect call with applied := true }, none)
    | _, _, _ => none
  | .ret ok =>
    match x.rest, x.outcome with
    | call :: rest, .running =>
      if ok then
        if x.applied then
          some ({ x with rest := rest, applied := false,
                         outcome := if rest = [] then .connected else .running }, none)
        else none
      else if fallible call then some (x.fail, none) else none
    | _, _ => none
  | .found s c =>
    match (x.peers s).localDescription, (x.peers s).callback with
    | true, none => some (x.setPeer s { x.peers s with callback := some c }, none)
    | _, _ => none
  | .callback s =>
    match (x.peers s).callback with
    | some c =>
      -- What is not serialisable is dropped, and so is what there is no receiver for.
      some (x.setPeer s { x.peers s with
        callback := none
        queue := (x.peers s).queue.map fun q => q ++ (c.bind toJson).toList }, none)
    | none => none
  | .take s =>
    match (x.peers s).task, (x.peers s).queue with
    | .receiving, some (init :: q) =>
      some (x.setPeer s { x.peers s with task := .holding init, queue := some q }, none)
    | _, _ => none
  | .add s =>
    match (x.peers s).task with
    | .holding init =>
      some (x.setPeer s { x.peers s with task := .adding }, some (s.other, init))
    | _ => none
  | .added s _ =>
    match (x.peers s).task with
    | .adding => some (x.setPeer s { x.peers s with task := .receiving }, none)
    | _ => none

def new : Exchange Cand Init where
  rest := ConnectCall.program
  applied := false
  outcome := .running
  peers _ := ⟨false, false, none, some [], .absent⟩

/-- The serialisable candidate in the callback of a side. -/
def inCallback (toJson : Cand → Option Init) (x : Exchange Cand Init) (s : Side) : List Init :=
  (((x.peers s).callback.bind id).bind toJson).toList

/-- The candidates queued. -/
def inQueue (x : Exchange Cand Init) (s : Side) : List Init := (x.peers s).queue.getD []

/-- The candidate in the hand of the task. -/
def inHand (x : Exchange Cand Init) (s : Side) : List Init :=
  match (x.peers s).task with
  | .holding init => [init]
  | _ => []

end Exchange

variable {Cand Init : Type*}

/-- `connect_pair`, from its beginning. -/
def connectMachine (toJson : Cand → Option Init) :
    Machine (Exchange Cand Init) (ConnectEvent Cand) (Passed Init) :=
  ⟨{Exchange.new}, Exchange.step toJson⟩

/-- A step of a run of `connect_pair`. -/
abbrev ConnectTaken (Cand Init : Type*) :=
  Taken (Exchange Cand Init) (ConnectEvent Cand) (Passed Init)

/-- The serialisable candidates a side has found. -/
def foundBy (toJson : Cand → Option Init) (s : Side) (h : List (ConnectTaken Cand Init)) :
    List Init :=
  h.flatMap fun t => match t.event with
    | .found s' c => if s' = s then (c.bind toJson).toList else []
    | _ => []

/-- The candidates passed to the connection of a side. -/
def passedTo (s : Side) (h : List (ConnectTaken Cand Init)) : List Init :=
  h.flatMap fun t => match t.out with
    | some (s', init) => if s' = s then [init] else []
    | none => []

namespace Exchange

variable {toJson : Cand → Option Init} {x x' : Exchange Cand Init} {e : ConnectEvent Cand}
  {o : Passed Init} {s s' : Side} {call : ConnectCall} {p : ConnectPeer Cand Init}

@[simp] theorem peers_setPeer_self : (x.setPeer s p).peers s = p := Function.update_self ..

theorem peers_setPeer_of_ne (h : s' ≠ s) : (x.setPeer s p).peers s' = x.peers s' :=
  Function.update_of_ne h ..

/-- No call changes how far the program is, or how it ends. -/
theorem outcome_effect (call : ConnectCall) : (x.effect call).outcome = x.outcome := by
  cases call <;> rfl

theorem rest_effect (call : ConnectCall) : (x.effect call).rest = x.rest := by
  cases call <;> rfl

theorem peers_effect (call : ConnectCall) (s : Side) :
    (x.effect call).peers s = { x.peers s with
      localDescription := (x.peers s).localDescription || decide (call = .setLocalDescription s)
      remoteDescription := (x.peers s).remoteDescription || decide (call = .setRemoteDescription s)
      task := if call = .spawn s then .receiving else (x.peers s).task } := by
  cases call with
  | setLocalDescription s' | setRemoteDescription s' | spawn s' =>
    rcases eq_or_ne s s' with rfl | hne
    · simp [effect]
    · simp [effect, peers_setPeer_of_ne hne, hne.symm]
  | _ => simp [effect]

/-- What tasks receive is not dropped. -/
theorem peers_fail_of_ne (h : (x.peers s).task ≠ .absent) : x.fail.peers s = x.peers s := by
  dsimp only [fail]
  split
  · next htask => exact absurd htask h
  · rfl

theorem peers_fail_of_eq (h : (x.peers s).task = .absent) :
    x.fail.peers s = { x.peers s with queue := none } := by
  simp [fail, h]

theorem remoteDescription_fail :
    (x.fail.peers s).remoteDescription = (x.peers s).remoteDescription := by
  dsimp only [fail]
  split <;> rfl

theorem task_fail : (x.fail.peers s).task = (x.peers s).task := by
  dsimp only [fail]
  split <;> rfl

/-- The calls that have still to take effect. -/
def pending (x : Exchange Cand Init) : List ConnectCall := if x.applied then x.rest.tail else x.rest

/-- What a step can do: a call takes effect, the program goes on or fails, or something
    happens on one side. -/
inductive Moves (toJson : Cand → Option Init) (x : Exchange Cand Init) :
    ConnectEvent Cand → Exchange Cand Init → Passed Init → Prop
  | apply {call : ConnectCall} {x' : Exchange Cand Init} (hpending : x.pending = call :: x'.pending)
      (houtcome : x.outcome = .running) (houtcome' : x'.outcome = .running)
      (hpeers : x'.peers = (x.effect call).peers) : Moves toJson x .apply x' none
  | ret {x' : Exchange Cand Init} (hpending : x'.pending = x.pending)
      (houtcome : x.outcome = .running) (hpeers : x'.peers = x.peers) :
      Moves toJson x (.ret true) x' none
  | fail : x.outcome = .running → Moves toJson x (.ret false) x.fail none
  | found {s : Side} {c : Option Cand} (hcallback : (x.peers s).callback = none) :
      Moves toJson x (.found s c) (x.setPeer s { x.peers s with callback := some c }) none
  | callback {s : Side} {c : Option Cand} (hcallback : (x.peers s).callback = some c) :
      Moves toJson x (.callback s) (x.setPeer s { x.peers s with
        callback := none
        queue := (x.peers s).queue.map fun q => q ++ (c.bind toJson).toList }) none
  | take {s : Side} {init : Init} {q : List Init} (htask : (x.peers s).task = .receiving)
      (hqueue : (x.peers s).queue = some (init :: q)) :
      Moves toJson x (.take s)
        (x.setPeer s { x.peers s with task := .holding init, queue := some q }) none
  | add {s : Side} {init : Init} (htask : (x.peers s).task = .holding init) :
      Moves toJson x (.add s) (x.setPeer s { x.peers s with task := .adding })
        (some (s.other, init))
  | added {s : Side} {ok : Bool} (htask : (x.peers s).task = .adding) :
      Moves toJson x (.added s ok) (x.setPeer s { x.peers s with task := .receiving }) none

theorem moves_of_step (hst : x.step toJson e = some (x', o)) : Moves toJson x e x' o := by
  cases e with
  | apply =>
    rw [step] at hst
    split at hst
    · next call rest hrest happlied houtcome =>
      cases hst
      refine Moves.apply (x := x) ?_ houtcome ((outcome_effect call).trans houtcome) rfl
      simp [pending, hrest, happlied, rest_effect]
    · cases hst
  | ret ok =>
    rw [step] at hst
    split at hst
    · next call rest hrest houtcome =>
      cases ok with
      | true =>
        rw [if_pos rfl] at hst
        split at hst
        · next happlied =>
          cases hst
          exact .ret (by simp [pending, hrest, happlied]) houtcome rfl
        · cases hst
      | false =>
        rw [if_neg Bool.false_ne_true] at hst
        split at hst
        · cases hst
          exact .fail houtcome
        · cases hst
    · cases hst
  | found s c =>
    rw [step] at hst
    split at hst
    · next hcallback =>
      cases hst
      exact .found hcallback
    · cases hst
  | callback s =>
    rw [step] at hst
    split at hst
    · next c hcallback =>
      cases hst
      exact .callback hcallback
    · cases hst
  | take s =>
    rw [step] at hst
    split at hst
    · next init q htask hqueue =>
      cases hst
      exact .take htask hqueue
    · cases hst
  | add s =>
    rw [step] at hst
    split at hst
    · next init htask =>
      cases hst
      exact .add htask
    · cases hst
  | added s ok =>
    rw [step] at hst
    split at hst
    · next htask =>
      cases hst
      exact .added htask
    · cases hst

/-! ## The program -/

/-- No call is made twice, and none sets a remote description once tasks are spawned. -/
theorem program_facts {rest : List ConnectCall} (h : call :: rest <:+ ConnectCall.program) :
    call ∉ rest ∧ ∀ s, call = .spawn s → ∀ s', .setRemoteDescription s' ∉ rest := by
  have hall : ∀ l ∈ ConnectCall.program.tails, ∀ call ∈ l.head?, call ∉ l.tail ∧
      ∀ s ∈ [Side.offerer, .answerer], call = .spawn s →
        ∀ s' ∈ [Side.offerer, .answerer], .setRemoteDescription s' ∉ l.tail := by decide
  obtain ⟨habsent, hspawn⟩ := hall _ ((List.mem_tails _ _).2 h) call rfl
  have hside : ∀ s : Side, s ∈ [Side.offerer, .answerer] := fun s => by cases s <;> decide
  exact ⟨habsent, fun s hs s' => hspawn s (hside s) hs s' (hside s')⟩

/-- What is set according to the calls that have still to take effect. -/
structure Program (x : Exchange Cand Init) : Prop where
  suffix : x.pending <:+ ConnectCall.program
  remote : ∀ s, .setRemoteDescription s ∉ x.pending → (x.peers s).remoteDescription
  absent : ∀ s, .spawn s ∈ x.pending → (x.peers s).task = .absent
  spawned : ∀ s, (x.peers s).task ≠ .absent → ∀ s', .setRemoteDescription s' ∉ x.pending
  failed : ∀ s, (x.peers s).queue = none → (x.peers s).task = .absent ∧ x.outcome = .failed

theorem program_new : (new : Exchange Cand Init).Program where
  suffix := List.suffix_rfl
  remote s hs := absurd (by cases s <;> simp [pending, new, ConnectCall.program]) hs
  absent _ _ := rfl
  spawned _ h := absurd rfl h
  failed _ h := nomatch h

/-- What happens on one side does not bear on the program. -/
theorem Program.setPeer (hx : x.Program)
    (hremote : p.remoteDescription = (x.peers s).remoteDescription)
    (htask : p.task = .absent ↔ (x.peers s).task = .absent)
    (hqueue : p.queue = none → (x.peers s).queue = none) : (x.setPeer s p).Program := by
  refine ⟨hx.suffix, fun s' hs' => ?_, fun s' hs' => ?_, fun s' hs' => ?_, fun s' hs' => ?_⟩
  all_goals rcases eq_or_ne s' s with rfl | hne
  · rw [peers_setPeer_self, hremote]
    exact hx.remote s' hs'
  · rw [peers_setPeer_of_ne hne]
    exact hx.remote s' hs'
  · rw [peers_setPeer_self, htask]
    exact hx.absent s' hs'
  · rw [peers_setPeer_of_ne hne]
    exact hx.absent s' hs'
  · rw [peers_setPeer_self, Ne, htask] at hs'
    exact hx.spawned s' hs'
  · rw [peers_setPeer_of_ne hne] at hs'
    exact hx.spawned s' hs'
  · rw [peers_setPeer_self] at hs' ⊢
    rw [htask]
    exact hx.failed s' (hqueue hs')
  · rw [peers_setPeer_of_ne hne] at hs' ⊢
    exact hx.failed s' hs'

theorem program_step (hx : x.Program) (hst : x.step toJson e = some (x', o)) : x'.Program := by
  cases moves_of_step hst with
  | @apply call x' hpending houtcome houtcome' hpeers =>
    have hsuffix := hx.suffix
    rw [hpending] at hsuffix
    obtain ⟨habsent, hspawn⟩ := program_facts hsuffix
    -- What is not pending now was not pending before, or is what has just taken effect; and
    -- this is not made a second time.
    refine ⟨(List.suffix_cons _ _).trans hsuffix, fun s hs => ?_, fun s hs => ?_, fun s hs => ?_,
      fun s hs => ?_⟩
    · rw [hpeers, peers_effect]
      by_cases hcall : call = .setRemoteDescription s
      · simp [hcall]
      · have := hx.remote s (by simp [hpending, hs, Ne.symm hcall])
        simp [this]
    · rw [hpeers, peers_effect]
      have hcall : call ≠ .spawn s := fun hcall => habsent (hcall ▸ hs)
      simp [hcall, hx.absent s (by simp [hpending, hs])]
    · rw [hpeers, peers_effect] at hs
      by_cases hcall : call = .spawn s
      · exact hspawn s hcall
      · intro s' hs'
        exact hx.spawned s (by simpa [hcall] using hs) s' (by simp [hpending, hs'])
    · rw [hpeers, peers_effect] at hs
      exact absurd (houtcome.symm.trans (hx.failed s hs).2) (by decide)
  | @ret x' hpending houtcome hpeers =>
    refine ⟨hpending ▸ hx.suffix, ?_, ?_, ?_, fun s hs => ?_⟩
    · rw [hpending, hpeers]
      exact hx.remote
    · rw [hpending, hpeers]
      exact hx.absent
    · rw [hpending, hpeers]
      exact hx.spawned
    · rw [hpeers] at hs
      exact absurd (houtcome.symm.trans (hx.failed s hs).2) (by decide)
  | fail houtcome =>
    refine ⟨hx.suffix, fun s hs => ?_, fun s hs => ?_, fun s hs => ?_, fun s hs => ⟨?_, rfl⟩⟩
    · rw [remoteDescription_fail]
      exact hx.remote s hs
    · rw [task_fail]
      exact hx.absent s hs
    · rw [task_fail] at hs
      exact hx.spawned s hs
    · -- Only the queue of a task that is not there is dropped.
      rw [task_fail]
      by_contra htask
      rw [peers_fail_of_ne htask] at hs
      exact htask (hx.failed s hs).1
  | found hcallback => exact hx.setPeer rfl .rfl id
  | callback hcallback => exact hx.setPeer rfl .rfl (by simp)
  | take htask hqueue => exact hx.setPeer rfl (by simp [htask]) (by simp)
  | add htask => exact hx.setPeer rfl (by simp [htask]) id
  | added htask => exact hx.setPeer rfl (by simp [htask]) id

/-! ## What has been found and what has been passed -/

/-- What is on the way from one side to the other. -/
def onTheWay (toJson : Cand → Option Init) (x : Exchange Cand Init) (s : Side) : List Init :=
  x.inHand s ++ (x.inQueue s ++ x.inCallback toJson s)

theorem onTheWay_setPeer_of_ne (h : s' ≠ s) :
    (x.setPeer s p).onTheWay toJson s' = x.onTheWay toJson s' := by
  simp only [onTheWay, inHand, inQueue, inCallback, peers_setPeer_of_ne h]

theorem onTheWay_eq_of_peers (h : x'.peers s = x.peers s) :
    x'.onTheWay toJson s = x.onTheWay toJson s := by
  simp only [onTheWay, inHand, inQueue, inCallback, h]

/-- A step of the other side, by which nothing of this side is found or passed. -/
theorem conserve_of_ne (hne : s ≠ s') (hqueue : ((x.setPeer s' p).peers s).queue ≠ none)
    (hpassed : passedTo s.other [(⟨x, e, o⟩ : ConnectTaken Cand Init)] = [])
    (hfound : foundBy toJson s [(⟨x, e, o⟩ : ConnectTaken Cand Init)] = []) :
    (x.peers s).queue ≠ none ∧
      passedTo s.other [(⟨x, e, o⟩ : ConnectTaken Cand Init)] ++
          (x.setPeer s' p).onTheWay toJson s =
        x.onTheWay toJson s ++ foundBy toJson s [(⟨x, e, o⟩ : ConnectTaken Cand Init)] := by
  rw [peers_setPeer_of_ne hne] at hqueue
  rw [hpassed, hfound, onTheWay_setPeer_of_ne hne, List.nil_append, List.append_nil]
  exact ⟨hqueue, rfl⟩

/-- What is passed to the other side at a step, and what is on the way after it, are what
    was on the way and what is found. -/
theorem conserve_step (hx : x.Program) (hst : x.step toJson e = some (x', o))
    (hqueue : (x'.peers s).queue ≠ none) :
    (x.peers s).queue ≠ none ∧
      passedTo s.other [(⟨x, e, o⟩ : ConnectTaken Cand Init)] ++ x'.onTheWay toJson s =
        x.onTheWay toJson s ++ foundBy toJson s [(⟨x, e, o⟩ : ConnectTaken Cand Init)] := by
  cases moves_of_step hst with
  | @apply call x' hpending houtcome houtcome' hpeers =>
    rw [hpeers, peers_effect] at hqueue
    refine ⟨hqueue, ?_⟩
    -- A task that is spawned was not there, and so there was nothing in its hand.
    have hinHand : x'.inHand s = x.inHand s := by
      rw [inHand, inHand, hpeers, peers_effect]
      by_cases hcall : call = .spawn s
      · have htask := hx.absent s (by simp [hpending, hcall])
        simp [hcall, htask]
      · simp [hcall]
    rw [onTheWay, hinHand, inQueue, inCallback, hpeers, peers_effect]
    simp [passedTo, foundBy, onTheWay, inQueue, inCallback]
  | ret hpending houtcome hpeers =>
    rw [hpeers] at hqueue
    refine ⟨hqueue, ?_⟩
    simp [passedTo, foundBy, onTheWay_eq_of_peers (congrFun hpeers s)]
  | fail houtcome =>
    have htask : (x.peers s).task ≠ .absent := fun htask => hqueue (by rw [peers_fail_of_eq htask])
    rw [peers_fail_of_ne htask] at hqueue
    refine ⟨hqueue, ?_⟩
    simp [passedTo, foundBy, onTheWay_eq_of_peers (peers_fail_of_ne htask)]
  | @found s' c hcallback =>
    rcases eq_or_ne s s' with rfl | hne
    · rw [peers_setPeer_self] at hqueue
      refine ⟨hqueue, ?_⟩
      simp [passedTo, foundBy, onTheWay, inHand, inQueue, inCallback, hcallback]
    · exact conserve_of_ne hne hqueue rfl (by simp [foundBy, hne.symm])
  | @callback s' c hcallback =>
    rcases eq_or_ne s s' with rfl | hne
    · rw [peers_setPeer_self, Ne, Option.map_eq_none_iff] at hqueue
      obtain ⟨q, hq⟩ := Option.ne_none_iff_exists'.1 hqueue
      refine ⟨hqueue, ?_⟩
      simp [passedTo, foundBy, onTheWay, inHand, inQueue, inCallback, hcallback, hq]
    · exact conserve_of_ne hne hqueue rfl rfl
  | @take s' init q htask hq =>
    rcases eq_or_ne s s' with rfl | hne
    · refine ⟨by simp [hq], ?_⟩
      simp [passedTo, foundBy, onTheWay, inHand, inQueue, inCallback, htask, hq]
    · exact conserve_of_ne hne hqueue rfl rfl
  | @add s' init htask =>
    rcases eq_or_ne s s' with rfl | hne
    · rw [peers_setPeer_self] at hqueue
      refine ⟨hqueue, ?_⟩
      simp [passedTo, foundBy, onTheWay, inHand, inQueue, inCallback, htask]
    · refine conserve_of_ne hne hqueue ?_ rfl
      simp [passedTo, Side.other_injective.ne hne.symm]
  | @added s' ok htask =>
    rcases eq_or_ne s s' with rfl | hne
    · rw [peers_setPeer_self] at hqueue
      refine ⟨hqueue, ?_⟩
      simp [passedTo, foundBy, onTheWay, inHand, inQueue, inCallback, htask]
    · exact conserve_of_ne hne hqueue rfl rfl

/-! ## Runs -/

section Runs

variable {h : List (ConnectTaken Cand Init)}

theorem program_of_run (hr : (connectMachine toJson).Run h x) : x.Program := by
  refine hr.invariant ?_ fun _ _ _ _ => program_step
  rintro _ rfl
  exact program_new

/-- As long as there is a queue, nothing is lost. -/
theorem conserved (hr : (connectMachine toJson).Run h x) (hqueue : (x.peers s).queue ≠ none) :
    passedTo s.other h ++ x.onTheWay toJson s = foundBy toJson s h := by
  refine hr.conserve .eq (G := fun x => (x.peers s).queue ≠ none)
    (q := fun x => x.onTheWay toJson s) _ _ ?_ (fun h x e x' o hr hst hG => ?_) hqueue
  · rintro _ rfl
    rfl
  · simpa [passedTo, foundBy] using conserve_step (program_of_run hr) hst hG

/-- A task that is not there was not there before, and has passed nothing. -/
theorem absent_of_step (hst : x.step toJson e = some (x', o))
    (habsent : (x'.peers s).task = .absent) :
    (x.peers s).task = .absent ∧
      passedTo s.other [(⟨x, e, o⟩ : ConnectTaken Cand Init)] = [] := by
  cases moves_of_step hst with
  | @apply call x' hpending houtcome houtcome' hpeers =>
    rw [hpeers, peers_effect] at habsent
    by_cases hcall : call = .spawn s
    · rw [if_pos hcall] at habsent
      cases habsent
    · rw [if_neg hcall] at habsent
      exact ⟨habsent, rfl⟩
  | ret hpending houtcome hpeers =>
    rw [hpeers] at habsent
    exact ⟨habsent, rfl⟩
  | fail => exact ⟨task_fail.symm.trans habsent, rfl⟩
  | @found s' | @callback s' =>
    rcases eq_or_ne s s' with rfl | hne
    · rw [peers_setPeer_self] at habsent
      exact ⟨habsent, rfl⟩
    · rw [peers_setPeer_of_ne hne] at habsent
      exact ⟨habsent, rfl⟩
  | @take s' | @added s' =>
    rcases eq_or_ne s s' with rfl | hne
    · rw [peers_setPeer_self] at habsent
      cases habsent
    · rw [peers_setPeer_of_ne hne] at habsent
      exact ⟨habsent, rfl⟩
  | @add s' =>
    rcases eq_or_ne s s' with rfl | hne
    · rw [peers_setPeer_self] at habsent
      cases habsent
    · rw [peers_setPeer_of_ne hne] at habsent
      exact ⟨habsent, by simp [passedTo, Side.other_injective.ne hne.symm]⟩

theorem passedTo_of_absent (hr : (connectMachine toJson).Run h x)
    (habsent : (x.peers s).task = .absent) : passedTo s.other h = [] := by
  refine hr.induction (P := fun h x => (x.peers s).task = .absent → passedTo s.other h = [])
    (fun _ _ _ => rfl) (fun h x e x' o _ ih hst habsent => ?_) habsent
  obtain ⟨habsent, hpassed⟩ := absent_of_step hst habsent
  rw [passedTo, List.flatMap_append, ← passedTo, ← passedTo, ih habsent, hpassed, List.nil_append]

/-- Once `connect_pair` has failed, no task is spawned. -/
theorem failed_step (hst : x.step toJson e = some (x', o)) (houtcome : x.outcome = .failed) :
    x'.outcome = .failed ∧ ∀ s, (x.peers s).task = .absent → (x'.peers s).task = .absent := by
  have hrunning : x.outcome ≠ .running := by simp [houtcome]
  have hsetPeer : ∀ s' p, ((x.peers s').task = .absent → p.task = .absent) →
      (x.setPeer s' p).outcome = .failed ∧
        ∀ s, (x.peers s).task = .absent → ((x.setPeer s' p).peers s).task = .absent := by
    refine fun s' p hp => ⟨houtcome, fun s hs => ?_⟩
    rcases eq_or_ne s s' with rfl | hne
    · rw [peers_setPeer_self]
      exact hp hs
    · rwa [peers_setPeer_of_ne hne]
  cases moves_of_step hst with
  | apply _ h | ret _ h | fail h => exact absurd h hrunning
  | found | callback => exact hsetPeer _ _ id
  | take htask | add htask | added htask => exact hsetPeer _ _ (by simp [htask])

/-- A failure before there are tasks is that of `connect_pair`, and there will be none. -/
theorem failed_of_early (hr : (connectMachine toJson).Run h x) {t : ConnectTaken Cand Init}
    (ht : t ∈ h) (hevent : t.event = .ret false) (habsent : ∀ s, (t.pre.peers s).task = .absent) :
    x.outcome = .failed ∧ ∀ s, (x.peers s).task = .absent := by
  refine hr.induction (P := fun h x => t ∈ h → x.outcome = .failed ∧
    ∀ s, (x.peers s).task = .absent) (fun _ _ ht => nomatch ht)
    (fun h x e x' o _ ih hst ht => ?_) ht
  rcases List.mem_append.1 ht with ht | ht
  · obtain ⟨houtcome, htask⟩ := ih ht
    obtain ⟨houtcome', htask'⟩ := failed_step hst houtcome
    exact ⟨houtcome', fun s => htask' s (htask s)⟩
  · rw [List.mem_singleton] at ht
    subst ht
    dsimp only at hevent habsent
    subst hevent
    have hmoves : Moves toJson x (.ret false) x' o := moves_of_step hst
    cases hmoves with
    | fail => exact ⟨rfl, fun s => task_fail.trans (habsent s)⟩

/-- The events by which what one side has found is passed on. -/
def Serves (s : Side) (ok : Bool) (e : ConnectEvent Cand) : Prop :=
  e = .callback s ∨ e = .take s ∨ e = .add s ∨ e = .added s ok

/-- By these events, whatever comes of adding a candidate. -/
def Leads (toJson : Cand → Option Init) (s : Side) (ok : Bool) :
    Exchange Cand Init → Exchange Cand Init → Prop :=
  Relation.ReflTransGen fun x x' => ∃ e o, Serves s ok e ∧ x.step toJson e = some (x', o)

theorem leads_callback (toJson : Cand → Option Init) (ok : Bool) (s : Side)
    (x : Exchange Cand Init) : ∃ x',
    Leads toJson s ok x x' ∧ (x'.peers s).callback = none ∧
      (x'.peers s).task = (x.peers s).task ∧
      ((x.peers s).queue ≠ none → (x'.peers s).queue ≠ none) := by
  cases hcallback : (x.peers s).callback with
  | none => exact ⟨x, .refl, hcallback, rfl, id⟩
  | some c =>
    refine ⟨_, .single ⟨.callback s, _, .inl rfl, by rw [step, hcallback]⟩, ?_⟩
    simp

theorem leads_receiving (toJson : Cand → Option Init) (ok : Bool)
    (htask : (x.peers s).task ≠ .absent) : ∃ x',
    Leads toJson s ok x x' ∧ x'.peers s = { x.peers s with task := .receiving } := by
  have hadding {x : Exchange Cand Init} (h : (x.peers s).task = .adding) :
      Leads toJson s ok x (x.setPeer s { x.peers s with task := .receiving }) :=
    .single ⟨.added s ok, none, .inr (.inr (.inr rfl)), by rw [step, h]⟩
  cases hcase : (x.peers s).task with
  | absent => exact absurd hcase htask
  | receiving => exact ⟨x, .refl, by rw [← hcase]⟩
  | adding => exact ⟨_, hadding hcase, peers_setPeer_self⟩
  | holding init =>
    have hadd : Leads toJson s ok x (x.setPeer s { x.peers s with task := .adding }) :=
      .single ⟨.add s, _, .inr (.inr (.inl rfl)), by rw [step, hcase]⟩
    refine ⟨_, hadd.trans (hadding ?_), ?_⟩
    · rw [peers_setPeer_self]
    · rw [peers_setPeer_self, peers_setPeer_self]

theorem leads_empty (toJson : Cand → Option Init) (ok : Bool) (q : List Init)
    (htask : (x.peers s).task = .receiving) (hqueue : (x.peers s).queue = some q) :
    ∃ x', Leads toJson s ok x x' ∧ x'.peers s = { x.peers s with queue := some [] } := by
  induction q generalizing x with
  | nil => exact ⟨x, .refl, by rw [← hqueue]⟩
  | cons init q ih =>
    have htake : Leads toJson s ok x
        (x.setPeer s { x.peers s with task := .holding init, queue := some q }) :=
      .single ⟨.take s, none, .inr (.inl rfl), by rw [step, htask, hqueue]⟩
    obtain ⟨x₁, hx₁, hpeers₁⟩ := leads_receiving toJson ok (s := s)
      (x := x.setPeer s { x.peers s with task := .holding init, queue := some q })
      (by rw [peers_setPeer_self]; simp)
    rw [peers_setPeer_self] at hpeers₁
    obtain ⟨x₂, hx₂, hpeers₂⟩ := ih (x := x₁) (by rw [hpeers₁]) (by rw [hpeers₁])
    refine ⟨x₂, (htake.trans hx₁).trans hx₂, ?_⟩
    rw [hpeers₂, hpeers₁, ← htask]

/-- Whatever comes of adding candidates, all can still be passed once there is a task. -/
theorem served (hr : (connectMachine toJson).Run h x) (htask : (x.peers s).task ≠ .absent)
    (ok : Bool) : ∃ h' x', (connectMachine toJson).Run (h ++ h') x' ∧
      (∀ t ∈ h', Serves s ok t.event) ∧ passedTo s.other (h ++ h') = foundBy toJson s h := by
  have hx := program_of_run hr
  obtain ⟨x₁, hx₁, hcallback₁, htask₁, hqueue₁⟩ := leads_callback toJson ok s x
  obtain ⟨x₂, hx₂, hpeers₂⟩ := leads_receiving toJson ok (htask₁ ▸ htask)
  obtain ⟨q, hq⟩ := Option.ne_none_iff_exists'.1 (hqueue₁ fun hq => htask (hx.failed s hq).1)
  obtain ⟨x₃, hx₃, hpeers₃⟩ := leads_empty toJson ok q (x := x₂) (s := s)
    (by rw [hpeers₂]) (by rw [hpeers₂, hq])
  obtain ⟨h', hr', hserves⟩ := hr.extend ((hx₁.trans hx₂).trans hx₃)
  -- Nothing is on the way any more, and nothing has been found since.
  refine ⟨h', x₃, hr', hserves, ?_⟩
  have hconserved := conserved hr' (s := s) (by rw [hpeers₃]; simp)
  have hfound : foundBy toJson s h' = [] := by
    refine List.flatMap_eq_nil_iff.2 fun t ht => ?_
    rcases hserves t ht with he | he | he | he <;> rw [he]
  rw [foundBy, List.flatMap_append, ← foundBy, ← foundBy, hfound, List.append_nil] at hconserved
  simpa [onTheWay, inHand, inQueue, inCallback, hpeers₃, hpeers₂, hcallback₁] using hconserved

/-- A candidate is passed only when the remote description is set. -/
theorem remote_of_passed (hr : (connectMachine toJson).Run h x) : ∀ t ∈ h, ∀ s init,
    t.out = some (s, init) → (t.pre.peers s).remoteDescription := by
  refine hr.forall_taken (C := fun _ => True) (I := Program) ?_
    (fun _ _ _ _ hx _ => program_step hx) (fun x e x' o hx _ hst s init ho => ?_) fun _ _ => trivial
  · rintro _ rfl
    exact program_new
  · have hmoves : Moves toJson x e x' o := moves_of_step hst
    dsimp only at ho
    subst ho
    cases hmoves with
    | @add s init htask => exact hx.remote s.other (hx.spawned s (by simp [htask]) s.other)

/-- No candidate is passed to a connection before its remote description is set. What has
    been passed to it is the beginning of what the other side has found, the rest being on
    the way, whatever comes of adding the candidates; there is no way only if `connect_pair`
    failed before there were tasks. -/
theorem exchanged (hr : (connectMachine toJson).Run h x) :
    (∀ t ∈ h, ∀ s init, t.out = some (s, init) → (t.pre.peers s).remoteDescription) ∧
    (∀ s, passedTo s.other h <+: foundBy toJson s h ∧
      ((x.peers s).queue ≠ none →
        passedTo s.other h ++ (x.inHand s ++ (x.inQueue s ++ x.inCallback toJson s)) =
          foundBy toJson s h) ∧
      ((x.peers s).queue = none → x.outcome = .failed ∧ (x.peers s).task = .absent)) ∧
    (∀ s ok, (x.peers s).task ≠ .absent → ∃ h' x', (connectMachine toJson).Run (h ++ h') x' ∧
      (∀ t ∈ h', Serves s ok t.event) ∧ passedTo s.other (h ++ h') = foundBy toJson s h) ∧
    ∀ t ∈ h, t.event = .ret false → (∀ s, (t.pre.peers s).task = .absent) →
      x.outcome = .failed ∧ ∀ s, passedTo s h = [] := by
  have hx := program_of_run hr
  refine ⟨remote_of_passed hr, fun s => ⟨?_, conserved hr, fun hq => ?_⟩,
    fun s ok htask => served hr htask ok, fun t ht hevent habsent => ?_⟩
  · by_cases hq : (x.peers s).queue = none
    · rw [passedTo_of_absent hr (hx.failed s hq).1]
      exact List.nil_prefix
    · exact ⟨_, conserved hr hq⟩
  · exact (hx.failed s hq).symm
  · obtain ⟨houtcome, htask⟩ := failed_of_early hr ht hevent habsent
    refine ⟨houtcome, fun s => ?_⟩
    rw [← Side.other_other s]
    exact passedTo_of_absent hr (htask s.other)

/-- The offerer finds a candidate before the answerer has a remote description. -/
theorem exchanged_early : ∃ (h : List (ConnectTaken ℕ ℕ)) (x : Exchange ℕ ℕ),
    (connectMachine some).Run h x ∧ passedTo .answerer h = [5] ∧
      passedTo .answerer h <+: foundBy some .offerer h := by
  have hr := (Machine.Run.nil (m := connectMachine (some : ℕ → Option ℕ))
    (s := Exchange.new) rfl).exec
    [.apply, .ret true, .apply, .ret true, .apply, .ret true, .apply, .ret true, .apply, .ret true,
      .apply, .found .offerer (some 5), .callback .offerer, .ret true, .apply, .ret true,
      .apply, .ret true, .apply, .ret true, .apply, .ret true, .apply, .take .offerer,
      .add .offerer, .added .offerer false] rfl
  exact ⟨_, _, hr, rfl, ((exchanged hr).2.1 .offerer).1⟩

end Runs

end Exchange

end IrohWebrtc
