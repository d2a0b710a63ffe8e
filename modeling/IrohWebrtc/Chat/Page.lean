import IrohWebrtc.Chat.Session
import IrohWebrtc.Lib.Refinement
import IrohWebrtc.Lib.Utf16
import IrohWebrtc.Sdp
import Mathlib.Data.List.DropRight

/-!
# The page of a chat

What the page shows and lets its user do (`chat.js`), above a chat session. Its strings are
of code units (`JsString`), those of the session of characters: what is sent is decoded on
its way, and halves of surrogate pairs that are alone are replaced. A page has a log of
messages, of which those of its own are what has been sent, without blanks around them, and
those of its peer what `on_message` has been called with.

* `ChatPages.refines`: what pages do to the session is a run of it.
* `log_agrees`: what a page shows of its peer is the beginning of what the other page shows
  of its own, up to the first message that is too long; it is all of this once everything
  has been written and read.
* `click_sends`: whenever a button is not disabled, a click on it sends what has been typed.
-/

namespace IrohWebrtc

/-! ## Strings -/

/-- A string of a page: its code units. -/
abbrev JsString := List UInt16

namespace JsString

/-- The string that is passed on for one of a page. -/
def toRust (t : JsString) : String := .ofList (Utf16.decode t)

/-- `JsValue::from_str` -/
def ofRust (s : String) : JsString := Utf16.encode s.toList

/-- Whether a code unit is a blank to `trim`. -/
def isBlank (u : UInt16) : Bool := isSpace (Utf16.ofUnit u)

/-- `t.trim()` -/
def trim (t : JsString) : JsString := (t.dropWhile isBlank).rdropWhile isBlank

@[simp] theorem toRust_ofRust (s : String) : toRust (ofRust s) = s := by
  rw [toRust, ofRust, Utf16.decode_encode, String.ofList_toList]

theorem ofRust_toRust (t : JsString) : ofRust (toRust t) = Utf16.toWellFormed t := by
  rw [ofRust, toRust, String.toList_ofList, Utf16.toWellFormed]

theorem toRust_eq_empty {t : JsString} : toRust t = "" ↔ t = [] := by
  rw [← String.toList_inj, toRust, String.toList_ofList]
  exact Utf16.decode_eq_nil

/-- A trimmed string has no blank at its front. -/
theorem dropWhile_trim (t : JsString) : (trim t).dropWhile isBlank = trim t := by
  rw [List.dropWhile_eq_self_iff]
  intro hlen
  have hpre : trim t <+: t.dropWhile isBlank := List.rdropWhile_prefix _ _
  have hne : t.dropWhile isBlank ≠ [] := by
    intro hnil
    rw [hnil, List.prefix_nil] at hpre
    rw [hpre] at hlen
    exact absurd hlen (Nat.lt_irrefl 0)
  have hhead := List.head_dropWhile_not isBlank hne
  rw [List.head_eq_getElem_zero] at hhead
  rw [hpre.getElem hlen, hhead]
  simp

theorem trim_trim (t : JsString) : trim (trim t) = trim t := by
  rw [trim, dropWhile_trim, trim, List.rdropWhile_idempotent]

end JsString

open JsString (toRust ofRust trim)

/-! ## Pages -/

/-- Whose message a line of the log is, or that it is none. -/
inductive Who
  | me
  | peer
  | sys
  deriving DecidableEq

/-- A page: whether its text field and its button are disabled, whether `chat` has been set,
    what has been typed, and the log. -/
structure ChatUi where
  disabled : Bool
  chat : Bool
  value : JsString
  log : List (Who × JsString)

namespace ChatUi

/-- `addMsg` -/
def addMsg (p : ChatUi) (who : Who) (text : JsString) : ChatUi :=
  { p with log := p.log ++ [(who, text)] }

def enableChat (p : ChatUi) : ChatUi := { p with disabled := false }

/-- The texts that a page shows of someone. -/
def lines (p : ChatUi) (who : Who) : List JsString := (p.log.filter (·.1 = who)).map (·.2)

/-- The page has been loaded. -/
def loaded : ChatUi := ⟨true, false, [], []⟩

end ChatUi

/-- Two pages and their session. -/
structure ChatPages where
  session : Session
  ui : End → ChatUi

/-- What can happen. -/
inductive ChatPageEvent
  /-- Something happens to the session that no page does. -/
  | session (e : ChatEvent)
  /-- `on_message` is called at a page. -/
  | onMessage (e : End)
  /-- `start_chat` has returned its handle, and `startTransport` goes on. -/
  | startTransport (e : End)
  /-- The user changes what is in the text field. -/
  | type (e : End) (text : JsString)
  /-- The user clicks the button, or presses the key that clicks it. -/
  | click (e : End)
  /-- The page tells its user something. -/
  | note (e : End) (text : JsString)

/-- Whether an event of the session is an action of a page. -/
def ChatEvent.ofPage : ChatEvent → Bool
  | .task _ (.send _) | .task _ .drop | .task _ .deliver => true
  | _ => false

namespace ChatPages

/-- What an event does, if it can happen, and what it does to the session. -/
def step (w : ChatPages) : ChatPageEvent → Option (ChatPages × Option (ChatEvent × List String))
  | .session e =>
    if e.ofPage then none
    else (w.session.step e).map fun (s, texts) => ({ w with session := s }, some (e, texts))
  | .onMessage e =>
    (w.session.step (.task e.other .deliver)).map fun (s, texts) =>
      let p := texts.foldl (fun p text => p.addMsg .peer (ofRust text)) (w.ui e)
      (⟨s, Function.update w.ui e p⟩, some (.task e.other .deliver, texts))
  | .startTransport e =>
    if (w.session e).handle ∧ (w.ui e).chat = false then
      some ({ w with
        ui := Function.update w.ui e { w.ui e with chat := true }.enableChat }, none)
    else none
  | .type e text =>
    if (w.ui e).disabled then none
    else some ({ w with ui := Function.update w.ui e { w.ui e with value := text } }, none)
  | .click e =>
    -- A button that is disabled cannot be clicked.
    if (w.ui e).disabled then none
    else
      let t := trim (w.ui e).value
      if t ≠ [] ∧ (w.ui e).chat then
        (w.session.step (.task e (.send (toRust t)))).map fun (s, texts) =>
          let p := { (w.ui e).addMsg .me t with value := [] }
          (⟨s, Function.update w.ui e p⟩, some (.task e (.send (toRust t)), texts))
      else some (w, none)
  | .note e text =>
    some ({ w with ui := Function.update w.ui e ((w.ui e).addMsg .sys text) }, none)

/-- The stream is about to be primed, and both pages have been loaded. -/
def opened : ChatPages := ⟨Session.opened, fun _ => .loaded⟩

end ChatPages

def chatPages : Machine ChatPages ChatPageEvent (Option (ChatEvent × List String)) :=
  ⟨{ChatPages.opened}, ChatPages.step⟩

/-! ## Steps -/

/-- Only dropping it takes a chat handle away. -/
theorem Channel.handle_step {c c' : Channel} {t : Task} {out : List String} (ht : t ≠ .drop)
    (hst : c.step t = some (c', out)) (hh : c.handle) : c'.handle := by
  cases t with
  | drop => exact absurd rfl ht
  | send | read | readFail | deliver | writeFail =>
    simp only [Channel.step] at hst
    split at hst <;> cases hst
    all_goals first | exact hh | (split <;> exact hh)
  | next =>
    simp only [Channel.step] at hst
    split at hst
    · cases hst
      exact hh
    · rw [if_pos hh] at hst
      cases hst
    · cases hst
  | write k =>
    simp only [Channel.step] at hst
    split at hst
    · split at hst <;> cases hst
      exact hh
    · cases hst

theorem Session.handle_step {s s' : Session} {ev : ChatEvent} {out : List String} {e : End}
    (hev : ∀ d, ev ≠ .task d .drop) (hst : s.step ev = some (s', out)) (hh : (s e).handle) :
    (s' e).handle := by
  cases ev with
  | prime k =>
    simp only [Session.step] at hst
    split at hst
    · split at hst <;> cases hst <;> cases e
      · exact hh
      · exact hh
      · rfl
      · exact hh
    · cases hst
  | primeFail | accept =>
    simp only [Session.step] at hst
    split at hst
    · cases hst
      cases e <;> exact hh
    · cases hst
  | task d t =>
    obtain ⟨c, hst', rfl⟩ := Session.step_task hst
    by_cases hd : e = d
    · subst hd
      rw [Function.update_self]
      exact Channel.handle_step (fun ht => hev e (ht ▸ rfl)) hst' hh
    · rw [Function.update_of_ne hd]
      exact hh

/-- Only calling `on_message` shows anything. -/
theorem Channel.out_step {c c' : Channel} {t : Task} {out : List String} (ht : t ≠ .deliver)
    (hst : c.step t = some (c', out)) : out = [] := by
  cases t with
  | deliver => exact absurd rfl ht
  | send | drop | read | readFail | writeFail =>
    simp only [Channel.step] at hst
    split at hst <;> cases hst <;> rfl
  | next =>
    simp only [Channel.step] at hst
    split at hst
    · cases hst
      rfl
    · split at hst <;> cases hst
      rfl
    · cases hst
  | write k =>
    simp only [Channel.step] at hst
    split at hst
    · split at hst <;> cases hst
      rfl
    · cases hst

/-- Calling `on_message` shows one message. -/
theorem Session.step_deliver {s s' : Session} {e : End} {texts : List String}
    (hst : s.step (.task e .deliver) = some (s', texts)) : ∃ text, texts = [text] := by
  obtain ⟨c, hst', -⟩ := Session.step_task hst
  simp only [Channel.step] at hst'
  split at hst' <;> cases hst'
  exact ⟨_, rfl⟩

namespace ChatPages

variable {w w' : ChatPages} {ev : ChatPageEvent} {o : Option (ChatEvent × List String)} {e : End}

/-- What a step can do. -/
inductive Moves (w : ChatPages) :
    ChatPageEvent → ChatPages → Option (ChatEvent × List String) → Prop
  | session {ev : ChatEvent} {s : Session} {texts : List String} (hev : ev.ofPage = false)
      (hst : w.session.step ev = some (s, texts)) :
      Moves w (.session ev) { w with session := s } (some (ev, texts))
  | onMessage {e : End} {s : Session} {text : String}
      (hst : w.session.step (.task e.other .deliver) = some (s, [text])) :
      Moves w (.onMessage e)
        ⟨s, Function.update w.ui e ((w.ui e).addMsg .peer (ofRust text))⟩
        (some (.task e.other .deliver, [text]))
  | startTransport {e : End} (hhandle : (w.session e).handle) :
      Moves w (.startTransport e)
        { w with ui := Function.update w.ui e { w.ui e with chat := true, disabled := false } } none
  | type {e : End} {text : JsString} :
      Moves w (.type e text)
        { w with ui := Function.update w.ui e { w.ui e with value := text } } none
  | send {e : End} {s : Session} {texts : List String} (ht : trim (w.ui e).value ≠ [])
      (hst : w.session.step (.task e (.send (toRust (trim (w.ui e).value)))) = some (s, texts)) :
      Moves w (.click e) ⟨s, Function.update w.ui e
          { (w.ui e).addMsg .me (trim (w.ui e).value) with value := [] }⟩
        (some (.task e (.send (toRust (trim (w.ui e).value))), texts))
  | nothing {e : End} (h : trim (w.ui e).value = [] ∨ (w.ui e).chat = false) :
      Moves w (.click e) w none
  | note {e : End} {text : JsString} :
      Moves w (.note e text)
        { w with ui := Function.update w.ui e ((w.ui e).addMsg .sys text) } none

theorem moves_of_step (hst : w.step ev = some (w', o)) : Moves w ev w' o := by
  cases ev with
  | session ev =>
    simp only [step] at hst
    split at hst
    · cases hst
    · next hev =>
      obtain ⟨⟨s, texts⟩, hs, heq⟩ := Option.map_eq_some_iff.1 hst
      cases heq
      exact .session (Bool.not_eq_true _ ▸ hev) hs
  | onMessage e =>
    obtain ⟨⟨s, texts⟩, hs, heq⟩ := Option.map_eq_some_iff.1 hst
    obtain ⟨text, rfl⟩ := Session.step_deliver hs
    cases heq
    exact .onMessage hs
  | startTransport e =>
    simp only [step] at hst
    split at hst
    · next h =>
      cases hst
      exact .startTransport h.1
    · cases hst
  | type e text =>
    simp only [step] at hst
    split at hst <;> cases hst
    exact .type
  | click e =>
    simp only [step] at hst
    split at hst
    · cases hst
    · split at hst
      · next h =>
        obtain ⟨⟨s, texts⟩, hs, heq⟩ := Option.map_eq_some_iff.1 hst
        cases heq
        exact .send h.1 hs
      · next h =>
        cases hst
        refine .nothing ?_
        by_cases ht : trim (w.ui e).value = []
        · exact .inl ht
        · exact .inr (Bool.eq_false_iff.2 fun hchat => h ⟨ht, hchat⟩)
  | note e text =>
    cases hst
    exact .note

/-- What pages do to the session is a run of it. -/
theorem refines : chatPages.Refines chatMachine (·.session) (·.out) where
  init := by
    rintro _ rfl
    rfl
  step w ev w' o hst := by
    cases moves_of_step hst with
    | session _ hs | onMessage hs | send _ hs => exact hs
    | startTransport | type | nothing | note => rfl

/-- The steps of the session in a history of the pages. -/
def carried (h : List (Taken ChatPages ChatPageEvent (Option (ChatEvent × List String)))) :
    List (Taken Session ChatEvent (List String)) :=
  h.filterMap (Machine.refined (·.session) (·.out))

/-- The texts that a page shows of someone. -/
def lines (w : ChatPages) (e : End) (who : Who) : List JsString := (w.ui e).lines who

section Update

variable {s : Session} {p : ChatUi} {e' : End} {who : Who}

@[simp] theorem lines_update_self :
    lines ⟨s, Function.update w.ui e p⟩ e who = p.lines who := by
  simp [lines]

theorem lines_update_of_ne (h : e' ≠ e) :
    lines ⟨s, Function.update w.ui e p⟩ e' who = w.lines e' who := by
  simp [lines, h]

theorem lines_addMsg_self (p : ChatUi) (text : JsString) :
    (p.addMsg who text).lines who = p.lines who ++ [text] := by
  simp [ChatUi.addMsg, ChatUi.lines]

theorem lines_addMsg_of_ne {who' : Who} (h : who' ≠ who) (p : ChatUi) (text : JsString) :
    (p.addMsg who' text).lines who = p.lines who := by
  simp [ChatUi.addMsg, ChatUi.lines, h]

end Update

/-- What a page shows is what the session has been given, and has shown. -/
structure Logged (w : ChatPages) (h : List (Taken Session ChatEvent (List String))) : Prop where
  me : ∀ e, (w.lines e .me).map toRust = Session.sentBy e h
  peer : ∀ e, w.lines e .peer = (Session.shownFrom e.other h).map ofRust
  visible : ∀ e, ∀ t ∈ w.lines e .me, t ≠ [] ∧ trim t = t
  disabled : ∀ e, (w.ui e).disabled = !(w.ui e).chat
  handle : ∀ e, (w.ui e).chat → (w.session e).handle

variable {h : List (Taken Session ChatEvent (List String))}

variable {l : List (Taken Session ChatEvent (List String))}

theorem sentBy_append : Session.sentBy e (h ++ l) = Session.sentBy e h ++ Session.sentBy e l :=
  List.flatMap_append ..

theorem shownFrom_append :
    Session.shownFrom e (h ++ l) = Session.shownFrom e h ++ Session.shownFrom e l :=
  List.flatMap_append ..

theorem sentBy_task {s : Session} {d : End} {t : Task} {out : List String} :
    Session.sentBy e [⟨s, .task d t, out⟩] = if d = e then t.sent else [] := by
  rw [Session.sentBy, List.flatMap_singleton]

theorem shownFrom_task {s : Session} {d : End} {t : Task} {out : List String} :
    Session.shownFrom e [⟨s, .task d t, out⟩] = if d = e then out else [] := by
  rw [Session.shownFrom, List.flatMap_singleton]

/-- Texts are added to the logs as they are sent and shown. -/
theorem Logged.extend (hw : w.Logged h)
    (hme : ∀ e, (w'.lines e .me).map toRust = (w.lines e .me).map toRust ++ Session.sentBy e l)
    (hpeer : ∀ e, w'.lines e .peer =
      w.lines e .peer ++ (Session.shownFrom e.other l).map ofRust)
    (hvisible : ∀ e, ∀ t ∈ w'.lines e .me, t ∈ w.lines e .me ∨ t ≠ [] ∧ trim t = t)
    (hdisabled : ∀ e, (w'.ui e).disabled = !(w'.ui e).chat)
    (hhandle : ∀ e, (w'.ui e).chat → (w'.session e).handle) : w'.Logged (h ++ l) where
  me e := by rw [hme, hw.me, sentBy_append]
  peer e := by rw [hpeer, hw.peer, shownFrom_append, List.map_append]
  visible e t ht := (hvisible e t ht).elim (hw.visible e t) id
  disabled := hdisabled
  handle := hhandle

/-- Texts are added at one page. -/
theorem Logged.extendAt (hw : w.Logged h) {s : Session} {p : ChatUi}
    (hme : (p.lines .me).map toRust = (w.lines e .me).map toRust ++ Session.sentBy e l)
    (hpeer : p.lines .peer = w.lines e .peer ++ (Session.shownFrom e.other l).map ofRust)
    (hne : ∀ e' ≠ e, Session.sentBy e' l = [] ∧ Session.shownFrom e'.other l = [])
    (hvisible : ∀ t ∈ p.lines .me, t ∈ w.lines e .me ∨ t ≠ [] ∧ trim t = t)
    (hdisabled : p.disabled = !p.chat) (hchat : p.chat → (s e).handle)
    (hhandle : ∀ e', (w.session e').handle → (s e').handle) :
    Logged ⟨s, Function.update w.ui e p⟩ (h ++ l) := by
  refine hw.extend (fun e' => ?_) (fun e' => ?_) (fun e' t ht => ?_) (fun e' => ?_) fun e' hc => ?_
    <;> rcases eq_or_ne e' e with rfl | he
  · rw [lines_update_self, hme]
  · rw [lines_update_of_ne he, (hne e' he).1, List.append_nil]
  · rw [lines_update_self, hpeer]
  · rw [lines_update_of_ne he, (hne e' he).2, List.map_nil, List.append_nil]
  · rw [lines_update_self] at ht
    exact hvisible t ht
  · rw [lines_update_of_ne he] at ht
    exact .inl ht
  · simpa using hdisabled
  · simpa [he] using hw.disabled e'
  · exact hchat (by simpa using hc)
  · exact hhandle e' (hw.handle e' (by simpa [he] using hc))

/-- A step of the pages alone, that adds no message. -/
theorem Logged.setUi (hw : w.Logged h) {p : ChatUi}
    (hlines : ∀ who ≠ .sys, p.lines who = w.lines e who)
    (hdisabled : p.disabled = !p.chat) (hchat : p.chat → (w.session e).handle) :
    Logged { w with ui := Function.update w.ui e p } (h ++ []) := by
  refine hw.extendAt ?_ ?_ (fun _ _ => ⟨rfl, rfl⟩) (fun t ht => .inl ?_) hdisabled hchat
    fun _ hh => hh
  · rw [hlines .me (by simp)]
    exact (List.append_nil _).symm
  · rw [hlines .peer (by simp)]
    exact (List.append_nil _).symm
  · rwa [hlines .me (by simp)] at ht

theorem Logged.step (hw : w.Logged h) (hst : w.step ev = some (w', o)) :
    w'.Logged (h ++ (Machine.refined (·.session) (·.out) ⟨w, ev, o⟩).toList) := by
  cases moves_of_step hst with
  | @session ev s texts hev hs =>
    have hsent : ∀ e, Session.sentBy e [⟨w.session, ev, texts⟩] = [] := by
      intro e
      cases ev with
      | task d t =>
        rw [sentBy_task]
        cases t with
        | send | drop | deliver => cases hev
        | next | write | writeFail | read | readFail => exact ite_self _
      | prime | primeFail | accept => rfl
    have hshown : ∀ e, Session.shownFrom e [⟨w.session, ev, texts⟩] = [] := by
      intro e
      cases ev with
      | task d t =>
        obtain ⟨c, hst', -⟩ := Session.step_task hs
        obtain rfl := Channel.out_step (by rintro rfl; cases hev) hst'
        rw [shownFrom_task, ite_self]
      | prime | primeFail | accept => rfl
    refine hw.extend (fun e => ?_) (fun e => ?_) (fun e t ht => .inl ht) hw.disabled
      fun e hchat => ?_
    · simp [lines, Machine.refined, hsent]
    · simp [lines, Machine.refined, hshown]
    · refine Session.handle_step (fun d hd => ?_) hs (hw.handle e hchat)
      rw [hd] at hev
      cases hev
  | @onMessage e s text hs =>
    have hother : ∀ e' ≠ e, e.other ≠ e'.other := fun e' he heq => he (End.other_injective heq.symm)
    refine hw.extendAt ?_ ?_ (fun e' he => ⟨?_, ?_⟩) (fun t ht => .inl ?_) (hw.disabled e)
      (fun hchat => ?_) fun e' => Session.handle_step (by simp) hs
    · rw [lines_addMsg_of_ne (by simp)]
      simp [Machine.refined, sentBy_task, lines]
    · rw [lines_addMsg_self]
      simp [Machine.refined, shownFrom_task, lines]
    · simp [Machine.refined, sentBy_task, Task.sent]
    · simp [Machine.refined, shownFrom_task, hother e' he]
    · rwa [lines_addMsg_of_ne (by simp)] at ht
    · exact Session.handle_step (by simp) hs (hw.handle e hchat)
  | @startTransport e hhandle => exact hw.setUi (fun who _ => rfl) rfl fun _ => hhandle
  | @type e text => exact hw.setUi (fun who _ => rfl) (hw.disabled e) (hw.handle e)
  | @send e s texts ht hs =>
    obtain ⟨c, hst', -⟩ := Session.step_task hs
    obtain rfl := Channel.out_step (by simp) hst'
    have hlines : ∀ who,
        ChatUi.lines { (w.ui e).addMsg .me (trim (w.ui e).value) with value := [] } who =
          ((w.ui e).addMsg .me (trim (w.ui e).value)).lines who := fun _ => rfl
    refine hw.extendAt ?_ ?_ (fun e' he => ⟨?_, ?_⟩) (fun t ht' => ?_) (hw.disabled e)
      (fun hchat => ?_) fun e' => Session.handle_step (by simp) hs
    · rw [hlines, lines_addMsg_self]
      simp [Machine.refined, sentBy_task, Task.sent, lines]
    · rw [hlines, lines_addMsg_of_ne (by simp)]
      simp [Machine.refined, shownFrom_task, lines]
    · simp [Machine.refined, sentBy_task, he.symm]
    · simp [Machine.refined, shownFrom_task]
    · rw [hlines, lines_addMsg_self] at ht'
      rcases List.mem_append.1 ht' with ht' | ht'
      · exact .inl ht'
      · rw [List.mem_singleton.1 ht']
        exact .inr ⟨ht, JsString.trim_trim _⟩
    · exact Session.handle_step (by simp) hs (hw.handle e hchat)
  | nothing => simpa [Machine.refined] using hw
  | @note e text =>
    exact hw.setUi (fun who hwho => lines_addMsg_of_ne hwho.symm _ _) (hw.disabled e) (hw.handle e)

/-! ## Runs -/

section Runs

variable {h : List (Taken ChatPages ChatPageEvent (Option (ChatEvent × List String)))}

theorem logged_of_run (hr : chatPages.Run h w) : w.Logged (carried h) := by
  refine Machine.Run.induction (P := fun h w => w.Logged (carried h)) ?_ ?_ hr
  · rintro _ rfl
    exact ⟨fun _ => rfl, fun _ => rfl, fun _ _ ht => absurd ht List.not_mem_nil, fun _ => rfl,
      fun _ hc => absurd hc Bool.false_ne_true⟩
  · intro h w ev w' o _ ih hst
    have hnext := ih.step hst
    rw [carried, List.filterMap_append, List.filterMap_cons, List.filterMap_nil, ← carried]
    cases hview : Machine.refined (·.session) (·.out) (⟨w, ev, o⟩ : Taken ChatPages _ _) with
    | none => simpa [hview] using hnext
    | some t => simpa [hview] using hnext

theorem run_carried (hr : chatPages.Run h w) : chatMachine.Run (carried h) w.session :=
  refines.run hr

/-- Whether a message is short enough for the read loop. -/
def fits (t : JsString) : Bool := (toRust t).utf8ByteSize ≤ maxMsg

/-- What a read loop makes of the messages of a page. -/
theorem admitted_lines {h : List (Taken Session ChatEvent (List String))} (hw : w.Logged h)
    (e : End) : (ReadLoop.admitted (Session.sentBy e h)).map ofRust =
      ((w.lines e .me).takeWhile fits).map Utf16.toWellFormed := by
  have hne : (((w.lines e .me).takeWhile fits).map toRust).filter (· ≠ "") =
      ((w.lines e .me).takeWhile fits).map toRust := by
    refine List.filter_eq_self.2 fun m hm => ?_
    obtain ⟨t, ht, rfl⟩ := List.mem_map.1 hm
    have hvisible := (hw.visible e t ((List.takeWhile_sublist _).subset ht)).1
    simpa [JsString.toRust_eq_empty] using hvisible
  rw [← hw.me, ReadLoop.admitted, List.takeWhile_map]
  rw [show ((fun m : String => decide (m.utf8ByteSize ≤ maxMsg)) ∘ toRust) = fits from rfl, hne,
    List.map_map]
  exact List.map_congr_left fun t _ => JsString.ofRust_toRust t

/-- What is shown of a page at the other is the beginning of what it has shown of its own,
    with halves of surrogate pairs replaced, up to the first message that is too long; it is
    all of that once everything has been written and read. No message is blank, and none has
    blanks around it. -/
theorem log_agrees (hr : chatPages.Run h w) (e : End)
    (hlen : ∀ t ∈ w.lines e .me, (toRust t).utf8ByteSize < 2 ^ 32) :
    w.lines e.other .peer <+: ((w.lines e .me).takeWhile fits).map Utf16.toWellFormed ∧
      ((w.session e).Drained →
        w.lines e.other .peer = ((w.lines e .me).takeWhile fits).map Utf16.toWellFormed) ∧
      ∀ t ∈ w.lines e .me, t ≠ [] ∧ trim t = t := by
  have hw := logged_of_run hr
  have hlen' : ∀ m ∈ Session.sentBy e (carried h), m.utf8ByteSize < 2 ^ 32 := by
    rw [← hw.me]
    intro m hm
    obtain ⟨t, ht, rfl⟩ := List.mem_map.1 hm
    exact hlen t ht
  rw [hw.peer, End.other_other, ← admitted_lines hw]
  refine ⟨(shownFrom_isPrefix (run_carried hr) e hlen').map ofRust, fun hd => ?_, hw.visible e⟩
  rw [shown_of_drained (run_carried hr) hlen' hd]

/-- The letter `a` thrice, the last one after half of a surrogate pair, and blanks around. -/
theorem log_agrees_blanks : ∃ h w, chatPages.Run h w ∧
    w.lines .responder .me = [[0x61], [0xd800, 0x61]] ∧
    w.lines .initiator .peer <+: ((w.lines .responder .me).takeWhile fits).map Utf16.toWellFormed ∧
    w.lines .initiator .peer = [[0x61], [0xfffd, 0x61]] := by
  have hr := (Machine.Run.nil (m := chatPages) (s := opened) rfl).exec
    [.note .responder [0x2026], .startTransport .responder, .type .responder [0x20, 0x61, 0xa0],
      .click .responder, .click .responder, .session (.prime 4), .session .accept,
      .type .responder [0x0a, 0xd800, 0x61], .click .responder,
      .session (.task .responder .next), .session (.task .responder (.write 4)),
      .session (.task .responder (.write 1)), .session (.task .responder .next),
      .session (.task .responder (.write 4)), .session (.task .responder (.write 9)),
      .session (.task .responder (.read 4)), .session (.task .responder (.read 4)),
      .onMessage .initiator, .session (.task .responder (.read 4)), .startTransport .initiator,
      .session (.task .responder (.read 4)), .onMessage .initiator] rfl
  exact ⟨_, _, hr, rfl, (log_agrees hr .responder (by decide)).1, rfl⟩

/-- Whenever the button of a page is not disabled, a click on it passes what has been typed
    to the chat, shows it, and clears the text field; if this is blank, nothing happens. -/
theorem click_sends (hr : chatPages.Run h w) (hd : (w.ui e).disabled = false) :
    ∃ w' o, w.step (.click e) = some (w', o) ∧
      if trim (w.ui e).value = [] then w' = w ∧ o = none
      else w'.lines e .me = w.lines e .me ++ [trim (w.ui e).value] ∧ (w'.ui e).value = [] ∧
        o = some (.task e (.send (toRust (trim (w.ui e).value))), []) := by
  have hw := logged_of_run hr
  have hchat : (w.ui e).chat := by
    have hdis := hw.disabled e
    rw [hd] at hdis
    simpa using hdis.symm
  by_cases ht : trim (w.ui e).value = []
  · exact ⟨w, none, by simp [step, hd, ht], by simp [ht]⟩
  · obtain ⟨s, hs⟩ : ∃ s, w.session.step (.task e (.send (toRust (trim (w.ui e).value)))) =
        some (s, []) := by
      simp [Session.step, Channel.step, hw.handle e hchat]
    refine ⟨_, _, by simp [step, hd, ht, hchat, hs]; exact ⟨rfl, rfl⟩, ?_⟩
    rw [if_neg ht]
    refine ⟨?_, by simp, rfl⟩
    rw [lines_update_self]
    exact lines_addMsg_self _ _

/-- The responder's page, before its peer has opened the stream. -/
theorem click_sends_early : ∃ h w, chatPages.Run h w ∧ (w.ui .responder).disabled = false ∧
    ∃ w' o, w.step (.click .responder) = some (w', o) ∧
      if trim (w.ui .responder).value = [] then w' = w ∧ o = none
      else w'.lines .responder .me = w.lines .responder .me ++ [trim (w.ui .responder).value] ∧
        (w'.ui .responder).value = [] ∧
        o = some (.task .responder (.send (toRust (trim (w.ui .responder).value))), []) := by
  have hr := (Machine.Run.nil (m := chatPages) (s := opened) rfl).exec
    [.startTransport .responder, .type .responder [0x20, 0x61]] rfl
  exact ⟨_, _, hr, rfl, click_sends hr rfl⟩

end Runs

end ChatPages

end IrohWebrtc
