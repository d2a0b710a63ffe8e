import IrohWebrtc.Lib.Machine
import Mathlib.Logic.Function.Basic

/-!
# Broadcasting

Parties that join a medium at any time run the same program. What a party posts
goes to every other party that is there at that moment, in a queue for each
pair of a sender and a receiver, so that a receiver takes what one sender posts
in order, and what different senders post in any order.

* `Medium.step_cases`: what a step of the medium is;
* `Medium.wired_of_run`: only parties that are there have queues, and no party
  has one to itself;
* `Medium.party_invariant`: what a party does to itself is an invariant of it,
  whatever the others do;
* `Heralded`: in a queue, messages of a kind come after one of another kind.
-/

namespace IrohWebrtc

/-- What a party does: from which state, on which messages, and by itself, as an
    event of type `L`. `post` tells which of its acts post a message. -/
structure Program (I S M A L : Type*) where
  start : S
  receive : I → S → M → Option (S × List A)
  act : I → S → L → Option (S × List A)
  post : A → Option M

/-- The parties on a medium, and for a sender and a receiver the messages posted by
    one and not received by the other. -/
structure Medium (I S M : Type*) where
  party : I → Option S
  chan : I × I → List M

/-- What can happen on a medium. -/
inductive MediumEvent (I L : Type*)
  | join (x : I)
  /-- The next message of `y` is received by `x`. -/
  | deliver (y x : I)
  | act (x : I) (l : L)

/-- The party an event happens to. -/
def MediumEvent.actor {I L : Type*} : MediumEvent I L → I
  | .join x | .deliver _ x | .act x _ => x

/-- In a queue, every message of kind `p` comes after one of kind `q`. -/
def Heralded {M : Type*} (p q : M → Prop) (l : List M) : Prop :=
  ∀ l₁ m l₂, l = l₁ ++ m :: l₂ → p m → ∃ n ∈ l₁, q n

namespace Heralded

variable {M : Type*} {p q : M → Prop} {l ms : List M} {m : M}

theorem nil : Heralded p q ([] : List M) :=
  fun l₁ m l₂ h => absurd h (by simp)

/-- More messages may be queued if there is a herald, or if they need none. -/
theorem append (hl : Heralded p q l) (h : (∀ m ∈ ms, ¬ p m) ∨ ∃ n ∈ l, q n) :
    Heralded p q (l ++ ms) := by
  intro l₁ m l₂ heq hm
  rcases List.append_eq_append_iff.1 heq with ⟨k, rfl, hk⟩ | ⟨k, rfl, hk⟩
  · -- The message is one of `ms`.
    rcases h with h | ⟨n, hn, hq⟩
    · exact absurd hm (h m (by simp [hk]))
    · exact ⟨n, List.mem_append_left _ hn, hq⟩
  · cases k with
    | nil =>
      rcases h with h | h
      · exact absurd hm (h m (by simp at hk; simp [← hk]))
      · simpa using h
    | cons m' k =>
      simp only [List.cons_append, List.cons.injEq] at hk
      obtain ⟨rfl, -⟩ := hk
      exact hl l₁ m k rfl hm

/-- The first message of a queue has no herald. -/
theorem not_head (h : Heralded p q (m :: l)) : ¬ p m := by
  intro hm
  obtain ⟨n, hn, -⟩ := h [] m l rfl hm
  exact absurd hn List.not_mem_nil

/-- What is no herald may be taken. -/
theorem tail (h : Heralded p q (m :: l)) (hm : ¬ q m) : Heralded p q l := by
  intro l₁ n l₂ heq hn
  obtain ⟨k, hk, hq⟩ := h (m :: l₁) n l₂ (by rw [heq, List.cons_append]) hn
  rcases List.mem_cons.1 hk with rfl | hk
  · exact absurd hq hm
  · exact ⟨k, hk, hq⟩

end Heralded

namespace Medium

variable {I S M A L : Type*} [DecidableEq I] (P : Program I S M A L)

/-- A party goes to the state `s`, and does `acts`. -/
def perform (w : Medium I S M) (x : I) (s : S) (acts : List A) : Medium I S M where
  party := Function.update w.party x (some s)
  chan p := w.chan p ++
    if p.1 = x ∧ p.2 ≠ x ∧ (w.party p.2).isSome then acts.filterMap P.post else []

/-- What an event does, if it can happen. -/
def step (w : Medium I S M) : MediumEvent I L → Option (Medium I S M × List A)
  | .join x =>
    match w.party x with
    | none => some ({ w with party := Function.update w.party x (some P.start) }, [])
    | some _ => none
  | .deliver y x =>
    match w.party x, w.chan (y, x) with
    | some s, m :: rest =>
      match P.receive x s m with
      | some (s', acts) =>
        some (perform P { w with chan := Function.update w.chan (y, x) rest } x s' acts, acts)
      | none => none
    | _, _ => none
  | .act x l =>
    match w.party x with
    | some s =>
      match P.act x s l with
      | some (s', acts) => some (perform P w x s' acts, acts)
      | none => none
    | none => none

/-- The medium of a program, nobody being there at first. -/
def machine : Machine (Medium I S M) (MediumEvent I L) (List A) where
  init := {⟨fun _ => none, fun _ => []⟩}
  step := step P

variable {P} {w w' : Medium I S M} {e : MediumEvent I L} {acts : List A} {x y z : I} {s : S}

/-- What a step is. -/
theorem step_cases (hst : step P w e = some (w', acts)) :
    (∃ x, e = .join x ∧ w.party x = none ∧ acts = [] ∧
      w' = { w with party := Function.update w.party x (some P.start) }) ∨
    (∃ y x s m rest s', e = .deliver y x ∧ w.party x = some s ∧ w.chan (y, x) = m :: rest ∧
      P.receive x s m = some (s', acts) ∧
      w' = perform P { w with chan := Function.update w.chan (y, x) rest } x s' acts) ∨
    (∃ x l s s', e = .act x l ∧ w.party x = some s ∧ P.act x s l = some (s', acts) ∧
      w' = perform P w x s' acts) := by
  cases e with
  | join x =>
    simp only [step] at hst
    split at hst
    · next hx =>
      cases hst
      exact .inl ⟨x, rfl, hx, rfl, rfl⟩
    · cases hst
  | deliver y x =>
    simp only [step] at hst
    split at hst
    · next s m rest hx hc =>
      split at hst
      · next s' acts' hm =>
        cases hst
        exact .inr (.inl ⟨y, x, s, m, rest, s', rfl, hx, hc, hm, rfl⟩)
      · cases hst
    · cases hst
  | act x l =>
    simp only [step] at hst
    split at hst
    · next s hx =>
      split at hst
      · next s' acts' hl =>
        cases hst
        exact .inr (.inr ⟨x, l, s, s', rfl, hx, hl, rfl⟩)
      · cases hst
    · cases hst

@[simp] theorem party_perform_self : (perform P w x s acts).party x = some s :=
  Function.update_self ..

theorem party_perform_of_ne (h : z ≠ x) : (perform P w x s acts).party z = w.party z :=
  Function.update_of_ne h ..

/-- Nothing is posted to others by a party but `x`. -/
theorem chan_perform_of_ne (h : y ≠ x) : (perform P w x s acts).chan (y, z) = w.chan (y, z) := by
  simp [perform, h]

/-- What `x` posts goes to every other party that is there. -/
theorem chan_perform (h : z ≠ x) (hz : w.party z ≠ none) :
    (perform P w x s acts).chan (x, z) = w.chan (x, z) ++ acts.filterMap P.post := by
  simp [perform, h, Option.isSome_iff_ne_none.2 hz]

/-- A queue stays as it is, or gets what `x` posts. -/
theorem chan_perform_cases (P : Program I S M A L) (w : Medium I S M) (x : I) (s : S)
    (acts : List A) (y z : I) : (perform P w x s acts).chan (y, z) = w.chan (y, z) ∨
    y = x ∧ z ≠ x ∧ w.party z ≠ none ∧
      (perform P w x s acts).chan (y, z) = w.chan (y, z) ++ acts.filterMap P.post := by
  by_cases h : y = x ∧ z ≠ x ∧ w.party z ≠ none
  · obtain ⟨rfl, hz, hp⟩ := h
    exact .inr ⟨rfl, hz, hp, chan_perform hz hp⟩
  · exact .inl (by simp [perform, Option.isSome_iff_ne_none, h])

/-- What is in a queue was there, or has just been posted. -/
theorem mem_chan_perform {m : M} (hm : m ∈ (perform P w x s acts).chan (y, z)) :
    m ∈ w.chan (y, z) ∨
      y = x ∧ z ≠ x ∧ w.party z ≠ none ∧ m ∈ acts.filterMap P.post := by
  rcases chan_perform_cases P w x s acts y z with h | ⟨hy, hz, hp, h⟩
  · exact .inl (h ▸ hm)
  · rw [h, List.mem_append] at hm
    exact hm.imp_right fun hm => ⟨hy, hz, hp, hm⟩

/-- What is in a queue stays there. -/
theorem mem_perform_of_mem {m : M} (hm : m ∈ w.chan (y, z)) :
    m ∈ (perform P w x s acts).chan (y, z) :=
  List.mem_append_left _ hm

/-- A party stays. -/
theorem party_step (hst : step P w e = some (w', acts)) (h : w.party z ≠ none) :
    w'.party z ≠ none := by
  rcases step_cases hst with ⟨x, -, hx, -, rfl⟩ | ⟨y, x, s, m, rest, s', -, hx, -, -, rfl⟩ |
    ⟨x, l, s, s', -, hx, -, rfl⟩
  all_goals
    by_cases hz : z = x
    · subst hz
      simp [perform]
    · simpa [perform, hz] using h

/-- A party that is there has joined. -/
theorem joined_of_run {h : List (Taken (Medium I S M) (MediumEvent I L) (List A))}
    (hr : (machine P).Run h w) (hz : w.party z ≠ none) : .join z ∈ h.map (·.event) := by
  refine hr.induction (P := fun h w => w.party z ≠ none → .join z ∈ h.map (·.event)) ?_ ?_ hz
  · rintro _ rfl hz
    exact absurd rfl hz
  · intro h w e w' acts _ ih hst hz
    rw [List.map_append, List.mem_append]
    rcases step_cases hst with ⟨x, rfl, -, -, rfl⟩ | ⟨y, x, s, m, rest, s', -, hx, -, -, rfl⟩ |
      ⟨x, l, s, s', -, hx, -, rfl⟩
    · by_cases hzx : z = x
      · exact .inr (by simp [hzx])
      · exact .inl (ih (by simpa [hzx] using hz))
    all_goals
      refine .inl (ih fun hz' => ?_)
      by_cases hzx : z = x
      · rw [hzx, hx] at hz'
        cases hz'
      · exact hz (by simpa [perform, hzx] using hz')

/-- An invariant of the program is one of every party. -/
theorem party_invariant {J : I → S → Prop} (hstart : ∀ x, J x P.start)
    (hreceive : ∀ x s m s' acts, J x s → P.receive x s m = some (s', acts) → J x s')
    (hact : ∀ x s l s' acts, J x s → P.act x s l = some (s', acts) → J x s')
    {h : List (Taken (Medium I S M) (MediumEvent I L) (List A))} (hr : (machine P).Run h w)
    (hx : w.party x = some s) : J x s := by
  refine hr.induction (P := fun _ w => ∀ x s, w.party x = some s → J x s) ?_ ?_ x s hx
  · rintro _ rfl x s hx
    cases hx
  · intro h w e w' acts _ ih hst z s hz
    have key : ∃ x s', J x s' ∧ w'.party = Function.update w.party x (some s') := by
      rcases step_cases hst with ⟨x, -, -, -, rfl⟩ | ⟨y, x, s, m, rest, s', -, hx, -, hm, rfl⟩ |
        ⟨x, l, s, s', -, hx, hl, rfl⟩
      · exact ⟨x, P.start, hstart x, rfl⟩
      · exact ⟨x, s', hreceive x s m s' acts (ih x s hx) hm, rfl⟩
      · exact ⟨x, s', hact x s l s' acts (ih x s hx) hl, rfl⟩
    obtain ⟨x, s', hs', hw'⟩ := key
    rw [hw'] at hz
    by_cases hzx : z = x
    · subst hzx
      rw [Function.update_self] at hz
      exact Option.some.inj hz ▸ hs'
    · rw [Function.update_of_ne hzx] at hz
      exact ih z s hz

/-- Only parties that are there have queues, and no party has one to itself. -/
def Wired (w : Medium I S M) : Prop :=
  ∀ y x m, m ∈ w.chan (y, x) → y ≠ x ∧ w.party y ≠ none ∧ w.party x ≠ none

theorem Wired.step (hw : Wired w) (hst : step P w e = some (w', acts)) : Wired w' := by
  intro b a m hm
  have key : m ∈ w.chan (b, a) ∨ b ≠ a ∧ w'.party b ≠ none ∧ w.party a ≠ none := by
    rcases step_cases hst with ⟨x, -, hx, -, rfl⟩ | ⟨y, x, s, m, rest, s', -, hx, hc, -, rfl⟩ |
      ⟨x, l, s, s', -, hx, -, rfl⟩
    · exact .inl hm
    · rcases mem_chan_perform hm with hm | ⟨rfl, ha, hp, -⟩
      · refine .inl ?_
        by_cases hba : (b, a) = (y, x)
        · rw [hba] at hm ⊢
          rw [hc]
          exact List.mem_cons_of_mem _ (by simpa using hm)
        · simpa [hba] using hm
      · exact .inr ⟨ha.symm, by simp, hp⟩
    · rcases mem_chan_perform hm with hm | ⟨rfl, ha, hp, -⟩
      · exact .inl hm
      · exact .inr ⟨ha.symm, by simp, hp⟩
  rcases key with hm | ⟨hne, hb, ha⟩
  · obtain ⟨hne, hb, ha⟩ := hw b a m hm
    exact ⟨hne, party_step hst hb, party_step hst ha⟩
  · exact ⟨hne, hb, party_step hst ha⟩

omit [DecidableEq I] in
theorem wired_empty : Wired (⟨fun _ => none, fun _ => []⟩ : Medium I S M) :=
  fun _ _ _ hm => absurd hm List.not_mem_nil

theorem wired_of_run {h : List (Taken (Medium I S M) (MediumEvent I L) (List A))}
    (hr : (machine P).Run h w) : Wired w := by
  refine Machine.Run.invariant (I := Wired) ?_ (fun _ _ _ _ hw hst => hw.step hst) hr
  rintro _ rfl
  exact wired_empty

end Medium

end IrohWebrtc
