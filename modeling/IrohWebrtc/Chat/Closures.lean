import IrohWebrtc.Lib.Machine
import Mathlib.Algebra.Order.Ring.Int
import Mathlib.Data.List.Count

/-!
# Closures

What the page calls when it calls back into the package (`makeMutClosure` and `makeClosure` of
`pkg`): a pointer that is in use while calls run, and is given back once nobody can call any
more. Calls may call back while they run; the package may drop the closure at any time, and
the page may forget it.

* `closure_used`: the pointer is not used once it has been given back, nor given back while a
  call has it, nor a second time. No two calls have the pointer of `makeMutClosure` at once. It
  has been given back exactly when the closure has been forgotten, or it has been dropped and no
  call has the pointer.
-/

namespace IrohWebrtc.Pkg

/-- A closure of the package: `state`, the pointers that the calls that run have got, whether
    `CLOSURE_DTORS` knows of it, whether the package has not dropped it, and whether the page has
    forgotten it. -/
structure ClosureState where
  a : ℕ
  cnt : ℤ
  calls : List ℕ
  registered : Bool
  held : Bool
  collected : Bool
  deriving DecidableEq

/-- A call begins, the last one that has begun ends, the package drops the closure, the page
    forgets it. -/
inductive ClosureEvent
  | call
  | ret
  | unref
  | collect

/-- What the package is told: to call, that a call has ended, to give back. -/
inductive ClosureAct
  | invoke (a : ℕ)
  | returned (a : ℕ)
  | destroy (a : ℕ)
  deriving DecidableEq

namespace ClosureState

/-- `_wbg_cb_unref` -/
def unref (s : ClosureState) : ClosureState × List ClosureAct :=
  if s.cnt - 1 = 0 then
    ({ s with cnt := s.cnt - 1, a := 0, registered := false }, [.destroy s.a])
  else ({ s with cnt := s.cnt - 1 }, [])

/-- What `real` does; one that is `isMut` takes the pointer away while a call has it. -/
def step (isMut : Bool) (s : ClosureState) :
    ClosureEvent → Option (ClosureState × List ClosureAct)
  | .call =>
    if s.collected then none
    else some ({ s with
      cnt := s.cnt + 1, a := if isMut then 0 else s.a, calls := s.a :: s.calls }, [.invoke s.a])
  | .ret =>
    match s.calls with
    | [] => none
    | a :: calls =>
      let (s, acts) := unref { s with a := if isMut then a else s.a, calls := calls }
      some (s, .returned a :: acts)
  | .unref => if s.held ∧ ¬ s.collected then some (unref { s with held := false }) else none
  | .collect =>
    if s.calls = [] ∧ ¬ s.collected then
      some ({ s with collected := true }, if s.registered then [.destroy s.a] else [])
    else none

end ClosureState

/-- A closure from when it is made on. -/
def closure (isMut : Bool) (arg0 : ℕ) : Machine ClosureState ClosureEvent (List ClosureAct) where
  init := {⟨arg0, 1, [], true, true, false⟩}
  step := ClosureState.step isMut

def makeMutClosure (arg0 : ℕ) : Machine ClosureState ClosureEvent (List ClosureAct) :=
  closure true arg0

def makeClosure (arg0 : ℕ) : Machine ClosureState ClosureEvent (List ClosureAct) :=
  closure false arg0

/-! ## Pointers -/

/-- A pointer as the package may be asked to use it: whether it has not been given back, and how
    many calls have it. -/
structure Pointer where
  live : Bool := true
  uses : ℕ := 0

/-- What the package may be told, with the pointer `p`. The null pointer is no closure's: it
    does nothing, and the call throws. -/
def Pointer.use (isMut : Bool) (p : ℕ) (u : Pointer) : ClosureAct → Option Pointer
  | .invoke a =>
    if a = 0 then some u
    else if a = p ∧ u.live ∧ (isMut → u.uses = 0) then some { u with uses := u.uses + 1 } else none
  | .returned a => if a = 0 then some u else some { u with uses := u.uses - 1 }
  | .destroy a =>
    if a = 0 then some u
    else if a = p ∧ u.live ∧ u.uses = 0 then some { u with live := false } else none

/-- How the pointer `p` is lent: what `state` has, and what the calls that run have. -/
inductive Lent (isMut : Bool) (p : ℕ) : ℕ → List ℕ → Prop
  | idle : Lent isMut p p []
  | call {a : ℕ} {calls : List ℕ} :
      Lent isMut p a calls → Lent isMut p (if isMut then 0 else a) (a :: calls)

variable {isMut : Bool} {p a : ℕ} {calls : List ℕ}

theorem Lent.eq_or (h : Lent isMut p a calls) : a = p ∨ a = 0 := by
  induction h with
  | idle => exact .inl rfl
  | call _ ih =>
    cases isMut with
    | true => exact .inr rfl
    | false => exact ih

theorem Lent.eq (h : Lent isMut p a calls) (hcalls : calls = []) : a = p := by
  cases h with
  | idle => rfl
  | call _ => cases hcalls

theorem Lent.head {a' : ℕ} (h : Lent isMut p a' (a :: calls)) : a = p ∨ a = 0 := by
  cases h with
  | call h => exact h.eq_or

/-- When a call ends, the pointer is as it was before. -/
theorem Lent.ret {a' : ℕ} (h : Lent isMut p a' (a :: calls)) :
    Lent isMut p (if isMut then a else a') calls := by
  cases h with
  | call h => cases isMut <;> exact h

/-- The pointer of `makeMutClosure` is at one place. -/
theorem Lent.count (h : Lent true p a calls) (hp : p ≠ 0) :
    calls.count p + (if a = p then 1 else 0) = 1 := by
  induction h with
  | idle => rw [List.count_nil, if_pos rfl]
  | @call a calls _ ih =>
    rw [if_pos rfl, if_neg hp.symm, List.count_cons, Nat.add_zero]
    simpa only [beq_iff_eq] using ih

/-- Everybody has the pointer of `makeClosure`. -/
theorem Lent.forall_eq (h : Lent false p a calls) : a = p ∧ ∀ x ∈ calls, x = p := by
  induction h with
  | idle => exact ⟨rfl, fun x hx => absurd hx List.not_mem_nil⟩
  | call _ ih => exact ⟨ih.1, List.forall_mem_cons.2 ih⟩

/-- Somebody has the pointer, or can have it. -/
theorem Lent.mem (h : Lent isMut p a calls) (hcalls : calls ≠ []) : p ∈ calls := by
  induction h with
  | idle => exact absurd rfl hcalls
  | @call a calls h ih =>
    cases h with
    | idle => exact List.mem_cons_self
    | call _ => exact List.mem_cons_of_mem _ (ih (List.cons_ne_nil _ _))

/-! ## Runs -/

/-- What holds of a closure and its pointer. -/
structure Kept (isMut : Bool) (p : ℕ) (s : ClosureState) (u : Pointer) : Prop where
  cnt : s.cnt = s.held.toNat + s.calls.length
  uses : u.uses = s.calls.count p
  collected : s.collected → u.live = false ∧ s.calls = []
  lent : u.live → s.registered ∧ 0 < s.cnt ∧ Lent isMut p s.a s.calls
  given : u.live = false → s.collected ∨
    s.held = false ∧ s.registered = false ∧ s.a = 0 ∧ ∀ x ∈ s.calls, x = 0

variable {s : ClosureState} {u : Pointer} {r : ClosureState × List ClosureAct}

/-- One that may use a closure does so no more. -/
theorem kept_unref (hp : p ≠ 0) (hcollected : s.collected = false)
    (hcnt : s.cnt - 1 = s.held.toNat + s.calls.length) (huses : u.uses = s.calls.count p)
    (hlent : u.live → s.registered ∧ Lent isMut p s.a s.calls)
    (hgiven : u.live = false →
      s.held = false ∧ s.registered = false ∧ s.a = 0 ∧ ∀ x ∈ s.calls, x = 0) :
    ∃ u', s.unref.2.foldlM (Pointer.use isMut p) u = some u' ∧ Kept isMut p s.unref.1 u' := by
  have hnot : ¬ s.collected := by rw [hcollected]; exact Bool.false_ne_true
  rw [ClosureState.unref]
  split
  · next hzero =>
    have hcalls : s.calls = [] := List.length_eq_zero_iff.1 (by omega)
    have hheld : s.held = false := by
      cases hheld : s.held
      · rfl
      · rw [hheld, Bool.toNat_true] at hcnt
        omega
    -- The last one is gone: the pointer is given back, unless it has been already.
    have huse : Pointer.use isMut p u (.destroy s.a) = some { u with live := false } := by
      cases hlive : u.live with
      | true =>
        have ha : s.a = p := (hlent hlive).2.eq hcalls
        have huses₀ : u.uses = 0 := by rw [huses, hcalls, List.count_nil]
        rw [Pointer.use, ha, if_neg hp, if_pos ⟨rfl, hlive, huses₀⟩]
      | false =>
        rw [Pointer.use, (hgiven hlive).2.2.1, if_pos rfl, ← hlive]
    refine ⟨{ u with live := false }, ?_, ⟨hcnt, huses, fun h => absurd h hnot,
      fun h => absurd h Bool.false_ne_true, fun _ => .inr ⟨hheld, rfl, rfl, ?_⟩⟩⟩
    · rw [List.foldlM_cons, huse]
      rfl
    · rw [hcalls]
      exact fun x hx => absurd hx List.not_mem_nil
  · next hne =>
    exact ⟨u, rfl, hcnt, huses, fun h => absurd h hnot,
      fun h => ⟨(hlent h).1, by simp only; omega, (hlent h).2⟩, fun h => .inr (hgiven h)⟩

/-- A call gets the pointer, or finds that another has it or that it has been given back. -/
theorem Kept.invoke (hp : p ≠ 0) (hk : Kept isMut p s u) (hcollected : ¬ s.collected) :
    ∃ u', Pointer.use isMut p u (.invoke s.a) = some u' ∧ u'.live = u.live ∧
      u'.uses = (s.a :: s.calls).count p := by
  by_cases ha : s.a = 0
  · refine ⟨u, by rw [Pointer.use, if_pos ha], rfl, ?_⟩
    rw [hk.uses, ha, List.count_cons_of_ne hp.symm]
  · -- A pointer that is there has not been given back.
    have hlive : u.live = true := by
      cases hlive : u.live
      · rcases hk.given hlive with hc | hd
        · exact absurd hc hcollected
        · exact absurd hd.2.2.1 ha
      · rfl
    have hlent := (hk.lent hlive).2.2
    have hap : s.a = p := hlent.eq_or.resolve_right ha
    have hfree : isMut → u.uses = 0 := by
      intro hmut
      subst hmut
      have hcount := hlent.count hp
      rw [if_pos hap, ← hk.uses] at hcount
      exact Nat.succ_injective hcount
    refine ⟨{ u with uses := u.uses + 1 }, ?_, rfl, ?_⟩
    · rw [Pointer.use, if_neg ha, if_pos ⟨hap, hlive, hfree⟩]
    · rw [hap, List.count_cons_self, ← hk.uses]

/-- A call that ends has the pointer no more. -/
theorem Kept.returned (hp : p ≠ 0) (hk : Kept isMut p s u) (hcalls : s.calls = a :: calls) :
    ∃ u', Pointer.use isMut p u (.returned a) = some u' ∧ u'.live = u.live ∧
      u'.uses = calls.count p := by
  have huses := hk.uses
  rw [hcalls] at huses
  by_cases ha : a = 0
  · refine ⟨u, by rw [Pointer.use, if_pos ha], rfl, ?_⟩
    rw [huses, ha, List.count_cons_of_ne hp.symm]
  · have hap : a = p := by
      cases hlive : u.live with
      | true =>
        have hlent := (hk.lent hlive).2.2
        rw [hcalls] at hlent
        exact hlent.head.resolve_right ha
      | false =>
        rcases hk.given hlive with hc | hd
        · rw [(hk.collected hc).2] at hcalls
          cases hcalls
        · exact absurd (hd.2.2.2 a (hcalls ▸ List.mem_cons_self)) ha
    refine ⟨{ u with uses := u.uses - 1 }, by rw [Pointer.use, if_neg ha], rfl, ?_⟩
    rw [huses, hap, List.count_cons_self, Nat.add_sub_cancel]

/-- What one event does. -/
theorem Kept.step (hp : p ≠ 0) (hk : Kept isMut p s u) {e : ClosureEvent}
    (h : s.step isMut e = some r) :
    ∃ u', r.2.foldlM (Pointer.use isMut p) u = some u' ∧ Kept isMut p r.1 u' := by
  have hcnt := hk.cnt
  cases e with
  | call =>
    rw [ClosureState.step] at h
    split at h
    · cases h
    next hcollected =>
    obtain rfl := Option.some.inj h
    obtain ⟨u', huse, hlive, huses⟩ := hk.invoke hp hcollected
    refine ⟨u', ?_, ?_, huses, fun h => absurd h hcollected, fun h => ?_, fun h => ?_⟩
    · rw [List.foldlM_cons, huse]
      rfl
    · simp only [List.length_cons]
      omega
    · obtain ⟨hreg, hpos, hlent⟩ := hk.lent (hlive ▸ h)
      exact ⟨hreg, Int.lt_add_one_of_le hpos.le, hlent.call⟩
    · obtain ⟨hheld, hreg, ha, hall⟩ := (hk.given (hlive ▸ h)).resolve_left hcollected
      refine .inr ⟨hheld, hreg, ?_, List.forall_mem_cons.2 ⟨ha, hall⟩⟩
      simp only [ha, ite_self]
  | ret =>
    rw [ClosureState.step] at h
    split at h
    · cases h
    next a calls hcalls =>
    obtain rfl := Option.some.inj h
    obtain ⟨u₁, huse, hlive, huses⟩ := hk.returned hp hcalls
    -- The page cannot forget a closure while a call runs.
    have hcollected : s.collected = false := by
      cases hc : s.collected
      · rfl
      · rw [(hk.collected hc).2] at hcalls
        cases hcalls
    have hnot : ¬ s.collected := by rw [hcollected]; exact Bool.false_ne_true
    have hcnt' : s.cnt - 1 = s.held.toNat + calls.length := by
      rw [hcalls, List.length_cons] at hcnt
      omega
    have hlent' : u₁.live → s.registered ∧ Lent isMut p (if isMut then a else s.a) calls := by
      intro h
      obtain ⟨hreg, -, hlent⟩ := hk.lent (hlive ▸ h)
      rw [hcalls] at hlent
      exact ⟨hreg, hlent.ret⟩
    have hgiven' : u₁.live = false → s.held = false ∧ s.registered = false ∧
        (if isMut then a else s.a) = 0 ∧ ∀ x ∈ calls, x = 0 := by
      intro h
      obtain ⟨hheld, hreg, ha, hall⟩ := (hk.given (hlive ▸ h)).resolve_left hnot
      rw [hcalls, List.forall_mem_cons] at hall
      exact ⟨hheld, hreg, by rw [ha, hall.1, ite_self], hall.2⟩
    obtain ⟨u', hfold, hk'⟩ := kept_unref
      (s := { s with a := if isMut then a else s.a, calls := calls }) hp hcollected hcnt' huses
      hlent' hgiven'
    exact ⟨u', by rw [List.foldlM_cons, huse]; exact hfold, hk'⟩
  | unref =>
    rw [ClosureState.step] at h
    split at h
    · next hheld =>
      obtain ⟨hheld, hcollected⟩ := hheld
      obtain rfl := Option.some.inj h
      refine kept_unref hp (by simpa using hcollected) ?_ hk.uses
        (fun h => ⟨(hk.lent h).1, (hk.lent h).2.2⟩) fun h => ?_
      · rw [hheld, Bool.toNat_true] at hcnt
        simp only [Bool.toNat_false]
        omega
      · exact ⟨rfl, ((hk.given h).resolve_left hcollected).2⟩
    · cases h
  | collect =>
    rw [ClosureState.step] at h
    split at h
    · next hcalls =>
      obtain ⟨hcalls, hcollected⟩ := hcalls
      obtain rfl := Option.some.inj h
      -- The pointer is given back now, unless it has been already.
      refine ⟨{ u with live := false }, ?_, hcnt, hk.uses, fun _ => ⟨rfl, hcalls⟩,
        fun h => absurd h Bool.false_ne_true, fun _ => .inl rfl⟩
      cases hlive : u.live with
      | true =>
        obtain ⟨hreg, -, hlent⟩ := hk.lent hlive
        have huses : u.uses = 0 := by rw [hk.uses, hcalls, List.count_nil]
        rw [if_pos hreg, List.foldlM_cons, Pointer.use, hlent.eq hcalls, if_neg hp,
          if_pos ⟨rfl, hlive, huses⟩]
        rfl
      | false =>
        obtain ⟨-, hreg, -⟩ := (hk.given hlive).resolve_left hcollected
        rw [if_neg (by rw [hreg]; exact Bool.false_ne_true), ← hlive]
        rfl
    · cases h

variable {h : List (Taken ClosureState ClosureEvent (List ClosureAct))}

theorem kept_of_run (hp : p ≠ 0) (hr : (closure isMut p).Run h s) :
    ∃ u, (h.flatMap (·.out)).foldlM (Pointer.use isMut p) {} = some u ∧ Kept isMut p s u := by
  refine hr.induction (P := fun h s => ∃ u,
    (h.flatMap (·.out)).foldlM (Pointer.use isMut p) {} = some u ∧ Kept isMut p s u) ?_ ?_
  · intro s hs
    rw [Set.mem_singleton_iff.1 hs]
    exact ⟨{}, rfl, rfl, rfl, fun h => absurd h Bool.false_ne_true,
      fun _ => ⟨rfl, Int.one_pos, .idle⟩, fun h => absurd h.symm Bool.false_ne_true⟩
  · rintro h s e s' out _ ⟨u, hfold, hk⟩ hst
    obtain ⟨u', hfold', hk'⟩ := hk.step hp hst
    refine ⟨u', ?_, hk'⟩
    rw [List.flatMap_append, List.flatMap_singleton, List.foldlM_append, hfold]
    exact hfold'

/-- The package is told nothing that it may not be told, and the pointer has been given back
    exactly when the page has forgotten the closure, or the package has dropped it and no call
    has the pointer. -/
theorem closure_used (hp : p ≠ 0) (hr : (closure isMut p).Run h s) :
    ∃ u, (h.flatMap (·.out)).foldlM (Pointer.use isMut p) {} = some u ∧
      u.uses = s.calls.count p ∧
      (u.live = false ↔ s.collected ∨ s.held = false ∧ p ∉ s.calls) := by
  obtain ⟨u, hfold, hk⟩ := kept_of_run hp hr
  refine ⟨u, hfold, hk.uses, fun h => ?_, fun h => ?_⟩
  · rcases hk.given h with hc | ⟨hheld, -, -, hall⟩
    · exact .inl hc
    · exact .inr ⟨hheld, fun hmem => hp (hall p hmem)⟩
  · rcases h with hc | ⟨hheld, hmem⟩
    · exact (hk.collected hc).1
    by_contra hlive
    obtain ⟨-, hpos, hlent⟩ := hk.lent (by simpa using hlive)
    have hcalls : s.calls = [] := by
      by_contra hcalls
      exact hmem (hlent.mem hcalls)
    have hcnt := hk.cnt
    rw [hheld, hcalls] at hcnt
    exact absurd hcnt hpos.ne'

/-- A callback that drops its own closure and is called again while it runs. -/
theorem closure_used_reentrant : ∃ h s, (makeMutClosure 8).Run h s ∧
    (h.flatMap (·.out)) = [.invoke 8, .invoke 0, .returned 0, .returned 8, .destroy 8] ∧
    ∃ u, (h.flatMap (·.out)).foldlM (Pointer.use true 8) {} = some u ∧
      u.uses = s.calls.count 8 ∧
      (u.live = false ↔ s.collected ∨ s.held = false ∧ 8 ∉ s.calls) := by
  have hr := (Machine.Run.nil (m := makeMutClosure 8) (Set.mem_singleton _)).exec
    [.call, .unref, .call, .ret, .ret] rfl
  exact ⟨_, _, hr, rfl, closure_used (by decide) hr⟩

end IrohWebrtc.Pkg
