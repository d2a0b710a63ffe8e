import IrohWebrtc.Adapter

/-!
# What a receive call does

A `poll_recv` call polls the backend's receiver until its slots are full or the
receiver is not ready (`RecvCall.drive`). It hands out what a greedy assignment of
datagrams to the sizes of the slots places (`place`): a datagram goes to the lowest
slot that is not filled if it fits there, and is dropped otherwise
(`RecvCall.drive_start`).
-/

namespace IrohWebrtc

/-- The datagrams placed in slots of these sizes, and those left when all are filled. -/
def place : List ℕ → List Inbound → List Inbound × List Inbound
  | [], inbs => ([], inbs)
  | _ :: _, [] => ([], [])
  | size :: sizes, inb :: inbs =>
    if inb.data.length ≤ size then
      (inb :: (place sizes inbs).1, (place sizes inbs).2)
    else place (size :: sizes) inbs

section Place

variable {size : ℕ} {sizes : List ℕ} {inb : Inbound} {inbs : List Inbound}

theorem length_place_le : (place sizes inbs).1.length ≤ sizes.length := by
  fun_induction place sizes inbs with
  | case1 => exact Nat.le_refl _
  | case2 => exact Nat.zero_le _
  | case3 size sizes inb inbs h ih => exact Nat.succ_le_succ ih
  | case4 size sizes inb inbs h ih => exact ih

/-- The datagrams that are left come last. -/
theorem place_suffix : (place sizes inbs).2 <:+ inbs := by
  fun_induction place sizes inbs with
  | case1 => exact List.suffix_rfl
  | case2 => exact List.suffix_rfl
  | case3 size sizes inb inbs h ih => exact ih.trans (List.suffix_cons _ _)
  | case4 size sizes inb inbs h ih => exact ih.trans (List.suffix_cons _ _)

/-- Every datagram that is placed fits. -/
theorem length_le_of_place {i : ℕ} (h : (place sizes inbs).1[i]? = some inb) :
    inb.data.length ≤ sizes[i]?.getD 0 := by
  fun_induction place sizes inbs generalizing i with
  | case1 => cases h
  | case2 => cases h
  | case3 size sizes inb' inbs hfit ih =>
    cases i with
    | zero =>
      cases h
      exact hfit
    | succ i => exact ih h
  | case4 size sizes inb' inbs hbig ih => exact ih h

end Place

namespace RecvSlots

variable {slots slots' slots'' : RecvSlots} {self : CustomAddr} {i j : ℕ} {inb : Inbound}
  {inbs : List Inbound}

/-- The lengths of the buffers. -/
def sizes (slots : RecvSlots) : List ℕ := slots.bufs.map List.length

/-- The slots have the same at `j`. -/
structure Same (slots slots' : RecvSlots) (j : ℕ) : Prop where
  bufs : slots'.bufs[j]? = slots.bufs[j]?
  metas : slots'.metas[j]? = slots.metas[j]?
  recvInfos : slots'.recvInfos[j]? = slots.recvInfos[j]?

/-- Slot `j` holds a datagram, in front of what it has had after that. -/
structure Holds (slots slots' : RecvSlots) (dst : CustomAddr) (j : ℕ) (inb : Inbound) : Prop where
  bufs : slots'.bufs[j]? =
    slots.bufs[j]?.map fun buf => inb.data ++ buf.drop inb.data.length
  metas : slots'.metas[j]? = some ⟨inb.data.length, inb.data.length⟩
  recvInfos : slots'.recvInfos[j]? = some ⟨addrOf inb.src, some dst⟩

theorem same_fill (h : i ≠ j) : Same slots (slots.fill self i inb) j where
  bufs := by simp [fill, h]
  metas := by simp [fill, h]
  recvInfos := by simp [fill, h]

theorem holds_fill (h : i < slots.bufs.length) :
    Holds slots (slots.fill self i inb) self i inb where
  bufs := by simp [fill]
  metas := by simp [fill, slots.length_metas, h]
  recvInfos := by simp [fill, slots.length_recvInfos, h]

theorem Same.trans (h : Same slots slots' j) (h' : Same slots' slots'' j) :
    Same slots slots'' j where
  bufs := h'.bufs.trans h.bufs
  metas := h'.metas.trans h.metas
  recvInfos := h'.recvInfos.trans h.recvInfos

theorem Holds.trans_same (h : Holds slots slots' self j inb) (h' : Same slots' slots'' j) :
    Holds slots slots'' self j inb where
  bufs := h'.bufs.trans h.bufs
  metas := h'.metas.trans h.metas
  recvInfos := h'.recvInfos.trans h.recvInfos

theorem Same.trans_holds (h : Same slots slots' j) (h' : Holds slots' slots'' self j inb) :
    Holds slots slots'' self j inb where
  bufs := h.bufs ▸ h'.bufs
  metas := h'.metas
  recvInfos := h'.recvInfos

/-- The slots with datagrams in those from `i` on. -/
def fillAll (slots : RecvSlots) (self : CustomAddr) (i : ℕ) : List Inbound → RecvSlots
  | [] => slots
  | inb :: inbs => (slots.fill self i inb).fillAll self (i + 1) inbs

theorem same_fillAll (h : j < i ∨ i + inbs.length ≤ j) :
    Same slots (slots.fillAll self i inbs) j := by
  induction inbs generalizing slots i with
  | nil => exact ⟨rfl, rfl, rfl⟩
  | cons inb inbs ih =>
    rw [List.length_cons] at h
    exact (same_fill (by omega)).trans (ih (by omega))

theorem holds_fillAll (h : inbs[j]? = some inb) (hlen : i + inbs.length ≤ slots.bufs.length) :
    Holds slots (slots.fillAll self i inbs) self (i + j) inb := by
  induction inbs generalizing slots i j with
  | nil => cases h
  | cons inb' inbs ih =>
    rw [List.length_cons] at hlen
    cases j with
    | zero =>
      cases h
      exact (holds_fill (by omega)).trans_same (same_fillAll (.inl (Nat.lt_succ_self i)))
    | succ j =>
      have hrest : Holds (slots.fill self i inb')
          ((slots.fill self i inb').fillAll self (i + 1) inbs) self (i + 1 + j) inb :=
        ih h (by rw [length_bufs_fill]; omega)
      rw [Nat.add_right_comm] at hrest
      exact (same_fill (by omega)).trans_holds hrest

theorem drop_sizes (h : i < slots.bufs.length) :
    slots.sizes.drop i = slots.size i :: slots.sizes.drop (i + 1) := by
  rw [sizes, List.drop_eq_getElem_cons (by simpa using h), List.getElem_map, size,
    List.getElem?_eq_getElem h, Option.getD_some]

/-- Filling a slot does not change the sizes of those after it. -/
theorem drop_sizes_fill (h : i < j) :
    (slots.fill self i inb).sizes.drop j = slots.sizes.drop j := by
  refine List.ext_getElem? fun k => ?_
  have hsame : Same slots (slots.fill self i inb) (j + k) := same_fill (by omega)
  simp only [sizes, List.getElem?_drop, List.getElem?_map, hsame.bufs]

end RecvSlots

namespace RecvCall

variable {slots : RecvSlots} {self : CustomAddr} {count : ℕ} {inbs : List Inbound}

/-- The call with what the backend's receiver answers, one after another, and the
    answers it has not asked for. -/
def drive (self : CustomAddr) :
    RecvCall → List (Poll (Option Inbound)) → RecvCall × List (Poll (Option Inbound))
  | .looping slots count, p :: ps => drive self (resume self slots count p) ps
  | c, ps => (c, ps)

/-- What a receiver answers that has datagrams, and is closed or idle then. -/
def answers (inbs : List Inbound) (closed : Bool) : List (Poll (Option Inbound)) :=
  inbs.map (fun inb => .ready (some inb)) ++ [if closed then .ready none else .pending]

theorem drive_finish (count : ℕ) {ps : List (Poll (Option Inbound))} :
    drive self (finish slots count) ps = (finish slots count, ps) := by
  cases ps <;> rfl

/-- What a looping call does. -/
theorem drive_looping {closed : Bool} (h : count < slots.bufs.length) :
    drive self (.looping slots count) (answers inbs closed) =
      (finish (slots.fillAll self count (place (slots.sizes.drop count) inbs).1)
          (count + (place (slots.sizes.drop count) inbs).1.length),
        if count + (place (slots.sizes.drop count) inbs).1.length = slots.bufs.length then
          answers (place (slots.sizes.drop count) inbs).2 closed
        else []) := by
  induction inbs generalizing slots count with
  | nil =>
    rw [RecvSlots.drop_sizes h, place, if_neg (by simpa using Nat.ne_of_lt h)]
    cases closed <;> exact drive_finish _
  | cons inb inbs ih =>
    rw [RecvSlots.drop_sizes h, place, answers, List.map_cons, List.cons_append, ← answers, drive,
      resume]
    by_cases hfit : inb.data.length ≤ slots.size count
    · rw [if_pos hfit, if_neg (Nat.not_lt.2 hfit)]
      by_cases hmore : count + 1 < slots.bufs.length
      · rw [if_pos hmore, ih (by simpa using hmore), RecvSlots.drop_sizes_fill (Nat.lt_succ_self _),
          RecvSlots.length_bufs_fill, List.length_cons, Nat.add_right_comm]
        rfl
      · have hnil : slots.sizes.drop (count + 1) = [] :=
          List.drop_eq_nil_of_le (by simpa [RecvSlots.sizes] using hmore)
        have hlast : count + 1 = slots.bufs.length := by omega
        rw [if_neg hmore, hnil, place, drive_finish]
        exact congrArg _ (if_pos hlast).symm
    · rw [if_neg hfit, if_pos (Nat.lt_of_not_le hfit), ih h, RecvSlots.drop_sizes h]

/-- What a call does: the datagrams that are placed are in the first slots, with
    metadata and infos, their number is the result, if there are any, and as many answers
    have been asked for as there are up to the last slot being filled. -/
theorem drive_start (self : CustomAddr) (slots : RecvSlots) (inbs : List Inbound) (closed : Bool) :
    ∃ placed rest slots', place slots.sizes inbs = (placed, rest) ∧ rest <:+ inbs ∧
      drive self (start slots) (answers inbs closed) =
        (.returned slots' (if placed = [] then .pending else .ready (.ok placed.length)),
          if placed.length = slots.bufs.length then answers rest closed else []) ∧
      (∀ i inb, placed[i]? = some inb →
        inb.data.length ≤ slots.size i ∧ slots.Holds slots' self i inb) ∧
      ∀ i, placed.length ≤ i → slots.Same slots' i := by
  have hlen : (place slots.sizes inbs).1.length ≤ slots.bufs.length :=
    Nat.le_trans length_place_le (Nat.le_of_eq (List.length_map _))
  refine ⟨_, _, slots.fillAll self 0 (place slots.sizes inbs).1, rfl, place_suffix, ?_,
    fun i inb h => ⟨?_, ?_⟩, fun i h => RecvSlots.same_fillAll (.inr (by omega))⟩
  · by_cases hn : slots.bufs.length = 0
    · have hsizes : slots.sizes = [] := List.map_eq_nil_iff.2 (List.length_eq_zero_iff.1 hn)
      rw [start, if_pos hn, hsizes, hn, place]
      exact drive_finish 0
    · rw [start, if_neg hn, drive_looping (Nat.pos_of_ne_zero hn), List.drop_zero]
      simp only [Nat.zero_add, finish, List.length_eq_zero_iff]
  · refine Nat.le_trans (length_le_of_place h) (Nat.le_of_eq ?_)
    rw [RecvSlots.sizes, RecvSlots.size, List.getElem?_map]
    cases slots.bufs[i]? <;> rfl
  · have hholds : slots.Holds (slots.fillAll self 0 (place slots.sizes inbs).1) self (0 + i) inb :=
      RecvSlots.holds_fillAll h (by omega)
    rwa [Nat.zero_add] at hholds

end RecvCall

end IrohWebrtc
