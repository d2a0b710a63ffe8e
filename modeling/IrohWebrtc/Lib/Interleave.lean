import Mathlib.Algebra.BigOperators.Group.List.Basic
import Mathlib.Algebra.GroupWithZero.Nat
import Mathlib.Data.List.Basic

/-!
# Rows that are sent by columns

The rows of a table, which may have different lengths, sent one column after the other
(`interleave`). Where a letter of a row is, depends on the lengths only (`slots`), so that a
receiver who knows these finds the rows again (`deinterleave_interleave`).
-/

namespace IrohWebrtc.Interleave

variable {α β : Type*}

/-- The first `n` columns, without what shorter rows do not have. -/
def interleave (n : ℕ) (rows : List (List α)) : List α :=
  (List.range n).flatMap fun i => rows.filterMap (·[i]?)

/-- Which letter is sent when: row and place of each. -/
def slots (n : ℕ) (lens : List ℕ) : List (ℕ × ℕ) :=
  (List.range n).flatMap fun i =>
    lens.zipIdx.filterMap fun (len, r) => if i < len then some (r, i) else none

/-- The rows of such lengths, of what was sent. -/
def deinterleave (n : ℕ) (lens : List ℕ) (default : α) (sent : List α) : List (List α) :=
  lens.zipIdx.map fun (len, r) =>
    (List.range len).map fun i => sent.getD ((slots n lens).idxOf (r, i)) default

theorem mem_slots {n r i : ℕ} {lens : List ℕ} {len : ℕ} (hr : lens[r]? = some len) (hi : i < len)
    (hn : len ≤ n) : (r, i) ∈ slots n lens := by
  rw [slots, List.mem_flatMap]
  refine ⟨i, List.mem_range.2 (Nat.lt_of_lt_of_le hi hn),
    List.mem_filterMap.2 ⟨(len, r), ?_, if_pos hi⟩⟩
  exact List.mk_mem_zipIdx_iff_getElem?.2 hr

/-- What is sent at a slot. -/
theorem interleave_eq (n : ℕ) (rows : List (List α)) (default : α) :
    interleave n rows =
      (slots n (rows.map List.length)).map fun s => (rows.getD s.1 []).getD s.2 default := by
  rw [interleave, slots, List.map_flatMap]
  refine List.flatMap_congr fun i _ => ?_
  rw [List.zipIdx_map, List.filterMap_map, List.map_filterMap]
  conv_lhs => rw [← List.zipIdx_map_fst 0 rows, List.filterMap_map]
  refine List.filterMap_congr fun x hx => ?_
  obtain ⟨row, r⟩ := x
  have hrow : rows[r]? = some row := List.mk_mem_zipIdx_iff_getElem?.1 hx
  by_cases hi : i < row.length
  · simp [hi, hrow]
  · simp [hi]

/-- The rows are found in what was sent, whatever else was sent after them. -/
theorem deinterleave_interleave {n : ℕ} {rows : List (List α)} (h : ∀ row ∈ rows, row.length ≤ n)
    (default : α) (rest : List α) :
    deinterleave n (rows.map List.length) default (interleave n rows ++ rest) = rows := by
  refine List.ext_getElem (by simp [deinterleave]) fun r hr hr' => ?_
  have hrow : rows[r]? = some rows[r] := List.getElem?_eq_getElem hr'
  have hlen : (rows.map List.length)[r]? = some rows[r].length := by
    rw [List.getElem?_map, hrow]
    rfl
  simp only [deinterleave, List.getElem_map, List.getElem_zipIdx, Nat.zero_add]
  refine List.ext_getElem (by simp) fun i hi hi' => ?_
  have hmem := mem_slots hlen hi' (h _ (List.getElem_mem hr'))
  have hlt := List.idxOf_lt_length_of_mem hmem
  rw [List.getElem_map, List.getElem_range, List.getD_eq_getElem?_getD, interleave_eq n rows default,
    List.getElem?_append_left (by rwa [List.length_map]), List.getElem?_map,
    List.getElem?_eq_getElem hlt, List.getElem_idxOf hlt]
  simp [hrow, hi']

theorem sum_range_ite (n len : ℕ) :
    ((List.range n).map fun i => if i < len then 1 else 0).sum = min n len := by
  induction n with
  | zero => simp
  | succ n ih =>
    rw [List.range_succ, List.map_append, List.sum_append, ih]
    simp only [List.map_cons, List.map_nil, List.sum_cons, List.sum_nil]
    split <;> omega

/-- As many letters are sent as there are. -/
theorem length_interleave {n : ℕ} {rows : List (List α)} (h : ∀ row ∈ rows, row.length ≤ n) :
    (interleave n rows).length = (rows.map List.length).sum := by
  rw [interleave, List.length_flatMap]
  induction rows with
  | nil => simp
  | cons row rows ih =>
    rw [List.forall_mem_cons] at h
    have hcolumn : ∀ i, ((row :: rows).filterMap (·[i]?)).length =
        (if i < row.length then 1 else 0) + (rows.filterMap (·[i]?)).length := by
      intro i
      by_cases hi : i < row.length
      · rw [List.filterMap_cons, List.getElem?_eq_getElem hi, if_pos hi, Nat.add_comm]
        rfl
      · rw [List.filterMap_cons, List.getElem?_eq_none (Nat.le_of_not_lt hi), if_neg hi,
          Nat.zero_add]
    simp only [hcolumn, List.sum_map_add, sum_range_ite]
    rw [ih h.2, Nat.min_eq_right h.1, List.map_cons, List.sum_cons]

theorem mem_interleave {n : ℕ} {rows : List (List α)} {x : α} (h : x ∈ interleave n rows) :
    ∃ row ∈ rows, x ∈ row := by
  obtain ⟨i, -, hx⟩ := List.mem_flatMap.1 h
  obtain ⟨row, hrow, hx⟩ := List.mem_filterMap.1 hx
  exact ⟨row, hrow, List.mem_of_getElem? hx⟩

/-- Sending letters that are changed one by one. -/
theorem map_interleave (f : α → β) (n : ℕ) (rows : List (List α)) :
    (interleave n rows).map f = interleave n (rows.map (List.map f)) := by
  rw [interleave, interleave, List.map_flatMap]
  refine List.flatMap_congr fun i _ => ?_
  rw [List.map_filterMap, List.filterMap_map]
  refine List.filterMap_congr fun row _ => ?_
  rw [Function.comp_apply, List.getElem?_map]

end IrohWebrtc.Interleave
