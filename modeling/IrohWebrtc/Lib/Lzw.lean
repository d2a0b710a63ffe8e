import Mathlib.Data.List.Basic

/-!
# Lempel–Ziv–Welch codes

Letters are sent as codes of strings in a table, which grows by what was sent and one letter
more, up to a limit (`encode`). A receiver knows a string only when its last letter, the first
one of the next code, has arrived: until then its table is one string behind (`Follows`), and
still it finds the string of every code (`Follows.entry`), also of that which it does not have
yet.
-/

namespace IrohWebrtc.Lzw

variable {α : Type*}

/-- The table with a string more, unless it is full. -/
def grow (limit : ℕ) (table : List (List α)) (s : List α) : List (List α) :=
  if table.length < limit then table ++ [s] else table

/-- What is sent for a string and the letters after it: codes, each with the strings there are. -/
def encode [DecidableEq α] (limit : ℕ) : List (List α) → List α → List α → List (ℕ × ℕ)
  | table, s, [] => [(table.idxOf s, table.length)]
  | table, s, c :: data =>
    if s ++ [c] ∈ table then encode limit table (s ++ [c]) data
    else (table.idxOf s, table.length) :: encode limit (grow limit table (s ++ [c])) [c] data

/-- The string of a code, after another string. The one that is missing starts with that, and
    ends with its first letter. -/
def entry (table : List (List α)) (last : List α) (code : ℕ) : Option (List α) :=
  if code = table.length then some (last ++ last.take 1) else table[code]?

/-- How the table of a receiver, who has a string last, follows that of the sender, who is about
    to send a string. -/
inductive Follows (limit : ℕ) (sent received : List (List α)) (last s : List α) : Prop
  | behind (h : sent = received ++ [last ++ s.take 1]) (hle : sent.length ≤ limit)
  | full (h : sent <+: received) (hlen : sent.length = limit)

variable {limit cap : ℕ} {table sent received : List (List α)} {last s : List α} {c : α}

theorem length_grow_le (h : table.length ≤ limit) : (grow limit table s).length ≤ limit := by
  rw [grow]
  split
  · rw [List.length_append, List.length_singleton]
    omega
  · exact h

theorem prefix_grow (limit : ℕ) (table : List (List α)) (s : List α) :
    table <+: grow limit table s := by
  rw [grow]
  split
  · exact List.prefix_append ..
  · exact List.prefix_rfl

theorem take_one_append (h : s ≠ []) : (s ++ [c]).take 1 = s.take 1 :=
  List.take_append_of_le_length (List.length_pos_iff.2 h)

namespace Follows

/-- The sender goes on to a longer string. -/
theorem extend (h : Follows limit sent received last s) (hs : s ≠ []) :
    Follows limit sent received last (s ++ [c]) := by
  cases h with
  | behind h hle => exact .behind (by rw [take_one_append hs, h]) hle
  | full h hlen => exact .full h hlen

/-- The string of a code is found. -/
theorem entry (h : Follows limit sent received last s) (hlast : last ≠ []) {i : ℕ}
    (hget : sent[i]? = some s) : Lzw.entry received last i = some s := by
  cases h with
  | behind h hle =>
    subst h
    by_cases hcode : i = received.length
    · -- the string that was added last: it starts with the one before
      rw [hcode, List.getElem?_concat_length, Option.some_inj] at hget
      have hfirst : s.take 1 = last.take 1 := by
        rw [← hget, List.take_append_of_le_length (List.length_pos_iff.2 hlast)]
      rw [Lzw.entry, if_pos hcode, ← hfirst, hget]
    · have hlt := (List.getElem?_eq_some_iff.1 hget).1
      rw [List.length_append, List.length_singleton] at hlt
      rw [List.getElem?_append_left (by omega)] at hget
      rw [Lzw.entry, if_neg hcode, hget]
  | full h hlen =>
    have hlt := (List.getElem?_eq_some_iff.1 hget).1
    have hle := h.length_le
    obtain ⟨rest, rfl⟩ := h
    rw [Lzw.entry, if_neg (by omega), List.getElem?_append_left hlt, hget]

/-- What the sender adds is what the receiver will have after the next code. -/
theorem next (h : Follows limit sent received last s) (hcap : limit ≤ cap) :
    Follows limit (grow limit sent (s ++ [c])) (grow cap received (last ++ s.take 1)) s [c] := by
  cases h with
  | behind h hle =>
    have hlen : sent.length = received.length + 1 := by
      rw [h, List.length_append, List.length_singleton]
    have hgrow : grow cap received (last ++ s.take 1) = sent := by
      rw [grow, if_pos (by omega), h]
    rw [hgrow, grow]
    split
    · next hlt =>
      refine .behind rfl ?_
      rw [List.length_append, List.length_singleton]
      omega
    · exact .full List.prefix_rfl (by omega)
  | full h hlen =>
    rw [grow, if_neg (by omega)]
    exact .full (h.trans (prefix_grow ..)) hlen

end Follows

end IrohWebrtc.Lzw
