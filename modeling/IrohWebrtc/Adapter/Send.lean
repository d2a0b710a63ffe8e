import IrohWebrtc.Adapter

/-!
# Addresses and what is sent to them

An address is reported valid by its id, and sent to by the length of its data. Being
valid and being sent to agree, on the addresses of peer keys and on no others, as long as
the two tell the same (`sendAgrees_iff`): an address of this transport with other data is
valid and loses what is sent to it, and one of another transport that has 32 bytes is
taken for a peer key.
-/

namespace IrohWebrtc

/-! ## Pieces -/

section Pieces

variable {α : Type*} {n fuel : ℕ} {l p : List α}

theorem flatten_chunksFuel (hn : 0 < n) (h : l.length ≤ fuel) :
    (chunksFuel n fuel l).flatten = l := by
  fun_induction chunksFuel n fuel l with
  | case1 l => exact (List.length_eq_zero_iff.1 (Nat.le_zero.1 h)).symm
  | case2 => rfl
  | case3 fuel l hl ih =>
    have hpos := List.length_pos_iff.2 hl
    rw [List.flatten_cons, ih (by rw [List.length_drop]; omega), List.take_append_drop]

theorem ne_nil_of_mem_chunksFuel (hn : 0 < n) (hp : p ∈ chunksFuel n fuel l) : p ≠ [] := by
  fun_induction chunksFuel n fuel l with
  | case1 | case2 => cases hp
  | case3 fuel l hl ih =>
    rcases List.mem_cons.1 hp with rfl | hp
    · have hpos := List.length_pos_iff.2 hl
      rw [← List.length_pos_iff, List.length_take]
      omega
    · exact ih hp

theorem length_le_of_mem_chunksFuel (hp : p ∈ chunksFuel n fuel l) : p.length ≤ n := by
  fun_induction chunksFuel n fuel l with
  | case1 | case2 => cases hp
  | case3 fuel l hl ih =>
    rcases List.mem_cons.1 hp with rfl | hp
    · rw [List.length_take]
      exact Nat.min_le_left _ _
    · exact ih hp

/-- Only the last piece may be shorter. -/
theorem length_of_mem_dropLast_chunksFuel (hp : p ∈ (chunksFuel n fuel l).dropLast) :
    p.length = n := by
  fun_induction chunksFuel n fuel l with
  | case1 | case2 => cases hp
  | case3 fuel l hl ih =>
    by_cases hnil : chunksFuel n fuel (l.drop n) = []
    · rw [hnil] at hp
      cases hp
    · rw [List.dropLast_cons_of_ne_nil hnil] at hp
      rcases List.mem_cons.1 hp with rfl | hp
      · have hdrop : l.drop n ≠ [] := by
          intro h
          rw [h] at hnil
          cases fuel <;> exact hnil rfl
        have := List.length_pos_iff.2 hdrop
        rw [List.length_drop] at this
        rw [List.length_take]
        omega
      · exact ih hp

/-- Pieces as long as the whole. -/
theorem chunksFuel_length (h : l.length ≤ n) : (chunksFuel n fuel l).length ≤ 1 := by
  fun_cases chunksFuel n fuel l with
  | case1 | case2 => exact Nat.zero_le 1
  | case3 fuel l hl =>
    rw [List.drop_eq_nil_of_le h]
    cases fuel <;> exact Nat.le_refl 1

end Pieces

/-- The contents in consecutive pieces of the segment size, none of them empty and the
    last possibly shorter, or in one piece. -/
structure Cut (segmentSize : Option ℕ) (contents : Bytes) (pieces : List Bytes) : Prop where
  flatten : pieces.flatten = contents
  ne_nil : ∀ p ∈ pieces, p ≠ []
  length_le : ∀ n ∈ segmentSize, ∀ p ∈ pieces, p.length ≤ n
  length_eq : ∀ n ∈ segmentSize, ∀ p ∈ pieces.dropLast, p.length = n
  of_none : segmentSize = none → pieces.length ≤ 1

theorem cut_chunks {t : Transmit} (h : t.segmentSize ≠ some 0) :
    Cut t.segmentSize t.contents
      (chunks (max (t.segmentSize.getD t.contents.length) 1) t.contents) := by
  have hpos : 0 < max (t.segmentSize.getD t.contents.length) 1 := by omega
  have hmax : ∀ n ∈ t.segmentSize, max (t.segmentSize.getD t.contents.length) 1 = n := by
    intro n hn
    rw [Option.mem_def] at hn
    rw [hn] at h ⊢
    have hn : n ≠ 0 := fun hn => h (congrArg some hn)
    rw [Option.getD_some]
    omega
  constructor
  · exact flatten_chunksFuel hpos (Nat.le_refl _)
  · exact fun p hp => ne_nil_of_mem_chunksFuel hpos hp
  · intro n hn p hp
    rw [hmax n hn] at hp
    exact length_le_of_mem_chunksFuel hp
  · intro n hn p hp
    rw [hmax n hn] at hp
    exact length_of_mem_dropLast_chunksFuel hp
  · intro hnone
    refine chunksFuel_length ?_
    rw [hnone, Option.getD_none]
    omega

/-! ## Addresses -/

theorem keyOf_eq_none {a : CustomAddr} : keyOf a = none ↔ a.data.length ≠ 32 := by
  rw [keyOf]
  split_ifs with h
  · simp [h]
  · simp [h]

/-- The addresses of peer keys. -/
theorem exists_addrOf_iff {a : CustomAddr} :
    (∃ k, a = addrOf k) ↔ a.id = transportId ∧ a.data.length = 32 := by
  constructor
  · rintro ⟨k, rfl⟩
    exact ⟨rfl, by simp [addrOf]⟩
  · rintro ⟨hid, hlen⟩
    refine ⟨⟨a.data.toArray, by simpa using hlen⟩, ?_⟩
    obtain ⟨id, data⟩ := a
    subst hid
    rfl

theorem isValidSendAddr_iff {a : CustomAddr} : isValidSendAddr a ↔ a.id = transportId := by
  rw [isValidSendAddr, beq_iff_eq]

/-- Without a key nothing is sent, and with one only what is empty is not. -/
theorem pollSend_eq_nil {a : CustomAddr} {t : Transmit} (h : t.segmentSize ≠ some 0) :
    (pollSend a t).1 = [] ↔ a.data.length ≠ 32 ∨ t.contents = [] := by
  rw [← keyOf_eq_none, pollSend]
  cases hk : keyOf a with
  | none => simp
  | some key =>
    have hcut := (cut_chunks h).flatten
    simp only [List.map_eq_nil_iff, reduceCtorEq, false_or]
    constructor
    · intro hnil
      rw [hnil] at hcut
      exact hcut.symm
    · intro hnil
      rw [hnil]
      rfl

/-- The address is valid if it is that of a peer key. Then this key is sent the contents
    in pieces, and otherwise nothing is sent. -/
structure SendAgrees (a : CustomAddr) (t : Transmit) : Prop where
  valid_iff : isValidSendAddr a ↔ ∃ k, a = addrOf k
  of_valid : isValidSendAddr a → ∃! k, a = addrOf k ∧ ∃ pieces, Cut t.segmentSize t.contents pieces ∧
    pollSend a t = (pieces.map fun p => (k, p), .ready (.ok ()))
  of_not_valid : ¬ isValidSendAddr a → (pollSend a t).1 = []

theorem sendAgrees_iff {a : CustomAddr} {t : Transmit} (h : t.segmentSize ≠ some 0) :
    SendAgrees a t ↔ if a.id = transportId then a.data.length = 32
      else a.data.length ≠ 32 ∨ t.contents = [] := by
  by_cases hid : a.id = transportId
  · rw [if_pos hid]
    constructor
    · intro hs
      exact (exists_addrOf_iff.1 (hs.valid_iff.1 (isValidSendAddr_iff.2 hid))).2
    · intro hlen
      have hk := exists_addrOf_iff.2 ⟨hid, hlen⟩
      have hvalid := isValidSendAddr_iff.2 hid
      refine ⟨iff_of_true hvalid hk, fun _ => ?_, fun hn => absurd hvalid hn⟩
      obtain ⟨k, rfl⟩ := hk
      refine ⟨k, ⟨rfl, _, cut_chunks h, ?_⟩, fun k' hk' => (addrOf_injective hk'.1).symm⟩
      rw [pollSend, keyOf_addrOf]
  · rw [if_neg hid]
    have hvalid : ¬ isValidSendAddr a := fun hv => hid (isValidSendAddr_iff.1 hv)
    rw [← pollSend_eq_nil h]
    constructor
    · exact fun hs => hs.of_not_valid hvalid
    · intro hnil
      exact ⟨iff_of_false hvalid fun hk => hid (exists_addrOf_iff.1 hk).1,
        fun hv => absurd hv hvalid, fun _ => hnil⟩

/-- An address of this transport without data is not that of a peer key. -/
theorem sendAgrees_iff_nil : SendAgrees ⟨transportId, []⟩ ⟨[1, 2, 3], some 2⟩ ↔
    if transportId = transportId then ([] : Bytes).length = 32
      else ([] : Bytes).length ≠ 32 ∨ [1, 2, 3] = ([] : Bytes) :=
  sendAgrees_iff (by decide)

/-- It is valid, and what is sent to it is lost. -/
theorem not_sendAgrees : isValidSendAddr ⟨transportId, []⟩ ∧
    pollSend ⟨transportId, []⟩ ⟨[1, 2, 3], some 2⟩ = ([], .ready (.ok ())) ∧
    ¬ SendAgrees ⟨transportId, []⟩ ⟨[1, 2, 3], some 2⟩ := by
  refine ⟨by decide, by decide, fun h => ?_⟩
  have := (exists_addrOf_iff.1 (h.valid_iff.1 (by decide))).2
  cases this

end IrohWebrtc
