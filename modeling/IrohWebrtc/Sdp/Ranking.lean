import IrohWebrtc.Sdp.RoundTrip
import Mathlib.Data.List.Nodup

/-!
# The priorities of rebuilt candidates

`unpackSdp` gives candidates priorities by their place in the list, with one base for
candidates of type host and another for all others. They rank the candidates as their
types do, and in the order of the list (`Ranking`), as long as no candidate of type relay
comes before one of type srflx (`ranking_iff`).
-/

namespace IrohWebrtc

variable {cs : List UdpCandidate} {c d : UdpCandidate} {i j p q : ℕ}

/-- The preference of a type: the more direct, the higher. -/
def Typ.preference : Typ → ℕ
  | .host => 2
  | .srflx .. => 1
  | .relay .. => 0

/-- The priority in a line of a candidate. -/
def SdpLine.priority? : SdpLine → Option ℕ
  | .udp _ _ priority _ _ => some (Nat.ofDigitChars 10 priority.1 0)
  | _ => none

/-- The priorities of candidates are different numbers in the range of priorities, in
    the order of the list for candidates of one type, and of their types for others. -/
structure Ranking (cs : List UdpCandidate) (ps : List ℕ) : Prop where
  length_eq : ps.length = cs.length
  bounds : ∀ p ∈ ps, 1 ≤ p ∧ p ≤ 2147483647
  nodup : ps.Nodup
  same : ∀ {i j : ℕ} {c d : UdpCandidate} {p q : ℕ}, cs[i]? = some c → cs[j]? = some d →
    ps[i]? = some p → ps[j]? = some q → c.typ.preference = d.typ.preference → i < j → q < p
  preferred : ∀ {i j : ℕ} {c d : UdpCandidate} {p q : ℕ}, cs[i]? = some c → cs[j]? = some d →
    ps[i]? = some p → ps[j]? = some q → d.typ.preference < c.typ.preference → q < p

/-- No candidate of type relay comes before one of type srflx. -/
def RelayLast (cs : List UdpCandidate) : Prop :=
  ∀ {i j : ℕ} {c d : UdpCandidate}, cs[i]? = some c → cs[j]? = some d → i < j →
    ¬ (c.typ.preference = 0 ∧ d.typ.preference = 1)

/-- The base depends on whether the type is host. -/
theorem priority_eq (c : UdpCandidate) (i : ℕ) : c.typ.preference = 2 ∧ c.priority i = 2122252543 - i ∨
    c.typ.preference < 2 ∧ c.priority i = 1686052607 - i := by
  obtain ⟨address, port, typ⟩ := c
  cases typ with
  | host => exact .inl ⟨rfl, rfl⟩
  | srflx => exact .inr ⟨Nat.one_lt_two, rfl⟩
  | relay => exact .inr ⟨Nat.zero_lt_two, rfl⟩

/-- The priorities of candidates in a list. -/
def priorities (cs : List UdpCandidate) : List ℕ := cs.mapIdx fun i c => c.priority i

theorem priorities_rebuild (x : SessionData) :
    (rebuild x).filterMap (·.priority?) = priorities x.candidates := by
  have hline := filterMap_mapIdx (f := fun i c => UdpCandidate.line i c) (g := (·.priority?))
    (k := fun i c => c.priority i) (fun _ _ => congrArg some Nat.ofDigitChars_ten_toDigits)
    x.candidates
  rw [rebuild, List.filterMap_append, hline]
  rfl

theorem getElem?_priorities : (priorities cs)[i]? = some p ↔
    ∃ c, cs[i]? = some c ∧ c.priority i = p := by
  rw [priorities, List.getElem?_mapIdx, Option.map_eq_some_iff]

theorem lt_length (h : cs[i]? = some c) : i < cs.length := (List.getElem?_eq_some_iff.1 h).1

/-- Candidates at different places of a short list have different priorities. -/
theorem priority_ne (hij : i < j) (hj : j < 268435456) : c.priority i ≠ d.priority j := by
  rcases priority_eq c i with ⟨-, hc⟩ | ⟨-, hc⟩ <;> rcases priority_eq d j with ⟨-, hd⟩ | ⟨-, hd⟩ <;>
    omega

theorem nodup_priorities (h : cs.length < 268435456) : (priorities cs).Nodup := by
  rw [List.nodup_iff_getElem?_ne_getElem?]
  intro i j hij hlen heq
  rw [priorities, List.length_mapIdx] at hlen
  have hi := List.getElem?_eq_getElem (hij.trans hlen)
  have hj := List.getElem?_eq_getElem hlen
  rw [priorities, List.getElem?_mapIdx, List.getElem?_mapIdx, hi, hj] at heq
  exact priority_ne hij (hlen.trans h) (Option.some.inj heq)

theorem ranking_priorities_iff (h : cs.length < 268435456) :
    Ranking cs (priorities cs) ↔ RelayLast cs := by
  constructor
  · intro hr i j c d hi hj hij hcd
    -- The candidate of type relay is ranked above, coming first.
    have hlt := hr.preferred hj hi (getElem?_priorities.2 ⟨d, hj, rfl⟩)
      (getElem?_priorities.2 ⟨c, hi, rfl⟩) (by omega)
    rcases priority_eq c i with ⟨hpc, hc⟩ | ⟨hpc, hc⟩ <;>
      rcases priority_eq d j with ⟨hpd, hd⟩ | ⟨hpd, hd⟩ <;> omega
  · intro hlast
    constructor
    · exact List.length_mapIdx
    · intro p hp
      obtain ⟨i, hi⟩ := List.mem_iff_getElem?.1 hp
      obtain ⟨c, hc, rfl⟩ := getElem?_priorities.1 hi
      have hlt := lt_length hc
      rcases priority_eq c i with ⟨-, hc⟩ | ⟨-, hc⟩ <;> omega
    · exact nodup_priorities h
    · intro i j c d p q hi hj hp hq heq hij
      obtain ⟨c', hc', rfl⟩ := getElem?_priorities.1 hp
      obtain ⟨d', hd', rfl⟩ := getElem?_priorities.1 hq
      cases hi.symm.trans hc'
      cases hj.symm.trans hd'
      have hlt := lt_length hj
      rcases priority_eq c i with ⟨hpc, hc⟩ | ⟨hpc, hc⟩ <;>
        rcases priority_eq d j with ⟨hpd, hd⟩ | ⟨hpd, hd⟩ <;> omega
    · intro i j c d p q hi hj hp hq hpref
      obtain ⟨c', hc', rfl⟩ := getElem?_priorities.1 hp
      obtain ⟨d', hd', rfl⟩ := getElem?_priorities.1 hq
      cases hi.symm.trans hc'
      cases hj.symm.trans hd'
      have hlt := lt_length hi
      have hlt' := lt_length hj
      rcases priority_eq c i with ⟨hpc, hc⟩ | ⟨hpc, hc⟩ <;>
        rcases priority_eq d j with ⟨hpd, hd⟩ | ⟨hpd, hd⟩
      · omega
      · omega
      · omega
      · -- Of types srflx and relay: the first of them is that of type srflx.
        have hij : ¬ j < i := fun hji => hlast hj hi hji ⟨by omega, by omega⟩
        have hne : i ≠ j := by
          rintro rfl
          cases hi.symm.trans hj
          exact absurd hpref (Nat.lt_irrefl _)
        omega

/-- The priorities of the rebuilt candidates. -/
theorem ranking_iff {type : SdpType} {x : SessionData} (h : x.candidates.length < 268435456) :
    unpackSdp (['~'].intercalate (packedFields type x)) = some ⟨type, render (rebuild x)⟩ ∧
      (Ranking x.candidates ((rebuild x).filterMap (·.priority?)) ↔ RelayLast x.candidates) := by
  rw [priorities_rebuild]
  exact ⟨unpackSdp_packedFields h, ranking_priorities_iff h⟩

/-- A candidate of type relay before one of type srflx. -/
def relayFirst : List UdpCandidate :=
  [⟨⟨"10.0.0.7".toList, by decide⟩, ⟨['9'], by decide⟩,
      .relay ⟨"10.0.0.8".toList, by decide⟩ ⟨['8'], by decide⟩⟩,
    ⟨⟨"10.0.0.9".toList, by decide⟩, ⟨['9'], by decide⟩,
      .srflx ⟨"10.0.0.8".toList, by decide⟩ ⟨['8'], by decide⟩⟩]

theorem ranking_iff_relayFirst :
    unpackSdp (['~'].intercalate (packedFields .offer { session with candidates := relayFirst })) =
        some ⟨.offer, render (rebuild { session with candidates := relayFirst })⟩ ∧
      (Ranking relayFirst
        ((rebuild { session with candidates := relayFirst }).filterMap (·.priority?)) ↔
        RelayLast relayFirst) :=
  ranking_iff (x := { session with candidates := relayFirst }) (by decide)

/-- It gets the higher priority. -/
theorem not_ranking : ¬ Ranking relayFirst
    ((rebuild { session with candidates := relayFirst }).filterMap (·.priority?)) := by
  rw [priorities_rebuild]
  intro h
  have hlt : 1686052607 < 1686052606 :=
    h.preferred (i := 1) (j := 0) rfl rfl rfl rfl (by decide)
  exact absurd hlt (by decide)

end IrohWebrtc
