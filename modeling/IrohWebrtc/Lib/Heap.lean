import Mathlib.Data.Set.Insert
import Mathlib.Logic.Function.Basic

/-!
# Blocks of a heap

A heap is known by what it lets its users do: get a block, write into a block, get a block of
another size for one (`Allocator`). It keeps blocks apart and moves their bytes as long as its
users write into blocks only (`Lawful`). Who has a block (`Owns`) can do all of this with it,
and leaves the other blocks as they were. A heap that never uses addresses again (`bump`) is
one of these.
-/

namespace IrohWebrtc.Heap

/-- Addresses in a row. -/
structure Block where
  ptr : ℕ
  size : ℕ
  deriving DecidableEq

def Block.range (b : Block) : Set ℕ := {a | b.ptr ≤ a ∧ a < b.ptr + b.size}

/-- A heap with states `S`. -/
structure Allocator (S : Type*) where
  mem : S → ℕ → UInt8
  live : S → Set Block
  malloc : ℕ → S → S × ℕ
  realloc : ℕ → ℕ → ℕ → S → S × ℕ
  store : ℕ → UInt8 → S → S

/-- Whether two blocks have no address in common. -/
def Block.Apart (b c : Block) : Prop := ∀ a ∈ b.range, a ∉ c.range

/-- Whether a block's bytes are the same in two memories. -/
def Block.Same (b : Block) (m m' : ℕ → UInt8) : Prop := ∀ a ∈ b.range, m' a = m a

variable {S : Type*} {al : Allocator S} {s₀ s : S} {b : Block}

/-- Somebody has a block `b`, and from the state `s₀` on no other block has changed. -/
structure Owns (al : Allocator S) (s₀ s : S) (b : Block) : Prop where
  live : b ∈ al.live s
  kept : ∀ c ∈ al.live s₀, c ∈ al.live s ∧ c.Apart b ∧ c.Same (al.mem s₀) (al.mem s)

/-- What a heap does for those who write into their blocks only. -/
structure Lawful (al : Allocator S) : Prop where
  malloc : ∀ n s, Owns al s (al.malloc n s).1 ⟨(al.malloc n s).2, n⟩
  store : ∀ s a x, (∃ b ∈ al.live s, a ∈ b.range) →
    al.live (al.store a x s) = al.live s ∧ al.mem (al.store a x s) = Function.update (al.mem s) a x
  realloc : ∀ s p old new, ⟨p, old⟩ ∈ al.live s →
    ⟨(al.realloc p old new s).2, new⟩ ∈ al.live (al.realloc p old new s).1 ∧
    (∀ i < old, i < new →
      al.mem (al.realloc p old new s).1 ((al.realloc p old new s).2 + i) = al.mem s (p + i)) ∧
    ∀ c ∈ al.live s, c ≠ ⟨p, old⟩ → c ∈ al.live (al.realloc p old new s).1 ∧
      c.Apart ⟨(al.realloc p old new s).2, new⟩ ∧
      c.Same (al.mem s) (al.mem (al.realloc p old new s).1)

theorem Block.Same.trans {m₁ m₂ m₃ : ℕ → UInt8} (h : b.Same m₁ m₂) (h' : b.Same m₂ m₃) :
    b.Same m₁ m₃ := fun a ha => (h' a ha).trans (h a ha)

/-- An owner writes into the block. -/
theorem Owns.store (h : Owns al s₀ s b) (hal : Lawful al) {a : ℕ} (x : UInt8) (ha : a ∈ b.range) :
    Owns al s₀ (al.store a x s) b ∧
      al.mem (al.store a x s) = Function.update (al.mem s) a x := by
  obtain ⟨hlive, hmem⟩ := hal.store s a x ⟨b, h.live, ha⟩
  refine ⟨⟨hlive ▸ h.live, fun c hc => ?_⟩, hmem⟩
  obtain ⟨hcs, hapart, hsame⟩ := h.kept c hc
  refine ⟨hlive ▸ hcs, hapart, hsame.trans fun a' ha' => ?_⟩
  have hne : a' ≠ a := fun heq => hapart a' ha' (heq ▸ ha)
  rw [hmem, Function.update_of_ne hne]

/-- An owner gets a block of another size, with the same bytes. -/
theorem Owns.realloc (h : Owns al s₀ s b) (hal : Lawful al) (hpos : 0 < b.size) (new : ℕ) :
    Owns al s₀ (al.realloc b.ptr b.size new s).1 ⟨(al.realloc b.ptr b.size new s).2, new⟩ ∧
      ∀ i < b.size, i < new → al.mem (al.realloc b.ptr b.size new s).1
        ((al.realloc b.ptr b.size new s).2 + i) = al.mem s (b.ptr + i) := by
  obtain ⟨hlive, hmem, hkept⟩ := hal.realloc s b.ptr b.size new h.live
  refine ⟨⟨hlive, fun c hc => ?_⟩, hmem⟩
  obtain ⟨hcs, hapart, hsame⟩ := h.kept c hc
  have hne : c ≠ ⟨b.ptr, b.size⟩ := by
    rintro rfl
    have hfirst : b.ptr ∈ b.range := ⟨Nat.le_refl _, Nat.lt_add_of_pos_right hpos⟩
    exact hapart _ hfirst hfirst
  obtain ⟨hcs', hapart', hsame'⟩ := hkept c hcs hne
  exact ⟨hcs', hapart', hsame.trans hsame'⟩

/-! ## Bytes in a row -/

/-- Bytes are written from an address on. -/
def Allocator.storeAll (al : Allocator S) (a : ℕ) : List UInt8 → S → S
  | [], s => s
  | x :: l, s => al.storeAll (a + 1) l (al.store a x s)

/-- The bytes from an address on. -/
def bytesAt (m : ℕ → UInt8) (a n : ℕ) : List UInt8 := (List.range n).map fun i => m (a + i)

theorem bytesAt_add (m : ℕ → UInt8) (a k n : ℕ) :
    bytesAt m a (k + n) = bytesAt m a k ++ bytesAt m (a + k) n := by
  simp only [bytesAt, List.range_add, List.map_append, List.map_map, Function.comp_def,
    Nat.add_assoc]

theorem bytesAt_congr {m m' : ℕ → UInt8} {a a' n : ℕ} (h : ∀ i < n, m (a + i) = m' (a' + i)) :
    bytesAt m a n = bytesAt m' a' n :=
  List.map_congr_left fun i hi => h i (List.mem_range.1 hi)

/-- An owner writes bytes into the block. -/
theorem Owns.storeAll (h : Owns al s₀ s b) (hal : Lawful al) {a : ℕ} (l : List UInt8)
    (ha : b.ptr ≤ a) (hl : a + l.length ≤ b.ptr + b.size) :
    Owns al s₀ (al.storeAll a l s) b ∧ bytesAt (al.mem (al.storeAll a l s)) a l.length = l ∧
      ∀ a' < a, al.mem (al.storeAll a l s) a' = al.mem s a' := by
  induction l generalizing a s with
  | nil => exact ⟨h, rfl, fun _ _ => rfl⟩
  | cons x l ih =>
    rw [List.length_cons] at hl
    obtain ⟨hx, hmem⟩ := h.store hal x ⟨ha, by omega⟩
    obtain ⟨howns, hbytes, hbelow⟩ := ih (a := a + 1) hx (Nat.le_succ_of_le ha) (by omega)
    refine ⟨howns, ?_, fun a' ha' => ?_⟩
    · have hfirst : bytesAt (al.mem (al.storeAll (a + 1) l (al.store a x s))) a 1 = [x] := by
        rw [bytesAt, List.range_one, List.map_singleton]
        change [al.mem (al.storeAll (a + 1) l (al.store a x s)) a] = [x]
        rw [hbelow a (Nat.lt_succ_self a), hmem, Function.update_self]
      rw [List.length_cons, Nat.add_comm, bytesAt_add, Allocator.storeAll, hfirst, hbytes]
      rfl
    · rw [Allocator.storeAll, hbelow a' (Nat.lt_succ_of_lt ha'), hmem,
        Function.update_of_ne (Nat.ne_of_lt ha')]

/-! ## A heap that does not use addresses again -/

/-- A memory and its blocks, and where the rest begins. -/
structure Bump where
  mem : ℕ → UInt8
  live : Set Block
  next : ℕ
  below : ∀ b ∈ live, b.ptr + b.size ≤ next

namespace Bump

def empty : Bump := ⟨fun _ => 0, ∅, 0, fun _ hb => hb.elim⟩

def malloc (n : ℕ) (s : Bump) : Bump :=
  ⟨s.mem, insert ⟨s.next, n⟩ s.live, s.next + n, fun b hb => by
    rcases Set.mem_insert_iff.1 hb with rfl | hb
    · exact Nat.le_refl _
    · exact Nat.le_add_right_of_le (s.below b hb)⟩

/-- A block's bytes are copied to where the rest begins, and the block is given up. -/
def realloc (p old new : ℕ) (s : Bump) : Bump :=
  ⟨fun a => if s.next ≤ a ∧ a < s.next + min old new then s.mem (p + (a - s.next)) else s.mem a,
    insert ⟨s.next, new⟩ (s.live \ {⟨p, old⟩}), s.next + new, fun b hb => by
    rcases Set.mem_insert_iff.1 hb with rfl | hb
    · exact Nat.le_refl _
    · exact Nat.le_add_right_of_le (s.below b hb.1)⟩

theorem apart (s : Bump) (hb : b ∈ s.live) (n : ℕ) : b.Apart ⟨s.next, n⟩ := fun _ ha ha' =>
  Nat.not_lt.2 ha'.1 (Nat.lt_of_lt_of_le ha.2 (s.below b hb))

end Bump

def bump : Allocator Bump where
  mem := Bump.mem
  live := Bump.live
  malloc n s := (s.malloc n, s.next)
  realloc p old new s := (s.realloc p old new, s.next)
  store a x s := { s with mem := Function.update s.mem a x }

theorem lawful_bump : Lawful bump := by
  refine ⟨fun n s => ⟨Set.mem_insert _ _, fun c hc => ?_⟩, fun s a x _ => ⟨rfl, rfl⟩,
    fun s p old new _ => ⟨Set.mem_insert _ _, fun i hold hnew => ?_, fun c hc hne => ?_⟩⟩
  · exact ⟨Set.mem_insert_of_mem _ hc, s.apart hc n, fun _ _ => rfl⟩
  · have hi : s.next ≤ s.next + i ∧ s.next + i < s.next + min old new :=
      ⟨Nat.le_add_right .., Nat.add_lt_add_left (Nat.lt_min.2 ⟨hold, hnew⟩) _⟩
    change (if s.next ≤ s.next + i ∧ s.next + i < s.next + min old new then
      s.mem (p + (s.next + i - s.next)) else s.mem (s.next + i)) = s.mem (p + i)
    rw [if_pos hi, Nat.add_sub_cancel_left]
  · refine ⟨Set.mem_insert_of_mem _ ⟨hc, hne⟩, s.apart hc new, fun a ha => if_neg fun h => ?_⟩
    exact Nat.not_lt.2 h.1 (Nat.lt_of_lt_of_le ha.2 (s.below c hc))

end IrohWebrtc.Heap
