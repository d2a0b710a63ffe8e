import IrohWebrtc.Datagram

/-!
# The custom-transport adapter

The adapter (`adapter.rs`) wraps a datagram backend as a custom transport. An
address is a transport id with data bytes, those of a peer key for this
transport (`addrOf`, `keyOf`).

* Sending cuts a batch into segments (`pollSend`): the calls of the backend's
  `send` it makes, in order, and its result.
* Receiving fills slots from the backend's receiver until they are full or the
  receiver is not ready. The call is given one inner poll at a time
  (`RecvCall.resume`), since datagrams may be pushed between two inner polls:
  `RecvCall.start` is the call up to its first inner poll, and a call is either
  looping or has returned. Whoever drives it decides what happens in between.

The three arrays a caller passes to `pollRecv` have the same length, which
`RecvSlots` carries.
-/

namespace IrohWebrtc

/-! ## Addresses -/

/-- A custom transport address. -/
structure CustomAddr where
  id : UInt64
  data : Bytes
  deriving DecidableEq, Repr

/-- Transport-type discriminator, "webr". -/
def transportId : UInt64 := 0x77656272

/-- The custom address of a peer key. -/
def addrOf (key : PeerKey) : CustomAddr := ⟨transportId, key.toList⟩

/-- The peer key of an address: its data, when there are 32 bytes of it. -/
def keyOf (addr : CustomAddr) : Option PeerKey :=
  if h : addr.data.length = 32 then some ⟨addr.data.toArray, by simpa using h⟩ else none

@[simp] theorem keyOf_addrOf (key : PeerKey) : keyOf (addrOf key) = some key := by
  have h : (addrOf key).data.length = 32 := by simp [addrOf]
  rw [keyOf, dif_pos h]
  exact congrArg some (Vector.toArray_inj.1 (Array.toArray_toList ..))

theorem addrOf_injective : Function.Injective addrOf := fun a b h => by
  simpa using congrArg keyOf h

@[simp] theorem addrOf_inj {a b : PeerKey} : addrOf a = addrOf b ↔ a = b :=
  addrOf_injective.eq_iff

/-! ## Sending -/

/-- `chunks`, with as many pieces as the `fuel` allows. -/
def chunksFuel {α : Type*} (n : ℕ) : ℕ → List α → List (List α)
  | 0, _ | _, [] => []
  | fuel + 1, l => l.take n :: chunksFuel n fuel (l.drop n)

/-- Consecutive pieces of `n` elements, the last possibly shorter (`slice::chunks`). -/
def chunks {α : Type*} (n : ℕ) (l : List α) : List (List α) := chunksFuel n l.length l

/-- What is to be transmitted: a datagram, or a GSO batch of them. -/
structure Transmit where
  contents : Bytes
  segmentSize : Option ℕ

/-- `is_valid_send_addr`: the address is one of this transport. -/
def isValidSendAddr (addr : CustomAddr) : Bool := addr.id == transportId

/-- `poll_send`: the backend's `send` calls it makes, in order, and its result. -/
def pollSend (dst : CustomAddr) (transmit : Transmit) :
    List (PeerKey × Bytes) × Poll (Except String Unit) :=
  match keyOf dst with
  | some key =>
    -- A GSO batch is `contents` cut into `segment_size` datagrams.
    let seg := max (transmit.segmentSize.getD transmit.contents.length) 1
    ((chunks seg transmit.contents).map fun chunk => (key, chunk), .ready (.ok ()))
  | none => ([], .ready (.ok ()))

/-! ## Receiving -/

/-- The fields of a datagram's metadata that are written on receipt. -/
structure RecvMeta where
  len : ℕ
  stride : ℕ
  deriving DecidableEq, Repr

/-- Where a datagram came from, and the local address it was sent to. -/
structure RecvInfo where
  src : CustomAddr
  dst : Option CustomAddr
  deriving DecidableEq, Repr

/-- The arrays passed to `poll_recv`: a buffer, metadata and an info for each slot. -/
structure RecvSlots where
  bufs : List Bytes
  metas : List RecvMeta
  recvInfos : List RecvInfo
  length_metas : metas.length = bufs.length
  length_recvInfos : recvInfos.length = bufs.length

/-- The datagram of slot `i`, as its metadata and info describe it: the first
    `len` bytes of the buffer, and the address they came from. -/
def RecvSlots.report (slots : RecvSlots) (i : ℕ) : Option (Bytes × CustomAddr) :=
  match slots.bufs[i]?, slots.metas[i]?, slots.recvInfos[i]? with
  | some buf, some rm, some info => some (buf.take rm.len, info.src)
  | _, _, _ => none

/-- The datagrams of the first `count` slots. -/
def RecvSlots.reports (slots : RecvSlots) (count : ℕ) : List (Bytes × CustomAddr) :=
  (List.range count).filterMap slots.report

/-- Writing the datagram `inb`, received at `self`, into slot `i`. -/
def RecvSlots.fill (slots : RecvSlots) (self : CustomAddr) (i : ℕ) (inb : Inbound) : RecvSlots where
  bufs := slots.bufs.modify i fun buf => inb.data ++ buf.drop inb.data.length
  metas := slots.metas.set i ⟨inb.data.length, inb.data.length⟩
  recvInfos := slots.recvInfos.set i ⟨addrOf inb.src, some self⟩
  length_metas := by simpa using slots.length_metas
  length_recvInfos := by simpa using slots.length_recvInfos

/-- The length of the buffer of slot `i`. -/
def RecvSlots.size (slots : RecvSlots) (i : ℕ) : ℕ := (slots.bufs[i]?.getD []).length

@[simp] theorem RecvSlots.length_bufs_fill (slots : RecvSlots) (self : CustomAddr) (i : ℕ)
    (inb : Inbound) : (slots.fill self i inb).bufs.length = slots.bufs.length := by
  simp [fill]

@[simp] theorem RecvSlots.reports_zero (slots : RecvSlots) : slots.reports 0 = [] := rfl

/-- Filling a slot leaves the others alone. -/
theorem RecvSlots.report_fill_of_ne (slots : RecvSlots) (self : CustomAddr) {i j : ℕ}
    (inb : Inbound) (h : i ≠ j) : (slots.fill self i inb).report j = slots.report j := by
  simp [report, fill, h]

/-- A filled slot reports its datagram. -/
theorem RecvSlots.report_fill (slots : RecvSlots) (self : CustomAddr) {i : ℕ} (inb : Inbound)
    (h : i < slots.bufs.length) :
    (slots.fill self i inb).report i = some (inb.data, addrOf inb.src) := by
  have hm : i < slots.metas.length := slots.length_metas ▸ h
  have hr : i < slots.recvInfos.length := slots.length_recvInfos ▸ h
  simp [report, fill, h, hm, hr]

/-- Filling the next slot reports one datagram more. -/
theorem RecvSlots.reports_fill (slots : RecvSlots) (self : CustomAddr) {count : ℕ} (inb : Inbound)
    (h : count < slots.bufs.length) :
    (slots.fill self count inb).reports (count + 1) =
      slots.reports count ++ [(inb.data, addrOf inb.src)] := by
  rw [reports, List.range_succ, List.filterMap_append, List.filterMap_cons_some
    (slots.report_fill self inb h), List.filterMap_nil, reports]
  congr 1
  refine List.filterMap_congr fun i hi => slots.report_fill_of_ne self inb ?_
  exact Nat.ne_of_gt (List.mem_range.1 hi)

/-- A `poll_recv` call: about to poll the backend's receiver with `count` slots
    filled, or returned. -/
inductive RecvCall
  | looping (slots : RecvSlots) (count : ℕ)
  | returned (slots : RecvSlots) (result : Poll (Except String ℕ))

/-- The end of the call: an idle or closed receiver, or no slot left. -/
def RecvCall.finish (slots : RecvSlots) (count : ℕ) : RecvCall :=
  .returned slots (if count = 0 then .pending else .ready (.ok count))

/-- The call up to its first inner poll. -/
def RecvCall.start (slots : RecvSlots) : RecvCall :=
  if slots.bufs.length = 0 then .returned slots .pending else .looping slots 0

/-- The loop from an inner poll's outcome up to the next inner poll. -/
def RecvCall.resume (self : CustomAddr) (slots : RecvSlots) (count : ℕ) :
    Poll (Option Inbound) → RecvCall
  | .ready (some inb) =>
    -- A datagram too big for the slot is dropped, QUIC retransmits.
    if slots.size count < inb.data.length then .looping slots count
    else if count + 1 < slots.bufs.length then
      .looping (slots.fill self count inb) (count + 1)
    else .finish (slots.fill self count inb) (count + 1)
  -- Idle or closed both mean "nothing to hand up right now".
  | .ready none | .pending => .finish slots count

/-- How a datagram is reported: its bytes, and the address of its peer. -/
def Inbound.report (inb : Inbound) : Bytes × CustomAddr := (inb.data, addrOf inb.src)

/-- The datagrams a call reports, if it has returned, or has in its slots. -/
def RecvCall.reports : RecvCall → List (Bytes × CustomAddr)
  | .looping slots count => slots.reports count
  | .returned slots (.ready (.ok count)) => slots.reports count
  | .returned _ _ => []

/-- A looping call has a slot left to fill. -/
def RecvCall.HasRoom : RecvCall → Prop
  | .looping slots count => count < slots.bufs.length
  | .returned _ _ => True

theorem RecvCall.reports_finish (slots : RecvSlots) (count : ℕ) :
    (finish slots count).reports = slots.reports count := by
  unfold finish
  by_cases h : count = 0 <;> simp [h, reports]

theorem RecvCall.reports_start (slots : RecvSlots) : (start slots).reports = [] := by
  unfold start
  split <;> rfl

theorem RecvCall.hasRoom_start (slots : RecvSlots) : (start slots).HasRoom := by
  unfold start
  split
  · trivial
  · next h => exact Nat.pos_of_ne_zero h

/-- An inner poll that hands a datagram out has it reported if it fits the next
    slot, and dropped otherwise. -/
theorem RecvCall.reports_resume (self : CustomAddr) {slots : RecvSlots} {count : ℕ} (inb : Inbound)
    (h : count < slots.bufs.length) :
    (resume self slots count (.ready (some inb))).reports =
      slots.reports count ++ if inb.data.length ≤ slots.size count then [inb.report] else [] := by
  simp only [resume]
  split
  · next hbig => simp [reports, Nat.not_le.2 hbig]
  · next hfit =>
    rw [if_pos (Nat.not_lt.1 hfit), Inbound.report, ← slots.reports_fill self inb h]
    split
    · rfl
    · rw [reports_finish]

/-- An inner poll that hands nothing out ends the call with the slots filled so far. -/
theorem RecvCall.reports_resume_of_idle (self : CustomAddr) (slots : RecvSlots) (count : ℕ)
    {p : Poll (Option Inbound)} (hp : ∀ inb, p ≠ .ready (some inb)) :
    (resume self slots count p).reports = slots.reports count := by
  unfold resume
  split
  · exact absurd rfl (hp _)
  all_goals rw [reports_finish]

theorem RecvCall.hasRoom_resume (self : CustomAddr) {slots : RecvSlots} {count : ℕ}
    (p : Poll (Option Inbound)) (h : count < slots.bufs.length) :
    (resume self slots count p).HasRoom := by
  unfold resume
  split
  · split_ifs with hbig hmore
    · exact h
    · simpa [HasRoom] using hmore
    · trivial
  all_goals trivial

end IrohWebrtc
