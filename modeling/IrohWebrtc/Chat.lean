import IrohWebrtc.Datagram
import IrohWebrtc.Lib.Transducer
import IrohWebrtc.Lib.Utf8
import Mathlib.Algebra.Group.Nat.Defs
import Mathlib.Data.List.TakeWhile

/-!
# Chat framing

The two loops of a chat stream (`chat.rs`). `write_loop` writes each message of
its queue as a frame, a length of four bytes and then the bytes; `read_loop`
reads frames off a stream and passes their texts on. Both stop inside a frame
wherever the stream does: the state of a loop says what `write_all` has still to
write, and what `read_exact` has got so far.

* `ReadLoop.feed_frames`: what a read loop makes of the frames of messages. It
  gives them back up to the first one that is longer than `maxMsg`
  (`admitted`), where it stops.
-/

namespace IrohWebrtc

/-- `MAX_MSG`. -/
def maxMsg : ℕ := 1 <<< 20

/-- `(n as u32).to_be_bytes()`. -/
def toBeBytes (n : ℕ) : Bytes := [n / 2 ^ 24, n / 2 ^ 16, n / 2 ^ 8, n].map UInt8.ofNat

/-- `u32::from_be_bytes(len) as usize`. -/
def fromBeBytes (len : Bytes) : ℕ := len.foldl (fun n b => n * 256 + b.toNat) 0

@[simp] theorem length_toBeBytes (n : ℕ) : (toBeBytes n).length = 4 := rfl

@[simp] theorem take_toBeBytes (n : ℕ) (rest : Bytes) :
    (toBeBytes n ++ rest).take 4 = toBeBytes n := rfl

@[simp] theorem drop_toBeBytes (n : ℕ) (rest : Bytes) :
    (toBeBytes n ++ rest).drop 4 = rest := rfl

theorem fromBeBytes_toBeBytes {n : ℕ} (h : n < 2 ^ 32) : fromBeBytes (toBeBytes n) = n := by
  simp only [fromBeBytes, toBeBytes, List.map_cons, List.map_nil, List.foldl_cons, List.foldl_nil,
    UInt8.toNat_ofNat']
  omega

/-! ## Writing -/

/-- Where `write_loop` is. -/
inductive WriteLoop
  /-- Waiting for a message. -/
  | idle
  /-- Writing the length: what is left of it, and the bytes of the message. -/
  | header (rest : Bytes) (bytes : Bytes)
  /-- Writing the message: what is left of it. -/
  | body (rest : Bytes)
  /-- Ended as a write failed. -/
  | failed
  /-- Ended as no message will come. -/
  | finished
  deriving DecidableEq

namespace WriteLoop

/-- The loop has a message to write. -/
def next (msg : String) : WriteLoop := .header (toBeBytes (asBytes msg).length) (asBytes msg)

/-- The stream takes up to `k` bytes of what is being written. -/
def write (k : ℕ) : WriteLoop → Option (WriteLoop × Bytes)
  | .header rest bytes =>
    some (if k < rest.length then .header (rest.drop k) bytes
      -- Nothing is written of an empty message.
      else if bytes = [] then .idle else .body bytes, rest.take k)
  | .body rest => some (if k < rest.length then .body (rest.drop k) else .idle, rest.take k)
  | .idle | .failed | .finished => none

/-- What is left to write of a message. -/
def unwritten : WriteLoop → Bytes
  | .header rest bytes => rest ++ bytes
  | .body rest => rest
  | .idle | .failed | .finished => []

/-- What a message is written as. -/
def frame (msg : String) : Bytes := toBeBytes (asBytes msg).length ++ asBytes msg

@[simp] theorem unwritten_next (msg : String) : (next msg).unwritten = frame msg := rfl

/-- Writing takes bytes off the front of what is unwritten. -/
theorem write_unwritten {l l' : WriteLoop} {k : ℕ} {piece : Bytes}
    (h : l.write k = some (l', piece)) : piece ++ l'.unwritten = l.unwritten := by
  cases l with
  | header rest bytes =>
    cases h
    split
    · simp only [unwritten, ← List.append_assoc, List.take_append_drop]
    · next hk =>
      rw [List.take_of_length_le (Nat.le_of_not_lt hk)]
      split
      · next hb => simp only [unwritten, hb]
      · rfl
  | body rest =>
    cases h
    split
    · simp only [unwritten, List.take_append_drop]
    · next hk => simp only [unwritten, List.take_of_length_le (Nat.le_of_not_lt hk), List.append_nil]
  | idle | failed | finished => cases h

/-- A loop that has written bytes has not ended. -/
theorem write_ne {l l' : WriteLoop} {k : ℕ} {piece : Bytes} (h : l.write k = some (l', piece)) :
    l' ≠ .failed ∧ l' ≠ .finished := by
  cases l with
  | header rest bytes =>
    cases h
    split
    · simp
    · split <;> simp
  | body rest =>
    cases h
    split <;> simp
  | idle | failed | finished => cases h

end WriteLoop

/-! ## Reading -/

/-- Where `read_loop` is. -/
inductive ReadLoop
  /-- Reading a length: what has come of it. -/
  | header (len : Bytes)
  /-- Reading a message of `n` bytes: what has come of it. -/
  | body (n : ℕ) (buf : Bytes)
  /-- Ended as a length was more than `maxMsg`. -/
  | refused
  /-- Ended as the stream failed or ended. -/
  | closed
  deriving DecidableEq

namespace ReadLoop

/-- The loop has read a length. -/
def start (n : ℕ) : ReadLoop :=
  if n = 0 then .header []
  else if n > maxMsg then .refused
  else .body n []

/-- The loop gets one byte, and what it passes on then. -/
def step : ReadLoop → UInt8 → ReadLoop × List String
  | .header len, b =>
    if (len ++ [b]).length < 4 then (.header (len ++ [b]), [])
    else (start (fromBeBytes (len ++ [b])), [])
  | .body n buf, b =>
    if (buf ++ [b]).length < n then (.body n (buf ++ [b]), [])
    else (.header [], [fromUtf8Lossy (buf ++ [b])])
  | .refused, _ => (.refused, [])
  | .closed, _ => (.closed, [])

/-- How many bytes the pending `read_exact` still takes. -/
def wanted : ReadLoop → ℕ
  | .header len => 4 - len.length
  | .body n buf => n - buf.length
  | .refused | .closed => 0

/-- A loop that takes bytes, or has refused a length. -/
def Hungry (l : ReadLoop) : Prop := l = .refused ∨ 0 < l.wanted

theorem hungry_header : (header []).Hungry := .inr (Nat.succ_pos 3)

theorem hungry_start (n : ℕ) : (start n).Hungry := by
  rw [start]
  split_ifs with h₀ hmax
  · exact hungry_header
  · exact .inl rfl
  · exact .inr (Nat.pos_of_ne_zero h₀)

theorem Hungry.step {l : ReadLoop} (h : l.Hungry) (b : UInt8) : (step l b).1.Hungry := by
  cases l with
  | header len =>
    rw [ReadLoop.step]
    split_ifs with hlen
    · exact .inr (Nat.sub_pos_of_lt hlen)
    · exact hungry_start _
  | body n buf =>
    rw [ReadLoop.step]
    split_ifs with hbuf
    · exact .inr (Nat.sub_pos_of_lt hbuf)
    · exact hungry_header
  | refused => exact h
  | closed => exact h

theorem Hungry.feed {l : ReadLoop} (h : l.Hungry) (bytes : Bytes) :
    (feed ReadLoop.step l bytes).1.Hungry := by
  induction bytes generalizing l with
  | nil => exact h
  | cons b bytes ih => exact ih (h.step b)

/-- A byte ends one message at most. -/
theorem length_step_le (l : ReadLoop) (b : UInt8) : (step l b).2.length ≤ 1 := by
  cases l with
  | header len =>
    rw [step]
    split_ifs <;> exact Nat.zero_le 1
  | body n buf =>
    rw [step]
    split_ifs
    · exact Nat.zero_le 1
    · exact le_rfl
  | refused | closed => exact Nat.zero_le 1

/-- Reading a length. -/
theorem read_header {len : Bytes} (h : len.length = 4) :
    feed step (header []) len = (start (fromBeBytes len), []) := by
  obtain ⟨a, b, c, d, rfl⟩ := List.length_eq_four.1 h
  rfl

/-- Reading the bytes of a message. -/
theorem read_body {n : ℕ} {buf bytes : Bytes} (hne : bytes ≠ [])
    (h : buf.length + bytes.length = n) :
    feed step (body n buf) bytes = (header [], [fromUtf8Lossy (buf ++ bytes)]) := by
  induction bytes generalizing buf with
  | nil => exact absurd rfl hne
  | cons b bytes ih =>
    rw [feed_cons, step]
    by_cases hb : bytes = []
    · subst hb
      simp only [List.length_cons, List.length_nil, List.length_append] at h ⊢
      rw [if_neg (by omega)]
      simp
    · have hpos := List.length_pos_iff.2 hb
      simp only [List.length_cons, List.length_nil, List.length_append] at h ⊢
      rw [if_pos (by omega)]
      rw [ih hb (by rw [List.length_append, List.length_singleton]; omega), List.append_assoc]
      rfl

/-- Reading the frame of a message that is not too long gives it back, unless it
    is empty. -/
theorem read_frame {msg : String} (h : msg.utf8ByteSize ≤ maxMsg) :
    feed step (header []) (WriteLoop.frame msg) = (header [], if msg = "" then [] else [msg]) := by
  have hmax : maxMsg < 2 ^ 32 := by decide
  rw [WriteLoop.frame, feed_append, read_header (length_toBeBytes _), asBytes_length,
    fromBeBytes_toBeBytes (by omega), start]
  by_cases hm : msg = ""
  · subst hm
    rfl
  · have hne : asBytes msg ≠ [] := asBytes_eq_nil.not.2 hm
    have hpos := List.length_pos_iff.2 hne
    rw [asBytes_length] at hpos
    rw [if_neg (Nat.ne_of_gt hpos), if_neg (Nat.not_lt.2 h), if_neg hm,
      read_body hne (by simp), List.nil_append, fromUtf8Lossy_asBytes]
    rfl

/-- Reading the frame of a message that is too long ends the loop. -/
theorem read_frame_of_gt {msg : String} (h : maxMsg < msg.utf8ByteSize)
    (hlen : msg.utf8ByteSize < 2 ^ 32) :
    feed step (header []) (WriteLoop.frame msg) = (refused, []) := by
  rw [WriteLoop.frame, feed_append, read_header (length_toBeBytes _), asBytes_length,
    fromBeBytes_toBeBytes hlen, start, if_neg (by omega), if_pos h,
    feed_of_absorbing fun _ => rfl]
  rfl

/-- The messages a read loop gives back: those before the first one that is too
    long, without the empty ones. -/
def admitted (msgs : List String) : List String :=
  (msgs.takeWhile (·.utf8ByteSize ≤ maxMsg)).filter (· ≠ "")

theorem admitted_isPrefix (msgs : List String) : admitted msgs <+: msgs.filter (· ≠ "") :=
  (List.takeWhile_prefix _).filter _

/-- What a read loop makes of the frames of messages. -/
theorem read_frames {msgs : List String} (hlen : ∀ m ∈ msgs, m.utf8ByteSize < 2 ^ 32) :
    (feed step (header []) (msgs.flatMap WriteLoop.frame)).2 = admitted msgs := by
  induction msgs with
  | nil => rfl
  | cons m msgs ih =>
    have ih := ih fun m' hm' => hlen m' (List.mem_cons_of_mem _ hm')
    rw [List.flatMap_cons, feed_append]
    by_cases hm : m.utf8ByteSize ≤ maxMsg
    · rw [read_frame hm, ih, admitted, admitted, List.takeWhile_cons_of_pos (by simpa using hm)]
      by_cases he : m = ""
      · rw [if_pos he, List.filter_cons_of_neg (by simpa using he)]
        rfl
      · rw [if_neg he, List.filter_cons_of_pos (by simpa using he)]
        rfl
    · rw [read_frame_of_gt (Nat.lt_of_not_le hm) (hlen m List.mem_cons_self),
        feed_of_absorbing fun _ => rfl, admitted, List.takeWhile_cons_of_neg (by simpa using hm)]
      rfl

/-- All of the messages are given back if and only if none is too long. -/
theorem admitted_eq_self {msgs : List String} (hne : ∀ m ∈ msgs, m ≠ "") :
    admitted msgs = msgs ↔ ∀ m ∈ msgs, m.utf8ByteSize ≤ maxMsg := by
  have hf : (msgs.takeWhile (·.utf8ByteSize ≤ maxMsg)).filter (· ≠ "") =
      msgs.takeWhile (·.utf8ByteSize ≤ maxMsg) := by
    refine List.filter_eq_self.2 fun m hm => ?_
    simpa using hne m ((List.takeWhile_sublist _).subset hm)
  rw [admitted, hf, List.takeWhile_eq_self_iff]
  simp

end ReadLoop

end IrohWebrtc
