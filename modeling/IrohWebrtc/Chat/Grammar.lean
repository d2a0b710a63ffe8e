import IrohWebrtc.Chat
import IrohWebrtc.Lib.PrefixCode

/-!
# What a read loop accepts

A read loop on a stream of any bytes, which come in pieces until the stream ends or
fails (`ReadLoop.run`). The texts it passes on are those of the frames at the
beginning of the stream, as far as there are frames (`ReadLoop.run_frames`), wherever
the stream is cut, and it ends.
-/

namespace IrohWebrtc

/-- A length of four bytes, and as many bytes as it says. -/
@[ext]
structure Frame where
  len : Bytes
  body : Bytes
  length_len : len.length = 4
  length_body : body.length = fromBeBytes len
  le_maxMsg : fromBeBytes len ≤ maxMsg

namespace Frame

variable {f g : Frame} {w : Bytes}

def bytes (f : Frame) : Bytes := f.len ++ f.body

/-- What is passed on of a frame. -/
def texts (f : Frame) : List String :=
  if f.body.length = 0 then [] else [fromUtf8Lossy f.body]

theorem bytes_ne_nil (f : Frame) : f.bytes ≠ [] := by
  intro h
  have hlen := f.length_len
  rw [(List.append_eq_nil_iff.1 h).1] at hlen
  cases hlen

theorem len_eq (h : f.bytes <+: w) : f.len = w.take 4 := by
  obtain ⟨t, rfl⟩ := h
  rw [bytes, List.append_assoc, List.take_left' f.length_len]

theorem body_eq (h : f.bytes <+: w) : f.body = (w.drop 4).take (fromBeBytes f.len) := by
  obtain ⟨t, rfl⟩ := h
  rw [bytes, List.append_assoc, List.drop_left' f.length_len, List.take_left' f.length_body]

theorem prefixFree : PrefixFree bytes := by
  intro f g w hf hg
  have hlen : f.len = g.len := by rw [len_eq hf, len_eq hg]
  ext1
  · exact hlen
  · rw [body_eq hf, body_eq hg, hlen]

/-- The frame at the beginning of bytes. -/
def ofBytes (w : Bytes) (h : 4 ≤ w.length) (hle : fromBeBytes (w.take 4) ≤ maxMsg)
    (hbody : fromBeBytes (w.take 4) ≤ (w.drop 4).length) : Frame where
  len := w.take 4
  body := (w.drop 4).take (fromBeBytes (w.take 4))
  length_len := by rw [List.length_take, Nat.min_eq_left h]
  length_body := by rw [List.length_take, Nat.min_eq_left hbody]
  le_maxMsg := hle

theorem ofBytes_prefix {h : 4 ≤ w.length} {hle : fromBeBytes (w.take 4) ≤ maxMsg}
    {hbody : fromBeBytes (w.take 4) ≤ (w.drop 4).length} :
    (ofBytes w h hle hbody).bytes <+: w := by
  refine ⟨(w.drop 4).drop (fromBeBytes (w.take 4)), ?_⟩
  rw [bytes, ofBytes, List.append_assoc, List.take_append_drop, List.take_append_drop]

end Frame

namespace ReadLoop

variable {w : Bytes} {l : ReadLoop} {pieces : List Bytes}

/-- Reading a frame. -/
theorem feed_frame (f : Frame) : feed step (header []) f.bytes = (header [], f.texts) := by
  rw [Frame.bytes, feed_append, read_header f.length_len, start, Frame.texts, f.length_body]
  by_cases hn : fromBeBytes f.len = 0
  · have hbody : f.body = [] := List.length_eq_zero_iff.1 (f.length_body.trans hn)
    rw [if_pos hn, if_pos hn, hbody]
    rfl
  · have hne : f.body ≠ [] := by
      intro h
      rw [← f.length_body, h] at hn
      exact hn rfl
    rw [if_neg hn, if_neg hn, if_neg (Nat.not_lt.2 f.le_maxMsg),
      read_body hne (by rw [List.length_nil, Nat.zero_add, f.length_body])]
    rfl

/-- Reading less than a length. -/
theorem feed_header {len : Bytes} (h : (len ++ w).length < 4) :
    feed step (header len) w = (header (len ++ w), []) := by
  induction w generalizing len with
  | nil => rw [List.append_nil, feed_nil]
  | cons b w ih =>
    have hlt : (len ++ [b]).length < 4 := by
      simp only [List.length_append, List.length_cons, List.length_nil] at h ⊢
      omega
    rw [feed_cons, step, if_pos hlt, ih (by simpa using h), List.append_assoc]
    rfl

/-- Reading less than a body. -/
theorem feed_body {n : ℕ} {buf : Bytes} (h : (buf ++ w).length < n) :
    feed step (body n buf) w = (body n (buf ++ w), []) := by
  induction w generalizing buf with
  | nil => rw [List.append_nil, feed_nil]
  | cons b w ih =>
    have hlt : (buf ++ [b]).length < n := by
      simp only [List.length_append, List.length_cons, List.length_nil] at h ⊢
      omega
    rw [feed_cons, step, if_pos hlt, ih (by simpa using h), List.append_assoc]
    rfl

/-- Nothing is passed on of what does not begin with a frame. -/
theorem feed_stuck (h : Stuck Frame.bytes w) : (feed step (header []) w).2 = [] := by
  by_cases hlen : w.length < 4
  · rw [feed_header (by simpa using hlen)]
  · rw [Nat.not_lt] at hlen
    rw [← List.take_append_drop 4 w, feed_append,
      read_header (by rw [List.length_take, Nat.min_eq_left hlen]), start]
    by_cases hle : fromBeBytes (w.take 4) ≤ maxMsg
    · have hlt : (w.drop 4).length < fromBeBytes (w.take 4) := by
        by_contra hbody
        exact h (.ofBytes w hlen hle (Nat.not_lt.1 hbody)) Frame.ofBytes_prefix
      rw [if_neg (Nat.ne_of_gt (Nat.lt_of_le_of_lt (Nat.zero_le _) hlt)),
        if_neg (Nat.not_lt.2 hle), feed_body (by simpa using hlt)]
      rfl
    · rw [if_neg (by omega), if_pos (Nat.lt_of_not_le hle), feed_of_absorbing fun _ => rfl]
      rfl

/-- What is passed on of frames, and of a rest that does not begin with one. -/
theorem feed_frames {fs : List Frame} (h : Stuck Frame.bytes w) :
    (feed step (header []) (fs.flatMap Frame.bytes ++ w)).2 = fs.flatMap Frame.texts := by
  rw [feed_append, feed_flatMap fun f _ => feed_frame f, feed_stuck h, List.append_nil]

/-! ## Buffers -/

/-- No buffer is longer than a message may be. -/
def Bounded : ReadLoop → Prop
  | .body n _ => n ≤ maxMsg
  | .header _ | .refused | .closed => True

theorem bounded_start (n : ℕ) : (start n).Bounded := by
  rw [start]
  split_ifs with h₀ h
  · trivial
  · trivial
  · exact Nat.not_lt.1 h

theorem bounded_step {b : UInt8} (h : l.Bounded) : (step l b).1.Bounded := by
  cases l with
  | header len =>
    rw [step]
    split_ifs
    · trivial
    · exact bounded_start _
  | body n buf =>
    rw [step]
    split_ifs
    · exact h
    · trivial
  | refused | closed => trivial

theorem bounded_feed (h : l.Bounded) : (feed step l w).1.Bounded := by
  induction w generalizing l with
  | nil => exact h
  | cons b w ih => exact ih (bounded_step h)

/-! ## Whole streams -/

/-- The stream has ended or failed. -/
def close : ReadLoop → ReadLoop
  | .refused => .refused
  | .header _ | .body .. | .closed => .closed

theorem close_mem (l : ReadLoop) : l.close ∈ [refused, closed] := by
  cases l with
  | refused => exact List.mem_cons_self
  | header | body | closed => exact List.mem_cons_of_mem _ List.mem_cons_self

/-- What a loop makes of a stream that comes in pieces, and ends or fails then. -/
def run (l : ReadLoop) : List Bytes → ReadLoop × List String
  | [] => (l.close, [])
  | piece :: pieces =>
    let (l', texts) := feed step l piece
    let (l'', texts') := run l' pieces
    (l'', texts ++ texts')

theorem run_eq : run l pieces =
    ((feed step l pieces.flatten).1.close, (feed step l pieces.flatten).2) := by
  induction pieces generalizing l with
  | nil => rfl
  | cons piece pieces ih =>
    rw [List.flatten_cons, feed_append]
    simp only [run, ih]

/-- The texts of a stream are those of the longest sequence of frames it begins with. -/
theorem run_frames (pieces : List Bytes) :
    ∃ fs : List Frame, fs.flatMap Frame.bytes <+: pieces.flatten ∧
      (∀ gs : List Frame, gs.flatMap Frame.bytes <+: pieces.flatten → gs <+: fs) ∧
      (run (header []) pieces).2 = fs.flatMap Frame.texts ∧
      run (header []) pieces = run (header []) [pieces.flatten] ∧
      (run (header []) pieces).1 ∈ [refused, closed] ∧
      ∀ w, w <+: pieces.flatten → (feed step (header []) w).1.Bounded := by
  obtain ⟨fs, rest, heq, hstuck⟩ := exists_parse Frame.bytes_ne_nil pieces.flatten
  refine ⟨fs, ?_, fun gs hgs => ?_, ?_, ?_, ?_, fun w _ => bounded_feed trivial⟩
  · rw [heq]
    exact List.prefix_append _ _
  · rw [heq] at hgs
    exact prefix_of_parse Frame.prefixFree hstuck hgs
  · rw [run_eq, heq]
    exact feed_frames hstuck
  · rw [run_eq, run_eq, List.flatten_singleton]
  · rw [run_eq]
    exact close_mem _

end ReadLoop

end IrohWebrtc
