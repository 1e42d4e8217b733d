import Libchop.Basic
import Mathlib.Data.List.TakeDrop

/-!
# The sliding window of the anchor-based chopper

Two buffers of one window size each hold consecutive parts of the input, the first of them being
replaced when the window has moved past it.  What matters of them is their contents, one after
the other; the lemmas here say so for each function of the source.
-/

namespace Libchop

/-- `sliding_window_t`, with the bytes the two subwindow pointers lead to in their place. -/
structure SlidingWindow where
  windowSize : Nat
  rawSize : Nat
  windows0 : Bytes
  windows1 : Bytes
  offset : Nat
  sizes0 : Nat
  sizes1 : Nat

def slidingWindowInit (size : Nat) : SlidingWindow where
  windowSize := size
  rawSize := 2 * size
  windows0 := List.replicate size 0
  windows1 := List.replicate size 0
  offset := 0
  sizes0 := 0
  sizes1 := 0

/-- `sliding_window_ref`: offsets are relative to the first subwindow and wrap around. -/
def slidingWindowRef (w : SlidingWindow) (offs : Nat) : UInt8 :=
  (w.windows0 ++ w.windows1).getD (offs % w.rawSize) 0

def slidingWindowFirstChar (w : SlidingWindow) : UInt8 := slidingWindowRef w w.offset

def slidingWindowLastChar (w : SlidingWindow) : UInt8 :=
  slidingWindowRef w (w.offset + w.windowSize - 1)

def slidingWindowUnfull (w : SlidingWindow) : Bool :=
  if w.sizes1 > 0 then decide (w.offset > w.sizes1)
  else if w.sizes0 > 0 then decide (w.offset > 0) || decide (w.sizes0 < w.windowSize)
  else true

inductive SubWindow where
  | first
  | second
deriving DecidableEq, Repr

/-- `sliding_window_dest_buffer`: the subwindow to fill and the amount of data discarded from
it. -/
def slidingWindowDestBuffer (w : SlidingWindow) : SubWindow × Nat × SlidingWindow :=
  if w.sizes0 = 0 then (.first, w.sizes0, w)
  else if w.sizes1 = 0 then (.second, w.sizes1, w)
  else
    (.second, w.sizes0, { w with
      windows0 := w.windows1
      windows1 := w.windows0
      sizes0 := w.sizes1
      offset := w.offset % w.windowSize })

def SlidingWindow.bytes (w : SlidingWindow) : SubWindow → Bytes
  | .first => w.windows0
  | .second => w.windows1

/-- The window after `read_sliding_window` stored its data in a subwindow. -/
def SlidingWindow.load (w : SlidingWindow) : SubWindow → Bytes → Nat → SlidingWindow
  | .first, bytes, size => { w with windows0 := bytes, sizes0 := size }
  | .second, bytes, size => { w with windows1 := bytes, sizes1 := size }

def slidingWindowStartOffset (w : SlidingWindow) : Nat :=
  let size := w.sizes0 + w.sizes1
  if w.offset < size then w.offset else if size ≠ 0 then size - 1 else 0

def slidingWindowEndOffset (w : SlidingWindow) : Nat :=
  let size := w.sizes0 + w.sizes1
  let e := w.offset + w.windowSize
  if e < size then e else size

/-- `sliding_window_skip` after its assertion. -/
def slidingWindowSkip (w : SlidingWindow) (amount : Nat) : SlidingWindow :=
  if w.offset + amount ≥ w.sizes0 then
    { w with
      offset := w.offset + amount - w.sizes0
      windows0 := w.windows1
      windows1 := w.windows0
      sizes0 := w.sizes1
      sizes1 := 0 }
  else
    { w with offset := w.offset + amount }

/-- The bytes `sliding_window_append_to_buffer` appends. -/
def slidingWindowAppendToBuffer (w : SlidingWindow) (startOffset size : Nat) (buffer : Bytes) :
    Bytes :=
  if startOffset < w.windowSize then
    let available := w.sizes0 - startOffset
    let amount := if available > size then size else available
    let buffer := buffer ++ (w.windows0.drop startOffset).take amount
    let size := size - amount
    if size > 0 then
      let available := w.sizes1
      let amount := if available > size then size else available
      buffer ++ w.windows1.take amount
    else
      buffer
  else
    buffer ++ (w.windows1.drop (startOffset - w.windowSize)).take size

def slidingWindowClear (w : SlidingWindow) : SlidingWindow :=
  { w with sizes0 := 0, sizes1 := 0, offset := 0 }

/-- The loop of `read_sliding_window`.  The input stream is the list of the pieces that its reads
return, after which it is at its end for good; a read that asks for less than a piece gets the
beginning of it. -/
def readSlidingWindowLoop (windowSize : Nat) : List Bytes → Bytes → Status × Bytes × List Bytes
  | [], buffer =>
    if buffer.length < windowSize then (.error .streamEnd, buffer, []) else (.ok (), buffer, [])
  | piece :: pieces, buffer =>
    if buffer.length < windowSize then
      let size := windowSize - buffer.length
      if piece.length ≤ size then readSlidingWindowLoop windowSize pieces (buffer ++ piece)
      else (.ok (), buffer ++ piece.take size, piece.drop size :: pieces)
    else
      (.ok (), buffer, piece :: pieces)

/-- `read_sliding_window`: what it stores, padded with zeros, and the number of bytes read. -/
def readSlidingWindow (windowSize : Nat) (stream : List Bytes) :
    Status × Bytes × Nat × List Bytes :=
  let (err, bytes, stream) := readSlidingWindowLoop windowSize stream []
  let size := bytes.length
  (if err = .error .streamEnd ∧ size > 0 then .ok () else err,
    bytes ++ List.replicate (windowSize - size) 0, size, stream)

private theorem readSlidingWindowLoop_eq (windowSize : Nat) (stream : List Bytes) (buffer : Bytes)
    (hle : buffer.length ≤ windowSize) :
    ∃ rest, readSlidingWindowLoop windowSize stream buffer =
        (if (buffer ++ stream.flatten).length < windowSize then .error .streamEnd else .ok (),
          (buffer ++ stream.flatten).take windowSize, rest) ∧
      rest.flatten = (buffer ++ stream.flatten).drop windowSize := by
  induction stream generalizing buffer with
  | nil =>
    rw [readSlidingWindowLoop, List.flatten_nil, List.append_nil, List.take_of_length_le hle,
      List.drop_eq_nil_of_le hle]
    split
    · exact ⟨[], rfl, rfl⟩
    · exact ⟨[], rfl, rfl⟩
  | cons piece pieces ih =>
    rw [readSlidingWindowLoop, List.flatten_cons]
    by_cases hmore : buffer.length < windowSize
    · rw [if_pos hmore]
      by_cases hpiece : piece.length ≤ windowSize - buffer.length
      · have hfits : (buffer ++ piece).length ≤ windowSize := by
          rw [List.length_append]
          omega
        have h := ih (buffer ++ piece) hfits
        rw [List.append_assoc] at h
        simp only [if_pos hpiece]
        exact h
      · have htake : (buffer ++ (piece ++ pieces.flatten)).take windowSize =
            buffer ++ piece.take (windowSize - buffer.length) := by
          rw [List.take_append, List.take_of_length_le hle,
            List.take_append_of_le_length (by omega)]
        have hdrop : (buffer ++ (piece ++ pieces.flatten)).drop windowSize =
            piece.drop (windowSize - buffer.length) ++ pieces.flatten := by
          rw [List.drop_append, List.drop_eq_nil_of_le hle, List.nil_append,
            List.drop_append_of_le_length (by omega)]
        have hlong : ¬ (buffer ++ (piece ++ pieces.flatten)).length < windowSize := by
          simp only [List.length_append]
          omega
        simp only [if_neg hpiece, htake, if_neg hlong]
        exact ⟨_, rfl, by rw [hdrop, List.flatten_cons]⟩
    · have heq : buffer.length = windowSize := by omega
      have hlong : ¬ (buffer ++ (piece ++ pieces.flatten)).length < windowSize := by
        simp only [List.length_append]
        omega
      rw [if_neg hmore, if_neg hlong, ← heq, List.take_left, List.drop_left]
      exact ⟨_, rfl, List.flatten_cons⟩

/-- However the stream cuts its data, one window of it is read, or all that is left of it. -/
theorem readSlidingWindow_eq {windowSize : Nat} (hpos : 0 < windowSize) (stream : List Bytes) :
    ∃ rest, readSlidingWindow windowSize stream =
        (if stream.flatten = [] then .error .streamEnd else .ok (),
          stream.flatten.take windowSize ++
            List.replicate (windowSize - (stream.flatten.take windowSize).length) 0,
          (stream.flatten.take windowSize).length, rest) ∧
      rest.flatten = stream.flatten.drop windowSize := by
  obtain ⟨rest, heq, hrest⟩ := readSlidingWindowLoop_eq windowSize stream [] (Nat.zero_le _)
  rw [List.nil_append] at heq hrest
  refine ⟨rest, ?_, hrest⟩
  simp only [readSlidingWindow, heq, Prod.mk.injEq, and_true]
  cases hdata : stream.flatten with
  | nil => simp [hpos]
  | cons x xs =>
    simp only [reduceCtorEq, if_false]
    have hread : (List.take windowSize (x :: xs)).length > 0 := by
      rw [List.length_take, List.length_cons]
      omega
    split
    · rw [if_pos ⟨rfl, hread⟩]
    · simp

def SlidingWindow.content (w : SlidingWindow) : Bytes :=
  w.windows0.take w.sizes0 ++ w.windows1.take w.sizes1

/-- The sizes of the subwindows fit, and the second one is used only after a full first one. -/
structure Sized (windowSize : Nat) (w : SlidingWindow) : Prop where
  windowSize_eq : w.windowSize = windowSize
  rawSize_eq : w.rawSize = 2 * windowSize
  length0 : w.windows0.length = windowSize
  length1 : w.windows1.length = windowSize
  sizes0_le : w.sizes0 ≤ windowSize
  sizes1_le : w.sizes1 ≤ windowSize
  sizes1_eq : w.sizes0 < windowSize → w.sizes1 = 0

/-- The states of the window between two steps, with the given number of bytes left in the
stream: empty, only the first subwindow loaded, or both.  A subwindow that is not full is the last
one. -/
structure Loaded (windowSize left : Nat) (w : SlidingWindow) : Prop extends
    Sized windowSize w where
  pos : 0 < windowSize
  phase : (w.sizes0 = 0 ∧ w.sizes1 = 0 ∧ w.offset = 0) ∨
    (0 < w.sizes0 ∧ w.sizes1 = 0 ∧ w.offset ≤ w.sizes0 ∧ (w.sizes0 < windowSize → left = 0)) ∨
    (w.sizes0 = windowSize ∧ 0 < w.sizes1 ∧ w.offset ≤ windowSize + 1 ∧
      (w.sizes1 < windowSize → left = 0))

variable {windowSize left : Nat} {w : SlidingWindow}

theorem Sized.content_length (h : Sized windowSize w) :
    w.content.length = w.sizes0 + w.sizes1 := by
  have hle := h.sizes0_le
  have hle' := h.sizes1_le
  rw [SlidingWindow.content, List.length_append, List.length_take, List.length_take, h.length0,
    h.length1]
  omega

theorem Loaded.offset_le (h : Loaded windowSize left w) : w.offset ≤ w.content.length := by
  have hphase := h.phase
  have hpos := h.pos
  rw [h.content_length]
  omega

/-- Offsets within the data are read where the data is. -/
theorem slidingWindowRef_eq (h : Sized windowSize w) (hfull : w.sizes0 = windowSize) {i : Nat}
    (hi : i < w.content.length) : slidingWindowRef w i = w.content.getD i 0 := by
  have hlen := h.content_length
  have hle := h.sizes1_le
  have hcontent : w.content = (w.windows0 ++ w.windows1).take (w.sizes0 + w.sizes1) := by
    have hshort : w.windows0.take w.sizes0 = w.windows0 :=
      List.take_of_length_le (Nat.le_of_eq (h.length0.trans hfull.symm))
    have hlong : w.windows0.take (w.sizes0 + w.sizes1) = w.windows0 := by
      apply List.take_of_length_le
      rw [h.length0, hfull]
      exact Nat.le_add_right _ _
    rw [SlidingWindow.content, List.take_append, hshort, hlong, h.length0, hfull,
      Nat.add_sub_cancel_left]
  rw [slidingWindowRef, h.rawSize_eq, Nat.mod_eq_of_lt (by omega), hcontent, List.getD_eq_getElem?_getD,
    List.getD_eq_getElem?_getD, List.getElem?_take_of_lt (by omega)]

theorem slidingWindowInit_loaded (hpos : 0 < windowSize) :
    Loaded windowSize left (slidingWindowInit windowSize) where
  windowSize_eq := rfl
  rawSize_eq := rfl
  length0 := List.length_replicate
  length1 := List.length_replicate
  sizes0_le := Nat.zero_le _
  sizes1_le := Nat.zero_le _
  sizes1_eq := fun _ => rfl
  pos := hpos
  phase := .inl ⟨rfl, rfl, rfl⟩

/-- A window is unfull when less than a window of data is left from its offset on. -/
theorem slidingWindowUnfull_iff (h : Loaded windowSize left w) :
    slidingWindowUnfull w = true ↔ w.content.length < w.offset + windowSize := by
  have hphase := h.phase
  have hpos := h.pos
  have hle := h.sizes0_le
  rw [h.content_length]
  unfold slidingWindowUnfull
  rw [h.windowSize_eq]
  split
  · rw [decide_eq_true_eq]
    omega
  · split
    · rw [Bool.or_eq_true, decide_eq_true_eq, decide_eq_true_eq]
      omega
    · simp only [true_iff]
      omega

theorem slidingWindowAppendToBuffer_eq (h : Sized windowSize w) {startOffset size : Nat}
    (hstart : startOffset ≤ w.sizes0) (hsize : startOffset + size ≤ w.content.length)
    (buffer : Bytes) : slidingWindowAppendToBuffer w startOffset size buffer =
      buffer ++ (w.content.drop startOffset).take size := by
  have hle := h.sizes0_le
  have hle' := h.sizes1_eq
  rw [h.content_length] at hsize
  have hfirst : (w.windows0.take w.sizes0).length = w.sizes0 := by
    rw [List.length_take, h.length0]
    omega
  have hdrop : w.content.drop startOffset =
      (w.windows0.drop startOffset).take (w.sizes0 - startOffset) ++ w.windows1.take w.sizes1 := by
    rw [SlidingWindow.content, List.drop_append_of_le_length (by omega), List.drop_take]
  have hlen : ((w.windows0.drop startOffset).take (w.sizes0 - startOffset)).length =
      w.sizes0 - startOffset := by
    rw [List.length_take, List.length_drop, h.length0]
    omega
  unfold slidingWindowAppendToBuffer
  rw [h.windowSize_eq, hdrop, List.take_append, hlen, List.take_take, List.take_take]
  by_cases hlt : startOffset < windowSize
  · rw [if_pos hlt]
    by_cases hall : w.sizes0 - startOffset > size
    · have hzero : size - (w.sizes0 - startOffset) = 0 := by omega
      simp only [if_pos hall, Nat.sub_self, gt_iff_lt, Nat.lt_irrefl, if_false, hzero, Nat.zero_min,
        List.take_zero, List.append_nil]
      rw [Nat.min_eq_left (by omega)]
    · simp only [if_neg hall]
      rw [Nat.min_eq_right (by omega)]
      by_cases hmore : size - (w.sizes0 - startOffset) > 0
      · rw [if_pos hmore, List.append_assoc]
        congr 3
        split
        · rw [Nat.min_eq_left (by omega)]
        · rw [Nat.min_eq_right (by omega)]
      · have hzero : size - (w.sizes0 - startOffset) = 0 := by omega
        rw [if_neg hmore, hzero, Nat.zero_min, List.take_zero, List.append_nil]
  · have heq : startOffset = windowSize := by omega
    have hzero : w.sizes0 - startOffset = 0 := by omega
    rw [if_neg hlt, heq, Nat.sub_self, List.drop_zero, ← heq, hzero, Nat.min_zero, List.take_zero,
      List.nil_append, Nat.sub_zero, Nat.min_eq_left (by omega)]

end Libchop
