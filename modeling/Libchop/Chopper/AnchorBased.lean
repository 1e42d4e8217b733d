import Libchop.Chopper.Fingerprint
import Libchop.Framework.WindowSplit
import Mathlib.Data.List.GetD

/-!
# The anchor-based chopper

`chop_anchor_chopper_read_block` moves a window over the input byte by byte and ends a block
after each window whose fingerprint is an anchor.  It implements the split of the whole input at
these windows, for every way the input stream cuts its data.
-/

namespace Libchop

open WindowSplit

structure AnchorBasedChopper where
  fields : AnchorFields
  slidingWindow : SlidingWindow
  stream : List Bytes

def chopAnchorBasedChopperInit (windowSize magicFprMask : Nat) (stream : List Bytes) :
    AnchorBasedChopper where
  fields := anchorFieldsInit windowSize magicFprMask
  slidingWindow := slidingWindowInit windowSize
  stream := stream

/-- The local variables of `chop_anchor_chopper_read_block`, with the block being built. -/
structure ReadBlockLocals where
  buffer : Bytes
  startOffset : Nat
  first : Bool
  windowFpr : UInt32

/-- The part of the loop that reloads a window with too little data left: the data about to be
overwritten goes to the block. -/
def reloadSlidingWindow (v : ReadBlockLocals) (c : AnchorBasedChopper) :
    Outcome (Status × ReadBlockLocals × AnchorBasedChopper) := do
  let (dest, discarded, window) := slidingWindowDestBuffer c.slidingWindow
  let v ← (if discarded ≠ 0 then do
      Outcome.assert (discarded ≥ v.startOffset)
      return { v with
        buffer := v.buffer ++
          ((window.bytes dest).drop v.startOffset).take (discarded - v.startOffset)
        startOffset := 0 }
    else
      .done v)
  let (err, bytes, size, stream) := readSlidingWindow c.fields.windowSize c.stream
  return (err, v, { c with slidingWindow := window.load dest bytes size, stream })

def nextFingerprint (v : ReadBlockLocals) (c : AnchorBasedChopper) :
    Outcome (UInt32 × AnchorFields) :=
  if v.first then computeWindowFingerprint c.fields c.slidingWindow
  else
    .done (computeNextWindowFingerprint c.fields (slidingWindowFirstChar c.slidingWindow)
      (slidingWindowLastChar c.slidingWindow) v.windowFpr)

/-- The part of the loop that ends the block at an anchor. -/
def cutAtAnchor (v : ReadBlockLocals) (c : AnchorBasedChopper) :
    Outcome (Option (ReadBlockLocals × AnchorBasedChopper)) :=
  let w := c.slidingWindow
  if isAnchorFingerprint c.fields v.windowFpr then do
    Outcome.assert (slidingWindowEndOffset w ≥ v.startOffset)
    let amount := slidingWindowEndOffset w - v.startOffset
    if amount ≠ 0 then do
      Outcome.assert (w.windowSize ≤ w.rawSize - w.offset)
      return some
        ({ v with buffer := slidingWindowAppendToBuffer w v.startOffset amount v.buffer },
          { c with slidingWindow := slidingWindowSkip w w.windowSize })
    else
      return none
  else
    .done none

def slidingWindowIncrementOffset (w : SlidingWindow) : Outcome SlidingWindow := do
  Outcome.assert (slidingWindowUnfull w = false)
  return { w with offset := w.offset + 1 }

/-- The part of the loop that looks at a full window, and whether the block ends there. -/
def scanWindow (v : ReadBlockLocals) (c : AnchorBasedChopper) :
    Outcome (Bool × ReadBlockLocals × AnchorBasedChopper) := do
  let (fpr, fields) ← nextFingerprint v c
  let v := { v with first := false, windowFpr := fpr }
  let c := { c with fields }
  match ← cutAtAnchor v c with
  | some (v, c) => return (true, v, c)
  | none => do
    let window ← slidingWindowIncrementOffset c.slidingWindow
    return (false, v, { c with slidingWindow := window })

/-- The loop of `chop_anchor_chopper_read_block`; the status is that of the last reload or cut. -/
def chopAnchorChopperReadBlockLoop :
    Nat → ReadBlockLocals → AnchorBasedChopper →
      Outcome (Status × ReadBlockLocals × AnchorBasedChopper)
  | 0, _, _ => .outOfFuel
  | fuel + 1, v, c => do
    let (err, v, c) ←
      (if slidingWindowUnfull c.slidingWindow then reloadSlidingWindow v c
      else .done (.ok (), v, c))
    match err with
    | .error e => return (.error e, v, c)
    | .ok () =>
      if slidingWindowUnfull c.slidingWindow then chopAnchorChopperReadBlockLoop fuel v c
      else do
        let (ended, v, c) ← scanWindow v c
        if ended then return (.ok (), v, c)
        else chopAnchorChopperReadBlockLoop fuel v c

def chopAnchorChopperReadBlock (fuel : Nat) (c : AnchorBasedChopper) :
    Outcome (Status × Bytes × AnchorBasedChopper) := do
  let (err, v, c) ←
    chopAnchorChopperReadBlockLoop fuel ⟨[], c.slidingWindow.offset, true, 0⟩ c
  if err = .error .streamEnd then
    let w := c.slidingWindow
    let amount := slidingWindowEndOffset w - v.startOffset
    let buffer := slidingWindowAppendToBuffer w v.startOffset amount v.buffer
    return (if buffer.length = 0 then .error .streamEnd else .ok (), buffer,
      { c with slidingWindow := slidingWindowClear w })
  else
    return (err, v.buffer, c)

def chopAnchorChopperReadBlocks (fuel : Nat) :
    Nat → AnchorBasedChopper → Outcome (List (Status × Bytes) × AnchorBasedChopper)
  | 0, c => .done ([], c)
  | calls + 1, c => do
    let (status, block, c) ← chopAnchorChopperReadBlock fuel c
    let (results, c) ← chopAnchorChopperReadBlocks fuel calls c
    return ((status, block) :: results, c)

def isAnchor (mask : Nat) (window : Bytes) : Bool := windowFingerprint window &&& mask = 0

variable {windowSize mask : Nat} {input : Bytes} {v : ReadBlockLocals} {c : AnchorBasedChopper}

/-- A chopper between two calls, with the given input still to be put in blocks. -/
structure Idle (windowSize mask : Nat) (input : Bytes) (c : AnchorBasedChopper) : Prop where
  loaded : Loaded windowSize c.stream.flatten.length c.slidingWindow
  fields : AnchorOk windowSize mask c.fields
  input_eq : input = c.slidingWindow.content.drop c.slidingWindow.offset ++ c.stream.flatten
  offset_le : c.slidingWindow.offset ≤ c.slidingWindow.sizes0

/-- Where in the input of the block the window starts. -/
def ReadBlockLocals.position (v : ReadBlockLocals) (c : AnchorBasedChopper) : Nat :=
  v.buffer.length + (c.slidingWindow.offset - v.startOffset)

/-- The loop invariant: no window before the current one is an anchor, and past the first window
the fingerprint is that of the window one byte earlier. -/
structure Scanning (windowSize mask : Nat) (input : Bytes) (v : ReadBlockLocals)
    (c : AnchorBasedChopper) : Prop where
  loaded : Loaded windowSize c.stream.flatten.length c.slidingWindow
  fields : AnchorOk windowSize mask c.fields
  input_eq : input =
    v.buffer ++ c.slidingWindow.content.drop v.startOffset ++ c.stream.flatten
  start_le : v.startOffset ≤ c.slidingWindow.offset
  start_le_sizes : v.startOffset ≤ c.slidingWindow.sizes0
  none_before : ∀ q < v.position c, q + windowSize ≤ input.length →
    isAnchor mask (window windowSize input q) = false
  rolling : v.first = false → ∃ tail : Bytes, tail.length + 1 = windowSize ∧
    v.windowFpr.toNat = windowFingerprint (c.fields.prevFirstChar :: tail) ∧
    tail = (input.drop (v.position c)).take (windowSize - 1)

/-- The end of the stream is reached and no window is left. -/
structure Ended (windowSize mask : Nat) (input : Bytes) (v : ReadBlockLocals)
    (c : AnchorBasedChopper) : Prop where
  sized : Sized windowSize c.slidingWindow
  fields : AnchorOk windowSize mask c.fields
  stream_eq : c.stream.flatten = []
  sizes1_eq : c.slidingWindow.sizes1 = 0
  start_le : v.startOffset ≤ c.slidingWindow.sizes0
  input_eq : input = v.buffer ++ c.slidingWindow.content.drop v.startOffset
  cut_eq : cut (isAnchor mask) windowSize input = input.length

theorem Scanning.drop_position (h : Scanning windowSize mask input v c) :
    input.drop (v.position c) =
      c.slidingWindow.content.drop c.slidingWindow.offset ++ c.stream.flatten := by
  have hstart := h.start_le
  have hoffset := h.loaded.offset_le
  have hlen : (c.slidingWindow.content.drop v.startOffset).length =
      c.slidingWindow.content.length - v.startOffset := List.length_drop
  rw [h.input_eq, ReadBlockLocals.position, List.append_assoc, List.drop_length_add_append,
    List.drop_append_of_le_length (by omega), List.drop_drop, Nat.add_sub_cancel' hstart]

theorem Scanning.length_eq (h : Scanning windowSize mask input v c) :
    input.length = v.position c + (c.slidingWindow.content.length - c.slidingWindow.offset) +
      c.stream.flatten.length := by
  have hstart := h.start_le
  have hoffset := h.loaded.offset_le
  rw [h.input_eq, List.length_append, List.length_append, List.length_drop,
    ReadBlockLocals.position]
  omega

theorem Scanning.window_position (h : Scanning windowSize mask input v c)
    (hfull : c.slidingWindow.offset + windowSize ≤ c.slidingWindow.content.length) :
    window windowSize input (v.position c) =
      (c.slidingWindow.content.drop c.slidingWindow.offset).take windowSize := by
  rw [window, h.drop_position, List.take_append_of_le_length]
  rw [List.length_drop]
  omega

private theorem Scanning.full (h : Scanning windowSize mask input v c)
    (hfull : slidingWindowUnfull c.slidingWindow = false) :
    c.slidingWindow.offset + windowSize ≤ c.slidingWindow.content.length := by
  have hiff := slidingWindowUnfull_iff h.loaded
  rw [hfull] at hiff
  by_contra hlt
  exact absurd (hiff.mpr (Nat.lt_of_not_le hlt)) (by decide)

private theorem sizes0_of_full {left : Nat} {w : SlidingWindow} (h : Loaded windowSize left w)
    (hfull : w.offset + windowSize ≤ w.content.length) : w.sizes0 = windowSize := by
  have hphase := h.phase
  have hpos := h.pos
  have hle := h.sizes0_le
  rw [h.content_length] at hfull
  omega

private theorem take_succ_getD (xs : Bytes) {n : Nat} (hn : n < xs.length) :
    xs.take (n + 1) = xs.take n ++ [xs.getD n 0] := by
  rw [List.take_succ_eq_append_getElem hn, List.getD_eq_getElem xs 0 hn]

private theorem nextFingerprint_spec (h : Scanning windowSize mask input v c)
    (hfull : slidingWindowUnfull c.slidingWindow = false) :
    ∃ fpr fields, nextFingerprint v c = .done (fpr, fields) ∧ AnchorOk windowSize mask fields ∧
      fpr.toNat = windowFingerprint (window windowSize input (v.position c)) ∧
      ∃ tail, window windowSize input (v.position c) = fields.prevFirstChar :: tail := by
  have hroom := h.full hfull
  have hpos := h.loaded.pos
  have hwindow := h.window_position hroom
  unfold nextFingerprint
  by_cases hfirst : v.first = true
  · obtain ⟨fpr, fields, hrun, hok, hfpr, htail⟩ :=
      computeWindowFingerprint_spec h.fields h.loaded hroom
    rw [if_pos hfirst, hwindow]
    exact ⟨fpr, fields, hrun, hok, hfpr, htail⟩
  · have hsizes := sizes0_of_full h.loaded hroom
    have hnot : v.first = false := by simpa using hfirst
    obtain ⟨tail, hlen, hfpr, htail⟩ := h.rolling hnot
    obtain ⟨hfpr', hok', hprev'⟩ := computeNextWindowFingerprint_spec h.fields
      (slidingWindowFirstChar c.slidingWindow) (slidingWindowLastChar c.slidingWindow) hlen hfpr
    have hlast : slidingWindowLastChar c.slidingWindow =
        (c.slidingWindow.content.drop c.slidingWindow.offset).getD (windowSize - 1) 0 := by
      rw [slidingWindowLastChar, h.loaded.windowSize_eq,
        slidingWindowRef_eq h.loaded.toSized hsizes (by omega), List.getD_eq_getElem?_getD,
        List.getD_eq_getElem?_getD, List.getElem?_drop, Nat.add_sub_assoc hpos]
    have htail' :
        tail = (c.slidingWindow.content.drop c.slidingWindow.offset).take (windowSize - 1) := by
      rw [htail, h.drop_position, List.take_append_of_le_length]
      rw [List.length_drop]
      omega
    have hconcat : window windowSize input (v.position c) =
        tail ++ [slidingWindowLastChar c.slidingWindow] := by
      rw [hwindow, hlast, htail', ← take_succ_getD, Nat.sub_add_cancel hpos]
      rw [List.length_drop]
      omega
    have hhead : ∃ tail', window windowSize input (v.position c) =
        slidingWindowFirstChar c.slidingWindow :: tail' := by
      have hlt : c.slidingWindow.offset < c.slidingWindow.content.length := by omega
      rw [slidingWindowFirstChar, slidingWindowRef_eq h.loaded.toSized hsizes hlt, hwindow,
        List.drop_eq_getElem_cons hlt, List.getD_eq_getElem _ _ hlt, ← Nat.sub_add_cancel hpos,
        List.take_succ_cons]
      exact ⟨_, rfl⟩
    rw [if_neg hfirst]
    cases hnext : computeNextWindowFingerprint c.fields (slidingWindowFirstChar c.slidingWindow)
      (slidingWindowLastChar c.slidingWindow) v.windowFpr with
    | mk fpr fields =>
      rw [hnext] at hfpr' hok' hprev'
      refine ⟨fpr, fields, rfl, hok', ?_, ?_⟩
      · rw [hfpr', hconcat]
      · rw [hprev']
        exact hhead

private theorem slidingWindowSkip_idle (h : Scanning windowSize mask input v c)
    (hroom : c.slidingWindow.offset + windowSize ≤ c.slidingWindow.content.length)
    {fields : AnchorFields} (hok : AnchorOk windowSize mask fields) :
    Idle windowSize mask (input.drop (v.position c + windowSize)) { c with
      fields := fields
      slidingWindow := slidingWindowSkip c.slidingWindow windowSize } := by
  have hsizes := sizes0_of_full h.loaded hroom
  have hphase := h.loaded.phase
  have hpos := h.loaded.pos
  have hcontent := h.loaded.content_length
  have hskip : slidingWindowSkip c.slidingWindow windowSize = { c.slidingWindow with
      windows0 := c.slidingWindow.windows1
      windows1 := c.slidingWindow.windows0
      sizes0 := c.slidingWindow.sizes1
      sizes1 := 0 } := by
    rw [slidingWindowSkip, if_pos (by omega), hsizes, Nat.add_sub_cancel]
  rw [hskip]
  constructor
  · constructor
    · exact ⟨h.loaded.windowSize_eq, h.loaded.rawSize_eq, h.loaded.length1, h.loaded.length0,
        h.loaded.sizes1_le, Nat.zero_le _, fun _ => rfl⟩
    · exact hpos
    · simp only [true_and]
      omega
  · exact hok
  · have hfirst : (c.slidingWindow.windows0.take c.slidingWindow.sizes0).length = windowSize := by
      rw [List.length_take, h.loaded.length0]
      omega
    have hdrop : c.slidingWindow.content.drop (c.slidingWindow.offset + windowSize) =
        (c.slidingWindow.windows1.take c.slidingWindow.sizes1).drop c.slidingWindow.offset := by
      rw [SlidingWindow.content, Nat.add_comm, ← hfirst, List.drop_length_add_append]
    rw [← List.drop_drop, h.drop_position, List.drop_append_of_le_length, List.drop_drop, hdrop]
    · simp [SlidingWindow.content]
    · rw [List.length_drop]
      omega
  · simp only
    omega

private theorem Scanning.take_eq (h : Scanning windowSize mask input v c)
    (hroom : c.slidingWindow.offset + windowSize ≤ c.slidingWindow.content.length) :
    input.take (v.position c + windowSize) = v.buffer ++
      (c.slidingWindow.content.drop v.startOffset).take
        (c.slidingWindow.offset + windowSize - v.startOffset) := by
  have hstart := h.start_le
  have hle : c.slidingWindow.offset + windowSize - v.startOffset ≤
      (c.slidingWindow.content.drop v.startOffset).length := by
    rw [List.length_drop]
    omega
  have hsum : v.position c + windowSize =
      v.buffer.length + (c.slidingWindow.offset + windowSize - v.startOffset) := by
    rw [ReadBlockLocals.position]
    omega
  rw [hsum]
  conv_lhs => rw [h.input_eq]
  rw [List.append_assoc, List.take_length_add_append, List.take_append_of_le_length hle]

private theorem cutAtAnchor_of_anchor (h : Scanning windowSize mask input v c)
    (hfull : slidingWindowUnfull c.slidingWindow = false) {fpr : UInt32} {fields : AnchorFields}
    (hok : AnchorOk windowSize mask fields)
    (hfpr : fpr.toNat = windowFingerprint (window windowSize input (v.position c)))
    (hanchor : isAnchor mask (window windowSize input (v.position c)) = true) :
    ∃ v' c', cutAtAnchor { v with first := false, windowFpr := fpr } { c with fields } =
        .done (some (v', c')) ∧
      v'.buffer = input.take (cut (isAnchor mask) windowSize input) ∧
      Idle windowSize mask (input.drop (cut (isAnchor mask) windowSize input)) c' := by
  -- A block ends at an anchor where the first piece of its input does.
  have hroom := h.full hfull
  have hsizes := sizes0_of_full h.loaded hroom
  have hpos := h.loaded.pos
  have hstart := h.start_le
  have hcontent := h.loaded.content_length
  have hle := h.loaded.sizes1_le
  have hlength := h.length_eq
  have hcut : cut (isAnchor mask) windowSize input = v.position c + windowSize := by
    apply cut_of_anchor (by omega) hanchor
    intro q hq
    exact h.none_before q hq (by omega)
  have hend : slidingWindowEndOffset c.slidingWindow = c.slidingWindow.offset + windowSize := by
    simp only [slidingWindowEndOffset, h.loaded.windowSize_eq]
    split
    · rfl
    · omega
  have hmagic : isAnchorFingerprint fields fpr = true := by
    rw [isAnchorFingerprint_eq hok hfpr]
    exact hanchor
  have hge : slidingWindowEndOffset c.slidingWindow ≥ v.startOffset := by omega
  have hamount : slidingWindowEndOffset c.slidingWindow - v.startOffset ≠ 0 := by omega
  have hfits : c.slidingWindow.windowSize ≤ c.slidingWindow.rawSize - c.slidingWindow.offset := by
    rw [h.loaded.windowSize_eq, h.loaded.rawSize_eq]
    omega
  rw [hcut]
  simp only [cutAtAnchor, hmagic, if_true, Outcome.assert_of hge, Outcome.done_bind,
    if_pos hamount, Outcome.assert_of hfits, Outcome.pure_eq_done]
  refine ⟨_, _, rfl, ?_, ?_⟩
  · rw [h.take_eq hroom, ← hend]
    apply slidingWindowAppendToBuffer_eq h.loaded.toSized h.start_le_sizes
    omega
  · rw [h.loaded.windowSize_eq]
    exact slidingWindowSkip_idle h hroom hok

private theorem scanning_step (h : Scanning windowSize mask input v c)
    (hfull : slidingWindowUnfull c.slidingWindow = false) {fpr : UInt32} {fields : AnchorFields}
    (hok : AnchorOk windowSize mask fields)
    (hfpr : fpr.toNat = windowFingerprint (window windowSize input (v.position c)))
    {tail : Bytes} (htail : window windowSize input (v.position c) = fields.prevFirstChar :: tail)
    (hnot : isAnchor mask (window windowSize input (v.position c)) = false) :
    Scanning windowSize mask input { v with first := false, windowFpr := fpr }
      { c with
        fields := fields
        slidingWindow :=
          { c.slidingWindow with offset := c.slidingWindow.offset + 1 } } := by
  have hroom := h.full hfull
  have hsizes := sizes0_of_full h.loaded hroom
  have hpos := h.loaded.pos
  have hstart := h.start_le
  have hphase := h.loaded.phase
  have hcontent := h.loaded.content_length
  have hle := h.loaded.sizes1_le
  have hlength := h.length_eq
  have hposition : ReadBlockLocals.position { v with first := false, windowFpr := fpr }
      { c with
        fields := fields
        slidingWindow := { c.slidingWindow with offset := c.slidingWindow.offset + 1 } } =
      v.position c + 1 := by
    simp only [ReadBlockLocals.position]
    omega
  constructor
  · constructor
    · exact ⟨h.loaded.windowSize_eq, h.loaded.rawSize_eq, h.loaded.length0, h.loaded.length1,
        h.loaded.sizes0_le, h.loaded.sizes1_le, h.loaded.sizes1_eq⟩
    · exact hpos
    · simp only
      omega
  · exact hok
  · exact h.input_eq
  · simp only
    omega
  · exact h.start_le_sizes
  · intro q hq hfits
    rw [hposition] at hq
    by_cases hlast : q = v.position c
    · rw [hlast]
      exact hnot
    · exact h.none_before q (by omega) hfits
  · intro _
    have hdrop : input.drop (v.position c) =
        fields.prevFirstChar :: input.drop (v.position c + 1) := by
      have hlt : v.position c < input.length := by omega
      rw [window, List.drop_eq_getElem_cons hlt, ← Nat.sub_add_cancel hpos,
        List.take_succ_cons] at htail
      rw [List.drop_eq_getElem_cons hlt, (List.cons.inj htail).1]
    have htail' : tail = (input.drop (v.position c + 1)).take (windowSize - 1) := by
      rw [window, hdrop, ← Nat.sub_add_cancel hpos, List.take_succ_cons] at htail
      exact (List.cons.inj htail).2.symm
    refine ⟨tail, ?_, ?_, ?_⟩
    · rw [htail', List.length_take, List.length_drop]
      omega
    · rw [hfpr, htail]
    · rw [hposition]
      exact htail'

/-- What a reload does to the locals and the chopper: it takes one window of the stream and keeps
all the rest of the input.  Windows of one byte may be looked at twice. -/
structure Reloaded (windowSize : Nat) (input : Bytes) (v : ReadBlockLocals)
    (c : AnchorBasedChopper) (v' : ReadBlockLocals) (c' : AnchorBasedChopper) : Prop where
  fields_eq : c'.fields = c.fields
  first_eq : v'.first = v.first
  windowFpr_eq : v'.windowFpr = v.windowFpr
  stream_eq : c'.stream.flatten = c.stream.flatten.drop windowSize
  sized : Sized windowSize c'.slidingWindow
  input_eq : input =
    v'.buffer ++ c'.slidingWindow.content.drop v'.startOffset ++ c'.stream.flatten
  start_le_sizes : v'.startOffset ≤ c'.slidingWindow.sizes0
  sizes1_eq : c.stream.flatten = [] → c'.slidingWindow.sizes1 = 0
  phase : c.stream.flatten ≠ [] → Loaded windowSize c'.stream.flatten.length c'.slidingWindow ∧
    v'.startOffset ≤ c'.slidingWindow.offset ∧
    (v'.position c' = v.position c ∨ windowSize = 1 ∧ v'.position c' ≤ v.position c)

/-- A window of the stream as `read_sliding_window` stores it. -/
private def padded (windowSize : Nat) (data : Bytes) : Bytes :=
  data.take windowSize ++ List.replicate (windowSize - (data.take windowSize).length) 0

private theorem padded_length (windowSize : Nat) (data : Bytes) :
    (padded windowSize data).length = windowSize := by
  rw [padded, List.length_append, List.length_replicate, List.length_take]
  omega

private theorem padded_take (windowSize : Nat) (data : Bytes) :
    (padded windowSize data).take (data.take windowSize).length = data.take windowSize := by
  rw [padded, List.take_left]

private theorem read_append (windowSize : Nat) (data : Bytes) :
    (padded windowSize data).take (data.take windowSize).length ++ data.drop windowSize = data := by
  rw [padded_take, List.take_append_drop]

private theorem read_short {data : Bytes} (hshort : (data.take windowSize).length < windowSize) :
    (data.drop windowSize).length = 0 := by
  rw [List.length_take] at hshort
  rw [List.length_drop]
  omega

private theorem read_none {size : Nat} {data : Bytes}
    (hlast : size < windowSize → data.length = 0) (hlt : size < windowSize) :
    (data.take windowSize).length = 0 := by
  rw [List.length_take, hlast hlt, Nat.min_zero]

private theorem reload_empty (h : Scanning windowSize mask input v c)
    (hsizes0 : c.slidingWindow.sizes0 = 0) (hsizes1 : c.slidingWindow.sizes1 = 0)
    (hoffset : c.slidingWindow.offset = 0) :
    ∃ v' c', reloadSlidingWindow v c =
        .done (if c.stream.flatten = [] then .error .streamEnd else .ok (), v', c') ∧
      Reloaded windowSize input v c v' c' := by
  have hpos := h.loaded.pos
  have hstart := h.start_le
  obtain ⟨rest, hread, hrest⟩ := readSlidingWindow_eq hpos c.stream
  have hlen := List.length_take_le windowSize c.stream.flatten
  have hsized : Sized windowSize { c.slidingWindow with
      windows0 := padded windowSize c.stream.flatten
      sizes0 := (c.stream.flatten.take windowSize).length } :=
    ⟨h.loaded.windowSize_eq, h.loaded.rawSize_eq, padded_length _ _, h.loaded.length1, hlen,
      h.loaded.sizes1_le, fun _ => hsizes1⟩
  simp only [reloadSlidingWindow, slidingWindowDestBuffer, hsizes0, if_true, ne_eq,
    not_true_eq_false, if_false, Outcome.done_bind, h.fields.windowSize_eq, hread,
    Outcome.pure_eq_done, SlidingWindow.load]
  refine ⟨_, _, rfl, ?_⟩
  constructor
  · rfl
  · rfl
  · rfl
  · exact hrest
  · exact hsized
  · have hcontent : c.slidingWindow.content = [] := by
      rw [SlidingWindow.content, hsizes0, hsizes1]
      rfl
    have hzero : v.startOffset = 0 := by omega
    have hinput := h.input_eq
    rw [hcontent, List.drop_nil, List.append_nil] at hinput
    rw [hinput, hrest, hzero, List.drop_zero]
    simp only [SlidingWindow.content, hsizes1, List.take_zero, List.append_nil]
    rw [List.append_assoc]
    exact congrArg (v.buffer ++ ·) (read_append windowSize _).symm
  · simp only
    omega
  · exact fun _ => hsizes1
  · intro hne
    have hdata := List.length_pos_iff.mpr hne
    refine ⟨⟨hsized, hpos, .inr (.inl ⟨?_, hsizes1, ?_, ?_⟩)⟩, hstart, .inl rfl⟩
    · simp only [List.length_take]
      omega
    · simp only
      omega
    · intro hshort
      rw [hrest]
      exact read_short hshort

private theorem reload_first (h : Scanning windowSize mask input v c)
    (hsizes0 : 0 < c.slidingWindow.sizes0) (hsizes1 : c.slidingWindow.sizes1 = 0)
    (hoffset : c.slidingWindow.offset ≤ c.slidingWindow.sizes0)
    (hlast : c.slidingWindow.sizes0 < windowSize → c.stream.flatten.length = 0) :
    ∃ v' c', reloadSlidingWindow v c =
        .done (if c.stream.flatten = [] then .error .streamEnd else .ok (), v', c') ∧
      Reloaded windowSize input v c v' c' := by
  have hpos := h.loaded.pos
  have hle := h.loaded.sizes0_le
  obtain ⟨rest, hread, hrest⟩ := readSlidingWindow_eq hpos c.stream
  have hlen := List.length_take_le windowSize c.stream.flatten
  have hsized : Sized windowSize { c.slidingWindow with
      windows1 := padded windowSize c.stream.flatten
      sizes1 := (c.stream.flatten.take windowSize).length } :=
    ⟨h.loaded.windowSize_eq, h.loaded.rawSize_eq, h.loaded.length0, padded_length _ _, hle, hlen,
      read_none hlast⟩
  simp only [reloadSlidingWindow, slidingWindowDestBuffer, if_neg (Nat.ne_of_gt hsizes0), hsizes1,
    if_true, ne_eq, not_true_eq_false, if_false, Outcome.done_bind, h.fields.windowSize_eq, hread,
    Outcome.pure_eq_done, SlidingWindow.load]
  refine ⟨_, _, rfl, ?_⟩
  constructor
  · rfl
  · rfl
  · rfl
  · exact hrest
  · exact hsized
  · have hinput := h.input_eq
    have hfirst : (c.slidingWindow.windows0.take c.slidingWindow.sizes0).length =
        c.slidingWindow.sizes0 := by
      rw [List.length_take, h.loaded.length0]
      omega
    rw [SlidingWindow.content, hsizes1, List.take_zero, List.append_nil] at hinput
    simp only [SlidingWindow.content]
    have hstart : v.startOffset ≤
        (c.slidingWindow.windows0.take c.slidingWindow.sizes0).length := by
      rw [hfirst]
      exact h.start_le_sizes
    rw [hinput, hrest, List.drop_append_of_le_length hstart, List.append_assoc, List.append_assoc,
      List.append_assoc]
    congr 2
    exact (read_append windowSize _).symm
  · exact h.start_le_sizes
  · intro hnil
    simp [hnil]
  · intro hne
    have hdata := List.length_pos_iff.mpr hne
    have hfull : c.slidingWindow.sizes0 = windowSize := by omega
    refine ⟨⟨hsized, hpos, .inr (.inr ⟨hfull, ?_, ?_, ?_⟩)⟩, h.start_le, .inl rfl⟩
    · simp only [List.length_take]
      omega
    · simp only
      omega
    · intro hshort
      rw [hrest]
      exact read_short hshort

private theorem reload_both (h : Scanning windowSize mask input v c)
    (hunfull : slidingWindowUnfull c.slidingWindow = true)
    (hsizes0 : c.slidingWindow.sizes0 = windowSize) (hsizes1 : 0 < c.slidingWindow.sizes1)
    (hoffset : c.slidingWindow.offset ≤ windowSize + 1)
    (hlast : c.slidingWindow.sizes1 < windowSize → c.stream.flatten.length = 0) :
    ∃ v' c', reloadSlidingWindow v c =
        .done (if c.stream.flatten = [] then .error .streamEnd else .ok (), v', c') ∧
      Reloaded windowSize input v c v' c' := by
  have hpos := h.loaded.pos
  have hle := h.loaded.sizes1_le
  have hstart := h.start_le_sizes
  obtain ⟨rest, hread, hrest⟩ := readSlidingWindow_eq hpos c.stream
  have hlen := List.length_take_le windowSize c.stream.flatten
  have hsized : Sized windowSize { c.slidingWindow with
      windowSize := windowSize
      windows0 := c.slidingWindow.windows1
      windows1 := padded windowSize c.stream.flatten
      offset := c.slidingWindow.offset % windowSize
      sizes0 := c.slidingWindow.sizes1
      sizes1 := (c.stream.flatten.take windowSize).length } :=
    ⟨rfl, h.loaded.rawSize_eq, h.loaded.length1, padded_length _ _, hle, hlen,
      read_none hlast⟩
  have hne0 : c.slidingWindow.sizes0 ≠ 0 := by omega
  have hne1 : c.slidingWindow.sizes1 ≠ 0 := by omega
  have hge : c.slidingWindow.sizes0 ≥ v.startOffset := hstart
  simp only [reloadSlidingWindow, slidingWindowDestBuffer, if_neg hne0, if_neg hne1, if_pos hne0,
    Outcome.assert_of hge, Outcome.done_bind, h.fields.windowSize_eq, h.loaded.windowSize_eq, hread,
    Outcome.pure_eq_done, SlidingWindow.load, SlidingWindow.bytes]
  refine ⟨_, _, rfl, ?_⟩
  constructor
  · rfl
  · rfl
  · rfl
  · exact hrest
  · exact hsized
  · have hinput := h.input_eq
    have hfirst : v.startOffset ≤
        (c.slidingWindow.windows0.take c.slidingWindow.sizes0).length := by
      rw [List.length_take, h.loaded.length0]
      omega
    rw [SlidingWindow.content, List.drop_append_of_le_length hfirst] at hinput
    simp only [SlidingWindow.content, List.drop_zero]
    rw [hinput, hrest, ← List.drop_take]
    simp only [List.append_assoc]
    congr 3
    exact (read_append windowSize _).symm
  · exact Nat.zero_le _
  · intro hnil
    simp [hnil]
  · intro hne
    have hdata := List.length_pos_iff.mpr hne
    have hfull : c.slidingWindow.sizes1 = windowSize := by omega
    have hpast : c.slidingWindow.offset = windowSize + 1 := by
      have hlt := (slidingWindowUnfull_iff h.loaded).mp hunfull
      rw [h.loaded.content_length] at hlt
      omega
    refine ⟨⟨hsized, hpos, .inr (.inr ⟨hfull, ?_, ?_, ?_⟩)⟩, Nat.zero_le _, ?_⟩
    · simp only [List.length_take]
      omega
    · exact (Nat.mod_lt _ hpos).le.trans (Nat.le_succ _)
    · intro hshort
      rw [hrest]
      exact read_short hshort
    · have hflushed : ((c.slidingWindow.windows0.drop v.startOffset).take
          (c.slidingWindow.sizes0 - v.startOffset)).length =
          windowSize - v.startOffset := by
        rw [List.length_take, List.length_drop, h.loaded.length0]
        omega
      simp only [ReadBlockLocals.position, List.length_append, hflushed, hpast, Nat.add_mod_left]
      by_cases hone : windowSize = 1
      · refine .inr ⟨hone, ?_⟩
        rw [hone, Nat.mod_self]
        omega
      · rw [Nat.mod_eq_of_lt (by omega)]
        exact .inl (by omega)

private theorem reloadSlidingWindow_spec (h : Scanning windowSize mask input v c)
    (hunfull : slidingWindowUnfull c.slidingWindow = true) :
    ∃ v' c', reloadSlidingWindow v c =
        .done (if c.stream.flatten = [] then .error .streamEnd else .ok (), v', c') ∧
      Reloaded windowSize input v c v' c' := by
  -- A window with too little data left is reloaded from the stream, in each of its phases.
  cases h.loaded.phase with
  | inl hempty => exact reload_empty h hempty.1 hempty.2.1 hempty.2.2
  | inr hphase =>
    cases hphase with
    | inl hfirst => exact reload_first h hfirst.1 hfirst.2.1 hfirst.2.2.1 hfirst.2.2.2
    | inr hboth => exact reload_both h hunfull hboth.1 hboth.2.1 hboth.2.2.1 hboth.2.2.2

variable {v' : ReadBlockLocals} {c' : AnchorBasedChopper}

private theorem scanning_of_reloaded (h : Scanning windowSize mask input v c)
    (hreload : Reloaded windowSize input v c v' c') (hne : c.stream.flatten ≠ []) :
    Scanning windowSize mask input v' c' := by
  obtain ⟨hloaded, hstart, hposition⟩ := hreload.phase hne
  constructor
  · exact hloaded
  · rw [hreload.fields_eq]
    exact h.fields
  · exact hreload.input_eq
  · exact hstart
  · exact hreload.start_le_sizes
  · intro q hq hfits
    apply h.none_before q _ hfits
    omega
  · intro hfirst
    rw [hreload.first_eq] at hfirst
    obtain ⟨tail, hlen, hfpr, htail⟩ := h.rolling hfirst
    refine ⟨tail, hlen, ?_, ?_⟩
    · rw [hreload.windowFpr_eq, hreload.fields_eq]
      exact hfpr
    · cases hposition with
      | inl hsame =>
        rw [hsame]
        exact htail
      | inr hone =>
        rw [hone.1, Nat.sub_self, List.take_zero]
        apply List.eq_nil_of_length_eq_zero
        omega

private theorem ended_of_reloaded (h : Scanning windowSize mask input v c)
    (hunfull : slidingWindowUnfull c.slidingWindow = true)
    (hreload : Reloaded windowSize input v c v' c') (hnil : c.stream.flatten = []) :
    Ended windowSize mask input v' c' := by
  have hstream : c'.stream.flatten = [] := by
    rw [hreload.stream_eq, hnil, List.drop_nil]
  have hinput := hreload.input_eq
  rw [hstream, List.append_nil] at hinput
  refine ⟨hreload.sized, ?_, hstream, hreload.sizes1_eq hnil, hreload.start_le_sizes, hinput, ?_⟩
  · rw [hreload.fields_eq]
    exact h.fields
  · have hlt := (slidingWindowUnfull_iff h.loaded).mp hunfull
    have hlength := h.length_eq
    have hoffset := h.loaded.offset_le
    rw [hnil, List.length_nil] at hlength
    apply cut_of_no_anchor
    intro q hq
    apply h.none_before q _ hq
    omega

/-- Iterations that the loop can still make: one window for each byte of the stream, and what is
left of the sliding window. -/
def scanFuel (windowSize : Nat) (c : AnchorBasedChopper) : Nat :=
  c.stream.flatten.length * (windowSize + 3) + (windowSize + 2 - c.slidingWindow.offset)

private theorem scanFuel_reload (hreload : Reloaded windowSize input v c v' c')
    (hpos : 0 < windowSize) (hne : c.stream.flatten ≠ []) :
    scanFuel windowSize c' < scanFuel windowSize c := by
  have hdata := List.length_pos_iff.mpr hne
  have hless : c'.stream.flatten.length + 1 ≤ c.stream.flatten.length := by
    rw [hreload.stream_eq, List.length_drop]
    omega
  have hmul := Nat.mul_le_mul_right (windowSize + 3) hless
  rw [Nat.add_mul, Nat.one_mul] at hmul
  unfold scanFuel
  omega

/-- How a call ends: with the block that ends at the first anchor, or at the end of the stream. -/
inductive BlockEnd (windowSize mask : Nat) (input : Bytes) :
    Status → ReadBlockLocals → AnchorBasedChopper → Prop where
  | anchor {v : ReadBlockLocals} {c : AnchorBasedChopper} (hne : input ≠ [])
      (hbuffer : v.buffer = input.take (cut (isAnchor mask) windowSize input))
      (hidle : Idle windowSize mask (input.drop (cut (isAnchor mask) windowSize input)) c) :
      BlockEnd windowSize mask input (.ok ()) v c
  | streamEnd {v : ReadBlockLocals} {c : AnchorBasedChopper}
      (hended : Ended windowSize mask input v c) :
      BlockEnd windowSize mask input (.error .streamEnd) v c

private theorem scanFuel_step (h : Scanning windowSize mask input v c)
    (hfull : slidingWindowUnfull c.slidingWindow = false) (fields : AnchorFields) :
    scanFuel windowSize { c with
      fields := fields
      slidingWindow := { c.slidingWindow with offset := c.slidingWindow.offset + 1 } } <
      scanFuel windowSize c := by
  have hroom := h.full hfull
  have hle := h.loaded.sizes0_le
  have hle' := h.loaded.sizes1_le
  rw [h.loaded.content_length] at hroom
  simp only [scanFuel]
  omega

private theorem scanWindow_spec (h : Scanning windowSize mask input v c)
    (hfull : slidingWindowUnfull c.slidingWindow = false) :
    ∃ ended v' c', scanWindow v c = .done (ended, v', c') ∧
      (ended = true ∧ BlockEnd windowSize mask input (.ok ()) v' c' ∨
        ended = false ∧ Scanning windowSize mask input v' c' ∧
          scanFuel windowSize c' < scanFuel windowSize c) := by
  obtain ⟨fpr, fields, hnext, hok, hfpr, tail, htail⟩ := nextFingerprint_spec h hfull
  simp only [scanWindow, hnext, Outcome.done_bind]
  cases hanchor : isAnchor mask (window windowSize input (v.position c)) with
  | true =>
    obtain ⟨v', c', hcut, hbuffer, hidle⟩ := cutAtAnchor_of_anchor h hfull hok hfpr hanchor
    have hne : input ≠ [] := by
      intro hnil
      rw [hnil, window, List.drop_nil, List.take_nil] at htail
      cases htail
    simp only [hcut, Outcome.done_bind, Outcome.pure_eq_done]
    exact ⟨true, v', c', rfl, .inl ⟨rfl, .anchor hne hbuffer hidle⟩⟩
  | false =>
    have hplain : isAnchorFingerprint fields fpr = false := by
      rw [isAnchorFingerprint_eq hok hfpr]
      exact hanchor
    simp only [cutAtAnchor, hplain, Bool.false_eq_true, if_false, Outcome.done_bind,
      slidingWindowIncrementOffset, Outcome.assert_of hfull, Outcome.pure_eq_done]
    exact ⟨false, _, _, rfl, .inr ⟨rfl, scanning_step h hfull hok hfpr htail hanchor,
      scanFuel_step h hfull fields⟩⟩

private theorem chopAnchorChopperReadBlockLoop_spec (fuel : Nat)
    (h : Scanning windowSize mask input v c) (hfuel : scanFuel windowSize c < fuel) :
    ∃ err v' c', chopAnchorChopperReadBlockLoop fuel v c = .done (err, v', c') ∧
      BlockEnd windowSize mask input err v' c' := by
  induction fuel generalizing v c with
  | zero => exact (Nat.not_lt_zero _ hfuel).elim
  | succ fuel ih =>
    have hscan : ∀ {v : ReadBlockLocals} {c : AnchorBasedChopper},
        Scanning windowSize mask input v c → slidingWindowUnfull c.slidingWindow = false →
        scanFuel windowSize c ≤ fuel →
        ∃ err v' c', (do
            let (ended, v, c) ← scanWindow v c
            if ended then return (.ok (), v, c)
            else chopAnchorChopperReadBlockLoop fuel v c) = Outcome.done (err, v', c') ∧
          BlockEnd windowSize mask input err v' c' := by
      intro v c h hfull hfuel
      obtain ⟨ended, v', c', hrun, hcases⟩ := scanWindow_spec h hfull
      simp only [hrun, Outcome.done_bind]
      cases hcases with
      | inl hend =>
        simp only [hend.1, if_true, Outcome.pure_eq_done]
        exact ⟨_, v', c', rfl, hend.2⟩
      | inr hmore =>
        simp only [hmore.1, Bool.false_eq_true, if_false]
        exact ih hmore.2.1 (hmore.2.2.trans_le hfuel)
    rw [chopAnchorChopperReadBlockLoop]
    cases hunfull : slidingWindowUnfull c.slidingWindow with
    | false =>
      simp only [Bool.false_eq_true, if_false, Outcome.done_bind, hunfull]
      exact hscan h hunfull (Nat.le_of_lt_succ hfuel)
    | true =>
      obtain ⟨v', c', hrun, hreload⟩ := reloadSlidingWindow_spec h hunfull
      simp only [if_true, hrun, Outcome.done_bind]
      by_cases hnil : c.stream.flatten = []
      · simp only [hnil, if_true, Outcome.pure_eq_done]
        exact ⟨_, v', c', rfl, .streamEnd (ended_of_reloaded h hunfull hreload hnil)⟩
      · have hnext := scanning_of_reloaded h hreload hnil
        have hless := scanFuel_reload hreload h.loaded.pos hnil
        simp only [hnil, if_false]
        cases hunfull' : slidingWindowUnfull c'.slidingWindow with
        | true =>
          simp only [if_true]
          exact ih hnext (by omega)
        | false =>
          simp only [Bool.false_eq_true, if_false]
          exact hscan hnext hunfull' (by omega)

private theorem Idle.scanning (h : Idle windowSize mask input c) :
    Scanning windowSize mask input ⟨[], c.slidingWindow.offset, true, 0⟩ c := by
  constructor
  · exact h.loaded
  · exact h.fields
  · exact h.input_eq
  · exact Nat.le_refl _
  · exact h.offset_le
  · intro q hq
    simp [ReadBlockLocals.position] at hq
  · intro hfirst
    cases hfirst

private theorem Ended.flush (h : Ended windowSize mask input v c) (hpos : 0 < windowSize) :
    slidingWindowAppendToBuffer c.slidingWindow v.startOffset
        (slidingWindowEndOffset c.slidingWindow - v.startOffset) v.buffer = input ∧
      Idle windowSize mask [] { c with slidingWindow := slidingWindowClear c.slidingWindow } := by
  have hcontent := h.sized.content_length
  have hle := h.sized.sizes0_le
  have hstart := h.start_le
  have hsizes1 := h.sizes1_eq
  have hend : slidingWindowEndOffset c.slidingWindow = c.slidingWindow.content.length := by
    simp only [slidingWindowEndOffset, h.sized.windowSize_eq]
    split
    · omega
    · exact hcontent.symm
  constructor
  · rw [hend, slidingWindowAppendToBuffer_eq h.sized hstart (by omega), List.take_of_length_le]
    · exact h.input_eq.symm
    · rw [List.length_drop]
  · constructor
    · exact ⟨⟨h.sized.windowSize_eq, h.sized.rawSize_eq, h.sized.length0, h.sized.length1,
        Nat.zero_le _, Nat.zero_le _, fun _ => rfl⟩, hpos, .inl ⟨rfl, rfl, rfl⟩⟩
    · exact h.fields
    · simp [slidingWindowClear, SlidingWindow.content, h.stream_eq]
    · exact Nat.le_refl _

/-- One call returns the first piece of the input, or the end of the stream when there is none,
and leaves the rest. -/
theorem chopAnchorChopperReadBlock_spec {fuel : Nat} (h : Idle windowSize mask input c)
    (hfuel : scanFuel windowSize c < fuel) :
    ∃ c', chopAnchorChopperReadBlock fuel c =
        .done (if input = [] then .error .streamEnd else .ok (),
          input.take (cut (isAnchor mask) windowSize input), c') ∧
      Idle windowSize mask (input.drop (cut (isAnchor mask) windowSize input)) c' := by
  obtain ⟨err, v', c', hrun, hend⟩ := chopAnchorChopperReadBlockLoop_spec fuel h.scanning hfuel
  simp only [chopAnchorChopperReadBlock, hrun, Outcome.done_bind]
  cases hend with
  | anchor hne hbuffer hidle =>
    rw [if_neg (by simp), if_neg hne, hbuffer]
    exact ⟨_, rfl, hidle⟩
  | streamEnd hended =>
    obtain ⟨hflush, hidle⟩ := hended.flush h.loaded.pos
    rw [hended.cut_eq, List.take_length, List.drop_length]
    simp only [if_true, hflush, List.length_eq_zero_iff]
    exact ⟨_, rfl, hidle⟩

/-- A fuel that is enough for each call on an input of the given length. -/
def readBlockFuel (windowSize length : Nat) : Nat := length * (windowSize + 3) + windowSize + 3

theorem readBlockFuel_mono (windowSize : Nat) {length length' : Nat} (h : length ≤ length') :
    readBlockFuel windowSize length ≤ readBlockFuel windowSize length' := by
  have hmul := Nat.mul_le_mul_right (windowSize + 3) h
  rw [readBlockFuel, readBlockFuel]
  omega

theorem Idle.scanFuel_lt (h : Idle windowSize mask input c) :
    scanFuel windowSize c < readBlockFuel windowSize input.length := by
  have hle : c.stream.flatten.length ≤ input.length := by
    rw [h.input_eq, List.length_append]
    omega
  have hmul := Nat.mul_le_mul_right (windowSize + 3) hle
  rw [scanFuel, readBlockFuel]
  omega

theorem chopAnchorBasedChopperInit_idle (hpos : 0 < windowSize) (mask : Nat)
    (stream : List Bytes) :
    Idle windowSize mask stream.flatten (chopAnchorBasedChopperInit windowSize mask stream) where
  loaded := slidingWindowInit_loaded hpos
  fields := anchorFieldsInit_ok
  input_eq := rfl
  offset_le := Nat.le_refl _

/-- What successive calls return on an input: its pieces, and then the end of the stream. -/
def blockResults (mask windowSize : Nat) (input : Bytes) (calls : Nat) : List (Status × Bytes) :=
  ((split (isAnchor mask) windowSize input).map fun block => (.ok (), block)).take calls ++
    List.replicate (calls - (split (isAnchor mask) windowSize input).length)
      (.error .streamEnd, [])

private theorem blockResults_succ (hpos : 0 < windowSize) (mask : Nat) (input : Bytes)
    (calls : Nat) :
    blockResults mask windowSize input (calls + 1) =
      (if input = [] then .error .streamEnd else .ok (),
          input.take (cut (isAnchor mask) windowSize input)) ::
        blockResults mask windowSize (input.drop (cut (isAnchor mask) windowSize input)) calls := by
  by_cases hnil : input = []
  · subst hnil
    simp [blockResults, List.replicate_succ]
  · rw [blockResults, split_eq hpos hnil, if_neg hnil, List.map_cons, List.take_succ_cons,
      List.length_cons, Nat.add_sub_add_right, List.cons_append, blockResults]

theorem chopAnchorChopperReadBlocks_spec {fuel : Nat} (calls : Nat)
    (h : Idle windowSize mask input c) (hfuel : readBlockFuel windowSize input.length ≤ fuel) :
    ∃ c', chopAnchorChopperReadBlocks fuel calls c =
      .done (blockResults mask windowSize input calls, c') := by
  induction calls generalizing input c with
  | zero => exact ⟨c, by simp [chopAnchorChopperReadBlocks, blockResults]⟩
  | succ calls ih =>
    obtain ⟨c', hrun, hidle⟩ :=
      chopAnchorChopperReadBlock_spec h (h.scanFuel_lt.trans_le hfuel)
    have hless : readBlockFuel windowSize
        (input.drop (cut (isAnchor mask) windowSize input)).length ≤ fuel := by
      have hle : (input.drop (cut (isAnchor mask) windowSize input)).length ≤ input.length := by
        rw [List.length_drop]
        omega
      exact (readBlockFuel_mono windowSize hle).trans hfuel
    obtain ⟨c'', hrest⟩ := ih hidle hless
    rw [blockResults_succ h.loaded.pos]
    simp only [chopAnchorChopperReadBlocks, hrun, hrest, Outcome.done_bind, Outcome.pure_eq_done]
    exact ⟨c'', rfl⟩

/-- The chopper computes the split of its whole input at the anchor windows, whatever the pieces
the input comes in, and then announces the end of the stream for good. -/
theorem chopAnchorChopperReadBlocks_eq_split {windowSize : Nat} (hpos : 0 < windowSize) (mask : Nat)
    (stream : List Bytes) (calls fuel : Nat)
    (hfuel : readBlockFuel windowSize stream.flatten.length ≤ fuel) :
    (∃ c, chopAnchorChopperReadBlocks fuel calls
        (chopAnchorBasedChopperInit windowSize mask stream) =
      .done (((split (isAnchor mask) windowSize stream.flatten).map
          fun block => (Except.ok (), block)).take calls ++
        List.replicate (calls - (split (isAnchor mask) windowSize stream.flatten).length)
          (.error .streamEnd, []), c)) ∧
      (split (isAnchor mask) windowSize stream.flatten).flatten = stream.flatten ∧
      ∀ block ∈ split (isAnchor mask) windowSize stream.flatten, block ≠ [] :=
  ⟨chopAnchorChopperReadBlocks_spec calls (chopAnchorBasedChopperInit_idle hpos mask stream) hfuel,
    split_flatten hpos _, fun _ hmem => ne_nil_of_mem_split hpos hmem⟩

theorem chopAnchorChopperReadBlocks_eq_split_sample :
    ∃ c, chopAnchorChopperReadBlocks 100 5
        (chopAnchorBasedChopperInit 2 3 [[1, 1, 2], [], [3, 4, 5, 6, 1]]) =
      .done ([(.ok (), [1, 1]), (.ok (), [2, 3, 4, 5, 6, 1]), (.error .streamEnd, []),
        (.error .streamEnd, []), (.error .streamEnd, [])], c) :=
  (chopAnchorChopperReadBlocks_eq_split (show 0 < 2 by decide) 3
    [[1, 1, 2], [], [3, 4, 5, 6, 1]] 5 100 (by decide)).1

end Libchop
