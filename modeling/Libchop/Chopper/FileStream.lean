import Libchop.Chopper.FixedSize

/-!
# File streams

`chop_file_stream_read` turns the number of bytes that `full_read` returns, and `errno`, into an error code.  The
loops of the choppers go on for as long as there is none.
-/

namespace Libchop

/-- `full_read` on a file: the bytes it reads, `errno` after it, and the file after it.  What the operating system
does is arbitrary. -/
structure FullRead (φ : Type) where
  fullRead : φ → Nat → Bytes × Nat × φ

/-- `chop_file_stream_t`, with the open file. -/
structure FileStream (φ : Type) where
  file : φ
  position : Nat

def chopFileStreamRead {φ : Type} (os : FullRead φ) : StreamRead (FileStream φ) := fun stream howmuch =>
  match os.fullRead stream.file howmuch with
  | (bytes, errno, file) =>
    if bytes.length = 0 ∧ errno = 0 then (.error .streamEnd, bytes, { stream with file })
    else (.ok (), bytes, ⟨file, stream.position + bytes.length⟩)

section Loops

variable {σ : Type} (read : StreamRead σ)

/-- `read_sliding_window`: the error code, what is stored, padded with zeros, and its size before that. -/
def readStreamWindow (fuel windowSize : Nat) (stream : σ) : Outcome (Status × Bytes × Nat × σ) :=
  fillBlock read windowSize fuel [] stream >>= fun (err, bytes, stream) =>
    if err ≠ .ok () ∧ err ≠ .error .streamEnd then .done (err, bytes, bytes.length, stream)
    else
      let size := bytes.length
      .done (if err = .error .streamEnd ∧ size > 0 then .ok () else err,
        bytes ++ List.replicate (windowSize - size) 0, size, stream)

/-- The loop of `read_whole_stream`, with what is in the buffer. -/
def readWholeStreamLoop : Nat → Bytes → σ → Outcome (Status × Bytes × σ)
  | 0, _, _ => .outOfFuel
  | fuel + 1, buffer, stream =>
    match read stream 4096 with
    | (err, bytes, stream) =>
      if (err = .ok () ∨ err = .error .streamEnd) ∧ bytes.length > 0 then
        readWholeStreamLoop fuel (buffer ++ bytes) stream
      else
        match err with
        | .ok () => readWholeStreamLoop fuel buffer stream
        | .error err => .done (.error err, buffer, stream)

/-- `read_whole_stream`: the error code, the buffer, of the size that is returned, and the stream. -/
def readWholeStream (fuel : Nat) (stream : σ) : Outcome (Status × Bytes × σ) :=
  readWholeStreamLoop read fuel [] stream >>= fun (err, buffer, stream) =>
    if err = .error .streamEnd then
      if buffer.length = 0 then .done (err, buffer, stream) else .done (.ok (), buffer, stream)
    else .done (err, buffer, stream)

/-- The streams that a number of reads lead to, of any positive sizes. -/
inductive ReadsOn : σ → σ → Prop where
  | refl (stream : σ) : ReadsOn stream stream
  | read {start stream : σ} {size : Nat} (h : ReadsOn start stream) (hsize : 0 < size) :
    ReadsOn start (read stream size).2.2

/-- Every read that succeeds reads something. -/
def Progresses (start : σ) : Prop :=
  ∀ stream, ReadsOn read start stream → ∀ size > 0, (read stream size).1 = .ok () → (read stream size).2.1 ≠ []

/-- Reads of `size` bytes come to one that reads nothing. -/
def ComesToEnd (size : Nat) (stream : σ) : Prop :=
  ∃ count, (read ((fun stream => (read stream size).2.2)^[count] stream) size).2.1 = []

variable {read}

theorem ReadsOn.trans {start stream last : σ} (h : ReadsOn read start stream) (h' : ReadsOn read stream last) :
    ReadsOn read start last := by
  induction h' with
  | refl => exact h
  | read h' hsize ih => exact ih.read hsize

theorem Progresses.of_readsOn {start stream : σ} (h : Progresses read start)
    (hstream : ReadsOn read start stream) : Progresses read stream :=
  fun last hlast => h last (hstream.trans hlast)

/-- A block is filled in as many rounds as there are bytes missing. -/
theorem Progresses.fillBlock {stream : σ} (h : Progresses read stream) (size : Nat) (block : Bytes) :
    ∃ result, Outcome.Settles (fun fuel => fillBlock read size fuel block stream) result := by
  generalize hmissing : size - block.length = missing
  induction missing using Nat.strongRecOn generalizing block stream with
  | ind missing ih =>
    by_cases hroom : block.length < size
    · have hpos : 0 < size - block.length := Nat.sub_pos_of_lt hroom
      have hnext := h.of_readsOn ((ReadsOn.refl stream).read hpos)
      have hbytes := h stream (.refl stream) _ hpos
      rcases hread : read stream (size - block.length) with ⟨err, bytes, after⟩
      rw [hread] at hnext hbytes
      cases err with
      | error err =>
        refine ⟨(.error err, block ++ bytes, after), .of_add 1 fun fuel => ?_⟩
        rw [Libchop.fillBlock, if_pos hroom, hread]
      | ok =>
        have hlength : 0 < bytes.length := List.length_pos_iff.mpr (hbytes rfl)
        have hless : size - (block ++ bytes).length < missing := by
          rw [List.length_append]
          omega
        obtain ⟨result, hrest⟩ := ih _ hless hnext (block ++ bytes) rfl
        refine ⟨result, hrest.succ fun fuel => ?_⟩
        rw [Libchop.fillBlock, if_pos hroom, hread]
    · refine ⟨(.ok (), block, stream), .of_add 1 fun fuel => ?_⟩
      rw [Libchop.fillBlock, if_neg hroom]

/-- A stream that comes to an end is read as a whole. -/
theorem Progresses.readWholeStreamLoop {stream : σ} (h : Progresses read stream)
    (hend : ComesToEnd read 4096 stream) (buffer : Bytes) :
    ∃ result, Outcome.Settles (fun fuel => readWholeStreamLoop read fuel buffer stream) result := by
  obtain ⟨count, hend⟩ := hend
  induction count generalizing buffer stream with
  | zero =>
    rw [Function.iterate_zero, id_eq] at hend
    have hbytes := h stream (.refl stream) 4096 (by decide)
    rcases hread : read stream 4096 with ⟨err, bytes, after⟩
    rw [hread] at hend hbytes
    obtain rfl : bytes = [] := hend
    cases err with
    | ok => exact absurd rfl (hbytes rfl)
    | error err =>
      refine ⟨(.error err, buffer, after), .of_add 1 fun fuel => ?_⟩
      rw [Libchop.readWholeStreamLoop, hread]
      exact if_neg fun hmore => absurd hmore.2 (Nat.lt_irrefl 0)
  | succ count ih =>
    have hnext := h.of_readsOn ((ReadsOn.refl stream).read (by decide : 0 < 4096))
    rw [Function.iterate_succ_apply] at hend
    rcases hread : read stream 4096 with ⟨err, bytes, after⟩
    rw [hread] at hend hnext
    have hbytes := h stream (.refl stream) 4096 (by decide)
    rw [hread] at hbytes
    by_cases hmore : (err = .ok () ∨ err = .error .streamEnd) ∧ bytes.length > 0
    · obtain ⟨result, hrest⟩ := ih hnext (buffer ++ bytes) hend
      refine ⟨result, hrest.succ fun fuel => ?_⟩
      rw [Libchop.readWholeStreamLoop, hread]
      exact if_pos hmore
    · cases err with
      | ok => exact absurd ⟨.inl rfl, List.length_pos_iff.mpr (hbytes rfl)⟩ hmore
      | error err =>
        refine ⟨(.error err, buffer, after), .of_add 1 fun fuel => ?_⟩
        rw [Libchop.readWholeStreamLoop, hread]
        exact if_neg hmore

theorem Progresses.chopFixedChopperReadBlock {stream : σ} (h : Progresses read stream) (blockSize : Nat)
    (pad : Bool) (buffer : Bytes) :
    ∃ result, Outcome.Settles
      (fun fuel => chopFixedChopperReadBlock read fuel (chopFixedSizeChopperInit stream blockSize pad) buffer)
      result := by
  obtain ⟨⟨err, block, after⟩, hfill⟩ := h.fillBlock blockSize []
  by_cases herr : err ≠ .ok () ∧ err ≠ .error .streamEnd
  · exact ⟨_, hfill.bind (.of_eq fun _ => if_pos herr)⟩
  · by_cases hempty : block.length = 0
    · exact ⟨_, hfill.bind (.of_eq fun _ => (if_neg herr).trans (if_pos hempty))⟩
    · exact ⟨_, hfill.bind (.of_eq fun _ => (if_neg herr).trans (if_neg hempty))⟩

theorem Progresses.readStreamWindow {stream : σ} (h : Progresses read stream) (windowSize : Nat) :
    ∃ result, Outcome.Settles (fun fuel => readStreamWindow read fuel windowSize stream) result := by
  obtain ⟨⟨err, bytes, after⟩, hfill⟩ := h.fillBlock windowSize []
  by_cases herr : err ≠ .ok () ∧ err ≠ .error .streamEnd
  · exact ⟨_, hfill.bind (.of_eq fun _ => if_pos herr)⟩
  · exact ⟨_, hfill.bind (.of_eq fun _ => if_neg herr)⟩

theorem Progresses.readWholeStream {stream : σ} (h : Progresses read stream)
    (hend : ComesToEnd read 4096 stream) :
    ∃ result, Outcome.Settles (fun fuel => readWholeStream read fuel stream) result := by
  obtain ⟨⟨err, buffer, after⟩, hloop⟩ := h.readWholeStreamLoop hend []
  by_cases herr : err = .error .streamEnd
  · by_cases hempty : buffer.length = 0
    · exact ⟨_, hloop.bind (.of_eq fun _ => (if_pos herr).trans (if_pos hempty))⟩
    · exact ⟨_, hloop.bind (.of_eq fun _ => (if_pos herr).trans (if_neg hempty))⟩
  · exact ⟨_, hloop.bind (.of_eq fun _ => if_neg herr)⟩

end Loops

section Files

variable {φ : Type} (os : FullRead φ)

def FailsUnread (stream : FileStream φ) (howmuch errno : Nat) : Prop :=
  (os.fullRead stream.file howmuch).1 = [] ∧ (os.fullRead stream.file howmuch).2.1 = errno ∧ errno ≠ 0

/-- From a file stream on, no read succeeds without reading anything, and the loops of the choppers return.  What
makes a read fail is reported by it, and by a loop that begins with it. -/
structure ChoppingEnds (start : FileStream φ) : Prop where
  progresses : Progresses (chopFileStreamRead os) start
  reports : ∀ stream, ReadsOn (chopFileStreamRead os) start stream → ∀ howmuch > 0, ∀ errno,
    FailsUnread os stream howmuch errno → (chopFileStreamRead os stream howmuch).1 = .error (.code errno)
  fixedSize : ∀ stream, ReadsOn (chopFileStreamRead os) start stream → ∀ blockSize > 0, ∀ pad buffer,
    ∃ result, Outcome.Settles (fun fuel => chopFixedChopperReadBlock (chopFileStreamRead os) fuel
        (chopFixedSizeChopperInit stream blockSize pad) buffer) result ∧
      ∀ errno, FailsUnread os stream blockSize errno → result.1 = .error (.code errno)
  anchorBased : ∀ stream, ReadsOn (chopFileStreamRead os) start stream → ∀ windowSize > 0,
    ∃ result,
      Outcome.Settles (fun fuel => readStreamWindow (chopFileStreamRead os) fuel windowSize stream) result ∧
      ∀ errno, FailsUnread os stream windowSize errno → result.1 = .error (.code errno)
  wholeStream : ∀ stream, ReadsOn (chopFileStreamRead os) start stream →
    ComesToEnd (chopFileStreamRead os) 4096 stream →
    ∃ result, Outcome.Settles (fun fuel => readWholeStream (chopFileStreamRead os) fuel stream) result ∧
      ∀ errno, FailsUnread os stream 4096 errno → result.1 = .error (.code errno)

variable {os}

/-- A read succeeds without reading anything just in case it fails before it reads anything. -/
theorem chopFileStreamRead_empty (stream : FileStream φ) (howmuch : Nat) :
    (chopFileStreamRead os stream howmuch).1 = .ok () ∧ (chopFileStreamRead os stream howmuch).2.1 = [] ↔
      ∃ errno, FailsUnread os stream howmuch errno := by
  rcases hread : os.fullRead stream.file howmuch with ⟨bytes, errno, file⟩
  simp only [chopFileStreamRead, FailsUnread, hread]
  by_cases hend : bytes.length = 0 ∧ errno = 0
  · simp only [if_pos hend]
    simp [hend.2]
  · simp only [if_neg hend]
    constructor
    · rintro ⟨_, rfl⟩
      exact ⟨errno, rfl, rfl, fun herrno => hend ⟨rfl, herrno⟩⟩
    · rintro ⟨_, hbytes, _⟩
      exact ⟨trivial, hbytes⟩

theorem progresses_iff {start : FileStream φ} :
    Progresses (chopFileStreamRead os) start ↔
      ∀ stream, ReadsOn (chopFileStreamRead os) start stream → ∀ howmuch > 0, ∀ errno,
        ¬ FailsUnread os stream howmuch errno := by
  constructor
  · intro h stream hstream howmuch hpos errno hfails
    obtain ⟨hok, hbytes⟩ := (chopFileStreamRead_empty stream howmuch).mpr ⟨errno, hfails⟩
    exact h stream hstream howmuch hpos hok hbytes
  · intro h stream hstream howmuch hpos hok hbytes
    obtain ⟨errno, hfails⟩ := (chopFileStreamRead_empty stream howmuch).mp ⟨hok, hbytes⟩
    exact h stream hstream howmuch hpos errno hfails

def sampleFile : FullRead Bytes where
  fullRead file howmuch := (file.take howmuch, 0, file.drop howmuch)

def brokenFile : FullRead Unit where
  fullRead _ _ := ([], 5, ())

private theorem fillBlock_brokenFile (fuel size : Nat) (hpos : 0 < size) (stream : FileStream Unit) :
    fillBlock (chopFileStreamRead brokenFile) size fuel [] stream = .outOfFuel := by
  -- On a file that cannot be read, a block is filled for ever.
  induction fuel generalizing stream with
  | zero => rfl
  | succ fuel ih =>
    have hroom : ([] : Bytes).length < size := hpos
    rw [fillBlock, if_pos hroom]
    exact ih _

end Files

end Libchop
