import Libchop.Filter.LzoObject

/-!
# The sizes of the buffers of LZO filters

Pulls, whatever their fault handlers do, leave sizes that are right as they should be.  They do not give a size to a
buffer that is recorded to be empty either.
-/

namespace Libchop

/-- `lzo1x_decompress_safe` does not write behind the end of the output buffer. -/
def LzoLibrary.WritesWithin (library : LzoLibrary) : Prop :=
  ∀ {data out : Bytes} {room : Nat}, library.lzo1xDecompressSafe data room = .ok out ∨
    library.lzo1xDecompressSafe data room = .error out → out.length ≤ room

namespace LzoObject

variable {library : LzoLibrary} {S : Type} {handle : FaultHandler LzoObject S} {filter filter' : LzoObject}
  {source source' : S}

/-- The sizes are those of the buffers. -/
structure Described (filter : LzoObject) : Prop where
  inputBufferSize_eq : filter.inputBufferSize = filter.inputBuffer.length
  outputBufferSize_eq : filter.outputBufferSize = filter.outputBuffer.length

/-- The input lies in its buffer as well. -/
structure Sound (filter : LzoObject) : Prop extends Described filter where
  input_le : filter.inputOffset + filter.availIn ≤ filter.inputBufferSize
  outputBuffer_ne : filter.outputBuffer ≠ []

/-- What a fault that was handled leaves. -/
structure Emptied (filter : LzoObject) : Prop where
  outputBufferSize_eq : filter.outputBufferSize = 0
  outputBuffer_ne : filter.outputBuffer ≠ []

theorem Emptied.not_described (h : filter.Emptied) : ¬ filter.Described := by
  intro hdescribed
  have hzero := hdescribed.outputBufferSize_eq.symm.trans h.outputBufferSize_eq
  exact h.outputBuffer_ne (List.length_eq_zero_iff.mp hzero)

/-- What the steps of a pull keep, those of its fault handler apart. -/
structure StepsKeep (library : LzoLibrary) (P : LzoObject → Prop) : Prop where
  drain : ∀ {filter : LzoObject} (amount : Nat), P filter → P { filter with toLzoFilter := filter.drain amount }
  compress : ∀ {filter filter' err}, P filter → compress library filter = .done (err, filter') → P filter'
  skipHeader : ∀ {filter filter' fuel in32 out32}, P filter → ¬ filter.availIn < 8 →
    skipHeader fuel filter in32 out32 = .done filter' → P filter'
  decompress : ∀ {filter filter' in32 out32 err}, P filter →
    decompress library filter in32 out32 = .done (err, filter') → P filter'

section Pull

variable {P : LzoObject → Prop}

theorem zipPullLoop_keeps (hsteps : StepsKeep library P) (hhandle : HandlerKeeps handle P) {flush : Bool}
    {fuel size : Nat} {s s' : LzoObject × S} {pulled out : Bytes} {err : FilterStatus} (hfilter : P s.1)
    (h : zipPullLoop library handle flush fuel s size pulled = .done (err, out, s')) : P s'.1 := by
  induction fuel generalizing s size pulled with
  | zero => cases h
  | succ fuel ih =>
    obtain ⟨filter, source⟩ := s
    rw [zipPullLoop] at h
    split at h
    case isFalse =>
      cases h
      exact hfilter
    split at h
    · exact ih (hsteps.drain _ hfilter) h
    split at h
    · obtain ⟨⟨err', filter', source'⟩, hdone, h⟩ := Outcome.bind_eq_done.mp h
      have hfilter' := hhandle.keeps hfilter hdone
      cases err' with
      | ok _ => exact ih hfilter' h
      | error err' =>
        cases err' with
        | unhandledFault | empty | error | full | other err' =>
          cases h
          exact hfilter'
    split at h
    · obtain ⟨⟨err', filter'⟩, hdone, h⟩ := Outcome.bind_eq_done.mp h
      have hfilter' := hsteps.compress hfilter hdone
      cases err' with
      | ok _ => exact ih hfilter' h
      | error err' =>
        cases h
        exact hfilter'
    · cases h
      exact hfilter

theorem fetchPortion_keeps (hhandle : HandlerKeeps handle P) {fuel in32 : Nat} {err : FilterStatus}
    (hfilter : P filter) (h : fetchPortion handle fuel in32 filter source = .done (err, filter', source')) :
    P filter' := by
  rw [fetchPortion] at h
  split at h
  · exact hhandle.keeps hfilter h
  · cases h
    exact hfilter

theorem unzipPullLoop_keeps (hsteps : StepsKeep library P) (hhandle : HandlerKeeps handle P) {flush : Bool}
    {fuel size : Nat} {s s' : LzoObject × S} {pulled out : Bytes} {err : FilterStatus} (hfilter : P s.1)
    (h : unzipPullLoop library handle flush fuel s size pulled = .done (err, out, s')) : P s'.1 := by
  induction fuel generalizing s size pulled with
  | zero => cases h
  | succ fuel ih =>
    obtain ⟨filter, source⟩ := s
    rw [unzipPullLoop] at h
    split at h
    case isFalse =>
      cases h
      exact hfilter
    split at h
    · exact ih (hsteps.drain _ hfilter) h
    split at h
    · cases h
      exact hfilter
    split at h
    · obtain ⟨⟨err', filter', source'⟩, hdone, h⟩ := Outcome.bind_eq_done.mp h
      have hfilter' := hhandle.keeps hfilter hdone
      cases err' with
      | ok _ => exact ih hfilter' h
      | error err' =>
        cases h
        exact hfilter'
    · next hmany =>
      dsimp only at h
      obtain ⟨skipped, hskip, h⟩ := Outcome.bind_eq_done.mp h
      have hskipped := hsteps.skipHeader hfilter hmany hskip
      obtain ⟨⟨err', filter', source'⟩, hfetch, h⟩ := Outcome.bind_eq_done.mp h
      have hfilter' := fetchPortion_keeps hhandle hskipped hfetch
      cases err' with
      | error err' =>
        cases h
        exact hfilter'
      | ok _ =>
        obtain ⟨⟨err'', filter''⟩, hdone, h⟩ := Outcome.bind_eq_done.mp h
        have hfilter'' := hsteps.decompress hfilter' hdone
        cases err'' with
        | ok _ => exact ih hfilter'' h
        | error err'' =>
          cases h
          exact hfilter''

theorem pull_keeps (hsteps : StepsKeep library P) (direction : ZipDirection) (hhandle : HandlerKeeps handle P)
    {flush : Bool} {fuel size : Nat} {s s' : LzoObject × S} {out : Bytes} {err : FilterStatus} (hfilter : P s.1)
    (h : pull library direction handle fuel flush size s = .done (err, out, s')) : P s'.1 := by
  cases direction with
  | zip => exact zipPullLoop_keeps hsteps hhandle hfilter h
  | unzip => exact unzipPullLoop_keeps hsteps hhandle hfilter h

/-- What pushes and the steps of pulls keep is kept by a handler that calls the methods. -/
theorem handler_keeps (hsteps : StepsKeep library P) (direction : ZipDirection)
    (hpush : PushKeeps (methods library direction) P) (program : Nat → S → HandlerProgram S) :
    HandlerKeeps (HandlerProgram.handler (methods library direction) program) P :=
  have hpull : PullKeeps (methods library direction) P :=
    ⟨fun hfilter hdone => pull_keeps hsteps direction (unhandled_keeps P) hfilter hdone⟩
  HandlerProgram.handler_keeps hpush (.inr hpull)

end Pull

section Grow

theorem growSize_ne_zero {needed fuel size newSize : Nat} (h : growSize needed fuel size = .done newSize)
    (hneeded : 0 < needed) : 0 < size := by
  induction fuel generalizing size with
  | zero => cases h
  | succ fuel ih =>
    simp only [growSize, Nat.shiftLeft_eq, pow_one] at h
    split at h
    · have hpos := ih h
      omega
    · omega

theorem le_growSize {needed fuel size newSize : Nat} (h : growSize needed fuel size = .done newSize) :
    size ≤ newSize := by
  induction fuel generalizing size with
  | zero => cases h
  | succ fuel ih =>
    simp only [growSize, Nat.shiftLeft_eq, pow_one] at h
    split at h
    · have hle := ih h
      omega
    · cases h
      omega

/-- A buffer that is grown has the size it is said to have. -/
theorem ensureLargeEnough_size {fuel bufferSize bufferSize' needed : Nat} {buffer buffer' : Bytes}
    (hsize : bufferSize = buffer.length)
    (h : ensureLargeEnough fuel buffer bufferSize needed = .done (buffer', bufferSize')) :
    bufferSize' = buffer'.length ∧ bufferSize ≤ bufferSize' := by
  rw [ensureLargeEnough] at h
  split at h
  · obtain ⟨newSize, hgrow, h⟩ := Outcome.bind_eq_done.mp h
    have hle := le_growSize hgrow
    cases h
    rw [List.length_append, List.length_take, List.length_replicate]
    omega
  · cases h
    exact ⟨hsize, Nat.le_refl _⟩

/-- A buffer of no size is not grown to any. -/
theorem ensureLargeEnough_zero {fuel bufferSize' needed : Nat} {buffer buffer' : Bytes}
    (h : ensureLargeEnough fuel buffer 0 needed = .done (buffer', bufferSize')) :
    buffer' = buffer ∧ bufferSize' = 0 := by
  rw [ensureLargeEnough] at h
  split at h
  · next hneeded =>
    obtain ⟨newSize, hgrow, -⟩ := Outcome.bind_eq_done.mp h
    exact absurd (growSize_ne_zero hgrow hneeded) (Nat.lt_irrefl 0)
  · cases h
    exact ⟨rfl, rfl⟩

end Grow

section Steps

/-- The input is used up or stays, and the output has a header. -/
theorem compress_done {err : FilterStatus} (h : compress library filter = .done (err, filter')) :
    8 ≤ filter.outputBufferSize ∧ filter'.outputBufferSize = filter.outputBufferSize ∧
      filter'.outputBuffer.length = filter.outputBuffer.length ∧ filter'.inputBufferSize = filter.inputBufferSize ∧
      filter'.inputBuffer = filter.inputBuffer ∧ filter'.inputOffset = filter.inputOffset ∧
      filter'.availIn ≤ filter.availIn := by
  obtain ⟨_, hassert, h⟩ := Outcome.bind_eq_done.mp h
  have hroom := Outcome.of_assert hassert
  obtain ⟨⟨err', state⟩, hcompress, h⟩ := Outcome.bind_eq_done.mp h
  obtain ⟨_, hassert, hcompress⟩ := Outcome.bind_eq_done.mp hcompress
  have hfits := Outcome.of_assert hassert
  cases h
  refine ⟨by omega, rfl, ?_, rfl, ?_⟩
  · split at hcompress
    · cases hcompress
      simp only [List.length_append, List.length_take, List.length_drop]
      omega
    · cases hcompress
      simp only [List.length_append, List.length_drop, ByteOrder.length_storeBe]
      omega
  · split at hcompress
    · cases hcompress
      exact ⟨rfl, rfl, Nat.le_refl _⟩
    · cases hcompress
      exact ⟨rfl, rfl, Nat.zero_le _⟩

/-- The same for a portion, whose output has the size that its header promises or is in error. -/
theorem decompress_done (hlibrary : library.WritesWithin) {in32 out32 : Nat} {err : FilterStatus}
    (h : decompress library filter in32 out32 = .done (err, filter')) :
    filter'.outputBufferSize = filter.outputBufferSize ∧ filter'.inputBufferSize = filter.inputBufferSize ∧
      filter'.inputBuffer = filter.inputBuffer ∧
      filter'.inputOffset + filter'.availIn ≤ filter.inputOffset + filter.availIn ∧
      (filter.outputBufferSize ≤ filter.outputBuffer.length →
        filter'.outputBuffer.length = filter.outputBuffer.length) := by
  rw [decompress] at h
  split at h
  · cases h
    exact ⟨rfl, rfl, rfl, Nat.le_refl _, fun _ => rfl⟩
  dsimp only at h
  split at h
  · next out hdata =>
    have hroom := hlibrary (.inr hdata)
    cases h
    refine ⟨rfl, rfl, rfl, Nat.le_refl _, fun hle => ?_⟩
    simp only [List.length_append, List.length_drop]
    omega
  · next out hdata =>
    have hroom := hlibrary (.inl hdata)
    obtain ⟨_, _, h⟩ := Outcome.bind_eq_done.mp h
    cases h
    refine ⟨rfl, rfl, rfl, Nat.zero_le _, fun hle => ?_⟩
    simp only [List.length_append, List.length_drop]
    omega

theorem sound_steps (hlibrary : library.WritesWithin) : StepsKeep library Sound where
  drain _ h := ⟨⟨h.inputBufferSize_eq, h.outputBufferSize_eq⟩, h.input_le, h.outputBuffer_ne⟩
  compress {filter filter' err} h hdone := by
    obtain ⟨-, hsize, hlength, hsize', hinput, hoffset, havail⟩ := compress_done hdone
    have hle := h.input_le
    refine ⟨⟨?_, ?_⟩, by omega, ?_⟩
    · rw [hsize', hinput, h.inputBufferSize_eq]
    · rw [hsize, hlength, h.outputBufferSize_eq]
    · exact List.ne_nil_of_length_pos (hlength ▸ List.length_pos_iff.mpr h.outputBuffer_ne)
  skipHeader {filter filter' fuel in32 out32} h hmany hdone := by
    obtain ⟨⟨inputBuffer, inputBufferSize⟩, hinput, hdone⟩ := Outcome.bind_eq_done.mp hdone
    obtain ⟨⟨outputBuffer, outputBufferSize⟩, houtput, hdone⟩ := Outcome.bind_eq_done.mp hdone
    obtain ⟨hinputSize, hinputLe⟩ := ensureLargeEnough_size h.inputBufferSize_eq hinput
    obtain ⟨houtputSize, houtputLe⟩ := ensureLargeEnough_size h.outputBufferSize_eq houtput
    have hle := h.input_le
    have hpos := List.length_pos_iff.mpr h.outputBuffer_ne
    have hsize := h.outputBufferSize_eq
    cases hdone
    refine ⟨⟨hinputSize, houtputSize⟩, ?_, ?_⟩
    · dsimp only
      omega
    · refine List.ne_nil_of_length_pos ?_
      dsimp only
      omega
  decompress {filter filter' in32 out32 err} h hdone := by
    obtain ⟨hsize, hsize', hinput, havail, hlength⟩ := decompress_done hlibrary hdone
    have hlength := hlength (Nat.le_of_eq h.outputBufferSize_eq)
    have hle := h.input_le
    refine ⟨⟨?_, ?_⟩, by omega, ?_⟩
    · rw [hsize', hinput, h.inputBufferSize_eq]
    · rw [hsize, hlength, h.outputBufferSize_eq]
    · exact List.ne_nil_of_length_pos (hlength ▸ List.length_pos_iff.mpr h.outputBuffer_ne)

/-- Without a size, nothing can be compressed, and no space is found for a portion. -/
theorem emptied_steps (hlibrary : library.WritesWithin) : StepsKeep library Emptied where
  drain _ h := ⟨h.outputBufferSize_eq, h.outputBuffer_ne⟩
  compress {filter filter' err} h hdone := by
    have hroom := (compress_done hdone).1
    rw [h.outputBufferSize_eq] at hroom
    cases hroom
  skipHeader {filter filter' fuel in32 out32} h _ hdone := by
    obtain ⟨_, _, hdone⟩ := Outcome.bind_eq_done.mp hdone
    obtain ⟨⟨outputBuffer, outputBufferSize⟩, houtput, hdone⟩ := Outcome.bind_eq_done.mp hdone
    rw [h.outputBufferSize_eq] at houtput
    obtain ⟨rfl, rfl⟩ := ensureLargeEnough_zero houtput
    cases hdone
    exact ⟨rfl, h.outputBuffer_ne⟩
  decompress {filter filter' in32 out32 err} h hdone := by
    obtain ⟨hsize, -, -, -, hlength⟩ := decompress_done hlibrary hdone
    have hzero := h.outputBufferSize_eq
    have hlength := hlength (hzero ▸ Nat.zero_le _)
    exact ⟨hsize.trans hzero,
      List.ne_nil_of_length_pos (hlength ▸ List.length_pos_iff.mpr h.outputBuffer_ne)⟩

end Steps

end LzoObject

end Libchop
