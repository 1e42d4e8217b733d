import Libchop.Filter.LzoZipContract

/-!
# What the unzip filter of LZO delivers

Each portion is fetched with one call of the handler for its header and one for its data, and nothing is
kept of the input between two portions.  The header is taken from the size of the pull, which must be
large enough for it.
-/

namespace Libchop

/-- A handler that pushes as much as it is asked for, if its source has so much left. -/
structure FeedsWhole {F S : Type} (handle : FaultHandler F S) (push : PushMethod F)
    (rest : S → Bytes) : Prop where
  unhandled : ∀ {source}, rest source = [] → ∃ source', rest source' = [] ∧
    ∀ fuel amount filter,
      handle fuel amount filter source = .done (.error .unhandledFault, filter, source')
  handled : ∀ {source amount}, rest source ≠ [] → 0 < amount →
    ∃ source', rest source' = (rest source).drop amount ∧
      ∀ fuel filter filter', push fuel filter ((rest source).take amount) =
          .done (.ok (), ((rest source).take amount).length, filter') →
        handle fuel amount filter source = .done (.ok (), filter', source')

theorem handleInputFaultFromBuffer_feedsWhole {F : Type} (push : PushMethod F) :
    FeedsWhole (handleInputFaultFromBuffer push) push id where
  unhandled := (handleInputFaultFromBuffer_feeds push).unhandled
  handled := by
    intro source amount hrest hamount
    rw [id] at hrest
    refine ⟨source.drop amount, rfl, ?_⟩
    intro fuel filter filter' hpush
    have hdrop : source.drop (source.take amount).length = source.drop amount := by
      rw [List.length_take, List.drop_eq_drop_iff]
      omega
    rw [id] at hpush
    simp only [handleInputFaultFromBuffer, if_neg hrest, hpush, Outcome.done_bind, hdrop]

namespace LzoFilter

theorem le_growSize (needed fuel size : Nat) : size ≤ growSize needed fuel size := by
  induction fuel generalizing size with
  | zero => exact Nat.le_refl size
  | succ fuel ih =>
    rw [growSize]
    split
    · refine Nat.le_trans ?_ (ih (size <<< 1))
      rw [Nat.shiftLeft_eq]
      omega
    · exact Nat.le_refl size

/-- Doubling the size as often as bytes are needed is enough. -/
theorem growSize_large (needed : Nat) {fuel size : Nat} (hpos : 0 < size)
    (h : needed ≤ size + fuel) : needed ≤ growSize needed fuel size := by
  induction fuel generalizing size with
  | zero => exact h
  | succ fuel ih =>
    rw [growSize]
    split
    · have hdouble : size <<< 1 = size + size := by
        rw [Nat.shiftLeft_eq]
        omega
      rw [hdouble]
      exact ih (by omega) (by omega)
    · next hlarge => exact Nat.le_of_not_lt hlarge

theorem length_ensureLargeEnough {buffer : Bytes} (hpos : 0 < buffer.length) (needed : Nat) :
    needed ≤ (ensureLargeEnough buffer needed).length ∧
      buffer.length ≤ (ensureLargeEnough buffer needed).length := by
  have hgrow := le_growSize needed needed buffer.length
  have hlarge := growSize_large needed hpos (Nat.le_add_left needed buffer.length)
  rw [ensureLargeEnough, List.length_append, List.length_replicate]
  omega

section Unzip

variable (library : LzoLibrary)

/-- What the library decompresses it decompresses to any buffer that is large enough for it. -/
def Decompresses : Prop :=
  ∀ data room out, library.lzo1xDecompressSafe data room = .ok out →
    out.length ≤ room ∧
      ∀ room', out.length ≤ room' → library.lzo1xDecompressSafe data room' = .ok out

/-- The portions of an input that is accepted, decompressed. -/
def unzipPortions (input : Bytes) : Option (List Bytes) :=
  if input = [] then some []
  else
    let in32 := ByteOrder.loadBe input
    let out32 := ByteOrder.loadBe (input.drop 4)
    if input.length < 8 + in32 then none
    else
      match library.lzo1xDecompressSafe ((input.drop 8).take in32) out32 with
      | .error _ => none
      | .ok out =>
        if out.length = out32 then (unzipPortions (input.drop (8 + in32))).map (out :: ·) else none
termination_by input.length
decreasing_by
  rw [List.length_drop]
  omega

variable {library}

theorem unzipPortions_nil : unzipPortions library [] = some [] := by
  rw [unzipPortions, if_pos rfl]

/-- The first portion of an input. -/
theorem unzipPortions_eq_some {input : Bytes} {portions : List Bytes} (hinput : input ≠ [])
    (h : unzipPortions library input = some portions) :
    ∃ out portions', 8 + ByteOrder.loadBe input ≤ input.length ∧
      library.lzo1xDecompressSafe ((input.drop 8).take (ByteOrder.loadBe input))
        (ByteOrder.loadBe (input.drop 4)) = .ok out ∧
      out.length = ByteOrder.loadBe (input.drop 4) ∧
      unzipPortions library (input.drop (8 + ByteOrder.loadBe input)) = some portions' ∧
      portions = out :: portions' := by
  rw [unzipPortions, if_neg hinput] at h
  dsimp only at h
  split at h
  · cases h
  · next hlength =>
    split at h
    · cases h
    · next out hout =>
      split at h
      · next hsize =>
        obtain ⟨portions', hportions', rfl⟩ := Option.map_eq_some_iff.mp h
        exact ⟨out, portions', Nat.le_of_not_lt hlength, hout, hsize, hportions', rfl⟩
      · cases h

theorem unzipPortions_cons {input out : Bytes} {portions : List Bytes} (hinput : input ≠ [])
    (hlength : 8 + ByteOrder.loadBe input ≤ input.length)
    (hout : library.lzo1xDecompressSafe ((input.drop 8).take (ByteOrder.loadBe input))
      (ByteOrder.loadBe (input.drop 4)) = .ok out)
    (hsize : out.length = ByteOrder.loadBe (input.drop 4))
    (h : unzipPortions library (input.drop (8 + ByteOrder.loadBe input)) = some portions) :
    unzipPortions library input = some (out :: portions) := by
  rw [unzipPortions, if_neg hinput]
  simp only [if_neg (Nat.not_lt_of_le hlength), hout, if_pos hsize, h, Option.map_some]

/-- Each header that a pull comes to finds eight bytes of the size left.  `avail` bytes are in the output
buffer, and the next portions have these sizes. -/
def HeadersFit : List Nat → Nat → Nat → Nat → Prop
  | [], _, _, _ => True
  | portion :: portions, pulled, size, avail =>
    pulled + avail + avail < size →
      8 ≤ size - avail ∧ HeadersFit portions (pulled + avail) (size - avail - 8) portion

theorem HeadersFit.drain {portions : List Nat} {pulled size avail amount : Nat}
    (h : HeadersFit portions pulled size avail) (hamount : amount = min avail size) :
    HeadersFit portions (pulled + amount) (size - amount) (avail - amount) := by
  cases portions with
  | nil => trivial
  | cons portion portions =>
    intro hroom
    have hall : amount = avail := by omega
    subst hall
    have hfits := h (by omega)
    rw [Nat.sub_self, Nat.sub_zero, Nat.add_zero]
    exact hfits

/-- What a pull leaves of the portions, whose sizes are given, and of the output in the buffer. -/
def pullLeaves : List Nat → Nat → Nat → Nat → List Nat × Nat
  | [], pulled, size, avail => ([], if pulled < size then avail - size else avail)
  | portion :: portions, pulled, size, avail =>
    if pulled + avail + avail < size then
      pullLeaves portions (pulled + avail) (size - avail - 8) portion
    else (portion :: portions, if pulled < size then avail - size else avail)

theorem pullLeaves_drain {portions : List Nat} {pulled size avail amount : Nat}
    (hroom : pulled < size) (hamount : amount = min avail size) :
    pullLeaves portions (pulled + amount) (size - amount) (avail - amount) =
      pullLeaves portions pulled size avail := by
  cases portions with
  | nil =>
    rw [pullLeaves, pullLeaves, if_pos hroom]
    congr 1
    split <;> omega
  | cons portion portions =>
    rw [pullLeaves, pullLeaves]
    by_cases hall : pulled + avail + avail < size
    · have hdrained : amount = avail := by omega
      subst hdrained
      rw [if_pos hall, if_pos (by omega), Nat.sub_self, Nat.add_zero, Nat.sub_zero]
    · rw [if_neg hall, if_neg (by omega), if_pos hroom]
      congr 1
      split <;> omega

theorem pullLeaves_of_full {portions : List Nat} {pulled size avail : Nat} (hfull : ¬ pulled < size) :
    pullLeaves portions pulled size avail = (portions, avail) := by
  cases portions with
  | nil => rw [pullLeaves, if_neg hfull]
  | cons portion portions => rw [pullLeaves, if_neg (by omega), if_neg hfull]

/-- A pull leaves portions that it found. -/
theorem pullLeaves_suffix (portions : List Nat) (pulled size avail : Nat) :
    (pullLeaves portions pulled size avail).1 <:+ portions := by
  induction portions generalizing pulled size avail with
  | nil => exact List.suffix_refl []
  | cons portion portions ih =>
    rw [pullLeaves]
    split
    · exact (ih _ _ _).trans (List.suffix_cons portion portions)
    · exact List.suffix_refl _

/-- Each pull of `chop_filter_through` finds room for the headers it comes to. -/
def ThroughFits (portions : List Nat) (avail : Nat) : Prop :=
  ∀ pulls, let left := (fun left => pullLeaves left.1 0 throughBlockSize left.2)^[pulls] (portions, avail)
    HeadersFit left.1 0 throughBlockSize left.2

theorem throughFits_iff {portions : List Nat} {avail : Nat} :
    ThroughFits portions avail ↔ HeadersFit portions 0 throughBlockSize avail ∧
      ThroughFits (pullLeaves portions 0 throughBlockSize avail).1
        (pullLeaves portions 0 throughBlockSize avail).2 := by
  constructor
  · intro h
    refine ⟨h 0, fun pulls => ?_⟩
    have hnext := h (pulls + 1)
    rw [Function.iterate_succ_apply] at hnext
    exact hnext
  · rintro ⟨hfirst, hrest⟩ pulls
    cases pulls with
    | zero => exact hfirst
    | succ pulls =>
      rw [Function.iterate_succ_apply]
      exact hrest pulls

theorem ThroughFits.nil (avail : Nat) : ThroughFits [] avail := by
  intro pulls
  induction pulls generalizing avail with
  | zero => trivial
  | succ pulls ih =>
    rw [Function.iterate_succ_apply]
    exact ih _

/-- Without empty portions, 62 bytes are enough. -/
theorem HeadersFit.of_nonempty {portions : List Nat} (hpos : ∀ portion ∈ portions, 0 < portion)
    {pulled size avail : Nat} (h : 62 ≤ size + 9 * pulled + 8 * avail) :
    HeadersFit portions pulled size avail := by
  induction portions generalizing pulled size avail with
  | nil => trivial
  | cons portion portions ih =>
    intro hroom
    have hportion := hpos portion (List.mem_cons_self ..)
    refine ⟨by omega, ih (fun other hother => hpos other (List.mem_cons_of_mem _ hother)) ?_⟩
    omega

theorem ThroughFits.of_nonempty {portions : List Nat} (hpos : ∀ portion ∈ portions, 0 < portion)
    (avail : Nat) : ThroughFits portions avail := by
  intro pulls
  induction pulls generalizing portions avail with
  | zero => exact HeadersFit.of_nonempty hpos (by unfold throughBlockSize; omega)
  | succ pulls ih =>
    rw [Function.iterate_succ_apply]
    apply ih
    intro portion hmem
    exact hpos portion ((pullLeaves_suffix portions 0 throughBlockSize avail).subset hmem)

structure UnzipReady (filter : LzoFilter) : Prop extends OutputFits filter where
  input_large : 8 ≤ filter.inputBuffer.length
  inputOffset_eq : filter.inputOffset = 0
  availIn_eq : filter.availIn = 0
  output_pos : 0 < filter.outputBuffer.length

variable {filter : LzoFilter}

theorem UnzipReady.drain (h : UnzipReady filter) {amount : Nat} (hle : amount ≤ filter.availOut) :
    UnzipReady (filter.drain amount) where
  toOutputFits := (h.toOutputFits.drain hle).1
  input_large := h.input_large
  inputOffset_eq := h.inputOffset_eq
  availIn_eq := h.availIn_eq
  output_pos := h.output_pos

/-- The filter with a header at the beginning of its input buffer. -/
theorem UnzipReady.receive_header (h : UnzipReady filter) (hempty : filter.availOut = 0)
    {header : Bytes} (hheader : header.length = 8) :
    Outcome.Settles (fun fuel => push fuel filter header)
        (.ok (), header.length, filter.receive 0 header) ∧
      (filter.receive 0 header).inputBuffer = header ++ filter.inputBuffer.drop 8 ∧
      (filter.receive 0 header).availIn = 8 := by
  have hlarge := h.input_large
  have hsome : header ≠ [] := by
    rintro rfl
    cases hheader
  have hpush := push_eq hempty hsome (by rw [h.inputOffset_eq, h.availIn_eq, hheader]; exact hlarge)
  rw [h.inputOffset_eq, h.availIn_eq] at hpush
  refine ⟨hpush, ?_, ?_⟩
  · simp only [LzoFilter.receive, List.take_zero, List.nil_append, hheader, Nat.zero_add]
  · simp only [LzoFilter.receive, h.availIn_eq, hheader, Nat.zero_add]

/-- The filter with a header that was read. -/
structure HeaderRead (filter : LzoFilter) (in32 out32 : Nat) : Prop where
  inputOffset_eq : filter.inputOffset = 8
  availIn_eq : filter.availIn = 0
  input_large : 8 + in32 ≤ filter.inputBuffer.length
  availOut_eq : filter.availOut = 0
  output_large : out32 ≤ filter.outputBuffer.length
  output_pos : 0 < filter.outputBuffer.length

theorem HeaderRead.of_skipHeader (hinput : 0 < filter.inputBuffer.length)
    (hinputOffset : filter.inputOffset = 0) (havail : filter.availIn = 8)
    (hempty : filter.availOut = 0) (houtputOffset : filter.outputOffset = 0)
    (houtput : 0 < filter.outputBuffer.length) (in32 out32 : Nat) :
    HeaderRead (filter.skipHeader in32 out32) in32 out32 := by
  have hinputs := length_ensureLargeEnough hinput (in32 + (0 + 8))
  have houtputs := length_ensureLargeEnough houtput (out32 + 0)
  refine ⟨?_, ?_, ?_, hempty, ?_, ?_⟩
  · simp only [LzoFilter.skipHeader, hinputOffset]
  · simp only [LzoFilter.skipHeader, havail, Nat.sub_self]
  · simp only [LzoFilter.skipHeader, hinputOffset]
    omega
  · simp only [LzoFilter.skipHeader, houtputOffset]
    omega
  · simp only [LzoFilter.skipHeader, houtputOffset]
    omega

/-- The data of a portion is fetched. -/
theorem HeaderRead.receive {in32 out32 : Nat} (h : HeaderRead filter in32 out32) {data : Bytes}
    (hdata : data ≠ []) (hlength : data.length = in32) :
    Outcome.Settles (fun fuel => push fuel filter data) (.ok (), data.length, filter.receive 8 data) := by
  have hlarge := h.input_large
  have hpush := push_eq h.availOut_eq hdata
    (by rw [h.inputOffset_eq, h.availIn_eq, hlength]; exact hlarge)
  rw [h.inputOffset_eq, h.availIn_eq] at hpush
  exact hpush

/-- The data of a portion is found where it was put. -/
theorem HeaderRead.data_eq {in32 out32 : Nat} (h : HeaderRead filter in32 out32) {data : Bytes}
    (hlength : data.length = in32) :
    (filter.receive 8 data).availIn = in32 ∧
      ((filter.receive 8 data).inputBuffer.drop (filter.receive 8 data).inputOffset).take in32 =
        data := by
  have hinput := h.input_large
  constructor
  · simp only [LzoFilter.receive, h.availIn_eq, hlength, Nat.zero_add]
  · have hoffset : (filter.receive 8 data).inputOffset = (filter.inputBuffer.take 8).length := by
      rw [List.length_take]
      change filter.inputOffset = _
      rw [h.inputOffset_eq]
      omega
    rw [hoffset]
    simp only [LzoFilter.receive, List.append_assoc, List.drop_left]
    rw [← hlength, List.take_left]

/-- The data of a portion is decompressed. -/
theorem HeaderRead.decompress (hlibrary : Decompresses library) {in32 out32 : Nat}
    (h : HeaderRead filter in32 out32) {data out : Bytes} (hlength : data.length = in32)
    (hout : library.lzo1xDecompressSafe data out32 = .ok out) (hsize : out.length = out32) :
    ∃ filter', LzoFilter.decompress library (filter.receive 8 data) in32 out32 =
        .done (.ok (), filter') ∧ UnzipReady filter' ∧ filter'.pendingOutput = out ∧
      filter'.availOut = out32 := by
  have hinput := h.input_large
  have hlarge := h.output_large
  have hpos := h.output_pos
  obtain ⟨havail, hdata⟩ := h.data_eq hlength
  have hmore := (hlibrary data out32 out hout).2 filter.outputBuffer.length (by omega)
  let filter' : LzoFilter := { filter.receive 8 data with
    outputBuffer := out ++ filter.outputBuffer.drop out.length
    availOut := out.length
    availIn := 0
    outputOffset := 0
    inputOffset := 0 }
  have hbuffer : filter'.outputBuffer.length = filter.outputBuffer.length := by
    simp only [filter', List.length_append, List.length_drop]
    omega
  refine ⟨filter', ?_, ⟨⟨?_, fun _ => rfl⟩, ?_, rfl, rfl, ?_⟩, ?_, hsize⟩
  · have hroom : (filter.receive 8 data).outputBuffer = filter.outputBuffer := rfl
    rw [LzoFilter.decompress, if_neg (by rw [havail]; exact Nat.lt_irrefl in32)]
    simp only [hdata, hroom, hmore, Outcome.assert_of hsize, Outcome.done_bind]
    rfl
  · rw [hbuffer]
    change 0 + out.length ≤ _
    omega
  · simp only [filter', LzoFilter.receive, List.length_append, List.length_take, List.length_drop]
    omega
  · rw [hbuffer]
    exact hpos
  · simp only [pendingOutput, filter', List.drop_zero, List.take_left]

/-- The numbers of a header that is in the input buffer. -/
theorem loadBe_header {input : Bytes} (h : 8 ≤ input.length) (more : Bytes) :
    ByteOrder.loadBe (input.take 8 ++ more) = ByteOrder.loadBe input ∧
      ByteOrder.loadBe ((input.take 8 ++ more).drop 4) = ByteOrder.loadBe (input.drop 4) := by
  have hlength : (input.take 8).length = 8 := List.length_take_of_le h
  constructor
  · rw [ByteOrder.loadBe_append (by omega)]
    conv_rhs => rw [← List.take_append_drop 8 input, ByteOrder.loadBe_append (by omega)]
  · have hdrop : 4 ≤ ((input.take 8).drop 4).length := by
      rw [List.length_drop, hlength]
    rw [List.drop_append_of_le_length (by omega), ByteOrder.loadBe_append hdrop]
    conv_rhs => rw [← List.take_append_drop 8 input, List.drop_append_of_le_length (by omega),
      ByteOrder.loadBe_append hdrop]

variable {S : Type} {rest : S → Bytes} {handle : FaultHandler LzoFilter S}

/-- The handler fetches the data of a portion, unless there is none. -/
theorem fetch_portion (hfeeds : FeedsWhole handle push rest) {in32 out32 : Nat}
    (h : HeaderRead filter in32 out32) {source : S} (hlength : in32 ≤ (rest source).length) :
    ∃ source', rest source' = (rest source).drop in32 ∧
      Outcome.Settles
        (fun fuel => if in32 > filter.availIn then handle fuel (in32 - filter.availIn) filter source
          else .done (.ok (), filter, source))
        (.ok (), filter.receive 8 ((rest source).take in32), source') := by
  rw [h.availIn_eq, Nat.sub_zero]
  by_cases hsome : in32 > 0
  · have hrest : rest source ≠ [] := List.ne_nil_of_length_pos (by omega)
    have htake : ((rest source).take in32).length = in32 := List.length_take_of_le hlength
    obtain ⟨source', hrest', hhandle⟩ := hfeeds.handled hrest hsome
    refine ⟨source', hrest', ?_⟩
    simp only [if_pos hsome]
    have hpush := h.receive (List.ne_nil_of_length_pos (by omega)) htake
    exact hpush.imp fun fuel hdone => hhandle fuel filter _ hdone
  · have hzero : in32 = 0 := by omega
    subst hzero
    refine ⟨source, rfl, .of_eq fun fuel => ?_⟩
    simp [LzoFilter.receive]

variable (library handle) {source : S} {size : Nat} {pulled : Bytes}

theorem unzipPullLoop_fault (source : S) (hroom : pulled.length < size)
    (hempty : filter.availOut = 0) (hfew : filter.availIn < 8) (fuel : Nat) :
    unzipPullLoop library handle false (fuel + 1) (filter, source) size pulled =
      (handle fuel 8 filter source >>= fun (err, filter, source) =>
        match err with
        | .ok _ => unzipPullLoop library handle false fuel (filter, source) size pulled
        | .error err => .done (unzipFault pulled err, pulled, filter, source)) := by
  have hnone : ¬ filter.availOut > 0 := by omega
  rewrite [unzipPullLoop, if_pos hroom, if_neg hnone, if_neg Bool.false_ne_true, if_pos hfew]
  rfl

theorem unzipPullLoop_header (source : S) (hroom : pulled.length < size)
    (hempty : filter.availOut = 0) (hmany : ¬ filter.availIn < 8) {in32 out32 : Nat}
    (hin32 : ByteOrder.loadBe filter.inputBuffer = in32)
    (hout32 : ByteOrder.loadBe (filter.inputBuffer.drop 4) = out32) (fuel : Nat) :
    unzipPullLoop library handle false (fuel + 1) (filter, source) size pulled =
      ((if in32 > (filter.skipHeader in32 out32).availIn then
          handle fuel (in32 - (filter.skipHeader in32 out32).availIn)
            (filter.skipHeader in32 out32) source
        else .done (.ok (), filter.skipHeader in32 out32, source)) >>=
        fun (err, filter, source) =>
          match err with
          | .error _ => .done (.error .error, pulled, filter, source)
          | .ok _ =>
            decompress library filter in32 out32 >>= fun (err, filter) =>
              match err with
              | .error err => .done (.error err, pulled, filter, source)
              | .ok _ =>
                unzipPullLoop library handle false fuel (filter, source) (subtractHeader size)
                  pulled) := by
  have hnone : ¬ filter.availOut > 0 := by omega
  rewrite [unzipPullLoop, if_pos hroom, if_neg hnone, if_neg Bool.false_ne_true, if_neg hmany, hin32,
    hout32]
  rfl

variable {library handle}

/-- The loop fetches a portion and decompresses it. -/
theorem unzipPullLoop_portion (hfeeds : FeedsWhole handle push rest)
    (hlibrary : Decompresses library) (h : UnzipReady filter) (hempty : filter.availOut = 0)
    {in32 out32 : Nat} (hin32 : ByteOrder.loadBe (rest source) = in32)
    (hout32 : ByteOrder.loadBe ((rest source).drop 4) = out32)
    (hlength : 8 + in32 ≤ (rest source).length) {out : Bytes}
    (hout : library.lzo1xDecompressSafe (((rest source).drop 8).take in32) out32 = .ok out)
    (hsize : out.length = out32) (hroom : pulled.length < size) :
    ∃ filter' source', UnzipReady filter' ∧ filter'.pendingOutput = out ∧
      filter'.availOut = out32 ∧ rest source' = (rest source).drop (8 + in32) ∧
      ∀ result, Outcome.Settles (fun fuel => unzipPullLoop library handle false fuel
          (filter', source') (subtractHeader size) pulled) result →
        Outcome.Settles (fun fuel => unzipPullLoop library handle false fuel (filter, source) size
          pulled) result := by
  have hheader : ((rest source).take 8).length = 8 := List.length_take_of_le (by omega)
  have hrest : rest source ≠ [] := List.ne_nil_of_length_pos (by omega)
  have hfew : filter.availIn < 8 := by
    rw [h.availIn_eq]
    decide
  -- The header.
  obtain ⟨hpush, hbuffer, havail⟩ := h.receive_header hempty hheader
  obtain ⟨source₁, hrest₁, hhandle₁⟩ := hfeeds.handled hrest (by decide : 0 < 8)
  have hhandled₁ := hpush.imp fun fuel hdone => hhandle₁ fuel filter _ hdone
  obtain ⟨hin32', hout32'⟩ := loadBe_header (by omega : 8 ≤ (rest source).length)
    (filter.inputBuffer.drop 8)
  rw [← hbuffer, hin32] at hin32'
  rw [← hbuffer, hout32] at hout32'
  have hmany : ¬ (filter.receive 0 ((rest source).take 8)).availIn < 8 := by
    rw [havail]
    decide
  have hempty₁ : (filter.receive 0 ((rest source).take 8)).availOut = 0 := hempty
  -- The data.
  have hinput₁ : 0 < (filter.receive 0 ((rest source).take 8)).inputBuffer.length := by
    rw [hbuffer, List.length_append, hheader]
    omega
  have hread := HeaderRead.of_skipHeader hinput₁ h.inputOffset_eq havail hempty (h.rewound hempty)
    h.output_pos in32 out32
  have hlength₁ : in32 ≤ (rest source₁).length := by
    rw [hrest₁, List.length_drop]
    omega
  obtain ⟨source₂, hrest₂, hhandled₂⟩ := fetch_portion hfeeds hread hlength₁
  rw [← hrest₁] at hout
  obtain ⟨filter', hdecompress, hready, houtput, havail'⟩ :=
    hread.decompress hlibrary (List.length_take_of_le hlength₁) hout hsize
  refine ⟨filter', source₂, hready, houtput, havail', ?_, fun result hresult => ?_⟩
  · rw [hrest₂, hrest₁, List.drop_drop]
  · refine Outcome.Settles.succ (unzipPullLoop_fault library handle source hroom hempty hfew)
      (hhandled₁.bind ?_)
    refine Outcome.Settles.succ
      (unzipPullLoop_header library handle source₁ hroom hempty₁ hmany hin32' hout32')
      (hhandled₂.bind ?_)
    simp only [hdecompress, Outcome.done_bind]
    exact hresult

variable (library rest) in
/-- The filter will deliver `out`, from its output buffer and portions that its source has left. -/
def UnzipPulling (P : List Nat → Nat → Prop) (n : Nat) (s : LzoFilter × S) (out : Bytes) : Prop :=
  UnzipReady s.1 ∧ ∃ portions, unzipPortions library (rest s.2) = some portions ∧
    P (portions.map List.length) s.1.availOut ∧
    out = s.1.pendingOutput ++ portions.flatten ∧ n = out.length + (rest s.2).length

structure UnzipIdle (filter : LzoFilter) : Prop extends UnzipReady filter where
  availOut_eq : filter.availOut = 0

def UnzipDraining (_ : Nat) (s : LzoFilter × S) (out : Bytes) : Prop := UnzipIdle s.1 ∧ out = []

variable (library rest) in
/-- The size of a pull, which has 64 bits, has room for the headers. -/
def UnzipFits (s : LzoFilter × S) (size : Nat) : Prop :=
  size < 2 ^ 64 ∧ ∀ portions, unzipPortions library (rest s.2) = some portions →
    HeadersFit (portions.map List.length) 0 size s.1.availOut

def NonemptyPortions (portions : List Nat) (_ : Nat) : Prop := ∀ portion ∈ portions, 0 < portion

theorem UnzipPulling.fits {n : Nat} {s : LzoFilter × S} {out : Bytes}
    (h : UnzipPulling library rest NonemptyPortions n s out) (hlarge : 62 ≤ size)
    (hwide : size < 2 ^ 64) : UnzipFits library rest s size := by
  obtain ⟨-, portions, hportions, hall, -, -⟩ := h
  refine ⟨hwide, fun portions' hportions' => ?_⟩
  rw [hportions] at hportions'
  cases hportions'
  exact HeadersFit.of_nonempty hall (by omega)

theorem unzipPullLoop_exhausted (hfeeds : FeedsWhole handle push rest) (h : UnzipIdle filter)
    (hroom : pulled.length < size) (hrest : rest source = []) :
    ∃ source', rest source' = [] ∧
      Outcome.Settles
        (fun fuel => unzipPullLoop library handle false fuel (filter, source) size pulled)
        (if pulled = [] then .error .empty else .ok (), pulled, filter, source') := by
  have hfew : filter.availIn < 8 := by
    rw [h.availIn_eq]
    decide
  obtain ⟨source', hrest', hunhandled⟩ := hfeeds.unhandled hrest
  refine ⟨source', hrest', Outcome.Settles.succ
    (unzipPullLoop_fault library handle source hroom h.availOut_eq hfew) (.of_eq fun fuel => ?_)⟩
  rw [hunhandled, Outcome.done_bind]
  rfl

/-- The loop drains the output and decompresses portions, until it has pulled enough or there is no more
input. -/
theorem unzipPullLoop_result (hfeeds : FeedsWhole handle push rest)
    (hlibrary : Decompresses library) {total : Nat} (measure : Nat)
    (hready : UnzipReady filter) {portions : List Bytes}
    (hportions : unzipPortions library (rest source) = some portions) {left : List Nat × Nat}
    (hleft : pullLeaves (portions.map List.length) pulled.length size filter.availOut = left)
    (hsize : pulled.length + size ≤ total) (hwide : size < 2 ^ 64)
    (hfits : HeadersFit (portions.map List.length) pulled.length size filter.availOut) {bound : Nat}
    (hbound : (filter.pendingOutput ++ portions.flatten).length + (rest source).length ≤ bound)
    (hstrict : size ≤ pulled.length →
      (filter.pendingOutput ++ portions.flatten).length + (rest source).length <
        bound + pulled.length)
    (hmeasure : measure =
      (filter.pendingOutput ++ portions.flatten).length + (rest source).length) :
    PullProtocol.LoopResult .empty
      (UnzipPulling library rest fun portions avail => (portions, avail) = left)
      (fun pulled s out => pulled.length < total ∧ ∃ n, UnzipDraining n s out) total bound pulled
      (filter.pendingOutput ++ portions.flatten)
      (fun fuel => unzipPullLoop library handle false fuel (filter, source) size pulled) := by
  induction measure using Nat.strongRecOn generalizing filter source portions size pulled bound with
  | ind measure ih =>
    by_cases hroom : pulled.length < size
    case neg =>
      rw [pullLeaves_of_full hroom] at hleft
      have hgoes : UnzipPulling library rest (fun portions avail => (portions, avail) = left) _
          (filter, source) _ := ⟨hready, portions, hportions, hleft, rfl, rfl⟩
      refine PullProtocol.LoopResult.ok ?_ (by omega) (hstrict (Nat.le_of_not_lt hroom)) hgoes
      exact Outcome.Settles.succ (fun fuel => by rw [unzipPullLoop, if_neg hroom])
        (.of_eq fun _ => rfl)
    by_cases hpending : filter.availOut > 0
    case pos =>
      have hle : min filter.availOut size ≤ filter.availOut := Nat.min_le_left _ _
      obtain ⟨hsplit, htake⟩ := hready.take_append_drain hle
      have hfits' := hfits.drain rfl
      have hleft' := (pullLeaves_drain hroom rfl).trans hleft
      generalize hmore : filter.pendingOutput.take (min filter.availOut size) = more at hsplit htake
      have havail : (filter.drain (min filter.availOut size)).availOut =
          filter.availOut - min filter.availOut size := rfl
      rw [← htake, ← List.length_append, htake, ← havail] at hfits' hleft'
      generalize hrest' : (filter.drain (min filter.availOut size)).pendingOutput ++
        portions.flatten = out'
      have hout : filter.pendingOutput ++ portions.flatten = more ++ out' := by
        rw [← hrest', ← List.append_assoc, ← hsplit]
      rw [hout, List.length_append] at hmeasure hbound
      have hloop := ih (out'.length + (rest source).length) (by omega) (hready.drain hle) hportions
        hleft' (by rw [List.length_append]; omega) (by omega) hfits' (by rw [hrest'])
        (by rw [hrest', List.length_append]; omega) (by rw [hrest'])
      rw [hrest'] at hloop
      rw [hout]
      refine PullProtocol.LoopResult.round (fun fuel => ?_) hloop (by omega)
      rw [unzipPullLoop, if_pos hroom, if_pos hpending, ← hmore]
    have hempty : filter.availOut = 0 := by omega
    have hnothing : filter.pendingOutput = [] := pendingOutput_eq_nil hempty
    rw [hnothing, List.nil_append] at hmeasure hbound hstrict ⊢
    by_cases hrest : rest source = []
    case pos =>
      rw [hrest, unzipPortions_nil] at hportions
      cases hportions
      obtain ⟨source', hrest', hrun⟩ :=
        unzipPullLoop_exhausted hfeeds ⟨hready, hempty⟩ hroom hrest
      by_cases hnil : pulled = []
      · rw [if_pos hnil] at hrun
        exact PullProtocol.LoopResult.exhausted hrun ⟨by omega, 0, ⟨hready, hempty⟩, rfl⟩
      · rw [if_neg hnil] at hrun
        have hpos := List.length_pos_of_ne_nil hnil
        refine PullProtocol.LoopResult.ok hrun (by omega) (Nat.lt_add_left bound hpos)
          ⟨hready, [], ?_, ?_, ?_, ?_⟩
        · rw [hrest', unzipPortions_nil]
        · rw [← hleft, hempty, List.map_nil, pullLeaves, if_pos hroom, Nat.zero_sub]
        · rw [hnothing]
          rfl
        · rw [hrest']
          rfl
    case neg =>
      obtain ⟨out, portions', hlength, hdecompress, houtsize, hportions', rfl⟩ :=
        unzipPortions_eq_some hrest hportions
      obtain ⟨filter', source', hready', houtput, havail', hrest', hrun⟩ :=
        unzipPullLoop_portion hfeeds hlibrary hready hempty rfl rfl hlength hdecompress houtsize hroom
      rw [hempty] at hfits hleft
      obtain ⟨height, hfits'⟩ := hfits (by omega)
      rw [List.map_cons, pullLeaves, if_pos (by omega)] at hleft
      have hsubtract : subtractHeader size = size - 8 := by
        rw [subtractHeader]
        omega
      have hlengths : (rest source').length + 8 ≤ (rest source).length := by
        rw [hrest', List.length_drop]
        omega
      rw [hsubtract] at hrun
      rw [← hrest'] at hportions'
      rw [List.flatten_cons, ← houtput] at hmeasure hbound hstrict ⊢
      rw [Nat.add_zero, Nat.sub_zero, houtsize, ← havail'] at hfits' hleft
      have hloop := ih _ (by omega) hready' hportions' hleft (by omega) (by omega) hfits'
        (by omega : _ ≤ bound) (fun _ => by omega) rfl
      exact hloop.imp hrun

/-- A filter that is fed whole portions delivers them, if the sizes of the pulls have room for the
headers. -/
theorem unzip_delivers (hfeeds : FeedsWhole handle push rest) (hlibrary : Decompresses library)
    {P : List Nat → Nat → Prop} {Fits : LzoFilter × S → Nat → Prop}
    (hfits : ∀ s size portions, unzipPortions library (rest s.2) = some portions →
      P (portions.map List.length) s.1.availOut → Fits s size →
      size < 2 ^ 64 ∧ HeadersFit (portions.map List.length) 0 size s.1.availOut ∧
        P (pullLeaves (portions.map List.length) 0 size s.1.availOut).1
          (pullLeaves (portions.map List.length) 0 size s.1.availOut).2) :
    PullProtocol.Delivers (unzipPull library handle) .empty Fits (fun _ => True)
      (UnzipPulling library rest P) UnzipDraining (fun s => UnzipIdle s.1) where
  pulling := by
    rintro n ⟨filter, source⟩ out size ⟨hready, portions, hportions, hP, rfl, rfl⟩ hsize hfit
    obtain ⟨hwide, hheaders, hleaves⟩ := hfits (filter, source) size portions hportions hP hfit
    have hstart : ([] : Bytes).length + size ≤ size := Nat.le_of_eq (Nat.zero_add size)
    obtain ⟨err, more, s', out', hsettles, hout, hresult⟩ :=
      unzipPullLoop_result hfeeds hlibrary _ hready hportions rfl hstart hwide hheaders
        (Nat.le_refl _) (fun hnone => absurd hsize (Nat.not_lt_of_le hnone)) rfl
    refine ⟨err, more, s', out', hsettles, hout, ?_⟩
    rcases hresult with ⟨rfl, hle, n', hn', hready', portions', hportions', hleft, hrest⟩ | hempty
    · refine .inl ⟨rfl, hle, n', hn', hready', portions', hportions', ?_, hrest⟩
      have hP' := hleaves
      rw [List.length_nil] at hleft
      rw [← hleft] at hP'
      exact hP'
    · exact .inr hempty
  draining := by
    rintro n ⟨filter, source⟩ out size ⟨hidle, rfl⟩ hsize -
    have hnone : ¬ filter.availOut > 0 := by
      rw [hidle.availOut_eq]
      decide
    have hroom : ([] : Bytes).length < size := hsize
    refine ⟨.error .empty, [], (filter, source), [], ?_, rfl, .inr ⟨rfl, rfl, rfl, hidle⟩⟩
    refine Outcome.Settles.succ (fun fuel => ?_) (.of_eq fun _ => rfl)
    rw [unzipPull, unzipPullLoop, if_pos hroom, if_neg hnone, if_pos rfl, if_pos rfl]

theorem unzipIdle_new {inputBuffer : Bytes} (h : 8 ≤ inputBuffer.length) (junk : Nat → UInt8) :
    UnzipIdle (newUnzip inputBuffer junk) where
  fits := Nat.zero_le _
  rewound := fun _ => rfl
  input_large := h
  inputOffset_eq := rfl
  availIn_eq := rfl
  output_pos := by
    rw [newUnzip, List.length_map, List.length_range, Nat.shiftLeft_eq]
    omega
  availOut_eq := rfl

variable (rest) in
theorem UnzipIdle.pulling (h : UnzipIdle filter) {portions : List Bytes}
    (hportions : unzipPortions library (rest source) = some portions) {P : List Nat → Nat → Prop}
    (hP : P (portions.map List.length) 0) :
    UnzipPulling library rest P (portions.flatten.length + (rest source).length) (filter, source)
      portions.flatten := by
  refine ⟨h.toUnzipReady, portions, hportions, h.availOut_eq ▸ hP, ?_, rfl⟩
  rw [pendingOutput_eq_nil h.availOut_eq, List.nil_append]

/-- `chop_filter_through` decompresses the portions of an input, if its pulls have room for the
headers, and leaves the filter between two portions. -/
theorem unzip_through_eq (hlibrary : Decompresses library) (h : UnzipIdle filter) {input : Bytes}
    {portions : List Bytes} (hportions : unzipPortions library input = some portions)
    (hfits : ThroughFits (portions.map List.length) 0) :
    ∃ filter', UnzipIdle filter' ∧
      Outcome.Settles (fun fuel => chopFilterThrough (unzipMethods library) fuel filter input)
        (.ok (), portions.flatten, filter') := by
  have hdelivers : PullProtocol.Delivers
      ((unzipMethods library).pull Bytes (handleInputFaultFromBuffer (unzipMethods library).push)) .empty
      (fun _ size => size = throughBlockSize) (fun _ => True) (UnzipPulling library id ThroughFits)
      UnzipDraining (fun s => UnzipIdle s.1) := by
    refine unzip_delivers (handleInputFaultFromBuffer_feedsWhole push) hlibrary ?_
    rintro s size portions - hthrough rfl
    exact ⟨by decide, throughFits_iff.mp hthrough⟩
  exact chopFilterThrough_delivers hdelivers (fun _ _ _ _ => rfl) trivial
    (h.pulling id hportions hfits)

end Unzip

end LzoFilter

end Libchop
