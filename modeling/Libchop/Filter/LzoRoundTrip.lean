import Libchop.Filter.LzoUnzipContract
import Libchop.Framework.Refinement

/-!
# LZO there and back

What the zip filter of LZO makes of an input is read back by the unzip filter, whatever the size of the
input buffer, as long as the sizes of the portions fit in their headers.
-/

namespace Libchop

namespace LzoFilter

variable (library : LzoLibrary)

def Inverts : Prop :=
  ∀ data room, data.length ≤ room →
    library.lzo1xDecompressSafe (library.lzo1xCompress data) room = .ok data

/-- "LZO expands the input block by a maximum of 16 bytes per 1024 bytes input." -/
def Expands : Prop :=
  ∀ data, (library.lzo1xCompress data).length ≤ data.length + 16 * (data.length / 1024 + 1)

/-- The sizes of each portion of an input can be written in its header. -/
def SizesFit (bufferSize : Nat) (input : Bytes) : Prop :=
  ∀ k, k * bufferSize < input.length →
    ((input.drop (k * bufferSize)).take bufferSize).length < 2 ^ 32 ∧
      (library.lzo1xCompress ((input.drop (k * bufferSize)).take bufferSize)).length < 2 ^ 32

variable {library} {bufferSize : Nat}

theorem SizesFit.drop {input : Bytes} (h : SizesFit library bufferSize input) :
    SizesFit library bufferSize (input.drop bufferSize) := by
  intro k hk
  have hadd : bufferSize + k * bufferSize = (k + 1) * bufferSize := by
    rw [Nat.add_mul, Nat.one_mul, Nat.add_comm]
  rw [List.length_drop] at hk
  rw [List.drop_drop, hadd]
  exact h (k + 1) (by omega)

/-- The output buffer is large enough for the expansion of a portion. -/
theorem Expands.fits (h : Expands library) {portion : Bytes} (hle : portion.length ≤ bufferSize) :
    (library.lzo1xCompress portion).length + 8 ≤ zipOutputSize bufferSize := by
  have hlength := h portion
  rw [zipOutputSize, Nat.shiftRight_eq_div_pow]
  omega

/-- The sizes fit for any input if the input buffer is not too large. -/
theorem Expands.sizesFit (h : Expands library) (hsize : bufferSize + 16 * (bufferSize / 1024 + 1) < 2 ^ 32)
    (input : Bytes) : SizesFit library bufferSize input := by
  intro k _
  generalize hportion : (input.drop (k * bufferSize)).take bufferSize = portion
  have hle : portion.length ≤ bufferSize := by
    rw [← hportion]
    exact List.length_take_le _ _
  have hdiv : portion.length / 1024 ≤ bufferSize / 1024 := Nat.div_le_div_right hle
  have hlength := h portion
  omega

/-- The portion behind its header is the first one that is read back. -/
theorem unzipPortions_append {portion coded : Bytes} {portions : List Bytes} (hinverts : Inverts library)
    (hin : portion.length < 2 ^ 32) (hout : (library.lzo1xCompress portion).length < 2 ^ 32)
    (h : unzipPortions library coded = some portions) :
    unzipPortions library (ByteOrder.storeBe (library.lzo1xCompress portion).length ++
      ByteOrder.storeBe portion.length ++ library.lzo1xCompress portion ++ coded) =
      some (portion :: portions) := by
  generalize hdata : library.lzo1xCompress portion = data at hout ⊢
  have hload : ByteOrder.loadBe (ByteOrder.storeBe data.length ++ ByteOrder.storeBe portion.length ++
      data ++ coded) = data.length := by
    rw [List.append_assoc, List.append_assoc, ByteOrder.loadBe_storeBe hout]
  have hload' : ByteOrder.loadBe ((ByteOrder.storeBe data.length ++ ByteOrder.storeBe portion.length ++
      data ++ coded).drop 4) = portion.length := by
    rw [List.append_assoc, List.append_assoc, List.drop_left' (ByteOrder.length_storeBe _),
      ByteOrder.loadBe_storeBe hin]
  have hheader : (ByteOrder.storeBe data.length ++ ByteOrder.storeBe portion.length).length = 8 := rfl
  refine unzipPortions_cons ?_ ?_ ?_ hload'.symm ?_
  · apply List.ne_nil_of_length_pos
    rw [List.length_append, List.length_append, hheader]
    omega
  · rw [hload, List.length_append, List.length_append, hheader]
    omega
  · rw [hload, hload', List.append_assoc, List.drop_left' hheader, List.take_left, ← hdata]
    exact hinverts portion portion.length (Nat.le_refl _)
  · have hfront : (ByteOrder.storeBe data.length ++ ByteOrder.storeBe portion.length ++ data).length =
        8 + data.length := by
      rw [List.length_append, hheader]
    rw [hload, List.drop_left' hfront, h]

/-- What the zip filter puts out is made of portions that are read back to the input. -/
theorem exists_zipCode (hinverts : Inverts library) (hexpands : Expands library) (hsize : 0 < bufferSize)
    {input : Bytes} (hfits : SizesFit library bufferSize input) :
    ∃ coded portions, zipCode library bufferSize input = some coded ∧
      unzipPortions library coded = some portions ∧ portions.flatten = input ∧
      ∀ portion ∈ portions, portion ≠ [] := by
  generalize hlength : input.length = length
  induction length using Nat.strongRecOn generalizing input with
  | ind length ih =>
    by_cases hinput : input = []
    · subst hinput
      exact ⟨[], [], zipCode_nil, unzipPortions_nil, rfl, List.forall_mem_nil _⟩
    have hpos := List.length_pos_of_ne_nil hinput
    obtain ⟨coded, portions, hcode, hportions, hflatten, hnonempty⟩ :=
      ih (input.drop bufferSize).length (by rw [List.length_drop]; omega) hfits.drop rfl
    obtain ⟨hin, hout⟩ := hfits 0 (by omega)
    rw [Nat.zero_mul, List.drop_zero] at hin hout
    have hroom := hexpands.fits (List.length_take_le bufferSize input)
    refine ⟨_, _, ?_, unzipPortions_append hinverts hin hout hportions, ?_, ?_⟩
    · rw [zipCode, if_neg hinput, if_neg (Nat.ne_of_gt hsize), zipPortion, hcode]
      simp only [hroom, hin, hout, and_self, if_true, Option.bind_some, Option.map_some]
    · rw [List.flatten_cons, hflatten, List.take_append_drop]
    · refine List.forall_mem_cons.mpr ⟨?_, hnonempty⟩
      apply List.ne_nil_of_length_pos
      rw [List.length_take]
      omega

/-- `chop_filter_through` computes the function of the zip filter and leaves it as new. -/
theorem zip_through_eq {filter : LzoFilter} (h : ZipIdle bufferSize filter) {input coded : Bytes}
    (hcode : zipCode library bufferSize input = some coded) :
    ∃ filter', ZipIdle bufferSize filter' ∧
      Outcome.Settles (fun fuel => chopFilterThrough (zipMethods library) fuel filter input)
        (.ok (), coded, filter') := by
  have hdelivers : PullProtocol.Delivers
      ((zipMethods library).pull Bytes (handleInputFaultFromBuffer (zipMethods library).push)) .empty
      (fun _ _ => True) (fun _ => True) (ZipPulling library bufferSize id)
      (ZipDraining library bufferSize) (fun s => ZipIdle bufferSize s.1) :=
    zip_delivers (handleInputFaultFromBuffer_feeds push)
  exact chopFilterThrough_delivers hdelivers (fun _ _ _ _ => trivial) trivial (h.pulling id hcode)

variable (library) in
/-- An input goes through a zip filter, and if that succeeds its output through an unzip filter. -/
def roundTrip (fuel : Nat) (filters : LzoFilter × LzoFilter) (input : Bytes) :
    Outcome (Except FilterError Bytes × LzoFilter × LzoFilter) :=
  chopFilterThrough (zipMethods library) fuel filters.1 input >>= fun (err, coded, zip) =>
    match err with
    | .error err => .done (.error err, zip, filters.2)
    | .ok _ =>
      chopFilterThrough (unzipMethods library) fuel filters.2 coded >>= fun (err, output, unzip) =>
        .done (err.map fun _ => output, zip, unzip)

section RoundTrip

variable (hinverts : Inverts library) (hexpands : Expands library) (hlibrary : Decompresses library)

include hinverts hexpands hlibrary

theorem roundTrip_eq {zip unzip : LzoFilter} (hzip : ZipIdle bufferSize zip) (hunzip : UnzipIdle unzip)
    {input : Bytes} (hfits : SizesFit library bufferSize input) :
    ∃ zip' unzip', ZipIdle bufferSize zip' ∧ UnzipIdle unzip' ∧
      Outcome.Settles (fun fuel => roundTrip library fuel (zip, unzip) input)
        (.ok input, zip', unzip') := by
  obtain ⟨coded, portions, hcode, hportions, hflatten, hnonempty⟩ :=
    exists_zipCode hinverts hexpands hzip.pos hfits
  obtain ⟨zip', hzip', hthere⟩ := zip_through_eq hzip hcode
  have hthrough : ThroughFits (portions.map List.length) 0 := by
    refine ThroughFits.of_nonempty ?_ 0
    intro length hlength
    obtain ⟨portion, hportion, rfl⟩ := List.mem_map.mp hlength
    exact List.length_pos_of_ne_nil (hnonempty portion hportion)
  obtain ⟨unzip', hunzip', hback⟩ := unzip_through_eq hlibrary hunzip hportions hthrough
  rw [hflatten] at hback
  exact ⟨zip', unzip', hzip', hunzip', hthere.bind (hback.bind (.of_eq fun _ => rfl))⟩

theorem roundTrips_eq {zip unzip : LzoFilter} (hzip : ZipIdle bufferSize zip) (hunzip : UnzipIdle unzip)
    {inputs : List Bytes} (hfits : ∀ input ∈ inputs, SizesFit library bufferSize input) :
    ∃ filters', Outcome.Settles (fun fuel => Refinement.run (roundTrip library fuel) (zip, unzip) inputs)
      (inputs.map .ok, filters') := by
  induction inputs generalizing zip unzip with
  | nil => exact ⟨(zip, unzip), .of_eq fun _ => rfl⟩
  | cons input inputs ih =>
    obtain ⟨hfirst, hrest⟩ := List.forall_mem_cons.mp hfits
    obtain ⟨zip', unzip', hzip', hunzip', htrip⟩ :=
      roundTrip_eq hinverts hexpands hlibrary hzip hunzip hfirst
    obtain ⟨filters', htrips⟩ := ih hzip' hunzip' hrest
    exact ⟨filters', htrip.bind (htrips.bind (.of_eq fun _ => rfl))⟩

/-- The same two filters give back any inputs one after another, if the sizes of all portions fit in their
headers. -/
theorem roundTrips_new {zipBuffer unzipBuffer : Bytes} (hzip : zipBuffer ≠ [])
    (hunzip : unzipBuffer.length = 1024) (junk junk' : Nat → UInt8) (inputs : List Bytes)
    (hfits : ∀ input ∈ inputs, SizesFit library zipBuffer.length input) :
    ∃ filters', Outcome.Settles (fun fuel => Refinement.run (roundTrip library fuel)
        (newZip zipBuffer junk, newUnzip unzipBuffer junk') inputs)
      (inputs.map .ok, filters') := by
  have hlarge : 8 ≤ unzipBuffer.length := by omega
  exact roundTrips_eq hinverts hexpands hlibrary (zipIdle_new hzip junk) (unzipIdle_new hlarge junk') hfits

end RoundTrip

/-- Compression that keeps the data as one run of literals, as LZO1X does for short data without
repetitions.  Longer runs have the mark 0. -/
def literals : LzoLibrary where
  lzo1xCompress data :=
    (if data.length ≤ 238 then UInt8.ofNat (17 + data.length) else 0) :: data ++ [17, 0, 0]
  lzo1xDecompressSafe data room :=
    match data with
    | [] => .error []
    | mark :: rest =>
      let count := if mark = 0 then rest.length - 3 else mark.toNat - 17
      if rest.drop count = [17, 0, 0] ∧ (rest.take count).length ≤ room then .ok (rest.take count)
      else .error []

theorem literals_decompresses : Decompresses literals := by
  intro data room out h
  cases data with
  | nil => cases h
  | cons mark rest =>
    simp only [literals] at h ⊢
    generalize (if mark = 0 then rest.length - 3 else mark.toNat - 17) = count at h ⊢
    split at h
    · next hrest =>
      cases h
      exact ⟨hrest.2, fun room' hroom' => if_pos ⟨hrest.1, hroom'⟩⟩
    · cases h

theorem literals_inverts : Inverts literals := by
  intro data room hroom
  have hcount : (if (if data.length ≤ 238 then UInt8.ofNat (17 + data.length) else 0) = 0 then
      (data ++ [17, 0, 0]).length - 3
      else (if data.length ≤ 238 then UInt8.ofNat (17 + data.length) else 0).toNat - 17) =
        data.length := by
    by_cases hshort : data.length ≤ 238
    · have hmark : (UInt8.ofNat (17 + data.length)).toNat = 17 + data.length := by
        rw [UInt8.toNat_ofNat']
        omega
      have hnonzero : UInt8.ofNat (17 + data.length) ≠ 0 := by
        intro hzero
        rw [hzero, UInt8.toNat_zero] at hmark
        omega
      rw [if_pos hshort, if_neg hnonzero, hmark]
      omega
    · rw [if_neg hshort, if_pos rfl, List.length_append]
      exact Nat.add_sub_cancel _ _
  simp only [literals, List.cons_append, hcount, List.drop_left, List.take_left, hroom, and_self, if_true]

theorem literals_expands : Expands literals := by
  intro data
  simp only [literals, List.cons_append, List.length_cons, List.length_append, List.length_nil]
  omega

theorem roundTrips_new_literals :
    ∃ filters', Outcome.Settles (fun fuel => Refinement.run (roundTrip literals fuel)
        (newZip [0, 0] (fun _ => 0), newUnzip (List.replicate 1024 0) (fun _ => 0))
        [[1, 2, 3], [], [4, 5]])
      ([.ok [1, 2, 3], .ok [], .ok [4, 5]], filters') :=
  roundTrips_new literals_inverts literals_expands literals_decompresses (List.cons_ne_nil _ _)
    List.length_replicate (fun _ => 0) (fun _ => 0) [[1, 2, 3], [], [4, 5]]
    (fun input _ => literals_expands.sizesFit (by decide) input)

/-- A portion that is too large for its header. -/
theorem compress_large (hexpands : Expands library) {filter : LzoFilter} (h : ZipReady bufferSize filter)
    (hlarge : 2 ^ 32 ≤ filter.availIn) :
    ∃ filter', compress library filter = .done (.error .error, filter') := by
  have hfits := hexpands.fits (Nat.le_trans (Nat.le_of_eq h.length_pendingInput) h.availIn_le)
  rw [← h.output_length] at hfits
  rw [pendingInput] at hfits
  simp only [compress, Outcome.assert_of hfits, Outcome.done_bind, ge_iff_le, hlarge, true_or, if_true]
  exact ⟨_, rfl⟩

/-- An input whose first portion is too large. -/
theorem zip_through_large (hexpands : Expands library) {filter : LzoFilter} (h : ZipIdle bufferSize filter)
    (hlarge : 2 ^ 32 ≤ bufferSize) {input : Bytes} (hlength : bufferSize ≤ input.length) :
    ∃ filter', Outcome.Settles (fun fuel => chopFilterThrough (zipMethods library) fuel filter input)
      (.error .error, [], filter') := by
  have hroom : ([] : Bytes).length < throughBlockSize := by decide
  have hspace : filter.availIn < filter.inputBuffer.length := by
    rw [h.availIn_eq, h.input_length]
    exact h.pos
  have hinput : id input ≠ [] := List.ne_nil_of_length_pos (Nat.lt_of_lt_of_le h.pos hlength)
  have htake : (input.take bufferSize).length = bufferSize := List.length_take_of_le hlength
  obtain ⟨source', _, hhandle⟩ := (handleInputFaultFromBuffer_feedsWhole push).handled hinput h.pos
  obtain ⟨filled, hpush, hready, hempty, havail, _⟩ := h.toZipReady.receive h.availOut_eq
    (List.ne_nil_of_length_pos (by rw [htake]; exact h.pos)) (by rw [htake, h.availIn_eq, Nat.sub_zero])
  rw [h.availIn_eq, htake, Nat.zero_add] at havail
  obtain ⟨filter', hcompress⟩ := compress_large hexpands hready (by rw [havail]; exact hlarge)
  have hhandled := hpush.imp fun fuel hdone => hhandle fuel filter filled hdone
  have hnone : ¬ filled.availOut > 0 := by omega
  have hfull : ¬ (filled.availIn < filled.inputBuffer.length ∧ false = false) := by
    rw [havail, hready.input_length]
    exact fun hfault => Nat.lt_irrefl _ hfault.1
  have hsome : filled.availIn > 0 := by
    rw [havail]
    exact h.pos
  have hround (fuel : Nat) : zipPullLoop library (handleInputFaultFromBuffer push) false (fuel + 1)
      (filled, source') throughBlockSize [] = .done (.error .error, [], filter', source') := by
    rw [zipPullLoop, if_pos hroom, if_neg hnone, if_neg hfull, if_pos hsome, hcompress, Outcome.done_bind]
  have hpull : Outcome.Settles (fun fuel => zipPullLoop library (handleInputFaultFromBuffer push) false fuel
      (filter, input) throughBlockSize []) (.error .error, [], filter', source') := by
    refine Outcome.Settles.succ (zipPullLoop_fault library _ input hroom h.availOut_eq hspace) ?_
    rw [h.input_length, h.availIn_eq, Nat.sub_zero]
    exact hhandled.bind (Outcome.Settles.succ hround (.of_eq fun _ => rfl))
  have hloop : Outcome.Settles (fun fuel => throughLoop (zipPull library (handleInputFaultFromBuffer push))
      fuel false (filter, input) []) (.error .error, [], filter', source') :=
    Outcome.Settles.succ (fun fuel => rfl) (hpull.bind (.of_eq fun _ => rfl))
  exact ⟨filter', hloop.bind (.of_eq fun _ => rfl)⟩

/-- An input of `2 ^ 32` bytes through an input buffer of this size. -/
theorem roundTrip_too_large :
    ∃ filters', Outcome.Settles (fun fuel => roundTrip literals fuel
        (newZip (List.replicate (2 ^ 32) 0) (fun _ => 0), newUnzip (List.replicate 1024 0) (fun _ => 0))
        (List.replicate (2 ^ 32) 0))
      (.error .error, filters') := by
  have hlength : (List.replicate (2 ^ 32) (0 : UInt8)).length = 2 ^ 32 := List.length_replicate
  have hbuffer : List.replicate (2 ^ 32) (0 : UInt8) ≠ [] := by
    apply List.ne_nil_of_length_pos
    rw [hlength]
    exact Nat.two_pow_pos 32
  obtain ⟨zip', hthrough⟩ := zip_through_large literals_expands (zipIdle_new hbuffer fun _ => 0)
    (Nat.le_of_eq hlength.symm) (Nat.le_refl _)
  exact ⟨_, hthrough.bind (.of_eq fun _ => rfl)⟩

end LzoFilter

end Libchop
