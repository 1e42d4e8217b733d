import Libchop.Filter.FilteredStream

/-!
# How a filtered stream is read does not matter

Through the filters of zlib and bzip2 and the zip filter of LZO, a filtered stream returns the same bytes
however its backend splits its data and however it is read.  The unzip filter of LZO needs backends whose
reads are not short, and reads with room for the headers.
-/

namespace Libchop

/-- How LZO1X writes short data without repetitions: a run of literals and an end mark. -/
def literalLzo : LzoLibrary where
  lzo1xCompress data := UInt8.ofNat (17 + data.length) :: data ++ [17, 0, 0]
  lzo1xDecompressSafe data room :=
    match data with
    | [] => .error []
    | run :: rest =>
      let literals := rest.take (run.toNat - 17)
      if rest.drop (run.toNat - 17) = [17, 0, 0] ∧ literals.length ≤ room then .ok literals
      else .error []

theorem literalLzo_decompresses : LzoFilter.Decompresses literalLzo := by
  intro data room out h
  cases data with
  | nil => cases h
  | cons run rest =>
    simp only [literalLzo] at h ⊢
    split at h
    · next hrest =>
      cases h
      exact ⟨hrest.2, fun room' hroom' => if_pos ⟨hrest.1, hroom'⟩⟩
    · cases h

theorem ZipFilter.of_pullEmpty {α : Type} {pulled read : Bytes} {s s' : α}
    (h : Outcome.done (pullEmpty pulled, pulled, s) = .done (.error .empty, read, s')) :
    read = [] := by
  rw [pullEmpty] at h
  split at h
  · next hnil =>
    cases h
    exact hnil
  · cases h

/-- A pull that reports that the filter is empty has pulled nothing. -/
theorem ZipFilter.pullLoop_empty {c : ZipFilterClass} {library : c.Library} {S : Type}
    {handle : FaultHandler (ZipFilter library.State) S} {size fuel : Nat}
    {s s' : ZipFilter library.State × S} {zret : CodecReturn} {pulled read : Bytes}
    (h : pullLoop library handle false size fuel s zret pulled = .done (.error .empty, read, s')) :
    read = [] := by
  induction fuel generalizing s zret pulled with
  | zero => cases h
  | succ fuel ih =>
    rw [pullLoop] at h
    split at h
    case isFalse => cases h
    split at h
    · obtain ⟨⟨err, filter, source⟩, -, h⟩ := Outcome.bind_eq_done.mp h
      cases err with
      | ok _ => exact ih h
      | error err =>
        cases err with
        | empty => exact of_pullEmpty h
        | unhandledFault => exact of_pullEmpty h
        | error => cases h
        | full => cases h
        | other err => cases h
    · dsimp only at h
      split at h
      · cases h
      rw [if_neg Bool.false_ne_true] at h
      split at h
      · cases h
      split at h
      · cases h
      · exact ih h

/-- The filter classes, with the libraries behind them. -/
inductive StreamFilter where
  | zip (c : ZipFilterClass) (library : c.Library)
  | lzoZip (library : LzoLibrary)
  | lzoUnzip (library : LzoLibrary)

namespace StreamFilter

def Filter : StreamFilter → Type
  | zip _ library => ZipFilter library.State
  | lzoZip _ | lzoUnzip _ => LzoFilter

def methods : (f : StreamFilter) → FilterMethods f.Filter
  | zip _ library => ZipFilter.methods library
  | lzoZip library => LzoFilter.zipMethods library
  | lzoUnzip library => LzoFilter.unzipMethods library

/-- A new filter, whose buffers hold anything. -/
def new : (f : StreamFilter) → Bytes → (Nat → UInt8) → f.Filter
  | zip _ library, inputBuffer, _ => ZipFilter.new library inputBuffer
  | lzoZip _, inputBuffer, junk => LzoFilter.newZip inputBuffer junk
  | lzoUnzip _, inputBuffer, junk => LzoFilter.newUnzip inputBuffer junk

/-- What the codec makes of a whole input that it accepts, with an input buffer of this size. -/
def code : StreamFilter → Nat → Bytes → Option Bytes
  | zip _ library, _, input => library.code input
  | lzoZip library, size, input => LzoFilter.zipCode library size input
  | lzoUnzip library, _, input => (LzoFilter.unzipPortions library input).map List.flatten

/-- What is relied on from the libraries. -/
def Lawful : StreamFilter → Prop
  | zip c library => c.isZip = true → ∀ input, (library.code input).isSome = true
  | lzoZip _ => True
  | lzoUnzip library => LzoFilter.Decompresses library

/-- `chop_filtered_stream_open` with a new filter. -/
def openStream (f : StreamFilter) (inputBuffer : Bytes) (junk : Nat → UInt8) (backend : Bytes) :
    FilteredStream f.Filter :=
  ⟨f.new inputBuffer junk, backend, false, false⟩

/-- The counters of zlib and bzip2 must be able to say how much each read asks for and how much each read
of the backend returns.  The unzip filter of LZO needs an input buffer for the headers and reads of the
backend that are not short, and each read must find room for the headers. -/
def Meets : (f : StreamFilter) → Portion → (Nat → Nat) → FilteredStream f.Filter → Prop
  | zip c library, portion, sizes, (stream : FilteredStream (ZipFilter library.State)) =>
    received (portion.amount stream.filter.inputBuffer.length) stream.backend = stream.backend ∧
      ∀ j stream', ReadsTo portion (ZipFilter.methods (c := c) library) sizes 0 stream j stream' →
        sizes j < 2 ^ 32
  | lzoZip _, _, _, _ => True
  | lzoUnzip library, portion, sizes, (stream : FilteredStream LzoFilter) =>
    8 ≤ stream.filter.inputBuffer.length ∧ portion.Whole ∧
      ∀ j filter backend,
        ReadsTo portion (LzoFilter.unzipMethods library) sizes 0 stream j
          ⟨filter, backend, false, false⟩ →
        LzoFilter.UnzipFits library id (filter, backend) (sizes j)

variable {portion : Portion} {sizes : Nat → Nat} {inputBuffer backend coded : Bytes}
  {junk : Nat → UInt8}

theorem readsAs_zip {c : ZipFilterClass} {library : c.Library}
    (htotal : c.isZip = true → ∀ input, (library.code input).isSome = true)
    (hbuffer : inputBuffer ≠ []) (hcode : library.code backend = some coded)
    (hsizes : ∀ i, 0 < sizes i)
    (hreceived : received (portion.amount inputBuffer.length) backend = backend)
    (hcounted : ∀ j stream', ReadsTo portion (ZipFilter.methods library) sizes 0
      ⟨ZipFilter.new library inputBuffer, backend, false, false⟩ j stream' → sizes j < 2 ^ 32) :
    ReadsAs portion (ZipFilter.methods library) sizes 0
      ⟨ZipFilter.new library inputBuffer, backend, false, false⟩ [] coded := by
  have hdelivers : PullProtocol.Delivers ((ZipFilter.methods library).pull Bytes
      (handleInputFault portion (ZipFilter.methods library).push)) .empty
      (fun _ size => size < 2 ^ 32) (· < 2 ^ 32)
      (ZipFilter.Pulling library (received (portion.amount inputBuffer.length)) List.length
        inputBuffer.length)
      (ZipFilter.Draining library inputBuffer.length)
      (fun s => ZipFilter.Idle library inputBuffer.length s.1) :=
    ZipFilter.delivers (handleInputFault_fedBy portion (List.length_pos_of_ne_nil hbuffer)) htotal
  rw [← hreceived] at hcode
  obtain ⟨n, hpulling⟩ := (ZipFilter.idle_new hbuffer).pulling _ List.length hcode
  refine readsAs_pulling hdelivers (.inr fun _ _ _ _ _ h => ZipFilter.pullLoop_empty h) hsizes n hpulling
    ?_ ?_
  · intro j filter' backend' hto
    exact hcounted j _ hto
  · intro j stream' hto left hleft
    exact Nat.lt_of_le_of_lt hleft (hcounted j stream' hto)

theorem readsAs_lzoZip {library : LzoLibrary} (hbuffer : inputBuffer ≠ [])
    (hcode : LzoFilter.zipCode library inputBuffer.length backend = some coded)
    (hsizes : ∀ i, 0 < sizes i) :
    ReadsAs portion (LzoFilter.zipMethods library) sizes 0
      ⟨LzoFilter.newZip inputBuffer junk, backend, false, false⟩ [] coded := by
  have hidle := LzoFilter.zipIdle_new hbuffer junk
  have hdelivers : PullProtocol.Delivers ((LzoFilter.zipMethods library).pull Bytes
      (handleInputFault portion (LzoFilter.zipMethods library).push)) .empty (fun _ _ => True)
      (fun _ => True) (LzoFilter.ZipPulling library inputBuffer.length id)
      (LzoFilter.ZipDraining library inputBuffer.length)
      (fun s => LzoFilter.ZipIdle inputBuffer.length s.1) :=
    LzoFilter.zip_delivers (handleInputFault_feeds portion LzoFilter.push)
  exact readsAs_pulling hdelivers (.inl fun s h => ⟨0, h.draining s.2⟩) hsizes _ (hidle.pulling id hcode)
    (fun _ _ _ _ => trivial) (fun _ _ _ _ _ => trivial)

theorem unzip_delivers {library : LzoLibrary} (hportion : portion.Whole)
    (hlibrary : LzoFilter.Decompresses library) {P : List Nat → Nat → Prop}
    {Fits : LzoFilter × Bytes → Nat → Prop}
    (hfits : ∀ s size portions, LzoFilter.unzipPortions library s.2 = some portions →
      P (portions.map List.length) s.1.availOut → Fits s size →
      size < 2 ^ 64 ∧ LzoFilter.HeadersFit (portions.map List.length) 0 size s.1.availOut ∧
        P (LzoFilter.pullLeaves (portions.map List.length) 0 size s.1.availOut).1
          (LzoFilter.pullLeaves (portions.map List.length) 0 size s.1.availOut).2) :
    PullProtocol.Delivers ((LzoFilter.unzipMethods library).pull Bytes
      (handleInputFault portion (LzoFilter.unzipMethods library).push)) .empty Fits (fun _ => True)
      (LzoFilter.UnzipPulling library id P) LzoFilter.UnzipDraining
      (fun s => LzoFilter.UnzipIdle s.1) :=
  LzoFilter.unzip_delivers (handleInputFault_feedsWhole hportion LzoFilter.push) hlibrary hfits

theorem mayFlushTwice {library : LzoLibrary} :
    MayFlushTwice portion (LzoFilter.unzipMethods library) LzoFilter.UnzipDraining
      (fun s => LzoFilter.UnzipIdle s.1) :=
  .inl fun _ h => ⟨0, h, rfl⟩

theorem readsAs_lzoUnzip {library : LzoLibrary} (hlibrary : LzoFilter.Decompresses library)
    (hbuffer : 8 ≤ inputBuffer.length) (hportion : portion.Whole) {portions : List Bytes}
    (hportions : LzoFilter.unzipPortions library backend = some portions)
    (hsizes : ∀ i, 0 < sizes i)
    (hfits : ∀ j filter backend',
      ReadsTo portion (LzoFilter.unzipMethods library) sizes 0
        ⟨LzoFilter.newUnzip inputBuffer junk, backend, false, false⟩ j
        ⟨filter, backend', false, false⟩ →
      LzoFilter.UnzipFits library id (filter, backend') (sizes j)) :
    ReadsAs portion (LzoFilter.unzipMethods library) sizes 0
      ⟨LzoFilter.newUnzip inputBuffer junk, backend, false, false⟩ [] portions.flatten := by
  have hidle := LzoFilter.unzipIdle_new hbuffer junk
  have hpulling : LzoFilter.UnzipPulling library id (fun _ _ => True) _
      (LzoFilter.newUnzip inputBuffer junk, backend) portions.flatten :=
    hidle.pulling id hportions trivial
  refine readsAs_pulling (unzip_delivers hportion hlibrary ?_) mayFlushTwice hsizes _ hpulling hfits
    (fun _ _ _ _ _ => trivial)
  rintro s size portions' hportions' - ⟨hwide, hheaders⟩
  exact ⟨hwide, hheaders portions' hportions', trivial⟩

/-- Reads of 62 bytes or more meet the condition, if no portion is empty. -/
theorem meets_of_nonempty {library : LzoLibrary} (hlibrary : LzoFilter.Decompresses library)
    (hbuffer : 8 ≤ inputBuffer.length) (hportion : portion.Whole) {portions : List Bytes}
    (hportions : LzoFilter.unzipPortions library backend = some portions)
    (hnonempty : ∀ portion ∈ portions, portion ≠ [])
    (hsizes : ∀ i, 62 ≤ sizes i ∧ sizes i < 2 ^ 64) :
    (lzoUnzip library).Meets portion sizes
      ((lzoUnzip library).openStream inputBuffer junk backend) := by
  refine ⟨hbuffer, hportion, fun j filter backend' hto => ?_⟩
  have hidle := LzoFilter.unzipIdle_new hbuffer junk
  have hlengths : LzoFilter.NonemptyPortions (portions.map List.length) 0 := by
    intro length hlength
    obtain ⟨portion, hmem, rfl⟩ := List.mem_map.mp hlength
    exact List.length_pos_of_ne_nil (hnonempty portion hmem)
  have hdelivers : PullProtocol.Delivers ((LzoFilter.unzipMethods library).pull Bytes
      (handleInputFault portion (LzoFilter.unzipMethods library).push)) .empty
      (fun _ size => 62 ≤ size ∧ size < 2 ^ 64) (fun _ => True)
      (LzoFilter.UnzipPulling library id LzoFilter.NonemptyPortions) LzoFilter.UnzipDraining
      (fun s => LzoFilter.UnzipIdle s.1) := by
    refine unzip_delivers hportion hlibrary ?_
    rintro s size portions' - hall ⟨hlarge, hwide⟩
    refine ⟨hwide, LzoFilter.HeadersFit.of_nonempty hall (by omega), ?_⟩
    intro length hlength
    exact hall length ((LzoFilter.pullLeaves_suffix _ 0 size s.1.availOut).subset hlength)
  obtain ⟨n, out, hpulling⟩ := hto.pulling hdelivers mayFlushTwice
    (fun i => Nat.lt_of_lt_of_le (by decide) (hsizes i).1) (fun i _ _ _ _ => hsizes i)
    (fun _ _ _ => trivial) rfl (hidle.pulling id hportions hlengths) rfl
  exact hpulling.fits (hsizes j).1 (hsizes j).2

end StreamFilter

/-- A portion of three bytes, as the zip filter writes it. -/
def samplePortion : Bytes := [0, 0, 0, 7, 0, 0, 0, 3, 20, 1, 2, 3, 17, 0, 0]

theorem unzipPortions_samplePortion :
    LzoFilter.unzipPortions literalLzo samplePortion = some [[1, 2, 3]] :=
  LzoFilter.unzipPortions_cons (List.cons_ne_nil _ _) (by decide) rfl rfl LzoFilter.unzipPortions_nil

def sampleUnzipStream : FilteredStream LzoFilter :=
  (StreamFilter.lzoUnzip literalLzo).openStream (List.replicate 16 0) (fun _ => 0) samplePortion

end Libchop
