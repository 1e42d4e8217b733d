import Libchop.Filter.FilteredStore
import Libchop.Filter.LzoIsolation
import Libchop.Filter.StreamChunking

/-!
# What earlier reads of a filtered store do to later ones

All reads share one unzip filter.  As long as the blocks are well-formed the filter is left as new, and the
next read does what it does with a new filter, whatever its block holds.  A read of a block that is not
well-formed may leave the filter in any state.
-/

namespace Libchop

namespace StreamFilter

def Unzips : StreamFilter → Prop
  | zip c _ => c.isZip = false
  | lzoZip _ => False
  | lzoUnzip _ => True

def HasRoom : StreamFilter → Bytes → Prop
  | lzoUnzip _, inputBuffer => 8 ≤ inputBuffer.length
  | _, inputBuffer => inputBuffer ≠ []

/-- What a filter with an input buffer of this size is told of a block. -/
def told : StreamFilter → Nat → Bytes → Bytes
  | zip _ _, size, block => received (fun _ => size) block
  | lzoZip _, _, block | lzoUnzip _, _, block => block

/-- A block that is unzipped to its end.  The pulls of `chop_filter_through` have room for the headers of
LZO. -/
def WellFormed : StreamFilter → Nat → Bytes → Prop
  | zip _ library, size, block => (library.code (received (fun _ => size) block)).isSome = true
  | lzoZip _, _, _ => False
  | lzoUnzip library, _, block => ∃ portions, LzoFilter.unzipPortions library block = some portions ∧
    LzoFilter.ThroughFits (portions.map List.length) 0

/-- A block whose headers tell the truth. -/
def Honest : StreamFilter → Bytes → Prop
  | lzoUnzip library, block => ¬ LzoFilter.Lying library block
  | _, _ => True

theorem HasRoom.of_length {f : StreamFilter} {inputBuffer inputBuffer' : Bytes}
    (h : f.HasRoom inputBuffer) (hlength : inputBuffer'.length = inputBuffer.length) :
    f.HasRoom inputBuffer' := by
  have hne : inputBuffer ≠ [] → inputBuffer' ≠ [] := by
    intro hne
    exact List.ne_nil_of_length_pos (hlength ▸ List.length_pos_of_ne_nil hne)
  cases f with
  | zip c library => exact hne h
  | lzoZip library => exact hne h
  | lzoUnzip library => exact Nat.le_trans h (Nat.le_of_eq hlength.symm)

def Idle : (f : StreamFilter) → Nat → f.Filter → Prop
  | zip _ library, size, filter => ZipFilter.Idle library size filter
  | lzoZip _, _, _ => False
  | lzoUnzip _, _, filter => LzoFilter.UnzipIdle filter

variable {f : StreamFilter}

theorem idle_new (hf : f.Unzips) {inputBuffer : Bytes} (h : f.HasRoom inputBuffer)
    (junk : Nat → UInt8) : f.Idle inputBuffer.length (f.new inputBuffer junk) := by
  cases f with
  | zip c library => exact ZipFilter.idle_new h
  | lzoZip library => exact hf.elim
  | lzoUnzip library => exact LzoFilter.unzipIdle_new h junk

/-- Well-formed blocks leave the filter as new. -/
theorem through_wellFormed (hf : f.Unzips) (hlawful : f.Lawful) {size : Nat} {filter : f.Filter}
    (h : f.Idle size filter) {block : Bytes} (hblock : f.WellFormed size block) :
    ∃ output filter', f.code size (f.told size block) = some output ∧ f.Idle size filter' ∧
      Outcome.Settles (fun fuel => chopFilterThrough f.methods fuel filter block)
        (.ok (), output, filter') := by
  cases f with
  | zip c library =>
    obtain ⟨coded, hcoded⟩ := Option.isSome_iff_exists.mp hblock
    obtain ⟨filter', hidle, hthrough⟩ := ZipFilter.through_received hlawful h hcoded
    exact ⟨coded, filter', hcoded, hidle, hthrough⟩
  | lzoZip library => exact hf.elim
  | lzoUnzip library =>
    obtain ⟨portions, hportions, hfits⟩ := hblock
    obtain ⟨filter', hidle, hthrough⟩ := LzoFilter.unzip_through_eq hlawful h hportions hfits
    exact ⟨portions.flatten, filter', congrArg (Option.map List.flatten) hportions, hidle, hthrough⟩

/-- Filters that are as new do the same to a block. -/
theorem through_alike (hf : f.Unzips) (hlawful : f.Lawful) {size : Nat} {filter filter' : f.Filter}
    (h : f.Idle size filter) (h' : f.Idle size filter') {block : Bytes} (hblock : f.Honest block)
    (fuel : Nat) :
    Outcome.Related (fun a b => a.1 = b.1 ∧ a.2.1 = b.2.1)
      (chopFilterThrough f.methods fuel filter block)
      (chopFilterThrough f.methods fuel filter' block) := by
  cases f with
  | zip c library =>
    exact chopFilterThrough_alike ZipFilter.pull_alike fuel (ZipFilter.Alike.of_idle h h' block)
  | lzoZip library => exact hf.elim
  | lzoUnzip library =>
    exact chopFilterThrough_alike (LzoFilter.unzipPull_alike hlawful) fuel
      (LzoFilter.Alike.of_idle h h' hblock)

end StreamFilter

section Isolation

variable {F σ : Type} (input : FilterMethods F) (f : StreamFilter) (backend : StoreMethods σ)

def readReply (fuel : Nat) (store : FilteredBlockStore F f.Filter σ) (key buffer : Bytes) :
    Outcome FilteredReply :=
  filteredStep input f.methods backend fuel store (.readBlock key buffer) >>= fun (reply, _) =>
    .done reply

/-- A read under a key does what it does with a new filter over any backend that has the same block
under this key. -/
def ReadsAlone (contents : σ → BlockMap) (size : Nat) (store : FilteredBlockStore F f.Filter σ)
    (key : Bytes) : Prop :=
  ∀ fuel buffer inputFilter inputBuffer junk s, inputBuffer.length = size →
    contents s key = contents store.backend key →
    readReply input f backend fuel store key buffer =
      readReply input f backend fuel ⟨inputFilter, f.new inputBuffer junk, s⟩ key buffer

/-- Blocks are read one after another, each to a buffer that holds something. -/
def readRun (fuel : Nat) (store : FilteredBlockStore F f.Filter σ) (reads : List (Bytes × Bytes)) :
    Outcome (List FilteredReply × FilteredBlockStore F f.Filter σ) :=
  Refinement.run (filteredStep input f.methods backend fuel) store
    (reads.map fun read => .readBlock read.1 read.2)

variable {f backend} {contents : σ → BlockMap}

/-- A read of a block that is not there, or that is well-formed, leaves the filter as new. -/
theorem filteredStep_read_wellFormed (hf : f.Unzips) (hlawful : f.Lawful)
    (hbackend : MapStore backend contents) {size : Nat} {store : FilteredBlockStore F f.Filter σ}
    (hidle : f.Idle size store.outputFilter) {key : Bytes} (buffer : Bytes)
    (hkey : ∀ block, contents store.backend key = some block → f.WellFormed size block) :
    ∃ reply store', Outcome.Settles
        (fun fuel => filteredStep input f.methods backend fuel store (.readBlock key buffer))
        (reply, store') ∧
      f.Idle size store'.outputFilter ∧ contents store'.backend = contents store.backend := by
  rcases hbackend.read_cases key store.backend with
    ⟨block, s', hblock, hread, hcontents⟩ | ⟨s', -, hread, hcontents⟩
  · obtain ⟨output, filter', -, hidle', hthrough⟩ :=
      StreamFilter.through_wellFormed hf hlawful hidle (hkey block hblock)
    refine ⟨.block (.ok ()) output output.length,
      { store with outputFilter := filter', backend := s' }, ?_, hidle', hcontents⟩
    refine hthrough.imp fun fuel hdone => ?_
    simp only [filteredStep, chopFilteredBlockStoreReadBlock, hread, hdone, Outcome.done_bind]
  · refine ⟨.block (.error (.other .storeBlockUnavail)) buffer 0, { store with backend := s' },
      .of_eq fun fuel => ?_, hidle, hcontents⟩
    simp only [filteredStep, chopFilteredBlockStoreReadBlock, hread, Outcome.done_bind]

theorem readRun_wellFormed (hf : f.Unzips) (hlawful : f.Lawful)
    (hbackend : MapStore backend contents) {size : Nat} {reads : List (Bytes × Bytes)}
    {store : FilteredBlockStore F f.Filter σ} (hidle : f.Idle size store.outputFilter)
    (hreads : ∀ read ∈ reads, ∀ block, contents store.backend read.1 = some block →
      f.WellFormed size block) :
    ∃ replies store', Outcome.Settles (fun fuel => readRun input f backend fuel store reads)
        (replies, store') ∧
      f.Idle size store'.outputFilter ∧ contents store'.backend = contents store.backend := by
  induction reads generalizing store with
  | nil => exact ⟨[], store, .of_eq fun _ => rfl, hidle, rfl⟩
  | cons read reads ih =>
    obtain ⟨hfirst, hrest⟩ := List.forall_mem_cons.mp hreads
    obtain ⟨reply, store₁, hstep, hidle₁, hcontents₁⟩ :=
      filteredStep_read_wellFormed input hf hlawful hbackend hidle read.2 hfirst
    obtain ⟨replies, store₂, hrun, hidle₂, hcontents₂⟩ := ih hidle₁ (hcontents₁ ▸ hrest)
    refine ⟨reply :: replies, store₂, ?_, hidle₂, hcontents₂.trans hcontents₁⟩
    exact hstep.bind (hrun.bind (.of_eq fun _ => rfl))

/-- With a filter that is as new, a read depends on its own block only. -/
theorem readsAlone_of_idle (hf : f.Unzips) (hlawful : f.Lawful)
    (hbackend : MapStore backend contents) {size : Nat} (hroom : ∀ inputBuffer : Bytes,
      inputBuffer.length = size → f.HasRoom inputBuffer)
    {store : FilteredBlockStore F f.Filter σ} (hidle : f.Idle size store.outputFilter) {key : Bytes}
    (hhonest : ∀ block, contents store.backend key = some block → f.Honest block) :
    ReadsAlone input f backend contents size store key := by
  rintro fuel buffer inputFilter inputBuffer junk s rfl hsame
  have hnew := StreamFilter.idle_new hf (hroom inputBuffer rfl) junk
  rcases hbackend.read_cases key store.backend with
    ⟨block, s₁, hblock, hread, -⟩ | ⟨s₁, hnone, hread, -⟩
  · rcases hbackend.read_cases key s with ⟨block', s₂, hblock', hread', -⟩ | ⟨s₂, hnone', -⟩
    · rw [hblock, hblock'] at hsame
      cases hsame
      simp only [readReply, filteredStep, chopFilteredBlockStoreReadBlock, hread, hread',
        Outcome.bind_assoc, Outcome.done_bind]
      refine (StreamFilter.through_alike hf hlawful hidle hnew (hhonest block hblock) fuel).bind_eq ?_
      rintro ⟨err, output, filter₁⟩ ⟨_, _, filter₂⟩ ⟨rfl, rfl⟩
      rfl
    · rw [hblock, hnone'] at hsame
      cases hsame
  · rcases hbackend.read_cases key s with ⟨block', s₂, hblock', -⟩ | ⟨s₂, -, hread', -⟩
    · rw [hnone, hblock'] at hsame
      cases hsame
    · simp only [readReply, filteredStep, chopFilteredBlockStoreReadBlock, hread, hread',
        Outcome.done_bind]

variable (f) in
/-- After any sequence of reads of blocks that are not there or well-formed, each read does what it does
with a new filter, whatever its own block holds, if the headers of an LZO block tell the truth. -/
theorem filteredStore_readsAlone (hf : f.Unzips) (hlawful : f.Lawful)
    (hbackend : MapStore backend contents) {inputBuffer : Bytes} (hbuffer : f.HasRoom inputBuffer)
    (junk : Nat → UInt8) (inputFilter : F) (s : σ) (reads : List (Bytes × Bytes))
    (hreads : ∀ read ∈ reads, ∀ block, contents s read.1 = some block →
      f.WellFormed inputBuffer.length block) :
    ∃ replies store', Outcome.Settles
        (fun fuel => readRun input f backend fuel ⟨inputFilter, f.new inputBuffer junk, s⟩ reads)
        (replies, store') ∧
      ∀ key, (∀ block, contents s key = some block → f.Honest block) →
        ReadsAlone input f backend contents inputBuffer.length store' key := by
  let store : FilteredBlockStore F f.Filter σ := ⟨inputFilter, f.new inputBuffer junk, s⟩
  have hnew : f.Idle inputBuffer.length store.outputFilter := StreamFilter.idle_new hf hbuffer junk
  obtain ⟨replies, store', hrun, hidle, hcontents⟩ :=
    readRun_wellFormed input hf hlawful hbackend hnew hreads
  refine ⟨replies, store', hrun, fun key hhonest => ?_⟩
  refine readsAlone_of_idle input hf hlawful hbackend (fun _ => hbuffer.of_length) hidle ?_
  rw [hcontents]
  exact hhonest

end Isolation

/-- A block that is corrupted or ends too early, and a block that is well-formed. -/
def sampleBlocks (bad good : Bytes) : BlockMap := fun key =>
  if key = [1] then some bad else if key = [2] then some good else none

def sampleZlibStore : FilteredBlockStore (ZipFilter EscapeCodec.ZipState)
    (StreamFilter.zip .zlibUnzip escapeUnzip).Filter BlockMap :=
  ⟨ZipFilter.new escapeZip [0], ZipFilter.new escapeUnzip [0, 0],
    sampleBlocks [EscapeCodec.header, 2] (EscapeCodec.zip [5])⟩

/-- An empty portion before another one. -/
def samplePortions : Bytes := [0, 0, 0, 4, 0, 0, 0, 0, 17, 17, 0, 0] ++ samplePortion

theorem unzipPortions_samplePortions :
    LzoFilter.unzipPortions literalLzo samplePortions = some [[], [1, 2, 3]] :=
  LzoFilter.unzipPortions_cons (List.cons_ne_nil _ _) (by decide) rfl rfl unzipPortions_samplePortion

theorem throughFits_samplePortions : LzoFilter.ThroughFits [0, 3] 0 := by
  refine LzoFilter.throughFits_iff.mpr ⟨?_, LzoFilter.ThroughFits.nil _⟩
  simp [LzoFilter.HeadersFit, throughBlockSize]

def sampleLzoStore :
    FilteredBlockStore (ZipFilter EscapeCodec.ZipState) (StreamFilter.lzoUnzip literalLzo).Filter
      BlockMap :=
  ⟨ZipFilter.new escapeZip [0], LzoFilter.newUnzip (List.replicate 18 0) (fun _ => 0),
    sampleBlocks (samplePortion.take 9) samplePortions⟩

/-- Two reads of a good block and one of a block that is not there. -/
def sampleReads : List (Bytes × Bytes) := [([2], [9]), ([3], []), ([2], [])]

theorem sampleReads_good {P : Bytes → Prop} {bad good : Bytes} (h : P good) :
    ∀ read ∈ sampleReads, ∀ block, id (sampleBlocks bad good) read.1 = some block → P block := by
  intro read hread block hblock
  have hkey : read.1 = [2] ∨ read.1 = [3] := by
    simp only [sampleReads, List.mem_cons, List.not_mem_nil, or_false] at hread
    rcases hread with rfl | rfl | rfl
    · exact .inl rfl
    · exact .inr rfl
    · exact .inl rfl
  rcases hkey with hkey | hkey
  · rw [hkey] at hblock
    cases hblock
    exact h
  · rw [hkey] at hblock
    cases hblock

theorem sampleStores_readAlone :
    (∃ replies store', Outcome.Settles
        (fun fuel => readRun (ZipFilter.methods escapeZip) (.zip .zlibUnzip escapeUnzip)
          BlockMap.methods fuel sampleZlibStore sampleReads) (replies, store') ∧
      ReadsAlone (ZipFilter.methods escapeZip) (.zip .zlibUnzip escapeUnzip) BlockMap.methods id 2
        store' [1]) ∧
    (∃ replies store', Outcome.Settles
        (fun fuel => readRun (ZipFilter.methods escapeZip) (.lzoUnzip literalLzo)
          BlockMap.methods fuel sampleLzoStore sampleReads) (replies, store') ∧
      ReadsAlone (ZipFilter.methods escapeZip) (.lzoUnzip literalLzo) BlockMap.methods id 18
        store' [2]) := by
  have hgood : (StreamFilter.lzoUnzip literalLzo).WellFormed 18 samplePortions :=
    ⟨[[], [1, 2, 3]], unzipPortions_samplePortions, throughFits_samplePortions⟩
  have hreceived : received (fun _ => 2) (EscapeCodec.zip [5]) = EscapeCodec.zip [5] :=
    received_eq_of_short (by decide) (.inl (by decide))
  have hzipped : (StreamFilter.zip .zlibUnzip escapeUnzip).WellFormed 2 (EscapeCodec.zip [5]) := by
    refine Option.isSome_iff_exists.mpr ⟨[5], ?_⟩
    rw [hreceived]
    exact EscapeCodec.unzip_zip [5]
  constructor
  · obtain ⟨replies, store', hrun, halone⟩ := filteredStore_readsAlone (ZipFilter.methods escapeZip)
      (.zip .zlibUnzip escapeUnzip) rfl nofun BlockMap.mapStore (List.cons_ne_nil 0 [0]) (fun _ => 0)
      (ZipFilter.new escapeZip [0]) sampleZlibStore.backend sampleReads
      (sampleReads_good hzipped)
    exact ⟨replies, store', hrun, halone [1] fun _ _ => trivial⟩
  · obtain ⟨replies, store', hrun, halone⟩ := filteredStore_readsAlone (ZipFilter.methods escapeZip)
      (.lzoUnzip literalLzo) trivial literalLzo_decompresses BlockMap.mapStore
      (by decide : 8 ≤ (List.replicate 18 (0 : UInt8)).length) (fun _ => 0)
      (ZipFilter.new escapeZip [0]) sampleLzoStore.backend sampleReads (sampleReads_good hgood)
    refine ⟨replies, store', hrun, halone [2] fun block hblock => ?_⟩
    cases hblock
    exact LzoFilter.not_lying literalLzo_decompresses unzipPortions_samplePortions

def succeeded : Outcome FilteredReply → Bool
  | .done (.block (.ok _) _ _) => true
  | _ => false

/-- After a read of the block that is corrupted, or ends too early, a read of the good block fails. -/
theorem sampleStores_not_readAlone :
    (∃ replies store', Outcome.Settles
        (fun fuel => readRun (ZipFilter.methods escapeZip) (.zip .zlibUnzip escapeUnzip)
          BlockMap.methods fuel sampleZlibStore [([1], [])]) (replies, store') ∧
      ¬ ReadsAlone (ZipFilter.methods escapeZip) (.zip .zlibUnzip escapeUnzip) BlockMap.methods id 2
        store' [2]) ∧
    (∃ replies store', Outcome.Settles
        (fun fuel => readRun (ZipFilter.methods escapeZip) (.lzoUnzip literalLzo)
          BlockMap.methods fuel sampleLzoStore [([1], [])]) (replies, store') ∧
      ¬ ReadsAlone (ZipFilter.methods escapeZip) (.lzoUnzip literalLzo) BlockMap.methods id 18
        store' [2]) := by
  constructor
  · refine ⟨_, _, .of_add 20 fun fuel => rfl, fun halone => ?_⟩
    have hsame := halone 20 [] (ZipFilter.new escapeZip [0]) [0, 0] (fun _ => 0)
      sampleZlibStore.backend rfl rfl
    have hok : false = true := congrArg succeeded hsame
    cases hok
  · refine ⟨_, _, .of_add 20 fun fuel => rfl, fun halone => ?_⟩
    have hsame := halone 20 [] (ZipFilter.new escapeZip [0]) (List.replicate 18 0) (fun _ => 0)
      sampleLzoStore.backend rfl rfl
    have hok : false = true := congrArg succeeded hsame
    cases hok

end Libchop
