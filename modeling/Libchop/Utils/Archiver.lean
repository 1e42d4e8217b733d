import Libchop.Chopper.ChopperRuns
import Libchop.Tree.Objects

/-!
# The archiver

`chop-archiver` indexes the blocks of a stream and prints an index tuple.  From such a tuple, given on its
command line, it writes the stream back.
-/

namespace Libchop

variable {σ : Type}

/-- What an archiver is started with to archive a stream: the blocks of the stream, the indexer and the
block indexer, and random bytes. -/
structure ArchiveJob where
  input : ChopperRun
  indexesPerBlock : Nat
  blockIndexer : BlockIndexerObject
  randoms : Nat → List (Nat → UInt8)

/-- The random bytes are those of the job. -/
def ArchiveJob.context (job : ArchiveJob) (context : ProcessContext σ) : ProcessContext σ :=
  { context with randoms := job.randoms }

/-- What `printf` prints of a buffer. -/
def printedString (buffer : Bytes) : Bytes := buffer.takeWhile (· ≠ 0)

/-- `do_archive`: the line that is printed, unless it fails, and a ghost list of its block writes.  A
handle that was never initialized is not printed. -/
def doArchive (context : ProcessContext σ) (fuel : Nat) (job : ArchiveJob) (store : LoggedStores σ) :
    Outcome ((Except ChopError Bytes × List WriteEvent) × LoggedStores σ) :=
  chopTreeIndexBlocks
      (objectIndexer (job.context context) job.blockIndexer.indexHandleClass)
      job.indexesPerBlock fuel job.input ⟨⟨store, job.blockIndexer, 0, false⟩, [], []⟩ >>= fun (result, s) =>
    Outcome.assert (s.world.ended = false) >>= fun _ =>
      match result with
      | .error err =>
        if err = .streamEnd then .abort else .done ((.error err, s.trace), s.world.store)
      | .ok none => .abort
      | .ok (some handle) =>
        .done ((.ok (printedString (chopAsciiSerializeIndexTuple handle.1 job.indexesPerBlock
          s.world.blockIndexer)), s.trace), s.world.store)

def retrieveBufferSize : Nat := 3577

/-- The loop of `do_retrieve`: how it ends, and what was written before. -/
def doRetrieveLoop {τ H : Type} (bf : BlockFetcher τ H) (fuel : Nat) :
    Nat → DecodedBlockTree H → ReadState τ → Bytes → Outcome (Status × Bytes × ReadState τ)
  | 0, _, _, _ => .outOfFuel
  | rounds + 1, tree, s, written =>
    treeStreamRead bf fuel tree retrieveBufferSize s >>= fun (status, bytes, tree, s) =>
      match status with
      | .error err => .done (if err = .streamEnd then .ok () else .error err, written, s)
      | .ok _ => doRetrieveLoop bf fuel rounds tree s (written ++ bytes)

/-- `do_retrieve`, on a handle whose block has a size of four bytes. -/
def doRetrieve (context : ProcessContext σ) (memory : FetcherWorld σ → DecodedBlock) (fuel : Nat)
    (handle : IndexHandle) (fetcher : BlockFetcherObject) (stores : σ) :
    Outcome (Status × Bytes × σ) :=
  if h : handle.FitsBinary then
    doRetrieveLoop (objectFetcher context fetcher handle.rtClass memory) fuel fuel
        (chopTreeFetchStream ⟨handle, rfl, h⟩) ⟨⟨stores, false⟩, []⟩ [] >>= fun (status, written, s) =>
      Outcome.assert (s.world.ended = false) >>= fun _ => .done (status, written, s.world.stores)
  else .abort

/-- The two steps in which `process_command` reads a tuple: the fetcher, unless its cipher could not be
opened, and the handle. -/
def deserializeTuple (chopClassLookup : Bytes → Option RtClass) (ciphers : Ciphers) (argument : Bytes) :
    Except ChopError (Option BlockFetcherObject × IndexHandle) :=
  let buffer := argument ++ [0]
  match chopAsciiDeserializeIndexTupleS1 chopClassLookup buffer with
  | .error err => .error err
  | .ok (indexerClass, fetcherClass, handleClass, bytesRead) =>
    match chopAsciiDeserializeIndexTupleS2 ciphers (buffer.drop bytesRead)
        (buffer.length - bytesRead) indexerClass fetcherClass handleClass with
    | .error err => .error err
    | .ok (_, fetcher, handle, _) => .ok (fetcher, handle)

/-- `process_command` when a tuple is to be restored: the error code and what was written. -/
def processRestore (chopClassLookup : Bytes → Option RtClass) (context : ProcessContext σ)
    (memory : FetcherWorld σ → DecodedBlock) (fuel : Nat) (argument : Bytes) (stores : σ) :
    Outcome (Status × Bytes × σ) :=
  match deserializeTuple chopClassLookup context.ciphers argument with
  | .error err => .done (.error err, [], stores)
  | .ok (none, _) => .abort
  | .ok (some fetcher, handle) => doRetrieve context memory fuel handle fetcher stores

section Tuples

/-- Text with a null character after it, and none in it. -/
def EndsWithNull (buffer : Bytes) : Prop := ∃ text, buffer = text ++ [0] ∧ (0 : UInt8) ∉ text

theorem EndsWithNull.printedString_append {buffer : Bytes} (h : EndsWithNull buffer) :
    printedString buffer ++ [0] = buffer := by
  obtain ⟨text, rfl, hnull⟩ := h
  have htext : ∀ c ∈ text, decide (c ≠ 0) = true := by
    intro c hc
    refine decide_eq_true ?_
    rintro rfl
    exact hnull hc
  rw [printedString, List.takeWhile_append_of_pos htext, List.takeWhile_cons_of_neg (by decide),
    List.append_nil]

theorem EndsWithNull.append {buffer : Bytes} (h : EndsWithNull buffer) {text : Bytes}
    (htext : (0 : UInt8) ∉ text) : EndsWithNull (text ++ buffer) := by
  obtain ⟨rest, rfl, hrest⟩ := h
  refine ⟨text ++ rest, (List.append_assoc _ _ _).symm, ?_⟩
  rw [List.mem_append]
  exact not_or.mpr ⟨htext, hrest⟩

theorem EndsWithNull.cons {buffer : Bytes} (h : EndsWithNull buffer) {c : UInt8} (hc : c ≠ 0) :
    EndsWithNull (c :: buffer) := by
  refine h.append (?_ : (0 : UInt8) ∉ [c])
  rw [List.mem_singleton]
  exact hc.symm

theorem endsWithNull_singleton : EndsWithNull [0] := ⟨[], rfl, List.not_mem_nil⟩

theorem IsField.null_notMem {text : Bytes} (h : IsField text) : (0 : UInt8) ∉ text :=
  fun hnull => (isField_iff.mp h 0 hnull).2 rfl

private theorem base32_null_notMem (buffer : Bytes) :
    (0 : UInt8) ∉ chopBufferToBase32String buffer := by
  intro hnull
  have hslash : isBase32Text CText.slash = false := rfl
  exact (base32_stops hslash 0 hnull).2 rfl

theorem IndexHandle.serialize_endsWithNull (index : IndexHandle) : EndsWithNull index.serialize := by
  have hdigits : ∀ n, EndsWithNull (CText.hexDigits n ++ [0]) := fun n =>
    endsWithNull_singleton.append (isField_hexDigits n).null_notMem
  have hslash : CText.slash ≠ 0 := by decide
  have hcomma : CText.comma ≠ 0 := by decide
  cases index with
  | hash handle =>
    exact ((hdigits handle.blockSize).cons hslash).append (base32_null_notMem handle.content)
  | chk handle =>
    exact ((((hdigits handle.blockSize).cons hslash).append (base32_null_notMem handle.blockId)).cons
      hcomma).append (base32_null_notMem handle.key)
  | integer id =>
    have hid : id.toNat < 16 ^ 8 := id.toNat_lt
    have hlength := CText.length_hexDigitsWide (by decide) hid
    have htext : iihSerialize id = CText.hexDigitsWide 8 id.toNat ++ [0] := by
      rw [iihSerialize, List.take_of_length_le]
      rw [List.length_append, hlength]
      rfl
    rw [IndexHandle.serialize, htext]
    refine endsWithNull_singleton.append ?_
    intro hnull
    exact absurd (CText.isHexDigit_of_mem_hexDigitsWide hnull) (by decide)

/-- A tuple is printed as a whole. -/
theorem indexTuple_endsWithNull {ciphers : Ciphers} {blockIndexer : BlockIndexerObject}
    (h : blockIndexer.fetcher.Complete ciphers) (index : IndexHandle) (n : Nat) :
    EndsWithNull (chopAsciiSerializeIndexTuple index n blockIndexer) := by
  have hcolon : CText.colon ≠ 0 := by decide
  have hclass : ∀ rtClass, (0 : UInt8) ∉ chopClassName rtClass := fun rtClass =>
    (isField_chopClassName rtClass).null_notMem
  have hindexer : (0 : UInt8) ∉ (ihtSerialize n).dropLast := by
    rw [ihtSerialize, List.dropLast_concat]
    exact (isField_hexDigits n).null_notMem
  have hhandle := index.serialize_endsWithNull.cons hcolon
  have hobjects := ((hhandle.append (isField_serialize h).null_notMem).cons hcolon).append hindexer
  have hclasses := ((hobjects.cons hcolon).append (hclass index.rtClass)).cons hcolon
  exact ((hclasses.append (hclass blockIndexer.fetcher.rtClass)).cons hcolon).append
    (hclass .treeIndexer)

end Tuples

section Archive

variable {context : ProcessContext σ} {contents : StoreRole → σ → BlockMap} {fuel : Nat}
  {job : ArchiveJob} {store store' : LoggedStores σ} {events : List WriteEvent}

/-- What an archiver can index: an indexer with three keys or more in a block, a cipher that was opened,
and a stream that ends and does not overflow the counters. -/
structure ArchiveJob.Fits (ciphers : Ciphers) (job : ArchiveJob) : Prop where
  indexesPerBlock : 3 ≤ job.indexesPerBlock
  indexesPerBlock_lt : job.indexesPerBlock < 2 ^ 64
  accepted : job.blockIndexer.accepted ciphers = true
  size : job.input.blocks.flatten.length < 2 ^ 64
  keys : job.indexesPerBlock ≤ 2 ^ 32 ∨ (dataBlocks job.input.blocks).length < 2 ^ 32

/-- The tuple of a handle that leads, through what was written, to a stream. -/
structure Archived (context : ProcessContext σ) (job : ArchiveJob) (text : Bytes)
    (writes : List StoreWrite) : Prop where
  root : ∃ (root : HandleOf job.blockIndexer.indexHandleClass) (levels : Nat)
    (blockIndexer : BlockIndexerObject),
    blockIndexer.fetcher = job.blockIndexer.fetcher ∧
      text = printedString (chopAsciiSerializeIndexTuple root.1 job.indexesPerBlock blockIndexer) ∧
      Encodes (writtenHolds context job.blockIndexer.indexHandleClass job.blockIndexer.fetcher writes)
        (objectIndexer context job.blockIndexer.indexHandleClass).serialize (levels + 1) root
        job.input.blocks.flatten

theorem Archived.mono {text : Bytes} {writes writes' : List StoreWrite}
    (h : Archived context job text writes) (hsubset : writes ⊆ writes') :
    Archived context job text writes' := by
  obtain ⟨root, levels, blockIndexer, hfetcher, htext, hencodes⟩ := h.root
  refine ⟨root, levels, blockIndexer, hfetcher, htext, hencodes.mono ?_⟩
  rintro role handle block ⟨key, content, hfetches, hmem⟩
  exact ⟨key, content, hfetches, hsubset hmem⟩

/-- The run of `chop_tree_index_blocks` in an archive. -/
theorem doArchive_indexBlocks {result : Except ChopError Bytes}
    (h : doArchive context fuel job store = .done ((result, events), store')) :
    ∃ indexed s,
      chopTreeIndexBlocks
          (objectIndexer (job.context context) job.blockIndexer.indexHandleClass)
          job.indexesPerBlock fuel job.input ⟨⟨store, job.blockIndexer, 0, false⟩, [], []⟩ =
        .done (indexed, s) ∧
      s.trace = events ∧ s.world.store = store' ∧
      ∀ text, result = .ok text → ∃ root, indexed = .ok (some root) ∧
        text = printedString
          (chopAsciiSerializeIndexTuple root.1 job.indexesPerBlock s.world.blockIndexer) := by
  obtain ⟨⟨indexed, s⟩, hindex, h⟩ := Outcome.bind_eq_done.mp h
  obtain ⟨-, -, h⟩ := Outcome.bind_eq_done.mp h
  refine ⟨indexed, s, hindex, ?_⟩
  cases indexed with
  | error err =>
    by_cases hend : err = .streamEnd
    · simp only [if_pos hend] at h
      cases h
    · simp only [if_neg hend] at h
      cases h
      exact ⟨rfl, rfl, fun text htext => by cases htext⟩
  | ok handle =>
    cases handle with
    | none => cases h
    | some root =>
      cases h
      exact ⟨rfl, rfl, fun text htext => ⟨root, rfl, (Except.ok.inj htext).symm⟩⟩

/-- An archive only adds writes. -/
theorem doArchive_writes (hinverts : context.ciphers.Inverts) {result : Except ChopError Bytes}
    (h : doArchive context fuel job store = .done ((result, events), store')) :
    store.writes ⊆ store'.writes := by
  obtain ⟨indexed, s, hindex, -, rfl, -⟩ := doArchive_indexBlocks h
  have hinverts : (job.context context).ciphers.Inverts := hinverts
  have hwrites : Preserves (objectIndexer (job.context context) job.blockIndexer.indexHandleClass)
      (fun w => store.writes ⊆ w.store.writes) := by
    intro role block w hsubset
    exact List.Subset.trans hsubset (objectIndexer_writes hinverts role block w)
  exact chopTreeIndexBlocks_preserves hwrites hindex (List.Subset.refl _)

/-- The writes stay in the stores while no key gets other contents. -/
theorem doArchive_present (hinverts : context.ciphers.Inverts)
    (hpair : StorePair context.methods contents) {result : Except ChopError Bytes}
    (h : doArchive context fuel job store = .done ((result, events), store'))
    (hpresent : Consistent store.writes → Present contents store) (hconsistent : Consistent store'.writes) :
    Present contents store' := by
  obtain ⟨indexed, s, hindex, -, rfl, -⟩ := doArchive_indexBlocks h
  have hinverts : (job.context context).ciphers.Inverts := hinverts
  have hpair : StorePair (job.context context).methods contents := hpair
  exact chopTreeIndexBlocks_preserves (objectIndexer_present hinverts hpair) hindex hpresent hconsistent

/-- A tuple that was printed when no write failed. -/
theorem doArchive_archived (hinverts : context.ciphers.Inverts) (hfits : job.Fits context.ciphers)
    (hfuel : 66 ≤ fuel) {text : Bytes}
    (h : doArchive context fuel job store = .done ((.ok text, events), store')) (hok : AllOk events) :
    Archived context job text store'.writes := by
  obtain ⟨indexed, s, hindex, rfl, rfl, hprinted⟩ := doArchive_indexBlocks h
  have hinverts : (job.context context).ciphers.Inverts := hinverts
  obtain ⟨root, rfl, htext⟩ := hprinted text rfl
  obtain ⟨result, s', events, hrun, hspec⟩ := chopTreeIndexBlocks_spec
    (objectIndexer (job.context context) job.blockIndexer.indexHandleClass)
    hfits.indexesPerBlock fuel job.input ⟨⟨store, job.blockIndexer, 0, false⟩, [], []⟩ hfits.size hfuel
    hfits.keys
  rw [hindex] at hrun
  cases hrun
  have htrace : s.trace = events := hspec.writes.trace
  rw [htrace] at hok
  obtain ⟨root', levels, hroot, hstored⟩ := hspec.encodes hok (some root) rfl
  cases hroot
  have hencodes := hstored.mono ((objectIndexer_keepsBlocks hinverts).held hindex)
  have hfetcher : s.world.blockIndexer.fetcher = job.blockIndexer.fetcher := by
    have hkeeps : Preserves (objectIndexer (job.context context) job.blockIndexer.indexHandleClass)
        (fun w => w.blockIndexer.fetcher = job.blockIndexer.fetcher) := by
      intro role block w hw
      exact (objectIndexer_fetcher hinverts role block w).trans hw
    exact chopTreeIndexBlocks_preserves hkeeps hindex rfl
  refine ⟨root, levels, s.world.blockIndexer, hfetcher, htext, ?_⟩
  dsimp only at hencodes
  rw [hfetcher] at hencodes
  exact hencodes

end Archive

section Restore

variable {context : ProcessContext σ} {contents : StoreRole → σ → BlockMap}
  (memory : FetcherWorld σ → DecodedBlock)

/-- A read of a stream all of whose blocks can be fetched, by fetches that succeed. -/
theorem treeStreamRead_fetches {τ H : Type} [Nontrivial H] {bf : BlockFetcher τ H}
    {serialize : H → Bytes} {holds : τ → Holds H} (hfetches : FetchesBlocks bf serialize holds)
    (havailable : Available bf holds) {levels fuel size : Nat} (hsize : 0 < size)
    {tree : DecodedBlockTree H} {xs : Bytes} {s : ReadState τ}
    (hat : StreamAt (holds s.world) serialize levels tree xs)
    (hfuel : xs.length + 2 * levels + 3 < fuel) :
    ∃ tree' s', treeStreamRead bf fuel tree size s =
        .done (if xs = [] then .error .streamEnd else .ok (), xs.take size, tree', s') ∧
      s'.failures = s.failures ∧ StreamAt (holds s'.world) serialize levels tree' (xs.drop size) := by
  obtain ⟨status, bytes, tree', s', hread, hfailed | ⟨hfailures, hstatus, hbytes, hat'⟩⟩ :=
    treeStreamRead_spec hfetches (noEndFailure_of_available havailable) fuel size hat hfuel
  · exact (not_fetchFailed havailable _ _ _ hfailed).elim
  · simp only [hsize, and_true] at hstatus
    rw [hstatus, hbytes] at hread
    exact ⟨tree', s', hread, hfailures, hat'⟩

/-- Rounds of `do_retrieve` write what the stream has left. -/
theorem doRetrieveLoop_fetches {τ H : Type} [Nontrivial H] {bf : BlockFetcher τ H}
    {serialize : H → Bytes} {holds : τ → Holds H} (hfetches : FetchesBlocks bf serialize holds)
    (havailable : Available bf holds) {inv : ReadState τ → Prop} (hinv : ReadPreserves bf inv)
    {levels fuel : Nat} (rounds : Nat) {tree : DecodedBlockTree H} {xs : Bytes} {s : ReadState τ}
    (written : Bytes) (hat : StreamAt (holds s.world) serialize levels tree xs) (hs : inv s)
    (hfuel : xs.length + 2 * levels + 3 < fuel) (hrounds : xs.length + 1 < rounds) :
    ∃ s', doRetrieveLoop bf fuel rounds tree s written = .done (.ok (), written ++ xs, s') ∧
      s'.failures = s.failures ∧ inv s' := by
  induction rounds generalizing tree xs s written with
  | zero => omega
  | succ rounds ih =>
    have hsize : 0 < retrieveBufferSize := by decide
    obtain ⟨tree', s', hread, hfailures, hat'⟩ :=
      treeStreamRead_fetches hfetches havailable hsize hat hfuel
    have hs' := treeStreamRead_preserves hinv hread hs
    rw [doRetrieveLoop, hread, Outcome.done_bind]
    by_cases hend : xs = []
    · subst hend
      refine ⟨s', ?_, hfailures, hs'⟩
      rw [List.append_nil]
      rfl
    · have hlength := List.length_pos_of_ne_nil hend
      have hless : (xs.drop retrieveBufferSize).length < xs.length := by
        rw [List.length_drop, retrieveBufferSize]
        omega
      obtain ⟨s'', hrest, hfailures', hs''⟩ :=
        ih (written ++ xs.take retrieveBufferSize) hat' hs' (by omega) (by omega)
      rw [List.append_assoc, List.take_append_drop] at hrest
      refine ⟨s'', ?_, hfailures'.trans hfailures, hs''⟩
      rw [if_neg hend]
      exact hrest

/-- The stores keep their contents, and the process only ends in a fetch that fails. -/
theorem objectFetcher_preserves (hpair : StorePair context.methods contents)
    (fetcher : BlockFetcherObject) (indexClass : RtClass) (stores : σ) :
    ReadPreserves (objectFetcher context fetcher indexClass memory)
      (fun s => (∀ role, contents role s.world.stores = contents role stores) ∧
        (s.world.ended = true → s.failures ≠ [])) where
  ok := by
    intro role handle s bytes world hs hfetch
    refine ⟨fun other => ?_, fun hended => ?_⟩
    · have hcontents := objectFetcher_contents hpair fetcher memory role other
        handle s.world
      rw [hfetch] at hcontents
      exact hcontents.trans (hs.1 other)
    · rw [objectFetcher_ended hfetch] at hended
      exact hs.2 hended
  error := by
    intro role handle s err left world hs hfetch
    refine ⟨fun other => ?_, fun _ => List.append_ne_nil_of_right_ne_nil _ (List.cons_ne_nil _ _)⟩
    have hcontents := objectFetcher_contents hpair fetcher memory role other
      handle s.world
    rw [hfetch] at hcontents
    exact hcontents.trans (hs.1 other)

/-- A tuple whose stream can be read back is restored, and the stores keep their contents. -/
theorem doRetrieve_encodes (hpair : StorePair context.methods contents) {fetcher : BlockFetcherObject}
    {indexClass : RtClass} (root : HandleOf indexClass) {levels fuel : Nat} {xs : Bytes} {stores : σ}
    (hencodes : Encodes (storedHolds context indexClass fetcher contents stores)
      (objectIndexer context indexClass).serialize (levels + 1) root xs)
    (hfuel : xs.length + 2 * levels + 3 < fuel) :
    ∃ stores', doRetrieve context memory fuel root.1 fetcher stores = .done (.ok (), xs, stores') ∧
      ∀ role, contents role stores' = contents role stores := by
  have hnontrivial := root.nontrivial
  obtain ⟨handle, rfl, hfits⟩ := root
  have hstart : (∀ role, contents role stores = contents role stores) ∧
      (false = true → ([] : List ChopError) ≠ []) := ⟨fun _ => rfl, fun hended => by cases hended⟩
  have hat : StreamAt (storedHolds context handle.rtClass fetcher contents stores)
      (objectIndexer context handle.rtClass).serialize levels
      (chopTreeFetchStream ⟨handle, rfl, hfits⟩) xs := .inl ⟨rfl, hencodes⟩
  have hinv := objectFetcher_preserves memory hpair fetcher handle.rtClass stores
  obtain ⟨s', hloop, hfailures, hcontents, hended⟩ := doRetrieveLoop_fetches
    (objectFetcher_fetchesBlocks hpair) (objectFetcher_available hpair) hinv
    (s := ⟨⟨stores, false⟩, []⟩) fuel [] hat hstart hfuel (by omega)
  have hon : s'.world.ended = false := by
    rw [← Bool.not_eq_true]
    exact fun h => hended h hfailures
  refine ⟨s'.world.stores, ?_, hcontents⟩
  rw [doRetrieve, dif_pos hfits, hloop, Outcome.done_bind]
  dsimp only
  rw [Outcome.assert_of hon]
  rfl

theorem IndexHandle.Describes.fits_of_fitsBinary {block : Bytes} {index : IndexHandle}
    (h : index.Describes block) (hfits : index.FitsBinary) : index.Fits := by
  cases index with
  | hash handle => exact ⟨h.2, hfits.1.trans (by decide)⟩
  | chk handle => exact ⟨h.2.1, h.2.2, hfits.1.trans (by decide)⟩
  | integer id => trivial

/-- The tuple is read back as the fetcher of the block indexer and the root handle. -/
theorem deserializeTuple_printed {chopClassLookup : Bytes → Option RtClass}
    (hlookup : ∀ rtClass, chopClassLookup (chopClassName rtClass) = some rtClass) {ciphers : Ciphers}
    {blockIndexer : BlockIndexerObject} (hcomplete : blockIndexer.fetcher.Complete ciphers)
    {index : IndexHandle} (hindex : index.Fits) {n : Nat} (hn : n < 2 ^ 64) :
    deserializeTuple chopClassLookup ciphers
        (printedString (chopAsciiSerializeIndexTuple index n blockIndexer)) =
      .ok (some blockIndexer.fetcher, index) := by
  obtain ⟨total, hobjects⟩ := indexTupleS2_objects hcomplete hindex hn
  have hclasses := indexTupleS1_classes hlookup index blockIndexer.fetcher
    (serializedObjects index n blockIndexer.fetcher)
  have htext := (indexTuple_endsWithNull hcomplete index n).printedString_append.trans
    (indexTuple_eq index n blockIndexer)
  simp only [deserializeTuple, htext, hclasses, List.drop_left, List.length_append,
    Nat.add_sub_cancel_left, hobjects]

theorem Archived.readBack {chopClassLookup : Bytes → Option RtClass}
    (hlookup : ∀ rtClass, chopClassLookup (chopClassName rtClass) = some rtClass) {job : ArchiveJob}
    (hfits : job.Fits context.ciphers) {text : Bytes} {writes : List StoreWrite}
    (h : Archived context job text writes) :
    ∃ (root : HandleOf job.blockIndexer.indexHandleClass) (levels : Nat),
      deserializeTuple chopClassLookup context.ciphers text =
          .ok (some job.blockIndexer.fetcher, root.1) ∧
        Encodes (writtenHolds context job.blockIndexer.indexHandleClass job.blockIndexer.fetcher writes)
          (objectIndexer context job.blockIndexer.indexHandleClass).serialize (levels + 1) root
          job.input.blocks.flatten := by
  obtain ⟨root, levels, blockIndexer, hfetcher, rfl, hencodes⟩ := h.root
  refine ⟨root, levels, ?_, hencodes⟩
  obtain ⟨handles, -, -, -, -, ⟨rootKey, rootContent, hroot, -⟩, -, -⟩ := hencodes
  have hindex : root.1.Fits := hroot.describes.fits_of_fitsBinary root.2.2
  have hcomplete : blockIndexer.fetcher.Complete context.ciphers := by
    rw [hfetcher]
    exact hroot.complete ((accepted_eq_opened _ _).symm.trans hfits.accepted)
  have htuple := deserializeTuple_printed hlookup hcomplete hindex hfits.indexesPerBlock_lt
  rw [hfetcher] at htuple
  exact htuple

/-- A tuple that was printed is restored wherever what was written is still stored. -/
theorem processRestore_archived (hpair : StorePair context.methods contents)
    {chopClassLookup : Bytes → Option RtClass}
    (hlookup : ∀ rtClass, chopClassLookup (chopClassName rtClass) = some rtClass) {job : ArchiveJob}
    (hfits : job.Fits context.ciphers) {text : Bytes} {writes : List StoreWrite}
    (h : Archived context job text writes) :
    ∃ bound, ∀ fuel stores, bound ≤ fuel → Present contents ⟨stores, writes⟩ →
      ∃ stores', processRestore chopClassLookup context memory fuel text stores =
          .done (.ok (), job.input.blocks.flatten, stores') ∧
        ∀ role, contents role stores' = contents role stores := by
  obtain ⟨root, levels, htuple, hencodes⟩ := h.readBack hlookup hfits
  refine ⟨job.input.blocks.flatten.length + 2 * levels + 4, fun fuel stores hfuel hpresent => ?_⟩
  have hstored : Encodes
      (storedHolds context job.blockIndexer.indexHandleClass job.blockIndexer.fetcher contents stores)
      (objectIndexer context job.blockIndexer.indexHandleClass).serialize (levels + 1) root
      job.input.blocks.flatten := by
    refine hencodes.mono ?_
    rintro role handle block ⟨key, content, hfetches, hmem⟩
    exact ⟨key, content, hfetches, hpresent _ hmem⟩
  obtain ⟨stores', hretrieve, hcontents⟩ := doRetrieve_encodes memory hpair root hstored hfuel
  refine ⟨stores', ?_, hcontents⟩
  rw [processRestore, htuple]
  exact hretrieve

end Restore

section Runs

variable {context : ProcessContext σ} {contents : StoreRole → σ → BlockMap}

private theorem archiveStep_lasting (hinverts : context.ciphers.Inverts) {fuel : Nat} (hfuel : 66 ≤ fuel)
    (store : LoggedStores σ) (job : ArchiveJob) (reply : Except ChopError Bytes × List WriteEvent)
    (store' : LoggedStores σ) (hjob : job.Fits context.ciphers) (_ : True)
    (h : doArchive context fuel job store = .done (reply, store')) :
    True ∧ (AllOk reply.2 → ∀ text, reply.1 = .ok text → Archived context job text store'.writes) ∧
      ∀ (job₀ : ArchiveJob) (reply₀ : Except ChopError Bytes × List WriteEvent),
        (AllOk reply₀.2 → ∀ text, reply₀.1 = .ok text → Archived context job₀ text store.writes) →
        AllOk reply₀.2 → ∀ text, reply₀.1 = .ok text → Archived context job₀ text store'.writes := by
  obtain ⟨result, events⟩ := reply
  refine ⟨trivial, ?_, fun job₀ reply₀ hbefore hok text htext => ?_⟩
  · rintro hok text rfl
    exact doArchive_archived hinverts hjob hfuel h hok
  · exact (hbefore hok text htext).mono (doArchive_writes hinverts h)

/-- After any archives, what was archived before can be read from what was written, which is stored. -/
theorem archives_archived (hinverts : context.ciphers.Inverts)
    (hpair : StorePair context.methods contents) {fuel : Nat} (hfuel : 66 ≤ fuel) {jobs : List ArchiveJob}
    (hjobs : ∀ job ∈ jobs, job.Fits context.ciphers) {stores : σ} {store' : LoggedStores σ}
    {replies : List (Except ChopError Bytes × List WriteEvent)}
    (hrun : Refinement.run (fun store job => doArchive context fuel job store) ⟨stores, []⟩ jobs =
      .done (replies, store'))
    (hok : ∀ reply ∈ replies, AllOk reply.2) (hconsistent : Consistent store'.writes) {i : Nat}
    {job : ArchiveJob} {text : Bytes} {events : List WriteEvent} (hjob : jobs[i]? = some job)
    (hreply : replies[i]? = some (.ok text, events)) :
    Archived context job text store'.writes ∧ Present contents store' := by
  have harchived : Archived context job text store'.writes :=
    Refinement.run_lasting (archiveStep_lasting hinverts hfuel) hjobs trivial hrun hjob hreply
      (hok _ (List.mem_of_getElem? hreply)) text rfl
  have hkeeps : ∀ (store : LoggedStores σ) (job : ArchiveJob)
      (reply : Except ChopError Bytes × List WriteEvent) (store' : LoggedStores σ),
      job.Fits context.ciphers → (Consistent store.writes → Present contents store) →
      doArchive context fuel job store = .done (reply, store') →
      Consistent store'.writes → Present contents store' :=
    fun store job reply store' _ hs h => doArchive_present hinverts hpair h hs
  have hstart : Consistent [] → Present contents ⟨stores, []⟩ := by
    intro _ write hwrite
    cases hwrite
  exact ⟨harchived, Refinement.run_invariant hkeeps hjobs hstart hrun hconsistent⟩

/-- Streams that were archived one after the other on the same stores, with any choppers and block indexers.
If every write succeeds and no key is given two contents, each tuple that was printed is restored to its
stream, and restoring leaves the contents of the stores as they are. -/
theorem archives_restored (hinverts : context.ciphers.Inverts)
    (hpair : StorePair context.methods contents) {chopClassLookup : Bytes → Option RtClass}
    (hlookup : ∀ rtClass, chopClassLookup (chopClassName rtClass) = some rtClass)
    (memory : FetcherWorld σ → DecodedBlock) {fuel : Nat} (hfuel : 66 ≤ fuel) {jobs : List ArchiveJob}
    (hjobs : ∀ job ∈ jobs, job.Fits context.ciphers) {stores : σ} {store' : LoggedStores σ}
    {replies : List (Except ChopError Bytes × List WriteEvent)}
    (hrun : Refinement.run (fun store job => doArchive context fuel job store) ⟨stores, []⟩ jobs =
      .done (replies, store'))
    (hok : ∀ reply ∈ replies, AllOk reply.2) (hconsistent : Consistent store'.writes) {i : Nat}
    {job : ArchiveJob} {stream text : Bytes} {events : List WriteEvent} (hjob : jobs[i]? = some job)
    (hstream : ChoppedFrom job.input stream) (hreply : replies[i]? = some (.ok text, events)) :
    ∃ bound, ∀ fuel, bound ≤ fuel → ∃ stores',
      processRestore chopClassLookup context memory fuel text store'.stores =
        .done (.ok (), stream, stores') ∧
      ∀ role, contents role stores' = contents role store'.stores := by
  obtain ⟨harchived, hpresent⟩ := archives_archived hinverts hpair hfuel hjobs hrun hok hconsistent hjob
    hreply
  obtain ⟨bound, hrestore⟩ := processRestore_archived memory hpair hlookup
    (hjobs job (List.mem_of_getElem? hjob)) harchived
  rw [hstream.whole.2] at hrestore
  exact ⟨bound, fun fuel hbound => hrestore fuel store'.stores hbound hpresent⟩

end Runs

section Sample

/-- A process with one store for blocks and key blocks. -/
def sampleContext : ProcessContext BlockMap where
  methods _ := BlockMap.methods
  filling _ := .push
  hash := sampleDigests
  ciphers := sampleCiphers
  randoms _ := []
  hasMemory _ _ := true

theorem sampleContext_storePair : StorePair sampleContext.methods fun _ m => m where
  mapStore _ := BlockMap.mapStore
  readBlock _ _ key m := (BlockMap.mapStore.readBlock key m).1
  writeBlock _ _ _ _ _ := .inr ⟨rfl, rfl⟩

/-- Three bytes and one byte, in blocks of two bytes. -/
def sampleJobs : List ArchiveJob :=
  [⟨⟨[[1, 2], [3]], .streamEnd⟩, 3, .integer 0, fun _ => []⟩,
    ⟨⟨[[4]], .streamEnd⟩, 3, .integer 16, fun _ => []⟩]

theorem sampleJobs_restored :
    ∃ replies store',
      Refinement.run (fun store job => doArchive sampleContext 66 job store) ⟨fun _ => none, []⟩
        sampleJobs = .done (replies, store') ∧
      ∃ text events, replies[0]? = some (.ok text, events) ∧
        ∃ bound, ∀ fuel, bound ≤ fuel → ∃ stores',
          processRestore lookupByName sampleContext (fun _ => ⟨[], 0, false, 0, 0, 0, false⟩) fuel text
              store'.stores = .done (.ok (), [1, 2, 3], stores') ∧
            ∀ _ : StoreRole, stores' = store'.stores := by
  have hrun : ∃ replies store',
      Refinement.run (fun store job => doArchive sampleContext 66 job store) ⟨fun _ => none, []⟩
        sampleJobs = .done (replies, store') ∧
      (∃ text events, replies[0]? = some (.ok text, events)) ∧
      (∀ reply ∈ replies, ∀ event ∈ reply.2, event.status = .ok ()) ∧
      ∀ first ∈ store'.writes, ∀ second ∈ store'.writes, first.key = second.key →
        first.content = second.content := by
    exact ⟨_, _, rfl, ⟨_, _, rfl⟩, by decide, by decide⟩
  obtain ⟨replies, store', hrun, ⟨text, events, hreply⟩, hok, hconsistent⟩ := hrun
  have hstream : ChoppedFrom ⟨[[1, 2], [3]], .streamEnd⟩ [1, 2, 3] := by
    have hdelivers := memStream_delivers ⟨[1, 2, 3], 0⟩
    obtain ⟨Left, hserves, idle, hleft⟩ := hdelivers
    have hsize : 0 < (chopFsGenericOpen 8192 (⟨[1, 2, 3], 0⟩ : MemStream) 2).blockSize := by decide
    exact .fixedSize ⟨Left, hserves, idle, hleft⟩ hsize
      (fixedBlocks_serves hserves hleft hsize false [] 3) rfl
  have hjobs : ∀ job ∈ sampleJobs, job.Fits sampleContext.ciphers := by
    intro job hjob
    simp only [sampleJobs, List.mem_cons, List.not_mem_nil, or_false] at hjob
    rcases hjob with rfl | rfl
    · exact ⟨by decide, by decide, rfl, by decide, .inl (by decide)⟩
    · exact ⟨by decide, by decide, rfl, by decide, .inl (by decide)⟩
  exact ⟨replies, store', hrun, text, events, hreply,
    archives_restored sampleCiphers_inverts sampleContext_storePair lookupByName_chopClassName
      (fun _ => ⟨[], 0, false, 0, 0, 0, false⟩) (Nat.le_refl 66) hjobs hrun hok hconsistent rfl hstream
      hreply⟩

end Sample

end Libchop
