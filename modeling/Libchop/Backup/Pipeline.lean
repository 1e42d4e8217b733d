import Libchop.Backup.Filters
import Libchop.Chopper.AnchorBased
import Libchop.Tree.RoundTrip

/-!
# Storage pipelines

A pipeline filters a stream, chops it, and indexes the blocks through a store that is itself
filtered.  The tuple it leaves names the filters that undo its own, and the retriever of that
tuple builds them again.
-/

namespace Libchop

open Layers

/-- The errors of the Scheme code: a libchop error code, a value of the wrong type, a call to
`error`, a value no clause of a `match` accepts, or a directory of an unsupported version. -/
inductive SchemeError where
  | chopError (e : ChopError)
  | wrongTypeArg
  | miscError (message : String)
  | matchError
  | directoryVersionError
deriving DecidableEq, Repr

/-- `chop_block_store_t`, over a state `σ`. -/
structure BlockStore (σ Key : Type) where
  writeBlock : Key → Bytes → σ → Status × σ
  readBlock : Key → σ → Except ChopError Bytes × σ

/-- A store that fails no write and reads back what was written last under each key. -/
structure LawfulStore {σ Key : Type} (store : BlockStore σ Key)
    (contents : σ → Key → Option Bytes) : Prop where
  write : ∀ key block w, ∃ w', store.writeBlock key block w = (.ok (), w') ∧
    contents w' key = some block ∧ ∀ key', key' ≠ key → contents w' key' = contents w key'
  read : ∀ key block w, contents w key = some block → store.readBlock key w = (.ok block, w)
  read_keeps : ∀ key w, contents (store.readBlock key w).2 = contents w

/-- A chopper: it loses nothing of its input and returns no empty block. -/
structure Chopper where
  chop : Bytes → List Bytes
  chop_flatten : ∀ input, (chop input).flatten = input
  ne_nil : ∀ input, ∀ block ∈ chop input, block ≠ []

/-- What `chop_anchor_chopper_read_block` computes. -/
def anchorBasedChopper (windowSize : Nat) (hpos : 0 < windowSize) (mask : Nat) : Chopper where
  chop := WindowSplit.split (isAnchor mask) windowSize
  chop_flatten := WindowSplit.split_flatten hpos
  ne_nil := fun _ _ hmem => WindowSplit.ne_nil_of_mem_split hpos hmem

/-- A block indexer with its fetcher, for any store, and the ASCII serialization of its index
tuples.  From a lawful store, the fetcher gets back what is found under a handle. -/
structure BlockIndexing (σ Key H : Type) where
  indexer : BlockStore σ Key → BlockIndexer σ H
  fetcher : BlockStore σ Key → BlockFetcher σ H
  serializeAscii : H → String
  deserializeAscii : String → Option H
  holds : (σ → Key → Option Bytes) → σ → Holds H
  fetchesBlocks : ∀ {store contents}, LawfulStore store contents →
    FetchesBlocks (fetcher store) (indexer store).serialize (holds contents)
  available : ∀ {store contents}, LawfulStore store contents →
    Available (fetcher store) (holds contents)
  deserialize_serialize : ∀ index, deserializeAscii (serializeAscii index) = some index

/-- `<pipeline>`; a filter is given by its class, the pair of filters of a store by theirs. -/
structure Pipeline (σ Key H : Type) where
  streamFilters : List FilterClass
  chopper : Chopper
  indexesPerBlock : Nat
  blockIndexer : BlockIndexing σ Key H
  storeFilters : List (FilterClass × FilterClass)

structure IndexTuple where
  streamFilters : List String
  index : String
  storeFilters : List String
deriving DecidableEq, Repr

variable {σ Key H : Type} (codecs : Codecs)

/-- `filtered-stream`, on the contents of the stream: the first filter is the innermost one. -/
def filteredStream : Bytes → List FilterClass → Except ChopError Bytes
  | contents, [] => .ok contents
  | contents, f :: filters =>
    match codecs.through f contents with
    | .ok contents => filteredStream contents filters
    | .error e => .error e

def filteredBlockStoreOpen (input output : FilterClass) (backend : BlockStore σ Key) :
    BlockStore σ Key where
  writeBlock key block w :=
    match codecs.through input block with
    | .ok filtered => backend.writeBlock key filtered w
    | .error e => (.error e, w)
  readBlock key w :=
    match backend.readBlock key w with
    | (.ok unfiltered, w) => (codecs.through output unfiltered, w)
    | (.error e, w) => (.error e, w)

/-- `filtered-store`; making a filter may fail. -/
def filteredStore : BlockStore σ Key → List (Except SchemeError (FilterClass × FilterClass)) →
    Except SchemeError (BlockStore σ Key)
  | store, [] => .ok store
  | store, f :: filters =>
    match f with
    | .ok (input, output) => filteredStore (filteredBlockStoreOpen codecs input output store) filters
    | .error e => .error e

/-- `run-storage-pipeline`.  A filter that rejects the input makes the stream fail. -/
def runStoragePipeline (pipeline : Pipeline σ Key H) (fuel : Nat) (store : BlockStore σ Key)
    (input : Bytes) (w : σ) : Outcome (Except SchemeError H × σ) :=
  let chopper : ChopperRun :=
    match filteredStream codecs input pipeline.streamFilters with
    | .ok contents => ⟨pipeline.chopper.chop contents, .streamEnd⟩
    | .error e => ⟨[], e⟩
  match filteredStore codecs store (pipeline.storeFilters.map .ok) with
  | .error e => .done (.error e, w)
  | .ok store => do
    let (result, s) ← chopTreeIndexBlocks (pipeline.blockIndexer.indexer store)
      pipeline.indexesPerBlock fuel chopper ⟨w, [], []⟩
    match result with
    | .ok (some index) => return (.ok index, s.world)
    | .ok none => .abort
    | .error e => return (.error (.chopError e), s.world)

def streamFilterName (c : FilterClass) : Except SchemeError String :=
  if c.direction = .zip then
    match dualFilterClass c with
    | some dual => .ok (className dual)
    | none => .error .wrongTypeArg
  else
    .error (.miscError "currently limited to unzip/zip filtered")

def storeFilterName (filters : FilterClass × FilterClass) : Except SchemeError String :=
  if filters.2.direction = .unzip then .ok (className filters.2)
  else .error (.miscError "currently limited to zip/unzip filters")

def pipelineIndexHandleToTuple (pipeline : Pipeline σ Key H) (index : H) :
    Except SchemeError IndexTuple := do
  let streamFilters ← pipeline.streamFilters.mapM streamFilterName
  let storeFilters ← pipeline.storeFilters.mapM storeFilterName
  return ⟨streamFilters, pipeline.blockIndexer.serializeAscii index, storeFilters⟩

/-- `make-zip-filter`, with the use of the `#f` it returns for another class. -/
def makeZipFilter : Option FilterClass → Except SchemeError FilterClass
  | some ⟨codec, .zip⟩ => .ok ⟨codec, .zip⟩
  | _ => .error .wrongTypeArg

/-- `make-unzip-filter`, likewise. -/
def makeUnzipFilter : Option FilterClass → Except SchemeError FilterClass
  | some ⟨codec, .unzip⟩ => .ok ⟨codec, .unzip⟩
  | _ => .error .wrongTypeArg

def retrieverStoreFilters (name : String) : Except SchemeError (FilterClass × FilterClass) := do
  let input ← makeZipFilter ((lookupClass name).bind dualFilterClass)
  let output ← makeUnzipFilter (lookupClass name)
  return (input, output)

/-- What `stream->port` delivers of a tree stream, read with a buffer of the given size. -/
def portContents (bf : BlockFetcher σ H) (size fuel : Nat) :
    Nat → DecodedBlockTree H → ReadState σ → Outcome (Except ChopError Bytes)
  | 0, _, _ => .outOfFuel
  | reads + 1, tree, s => do
    let (status, bytes, tree, s) ← treeStreamRead bf fuel tree size s
    match status with
    | .error e => return if e = .streamEnd then .ok [] else .error e
    | .ok () =>
      if bytes = [] then return .ok []
      else do
        let rest ← portContents bf size fuel reads tree s
        return rest.map (bytes ++ ·)

/-- The contents of the port that the retriever of `index-tuple->retriever` returns. -/
def indexTupleRetrieve (blockIndexer : BlockIndexing σ Key H) (tuple : IndexTuple)
    (store : BlockStore σ Key) (size fuel : Nat) (w : σ) : Outcome (Except SchemeError Bytes) :=
  match blockIndexer.deserializeAscii tuple.index with
  | none => .done (.error .wrongTypeArg)
  | some index =>
    match filteredStore codecs store (tuple.storeFilters.map retrieverStoreFilters) with
    | .error e => .done (.error e)
    | .ok store => do
      let contents ← portContents (blockIndexer.fetcher store) size fuel fuel
        (chopTreeFetchStream index) ⟨w, []⟩
      match contents, tuple.streamFilters.mapM fun name => makeUnzipFilter (lookupClass name) with
      | _, .error e => return .error e
      | .error e, _ => return .error (.chopError e)
      | .ok contents, .ok filters =>
        return (filteredStream codecs contents filters).mapError .chopError

/-- The store that zips the blocks it is given with each of the codecs. -/
def zippedStore : BlockStore σ Key → List Codec → BlockStore σ Key
  | store, [] => store
  | store, codec :: storeCodecs =>
    zippedStore (filteredBlockStoreOpen codecs ⟨codec, .zip⟩ ⟨codec, .unzip⟩ store) storeCodecs

def unzippedContents : (σ → Key → Option Bytes) → List Codec → σ → Key → Option Bytes
  | contents, [] => contents
  | contents, codec :: storeCodecs =>
    unzippedContents (fun w key => (contents w key).bind fun block => (codecs.unzip codec block).toOption)
      storeCodecs

/-- The tuple of a run of the pipeline leads back to the input, once each part of the run has
enough fuel. -/
def PipelineRoundTrips (pipeline : Pipeline σ Key H) (store : BlockStore σ Key) (input : Bytes)
    (w : σ) : Prop :=
  ∃ bound, ∀ fuel, bound ≤ fuel → ∃ index w' tuple,
    runStoragePipeline codecs pipeline fuel store input w = .done (.ok index, w') ∧
    pipelineIndexHandleToTuple pipeline index = .ok tuple ∧
    ∀ size, 0 < size → ∃ bound', ∀ fuel', bound' ≤ fuel' →
      indexTupleRetrieve codecs pipeline.blockIndexer tuple store size fuel' w' = .done (.ok input)

/-- The pipeline that zips its stream with each of the given codecs, and each block it stores. -/
def zipPipeline (streamCodecs : List Codec) (chopper : Chopper) (indexesPerBlock : Nat)
    (blockIndexer : BlockIndexing σ Key H) (storeCodecs : List Codec) : Pipeline σ Key H where
  streamFilters := streamCodecs.map (⟨·, .zip⟩)
  chopper := chopper
  indexesPerBlock := indexesPerBlock
  blockIndexer := blockIndexer
  storeFilters := storeCodecs.map fun codec => (⟨codec, .zip⟩, ⟨codec, .unzip⟩)

end Libchop
