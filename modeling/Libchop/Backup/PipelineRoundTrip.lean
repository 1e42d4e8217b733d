import Libchop.Backup.Pipeline

/-!
# What the retriever of a tuple finds

Store filters are undone by the store that the retriever filters in the same order.  Stream
filters would have to be undone in the opposite order, and are not.
-/

namespace Libchop

open Layers

variable {σ Key H : Type} {codecs : Codecs}

private theorem filteredStream_zip (streamCodecs : List Codec) (input : Bytes) :
    filteredStream codecs input (streamCodecs.map (⟨·, .zip⟩)) =
      .ok (encodeAll codecs.zip streamCodecs input) := by
  induction streamCodecs generalizing input with
  | nil => rfl
  | cons codec streamCodecs ih => exact ih (codecs.zip codec input)

private theorem filteredStream_unzip (streamCodecs : List Codec) (contents : Bytes) :
    filteredStream codecs contents (streamCodecs.map (⟨·, .unzip⟩)) =
      decodeAll codecs.unzip streamCodecs contents := by
  induction streamCodecs generalizing contents with
  | nil => rfl
  | cons codec streamCodecs ih =>
    simp only [List.map_cons, filteredStream, Codecs.through, decodeAll]
    cases codecs.unzip codec contents with
    | ok contents => exact ih contents
    | error e => rfl

section MapM

variable {α β : Type} {f : α → Except SchemeError β} {xs : List α}

private theorem mapM_of_ok {g : α → β} (h : ∀ x ∈ xs, f x = .ok (g x)) :
    xs.mapM f = .ok (xs.map g) := by
  induction xs with
  | nil => rfl
  | cons x xs ih =>
    rw [List.mapM_cons, h x List.mem_cons_self, ih fun y hy => h y (List.mem_cons_of_mem x hy)]
    rfl

private theorem mapM_of_error {e : SchemeError} {x : α} (hmem : x ∈ xs) (hx : f x = .error e)
    (ys : List β) : xs.mapM f ≠ .ok ys := by
  induction xs generalizing ys with
  | nil => cases hmem
  | cons y xs ih =>
    intro heq
    rw [List.mapM_cons] at heq
    cases hmem with
    | head =>
      rw [hx] at heq
      cases heq
    | tail _ hmem =>
      cases hy : f y with
      | error e =>
        rw [hy] at heq
        cases heq
      | ok b =>
        cases hrest : xs.mapM f with
        | error e =>
          rw [hy, hrest] at heq
          cases heq
        | ok bs => exact ih hmem bs hrest

end MapM

private theorem streamFilterName_zip (codec : Codec) :
    streamFilterName ⟨codec, .zip⟩ =
      if codec = .bzip2 then .error .wrongTypeArg else .ok (className ⟨codec, .unzip⟩) := by
  rw [streamFilterName, if_pos rfl, dualFilterClass_zip]
  by_cases hbzip2 : codec = .bzip2
  · rw [if_pos hbzip2, if_pos hbzip2]
  · rw [if_neg hbzip2, if_neg hbzip2]

private theorem retrieverStoreFilters_unzip (codec : Codec) :
    retrieverStoreFilters (className ⟨codec, .unzip⟩) =
      if codec = .bzip2 then .error .wrongTypeArg
      else .ok (⟨codec, .zip⟩, ⟨codec, .unzip⟩) := by
  rw [retrieverStoreFilters, lookupClass_className, Option.bind_some, dualFilterClass_unzip]
  by_cases hbzip2 : codec = .bzip2
  · rw [if_pos hbzip2, if_pos hbzip2]
    rfl
  · rw [if_neg hbzip2, if_neg hbzip2]
    rfl

private theorem pipelineIndexHandleToTuple_zip {streamCodecs storeCodecs : List Codec}
    {chopper : Chopper} {n : Nat} {blockIndexer : BlockIndexing σ Key H} (index : H)
    (hbzip2 : Codec.bzip2 ∉ streamCodecs) :
    pipelineIndexHandleToTuple (zipPipeline streamCodecs chopper n blockIndexer storeCodecs) index =
      .ok ⟨streamCodecs.map (className ⟨·, .unzip⟩), blockIndexer.serializeAscii index,
        storeCodecs.map (className ⟨·, .unzip⟩)⟩ := by
  have hstream : (streamCodecs.map (FilterClass.mk · .zip)).mapM streamFilterName =
      .ok (streamCodecs.map (className ⟨·, .unzip⟩)) := by
    rw [mapM_of_ok (g := fun c => className ⟨c.codec, .unzip⟩), List.map_map]
    · rfl
    · intro c hc
      rw [List.mem_map] at hc
      obtain ⟨codec, hmem, rfl⟩ := hc
      rw [streamFilterName_zip, if_neg]
      intro heq
      rw [heq] at hmem
      exact hbzip2 hmem
  have hstore : (storeCodecs.map fun codec =>
      (FilterClass.mk codec .zip, FilterClass.mk codec .unzip)).mapM storeFilterName =
      .ok (storeCodecs.map (className ⟨·, .unzip⟩)) := by
    rw [mapM_of_ok (g := fun filters => className filters.2), List.map_map]
    · rfl
    · intro filters hfilters
      rw [List.mem_map] at hfilters
      obtain ⟨codec, _, rfl⟩ := hfilters
      rfl
  rw [pipelineIndexHandleToTuple]
  simp only [zipPipeline]
  rw [hstream, hstore]
  rfl

private theorem pipelineIndexHandleToTuple_bzip2 {streamCodecs storeCodecs : List Codec}
    {chopper : Chopper} {n : Nat} {blockIndexer : BlockIndexing σ Key H} (index : H)
    (hbzip2 : Codec.bzip2 ∈ streamCodecs) (tuple : IndexTuple) :
    pipelineIndexHandleToTuple (zipPipeline streamCodecs chopper n blockIndexer storeCodecs)
      index ≠ .ok tuple := by
  intro heq
  rw [pipelineIndexHandleToTuple] at heq
  simp only [zipPipeline] at heq
  cases hstream : (streamCodecs.map (FilterClass.mk · .zip)).mapM streamFilterName with
  | error e =>
    rw [hstream] at heq
    cases heq
  | ok names =>
    have hmem : FilterClass.mk .bzip2 .zip ∈ streamCodecs.map (FilterClass.mk · .zip) :=
      List.mem_map_of_mem hbzip2
    exact mapM_of_error hmem (streamFilterName_zip .bzip2) names hstream

private theorem filteredBlockStore_lawful {store : BlockStore σ Key}
    {contents : σ → Key → Option Bytes} (h : LawfulStore store contents) (codec : Codec) :
    LawfulStore (filteredBlockStoreOpen codecs ⟨codec, .zip⟩ ⟨codec, .unzip⟩ store)
      (fun w key => (contents w key).bind fun block => (codecs.unzip codec block).toOption) := by
  constructor
  · intro key block w
    obtain ⟨w', hwrite, hkey, hother⟩ := h.write key (codecs.zip codec block) w
    refine ⟨w', hwrite, ?_, ?_⟩
    · rw [hkey, Option.bind_some, codecs.unzip_zip]
      rfl
    · intro key' hne
      rw [hother key' hne]
  · intro key block w hkey
    cases hcontents : contents w key with
    | none =>
      rw [hcontents] at hkey
      cases hkey
    | some stored =>
      rw [hcontents, Option.bind_some] at hkey
      simp only [filteredBlockStoreOpen, h.read key stored w hcontents, Codecs.through]
      cases hunzip : codecs.unzip codec stored with
      | error e =>
        rw [hunzip] at hkey
        cases hkey
      | ok unzipped =>
        rw [hunzip] at hkey
        cases hkey
        rfl
  · intro key w
    have hkeeps := h.read_keeps key w
    funext key'
    simp only [filteredBlockStoreOpen]
    cases hread : store.readBlock key w with
    | mk result w' =>
      rw [hread] at hkeeps
      cases result with
      | ok unfiltered => rw [hkeeps]
      | error e => rw [hkeeps]

private theorem zippedStore_lawful (codecs : Codecs) {store : BlockStore σ Key}
    {contents : σ → Key → Option Bytes} (h : LawfulStore store contents)
    (storeCodecs : List Codec) :
    LawfulStore (zippedStore codecs store storeCodecs) (unzippedContents codecs contents storeCodecs) := by
  induction storeCodecs generalizing store contents with
  | nil => exact h
  | cons codec storeCodecs ih => exact ih (filteredBlockStore_lawful h codec)

private theorem filteredStore_zip (codecs : Codecs) (store : BlockStore σ Key)
    (storeCodecs : List Codec) :
    filteredStore codecs store (storeCodecs.map fun codec =>
      .ok (⟨codec, .zip⟩, ⟨codec, .unzip⟩)) = .ok (zippedStore codecs store storeCodecs) := by
  induction storeCodecs generalizing store with
  | nil => rfl
  | cons codec storeCodecs ih => exact ih _

private theorem filteredStore_error {store store' : BlockStore σ Key} {e : SchemeError}
    {filters : List (Except SchemeError (FilterClass × FilterClass))}
    (hmem : Except.error e ∈ filters) : filteredStore codecs store filters ≠ .ok store' := by
  induction filters generalizing store with
  | nil => cases hmem
  | cons f filters ih =>
    intro heq
    cases f with
    | error e => cases heq
    | ok filter =>
      cases hmem with
      | tail _ hmem => exact ih hmem heq

private theorem portContents_eq [Nontrivial H] {bf : BlockFetcher σ H} {serialize : H → Bytes}
    {holds : σ → Holds H} (hf : FetchesBlocks bf serialize holds) (havail : Available bf holds)
    {levels size fuel reads : Nat} (hsize : 0 < size) {tree : DecodedBlockTree H} {xs : Bytes}
    {s : ReadState σ} (hat : StreamAt (holds s.world) serialize levels tree xs)
    (hfuel : xs.length + 2 * levels + 3 < fuel) (hreads : xs.length < reads) :
    portContents bf size fuel reads tree s = .done (.ok xs) := by
  induction reads generalizing tree xs s with
  | zero => exact (Nat.not_lt_zero _ hreads).elim
  | succ reads ih =>
    obtain ⟨tree', s', hread, hat'⟩ := treeStreamRead_available hf havail fuel hsize hat hfuel
    rw [portContents, hread, Outcome.done_bind]
    by_cases hnil : xs = []
    · simp [hnil]
    · have htake : xs.take size ≠ [] := by
        rw [ne_eq, List.take_eq_nil_iff, not_or]
        exact ⟨Nat.ne_of_gt hsize, hnil⟩
      have hlen := List.length_pos_iff.mpr hnil
      have hrest : portContents bf size fuel reads tree' s' = .done (.ok (xs.drop size)) := by
        apply ih hat'
        · rw [List.length_drop]
          omega
        · rw [List.length_drop]
          omega
      simp only [hnil, if_false, htake, hrest, Outcome.done_bind, Outcome.pure_eq_done, Except.map,
        List.take_append_drop]

section RoundTrip

variable {store : BlockStore σ Key} {contents : σ → Key → Option Bytes}
  {streamCodecs storeCodecs : List Codec} {chopper : Chopper} {n : Nat}
  {blockIndexer : BlockIndexing σ Key H} {input : Bytes} {w : σ}

private theorem indexTupleRetrieve_bzip2 (hbzip2 : Codec.bzip2 ∈ storeCodecs)
    (names : List String) (index : H) (size fuel : Nat) (x : Bytes) :
    indexTupleRetrieve codecs blockIndexer
      ⟨names, blockIndexer.serializeAscii index, storeCodecs.map (className ⟨·, .unzip⟩)⟩
      store size fuel w ≠ .done (.ok x) := by
  -- The retriever has no zip filter for a store filtered by bzip2.
  intro heq
  have hmem : Except.error SchemeError.wrongTypeArg ∈
      (storeCodecs.map (className ⟨·, .unzip⟩)).map retrieverStoreFilters := by
    rw [List.map_map]
    exact List.mem_map.mpr ⟨.bzip2, hbzip2, retrieverStoreFilters_unzip .bzip2⟩
  rw [indexTupleRetrieve, blockIndexer.deserialize_serialize] at heq
  simp only at heq
  split at heq
  · cases heq
  · rename_i store' hfilter
    exact filteredStore_error hmem hfilter

section Lawful

variable [Nontrivial H] (hstore : LawfulStore store contents)
  (hruns : IndexingSucceeds (blockIndexer.indexer (zippedStore codecs store storeCodecs)) n
    ⟨chopper.chop (encodeAll codecs.zip streamCodecs input), .streamEnd⟩
    (blockIndexer.holds (unzippedContents codecs contents storeCodecs)) w)

include hruns in
omit [Nontrivial H] in
private theorem runStoragePipeline_fits {fuel : Nat} {index : H} {w' : σ}
    (hrun : runStoragePipeline codecs (zipPipeline streamCodecs chopper n blockIndexer storeCodecs)
      fuel store input w = .done (.ok index, w')) :
    IndexingFits n (chopper.chop (encodeAll codecs.zip streamCodecs input)) := by
  have hfilter := filteredStore_zip codecs store storeCodecs
  simp only [runStoragePipeline, zipPipeline, filteredStream_zip, List.map_map,
    Function.comp_def, hfilter, Outcome.bind_eq_done] at hrun
  obtain ⟨⟨result, s⟩, hindex, hresult⟩ := hrun
  cases result with
  | error e => simp at hresult
  | ok root =>
    refine indexingFits_of_done ?_ (chopper.ne_nil _) hindex (hruns _ _ _ hindex).1
    intro hnil
    rw [hnil] at hindex
    simp [chopTreeIndexBlocks, chopTreeIndexBlocksLoop] at hindex

include hstore hruns

private theorem runStoragePipeline_retrieves (hbzip2 : Codec.bzip2 ∉ storeCodecs)
    (hfits : IndexingFits n (chopper.chop (encodeAll codecs.zip streamCodecs input)))
    {fuel : Nat} (hfuel : 2 ^ 16 + 2 ≤ fuel) :
    ∃ index w', runStoragePipeline codecs
        (zipPipeline streamCodecs chopper n blockIndexer storeCodecs) fuel store input w =
          .done (.ok index, w') ∧
      ∀ size, 0 < size → ∃ bound', ∀ fuel', bound' ≤ fuel' →
        indexTupleRetrieve codecs blockIndexer
          ⟨streamCodecs.map (className ⟨·, .unzip⟩), blockIndexer.serializeAscii index,
            storeCodecs.map (className ⟨·, .unzip⟩)⟩ store size fuel' w' =
          .done ((decodeAll codecs.unzip streamCodecs
            (encodeAll codecs.zip streamCodecs input)).mapError .chopError) := by
  have hfilter := filteredStore_zip codecs store storeCodecs
  have hlawful := zippedStore_lawful codecs hstore storeCodecs
  have hfetches := blockIndexer.fetchesBlocks hlawful
  have havailable := blockIndexer.available hlawful
  have hne : chopper.chop (encodeAll codecs.zip streamCodecs input) ≠ [] := by
    intro hnil
    have htotal := hfits.2.2.2
    rw [hnil] at htotal
    simp at htotal
  obtain ⟨result, s', events, hrun, hwrites, hroot⟩ := chopTreeIndexBlocks_fits
    (blockIndexer.indexer (zippedStore codecs store storeCodecs)) hne (chopper.ne_nil _) hfits hfuel
    ⟨w, [], []⟩
  obtain ⟨hok, hheld⟩ := hruns _ _ _ hrun
  have htrace : s'.trace = events := hwrites.trace
  obtain ⟨root, levels, rfl, -, hencodes⟩ := hroot (htrace ▸ hok)
  have henc := hencodes.mono hheld
  rw [chopper.chop_flatten] at henc
  refine ⟨root, s'.world, ?_, ?_⟩
  · simp only [runStoragePipeline, zipPipeline, filteredStream_zip, List.map_map,
      Function.comp_def, hfilter, hrun, Outcome.done_bind, Outcome.pure_eq_done]
  · intro size hsize
    refine ⟨(encodeAll codecs.zip streamCodecs input).length + 2 * levels + 4, ?_⟩
    intro fuel' hfuel'
    have hat : StreamAt
        (blockIndexer.holds (unzippedContents codecs contents storeCodecs) s'.world)
        (blockIndexer.indexer (zippedStore codecs store storeCodecs)).serialize levels
        (chopTreeFetchStream root) (encodeAll codecs.zip streamCodecs input) := .inl ⟨rfl, henc⟩
    have hport : portContents (blockIndexer.fetcher (zippedStore codecs store storeCodecs)) size fuel'
        fuel' (chopTreeFetchStream root) ⟨s'.world, []⟩ =
          .done (.ok (encodeAll codecs.zip streamCodecs input)) :=
      portContents_eq hfetches havailable hsize hat (by omega) (by omega)
    have hfilters : (storeCodecs.map (className ⟨·, .unzip⟩)).map retrieverStoreFilters =
        storeCodecs.map fun codec => .ok (⟨codec, .zip⟩, ⟨codec, .unzip⟩) := by
      rw [List.map_map]
      apply List.map_congr_left
      intro codec hmem
      rw [Function.comp_apply, retrieverStoreFilters_unzip, if_neg]
      intro heq
      rw [heq] at hmem
      exact hbzip2 hmem
    have hnames : (streamCodecs.map (className ⟨·, .unzip⟩)).mapM
        (fun name => makeUnzipFilter (lookupClass name)) =
          .ok (streamCodecs.map (⟨·, .unzip⟩)) := by
      rw [List.mapM_map]
      apply mapM_of_ok
      intro codec _
      rw [Function.comp_apply, lookupClass_className]
      rfl
    simp only [indexTupleRetrieve, blockIndexer.deserialize_serialize, hfilters, hfilter, hport,
      hnames, Outcome.done_bind, Outcome.pure_eq_done, filteredStream_unzip]

theorem palindrome_of_pipelineRoundTrips
    (h : PipelineRoundTrips codecs (zipPipeline streamCodecs chopper n blockIndexer storeCodecs)
      store input w) :
    streamCodecs.reverse = streamCodecs ∧ Codec.bzip2 ∉ streamCodecs ∧ Codec.bzip2 ∉ storeCodecs ∧
      IndexingFits n (chopper.chop (encodeAll codecs.zip streamCodecs input)) := by
  obtain ⟨bound, h⟩ := h
  obtain ⟨index, w', tuple, hrun, htuple, hread⟩ := h (max bound (2 ^ 16 + 2)) (le_max_left _ _)
  have hfits := runStoragePipeline_fits hruns hrun
  have hstream : Codec.bzip2 ∉ streamCodecs := by
    intro hmem
    exact pipelineIndexHandleToTuple_bzip2 index hmem tuple htuple
  rw [pipelineIndexHandleToTuple_zip index hstream] at htuple
  cases htuple
  obtain ⟨bound₁, hread₁⟩ := hread 1 Nat.one_pos
  have hstoreCodecs : Codec.bzip2 ∉ storeCodecs := by
    intro hmem
    exact indexTupleRetrieve_bzip2 hmem _ index 1 bound₁ input (hread₁ bound₁ le_rfl)
  obtain ⟨index', w'', hrun', hread'⟩ := runStoragePipeline_retrieves hstore hruns hstoreCodecs hfits
    (le_max_right bound (2 ^ 16 + 2))
  rw [hrun] at hrun'
  cases hrun'
  obtain ⟨bound₂, hread₂⟩ := hread' 1 Nat.one_pos
  have hsame := hread₁ (max bound₁ bound₂) (le_max_left _ _)
  have hdecode := hread₂ (max bound₁ bound₂) (le_max_right _ _)
  rw [show (zipPipeline streamCodecs chopper n blockIndexer storeCodecs).blockIndexer =
    blockIndexer from rfl, hdecode] at hsame
  refine ⟨?_, hstream, hstoreCodecs, hfits⟩
  symm
  apply (decodeAll_encodeAll_iff codecs.unzip_zip codecs.unzip_zip_of_ne rfl input).mp
  cases hunzip : decodeAll codecs.unzip streamCodecs (encodeAll codecs.zip streamCodecs input) with
  | error e =>
    rw [hunzip] at hsame
    cases hsame
  | ok x =>
    rw [hunzip] at hsame
    cases hsame
    rfl

/-- The retriever opens the unzip filters in the order of the zip filters, not in the opposite
one, and knows no dual of the bzip2 filters.  So the input comes back exactly when the list of
stream filters is a palindrome and no filter is a bzip2 one, as long as the tree indexer can index
the blocks at all: no operation of its run fails, and what it stored can be found in the end. -/
theorem pipelineRoundTrips_iff_palindrome :
    PipelineRoundTrips codecs (zipPipeline streamCodecs chopper n blockIndexer storeCodecs)
        store input w ↔
      streamCodecs.reverse = streamCodecs ∧ Codec.bzip2 ∉ streamCodecs ∧
        Codec.bzip2 ∉ storeCodecs ∧
        IndexingFits n (chopper.chop (encodeAll codecs.zip streamCodecs input)) := by
  constructor
  · exact palindrome_of_pipelineRoundTrips hstore hruns
  · intro ⟨hpalindrome, hstream, hstoreCodecs, hfits⟩
    refine ⟨2 ^ 16 + 2, fun fuel hfuel => ?_⟩
    obtain ⟨index, w', hrun, hread⟩ := runStoragePipeline_retrieves hstore hruns hstoreCodecs hfits hfuel
    refine ⟨index, w', _, hrun, pipelineIndexHandleToTuple_zip index hstream, ?_⟩
    have hdecode : decodeAll codecs.unzip streamCodecs
        (encodeAll codecs.zip streamCodecs input) = .ok input :=
      (decodeAll_encodeAll_iff codecs.unzip_zip codecs.unzip_zip_of_ne rfl input).mpr
        hpalindrome.symm
    rw [hdecode] at hread
    exact hread

end Lawful

end RoundTrip

def mapStore : BlockStore (Bytes → Option Bytes) Bytes where
  writeBlock key block w := (.ok (), fun key' => if key' = key then some block else w key')
  readBlock key w :=
    match w key with
    | some block => (.ok block, w)
    | none => (.error .storeBlockUnavail, w)

theorem mapStore_lawful : LawfulStore mapStore fun w => w := by
  constructor
  · intro key block w
    refine ⟨_, rfl, if_pos rfl, ?_⟩
    intro key' hne
    exact if_neg hne
  · intro key block w hkey
    simp [mapStore, hkey]
  · intro key w
    simp only [mapStore]
    split
    · rfl
    · rfl

/-- A self-delimiting serialization of byte strings. -/
def escape : Bytes → Bytes
  | [] => [0]
  | b :: bs => 1 :: b :: escape bs

def unescape : Bytes → Except ChopError (Bytes × Nat)
  | 1 :: b :: rest => (unescape rest).map fun (bs, size) => (b :: bs, size + 2)
  | 0 :: _ => .ok ([], 1)
  | _ => .error (.code 0)

theorem unescape_escape (bs rest : Bytes) :
    unescape (escape bs ++ rest) = .ok (bs, (escape bs).length) := by
  induction bs with
  | nil => simp [escape, unescape]
  | cons b bs ih => simp [escape, unescape, ih, Except.map]

/-- The block indexer that takes each block for its own key, as a hash without collisions
would. -/
def selfIndexer {σ : Type} (store : BlockStore σ Bytes) : BlockIndexer σ Bytes where
  index _ block w :=
    match store.writeBlock block block w with
    | (.ok (), w) => (.ok block, w)
    | (.error e, w) => (.error e, w)
  serialize := escape
  hasMemory _ _ := true

def selfFetcher {σ : Type} (store : BlockStore σ Bytes) : BlockFetcher σ Bytes where
  fetch _ key w :=
    match store.readBlock key w with
    | (.ok block, w) => (.ok block, w)
    | (.error e, w) => (.error (e, []), w)
  deserialize := unescape
  uninitialized _ := ⟨[], 0, false, 0, 0, 0, false⟩

def selfHolds {σ : Type} (contents : σ → Bytes → Option Bytes) (w : σ) : Holds Bytes :=
  fun _ key block => key = block ∧ contents w key = some block

theorem selfIndexer_keepsBlocks {σ : Type} {store : BlockStore σ Bytes}
    {contents : σ → Bytes → Option Bytes} (h : LawfulStore store contents) :
    KeepsBlocks (selfIndexer store) (selfHolds contents) where
  stores role block w key w' hindex := by
    obtain ⟨w'', hwrite, hkey, _⟩ := h.write block block w
    simp only [selfIndexer, hwrite, Prod.mk.injEq, Except.ok.injEq] at hindex
    rw [← hindex.1, ← hindex.2]
    exact ⟨rfl, hkey⟩
  keeps role block w role' key other hold := by
    obtain ⟨w', hwrite, hkey, hother⟩ := h.write block block w
    simp only [selfIndexer, hwrite]
    refine ⟨hold.1, ?_⟩
    by_cases heq : key = block
    · rw [heq, hkey, ← hold.1, heq]
    · rw [hother key heq]
      exact hold.2

theorem selfIndexer_reliable {σ : Type} {store : BlockStore σ Bytes}
    {contents : σ → Bytes → Option Bytes} (h : LawfulStore store contents) (n : Nat) :
    Reliable (selfIndexer store) n where
  writes role block w := by
    obtain ⟨w', hwrite, _⟩ := h.write block block w
    exact ⟨block, w', by simp [selfIndexer, hwrite]⟩
  memory _ := rfl

theorem selfFetcher_fetchesBlocks {σ : Type} {store : BlockStore σ Bytes}
    {contents : σ → Bytes → Option Bytes} (h : LawfulStore store contents) :
    FetchesBlocks (selfFetcher store) (selfIndexer store).serialize (selfHolds contents) where
  fetches role key block w other w' hold hfetch := by
    simp only [selfFetcher, h.read key block w hold.2, Prod.mk.injEq, Except.ok.injEq] at hfetch
    exact hfetch.1.symm
  keeps role key w role' key' other hold := by
    have hkeeps := h.read_keeps key w
    refine ⟨hold.1, ?_⟩
    simp only [selfFetcher]
    cases hread : store.readBlock key w with
    | mk result w' =>
      rw [hread] at hkeeps
      cases result with
      | ok block =>
        rw [hkeeps]
        exact hold.2
      | error e =>
        rw [hkeeps]
        exact hold.2
  deserialize_serialize := unescape_escape

theorem selfFetcher_available {σ : Type} {store : BlockStore σ Bytes}
    {contents : σ → Bytes → Option Bytes} (h : LawfulStore store contents) :
    Available (selfFetcher store) (selfHolds contents) := by
  intro role key block w hold
  exact ⟨block, w, by simp [selfFetcher, h.read key block w hold.2]⟩

private theorem ofNat_charOfNat (b : UInt8) : UInt8.ofNat (Char.ofNat b.toNat).toNat = b := by
  have hvalid : b.toNat.isValidChar := .inl (b.toNat_lt.trans (by decide))
  rw [Char.ofNat, dif_pos hvalid]
  exact UInt8.ofNat_toNat

def selfIndexing (σ : Type) : BlockIndexing σ Bytes Bytes where
  indexer := selfIndexer
  fetcher := selfFetcher
  serializeAscii bs := String.ofList (bs.map fun b => Char.ofNat b.toNat)
  deserializeAscii s := some (s.toList.map fun c => UInt8.ofNat c.toNat)
  holds := selfHolds
  fetchesBlocks := selfFetcher_fetchesBlocks
  available := selfFetcher_available
  deserialize_serialize := by
    intro bs
    rw [String.toList_ofList, List.map_map, Option.some.injEq]
    exact List.map_id'' ofNat_charOfNat bs

/-- Codecs that mark their output with a byte of their own. -/
def tagByte : Codec → UInt8
  | .zlib => 1
  | .bzip2 => 2
  | .lzo => 3

def tagCodecs : Codecs where
  zip codec x := tagByte codec :: x
  unzip codec
    | b :: x => if b = tagByte codec then .ok x else .error (.code 0)
    | [] => .error (.code 0)
  unzip_zip := by
    intro codec x
    simp
  unzip_zip_of_ne := by
    intro codec codec' x hne
    have htag : tagByte codec' ≠ tagByte codec := by
      cases codec <;> cases codec' <;> first | exact absurd rfl hne | decide
    exact ⟨_, if_neg htag⟩

private theorem selfIndexing_succeeds (codecs : Codecs) (streamCodecs storeCodecs : List Codec)
    (chopper : Chopper) (input : Bytes) :
    IndexingSucceeds ((selfIndexing _).indexer (zippedStore codecs mapStore storeCodecs)) 256
      ⟨chopper.chop (encodeAll codecs.zip streamCodecs input), .streamEnd⟩
      ((selfIndexing _).holds (unzippedContents codecs (fun w => w) storeCodecs)) (fun _ => none) :=
  have hlawful := zippedStore_lawful codecs mapStore_lawful storeCodecs
  indexingSucceeds_of_reliable (selfIndexer_reliable hlawful 256) (selfIndexer_keepsBlocks hlawful) _ _

theorem zlib_pipeline_round_trips :
    PipelineRoundTrips tagCodecs (zipPipeline [.zlib] (anchorBasedChopper 48 (by decide) 8191) 256
      (selfIndexing _) [.lzo, .zlib]) mapStore [1, 2, 3] fun _ => none := by
  apply (pipelineRoundTrips_iff_palindrome mapStore_lawful
    (selfIndexing_succeeds tagCodecs _ _ _ _)).mpr
  refine ⟨rfl, by decide, by decide, ?_⟩
  apply indexingFits_of_lt (by decide) (Chopper.ne_nil _ _)
  · intro hnil
    have hflatten := (anchorBasedChopper 48 (by decide) 8191).chop_flatten
      (encodeAll tagCodecs.zip [.zlib] [1, 2, 3])
    rw [hnil] at hflatten
    cases hflatten
  · rw [Chopper.chop_flatten]
    decide
  · exact .inl (by decide)

/-- Two different stream filters, or one bzip2 filter: the input does not come back. -/
theorem two_stream_filters_do_not_round_trip :
    ¬ PipelineRoundTrips tagCodecs (zipPipeline [.zlib, .lzo] (anchorBasedChopper 48 (by decide) 8191)
      256 (selfIndexing _) []) mapStore [1, 2, 3] (fun _ => none) ∧
    ¬ PipelineRoundTrips tagCodecs (zipPipeline [.bzip2] (anchorBasedChopper 48 (by decide) 8191)
      256 (selfIndexing _) []) mapStore [1, 2, 3] (fun _ => none) := by
  constructor
  · intro h
    have hpalindrome := (palindrome_of_pipelineRoundTrips mapStore_lawful
      (selfIndexing_succeeds tagCodecs _ _ _ _) h).1
    exact absurd hpalindrome (by decide)
  · intro h
    exact (palindrome_of_pipelineRoundTrips mapStore_lawful
      (selfIndexing_succeeds tagCodecs _ _ _ _) h).2.1 List.mem_cons_self

end Libchop
