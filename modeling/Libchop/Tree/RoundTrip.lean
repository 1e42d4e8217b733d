import Libchop.Tree.Termination

/-!
# Reading back what was indexed

When the writes and allocations of a run succeed and its blocks can be fetched in the end, the
handle `chop_tree_index_blocks` returns opens a stream that behaves as the concatenation of the
blocks, whatever sizes the reads ask for.
-/

namespace Libchop

variable {σ H : Type} {ix : BlockIndexer σ H} {bf : BlockFetcher σ H} {holds : σ → Holds H}
  {serialize : H → Bytes}

/-- Every held block can be fetched. -/
def Available (bf : BlockFetcher σ H) (holds : σ → Holds H) : Prop :=
  ∀ role h b w, holds w role h b → ∃ c w', bf.fetch role h w = (.ok c, w')

/-- No operation of the run of `chop_tree_index_blocks` on an input fails, and the blocks it stored can be
found in the end. -/
def IndexingSucceeds (ix : BlockIndexer σ H) (n : Nat) (input : ChopperRun) (holds : σ → Holds H)
    (w : σ) : Prop :=
  ∀ fuel result s', chopTreeIndexBlocks ix n fuel input ⟨w, [], []⟩ = .done (result, s') →
    AllOk s'.trace ∧ s'.Held holds

theorem indexingSucceeds_of_reliable {n : Nat} (hix : Reliable ix n) (hk : KeepsBlocks ix holds)
    (input : ChopperRun) (w : σ) : IndexingSucceeds ix n input holds w :=
  fun _ _ _ h => ⟨hix.allOk h, hk.held h⟩

/-- The results of the given requests are those of a stream over `xs`: a request that starts
before the end of `xs` is filled as far as `xs` goes, one that starts at the end is answered by
`CHOP_STREAM_END`. -/
structure Delivers (xs : Bytes) (sizes : List Nat) (results : List (Status × Bytes)) : Prop where
  length : results.length = sizes.length
  read : ∀ i size, sizes[i]? = some size → results[i]? = some (
    if xs.length ≤ (sizes.take i).sum then (.error .streamEnd, [])
    else (.ok (), (xs.drop (sizes.take i).sum).take size))
  bytes : results.flatMap Prod.snd = xs.take sizes.sum

def ReadsBack (bf : BlockFetcher σ H) (w : σ) (root : H) (xs : Bytes) : Prop :=
  ∃ bound, ∀ fuel, bound ≤ fuel → ∀ sizes : List Nat, (∀ size ∈ sizes, 0 < size) →
    ∃ results tree s',
      treeStreamReads bf fuel sizes (chopTreeFetchStream root) ⟨w, []⟩ = .done (results, tree, s') ∧
      Delivers xs sizes results

private theorem delivers_cons {xs : Bytes} {size : Nat} {sizes : List Nat}
    {results : List (Status × Bytes)} (h : Delivers (xs.drop size) sizes results) :
    Delivers xs (size :: sizes)
      ((if xs = [] then (.error .streamEnd) else .ok (), xs.take size) :: results) := by
  constructor
  · rw [List.length_cons, List.length_cons, h.length]
  · intro i k hk
    cases i with
    | zero =>
      rw [List.getElem?_cons_zero, Option.some.injEq] at hk
      subst hk
      cases xs with
      | nil => simp
      | cons x xs => simp
    | succ i =>
      rw [List.getElem?_cons_succ] at hk
      rw [List.getElem?_cons_succ, h.read i k hk, List.take_succ_cons, List.sum_cons,
        List.length_drop, List.drop_drop]
      simp only [Nat.sub_le_iff_le_add']
  · rw [List.flatMap_cons, h.bytes, List.sum_cons, List.take_add]

theorem not_fetchFailed (havail : Available bf holds) (s s' : ReadState σ)
    (status : Status) : ¬ FetchFailed bf holds s s' status := by
  rintro ⟨e, _, _, role, h, b, w, left, w', hold, hfetch⟩
  obtain ⟨c, w'', hok⟩ := havail role h b w hold
  rw [hok] at hfetch
  simp at hfetch

theorem noEndFailure_of_available (havail : Available bf holds) : NoEndFailure bf holds := by
  intro role h b w e left w' hold hfetch
  obtain ⟨c, w'', hok⟩ := havail role h b w hold
  rw [hok] at hfetch
  simp at hfetch

/-- One read of a stream all of whose blocks can be fetched. -/
theorem treeStreamRead_available [Nontrivial H] (hf : FetchesBlocks bf serialize holds)
    (havail : Available bf holds) {levels : Nat} (fuel : Nat) {size : Nat} (hsize : 0 < size)
    {tree : DecodedBlockTree H} {xs : Bytes} {s : ReadState σ}
    (hat : StreamAt (holds s.world) serialize levels tree xs)
    (hfuel : xs.length + 2 * levels + 3 < fuel) :
    ∃ tree' s', treeStreamRead bf fuel tree size s =
        .done (if xs = [] then .error .streamEnd else .ok (), xs.take size, tree', s') ∧
      StreamAt (holds s'.world) serialize levels tree' (xs.drop size) := by
  obtain ⟨status, bytes, tree', s', hread, hfailed | ⟨_, hstatus, hbytes, hat'⟩⟩ :=
    treeStreamRead_spec hf (noEndFailure_of_available havail) fuel size hat hfuel
  · exact (not_fetchFailed havail _ _ _ hfailed).elim
  · simp only [hsize, and_true] at hstatus
    rw [hstatus, hbytes] at hread
    exact ⟨tree', s', hread, hat'⟩

theorem treeStreamReads_delivers [Nontrivial H] (hf : FetchesBlocks bf serialize holds)
    (havail : Available bf holds) {levels : Nat} (fuel : Nat) {sizes : List Nat}
    (hpos : ∀ size ∈ sizes, 0 < size) {tree : DecodedBlockTree H} {xs : Bytes} {s : ReadState σ}
    (hat : StreamAt (holds s.world) serialize levels tree xs)
    (hfuel : xs.length + 2 * levels + 3 < fuel) :
    ∃ results tree' s', treeStreamReads bf fuel sizes tree s = .done (results, tree', s') ∧
      Delivers xs sizes results := by
  induction sizes generalizing tree xs s with
  | nil =>
    refine ⟨[], tree, s, rfl, rfl, ?_, ?_⟩
    · intro i size h
      simp at h
    · simp
  | cons size sizes ih =>
    have hsize : 0 < size := hpos size List.mem_cons_self
    obtain ⟨tree₁, s₁, hread, hat₁⟩ := treeStreamRead_available hf havail fuel hsize hat hfuel
    have hshort : (xs.drop size).length ≤ xs.length := by
      rw [List.length_drop]
      exact Nat.sub_le _ _
    obtain ⟨results, tree₂, s₂, hreads, hdelivers⟩ :=
      ih (fun k hk => hpos k (List.mem_cons_of_mem size hk)) hat₁ (by omega)
    refine ⟨_ :: results, tree₂, s₂, ?_, delivers_cons hdelivers⟩
    simp [treeStreamReads, hread, hreads]

theorem readsBack_of_encodes [Nontrivial H] (hf : FetchesBlocks bf serialize holds)
    (havail : Available bf holds) {levels : Nat} {root : H} {xs : Bytes} {w : σ}
    (henc : Encodes (holds w) serialize (levels + 1) root xs) : ReadsBack bf w root xs := by
  refine ⟨xs.length + 2 * levels + 4, fun fuel hfuel sizes hpos => ?_⟩
  have hat : StreamAt (holds w) serialize levels (chopTreeFetchStream root) xs := .inl ⟨rfl, henc⟩
  exact treeStreamReads_delivers hf havail fuel hpos hat hfuel

/-- The round trip: what fits the key block header and `total_amount` is indexed, and reading it
back delivers the concatenation of the blocks. -/
theorem chopTreeIndexBlocks_readsBack [Nontrivial H] (hf : FetchesBlocks bf ix.serialize holds)
    (havail : Available bf holds) (n : Nat) (blocks : List Bytes) (hne : blocks ≠ [])
    (hdata : ∀ b ∈ blocks, b ≠ []) (hfits : IndexingFits n blocks) (w : σ) (fuel : Nat)
    (hfuel : 2 ^ 16 + 2 ≤ fuel) :
    ∃ result s', chopTreeIndexBlocks ix n fuel ⟨blocks, .streamEnd⟩ ⟨w, [], []⟩ = .done (result, s') ∧
      (AllOk s'.trace → s'.Held holds →
        ∃ root, result = .ok (some root) ∧ ReadsBack bf s'.world root blocks.flatten) := by
  obtain ⟨result, s', events, hrun, hwrites, hroot⟩ :=
    chopTreeIndexBlocks_fits ix hne hdata hfits hfuel ⟨w, [], []⟩
  refine ⟨result, s', hrun, fun hok hheld => ?_⟩
  have htrace : s'.trace = events := hwrites.trace
  obtain ⟨root, levels, hresult, _, henc⟩ := hroot (htrace ▸ hok)
  exact ⟨root, hresult, readsBack_of_encodes hf havail (henc.mono hheld)⟩

theorem listFetcher_available : Available listFetcher listHolds :=
  fun _ _ b w hold => ⟨b, w, listFetcher_fetch hold⟩

theorem three_blocks_read_back :
    ∃ root s', chopTreeIndexBlocks listIndexer 3 (2 ^ 16 + 2) ⟨[[1, 2], [3], [4, 5]], .streamEnd⟩
        ⟨[], [], []⟩ = .done (.ok (some root), s') ∧
      ReadsBack listFetcher s'.world root [1, 2, 3, 4, 5] := by
  have hfits : IndexingFits 3 [[1, 2], [3], [4, 5]] :=
    indexingFits_of_lt (by decide) (by simp) (by simp) (by decide) (.inl (by decide))
  have hf : FetchesBlocks listFetcher listIndexer.serialize listHolds := listFetcher_fetchesBlocks
  obtain ⟨result, s', hrun, hreads⟩ := chopTreeIndexBlocks_readsBack hf listFetcher_available 3 [[1, 2], [3], [4, 5]] (by simp) (by simp) hfits []
    (2 ^ 16 + 2) le_rfl
  have hok := (listIndexer_reliable 3).allOk hrun
  obtain ⟨root, rfl, hback⟩ := hreads hok (listIndexer_keepsBlocks.held hrun)
  exact ⟨root, s', hrun, hback⟩

private theorem replicate_not_indexed {n k : Nat} {b : Bytes} (hk : k ≠ 0) (hb : b ≠ [])
    (hfits : ¬ IndexingFits n (List.replicate k b)) (fuel : Nat) (index : Option Nat)
    (s' : IndexState ListStore Nat) :
    chopTreeIndexBlocks listIndexer n fuel ⟨List.replicate k b, .streamEnd⟩ ⟨[], [], []⟩ ≠
      .done (.ok index, s') := by
  intro hrun
  apply hfits
  refine indexingFits_of_done ?_ ?_ hrun ((listIndexer_reliable n).allOk hrun)
  · simpa using hk
  · intro c hc
    rw [List.eq_of_mem_replicate hc]
    exact hb

private theorem square_not_fits (n : Nat) (b : UInt8) {k : Nat} (hk : k * k % 2 ^ 64 = 0) :
    ¬ IndexingFits n (List.replicate k (List.replicate k b)) := by
  rintro ⟨_, _, _, htotal⟩
  rw [List.flatten_replicate_replicate, List.length_replicate] at htotal
  exact htotal hk

private theorem not_readsBack_data {b x : UInt8} :
    ¬ ReadsBack listFetcher [(.data, [b])] 0 [x] := by
  rintro ⟨bound, hbound⟩
  obtain ⟨results, tree, s', hreads, hdelivers⟩ := hbound bound le_rfl [1] (by simp)
  have hfirst := hdelivers.read 0 1 rfl
  simp [treeStreamReads, treeStreamRead, chopTreeFetchStream, chopDecodedBlockFetch,
    listFetcher] at hreads
  obtain ⟨rfl, -⟩ := hreads
  simp at hfirst

/-- Two limits of the format, on a store that fails nothing and keeps all its blocks: with more than
`2 ^ 32` indexes per block, the key count of a block of `2 ^ 32` keys does not fit the header and
`chop_key_block_fill_header` stops the run; and a stream of `2 ^ 64` bytes leaves `total_amount` at
zero, which is taken for an empty source.  And a key block of `2 ^ 60` indexes may not be allocated:
the handle is then that of a data block. -/
theorem format_limits_not_indexed :
    (∀ n, Reliable listIndexer n) ∧ KeepsBlocks listIndexer listHolds ∧
    FetchesBlocks listFetcher unarySerialize listHolds ∧ Available listFetcher listHolds ∧
    (∀ fuel index s', chopTreeIndexBlocks listIndexer (2 ^ 32 + 1) fuel
      ⟨List.replicate (2 ^ 32) [1], .streamEnd⟩ ⟨[], [], []⟩ ≠ .done (.ok index, s')) ∧
    (∀ fuel index s', chopTreeIndexBlocks listIndexer 3 fuel
      ⟨List.replicate (2 ^ 32) (List.replicate (2 ^ 32) 1), .streamEnd⟩ ⟨[], [], []⟩ ≠
        .done (.ok index, s')) ∧
    ∃ s', chopTreeIndexBlocks smallMemoryIndexer (2 ^ 60) 66 ⟨[[1]], .streamEnd⟩ ⟨[], [], []⟩ =
        .done (.ok (some 0), s') ∧ ¬ ReadsBack listFetcher s'.world 0 [1] := by
  refine ⟨listIndexer_reliable, listIndexer_keepsBlocks, listFetcher_fetchesBlocks,
    listFetcher_available, ?_, ?_, ?_⟩
  · apply replicate_not_indexed (by decide) (by decide)
    rintro ⟨_, _, hfit, _⟩
    rw [List.length_replicate] at hfit
    omega
  · apply replicate_not_indexed (by decide)
    · rw [ne_eq, List.replicate_eq_nil_iff]
      decide
    · exact square_not_fits 3 1 (by decide)
  · exact ⟨_, rfl, not_readsBack_data⟩

end Libchop
