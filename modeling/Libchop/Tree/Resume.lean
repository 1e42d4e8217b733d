import Libchop.Tree.RoundTrip

/-!
# Reads around failed fetches

`chop_decoded_block_next_child` moves the offset of a key block past a key before the block of
that key is fetched, and a block is entered in the chain before its contents are known.  So a
stream is good for as long as no fetch failed, and for one more read.
-/

namespace Libchop

variable {σ H : Type} {bf : BlockFetcher σ H} {holds : σ → Holds H} {serialize : H → Bytes}

/-- The bytes delivered by the successful reads of a run. -/
def delivered (results : List (Status × Bytes)) : Bytes :=
  (results.filter fun r => r.1 = .ok ()).flatMap Prod.snd

/-- A run of reads in which no fetch failed. -/
inductive CleanReads (bf : BlockFetcher σ H) (fuel : Nat) :
    DecodedBlockTree H → ReadState σ → List (Status × Bytes) → DecodedBlockTree H → ReadState σ →
      Prop
  | nil (tree : DecodedBlockTree H) (s : ReadState σ) : CleanReads bf fuel tree s [] tree s
  | cons {tree tree₁ tree' : DecodedBlockTree H} {s s₁ s' : ReadState σ} {status : Status}
      {bytes : Bytes} {results : List (Status × Bytes)} (size : Nat) :
      treeStreamRead bf fuel tree size s = .done (status, bytes, tree₁, s₁) →
      s₁.failures = s.failures → CleanReads bf fuel tree₁ s₁ results tree' s' →
      CleanReads bf fuel tree s ((status, bytes) :: results) tree' s'

private theorem not_fetchFailed_of_failures_eq {s s' : ReadState σ} {status : Status}
    (heq : s'.failures = s.failures) : ¬ FetchFailed bf holds s s' status := by
  rintro ⟨e, hfailures, _⟩
  rw [heq] at hfailures
  simp at hfailures

theorem delivered_cons (status : Status) (bytes : Bytes) (results : List (Status × Bytes)) :
    delivered ((status, bytes) :: results) =
      (if status = .ok () then bytes else []) ++ delivered results := by
  by_cases h : status = .ok ()
  · simp [delivered, h]
  · simp [delivered, h]

private theorem delivered_read {xs bytes : Bytes} {size : Nat} {status : Status}
    (hstatus : status = if xs = [] ∧ 0 < size then .error .streamEnd else .ok ())
    (hbytes : bytes = xs.take size) : (if status = .ok () then bytes else []) = xs.take size := by
  by_cases hend : xs = [] ∧ 0 < size
  · rw [if_pos hend] at hstatus
    simp [hstatus, hend.1]
  · rw [if_neg hend] at hstatus
    simp [hstatus, hbytes]

/-- Along a clean run, what was delivered followed by what is left is the whole stream. -/
theorem CleanReads.streamAt [Nontrivial H] (hf : FetchesBlocks bf serialize holds)
    (hend : NoEndFailure bf holds) {levels fuel : Nat} {tree tree' : DecodedBlockTree H}
    {s s' : ReadState σ} {results : List (Status × Bytes)}
    (hrun : CleanReads bf fuel tree s results tree' s') {xs : Bytes}
    (hat : StreamAt (holds s.world) serialize levels tree xs)
    (hfuel : xs.length + 2 * levels + 3 < fuel) :
    ∃ ys, StreamAt (holds s'.world) serialize levels tree' ys ∧ xs = delivered results ++ ys := by
  induction hrun generalizing xs with
  | nil tree s => exact ⟨xs, hat, rfl⟩
  | cons size hread hclean _ ih =>
    obtain ⟨status, bytes, tree₁, s₁, heq, hspec⟩ := treeStreamRead_spec hf hend fuel size hat hfuel
    rw [heq] at hread
    injection hread with hread
    simp only [Prod.mk.injEq] at hread
    obtain ⟨rfl, rfl, rfl, rfl⟩ := hread
    cases hspec with
    | inl hfailed => exact (not_fetchFailed_of_failures_eq hclean hfailed).elim
    | inr hgood =>
      obtain ⟨_, hstatus, hbytes, hat₁⟩ := hgood
      have hshort : (xs.drop size).length ≤ xs.length := by
        rw [List.length_drop]
        exact Nat.sub_le _ _
      obtain ⟨ys, hat', hys⟩ := ih hat₁ (by omega)
      refine ⟨ys, hat', ?_⟩
      rw [delivered_cons, delivered_read hstatus hbytes, List.append_assoc, ← hys,
        List.take_append_drop]

/-- A read after a clean run returns, and the successful reads up to it have delivered a prefix
of the stream, also when one of its fetches fails. -/
theorem treeStreamRead_delivers_prefix [Nontrivial H] (hf : FetchesBlocks bf serialize holds)
    (hend : NoEndFailure bf holds) (levels : Nat) (root : H) (data : Bytes) (s : ReadState σ)
    (henc : Encodes (holds s.world) serialize (levels + 1) root data) (fuel : Nat)
    (hfuel : data.length + 2 * levels + 3 < fuel) (results : List (Status × Bytes))
    (tree : DecodedBlockTree H) (s' : ReadState σ)
    (hrun : CleanReads bf fuel (chopTreeFetchStream root) s results tree s') (size : Nat) :
    ∃ status bytes tree' s'',
      treeStreamRead bf fuel tree size s' = .done (status, bytes, tree', s'') ∧
      delivered (results ++ [(status, bytes)]) <+: data := by
  obtain ⟨ys, hat, hdata⟩ := hrun.streamAt hf hend (.inl ⟨rfl, henc⟩) hfuel
  have hlen := congrArg List.length hdata
  rw [List.length_append] at hlen
  obtain ⟨status, bytes, tree', s'', hread, hspec⟩ :=
    treeStreamRead_spec hf hend fuel size hat (by omega)
  refine ⟨status, bytes, tree', s'', hread, ?_⟩
  have hsplit : delivered (results ++ [(status, bytes)]) =
      delivered results ++ (if status = .ok () then bytes else []) := by
    simp only [delivered, List.filter_append, List.flatMap_append]
    by_cases hok : status = .ok ()
    · simp [hok]
    · simp [hok]
  rw [hsplit, hdata]
  apply List.prefix_append_right_inj _ |>.mpr
  cases hspec with
  | inl hfailed =>
    obtain ⟨e, _, hstatus, _⟩ := hfailed
    simp [hstatus]
  | inr hgood =>
    obtain ⟨_, hstatus, hbytes, _⟩ := hgood
    rw [delivered_read hstatus hbytes]
    exact List.take_prefix _ _

def threeBlockStore : ListStore :=
  [(.data, [1]), (.data, [2]), (.data, [3]),
    (.metadata, keyBlockBytes unarySerialize 0 [0, 1, 2])]

private theorem threeBlockStore_encodes :
    Encodes (flakyHolds (0, threeBlockStore)) unarySerialize 1 3 [1, 2, 3] := by
  refine ⟨[0, 1, 2], [[1], [2], [3]], by decide, by decide, by decide, rfl, ?_, rfl⟩
  refine .cons ⟨rfl, by decide⟩ (.cons ⟨rfl, by decide⟩ (.cons ⟨rfl, by decide⟩ .nil))

/-- The first block is read, and the fetch of the second one fails. -/
theorem failed_read_delivers_prefix :
    ∃ tree s' err bytes tree' s'',
      CleanReads (flakyFetcher fun k => k = 2) 7 (chopTreeFetchStream 3) ⟨(0, threeBlockStore), []⟩
        [(.ok (), [1])] tree s' ∧
      treeStreamRead (flakyFetcher fun k => k = 2) 7 tree 1 s' = .done (.error err, bytes, tree', s'') ∧
      delivered ([(.ok (), [1])] ++ [(.error err, bytes)]) <+: [1, 2, 3] := by
  have hrun : ∃ tree s' err bytes tree' s'',
      CleanReads (flakyFetcher fun k => k = 2) 7 (chopTreeFetchStream 3) ⟨(0, threeBlockStore), []⟩
        [(.ok (), [1])] tree s' ∧
      treeStreamRead (flakyFetcher fun k => k = 2) 7 tree 1 s' = .done (.error err, bytes, tree', s'') :=
    ⟨_, _, _, _, _, _, .cons 1 rfl rfl (.nil _ _), rfl⟩
  obtain ⟨tree, s', err, bytes, tree', s'', hclean, hread⟩ := hrun
  obtain ⟨status, bytes', after, last, hread', hdelivers⟩ :=
    treeStreamRead_delivers_prefix (flakyFetcher_fetchesBlocks _) (flakyFetcher_noEndFailure _) 0 3
      [1, 2, 3] ⟨(0, threeBlockStore), []⟩ threeBlockStore_encodes 7 (by decide) _ _ _ hclean 1
  rw [hread] at hread'
  cases hread'
  exact ⟨tree, s', err, bytes, tree', s'', hclean, hread, hdelivers⟩

/-- A fetch that fails once: the read that failed is retried, and the block it could not fetch is
skipped.  When the fetch that fails is that of the root block, the retry stops on an assertion. -/
theorem failed_fetch_skips_block :
    Encodes (flakyHolds (0, threeBlockStore)) unarySerialize 1 3 [1, 2, 3] ∧
    (∃ results tree s', treeStreamReads (flakyFetcher fun k => k = 2) 7 [1, 1, 1]
        (chopTreeFetchStream 3) ⟨(0, threeBlockStore), []⟩ = .done (results, tree, s') ∧
      delivered results = [1, 3] ∧ ¬ delivered results <+: [1, 2, 3]) ∧
    treeStreamReads (flakyFetcher fun k => k = 0) 7 [1, 1] (chopTreeFetchStream 3)
      ⟨(0, threeBlockStore), []⟩ = .abort := by
  refine ⟨threeBlockStore_encodes, ⟨_, _, _, rfl, rfl, ?_⟩, rfl⟩
  decide

end Libchop
