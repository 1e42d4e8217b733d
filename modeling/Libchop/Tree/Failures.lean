import Libchop.Tree.RoundTrip

/-!
# Failures while indexing

A run of `chop_tree_index_blocks` hides no failure when an operation that failed makes it return
an error, the chopper's own if the chopper failed, and when success means that the stream can be
read back.  The code drops the status of `chop_block_tree_add_index`, overwrites that of the
insertions made by the final flush, takes a data block write that fails with `CHOP_STREAM_END`
for the end of the input, and reports an empty source whenever no byte came before an error.
-/

namespace Libchop

variable {σ H : Type} {ix : BlockIndexer σ H} {bf : BlockFetcher σ H} {holds : σ → Holds H}

/-- What hiding no failure means for a run and its writes. -/
def HidesNoFailure (bf : BlockFetcher σ H) (input : ChopperRun)
    (result : Except ChopError (Option H)) (s' : IndexState σ H) (events : List WriteEvent) : Prop :=
  (¬ AllOk events ∨ ChopperFailed input events → ∃ e, result = .error e) ∧
    (ChopperFailed input events → result = .error input.final) ∧
    ∀ index, result = .ok index →
      ∃ root, index = some root ∧ ReadsBack bf s'.world root input.blocks.flatten

/-- The failures of a run are all of the kind the code looks at: if writes failed, one of them
is a data block write whose error is not `CHOP_STREAM_END` or a key block write of the final
flush, unless the chopper failed; and a chopper that fails has given some data before. -/
def FailuresSeen (input : ChopperRun) (events : List WriteEvent) : Prop :=
  (¬ AllOk events → VisibleFailure input events) ∧
    (ChopperFailed input events →
      0 < input.blocks.flatten.length ∨ input.final = .indexerEmptySource)

/-- Each run hides no failure exactly if its failures are of the kind the code looks at. -/
theorem chopTreeIndexBlocks_hidesNoFailure_iff [Nontrivial H]
    (hf : FetchesBlocks bf ix.serialize holds) (havail : Available bf holds) (n : Nat)
    (hn : 3 ≤ n) (input : ChopperRun) (hsize : input.blocks.flatten.length < 2 ^ 64)
    (hfit : n ≤ 2 ^ 32 ∨ (dataBlocks input.blocks).length < 2 ^ 32) (w : σ)
    (fuel : Nat) (hfuel : 66 ≤ fuel) :
    ∃ result s', chopTreeIndexBlocks ix n fuel input ⟨w, [], []⟩ = .done (result, s') ∧
      (s'.Held holds →
        (HidesNoFailure bf input result s' s'.trace ↔ FailuresSeen input s'.trace)) := by
  obtain ⟨result, s', events, hrun, hspec⟩ :=
    chopTreeIndexBlocks_spec ix hn fuel input ⟨w, [], []⟩ hsize hfuel hfit
  refine ⟨result, s', hrun, fun hheld => ?_⟩
  have htrace : s'.trace = events := hspec.writes.trace
  rw [htrace]
  constructor
  · intro hhides
    constructor
    · intro hfailed
      have herror := hspec.result_error.mp (hhides.1 (.inl hfailed))
      cases herror with
      | inl hempty => exact (hfailed (hspec.empty hempty)).elim
      | inr hvisible => exact hvisible
    · intro hchopper
      have hresult := hhides.2.1 hchopper
      rw [hspec.chopper hchopper, Except.error.injEq] at hresult
      by_cases hempty : input.blocks.flatten.length = 0
      · rw [if_pos hempty] at hresult
        exact .inr hresult.symm
      · exact .inl (Nat.pos_of_ne_zero hempty)
  · intro hseen
    refine ⟨?_, ?_, ?_⟩
    · intro hfailed
      apply hspec.result_error.mpr
      cases hfailed with
      | inl hwrites => exact .inr (hseen.1 hwrites)
      | inr hchopper => exact .inr (.inl hchopper)
    · intro hchopper
      rw [hspec.chopper hchopper]
      cases hseen.2 hchopper with
      | inl hpos => rw [if_neg (Nat.ne_of_gt hpos)]
      | inr hfinal => rw [hfinal, ite_self]
    · intro index hok
      have hnoError : ¬ ∃ e, result = .error e := by
        rw [hok]
        simp
      have hallOk : AllOk events := by
        by_contra hfailed
        exact hnoError (hspec.result_error.mpr (.inr (hseen.1 hfailed)))
      obtain ⟨root, levels, hroot, henc⟩ := hspec.encodes hallOk index hok
      exact ⟨root, hroot, readsBack_of_encodes hf havail (henc.mono hheld)⟩

private theorem flakyFetcher_available :
    Available (flakyFetcher fun _ => false) flakyHolds := by
  intro role h b w hold
  exact ⟨b, (w.1 + 1, w.2), by simp [flakyFetcher, listFetcher_fetch hold]⟩

theorem data_write_failure_seen_iff :
    ∃ result s', chopTreeIndexBlocks (flakyIndexer fun k => k = 1) 3 66
        ⟨[[1], [2]], .streamEnd⟩ ⟨(0, []), [], []⟩ = .done (result, s') ∧ ¬ AllOk s'.trace ∧
      (HidesNoFailure (flakyFetcher fun _ => false) ⟨[[1], [2]], .streamEnd⟩ result s' s'.trace ↔
        FailuresSeen ⟨[[1], [2]], .streamEnd⟩ s'.trace) := by
  have hf : FetchesBlocks (flakyFetcher fun _ => false) (flakyIndexer fun k => k = 1).serialize
      flakyHolds := flakyFetcher_fetchesBlocks _
  obtain ⟨result, s', hrun, hiff⟩ := chopTreeIndexBlocks_hidesNoFailure_iff hf flakyFetcher_available 3
    (by decide) ⟨[[1], [2]], .streamEnd⟩ (by decide) (.inl (by decide)) (0, []) 66 le_rfl
  have hheld := (flakyIndexer_keepsBlocks fun k => k = 1).held hrun
  refine ⟨result, s', hrun, fun hok => ?_, hiff hheld⟩
  cases hrun
  have h := hok ⟨.indexBlocks, .error (.code 5)⟩ (by simp [Except.map])
  simp at h

/-- The write of the first full key block fails while the third block is indexed.  Indexing
succeeds nevertheless, and the stream that is read back lacks the third block. -/
theorem key_block_write_failure_hidden :
    ∃ root s', chopTreeIndexBlocks (flakyIndexer fun k => k = 3) 3 66
        ⟨[[1], [2], [3]], .streamEnd⟩ ⟨(0, []), [], []⟩ = .done (.ok (some root), s') ∧
      ¬ AllOk s'.trace ∧
      ∃ tree s'', treeStreamReads (flakyFetcher fun _ => false) 20 [4, 4] (chopTreeFetchStream root)
        ⟨s'.world, []⟩ = .done ([(.ok (), [1, 2]), (.error .streamEnd, [])], tree, s'') := by
  refine ⟨_, _, rfl, ?_, _, _, rfl⟩
  intro hok
  have h := hok ⟨.keyBlockAddIndex, .error (.code 5)⟩ (by simp [Except.map])
  simp at h

end Libchop
