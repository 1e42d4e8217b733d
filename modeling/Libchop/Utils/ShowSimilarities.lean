import Libchop.Chopper.ChopperRuns
import Libchop.Indexer.Methods

/-!
# How much two files have in common

`chop-show-similarities` cuts two files into blocks with an anchor-based chopper each, and counts the blocks
of the longer file that have the digest of some block of the other one.
-/

namespace Libchop

open WindowSplit

/-- What is known of a block of a file.  The offset is never advanced. -/
structure BlockInfo where
  digest : Bytes
  digestSize : Nat
  offset : Nat
  size : Nat
deriving DecidableEq, Repr

structure BlockInfoVector where
  vector : List BlockInfo
  totalSize : Nat
deriving DecidableEq, Repr

structure SimilarityOptions where
  windowSize : Nat := 48
  magicFprMask : Nat := 0x1fff
  magicFprMaskSet : Bool := false
  blocksPerFile : Nat := 200

/-- What is printed, but for the percentages. -/
structure Similarities where
  commonBlocks : Nat
  totalBlocks : Nat
  commonBytes : Nat
  totalBytes : Nat
deriving DecidableEq, Repr

def fingerprintMaskForSize (fuel size : Nat) : Outcome Nat :=
  powerOfTwoLoop size fuel 1 >>= fun powerOfTwo => .done (powerOfTwo - 1)

/-- The sizes are what `stat` gives for the two files; no blocks per file is a division by zero. -/
def chooseMagicFingerprintMask (fuel : Nat) (options : SimilarityOptions) (one two : Option Nat) :
    Outcome Nat :=
  match one, two with
  | some one, some two =>
    Outcome.assert (options.blocksPerFile ≠ 0) >>= fun _ =>
      fingerprintMaskForSize fuel (min one two / options.blocksPerFile)
  | _, _ => .done options.magicFprMask

/-- The loop of `read_stream`, which returns 2 on errors other than the end of the stream. -/
def readStreamLoop (hash : HashFunctions) (fuel : Nat) (method : HashMethod) :
    Nat → AnchorBasedChopper → BlockInfoVector → Outcome (Status × BlockInfoVector)
  | 0, _, _ => .outOfFuel
  | rounds + 1, chopper, vector =>
    chopAnchorChopperReadBlock fuel chopper >>= fun (err, buffer, chopper) =>
      match err with
      | .error err => .done (.error (if err = .streamEnd then .streamEnd else .code 2), vector)
      | .ok _ =>
        chopHashBuffer hash method buffer >>= fun digest =>
          readStreamLoop hash fuel method rounds chopper
            ⟨vector.vector ++ [⟨digest, chopHashSize method, 0, buffer.length⟩],
              (vector.totalSize + buffer.length) % 2 ^ 64⟩

def readStream (hash : HashFunctions) (fuel : Nat) (chopper : AnchorBasedChopper) (method : HashMethod) :
    Outcome (Status × BlockInfoVector) :=
  readStreamLoop hash fuel method fuel chopper ⟨[], 0⟩

/-- Digests are compared by `memcmp`. -/
def searchIdenticalBlock (block : BlockInfo) (vector : BlockInfoVector) : Bool :=
  vector.vector.any fun b => block.digest.take b.digestSize = b.digest.take b.digestSize

/-- The first one only if it is longer. -/
def longestVector (vector1 vector2 : BlockInfoVector) : BlockInfoVector :=
  if vector1.totalSize > vector2.totalSize then vector1 else vector2

def theOtherOne (vector1 vector2 : BlockInfoVector) : BlockInfoVector :=
  if vector1.totalSize > vector2.totalSize then vector2 else vector1

/-- One round of the loop of `show_similarities`. -/
def countBlock (shortest : BlockInfoVector) (s : Similarities) (block : BlockInfo) : Similarities :=
  let s := { s with totalBlocks := (s.totalBlocks + 1) % 2 ^ 64 }
  if searchIdenticalBlock block shortest then
    { s with
      commonBlocks := (s.commonBlocks + 1) % 2 ^ 64
      commonBytes := (s.commonBytes + block.size) % 2 ^ 64 }
  else s

def showSimilarities (vector1 vector2 : BlockInfoVector) : Similarities :=
  (longestVector vector1 vector2).vector.foldl (countBlock (theOtherOne vector1 vector2))
    ⟨0, 0, 0, (longestVector vector1 vector2).totalSize⟩

/-- `main`, on two files that could be opened: the exit code, and what is printed. -/
def chopShowSimilarities (hash : HashFunctions) (fuel : Nat) (options : SimilarityOptions)
    (stat1 stat2 : Option Nat) (file1 file2 : List Bytes) : Outcome (Nat × Option Similarities) :=
  let mask :=
    if options.magicFprMaskSet then .done options.magicFprMask
    else chooseMagicFingerprintMask fuel options stat1 stat2
  mask >>= fun mask =>
    let chopper1 := chopAnchorBasedChopperInit options.windowSize mask file1
    let chopper2 := chopAnchorBasedChopperInit options.windowSize mask file2
    readStream hash fuel chopper1 .md5 >>= fun (err, blocks1) =>
      if err ≠ .ok () ∧ err ≠ .error .streamEnd then .done (1, none)
      else
        readStream hash fuel chopper2 .md5 >>= fun (err, blocks2) =>
          if err ≠ .ok () ∧ err ≠ .error .streamEnd then .done (1, none)
          else .done (0, some (showSimilarities blocks1 blocks2))

section Reading

variable {hash : HashFunctions} {method : HashMethod} {windowSize mask : Nat}

def blockInfo (hash : HashFunctions) (method : HashMethod) (block : Bytes) : BlockInfo :=
  ⟨hash.digest method block, chopHashSize method, 0, block.length⟩

private theorem readStreamLoop_spec (havailable : hash.available method = true) {fuel : Nat} (rounds : Nat)
    {input : Bytes} {chopper : AnchorBasedChopper} (hidle : Idle windowSize mask input chopper)
    (hfuel : readBlockFuel windowSize input.length ≤ fuel)
    (hrounds : (split (isAnchor mask) windowSize input).length < rounds) (vector : BlockInfoVector)
    (htotal : vector.totalSize + input.length < 2 ^ 64) :
    readStreamLoop hash fuel method rounds chopper vector =
      .done (.error .streamEnd,
        ⟨vector.vector ++ (split (isAnchor mask) windowSize input).map (blockInfo hash method),
          vector.totalSize + input.length⟩) := by
  induction rounds generalizing input chopper vector with
  | zero => omega
  | succ rounds ih =>
    obtain ⟨chopper', hread, hidle'⟩ :=
      chopAnchorChopperReadBlock_spec hidle (hidle.scanFuel_lt.trans_le hfuel)
    rw [readStreamLoop, hread, Outcome.done_bind]
    by_cases hend : input = []
    · subst hend
      simp only [if_true, split_nil, List.map_nil, List.append_nil, List.length_nil,
        Nat.add_zero]
    · have hpos := hidle.loaded.pos
      have hcut := cut_le (isAnchor mask) windowSize input
      have hcutPos := cut_pos (isAnchor mask) hpos hend
      rw [split_eq hpos hend, List.length_cons] at hrounds
      have hlength : (input.take (cut (isAnchor mask) windowSize input)).length =
          cut (isAnchor mask) windowSize input := List.length_take_of_le hcut
      have hrest : (input.drop (cut (isAnchor mask) windowSize input)).length =
          input.length - cut (isAnchor mask) windowSize input := List.length_drop
      have hnext := ih hidle' ((readBlockFuel_mono windowSize (by omega)).trans hfuel) (by omega)
        ⟨vector.vector ++ [blockInfo hash method (input.take (cut (isAnchor mask) windowSize input))],
          (vector.totalSize + (input.take (cut (isAnchor mask) windowSize input)).length) % 2 ^ 64⟩
        (by dsimp only; omega)
      rw [blockInfo] at hnext
      simp only [if_neg hend, chopHashBuffer_eq_done.mpr ⟨havailable, rfl⟩, Outcome.done_bind, hnext]
      rw [split_eq hpos hend, List.map_cons, List.append_assoc]
      congr 3
      rw [hlength, hrest]
      omega

theorem readStream_spec (havailable : hash.available method = true) (hpos : 0 < windowSize) (mask : Nat)
    (file : List Bytes) (hsize : file.flatten.length < 2 ^ 64) :
    Outcome.Settles
      (fun fuel => readStream hash fuel (chopAnchorBasedChopperInit windowSize mask file) method)
      (.error .streamEnd,
        ⟨(split (isAnchor mask) windowSize file.flatten).map (blockInfo hash method),
          file.flatten.length⟩) := by
  refine ⟨readBlockFuel windowSize file.flatten.length + file.flatten.length + 1, fun fuel hfuel => ?_⟩
  have hsplit : (split (isAnchor mask) windowSize file.flatten).length ≤ file.flatten.length :=
    split_length_le hpos file.flatten
  have henough : readBlockFuel windowSize file.flatten.length ≤ fuel := by omega
  have hloop := readStreamLoop_spec havailable fuel (chopAnchorBasedChopperInit_idle hpos mask file)
    henough (by omega) ⟨[], 0⟩ (by dsimp only; omega)
  rw [List.nil_append, Nat.zero_add] at hloop
  exact hloop

end Reading

section Counting

variable {hash : HashFunctions} {method : HashMethod}

/-- Some block has the digest of the block. -/
def hasDigestOf (hash : HashFunctions) (method : HashMethod) (blocks : List Bytes) (block : Bytes) : Bool :=
  blocks.any fun other => hash.digest method block = hash.digest method other

theorem searchIdenticalBlock_eq (blocks : List Bytes) (block : Bytes) (total : Nat) :
    searchIdenticalBlock (blockInfo hash method block) ⟨blocks.map (blockInfo hash method), total⟩ =
      hasDigestOf hash method blocks block := by
  have htake : ∀ data : Bytes, (hash.digest method data).take (chopHashSize method) =
      hash.digest method data := by
    intro data
    exact List.take_of_length_le (Nat.le_of_eq (hash.length_digest method data))
  simp only [searchIdenticalBlock, blockInfo, List.any_map, Function.comp_def, htake, hasDigestOf]

/-- Counters that do not overflow. -/
theorem countBlock_eq (others : List Bytes) (total : Nat) {block : Bytes} {s : Similarities}
    (htotal : s.totalBlocks + 1 < 2 ^ 64) (hcommon : s.commonBlocks + 1 < 2 ^ 64)
    (hbytes : s.commonBytes + block.length < 2 ^ 64) :
    countBlock ⟨others.map (blockInfo hash method), total⟩ s (blockInfo hash method block) =
      { s with
        commonBlocks := s.commonBlocks + if hasDigestOf hash method others block then 1 else 0
        totalBlocks := s.totalBlocks + 1
        commonBytes := s.commonBytes + if hasDigestOf hash method others block then block.length else 0 } := by
  have hsize : (blockInfo hash method block).size = block.length := rfl
  rw [countBlock, searchIdenticalBlock_eq]
  by_cases hfound : hasDigestOf hash method others block = true
  · rw [if_pos hfound, if_pos hfound, if_pos hfound]
    dsimp only
    rw [hsize, Nat.mod_eq_of_lt htotal, Nat.mod_eq_of_lt hcommon, Nat.mod_eq_of_lt hbytes]
  · rw [if_neg hfound, if_neg hfound, if_neg hfound, Nat.mod_eq_of_lt htotal]
    rfl

/-- Over all blocks, none of which is empty. -/
theorem foldl_countBlock (others : List Bytes) (total : Nat) (blocks : List Bytes) (s : Similarities)
    (hne : ∀ block ∈ blocks, block ≠ []) (htotal : s.totalBlocks + blocks.flatten.length < 2 ^ 64)
    (hcommon : s.commonBlocks ≤ s.totalBlocks) (hbytes : s.commonBytes + blocks.flatten.length < 2 ^ 64) :
    (blocks.map (blockInfo hash method)).foldl
        (countBlock ⟨others.map (blockInfo hash method), total⟩) s =
      { s with
        commonBlocks := s.commonBlocks + (blocks.filter (hasDigestOf hash method others)).length
        totalBlocks := s.totalBlocks + blocks.length
        commonBytes := s.commonBytes + (blocks.filter (hasDigestOf hash method others)).flatten.length } := by
  induction blocks generalizing s with
  | nil => rfl
  | cons block blocks ih =>
    obtain ⟨hblock, hne⟩ := List.forall_mem_cons.mp hne
    have hpos := List.length_pos_of_ne_nil hblock
    rw [List.flatten_cons, List.length_append] at htotal hbytes
    rw [List.map_cons, List.foldl_cons, countBlock_eq others total (by omega) (by omega) (by omega)]
    by_cases hfound : hasDigestOf hash method others block = true
    · rw [if_pos hfound, if_pos hfound, ih _ hne (by dsimp only; omega) (by dsimp only; omega)
        (by dsimp only; omega), List.filter_cons_of_pos hfound]
      simp only [List.length_cons, List.flatten_cons, List.length_append, Similarities.mk.injEq, and_true]
      omega
    · rw [if_neg hfound, if_neg hfound, ih _ hne (by dsimp only; omega) (by dsimp only; omega)
        (by dsimp only; omega), List.filter_cons_of_neg hfound]
      simp only [List.length_cons, Similarities.mk.injEq, and_true]
      omega

end Counting

section Masks

/-- The mask that is used: one less than a power of two, unless it was given or the sizes are unknown. -/
def similarityMask (options : SimilarityOptions) (stat1 stat2 : Option Nat) : Nat :=
  if options.magicFprMaskSet then options.magicFprMask
  else
    match stat1, stat2 with
    | some one, some two => 2 ^ Nat.log 2 (min one two / options.blocksPerFile) - 1
    | _, _ => options.magicFprMask

theorem fingerprintMaskForSize_settles {size : Nat} (hsize : size < 2 ^ 63) :
    Outcome.Settles (fun fuel => fingerprintMaskForSize fuel size) (2 ^ Nat.log 2 size - 1) := by
  refine ⟨Nat.log 2 size + 1, fun fuel hfuel => ?_⟩
  have hloop : powerOfTwoLoop size fuel 1 = .done (2 ^ Nat.log 2 size) := by
    by_cases hzero : size = 0
    · obtain ⟨rest, rfl⟩ : ∃ rest, fuel = rest + 1 := ⟨fuel - 1, by omega⟩
      subst hzero
      rfl
    · have henough : Nat.log 2 size - 0 < fuel := by omega
      have hloop := powerOfTwoLoop_doubles (Nat.pos_of_ne_zero hzero) hsize (Nat.zero_le _) henough
      rw [pow_zero] at hloop
      exact hloop
  change fingerprintMaskForSize fuel size = _
  rw [fingerprintMaskForSize, hloop, Outcome.done_bind]

theorem similarityMask_settles {options : SimilarityOptions}
    (hblocks : options.magicFprMaskSet = true ∨ 0 < options.blocksPerFile) {stat1 stat2 : Option Nat}
    (hstat : ∀ one ∈ stat1, ∀ two ∈ stat2, min one two < 2 ^ 63) :
    Outcome.Settles
      (fun fuel => if options.magicFprMaskSet then .done options.magicFprMask
        else chooseMagicFingerprintMask fuel options stat1 stat2)
      (similarityMask options stat1 stat2) := by
  unfold similarityMask
  by_cases hset : options.magicFprMaskSet = true
  · simp only [if_pos hset]
    exact .of_eq fun _ => rfl
  · simp only [if_neg hset]
    have hne : options.blocksPerFile ≠ 0 := Nat.ne_of_gt (hblocks.resolve_left hset)
    cases stat1 with
    | none => exact .of_eq fun _ => rfl
    | some one =>
      cases stat2 with
      | none => exact .of_eq fun _ => rfl
      | some two =>
        have hsize := (Nat.div_le_self (min one two) options.blocksPerFile).trans_lt
          (hstat one rfl two rfl)
        refine (fingerprintMaskForSize_settles hsize).imp fun fuel hmask => ?_
        change (Outcome.assert (options.blocksPerFile ≠ 0) >>= fun _ => _) = _
        rw [Outcome.assert_of hne, Outcome.done_bind, hmask]

end Masks

section Reports

variable {hash : HashFunctions} {mask windowSize : Nat}

/-- What is common to the blocks of two files, unless different blocks have one digest. -/
theorem filter_hasDigestOf {method : HashMethod} {blocks others : List Bytes}
    (hfree : ∀ block ∈ blocks, ∀ other ∈ others,
      hash.digest method block = hash.digest method other → block = other) :
    blocks.filter (hasDigestOf hash method others) = blocks.filter (· ∈ others) := by
  refine List.filter_congr fun block hblock => ?_
  rw [hasDigestOf, Bool.eq_iff_iff, List.any_eq_true, decide_eq_true_eq]
  constructor
  · rintro ⟨other, hother, hdigest⟩
    rw [hfree block hblock other hother (of_decide_eq_true hdigest)]
    exact hother
  · intro hblock
    exact ⟨block, hblock, decide_eq_true rfl⟩

/-- From an isolated anchor of a common end on, everything is found. -/
theorem common_end_found (hash : HashFunctions) (method : HashMethod) (hpos : 0 < windowSize) (u v : Bytes)
    {s : Bytes} {q : Nat} (hlow : windowSize - 1 ≤ q) (hfits : q + windowSize ≤ s.length)
    (hmagic : windowFingerprint (window windowSize s q) &&& mask = 0)
    (hisolated : ∀ p < q, q < p + windowSize →
      windowFingerprint (window windowSize s p) &&& mask ≠ 0) :
    (v ++ s).length ≤
      ((split (isAnchor mask) windowSize (v ++ s)).filter
        (hasDigestOf hash method (split (isAnchor mask) windowSize (u ++ s)))).flatten.length +
      (v.length + q + windowSize) := by
  have hanchor : isAnchor mask (window windowSize s q) = true := decide_eq_true hmagic
  have hothers : ∀ p < q, q < p + windowSize → isAnchor mask (window windowSize s p) = false :=
    fun p hp hclose => decide_eq_false (hisolated p hp hclose)
  obtain ⟨before, hother, -⟩ := split_append_of_isolated_anchor hpos u hlow hfits hanchor hothers
  obtain ⟨first, hsplit, -⟩ := split_append_of_isolated_anchor hpos v hlow hfits hanchor hothers
  have hfound : (split (isAnchor mask) windowSize (s.drop (q + windowSize))).filter
      (hasDigestOf hash method (split (isAnchor mask) windowSize (u ++ s))) =
        split (isAnchor mask) windowSize (s.drop (q + windowSize)) := by
    rw [List.filter_eq_self]
    intro block hblock
    rw [hasDigestOf, List.any_eq_true, hother]
    exact ⟨block, List.mem_append_right _ hblock, decide_eq_true rfl⟩
  rw [hsplit, List.filter_append, hfound, List.flatten_append, split_flatten hpos, List.length_append,
    List.length_append, List.length_drop]
  omega

/-- The file whose blocks are counted, and the one they are looked up in. -/
def longerFile (file1 file2 : Bytes) : Bytes := if file1.length > file2.length then file1 else file2

def otherFile (file1 file2 : Bytes) : Bytes := if file1.length > file2.length then file2 else file1

theorem showSimilarities_split (hpos : 0 < windowSize) (mask : Nat) {file1 file2 : Bytes}
    (hsize1 : file1.length < 2 ^ 64) (hsize2 : file2.length < 2 ^ 64) :
    showSimilarities
        ⟨(split (isAnchor mask) windowSize file1).map (blockInfo hash .md5), file1.length⟩
        ⟨(split (isAnchor mask) windowSize file2).map (blockInfo hash .md5), file2.length⟩ =
      let longest := split (isAnchor mask) windowSize (longerFile file1 file2)
      let common := longest.filter
        (hasDigestOf hash .md5 (split (isAnchor mask) windowSize (otherFile file1 file2)))
      ⟨common.length, longest.length, common.flatten.length, (longerFile file1 file2).length⟩ := by
  have hcounts : ∀ longest other : Bytes, longest.length < 2 ^ 64 →
      ((split (isAnchor mask) windowSize longest).map (blockInfo hash .md5)).foldl
          (countBlock
            ⟨(split (isAnchor mask) windowSize other).map (blockInfo hash .md5), other.length⟩)
          ⟨0, 0, 0, longest.length⟩ =
        ⟨((split (isAnchor mask) windowSize longest).filter
            (hasDigestOf hash .md5 (split (isAnchor mask) windowSize other))).length,
          (split (isAnchor mask) windowSize longest).length,
          ((split (isAnchor mask) windowSize longest).filter
            (hasDigestOf hash .md5 (split (isAnchor mask) windowSize other))).flatten.length,
          longest.length⟩ := by
    intro longest other hsize
    have hflatten : (split (isAnchor mask) windowSize longest).flatten = longest :=
      split_flatten hpos longest
    rw [foldl_countBlock _ _ _ _ (fun block hblock => ne_nil_of_mem_split hpos hblock)]
    · simp only [Nat.zero_add]
    · rw [hflatten, Nat.zero_add]
      exact hsize
    · exact Nat.le_refl 0
    · rw [hflatten, Nat.zero_add]
      exact hsize
  rw [showSimilarities, longestVector, theOtherOne, longerFile, otherFile]
  by_cases hlonger : file1.length > file2.length
  · simp only [if_pos hlonger]
    exact hcounts file1 file2 hsize1
  · simp only [if_neg hlonger]
    exact hcounts file2 file1 hsize2

variable {options : SimilarityOptions} {stat1 stat2 : Option Nat} {file1 file2 : List Bytes}

private theorem chopShowSimilarities_settles (hmd5 : hash.available .md5 = true)
    (hpos : 0 < options.windowSize)
    (hblocks : options.magicFprMaskSet = true ∨ 0 < options.blocksPerFile)
    (hstat : ∀ one ∈ stat1, ∀ two ∈ stat2, min one two < 2 ^ 63)
    (hsize1 : file1.flatten.length < 2 ^ 64) (hsize2 : file2.flatten.length < 2 ^ 64) :
    Outcome.Settles (fun fuel => chopShowSimilarities hash fuel options stat1 stat2 file1 file2)
      (0, some (showSimilarities
        ⟨(split (isAnchor (similarityMask options stat1 stat2)) options.windowSize file1.flatten).map
          (blockInfo hash .md5), file1.flatten.length⟩
        ⟨(split (isAnchor (similarityMask options stat1 stat2)) options.windowSize file2.flatten).map
          (blockInfo hash .md5), file2.flatten.length⟩)) := by
  have hended : ¬ ((.error .streamEnd : Status) ≠ .ok () ∧
      (.error .streamEnd : Status) ≠ .error .streamEnd) := fun h => h.2 rfl
  refine (similarityMask_settles hblocks hstat).bind ?_
  refine (readStream_spec hmd5 hpos _ file1 hsize1).bind ?_
  dsimp only
  simp only [if_neg hended]
  refine (readStream_spec hmd5 hpos _ file2 hsize2).bind ?_
  dsimp only
  simp only [if_neg hended]
  exact .of_eq fun _ => rfl

/-- The utility ends on every two files, however they are read.  It counts the blocks of the longer one and
those of them that the other one has as well, unless different blocks have one digest.  All bytes of a common
end after the first isolated anchor are counted as common. -/
theorem chopShowSimilarities_reports (hmd5 : hash.available .md5 = true) (hpos : 0 < options.windowSize)
    (hblocks : options.magicFprMaskSet = true ∨ 0 < options.blocksPerFile)
    (hstat : ∀ one ∈ stat1, ∀ two ∈ stat2, min one two < 2 ^ 63)
    (hsize1 : file1.flatten.length < 2 ^ 64) (hsize2 : file2.flatten.length < 2 ^ 64) :
    ∃ report : Similarities,
      Outcome.Settles (fun fuel => chopShowSimilarities hash fuel options stat1 stat2 file1 file2)
        (0, some report) ∧
      report.totalBytes = (longerFile file1.flatten file2.flatten).length ∧
      let mask := similarityMask options stat1 stat2
      let blocks := split (isAnchor mask) options.windowSize (longerFile file1.flatten file2.flatten)
      let others := split (isAnchor mask) options.windowSize (otherFile file1.flatten file2.flatten)
      report.totalBlocks = blocks.length ∧
      ((∀ block ∈ blocks, ∀ other ∈ others,
          hash.digest .md5 block = hash.digest .md5 other → block = other) →
        report.commonBlocks = (blocks.filter (· ∈ others)).length ∧
          report.commonBytes = (blocks.filter (· ∈ others)).flatten.length) ∧
      ∀ (u v s : Bytes) (q : Nat), longerFile file1.flatten file2.flatten = v ++ s →
        otherFile file1.flatten file2.flatten = u ++ s → options.windowSize - 1 ≤ q →
        q + options.windowSize ≤ s.length →
        windowFingerprint (window options.windowSize s q) &&& mask = 0 →
        (∀ p < q, q < p + options.windowSize →
          windowFingerprint (window options.windowSize s p) &&& mask ≠ 0) →
        report.totalBytes ≤ report.commonBytes + (v.length + q + options.windowSize) := by
  have hsettles := chopShowSimilarities_settles hmd5 hpos hblocks hstat hsize1 hsize2
  rw [showSimilarities_split hpos _ hsize1 hsize2] at hsettles
  refine ⟨_, hsettles, rfl, rfl, fun hfree => ?_, ?_⟩
  · rw [← filter_hasDigestOf hfree]
    exact ⟨rfl, rfl⟩
  · intro u v s q hlonger hother hlow hfits hmagic hisolated
    have hfound := common_end_found hash .md5 hpos u v hlow hfits hmagic hisolated
    rw [← hlonger, ← hother] at hfound
    exact hfound

end Reports

section Sample

/-- MD5 on the blocks of two files. -/
def sampleMd5 : HashFunctions where
  available method := method = .md5
  none_unavailable := rfl
  digest method block :=
    if method = .md5 then
      if block = [9] then [94, 115, 42, 24, 120, 190, 35, 66, 219, 254, 255, 95, 227, 202, 90, 163]
      else if block = [7, 5, 6, 1, 1] then
        [218, 208, 139, 39, 175, 86, 35, 152, 156, 225, 156, 222, 31, 237, 163, 90]
      else if block = [5, 6, 1, 1] then
        [138, 209, 107, 95, 33, 202, 229, 234, 224, 241, 96, 91, 84, 174, 230, 195]
      else List.replicate 16 0
    else List.replicate (chopHashSize method) 0
  length_digest method block := by
    split
    · next hmethod =>
      rw [hmethod]
      split
      · rfl
      · split
        · rfl
        · split
          · rfl
          · rfl
    · exact List.length_replicate

def sampleOptions : SimilarityOptions where
  windowSize := 2
  magicFprMask := 3
  magicFprMaskSet := true

/-- The last byte is common, as it comes after an anchor of both files. -/
theorem sampleFiles_similar : ∃ report : Similarities,
    Outcome.Settles (fun fuel => chopShowSimilarities sampleMd5 fuel sampleOptions (some 6) (some 5)
      [[7, 5, 6, 1, 1, 9]] [[5, 6], [1, 1, 9]]) (0, some report) ∧
    report.totalBytes = 6 ∧ report.totalBlocks = 2 ∧ report.commonBlocks = 1 ∧
    report.totalBytes ≤ report.commonBytes + 5 := by
  have hstat : ∀ one ∈ some 6, ∀ two ∈ some 5, min one two < 2 ^ 63 := by decide
  obtain ⟨report, hsettles, hbytes, hblocks, hcommon, hend⟩ :=
    @chopShowSimilarities_reports sampleMd5 sampleOptions (some 6) (some 5) [[7, 5, 6, 1, 1, 9]]
      [[5, 6], [1, 1, 9]] rfl (by decide) (.inl rfl) hstat (by decide) (by decide)
  have hisolated : ∀ p < 2, 2 < p + 2 → windowFingerprint (window 2 [5, 6, 1, 1, 9] p) &&& 3 ≠ 0 := by
    intro p hp hclose
    obtain rfl : p = 1 := by omega
    decide
  exact ⟨report, hsettles, hbytes, hblocks, (hcommon (by decide)).1,
    hend [] [7] [5, 6, 1, 1, 9] 2 rfl rfl (by decide) (by decide) (by decide) hisolated⟩

end Sample

end Libchop
