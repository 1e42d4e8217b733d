import Libchop.Tree.Encoding
import Libchop.Tree.DecodedBlock

/-!
# What the reader delivers

The state of a tree stream stands for the bytes it has not delivered yet: those left in the data
block, then those below the keys left in each key block of the chain, from the nearest ancestor
up to the root.  Each reader function consumes a prefix of these bytes, or one of its fetches
failed.
-/

namespace Libchop

variable {σ H : Type} {bf : BlockFetcher σ H} {holds : σ → Holds H} {serialize : H → Bytes}

/-- A fetch that succeeds returns the block held under the handle, no fetch loses a block, and
handles deserialize back whatever follows them. -/
structure FetchesBlocks (bf : BlockFetcher σ H) (serialize : H → Bytes) (holds : σ → Holds H) :
    Prop where
  fetches : ∀ role h b w c w', holds w role h b → bf.fetch role h w = (.ok c, w') → c = b
  keeps : ∀ role h w role' h' c, holds w role' h' c → holds (bf.fetch role h w).2 role' h' c
  deserialize_serialize : ∀ h rest,
    bf.deserialize (serialize h ++ rest) = .ok (h, (serialize h).length)

/-- With two handles to tell apart, a serialized handle takes at least one byte. -/
theorem FetchesBlocks.serialize_ne_nil [Nontrivial H] (hf : FetchesBlocks bf serialize holds)
    (h : H) : serialize h ≠ [] := by
  intro hnil
  obtain ⟨h', hne⟩ := exists_ne h
  have hself := hf.deserialize_serialize h (serialize h')
  have hother := hf.deserialize_serialize h' []
  rw [hnil, List.nil_append] at hself
  rw [List.append_nil, hself] at hother
  injection hother with heq
  injection heq with heq
  exact hne heq.symm

private theorem byte_toNat (n : Nat) : (UInt8.ofNat (n &&& 0xff)).toNat = n % 2 ^ 8 := by
  rw [show 0xff = 2 ^ 8 - 1 by rfl, Nat.and_two_pow_sub_one_eq_mod]
  simp

private theorem or_shift (a b k : Nat) (h : a < 2 ^ k) : a ||| b <<< k = a + b * 2 ^ k := by
  rw [Nat.or_comm, ← Nat.shiftLeft_add_eq_or_of_lt h, Nat.shiftLeft_eq, Nat.add_comm]

private theorem decode_count (count : Nat) (h : count < 2 ^ 32) :
    (UInt8.ofNat (count &&& 0xff)).toNat ||| (UInt8.ofNat (count >>> 8 &&& 0xff)).toNat <<< 8 |||
      (UInt8.ofNat (count >>> 16 &&& 0xff)).toNat <<< 16 |||
      (UInt8.ofNat (count >>> 24 &&& 0xff)).toNat <<< 24 = count := by
  simp only [byte_toNat, Nat.shiftRight_eq_div_pow]
  rw [or_shift _ _ 8 (by omega), or_shift _ _ 16 (by omega), or_shift _ _ 24 (by omega)]
  omega

private theorem decode_depth (depth : Nat) (h : depth < 2 ^ 16) :
    (UInt8.ofNat (depth &&& 0xff)).toNat ||| (UInt8.ofNat (depth >>> 8 &&& 0xff)).toNat <<< 8 =
      depth := by
  simp only [byte_toNat, Nat.shiftRight_eq_div_pow]
  rw [or_shift _ _ 8 (by omega)]
  omega

/-- Decoding undoes `chop_key_block_fill_header`. -/
theorem chopDecodedBlockDecodeHeader_keyBlockBytes {depth : Nat} {hs : List H}
    (hlen : hs.length < 2 ^ 32) (hdepth : depth < 2 ^ 16) {block : DecodedBlock}
    (hbuffer : block.buffer = keyBlockBytes serialize depth hs) :
    chopDecodedBlockDecodeHeader block = (.ok (), { block with
      keyCount := hs.length
      depth := depth
      offset := keyBlockHeaderSize
      currentChildNumber := 0 }) := by
  simp only [chopDecodedBlockDecodeHeader, hbuffer, keyBlockBytes, keyBlockHeader,
    List.cons_append, ne_eq, not_true, or_self, if_false, decode_count _ hlen,
    decode_depth _ hdepth]

/-- A fetched key block whose remaining keys lead to the given data. -/
def KeyBlockAt (holds : Holds H) (serialize : H → Bytes) (d : Nat) (block : DecodedBlock)
    (zs : Bytes) : Prop :=
  ∃ hs xss, block.isKeyBlock = true ∧ block.depth = d ∧
    block.currentChildNumber + hs.length = block.keyCount ∧
    block.buffer.drop block.offset = hs.flatMap serialize ∧
    List.Forall₂ (Encodes holds serialize d) hs xss ∧ zs = xss.flatten

/-- A fetched block with `levels` levels of key blocks, and what is left to read of it. -/
def BlockAt (holds : Holds H) (serialize : H → Bytes) : Nat → DecodedBlock → Bytes → Prop
  | 0, block, zs => block.isKeyBlock = false ∧ block.offset ≤ block.buffer.length ∧
      block.buffer.drop block.offset = zs
  | d + 1, block, zs => KeyBlockAt holds serialize d block zs

/-- What is left to read below a chain of key blocks, from the nearest ancestor up. -/
def Remaining (holds : Holds H) (serialize : H → Bytes) :
    Nat → List DecodedBlock → Bytes → Prop
  | _, [], xs => xs = []
  | d, block :: parents, xs => ∃ zs ys, KeyBlockAt holds serialize d block zs ∧
      block.hasParent = !parents.isEmpty ∧ Remaining holds serialize (d + 1) parents ys ∧
      xs = zs ++ ys

section Mono

variable {before after : Holds H} (hkeep : ∀ role h b, before role h b → after role h b)
include hkeep

theorem KeyBlockAt.mono {d : Nat} {block : DecodedBlock} {zs : Bytes}
    (h : KeyBlockAt before serialize d block zs) : KeyBlockAt after serialize d block zs := by
  obtain ⟨hs, xss, hkey, hdepth, hcount, hbuffer, hall, rfl⟩ := h
  exact ⟨hs, xss, hkey, hdepth, hcount, hbuffer, hall.imp fun _ _ => Encodes.mono hkeep, rfl⟩

theorem Remaining.mono {d : Nat} {parents : List DecodedBlock} {xs : Bytes}
    (h : Remaining before serialize d parents xs) : Remaining after serialize d parents xs := by
  induction parents generalizing d xs with
  | nil => exact h
  | cons block parents ih =>
    obtain ⟨zs, ys, hblock, hparent, hrest, rfl⟩ := h
    exact ⟨zs, ys, hblock.mono hkeep, hparent, ih hrest, rfl⟩

end Mono

/-- The fetch of a held block failed, and its error is the status. -/
def FetchFailed (bf : BlockFetcher σ H) (holds : σ → Holds H) (s s' : ReadState σ)
    (status : Status) : Prop :=
  ∃ e, s'.failures = s.failures ++ [e] ∧ status = .error e ∧
    ∃ role h b w left w', holds w role h b ∧ bf.fetch role h w = (.error (e, left), w')

theorem FetchFailed.of_failures_eq {s s₁ s' : ReadState σ} {status : Status}
    (h : FetchFailed bf holds s₁ s' status) (heq : s₁.failures = s.failures) :
    FetchFailed bf holds s s' status := by
  obtain ⟨e, hfailures, hrest⟩ := h
  exact ⟨e, heq ▸ hfailures, hrest⟩

/-- `chop_decoded_block_fetch` on a handle that leads to `xs`: the fetch fails, or the block
is decoded. -/
theorem chopDecodedBlockFetch_spec (hf : FetchesBlocks bf serialize holds) (levels : Nat) {h : H}
    {xs : Bytes} (parent : Option DecodedBlock) (block : DecodedBlock) {s s' : ReadState σ}
    {status : Status} {block' : DecodedBlock}
    (hkind : fetchedAsKeyBlock parent = decide (0 < levels))
    (henc : Encodes (holds s.world) serialize levels h xs)
    (heq : chopDecodedBlockFetch bf (if 0 < levels then .metadata else .data) h parent block s =
      (status, block', s')) :
    (∀ role h b, holds s.world role h b → holds s'.world role h b) ∧
      (FetchFailed bf holds s s' status ∨ status = .ok () ∧ s'.failures = s.failures ∧
        BlockAt (holds s'.world) serialize levels block' xs ∧ block'.hasParent = parent.isSome) := by
  have hkeep := fun role' h' c hold =>
    hf.keeps (if 0 < levels then .metadata else .data) h s.world role' h' c hold
  simp only [chopDecodedBlockFetch, hkind] at heq
  rcases hfetch : bf.fetch (if 0 < levels then .metadata else .data) h s.world with ⟨⟨e, left⟩ | c, w⟩
  · simp only [hfetch, Prod.mk.injEq] at heq hkeep
    obtain ⟨rfl, rfl, rfl⟩ := heq
    have hold : ∃ b, holds s.world (if 0 < levels then .metadata else .data) h b := by
      cases levels with
      | zero => exact ⟨xs, henc.1⟩
      | succ d =>
        obtain ⟨hs, _, _, _, _, hold, _⟩ := henc
        exact ⟨_, hold⟩
    obtain ⟨b, hold⟩ := hold
    exact ⟨hkeep, .inl ⟨_, rfl, rfl, _, _, b, _, _, _, hold, hfetch⟩⟩
  · simp only [hfetch] at heq hkeep
    cases levels with
    | zero =>
      obtain ⟨hold, _⟩ := henc
      have hc := hf.fetches _ _ _ _ _ _ hold hfetch
      subst hc
      simp only [lt_irrefl, decide_false, Bool.false_eq_true, if_false, Prod.mk.injEq] at heq
      obtain ⟨rfl, rfl, rfl⟩ := heq
      exact ⟨hkeep, .inr ⟨rfl, rfl, ⟨rfl, Nat.zero_le _, rfl⟩, rfl⟩⟩
    | succ d =>
      obtain ⟨hs, xss, hne, hlen, hdepth, hold, hall, rfl⟩ := henc
      rw [if_pos (Nat.succ_pos d)] at hfetch
      have hc := hf.fetches _ _ _ _ _ _ hold hfetch
      subst hc
      simp only [Nat.succ_pos, decide_true, if_true] at heq
      rw [chopDecodedBlockDecodeHeader_keyBlockBytes hlen hdepth rfl] at heq
      simp only [Prod.mk.injEq] at heq
      obtain ⟨rfl, rfl, rfl⟩ := heq
      refine ⟨hkeep, .inr ⟨rfl, rfl, ⟨hs, xss, rfl, rfl, by simp, ?_, ?_, rfl⟩, rfl⟩⟩
      · exact List.drop_left' (keyBlockHeader_length _ _)
      · exact hall.imp fun _ _ => Encodes.mono hkeep

/-- What `chop_decoded_block_next_child` does on a chain with `xs` left below it. -/
def NextChildSpec (bf : BlockFetcher σ H) (holds : σ → Holds H) (serialize : H → Bytes) (d : Nat)
    (block : DecodedBlock) (parents : List DecodedBlock) (child : Option DecodedBlock) (xs : Bytes)
    (s : ReadState σ) (r : NextChild σ) : Prop :=
  (xs = [] ∧ r = ⟨.error .streamEnd, block, parents, child, s⟩) ∨
    FetchFailed bf holds s r.state r.status ∨
    ∃ c zs ys, r.status = .ok () ∧ r.state.failures = s.failures ∧ r.child = some c ∧
      c.hasParent = true ∧ zs ≠ [] ∧ xs = zs ++ ys ∧
      BlockAt (holds r.state.world) serialize d c zs ∧
      Remaining (holds r.state.world) serialize d (r.block :: r.parents) ys ∧
      r.parents.length = parents.length

private theorem childrenAreKeyBlocks_eq {block : DecodedBlock} {d : Nat}
    (hkey : block.isKeyBlock = true) (hdepth : block.depth = d) :
    block.childrenAreKeyBlocks = decide (0 < d) := by
  simp [DecodedBlock.childrenAreKeyBlocks, hkey, hdepth]

private theorem fetchNextChild_spec (hf : FetchesBlocks bf serialize holds) {d : Nat}
    {block : DecodedBlock} {parents : List DecodedBlock} (child : Option DecodedBlock)
    {zs ys : Bytes} {s : ReadState σ} (hblock : KeyBlockAt (holds s.world) serialize d block zs)
    (hne : zs ≠ []) (hparent : block.hasParent = !parents.isEmpty)
    (hrest : Remaining (holds s.world) serialize (d + 1) parents ys) :
    NextChildSpec bf holds serialize d block parents child (zs ++ ys) s
      (fetchNextChild bf block parents child s) := by
  obtain ⟨hs, xss, hkey, hdepth, hcount, hbuffer, hall, rfl⟩ := hblock
  cases hall with
  | nil => exact (hne rfl).elim
  | @cons h xs hs xss hhead hall =>
    rw [List.flatMap_cons] at hbuffer
    let advanced := { block with offset := block.offset + (serialize h).length }
    have hkind : fetchedAsKeyBlock (some advanced) = decide (0 < d) :=
      childrenAreKeyBlocks_eq hkey hdepth
    have hrole : advanced.childrenAreKeyBlocks = decide (0 < d) := hkind
    simp only [advanced] at hrole
    simp only [fetchNextChild, hbuffer, hf.deserialize_serialize, hrole, decide_eq_true_eq]
    rcases hfetch : chopDecodedBlockFetch bf (if 0 < d then .metadata else .data) h (some advanced)
      (child.getD (chopDecodedBlockNew (bf.uninitialized s.world))) s with ⟨status, c, s'⟩
    obtain ⟨hkeep, hfailed | ⟨rfl, hfailures, hc, hp⟩⟩ :=
      chopDecodedBlockFetch_spec hf d (some advanced) _ hkind hhead hfetch
    · obtain ⟨e, hfailures, rfl, hfailed⟩ := hfailed
      exact .inr (.inl ⟨e, hfailures, rfl, hfailed⟩)
    · refine .inr (.inr ⟨c, xs, xss.flatten ++ ys, rfl, hfailures, rfl, hp, hhead.ne_nil, ?_, hc,
        ⟨xss.flatten, ys, ⟨hs, xss, hkey, hdepth, ?_, ?_, ?_, rfl⟩, hparent, hrest.mono hkeep, rfl⟩,
        rfl⟩)
      · rw [List.flatten_cons, List.append_assoc]
      · rw [List.length_cons] at hcount
        simp only
        omega
      · rw [← List.drop_drop, hbuffer, List.drop_left]
      · exact hall.imp fun _ _ => Encodes.mono hkeep

private theorem exhausted_iff [Nontrivial H] (hf : FetchesBlocks bf serialize holds)
    {before : Holds H} {d : Nat} {block : DecodedBlock} {zs : Bytes}
    (hblock : KeyBlockAt before serialize d block zs) :
    (block.currentChildNumber ≥ block.keyCount ∨ block.offset ≥ block.buffer.length) ↔ zs = [] := by
  obtain ⟨hs, xss, _, _, hcount, hbuffer, hall, rfl⟩ := hblock
  cases hall with
  | nil =>
    rw [List.length_nil] at hcount
    simp only [List.flatten_nil, iff_true]
    exact .inl (by omega)
  | @cons h xs hs xss hhead _ =>
    have hlen := congrArg List.length hbuffer
    have hpos := List.length_pos_iff.mpr (hf.serialize_ne_nil h)
    rw [List.length_drop, List.flatMap_cons, List.length_append] at hlen
    rw [List.length_cons] at hcount
    simp only [List.flatten_cons, List.append_eq_nil_iff, hhead.ne_nil, false_and, iff_false]
    omega

/-- `chop_decoded_block_next_child` returns, with the next block of the level below. -/
theorem chopDecodedBlockNextChild_spec [Nontrivial H] (hf : FetchesBlocks bf serialize holds)
    (fuel : Nat) {d : Nat} {block : DecodedBlock} {parents : List DecodedBlock}
    (child : Option DecodedBlock) {xs : Bytes} {s : ReadState σ}
    (hrem : Remaining (holds s.world) serialize d (block :: parents) xs)
    (hfuel : parents.length < fuel) :
    ∃ r, chopDecodedBlockNextChild bf fuel block parents child s = .done r ∧
      NextChildSpec bf holds serialize d block parents child xs s r := by
  induction parents generalizing fuel d block child xs s with
  | nil =>
    cases fuel with
    | zero => exact (Nat.not_lt_zero _ hfuel).elim
    | succ fuel =>
      obtain ⟨zs, ys, hblock, hparent, hrest, rfl⟩ := hrem
      have hys : ys = [] := hrest
      subst hys
      rw [chopDecodedBlockNextChild]
      by_cases hzs : zs = []
      · rw [if_pos ((exhausted_iff hf hblock).mpr hzs), hparent]
        exact ⟨_, rfl, .inl ⟨by simp [hzs], rfl⟩⟩
      · rw [if_neg (mt (exhausted_iff hf hblock).mp hzs)]
        exact ⟨_, rfl, fetchNextChild_spec hf child hblock hzs hparent hrest⟩
  | cons parent grandparents ih =>
    cases fuel with
    | zero => exact (Nat.not_lt_zero _ hfuel).elim
    | succ fuel =>
      obtain ⟨zs, ys, hblock, hparent, hrest, rfl⟩ := hrem
      rw [List.length_cons] at hfuel
      rw [chopDecodedBlockNextChild]
      by_cases hzs : zs = []
      · subst hzs
        rw [if_pos ((exhausted_iff hf hblock).mpr rfl), hparent]
        obtain ⟨r, heq, hspec⟩ := ih fuel (some block) hrest (by omega)
        simp only [List.isEmpty_cons, Bool.not_false, Bool.not_true, Bool.false_eq_true, if_false,
          heq, Outcome.done_bind, List.nil_append]
        obtain ⟨rfl, rfl⟩ | ⟨e, hfailures, hstatus, hfetch⟩ |
          ⟨c, us, vs, hstatus, hfailures, hchild, hcparent, hus, rfl, hc, hrem, hlen⟩ := hspec
        · exact ⟨_, rfl, .inl ⟨rfl, rfl⟩⟩
        · rw [hstatus]
          exact ⟨_, rfl, .inr (.inl ⟨e, hfailures, rfl, hfetch⟩)⟩
        · rw [hstatus, hchild, Option.getD_some]
          cases fuel with
          | zero => omega
          | succ fuel =>
            have hck : KeyBlockAt (holds r.state.world) serialize d c us := hc
            have hcp : c.hasParent = !(r.block :: r.parents).isEmpty := hcparent
            have hnext := fetchNextChild_spec hf child hck hus hcp hrem
            rw [chopDecodedBlockNextChild, if_neg (mt (exhausted_iff hf hck).mp hus)]
            refine ⟨_, rfl, ?_⟩
            obtain ⟨hnil, _⟩ | hfailed |
              ⟨c', us', vs', hs', hf', hc', hp', hne', hxs', hb', hr', hl'⟩ := hnext
            · simp [hus] at hnil
            · exact .inr (.inl (hfailed.of_failures_eq hfailures))
            · refine .inr (.inr ⟨c', us', vs', hs', hf'.trans hfailures, hc', hp', hne', hxs', hb',
                hr', ?_⟩)
              rw [hl', List.length_cons, List.length_cons, hlen]
      · rw [if_neg (mt (exhausted_iff hf hblock).mp hzs)]
        exact ⟨_, rfl, fetchNextChild_spec hf child hblock hzs hparent hrest⟩

/-- No failure to fetch a held block has the code of a normal end of stream. -/
def NoEndFailure (bf : BlockFetcher σ H) (holds : σ → Holds H) : Prop :=
  ∀ role h b w e left w', holds w role h b → bf.fetch role h w = (.error (e, left), w') →
    e ≠ .streamEnd

/-- The data block of a chain with its ancestors, and what is left to read. -/
def LeafAt (holds : Holds H) (serialize : H → Bytes) (leaf : DecodedBlock)
    (parents : List DecodedBlock) (xs : Bytes) : Prop :=
  parents ≠ [] ∧ leaf.isKeyBlock = false ∧ leaf.hasParent = true ∧
    leaf.offset ≤ leaf.buffer.length ∧
    ∃ ys, Remaining holds serialize 0 parents ys ∧ xs = leaf.buffer.drop leaf.offset ++ ys

/-- What one read request of `size` bytes does with `xs` left in the stream; `levels` is the
number of key blocks of the chain it leaves. -/
def ReadSpec (bf : BlockFetcher σ H) (holds : σ → Holds H) (serialize : H → Bytes) (levels size : Nat)
    (out xs : Bytes) (s : ReadState σ) (r : ReadResult σ) : Prop :=
  FetchFailed bf holds s r.state r.status ∨
    (r.state.failures = s.failures ∧
      r.status = (if xs = [] ∧ out = [] ∧ 0 < size then .error .streamEnd else .ok ()) ∧
      r.bytes = out ++ xs.take (size - out.length) ∧
      ∃ leaf parents, r.chain = parents.reverse ++ [leaf] ∧ parents.length = levels ∧
        LeafAt (holds r.state.world) serialize leaf parents (xs.drop (size - out.length)))

private theorem copy_fst (block : DecodedBlock) (n : Nat) :
    (block.copy n).1 = (block.buffer.drop block.offset).take n := rfl

private theorem leafAt_copy {before : Holds H} {leaf : DecodedBlock}
    {parents : List DecodedBlock} {xs : Bytes} (h : LeafAt before serialize leaf parents xs)
    (n : Nat) : LeafAt before serialize (leaf.copy n).2 parents
      (xs.drop (leaf.copy n).1.length) ∧ xs.take (leaf.copy n).1.length = (leaf.copy n).1 := by
  obtain ⟨hne, hkey, hparent, hoffset, ys, hrem, rfl⟩ := h
  have hle : (leaf.copy n).1.length ≤ (leaf.buffer.drop leaf.offset).length := by
    simp only [copy_fst, List.length_take]
    omega
  constructor
  · refine ⟨hne, hkey, hparent, ?_, ys, hrem, ?_⟩
    · rw [List.length_drop] at hle
      simp only [DecodedBlock.copy] at hle ⊢
      omega
    · rw [List.drop_append_of_le_length hle, List.drop_drop]
      rfl
  · rw [List.take_append_of_le_length hle, copy_fst, List.length_take, List.take_eq_take_iff]
    omega

private theorem copy_length_pos {block : DecodedBlock} {n : Nat} (hn : 0 < n)
    (hmore : block.offset < block.buffer.length) : 0 < (block.copy n).1.length := by
  simp only [copy_fst, List.length_take, List.length_drop]
  omega

private theorem copy_length_le (block : DecodedBlock) (n : Nat) : (block.copy n).1.length ≤ n := by
  simp only [copy_fst, List.length_take]
  omega

private theorem readSpec_step {levels size k : Nat} {out xs : Bytes} {s s₁ : ReadState σ}
    {r : ReadResult σ} (hk : 0 < k) (hle : k ≤ size - out.length) (hlen : (xs.take k).length = k)
    (hfailures : s₁.failures = s.failures)
    (h : ReadSpec bf holds serialize levels size (out ++ xs.take k) (xs.drop k) s₁ r) :
    ReadSpec bf holds serialize levels size out xs s r := by
  have hchunk : xs.take k ≠ [] := by
    rw [← List.length_pos_iff, hlen]
    exact hk
  have hxs : xs ≠ [] := by
    intro hnil
    simp [hnil] at hchunk
  obtain hfailed | ⟨hfail, hstatus, hbytes, leaf, parents, hchain, hlevels, hleaf⟩ := h
  · exact .inl (hfailed.of_failures_eq hfailures)
  · have hsize : size - out.length = k + (size - (out ++ xs.take k).length) := by
      rw [List.length_append, hlen]
      omega
    refine .inr ⟨hfail.trans hfailures, ?_, ?_, leaf, parents, hchain, hlevels, ?_⟩
    · rw [hstatus, if_neg (by simp [hchunk]), if_neg (by simp [hxs])]
    · rw [hbytes, hsize, List.take_add, List.append_assoc]
    · rw [hsize, ← List.drop_drop]
      exact hleaf

private theorem chopDecodedBlockRefill_spec [Nontrivial H] (hf : FetchesBlocks bf serialize holds)
    (hend : NoEndFailure bf holds) {size : Nat} (fuel : Nat) {leaf : DecodedBlock}
    {parents : List DecodedBlock} {out xs : Bytes} {s : ReadState σ} (hsize : out.length < size)
    (hleaf : LeafAt (holds s.world) serialize leaf parents xs) (hfuel : parents.length ≤ fuel) :
    ∃ step, chopDecodedBlockRefill bf size [] fuel leaf parents out s = .done step ∧
      ((∃ r, step = .error r ∧ ReadSpec bf holds serialize parents.length size out xs s r) ∨
        ∃ leaf' parents' s', step = .ok (leaf', parents', s') ∧ s'.failures = s.failures ∧
          parents'.length = parents.length ∧ leaf'.offset < leaf'.buffer.length ∧
          LeafAt (holds s'.world) serialize leaf' parents' xs) := by
  -- The data block is replaced by the next one when it was read entirely; then it has at least one byte left,
  -- or the request ends here.
  unfold chopDecodedBlockRefill
  by_cases hdone : leaf.offset ≥ leaf.buffer.length
  · rw [if_pos hdone]
    obtain ⟨hne, hkey, hparent, hoffset, ys, hrem, rfl⟩ := hleaf
    rw [List.drop_eq_nil_of_le hdone, List.nil_append]
    cases parents with
    | nil => exact (hne rfl).elim
    | cons parent grandparents =>
      obtain ⟨r, heq, hspec⟩ := chopDecodedBlockNextChild_spec hf fuel (some leaf) hrem hfuel
      simp only [heq, Outcome.done_bind]
      obtain ⟨rfl, rfl⟩ | ⟨e, hfailures, hstatus, hfetch⟩ |
        ⟨c, us, vs, hstatus, hfailures, hchild, hcparent, hus, rfl, hc, hrem', hlen⟩ := hspec
      · have hat : LeafAt (holds s.world) serialize leaf (parent :: grandparents) [] :=
          ⟨hne, hkey, hparent, hoffset, [], hrem, by simp [hdone]⟩
        simp only [Option.getD_some, true_and]
        by_cases hout : out = []
        · subst hout
          rw [if_neg (by simp)]
          refine ⟨_, rfl, .inl ⟨_, rfl, .inr ⟨rfl, ?_, by simp, _, _, rfl, rfl, ?_⟩⟩⟩
          · rw [if_pos ⟨rfl, rfl, hsize⟩]
          · rw [List.drop_nil]
            exact hat
        · rw [if_pos (by simpa using hout), Outcome.assert_of hoffset, Outcome.done_bind]
          obtain ⟨hleaf', htake⟩ := leafAt_copy hat (size - out.length)
          rw [List.take_nil] at htake
          rw [List.drop_nil] at hleaf'
          refine ⟨_, rfl, .inl ⟨_, rfl, .inr ⟨rfl, ?_, ?_, _, _, rfl, rfl, ?_⟩⟩⟩
          · rw [if_neg (by simp [hout])]
          · rw [← htake, List.take_nil]
          · rw [List.drop_nil]
            exact hleaf'
      · have hnotEnd : e ≠ .streamEnd := by
          obtain ⟨role, h, b, w, left, w', hold, hfetch⟩ := hfetch
          exact hend role h b w e left w' hold hfetch
        rw [hstatus]
        simp only [hnotEnd, false_and, if_false]
        exact ⟨_, rfl, .inl ⟨_, rfl, .inl ⟨e, hfailures, rfl, hfetch⟩⟩⟩
      · obtain ⟨hckey, hcoffset, rfl⟩ := hc
        rw [hstatus, hchild, Option.getD_some]
        have hmore : c.offset < c.buffer.length := by
          by_contra hge
          exact hus (List.drop_eq_nil_of_le (Nat.le_of_not_lt hge))
        refine ⟨_, rfl, .inr ⟨c, r.block :: r.parents, r.state, rfl, hfailures, ?_, hmore,
          by simp, hckey, hcparent, hcoffset, vs, hrem', rfl⟩⟩
        rw [List.length_cons, List.length_cons, hlen]
  · rw [if_neg hdone]
    exact ⟨_, rfl, .inr ⟨leaf, parents, s, rfl, rfl, rfl, Nat.lt_of_not_le hdone, hleaf⟩⟩

/-- The reading loop returns: every iteration but the last delivers at least one byte. -/
theorem chopDecodedBlockReadData_spec [Nontrivial H] (hf : FetchesBlocks bf serialize holds)
    (hend : NoEndFailure bf holds) (size fuel : Nat) {leaf : DecodedBlock} {parents : List DecodedBlock}
    (out : Bytes) {xs : Bytes} {s : ReadState σ}
    (hleaf : LeafAt (holds s.world) serialize leaf parents xs)
    (hfuel : xs.length + parents.length < fuel) :
    ∃ r, chopDecodedBlockReadData bf size [] fuel leaf parents out s = .done r ∧
      ReadSpec bf holds serialize parents.length size out xs s r := by
  induction fuel generalizing leaf parents out xs s with
  | zero => exact (Nat.not_lt_zero _ hfuel).elim
  | succ fuel ih =>
    rw [chopDecodedBlockReadData]
    by_cases hsize : out.length < size
    · rw [if_pos hsize]
      obtain ⟨step, heq, ⟨r, rfl, hspec⟩ |
        ⟨leaf', parents', s', rfl, hfailures, hlen, hmore, hleaf'⟩⟩ :=
        chopDecodedBlockRefill_spec hf hend fuel hsize hleaf (by omega)
      · rw [heq]
        exact ⟨r, rfl, hspec⟩
      · obtain ⟨hcopied, htake⟩ := leafAt_copy hleaf' (size - out.length)
        have hpos := copy_length_pos (n := size - out.length) (by omega) hmore
        have hshort := congrArg List.length htake
        rw [List.length_take] at hshort
        obtain ⟨r, hread, hspec⟩ := ih (out ++ (leaf'.copy (size - out.length)).1) hcopied
          (by rw [List.length_drop]; omega)
        rw [heq]
        refine ⟨r, hread, ?_⟩
        apply readSpec_step hpos (copy_length_le _ _) (by rw [htake]) hfailures
        rw [htake, ← hlen]
        exact hspec
    · rw [if_neg hsize]
      refine ⟨_, rfl, .inr ⟨rfl, ?_, ?_, leaf, parents, rfl, rfl, ?_⟩⟩
      · rw [if_neg]
        rintro ⟨_, rfl, hpos⟩
        exact hsize hpos
      · simp [Nat.sub_eq_zero_of_le (Nat.le_of_not_lt hsize)]
      · rw [Nat.sub_eq_zero_of_le (Nat.le_of_not_lt hsize)]
        exact hleaf

private theorem chopDecodedBlockRead_data (size fuel : Nat) {leaf : DecodedBlock}
    (parents : List DecodedBlock) (s : ReadState σ) (hkey : leaf.isKeyBlock = false)
    (hparent : leaf.hasParent = true) :
    chopDecodedBlockRead bf size (fuel + 1) leaf parents [] s =
      chopDecodedBlockReadData bf size [] fuel leaf parents [] s := by
  simp [chopDecodedBlockRead, hkey, hparent]

private theorem chopDecodedBlockRead_descend [Nontrivial H]
    (hf : FetchesBlocks bf serialize holds) (hend : NoEndFailure bf holds) (size fuel levels : Nat)
    {block : DecodedBlock} (parents : List DecodedBlock) {zs : Bytes} (ys : Bytes)
    {s : ReadState σ} (hblock : BlockAt (holds s.world) serialize levels block zs)
    (hparent : block.hasParent = !parents.isEmpty)
    (hrem : Remaining (holds s.world) serialize levels parents ys)
    (hroot : levels = 0 → parents ≠ []) (hne : zs ++ ys ≠ [])
    (hfuel : (zs ++ ys).length + parents.length + 2 * levels + 1 < fuel) :
    ∃ r, chopDecodedBlockRead bf size fuel block parents [] s = .done r ∧
      ReadSpec bf holds serialize (parents.length + levels) size [] (zs ++ ys) s r := by
  induction levels generalizing fuel block parents zs ys s with
  | zero =>
    cases fuel with
    | zero => exact (Nat.not_lt_zero _ hfuel).elim
    | succ fuel =>
      obtain ⟨hkey, hoffset, rfl⟩ := hblock
      have hp : block.hasParent = true := by
        rw [hparent]
        simpa using hroot rfl
      rw [chopDecodedBlockRead_data size fuel parents s hkey hp]
      exact chopDecodedBlockReadData_spec hf hend size fuel []
        ⟨hroot rfl, hkey, hp, hoffset, ys, hrem, rfl⟩ (by omega)
  | succ d ih =>
    cases fuel with
    | zero => exact (Nat.not_lt_zero _ hfuel).elim
    | succ fuel =>
      have hkey : block.isKeyBlock = true := by
        obtain ⟨_, _, hkey, _⟩ := hblock
        exact hkey
      have hchain : Remaining (holds s.world) serialize d (block :: parents) (zs ++ ys) :=
        ⟨zs, ys, hblock, hparent, hrem, rfl⟩
      obtain ⟨r, heq, hspec⟩ := chopDecodedBlockNextChild_spec hf fuel none hchain (by omega)
      simp only [chopDecodedBlockRead, hkey, if_true, heq, Outcome.done_bind]
      obtain ⟨hnil, _⟩ | ⟨e, hfailures, hstatus, hfetch⟩ |
        ⟨c, us, vs, hstatus, hfailures, hchild, hcparent, hus, hxs, hc, hrem', hlen⟩ := hspec
      · exact (hne hnil).elim
      · rw [hstatus]
        exact ⟨_, rfl, .inl ⟨e, hfailures, rfl, hfetch⟩⟩
      · rw [hstatus, hchild]
        rw [hxs] at hne hfuel ⊢
        obtain ⟨r', heq', hspec'⟩ := ih fuel (r.block :: r.parents) vs hc
          (by simpa using hcparent) hrem' (by simp) hne (by rw [List.length_cons, hlen]; omega)
        refine ⟨r', heq', ?_⟩
        rw [List.length_cons, hlen, Nat.add_right_comm, Nat.add_assoc] at hspec'
        obtain hfailed | ⟨hfail, hrest⟩ := hspec'
        · exact .inl (hfailed.of_failures_eq hfailures)
        · exact .inr ⟨hfail.trans hfailures, hrest⟩

private theorem chopDecodedBlockRead_follow (size fuel : Nat) (keys : List DecodedBlock)
    (leaf : DecodedBlock) (parents : List DecodedBlock) (s : ReadState σ)
    (hkeys : ∀ b ∈ keys, b.isKeyBlock = true) {top : DecodedBlock} {below : List DecodedBlock}
    (hchain : keys ++ [leaf] = top :: below) :
    chopDecodedBlockRead bf size (fuel + keys.length) top parents below s =
      chopDecodedBlockRead bf size fuel leaf (keys.reverse ++ parents) [] s := by
  induction keys generalizing parents top below with
  | nil =>
    injection hchain with htop hbelow
    subst htop hbelow
    rfl
  | cons key keys ih =>
    rw [List.cons_append, List.cons.injEq] at hchain
    obtain ⟨rfl, rfl⟩ := hchain
    obtain ⟨child, rest, hcons⟩ := List.exists_cons_of_ne_nil (l := keys ++ [leaf]) (by simp)
    have hkey : key.isKeyBlock = true := hkeys key List.mem_cons_self
    rw [hcons, List.length_cons, ← Nat.add_assoc, chopDecodedBlockRead, if_pos hkey,
      ih (key :: parents) (fun b hb => hkeys b (List.mem_cons_of_mem key hb)) hcons,
      List.reverse_cons, List.append_assoc, List.singleton_append]

private theorem Remaining.isKeyBlock {before : Holds H} {d : Nat} {parents : List DecodedBlock}
    {xs : Bytes} (h : Remaining before serialize d parents xs) :
    ∀ b ∈ parents, b.isKeyBlock = true := by
  induction parents generalizing d xs with
  | nil => simp
  | cons block parents ih =>
    obtain ⟨zs, ys, ⟨_, _, hkey, _⟩, _, hrest, _⟩ := h
    intro b hb
    cases hb with
    | head => exact hkey
    | tail _ hb => exact ih hrest b hb

/-- The bytes a stream has not delivered yet. -/
def StreamAt (holds : Holds H) (serialize : H → Bytes) (levels : Nat) (tree : DecodedBlockTree H)
    (xs : Bytes) : Prop :=
  (tree.chain = [] ∧ Encodes holds serialize (levels + 1) tree.index xs) ∨
    ∃ leaf parents, tree.chain = parents.reverse ++ [leaf] ∧ parents.length = levels + 1 ∧
      LeafAt holds serialize leaf parents xs

/-- One read of a stream: it fills the request as far as the stream goes, or one of its fetches
failed. -/
theorem treeStreamRead_spec [Nontrivial H] (hf : FetchesBlocks bf serialize holds)
    (hend : NoEndFailure bf holds) {levels : Nat} (fuel size : Nat) {tree : DecodedBlockTree H}
    {xs : Bytes} {s : ReadState σ} (hat : StreamAt (holds s.world) serialize levels tree xs)
    (hfuel : xs.length + 2 * levels + 3 < fuel) :
    ∃ status bytes tree' s', treeStreamRead bf fuel tree size s = .done (status, bytes, tree', s') ∧
      (FetchFailed bf holds s s' status ∨ (s'.failures = s.failures ∧
        status = (if xs = [] ∧ 0 < size then .error .streamEnd else .ok ()) ∧
        bytes = xs.take size ∧ StreamAt (holds s'.world) serialize levels tree' (xs.drop size))) := by
  have hfinish : ∀ (r : ReadResult σ) (s₁ : ReadState σ), s₁.failures = s.failures →
      ReadSpec bf holds serialize (levels + 1) size [] xs s₁ r →
      (FetchFailed bf holds s r.state r.status ∨ (r.state.failures = s.failures ∧
        r.status = (if xs = [] ∧ 0 < size then .error .streamEnd else .ok ()) ∧
        r.bytes = xs.take size ∧ StreamAt (holds r.state.world) serialize levels
          ⟨tree.index, r.chain, tree.currentOffset + r.bytes.length⟩ (xs.drop size))) := by
    rintro r s₁ hfailures (hfailed | ⟨hfail, hstatus, hbytes, leaf, parents, hchain, hlen, hleaf⟩)
    · exact .inl (hfailed.of_failures_eq hfailures)
    · refine .inr ⟨hfail.trans hfailures, ?_, hbytes, .inr ⟨leaf, parents, hchain, hlen, hleaf⟩⟩
      simpa using hstatus
  unfold treeStreamRead
  obtain ⟨hchain, henc⟩ | ⟨leaf, parents, hchain, hlen, hleaf⟩ := hat
  · rw [hchain]
    rcases hfetch : chopDecodedBlockFetch bf .metadata tree.index none
      (chopDecodedBlockNew (bf.uninitialized s.world)) s with ⟨status, top, s₁⟩
    obtain ⟨_, ⟨e, hfailures, rfl, hfailed⟩ | ⟨rfl, hfailures, htop, hparent⟩⟩ :=
      chopDecodedBlockFetch_spec hf (levels + 1) none _ (by simp [fetchedAsKeyBlock]) henc
        (by simpa using hfetch)
    · simp only [hfetch]
      exact ⟨_, _, _, _, rfl, .inl ⟨e, hfailures, rfl, hfailed⟩⟩
    · have hne := henc.ne_nil
      obtain ⟨r, heq, hspec⟩ := chopDecodedBlockRead_descend hf hend size fuel (levels + 1)
        [] [] htop hparent rfl (by simp) (by simpa using hne)
        (by simp; omega)
      simp only [hfetch, heq, Outcome.done_bind]
      rw [List.append_nil, List.length_nil, Nat.zero_add] at hspec
      exact ⟨_, _, _, _, rfl, hfinish r s₁ hfailures hspec⟩
  · obtain ⟨top, below, hcons⟩ := List.exists_cons_of_ne_nil (l := parents.reverse ++ [leaf]) (by simp)
    have hkeys : ∀ b ∈ parents.reverse, b.isKeyBlock = true := by
      obtain ⟨_, _, _, _, ys, hrem, _⟩ := hleaf
      intro b hb
      exact hrem.isKeyBlock b (List.mem_reverse.mp hb)
    obtain ⟨fuel, rfl⟩ : ∃ k, fuel = k + 1 + parents.reverse.length :=
      ⟨fuel - 1 - parents.length, by rw [List.length_reverse]; omega⟩
    rw [List.length_reverse] at hfuel
    obtain ⟨r, heq, hspec⟩ := chopDecodedBlockReadData_spec hf hend size fuel [] hleaf (by omega)
    rw [hchain, hcons]
    simp only [chopDecodedBlockRead_follow size (fuel + 1) parents.reverse leaf [] s hkeys hcons,
      List.reverse_reverse, List.append_nil,
      chopDecodedBlockRead_data size fuel parents s hleaf.2.1 hleaf.2.2.1, heq, Outcome.done_bind]
    rw [hlen] at hspec
    exact ⟨_, _, _, _, rfl, hfinish r s rfl hspec⟩

end Libchop
