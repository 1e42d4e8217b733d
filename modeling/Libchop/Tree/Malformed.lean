import Libchop.Framework.Unfolding
import Libchop.Tree.Resume

/-!
# Reading malformed trees

Nothing is assumed of the contents of the stores here: key blocks may have any key count, depth
and keys.  The walk up the chain always ends, for the keys left in the chain are used up.  The
walk down goes from each key block to the next one for as long as there is one; a key is replaced
by the keys of its block, so it ends when no endless path of key blocks begins at a key left.
-/

namespace Libchop

variable {σ H : Type} {bf : BlockFetcher σ H}

section Fuel

open Outcome

/-- More fuel does not change the result of `chop_decoded_block_next_child`. -/
theorem chopDecodedBlockNextChild_approx {fuel fuel' : Nat} (hle : fuel ≤ fuel')
    (block : DecodedBlock) (parents : List DecodedBlock) (child : Option DecodedBlock)
    (s : ReadState σ) :
    Approx (chopDecodedBlockNextChild bf fuel block parents child s)
      (chopDecodedBlockNextChild bf fuel' block parents child s) := by
  induction fuel generalizing fuel' block parents child s with
  | zero => exact .outOfFuel _
  | succ fuel ih =>
    cases fuel' with
    | zero => exact (Nat.not_succ_le_zero _ hle).elim
    | succ fuel' =>
      have hle' : fuel ≤ fuel' := Nat.le_of_succ_le_succ hle
      cases parents with
      | nil =>
        simp only [chopDecodedBlockNextChild]
        exact .refl _
      | cons parent grandparents =>
        simp only [chopDecodedBlockNextChild]
        split
        · split
          · exact .refl _
          · apply Approx.bind (ih hle' parent grandparents (some block) s)
            intro r
            cases r.status with
            | error e => exact .refl _
            | ok => exact ih hle' _ _ _ _
        · exact .refl _

private theorem chopDecodedBlockRefill_approx {fuel fuel' : Nat} (hle : fuel ≤ fuel') (size : Nat)
    (below : List DecodedBlock) (block : DecodedBlock) (parents : List DecodedBlock) (out : Bytes)
    (s : ReadState σ) :
    Approx (chopDecodedBlockRefill bf size below fuel block parents out s)
      (chopDecodedBlockRefill bf size below fuel' block parents out s) := by
  unfold chopDecodedBlockRefill
  split
  · cases parents with
    | nil => exact .refl _
    | cons parent grandparents =>
      apply Approx.bind (chopDecodedBlockNextChild_approx hle parent grandparents (some block) s)
      intro r
      exact .refl _
  · exact .refl _

private theorem chopDecodedBlockReadData_approx {fuel fuel' : Nat} (hle : fuel ≤ fuel') (size : Nat)
    (below : List DecodedBlock) (block : DecodedBlock) (parents : List DecodedBlock) (out : Bytes)
    (s : ReadState σ) :
    Approx (chopDecodedBlockReadData bf size below fuel block parents out s)
      (chopDecodedBlockReadData bf size below fuel' block parents out s) := by
  induction fuel generalizing fuel' block parents out s with
  | zero => exact .outOfFuel _
  | succ fuel ih =>
    cases fuel' with
    | zero => exact (Nat.not_succ_le_zero _ hle).elim
    | succ fuel' =>
      have hle' : fuel ≤ fuel' := Nat.le_of_succ_le_succ hle
      rw [chopDecodedBlockReadData, chopDecodedBlockReadData]
      split
      · apply Approx.bind (chopDecodedBlockRefill_approx hle' size below block parents out s)
        intro step
        cases step with
        | error r => exact .refl _
        | ok next => exact ih hle' _ _ _ _
      · exact .refl _

private theorem chopDecodedBlockRead_approx {fuel fuel' : Nat} (hle : fuel ≤ fuel') (size : Nat)
    (block : DecodedBlock) (parents below : List DecodedBlock) (s : ReadState σ) :
    Approx (chopDecodedBlockRead bf size fuel block parents below s)
      (chopDecodedBlockRead bf size fuel' block parents below s) := by
  induction fuel generalizing fuel' block parents below s with
  | zero => exact .outOfFuel _
  | succ fuel ih =>
    cases fuel' with
    | zero => exact (Nat.not_succ_le_zero _ hle).elim
    | succ fuel' =>
      have hle' : fuel ≤ fuel' := Nat.le_of_succ_le_succ hle
      cases below with
      | nil =>
        simp only [chopDecodedBlockRead]
        split
        · apply Approx.bind (chopDecodedBlockNextChild_approx hle' block parents none s)
          intro r
          cases r.status with
          | error e => exact .refl _
          | ok =>
            cases r.child with
            | none => exact .refl _
            | some child => exact ih hle' _ _ _ _
        · apply Approx.bind (.refl _)
          intro _
          exact chopDecodedBlockReadData_approx hle' size [] block parents [] s
      | cons child below =>
        simp only [chopDecodedBlockRead]
        split
        · exact ih hle' _ _ _ _
        · apply Approx.bind (.refl _)
          intro _
          exact chopDecodedBlockReadData_approx hle' size _ block parents [] s

theorem treeStreamRead_approx {fuel fuel' : Nat} (hle : fuel ≤ fuel') (tree : DecodedBlockTree H)
    (size : Nat) (s : ReadState σ) :
    Approx (treeStreamRead bf fuel tree size s) (treeStreamRead bf fuel' tree size s) := by
  unfold treeStreamRead
  cases tree.chain with
  | nil =>
    dsimp only
    rcases chopDecodedBlockFetch bf .metadata tree.index none
      (chopDecodedBlockNew (bf.uninitialized s.world)) s with ⟨_ | _, top, s₁⟩
    · exact .refl _
    · apply Approx.bind (chopDecodedBlockRead_approx hle size top [] [] s₁)
      intro r
      exact .refl _
  | cons top below =>
    apply Approx.bind (chopDecodedBlockRead_approx hle size top [] below s)
    intro r
    exact .refl _

theorem chopDecodedBlockNextChild_agree {fuel fuel' : Nat} {block : DecodedBlock}
    {parents : List DecodedBlock} {child : Option DecodedBlock} {s : ReadState σ}
    {r r' : NextChild σ} (h : chopDecodedBlockNextChild bf fuel block parents child s = .done r)
    (h' : chopDecodedBlockNextChild bf fuel' block parents child s = .done r') : r = r' := by
  have hleft := (chopDecodedBlockNextChild_approx (le_max_left fuel fuel') block parents child s).done h
  have hright :=
    (chopDecodedBlockNextChild_approx (le_max_right fuel fuel') block parents child s).done h'
  rw [hleft] at hright
  injection hright

end Fuel

/-- The key count and the depth a block has if it is decoded as a key block. -/
def keyBlockInfo (b : Bytes) : Option (Nat × Nat) :=
  match chopDecodedBlockDecodeHeader ⟨b, 0, true, 0, 0, 0, false⟩ with
  | (.ok (), block) => some (block.keyCount, block.depth)
  | (.error _, _) => none

/-- At most `count` handles, up to the first that cannot be deserialized. -/
def keysFrom (deserialize : Bytes → Except ChopError (H × Nat)) : Nat → Bytes → List H
  | 0, _ => []
  | count + 1, bytes =>
    if bytes = [] then []
    else
      match deserialize bytes with
      | .ok (h, size) => h :: keysFrom deserialize count (bytes.drop size)
      | .error _ => []

/-- The first handle is a key in the key block of the second, whose depth is positive. -/
def KeyOf (bf : BlockFetcher σ H) (h' h : H) : Prop :=
  ∃ w b w' count depth, bf.fetch .metadata h w = (.ok b, w') ∧
    keyBlockInfo b = some (count, depth) ∧ 0 < depth ∧
    h' ∈ keysFrom bf.deserialize count (b.drop keyBlockHeaderSize)

/-- The handles of key blocks left to fetch in a block. -/
def blockKeys (bf : BlockFetcher σ H) (block : DecodedBlock) : List H :=
  if block.childrenAreKeyBlocks then
    keysFrom bf.deserialize (block.keyCount - block.currentChildNumber)
      (block.buffer.drop block.offset)
  else []

/-- The handles of key blocks left to fetch in a block and its ancestors, in their order. -/
def chainKeys (bf : BlockFetcher σ H) (blocks : List DecodedBlock) : List H :=
  blocks.flatMap (blockKeys bf)

/-- The handles of key blocks that a stream has yet to fetch, as far as it knows them. -/
def pendingKeys (bf : BlockFetcher σ H) (tree : DecodedBlockTree H) : List H :=
  if tree.chain = [] then [tree.index] else chainKeys bf tree.chain.reverse

/-- No failed fetch and no malformed key is reported with the code of a normal end of stream. -/
structure NoEndErrors (bf : BlockFetcher σ H) : Prop where
  fetch : ∀ {role h w e left w'}, bf.fetch role h w = (.error (e, left), w') → e ≠ .streamEnd
  deserialize : ∀ {b e}, bf.deserialize b = .error e → e ≠ .streamEnd

private theorem byte_lt (b : UInt8) : b.toNat < 2 ^ 8 := UInt8.toNat_lt b

private theorem or_shift_lt {a b k m : Nat} (ha : a < 2 ^ m) (hb : b < 2 ^ 8) (hk : k + 8 ≤ m) :
    a ||| b <<< k < 2 ^ m := by
  apply Nat.or_lt_two_pow ha
  rw [Nat.shiftLeft_eq]
  calc b * 2 ^ k < 2 ^ 8 * 2 ^ k := Nat.mul_lt_mul_of_pos_right hb (Nat.two_pow_pos k)
    _ = 2 ^ (k + 8) := by rw [← Nat.pow_add, Nat.add_comm]
    _ ≤ 2 ^ m := Nat.pow_le_pow_right (by decide) hk

private theorem chopDecodedBlockDecodeHeader_cases (block : DecodedBlock) :
    (∃ block', chopDecodedBlockDecodeHeader block = (.error .indexerError, block')) ∨
      ∃ info, keyBlockInfo block.buffer = some info ∧ info.1 < 2 ^ 32 ∧
        keyBlockHeaderSize ≤ block.buffer.length ∧
        chopDecodedBlockDecodeHeader block = (.ok (), { block with
          keyCount := info.1
          depth := info.2
          offset := keyBlockHeaderSize
          currentChildNumber := 0 }) := by
  unfold keyBlockInfo chopDecodedBlockDecodeHeader
  split
  · rename_i m₁ m₂ c₀ c₁ c₂ c₃ d₀ d₁ x y rest hbuffer
    simp only [hbuffer]
    by_cases hmagic : m₁ ≠ keyBlockMagic1 ∨ m₂ ≠ keyBlockMagic2
    · simp only [if_pos hmagic]
      exact .inl ⟨_, rfl⟩
    · simp only [if_neg hmagic]
      refine .inr ⟨_, rfl, ?_, by simp [keyBlockHeaderSize], rfl⟩
      have hlow := (byte_lt c₀).trans (show 2 ^ 8 < 2 ^ 32 by decide)
      exact or_shift_lt (or_shift_lt (or_shift_lt hlow (byte_lt c₁) (by decide))
        (byte_lt c₂) (by decide)) (byte_lt c₃) (by decide)
  · exact .inl ⟨_, rfl⟩

/-- The keys that are left in a block and its ancestors, those of an ancestor counting for all
the keys its next children may have. -/
def keysLeft : List DecodedBlock → Nat
  | [] => 0
  | block :: parents => block.keyCount - block.currentChildNumber + 2 ^ 32 * keysLeft parents

/-- Going up through the blocks ends at one without a parent. -/
def Rooted (blocks : List DecodedBlock) : Prop :=
  ∀ top, blocks.getLast? = some top → top.hasParent = false

theorem rooted_cons_cons {block parent : DecodedBlock} {parents : List DecodedBlock} :
    Rooted (block :: parent :: parents) ↔ Rooted (parent :: parents) := by
  simp only [Rooted, List.getLast?_cons_cons]

theorem rooted_singleton {block : DecodedBlock} : Rooted [block] ↔ block.hasParent = false := by
  simp [Rooted]

theorem Rooted.replace {block block' : DecodedBlock} {parents : List DecodedBlock}
    (h : Rooted (block :: parents)) (hparent : block'.hasParent = block.hasParent) :
    Rooted (block' :: parents) := by
  cases parents with
  | nil => exact rooted_singleton.mpr (hparent.trans (rooted_singleton.mp h))
  | cons parent parents => exact rooted_cons_cons.mpr (rooted_cons_cons.mp h)

theorem Rooted.ne_nil {block : DecodedBlock} {parents : List DecodedBlock}
    (h : Rooted (block :: parents)) (hparent : block.hasParent = true) : parents ≠ [] := by
  rintro rfl
  rw [rooted_singleton.mp h] at hparent
  cases hparent

def Failed (status : Status) : Prop := ∃ e, status = .error e ∧ e ≠ .streamEnd

/-- What a fetch that succeeds leaves: a data block keeps the key fields of the node. -/
structure FetchedBlock (bf : BlockFetcher σ H) (role : StoreRole) (index : H)
    (parent : Option DecodedBlock) (block : DecodedBlock) (w : σ) (block' : DecodedBlock) :
    Prop where
  hasParent : block'.hasParent = parent.isSome
  isKeyBlock : block'.isKeyBlock = fetchedAsKeyBlock parent
  offset_le : block'.offset ≤ block'.buffer.length
  data : block'.isKeyBlock = false →
    block'.keyCount - block'.currentChildNumber = block.keyCount - block.currentChildNumber
  key : block'.isKeyBlock = true → block'.keyCount < 2 ^ 32 ∧ block'.currentChildNumber = 0 ∧
    block'.offset = keyBlockHeaderSize ∧
    keyBlockInfo block'.buffer = some (block'.keyCount, block'.depth) ∧
    ∃ w', bf.fetch role index w = (.ok block'.buffer, w')

private theorem chopDecodedBlockFetch_cases {role : StoreRole} {index : H}
    {parent : Option DecodedBlock} {block block' : DecodedBlock} {s s' : ReadState σ}
    {status : Status}
    (heq : chopDecodedBlockFetch bf role index parent block s = (status, block', s')) :
    (∃ e, status = .error e ∧
      (block'.hasParent = block.hasParent ∨ block'.hasParent = parent.isSome) ∧
      (e = .indexerError ∨ ∃ left w', bf.fetch role index s.world = (.error (e, left), w'))) ∨
    (status = .ok () ∧ FetchedBlock bf role index parent block s.world block') := by
  unfold chopDecodedBlockFetch at heq
  rcases hfetch : bf.fetch role index s.world with ⟨⟨e, left⟩ | bytes, w⟩
  · simp only [hfetch, Prod.mk.injEq] at heq
    obtain ⟨rfl, rfl, rfl⟩ := heq
    exact .inl ⟨e, rfl, .inl rfl, .inr ⟨left, w, rfl⟩⟩
  · simp only [hfetch] at heq
    cases hkey : fetchedAsKeyBlock parent with
    | false =>
      simp only [hkey, Bool.false_eq_true, if_false, Prod.mk.injEq] at heq
      obtain ⟨rfl, rfl, rfl⟩ := heq
      exact .inr ⟨rfl, rfl, hkey.symm, Nat.zero_le _, fun _ => rfl, by simp⟩
    | true =>
      simp only [hkey, if_true] at heq
      obtain ⟨block₁, hdecode⟩ | ⟨info, hinfo, hcount, hlen, hdecode⟩ :=
        chopDecodedBlockDecodeHeader_cases { block with buffer := bytes, isKeyBlock := true, offset := 0 }
      · simp only [hdecode, Prod.mk.injEq] at heq
        obtain ⟨rfl, rfl, rfl⟩ := heq
        exact .inl ⟨.indexerError, rfl, .inr rfl, .inl rfl⟩
      · simp only [hdecode, Prod.mk.injEq] at heq
        obtain ⟨rfl, rfl, rfl⟩ := heq
        exact .inr ⟨rfl, rfl, hkey.symm, hlen, by simp, fun _ => ⟨hcount, rfl, rfl, hinfo, w, hfetch⟩⟩

/-- What `chop_decoded_block_next_child` does on any chain. -/
structure NextChildEnds (block : DecodedBlock) (parents : List DecodedBlock)
    (child : Option DecodedBlock) (r : NextChild σ) : Prop where
  level : r.parents.length = parents.length
  rooted : Rooted (r.block :: r.parents)
  status : Failed r.status ∨ (r.status = .error .streamEnd ∧ r.child = child) ∨
    ∃ c, r.status = .ok () ∧ r.child = some c ∧ c.hasParent = true ∧
      c.offset ≤ c.buffer.length ∧ keysLeft (r.block :: r.parents) < keysLeft (block :: parents) ∧
      ∀ c₀, child = some c₀ → c.keyCount - c.currentChildNumber < 2 ^ 32 ∨
        c.keyCount - c.currentChildNumber = c₀.keyCount - c₀.currentChildNumber

private theorem fetchNextChild_ends (hsound : NoEndErrors bf) {block : DecodedBlock}
    {parents : List DecodedBlock} (child : Option DecodedBlock) (s : ReadState σ)
    (hroot : Rooted (block :: parents)) (hmore : block.currentChildNumber < block.keyCount) :
    NextChildEnds block parents child (fetchNextChild bf block parents child s) := by
  unfold fetchNextChild
  rcases hkeyAt : bf.deserialize (block.buffer.drop block.offset) with e | ⟨index, size⟩
  · exact ⟨rfl, hroot, .inl ⟨e, rfl, hsound.deserialize hkeyAt⟩⟩
  · dsimp only
    let advanced := { block with offset := block.offset + size }
    let role : StoreRole := if advanced.childrenAreKeyBlocks then .metadata else .data
    rcases hfetch : chopDecodedBlockFetch bf role index (some advanced)
      (child.getD (chopDecodedBlockNew (bf.uninitialized s.world))) s with ⟨status, c, s'⟩
    obtain ⟨e, rfl, _, herror⟩ | ⟨rfl, hc⟩ := chopDecodedBlockFetch_cases hfetch
    · refine ⟨rfl, hroot.replace rfl, .inl ⟨e, rfl, ?_⟩⟩
      obtain rfl | ⟨left, w', herror⟩ := herror
      · decide
      · exact hsound.fetch herror
    · refine ⟨rfl, hroot.replace rfl,
        .inr (.inr ⟨c, rfl, rfl, hc.hasParent, hc.offset_le, ?_, ?_⟩)⟩
      · simp only [keysLeft]
        omega
      · rintro c₀ rfl
        cases hkey : c.isKeyBlock with
        | true =>
          obtain ⟨hcount, _⟩ := hc.key hkey
          exact .inl (by omega)
        | false => exact .inr (hc.data hkey)

/-- The walk up the chain ends: each time a parent gives a new block, the parents have fewer
keys left. -/
theorem chopDecodedBlockNextChild_ends (hsound : NoEndErrors bf) {fuel : Nat}
    {block : DecodedBlock} {parents : List DecodedBlock} (child : Option DecodedBlock)
    (s : ReadState σ) (hroot : Rooted (block :: parents))
    (hfuel : keysLeft parents + parents.length < fuel) :
    ∃ r, chopDecodedBlockNextChild bf fuel block parents child s = .done r ∧
      NextChildEnds block parents child r := by
  induction fuel generalizing block parents child s with
  | zero => exact (Nat.not_lt_zero _ hfuel).elim
  | succ fuel ih =>
    by_cases hdone : block.currentChildNumber ≥ block.keyCount ∨ block.offset ≥ block.buffer.length
    · cases hparent : block.hasParent with
      | false =>
        refine ⟨⟨.error .streamEnd, block, parents, child, s⟩, ?_,
          rfl, hroot, .inr (.inl ⟨rfl, rfl⟩)⟩
        cases parents with
        | nil => rw [chopDecodedBlockNextChild, if_pos hdone, hparent]; rfl
        | cons parent grandparents =>
          rw [chopDecodedBlockNextChild, if_pos hdone, hparent]
          rfl
      | true =>
        cases parents with
        | nil => exact (hroot.ne_nil hparent rfl).elim
        | cons parent grandparents =>
          simp only [keysLeft, List.length_cons] at hfuel
          rw [chopDecodedBlockNextChild, if_pos hdone, hparent]
          obtain ⟨r, heq, hlen, hup, hstatus⟩ :=
            ih (some block) s (rooted_cons_cons.mp hroot) (by omega)
          simp only [Bool.not_true, Bool.false_eq_true, if_false, heq, Outcome.done_bind]
          obtain ⟨e, hstatus, hne⟩ | ⟨hstatus, hchild⟩ |
            ⟨c, hstatus, hchild, _, _, hless, hkeys⟩ := hstatus
          · rw [hstatus]
            exact ⟨_, rfl, by simp [hlen], rooted_cons_cons.mpr hup, .inl ⟨e, rfl, hne⟩⟩
          · rw [hstatus, hchild, Option.getD_some]
            exact ⟨_, rfl, by simp [hlen], rooted_cons_cons.mpr hup, .inr (.inl ⟨rfl, rfl⟩)⟩
          · rw [hstatus, hchild, Option.getD_some]
            simp only [keysLeft] at hless
            obtain ⟨r', heq', hlen', hup', hstatus'⟩ := ih child r.state
              ((@rooted_cons_cons c _ _).mpr hup)
              (by simp only [keysLeft, List.length_cons, hlen]; omega)
            refine ⟨r', heq', by simpa [hlen] using hlen', hup', ?_⟩
            obtain hfailed | hend | ⟨c', hstatus', hchild', hparent', hoffset', hless', hkeys'⟩ :=
              hstatus'
            · exact .inl hfailed
            · exact .inr (.inl hend)
            · refine .inr (.inr ⟨c', hstatus', hchild', hparent', hoffset', ?_, hkeys'⟩)
              have hrefilled := hkeys block rfl
              simp only [keysLeft] at hless' ⊢
              omega
    · have hmore : block.currentChildNumber < block.keyCount := by omega
      refine ⟨_, ?_, fetchNextChild_ends hsound child s hroot hmore⟩
      cases parents with
      | nil => rw [chopDecodedBlockNextChild, if_neg hdone]
      | cons parent grandparents => rw [chopDecodedBlockNextChild, if_neg hdone]

section Unfolding

open Relation Unfolding

private theorem blockKeys_exhausted {block : DecodedBlock}
    (hdone : block.currentChildNumber ≥ block.keyCount ∨ block.offset ≥ block.buffer.length) :
    blockKeys bf block = [] := by
  unfold blockKeys
  split
  · obtain hcount | hoffset := hdone
    · rw [Nat.sub_eq_zero_of_le hcount, keysFrom]
    · rw [List.drop_eq_nil_of_le hoffset]
      cases block.keyCount - block.currentChildNumber with
      | zero => rfl
      | succ count => rw [keysFrom, if_pos rfl]
  · rfl

private theorem FetchedBlock.keyOf {index : H} {parent : Option DecodedBlock}
    {block block' : DecodedBlock} {w : σ}
    (h : FetchedBlock bf .metadata index parent block w block') :
    ∀ k ∈ blockKeys bf block', KeyOf bf k index := by
  intro k hk
  unfold blockKeys at hk
  split at hk
  · rename_i hchildren
    obtain ⟨hkey, hdepth⟩ : block'.isKeyBlock = true ∧ 0 < block'.depth := by
      simpa [DecodedBlock.childrenAreKeyBlocks] using hchildren
    obtain ⟨_, hnumber, hoffset, hinfo, w', hfetch⟩ := h.key hkey
    rw [hnumber, hoffset, Nat.sub_zero] at hk
    exact ⟨w, block'.buffer, w', block'.keyCount, block'.depth, hfetch, hinfo, hdepth, hk⟩
  · simp at hk

private theorem fetchNextChild_unfolds {block : DecodedBlock} {parents : List DecodedBlock}
    {child : Option DecodedBlock} {s : ReadState σ} {r : NextChild σ}
    (hmore : block.currentChildNumber < block.keyCount)
    (hoffset : block.offset < block.buffer.length) (heq : fetchNextChild bf block parents child s = r)
    (hstatus : r.status = .ok ()) :
    ∃ c, r.child = some c ∧
      (TransGen (Unfolds (KeyOf bf)) (chainKeys bf (c :: r.block :: r.parents))
          (chainKeys bf (block :: parents)) ∨
        (c.isKeyBlock = false ∧
          chainKeys bf (c :: r.block :: r.parents) = chainKeys bf (block :: parents))) := by
  -- The next child of a key block takes the place of its key, with the keys it has itself.
  subst heq
  unfold fetchNextChild at hstatus ⊢
  rcases hkeyAt : bf.deserialize (block.buffer.drop block.offset) with e | ⟨index, size⟩
  · simp [hkeyAt] at hstatus
  · simp only [hkeyAt] at hstatus ⊢
    have hrole : ({ block with offset := block.offset + size } : DecodedBlock).childrenAreKeyBlocks =
      block.childrenAreKeyBlocks := rfl
    rw [hrole] at hstatus ⊢
    rcases hfetch : chopDecodedBlockFetch bf (if block.childrenAreKeyBlocks then .metadata else .data)
      index (some { block with offset := block.offset + size })
      (child.getD (chopDecodedBlockNew (bf.uninitialized s.world))) s with ⟨status, c', s'⟩
    rw [hfetch] at hstatus
    obtain ⟨e, rfl, _⟩ | ⟨rfl, hc⟩ := chopDecodedBlockFetch_cases hfetch
    · simp at hstatus
    · refine ⟨c', rfl, ?_⟩
      have hkind : c'.isKeyBlock = block.childrenAreKeyBlocks := hc.isKeyBlock
      cases hchildren : block.childrenAreKeyBlocks with
      | false =>
        have hleaf : c'.childrenAreKeyBlocks = false := by
          rw [DecodedBlock.childrenAreKeyBlocks, hkind, hchildren, Bool.false_and]
        refine .inr ⟨hkind.trans hchildren, ?_⟩
        have hnode : ({ block with
            offset := block.offset + size
            currentChildNumber := block.currentChildNumber + 1 } :
              DecodedBlock).childrenAreKeyBlocks = false := hchildren
        simp [chainKeys, blockKeys, hleaf, hnode, hchildren]
      | true =>
        rw [hchildren] at hc
        refine .inl (.single ⟨index, blockKeys bf c', ?_⟩)
        refine ⟨keysFrom bf.deserialize (block.keyCount - (block.currentChildNumber + 1))
          (block.buffer.drop (block.offset + size)) ++ chainKeys bf parents, ?_, ?_, hc.keyOf⟩
        · have hleft : block.keyCount - block.currentChildNumber =
              block.keyCount - (block.currentChildNumber + 1) + 1 := by omega
          have hbytes : block.buffer.drop block.offset ≠ [] := by
            rw [← List.length_pos_iff, List.length_drop]
            omega
          simp only [chainKeys, List.flatMap_cons, blockKeys, hchildren, if_true]
          rw [hleft, keysFrom, if_neg hbytes, hkeyAt]
          simp only [List.drop_drop, List.cons_append]
        · have hnode : ({ block with
              offset := block.offset + size
              currentChildNumber := block.currentChildNumber + 1 } :
                DecodedBlock).childrenAreKeyBlocks = true := hchildren
          simp only [chainKeys, List.flatMap_cons]
          congr 1
          rw [blockKeys, if_pos hnode]

/-- Each key block that the walk gets to takes the place of a key left. -/
theorem chopDecodedBlockNextChild_unfolds {fuel : Nat} {block : DecodedBlock}
    {parents : List DecodedBlock} {child : Option DecodedBlock} {s : ReadState σ} {r : NextChild σ}
    (heq : chopDecodedBlockNextChild bf fuel block parents child s = .done r)
    (hstatus : r.status = .ok ()) :
    ∃ c, r.child = some c ∧
      (TransGen (Unfolds (KeyOf bf)) (chainKeys bf (c :: r.block :: r.parents))
          (chainKeys bf (block :: parents)) ∨
        (c.isKeyBlock = false ∧
          chainKeys bf (c :: r.block :: r.parents) = chainKeys bf (block :: parents))) := by
  induction fuel generalizing block parents child s r with
  | zero => cases heq
  | succ fuel ih =>
    by_cases hdone : block.currentChildNumber ≥ block.keyCount ∨ block.offset ≥ block.buffer.length
    · cases parents with
      | nil =>
        rw [chopDecodedBlockNextChild, if_pos hdone] at heq
        split at heq
        · injection heq with heq
          rw [← heq] at hstatus
          cases hstatus
        · cases heq
      | cons parent grandparents =>
        have hempty : chainKeys bf (block :: parent :: grandparents) =
            chainKeys bf (parent :: grandparents) := by
          rw [chainKeys, List.flatMap_cons, blockKeys_exhausted hdone, List.nil_append, chainKeys]
        rw [chopDecodedBlockNextChild, if_pos hdone] at heq
        split at heq
        · injection heq with heq
          rw [← heq] at hstatus
          cases hstatus
        · obtain ⟨r₁, heq₁, heq⟩ := Outcome.bind_eq_done.mp heq
          cases hstatus₁ : r₁.status with
          | error e =>
            simp only [hstatus₁, Outcome.pure_eq_done, Outcome.done.injEq] at heq
            rw [← heq] at hstatus
            cases hstatus
          | ok =>
            simp only [hstatus₁] at heq
            obtain ⟨c₁, hchild₁, hfirst⟩ := ih heq₁ hstatus₁
            rw [hchild₁, Option.getD_some] at heq
            obtain ⟨c, hchild, hsecond⟩ := ih heq hstatus
            refine ⟨c, hchild, ?_⟩
            rw [hempty]
            obtain hfirst | ⟨_, hfirst⟩ := hfirst
            · obtain hsecond | ⟨_, hsecond⟩ := hsecond
              · exact .inl (hsecond.trans hfirst)
              · exact .inl (hsecond ▸ hfirst)
            · rw [← hfirst]
              exact hsecond
    · have hmore : block.currentChildNumber < block.keyCount ∧ block.offset < block.buffer.length := by
        omega
      have hfetched : fetchNextChild bf block parents child s = r := by
        cases parents with
        | nil =>
          rw [chopDecodedBlockNextChild, if_neg hdone] at heq
          injection heq
        | cons parent grandparents =>
          rw [chopDecodedBlockNextChild, if_neg hdone] at heq
          injection heq
      exact fetchNextChild_unfolds hmore.1 hmore.2 hfetched hstatus

end Unfolding

/-- Where a read goes on downwards: a block without a current child, and its ancestors. -/
structure Position (σ : Type) where
  block : DecodedBlock
  parents : List DecodedBlock
  state : ReadState σ

/-- The step of the walk down from a key block to the key block that is its next child. -/
def NextKeyBlock (bf : BlockFetcher σ H) (p' p : Position σ) : Prop :=
  p.block.isKeyBlock = true ∧ p'.block.isKeyBlock = true ∧
    ∃ fuel r, chopDecodedBlockNextChild bf fuel p.block p.parents none p.state = .done r ∧
      r.status = .ok () ∧ r.child = some p'.block ∧ p'.parents = r.block :: r.parents ∧
      p'.state = r.state

theorem nextKeyBlock_acc {p : Position σ}
    (h : ∀ k ∈ chainKeys bf (p.block :: p.parents), Acc (KeyOf bf) k) : Acc (NextKeyBlock bf) p := by
  have hstep : ∀ p' p, NextKeyBlock bf p' p →
      Relation.TransGen (Unfolding.Unfolds (KeyOf bf)) (chainKeys bf (p'.block :: p'.parents))
        (chainKeys bf (p.block :: p.parents)) := by
    rintro p' p ⟨_, hkey, fuel, r, heq, hstatus, hchild, hparents, _⟩
    obtain ⟨c, hc, hunfolds⟩ := chopDecodedBlockNextChild_unfolds heq hstatus
    rw [hchild, Option.some.injEq] at hc
    subst hc
    rw [hparents]
    obtain hunfolds | ⟨hdata, _⟩ := hunfolds
    · exact hunfolds
    · rw [hkey] at hdata
      cases hdata
  exact Unfolding.acc_of_pending (fun p => chainKeys bf (p.block :: p.parents)) hstep h

/-- The walk of a read down the chain ends.  On the chain it goes to the first data block, which
must have been fetched; from the last key block it goes on to its next child. -/
def DescentEnds (bf : BlockFetcher σ H) :
    DecodedBlock → List DecodedBlock → List DecodedBlock → ReadState σ → Prop
  | block, parents, [], s =>
    if block.isKeyBlock then Acc (NextKeyBlock bf) ⟨block, parents, s⟩ else block.hasParent = true
  | block, parents, child :: below, s =>
    if block.isKeyBlock then DescentEnds bf child (block :: parents) below s
    else block.hasParent = true

/-- The walk down ends where the next read of a stream begins. -/
def ReadSettles (bf : BlockFetcher σ H) (tree : DecodedBlockTree H) (s : ReadState σ) : Prop :=
  match tree.chain with
  | top :: below => DescentEnds bf top [] below s
  | [] => ∀ top s₁, chopDecodedBlockFetch bf .metadata tree.index none
      (chopDecodedBlockNew (bf.uninitialized s.world)) s = (.ok (), top, s₁) →
      DescentEnds bf top [] [] s₁

private theorem descentEnds_of_keys {block : DecodedBlock} {parents below : List DecodedBlock}
    (s : ReadState σ)
    (hfetched : ∀ b ∈ block :: below, b.isKeyBlock = false → b.hasParent = true)
    (hkeys : ∀ k ∈ chainKeys bf (below.reverse ++ block :: parents), Acc (KeyOf bf) k) :
    DescentEnds bf block parents below s := by
  induction below generalizing block parents with
  | nil =>
    rw [DescentEnds]
    split
    · exact nextKeyBlock_acc hkeys
    · rename_i hkey
      exact hfetched block List.mem_cons_self (by simpa using hkey)
  | cons child below ih =>
    rw [DescentEnds]
    split
    · apply ih
      · exact fun b hb => hfetched b (List.mem_cons_of_mem block hb)
      · rw [List.reverse_cons, List.append_assoc] at hkeys
        exact hkeys
    · rename_i hkey
      exact hfetched block List.mem_cons_self (by simpa using hkey)

/-- A read settles when no endless path of key blocks begins at a key that is left. -/
theorem readSettles_of_keys {tree : DecodedBlockTree H} (s : ReadState σ)
    (hfetched : ∀ b ∈ tree.chain, b.isKeyBlock = false → b.hasParent = true)
    (hkeys : ∀ k ∈ pendingKeys bf tree, Acc (KeyOf bf) k) : ReadSettles bf tree s := by
  unfold ReadSettles
  cases hchain : tree.chain with
  | nil =>
    intro top s₁ hfetch
    obtain ⟨e, hstatus, _⟩ | ⟨_, htop⟩ := chopDecodedBlockFetch_cases hfetch
    · cases hstatus
    · have hkey : top.isKeyBlock = true := htop.isKeyBlock
      rw [DescentEnds, if_pos hkey]
      apply nextKeyBlock_acc
      intro k hk
      rw [chainKeys, List.flatMap_cons, List.flatMap_nil, List.append_nil] at hk
      have hroot : Acc (KeyOf bf) tree.index := hkeys tree.index (by simp [pendingKeys, hchain])
      exact hroot.inv (htop.keyOf k hk)
  | cons top below =>
    apply descentEnds_of_keys s (fun b hb => hfetched b (hchain ▸ hb))
    intro k hk
    apply hkeys k
    rw [pendingKeys, if_neg (by simp [hchain]), hchain, List.reverse_cons]
    exact hk

/-- The first block of a chain is one without a parent. -/
def TopRooted (chain : List DecodedBlock) : Prop :=
  ∀ top, chain.head? = some top → top.hasParent = false

private theorem topRooted_of_rooted {block : DecodedBlock} {parents : List DecodedBlock}
    (below : List DecodedBlock) (h : Rooted (block :: parents)) :
    TopRooted (parents.reverse ++ block :: below) := by
  intro top htop
  apply h top
  rw [List.getLast?_eq_head?_reverse, List.reverse_cons]
  rw [show parents.reverse ++ block :: below = parents.reverse ++ [block] ++ below by simp] at htop
  rw [List.head?_append_of_ne_nil _ (by simp)] at htop
  exact htop

private theorem chopDecodedBlockRefill_ends (hsound : NoEndErrors bf) {size fuel : Nat}
    (below : List DecodedBlock) {block : DecodedBlock} {parents : List DecodedBlock} (out : Bytes)
    (s : ReadState σ) (hroot : Rooted (block :: parents)) (hne : parents ≠ [])
    (hoffset : out ≠ [] → block.offset ≤ block.buffer.length)
    (hfuel : keysLeft parents + parents.length ≤ fuel) :
    ∃ step, chopDecodedBlockRefill bf size below fuel block parents out s = .done step ∧
      ((∃ r, step = .error r ∧ TopRooted r.chain) ∨
        ∃ block' parents' s', step = .ok (block', parents', s') ∧
          parents'.length = parents.length ∧ Rooted (block' :: parents') ∧
          block'.offset ≤ block'.buffer.length ∧
          (keysLeft parents' < keysLeft parents ∨
            (keysLeft parents' = keysLeft parents ∧ block'.offset < block'.buffer.length))) := by
  unfold chopDecodedBlockRefill
  by_cases hdone : block.offset ≥ block.buffer.length
  · rw [if_pos hdone]
    cases parents with
    | nil => exact (hne rfl).elim
    | cons parent grandparents =>
      simp only [keysLeft, List.length_cons] at hfuel
      obtain ⟨r, heq, hlen, hup, hstatus⟩ := chopDecodedBlockNextChild_ends hsound (some block) s
        (rooted_cons_cons.mp hroot)
        (show keysLeft grandparents + grandparents.length < fuel by omega)
      simp only [heq, Outcome.done_bind]
      obtain ⟨e, hstatus, hne⟩ | ⟨hstatus, hchild⟩ | ⟨c, hstatus, hchild, _, hle, hless, _⟩ := hstatus
      · rw [hstatus]
        simp only [hne, false_and, if_false]
        exact ⟨_, rfl, .inl ⟨_, rfl, topRooted_of_rooted below (rooted_cons_cons.mpr hup)⟩⟩
      · rw [hstatus, hchild, Option.getD_some]
        simp only [true_and]
        split
        · rename_i hout
          have hle := hoffset (List.ne_nil_of_length_pos (Nat.pos_of_ne_zero hout))
          rw [Outcome.assert_of hle, Outcome.done_bind]
          exact ⟨_, rfl, .inl ⟨_, rfl, topRooted_of_rooted below (rooted_cons_cons.mpr hup)⟩⟩
        · exact ⟨_, rfl, .inl ⟨_, rfl, topRooted_of_rooted below (rooted_cons_cons.mpr hup)⟩⟩
      · rw [hstatus, hchild, Option.getD_some]
        exact ⟨_, rfl, .inr ⟨c, _, r.state, rfl, by simp [hlen], rooted_cons_cons.mpr hup, hle,
          .inl hless⟩⟩
  · rw [if_neg hdone]
    exact ⟨_, rfl, .inr ⟨block, parents, s, rfl, rfl, hroot, by omega, .inr ⟨rfl, by omega⟩⟩⟩

private theorem chopDecodedBlockReadData_ends (hsound : NoEndErrors bf) {size fuel : Nat}
    (below : List DecodedBlock) {block : DecodedBlock} {parents : List DecodedBlock} (out : Bytes)
    (s : ReadState σ) (hroot : Rooted (block :: parents)) (hne : parents ≠ [])
    (hoffset : out ≠ [] → block.offset ≤ block.buffer.length)
    (hfuel : size - out.length + keysLeft parents + parents.length < fuel) :
    ∃ r, chopDecodedBlockReadData bf size below fuel block parents out s = .done r ∧
      TopRooted r.chain := by
  -- The reading loop ends: each iteration delivers a byte or uses up a key.
  induction fuel generalizing block parents out s with
  | zero => exact (Nat.not_lt_zero _ hfuel).elim
  | succ fuel ih =>
    rw [chopDecodedBlockReadData]
    by_cases hsize : out.length < size
    · rw [if_pos hsize]
      obtain ⟨step, heq, ⟨r, rfl, hends⟩ |
        ⟨block', parents', s', rfl, hlen, hup, hle, hprogress⟩⟩ :=
        chopDecodedBlockRefill_ends hsound below out s hroot hne hoffset
          (show keysLeft parents + parents.length ≤ fuel by omega)
      · rw [heq]
        exact ⟨r, rfl, hends⟩
      · have hne' : parents' ≠ [] := by
          rw [← List.length_pos_iff, hlen]
          exact List.length_pos_iff.mpr hne
        have hcopied : (block'.copy (size - out.length)).2.offset ≤
            (block'.copy (size - out.length)).2.buffer.length := by
          simp only [DecodedBlock.copy, List.length_take, List.length_drop]
          omega
        have hmeasure : size - (out ++ (block'.copy (size - out.length)).1).length +
            keysLeft parents' < size - out.length + keysLeft parents := by
          simp only [DecodedBlock.copy, List.length_append, List.length_take, List.length_drop]
          omega
        have hup' : Rooted ((block'.copy (size - out.length)).2 :: parents') := hup.replace rfl
        obtain ⟨r, hread, hends⟩ := ih (out ++ (block'.copy (size - out.length)).1) s' hup' hne'
          (fun _ => hcopied) (by omega)
        rw [heq]
        exact ⟨r, hread, hends⟩
    · rw [if_neg hsize]
      exact ⟨_, rfl, topRooted_of_rooted below hroot⟩

private theorem chopDecodedBlockRead_data_ends (hsound : NoEndErrors bf) (size : Nat)
    {block : DecodedBlock} {parents : List DecodedBlock} (below : List DecodedBlock)
    (s : ReadState σ) (hroot : Rooted (block :: parents)) (hkey : block.isKeyBlock = false)
    (hparent : block.hasParent = true) :
    ∃ enough, ∀ fuel, enough ≤ fuel → ∃ r,
      chopDecodedBlockRead bf size fuel block parents below s = .done r ∧ TopRooted r.chain := by
  refine ⟨size + keysLeft parents + parents.length + 2, fun fuel hfuel => ?_⟩
  cases fuel with
  | zero => omega
  | succ fuel =>
    have hnothing : ([] : Bytes) ≠ [] → block.offset ≤ block.buffer.length := by simp
    obtain ⟨r, heq, hends⟩ := chopDecodedBlockReadData_ends hsound below [] s hroot
      (hroot.ne_nil hparent) hnothing
      (show size - 0 + keysLeft parents + parents.length < fuel by omega)
    refine ⟨r, ?_, hends⟩
    cases below with
    | nil => simpa [chopDecodedBlockRead, hkey, hparent] using heq
    | cons child below => simpa [chopDecodedBlockRead, hkey, hparent] using heq

private theorem chopDecodedBlockRead_descends (hsound : NoEndErrors bf) (size : Nat)
    {p : Position σ} (hkey : p.block.isKeyBlock = true) (hroot : Rooted (p.block :: p.parents))
    (hacc : Acc (NextKeyBlock bf) p) :
    ∃ enough, ∀ fuel, enough ≤ fuel → ∃ r,
      chopDecodedBlockRead bf size fuel p.block p.parents [] p.state = .done r ∧
        TopRooted r.chain := by
  -- From the last key block of a chain on, a read goes down for as long as there is a next key block.
  induction hacc with
  | intro p _ ih =>
    obtain ⟨r, heq, hlen, hup, hstatus⟩ :=
      chopDecodedBlockNextChild_ends hsound none p.state hroot (Nat.lt_succ_self _)
    have hstep : ∀ fuel, keysLeft p.parents + p.parents.length + 1 ≤ fuel →
        chopDecodedBlockNextChild bf fuel p.block p.parents none p.state = .done r :=
      fun fuel hfuel => (chopDecodedBlockNextChild_approx hfuel p.block p.parents none p.state).done heq
    obtain ⟨e, hstatus, hne⟩ | ⟨hstatus, hchild⟩ | ⟨c, hstatus, hchild, hparent, _, _, _⟩ := hstatus
    · refine ⟨keysLeft p.parents + p.parents.length + 2, fun fuel hfuel => ?_⟩
      cases fuel with
      | zero => omega
      | succ fuel =>
        simp only [chopDecodedBlockRead, hkey, if_true, hstep fuel (by omega), hstatus,
          Outcome.done_bind]
        exact ⟨_, rfl, topRooted_of_rooted _ hup⟩
    · refine ⟨keysLeft p.parents + p.parents.length + 2, fun fuel hfuel => ?_⟩
      cases fuel with
      | zero => omega
      | succ fuel =>
        simp only [chopDecodedBlockRead, hkey, if_true, hstep fuel (by omega), hstatus, hchild,
          Outcome.done_bind]
        exact ⟨_, rfl, topRooted_of_rooted _ hup⟩
    · have hroot' : Rooted (c :: r.block :: r.parents) := rooted_cons_cons.mpr hup
      obtain ⟨enough, hread⟩ : ∃ enough, ∀ fuel, enough ≤ fuel → ∃ r',
          chopDecodedBlockRead bf size fuel c (r.block :: r.parents) [] r.state = .done r' ∧
            TopRooted r'.chain := by
        cases hckey : c.isKeyBlock with
        | false => exact chopDecodedBlockRead_data_ends hsound size [] r.state hroot' hckey hparent
        | true =>
          have hnext : NextKeyBlock bf ⟨c, r.block :: r.parents, r.state⟩ p :=
            ⟨hkey, hckey, _, r, heq, hstatus, hchild, rfl, rfl⟩
          exact ih _ hnext hckey hroot'
      refine ⟨max enough (keysLeft p.parents + p.parents.length + 1) + 1, fun fuel hfuel => ?_⟩
      cases fuel with
      | zero => omega
      | succ fuel =>
        obtain ⟨r', heq', hends⟩ := hread fuel (by omega)
        refine ⟨r', ?_, hends⟩
        simp only [chopDecodedBlockRead, hkey, if_true, hstep fuel (by omega), hstatus, hchild,
          Outcome.done_bind]
        exact heq'

private theorem chopDecodedBlockRead_ends (hsound : NoEndErrors bf) (size : Nat)
    {block : DecodedBlock} {parents below : List DecodedBlock} {s : ReadState σ}
    (hroot : Rooted (block :: parents)) (hdescent : DescentEnds bf block parents below s) :
    ∃ enough, ∀ fuel, enough ≤ fuel → ∃ r,
      chopDecodedBlockRead bf size fuel block parents below s = .done r ∧ TopRooted r.chain := by
  induction below generalizing block parents with
  | nil =>
    rw [DescentEnds] at hdescent
    split at hdescent
    · rename_i hkey
      exact chopDecodedBlockRead_descends hsound size hkey hroot hdescent
    · rename_i hkey
      exact chopDecodedBlockRead_data_ends hsound size [] s hroot (by simpa using hkey) hdescent
  | cons child below ih =>
    rw [DescentEnds] at hdescent
    split at hdescent
    · rename_i hkey
      obtain ⟨enough, hread⟩ := ih (rooted_cons_cons.mpr hroot) hdescent
      refine ⟨enough + 1, fun fuel hfuel => ?_⟩
      cases fuel with
      | zero => exact (Nat.not_succ_le_zero _ hfuel).elim
      | succ fuel =>
        obtain ⟨r, heq, hends⟩ := hread fuel (Nat.le_of_succ_le_succ hfuel)
        refine ⟨r, ?_, hends⟩
        rw [chopDecodedBlockRead, if_pos hkey]
        exact heq
    · rename_i hkey
      exact chopDecodedBlockRead_data_ends hsound size (child :: below) s hroot (by simpa using hkey)
        hdescent

private theorem descentEnds_of_returns {size fuel : Nat} {block : DecodedBlock}
    {parents below : List DecodedBlock} {s : ReadState σ} {r : ReadResult σ}
    (heq : chopDecodedBlockRead bf size fuel block parents below s = .done r) :
    DescentEnds bf block parents below s := by
  induction fuel generalizing block parents below s with
  | zero => cases heq
  | succ fuel ih =>
    cases hkey : block.isKeyBlock with
    | false =>
      have hparent : block.hasParent = true := by
        cases below with
        | nil =>
          simp only [chopDecodedBlockRead, hkey, Bool.false_eq_true, if_false] at heq
          obtain ⟨_, hassert, _⟩ := Outcome.bind_eq_done.mp heq
          exact Outcome.of_assert hassert
        | cons child below =>
          simp only [chopDecodedBlockRead, hkey, Bool.false_eq_true, if_false] at heq
          obtain ⟨_, hassert, _⟩ := Outcome.bind_eq_done.mp heq
          exact Outcome.of_assert hassert
      cases below with
      | nil => simpa [DescentEnds, hkey] using hparent
      | cons child below => simpa [DescentEnds, hkey] using hparent
    | true =>
      cases below with
      | cons child below =>
        rw [chopDecodedBlockRead, if_pos hkey] at heq
        rw [DescentEnds, if_pos hkey]
        exact ih heq
      | nil =>
        rw [chopDecodedBlockRead, if_pos hkey] at heq
        obtain ⟨r₁, heq₁, heq⟩ := Outcome.bind_eq_done.mp heq
        rw [DescentEnds, if_pos hkey]
        refine ⟨_, fun p' hnext => ?_⟩
        obtain ⟨_, hkey', fuel', r', heq', hstatus, hchild, hparents, hstate⟩ := hnext
        obtain rfl := chopDecodedBlockNextChild_agree heq₁ heq'
        simp only [hstatus, hchild] at heq
        have hbelow := ih heq
        rw [DescentEnds, if_pos hkey'] at hbelow
        rw [← hparents, ← hstate] at hbelow
        exact hbelow

private theorem treeStreamRead_ends (hsound : NoEndErrors bf) {tree : DecodedBlockTree H}
    (size : Nat) {s : ReadState σ} (hroot : TopRooted tree.chain) (hsettles : ReadSettles bf tree s) :
    ∃ enough, ∀ fuel, enough ≤ fuel → ∃ status bytes tree' s',
      treeStreamRead bf fuel tree size s = .done (status, bytes, tree', s') ∧
        TopRooted tree'.chain := by
  unfold treeStreamRead
  unfold ReadSettles at hsettles
  cases hchain : tree.chain with
  | nil =>
    rw [hchain] at hsettles
    dsimp only at hsettles ⊢
    rcases hfetch : chopDecodedBlockFetch bf .metadata tree.index none
      (chopDecodedBlockNew (bf.uninitialized s.world)) s with ⟨status, top, s₁⟩
    obtain ⟨e, rfl, hparent, _⟩ | ⟨rfl, htop⟩ := chopDecodedBlockFetch_cases hfetch
    · have htop : top.hasParent = false := by
        obtain hparent | hparent := hparent
        · exact hparent
        · exact hparent
      refine ⟨0, fun fuel _ => ⟨_, _, _, _, rfl, ?_⟩⟩
      intro top' htop'
      simp only [List.head?_cons, Option.some.injEq] at htop'
      rw [← htop']
      exact htop
    · obtain ⟨enough, hread⟩ := chopDecodedBlockRead_ends hsound size
        (rooted_singleton.mpr htop.hasParent) (hsettles top s₁ hfetch)
      refine ⟨enough, fun fuel hfuel => ?_⟩
      obtain ⟨r, heq, hends⟩ := hread fuel hfuel
      simp only [heq, Outcome.done_bind]
      exact ⟨_, _, _, _, rfl, hends⟩
  | cons top below =>
    rw [hchain] at hsettles hroot
    have htop : Rooted [top] := rooted_singleton.mpr (hroot top rfl)
    obtain ⟨enough, hread⟩ := chopDecodedBlockRead_ends hsound size htop hsettles
    refine ⟨enough, fun fuel hfuel => ?_⟩
    obtain ⟨r, heq, hends⟩ := hread fuel hfuel
    simp only [heq, Outcome.done_bind]
    exact ⟨_, _, _, _, rfl, hends⟩

private theorem readSettles_of_returns {size fuel : Nat} {tree : DecodedBlockTree H}
    {s : ReadState σ} (hreturns : (treeStreamRead bf fuel tree size s).Returns) :
    ReadSettles bf tree s := by
  obtain ⟨result, heq⟩ := hreturns
  unfold treeStreamRead at heq
  unfold ReadSettles
  cases hchain : tree.chain with
  | nil =>
    rw [hchain] at heq
    dsimp only at heq ⊢
    intro top s₁ hfetch
    rw [hfetch] at heq
    obtain ⟨r, hread, _⟩ := Outcome.bind_eq_done.mp heq
    exact descentEnds_of_returns hread
  | cons top below =>
    rw [hchain] at heq
    obtain ⟨r, hread, _⟩ := Outcome.bind_eq_done.mp heq
    exact descentEnds_of_returns hread

/-- Any sequence of reads of a stream, whether they succeeded or failed. -/
inductive StreamReads (bf : BlockFetcher σ H) :
    DecodedBlockTree H → ReadState σ → DecodedBlockTree H → ReadState σ → Prop
  | nil (tree : DecodedBlockTree H) (s : ReadState σ) : StreamReads bf tree s tree s
  | cons {tree tree₁ tree' : DecodedBlockTree H} {s s₁ s' : ReadState σ} {status : Status}
      {bytes : Bytes} (fuel size : Nat) :
      treeStreamRead bf fuel tree size s = .done (status, bytes, tree₁, s₁) →
      StreamReads bf tree₁ s₁ tree' s' → StreamReads bf tree s tree' s'

private theorem StreamReads.topRooted (hsound : NoEndErrors bf) {tree tree' : DecodedBlockTree H}
    {s s' : ReadState σ} (hrun : StreamReads bf tree s tree' s') (hroot : TopRooted tree.chain) :
    TopRooted tree'.chain := by
  induction hrun with
  | nil tree s => exact hroot
  | cons fuel size hread _ ih =>
    obtain ⟨enough, hends⟩ :=
      treeStreamRead_ends hsound size hroot (readSettles_of_returns ⟨_, hread⟩)
    obtain ⟨status, bytes, tree₁, s₁, heq, hroot₁⟩ := hends (max fuel enough) (le_max_right _ _)
    have hsame := (treeStreamRead_approx (le_max_left fuel enough) _ size _).done hread
    rw [heq] at hsame
    injection hsame with hsame
    simp only [Prod.mk.injEq] at hsame
    obtain ⟨rfl, rfl, rfl, rfl⟩ := hsame
    exact ih hroot₁

/-- A fetcher over unchanging contents. -/
def fixedFetcher (store : ListStore) : BlockFetcher Unit Nat where
  fetch role h _ := ((listFetcher.fetch role h store).1, ())
  deserialize := unaryDeserialize
  uninitialized _ := ⟨[], 0, false, 0, 0, 0, false⟩

private theorem unaryDeserialize_error {b : Bytes} {e : ChopError}
    (heq : unaryDeserialize b = .error e) : e = .code 0 := by
  induction b with
  | nil =>
    simp only [unaryDeserialize, Except.error.injEq] at heq
    exact heq.symm
  | cons x b ih =>
    rw [unaryDeserialize] at heq
    split at heq
    · cases heq
    · cases hrest : unaryDeserialize b with
      | error e' =>
        simp only [hrest, Except.map, Except.error.injEq] at heq
        exact ih (heq ▸ hrest)
      | ok result => simp [hrest, Except.map] at heq

private theorem fixedFetcher_noEndErrors (store : ListStore) :
    NoEndErrors (fixedFetcher store) := by
  refine ⟨?_, ?_⟩
  · intro role h w e left w' hfetch
    simp only [fixedFetcher, listFetcher, Prod.mk.injEq] at hfetch
    split at hfetch
    · split at hfetch
      · simp at hfetch
      · simp only [Except.error.injEq, Prod.mk.injEq] at hfetch
        rw [← hfetch.1.1]
        decide
    · simp only [Except.error.injEq, Prod.mk.injEq] at hfetch
      rw [← hfetch.1.1]
      decide
  · intro b e heq
    rw [unaryDeserialize_error heq]
    decide

/-- A data block under a path of key blocks whose depths do not decrease, beside a key block
that is its own only key. -/
def strayCycleStore : ListStore :=
  [(.data, [1]), (.metadata, keyBlockBytes unarySerialize 0 [0]),
    (.metadata, keyBlockBytes unarySerialize 1 [1]), (.metadata, keyBlockBytes unarySerialize 1 [2]),
    (.metadata, keyBlockBytes unarySerialize 1 [4])]

private theorem strayCycleStore_keyOf {h h' : Nat} (hlt : h < 4)
    (hkey : KeyOf (fixedFetcher strayCycleStore) h' h) : h' < h := by
  obtain ⟨w, b, w', count, depth, hfetch, hinfo, hdepth, hmem⟩ := hkey
  obtain rfl | rfl | rfl | rfl : h = 0 ∨ h = 1 ∨ h = 2 ∨ h = 3 := by omega
  · cases hfetch
  · cases hfetch
    have hleaf : keyBlockInfo (keyBlockBytes unarySerialize 0 [0]) = some (1, 0) := by decide
    rw [hleaf] at hinfo
    cases hinfo
    cases hdepth
  · cases hfetch
    have hnode : keyBlockInfo (keyBlockBytes unarySerialize 1 [1]) = some (1, 1) := by decide
    rw [hnode] at hinfo
    cases hinfo
    have hkeys : keysFrom unaryDeserialize 1
        ((keyBlockBytes unarySerialize 1 [1]).drop keyBlockHeaderSize) = [1] := by decide
    have hone : h' ∈ [1] := hkeys ▸ hmem
    rw [List.mem_singleton.mp hone]
    decide
  · cases hfetch
    have hnode : keyBlockInfo (keyBlockBytes unarySerialize 1 [2]) = some (1, 1) := by decide
    rw [hnode] at hinfo
    cases hinfo
    have hkeys : keysFrom unaryDeserialize 1
        ((keyBlockBytes unarySerialize 1 [2]).drop keyBlockHeaderSize) = [2] := by decide
    have htwo : h' ∈ [2] := hkeys ▸ hmem
    rw [List.mem_singleton.mp htwo]
    decide

private theorem strayCycleStore_acc (h : Nat) (hlt : h < 4) :
    Acc (KeyOf (fixedFetcher strayCycleStore)) h := by
  induction h using Nat.strongRecOn with
  | ind h ih =>
    refine ⟨h, fun h' hkey => ?_⟩
    have hless := strayCycleStore_keyOf hlt hkey
    exact ih h' hless (hless.trans hlt)

/-- A key block whose only key is its own handle. -/
def cyclicStore : ListStore := [(.metadata, keyBlockBytes unarySerialize 1 [0])]

private theorem cyclicStore_descends (fuel : Nat) (hasParent : Bool) (parents : List DecodedBlock)
    (s : ReadState Unit) :
    chopDecodedBlockRead (fixedFetcher cyclicStore) 1 fuel
      ⟨keyBlockBytes unarySerialize 1 [0], 10, true, 1, 1, 0, hasParent⟩ parents [] s = .outOfFuel := by
  induction fuel generalizing hasParent parents s with
  | zero => rfl
  | succ fuel ih =>
    cases fuel with
    | zero => rfl
    | succ fuel =>
      have hnext : chopDecodedBlockNextChild (fixedFetcher cyclicStore) (fuel + 1)
          ⟨keyBlockBytes unarySerialize 1 [0], 10, true, 1, 1, 0, hasParent⟩ parents none s =
          .done ⟨.ok (), ⟨keyBlockBytes unarySerialize 1 [0], 11, true, 1, 1, 1, hasParent⟩, parents,
            some ⟨keyBlockBytes unarySerialize 1 [0], 10, true, 1, 1, 0, true⟩, ⟨(), s.failures⟩⟩ := by
        cases parents with
        | nil => rfl
        | cons parent grandparents => rfl
      simp only [chopDecodedBlockRead, if_true, hnext, Outcome.done_bind]
      exact ih true _ _

end Libchop
