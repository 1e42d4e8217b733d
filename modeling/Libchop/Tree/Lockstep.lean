import Libchop.Tree.Preserved
import Mathlib.Data.List.Forall2

/-!
# Two readers in lockstep

Two readers of one handle whose fetches never succeed with different blocks do the same, until one of them
fails.  Their decoded blocks are the same, up to fields of data blocks that were never set.
-/

namespace Libchop

variable {σ τ H : Type} {bf₁ : BlockFetcher σ H} {bf₂ : BlockFetcher τ H} {inv₁ : ReadState σ → Prop}
  {inv₂ : ReadState τ → Prop}

/-- Fetches that succeed in both worlds give the same block.  No other error is taken for the end of the
stream. -/
structure Agree (bf₁ : BlockFetcher σ H) (bf₂ : BlockFetcher τ H) (inv₁ : ReadState σ → Prop)
    (inv₂ : ReadState τ → Prop) : Prop where
  preserves₁ : ReadPreserves bf₁ inv₁
  preserves₂ : ReadPreserves bf₂ inv₂
  fetch : ∀ {role index s₁ s₂ bytes₁ bytes₂ w₁ w₂}, inv₁ s₁ → inv₂ s₂ →
    bf₁.fetch role index s₁.world = (.ok bytes₁, w₁) →
    bf₂.fetch role index s₂.world = (.ok bytes₂, w₂) → bytes₁ = bytes₂
  fetch_error₁ : ∀ {role index s left w}, inv₁ s →
    bf₁.fetch role index s.world ≠ (.error (.streamEnd, left), w)
  fetch_error₂ : ∀ {role index s left w}, inv₂ s →
    bf₂.fetch role index s.world ≠ (.error (.streamEnd, left), w)
  deserialize : bf₁.deserialize = bf₂.deserialize
  deserialize_error : ∀ input, bf₁.deserialize input ≠ .error .streamEnd

/-- An error that is not the end of the stream. -/
def Fails (status : Status) : Prop := ∃ err, status = .error err ∧ err ≠ .streamEnd

/-- The same block.  A data block may differ in what only a header sets. -/
structure SameBlock (a b : DecodedBlock) : Prop where
  buffer : a.buffer = b.buffer
  offset : a.offset = b.offset
  isKeyBlock : a.isKeyBlock = b.isKeyBlock
  hasParent : a.hasParent = b.hasParent
  keyBlock : a.isKeyBlock = true → a = b

theorem SameBlock.refl (block : DecodedBlock) : SameBlock block block :=
  ⟨rfl, rfl, rfl, rfl, fun _ => rfl⟩

theorem SameBlock.copy {a b : DecodedBlock} (h : SameBlock a b) (toRead : Nat) :
    (a.copy toRead).1 = (b.copy toRead).1 ∧ SameBlock (a.copy toRead).2 (b.copy toRead).2 := by
  have hchunk : (a.copy toRead).1 = (b.copy toRead).1 := by
    simp only [DecodedBlock.copy, h.buffer, h.offset]
  refine ⟨hchunk, h.buffer, ?_, h.isKeyBlock, h.hasParent, fun hkey => ?_⟩
  · simp only [DecodedBlock.copy, h.buffer, h.offset]
  · rw [h.keyBlock hkey]

section Fetch

variable (h : Agree bf₁ bf₂ inv₁ inv₂) {role : StoreRole} {index : H} {parent : Option DecodedBlock}
  {block₁ block₂ block₁' block₂' : DecodedBlock} {status₁ status₂ : Status} {s₁ s₁' : ReadState σ}
  {s₂ s₂' : ReadState τ}

private theorem decodeHeader_lockstep (a b : DecodedBlock) (hbuffer : a.buffer = b.buffer)
    (hkey : a.isKeyBlock = b.isKeyBlock) :
    (Fails (chopDecodedBlockDecodeHeader a).1 ∧ Fails (chopDecodedBlockDecodeHeader b).1) ∨
      (chopDecodedBlockDecodeHeader a).1 = .ok () ∧ (chopDecodedBlockDecodeHeader b).1 = .ok () ∧
        ∀ hasParent, { (chopDecodedBlockDecodeHeader a).2 with hasParent } =
          { (chopDecodedBlockDecodeHeader b).2 with hasParent } := by
  have hfails : Fails (.error .indexerError) := ⟨_, rfl, by decide⟩
  obtain ⟨buffer, offset₁, isKeyBlock, depth₁, keyCount₁, child₁, hasParent₁⟩ := a
  obtain ⟨_, offset₂, _, depth₂, keyCount₂, child₂, hasParent₂⟩ := b
  cases hbuffer
  cases hkey
  simp only [chopDecodedBlockDecodeHeader]
  split
  · split
    · exact .inl ⟨hfails, hfails⟩
    · exact .inr ⟨rfl, rfl, fun _ => rfl⟩
  · exact .inl ⟨hfails, hfails⟩

include h

/-- Two fetches of a handle, whatever the memory that they use. -/
theorem chopDecodedBlockFetch_lockstep (hs₁ : inv₁ s₁) (hs₂ : inv₂ s₂)
    (hrun₁ : chopDecodedBlockFetch bf₁ role index parent block₁ s₁ = (status₁, block₁', s₁'))
    (hrun₂ : chopDecodedBlockFetch bf₂ role index parent block₂ s₂ = (status₂, block₂', s₂')) :
    Fails status₁ ∨ Fails status₂ ∨ status₁ = .ok () ∧ status₂ = .ok () ∧ SameBlock block₁' block₂' ∧
      (block₁ = block₂ → block₁' = block₂') := by
  rw [chopDecodedBlockFetch] at hrun₁ hrun₂
  cases hfetch₁ : bf₁.fetch role index s₁.world with
  | mk answer₁ w₁ =>
    rw [hfetch₁] at hrun₁
    cases answer₁ with
    | error failure =>
      obtain ⟨err, left⟩ := failure
      cases hrun₁
      refine .inl ⟨err, rfl, ?_⟩
      rintro rfl
      exact h.fetch_error₁ hs₁ hfetch₁
    | ok bytes₁ =>
      cases hfetch₂ : bf₂.fetch role index s₂.world with
      | mk answer₂ w₂ =>
        rw [hfetch₂] at hrun₂
        cases answer₂ with
        | error failure =>
          obtain ⟨err, left⟩ := failure
          cases hrun₂
          refine .inr (.inl ⟨err, rfl, ?_⟩)
          rintro rfl
          exact h.fetch_error₂ hs₂ hfetch₂
        | ok bytes₂ =>
          obtain rfl := h.fetch hs₁ hs₂ hfetch₁ hfetch₂
          by_cases hkey : fetchedAsKeyBlock parent = true
          · simp only [hkey, if_true] at hrun₁ hrun₂
            have hheader := decodeHeader_lockstep
              { block₁ with buffer := bytes₁, isKeyBlock := true, offset := 0 }
              { block₂ with buffer := bytes₁, isKeyBlock := true, offset := 0 } rfl rfl
            cases hrun₁
            cases hrun₂
            rcases hheader with ⟨hfails, -⟩ | ⟨hok₁, hok₂, hsame⟩
            · exact .inl hfails
            · refine .inr (.inr ⟨hok₁, hok₂, ?_, fun _ => hsame _⟩)
              have hequal := hsame parent.isSome
              dsimp only at hequal ⊢
              rw [hequal]
              exact .refl _
          · rw [Bool.not_eq_true] at hkey
            simp only [hkey, Bool.false_eq_true, if_false] at hrun₁ hrun₂
            cases hrun₁
            cases hrun₂
            refine .inr (.inr ⟨rfl, rfl, ⟨rfl, rfl, rfl, rfl, fun hkey => by cases hkey⟩, ?_⟩)
            rintro rfl
            rfl

end Fetch

section NextChild

/-- What holds of two children holds of what is fetched in their place. -/
def KeptByFetch (K : Option DecodedBlock → Option DecodedBlock → Prop) : Prop :=
  ∀ {child₁ child₂ block₁ block₂}, K child₁ child₂ → SameBlock block₁ block₂ →
    ((∃ child, child₁ = some child ∧ child₂ = some child) → block₁ = block₂) →
      K (some block₁) (some block₂)

def EqualChildren (child₁ child₂ : Option DecodedBlock) : Prop :=
  ∃ child, child₁ = some child ∧ child₂ = some child

def SameChildren (child₁ child₂ : Option DecodedBlock) : Prop :=
  (child₁ = none ∧ child₂ = none) ∨ ∃ a b, child₁ = some a ∧ child₂ = some b ∧ SameBlock a b

theorem equalChildren_keptByFetch : KeptByFetch EqualChildren := by
  intro child₁ child₂ block₁ block₂ hchildren _ hequal
  rw [hequal hchildren]
  exact ⟨block₂, rfl, rfl⟩

theorem sameChildren_keptByFetch : KeptByFetch SameChildren := by
  intro child₁ child₂ block₁ block₂ _ hsame _
  exact .inr ⟨block₁, block₂, rfl, rfl, hsame⟩

structure SameNext (K : Option DecodedBlock → Option DecodedBlock → Prop) (r₁ : NextChild σ)
    (r₂ : NextChild τ) : Prop where
  status : r₁.status = r₂.status
  block : r₁.block = r₂.block
  parents : r₁.parents = r₂.parents
  child : K r₁.child r₂.child

variable (h : Agree bf₁ bf₂ inv₁ inv₂) {K : Option DecodedBlock → Option DecodedBlock → Prop}
  {s₁ : ReadState σ} {s₂ : ReadState τ} {child₁ child₂ : Option DecodedBlock}

include h

theorem fetchNextChild_lockstep (hK : KeptByFetch K) (block : DecodedBlock) (parents : List DecodedBlock)
    (hs₁ : inv₁ s₁) (hs₂ : inv₂ s₂) (hchild : K child₁ child₂) :
    Fails (fetchNextChild bf₁ block parents child₁ s₁).status ∨
      Fails (fetchNextChild bf₂ block parents child₂ s₂).status ∨
      SameNext K (fetchNextChild bf₁ block parents child₁ s₁)
        (fetchNextChild bf₂ block parents child₂ s₂) := by
  rw [fetchNextChild, fetchNextChild, ← h.deserialize]
  cases hread : bf₁.deserialize (block.buffer.drop block.offset) with
  | error err =>
    refine .inl ⟨err, rfl, ?_⟩
    rintro rfl
    exact h.deserialize_error _ hread
  | ok read =>
    obtain ⟨index, serializedSize⟩ := read
    dsimp only
    generalize hfetch₁ : chopDecodedBlockFetch bf₁ _ index _ _ s₁ = fetched₁
    generalize hfetch₂ : chopDecodedBlockFetch bf₂ _ index _ _ s₂ = fetched₂
    obtain ⟨status₁, block₁, s₁'⟩ := fetched₁
    obtain ⟨status₂, block₂, s₂'⟩ := fetched₂
    rcases chopDecodedBlockFetch_lockstep h hs₁ hs₂ hfetch₁ hfetch₂ with
      ⟨err, rfl, herr⟩ | ⟨err, rfl, herr⟩ | ⟨rfl, rfl, hsame, hequal⟩
    · exact .inl ⟨err, rfl, herr⟩
    · exact .inr (.inl ⟨err, rfl, herr⟩)
    · refine .inr (.inr ⟨rfl, rfl, rfl, hK hchild hsame ?_⟩)
      rintro ⟨child, rfl, rfl⟩
      exact hequal rfl

/-- By induction on the fuel.  Where the parent gives the block anew, both readers have reused the same
memory for it. -/
theorem chopDecodedBlockNextChild_lockstep (hK : KeptByFetch K) (fuel : Nat) (block : DecodedBlock)
    (parents : List DecodedBlock) (hs₁ : inv₁ s₁) (hs₂ : inv₂ s₂) (hchild : K child₁ child₂)
    {r₁ : NextChild σ} {r₂ : NextChild τ}
    (hrun₁ : chopDecodedBlockNextChild bf₁ fuel block parents child₁ s₁ = .done r₁)
    (hrun₂ : chopDecodedBlockNextChild bf₂ fuel block parents child₂ s₂ = .done r₂) :
    Fails r₁.status ∨ Fails r₂.status ∨ SameNext K r₁ r₂ := by
  induction fuel generalizing K block parents child₁ child₂ s₁ s₂ r₁ r₂ with
  | zero => cases hrun₁
  | succ fuel ih =>
    unfold chopDecodedBlockNextChild at hrun₁ hrun₂
    by_cases hread : block.currentChildNumber ≥ block.keyCount ∨ block.offset ≥ block.buffer.length
    · rw [if_pos hread] at hrun₁ hrun₂
      by_cases htop : (!block.hasParent) = true
      · rw [if_pos htop] at hrun₁ hrun₂
        cases hrun₁
        cases hrun₂
        exact .inr (.inr ⟨rfl, rfl, rfl, hchild⟩)
      · rw [if_neg htop] at hrun₁ hrun₂
        cases parents with
        | nil => cases hrun₁
        | cons parent grandparents =>
          obtain ⟨above₁, habove₁, hrun₁⟩ := Outcome.bind_eq_done.mp hrun₁
          obtain ⟨above₂, habove₂, hrun₂⟩ := Outcome.bind_eq_done.mp hrun₂
          have hs₁' := chopDecodedBlockNextChild_preserves h.preserves₁ habove₁ hs₁
          have hs₂' := chopDecodedBlockNextChild_preserves h.preserves₂ habove₂ hs₂
          rcases ih equalChildren_keptByFetch parent grandparents hs₁ hs₂ ⟨block, rfl, rfl⟩ habove₁ habove₂
            with ⟨err, hstatus, herr⟩ | ⟨err, hstatus, herr⟩ | habove
          · simp only [hstatus] at hrun₁
            cases hrun₁
            exact .inl ⟨err, rfl, herr⟩
          · simp only [hstatus] at hrun₂
            cases hrun₂
            exact .inr (.inl ⟨err, rfl, herr⟩)
          · obtain ⟨again, hagain₁, hagain₂⟩ := habove.child
            simp only [hagain₁, Option.getD_some] at hrun₁
            simp only [hagain₂, Option.getD_some] at hrun₂
            have hstatus := habove.status
            cases hstatus₁ : above₁.status with
            | error err =>
              rw [hstatus₁] at hrun₁ hstatus
              rw [← hstatus] at hrun₂
              cases hrun₁
              cases hrun₂
              refine .inr (.inr ⟨rfl, rfl, ?_, hchild⟩)
              rw [habove.block, habove.parents]
            | ok u =>
              rw [hstatus₁] at hrun₁ hstatus
              rw [← hstatus, ← habove.block, ← habove.parents] at hrun₂
              exact ih hK again _ hs₁' hs₂' hchild hrun₁ hrun₂
    · rw [if_neg hread] at hrun₁ hrun₂
      cases hrun₁
      cases hrun₂
      exact fetchNextChild_lockstep h hK block parents hs₁ hs₂ hchild

end NextChild

section Read

structure SameRead (r₁ : ReadResult σ) (r₂ : ReadResult τ) : Prop where
  status : r₁.status = r₂.status
  bytes : r₁.bytes = r₂.bytes
  chain : List.Forall₂ SameBlock r₁.chain r₂.chain

theorem sameBlocks_refl (blocks : List DecodedBlock) : List.Forall₂ SameBlock blocks blocks :=
  List.forall₂_same.mpr fun block _ => .refl block

inductive SameRefill : Except (ReadResult σ) (DecodedBlock × List DecodedBlock × ReadState σ) →
    Except (ReadResult τ) (DecodedBlock × List DecodedBlock × ReadState τ) → Prop where
  | ended {r₁ : ReadResult σ} {r₂ : ReadResult τ} : SameRead r₁ r₂ → SameRefill (.error r₁) (.error r₂)
  | refilled {block₁ block₂ : DecodedBlock} {parents : List DecodedBlock} {s₁ : ReadState σ}
      {s₂ : ReadState τ} : SameBlock block₁ block₂ →
    SameRefill (.ok (block₁, parents, s₁)) (.ok (block₂, parents, s₂))

def RefillFails {α : Type} (result : Except (ReadResult σ) α) : Prop :=
  ∃ r, result = .error r ∧ Fails r.status

theorem sameChildren_some {child₁ child₂ : Option DecodedBlock} {a b : DecodedBlock}
    (hblock : SameBlock a b) (h : SameChildren child₁ child₂) :
    SameBlock (child₁.getD a) (child₂.getD b) := by
  rcases h with ⟨rfl, rfl⟩ | ⟨a', b', rfl, rfl, hsame⟩
  · exact hblock
  · exact hsame

theorem SameChildren.toList {child₁ child₂ : Option DecodedBlock} (h : SameChildren child₁ child₂) :
    List.Forall₂ SameBlock child₁.toList child₂.toList := by
  rcases h with ⟨rfl, rfl⟩ | ⟨a, b, rfl, rfl, hsame⟩
  · exact .nil
  · exact .cons hsame .nil

/-- The chains of two readers, from the top down. -/
theorem sameBlocks_chain (parents : List DecodedBlock) {block₁ block₂ : DecodedBlock}
    (hblock : SameBlock block₁ block₂) {below₁ below₂ : List DecodedBlock}
    (hbelow : List.Forall₂ SameBlock below₁ below₂) :
    List.Forall₂ SameBlock (parents.reverse ++ block₁ :: below₁) (parents.reverse ++ block₂ :: below₂) :=
  List.rel_append (sameBlocks_refl _) (.cons hblock hbelow)

variable (h : Agree bf₁ bf₂ inv₁ inv₂) {s₁ : ReadState σ} {s₂ : ReadState τ}
  {below₁ below₂ : List DecodedBlock} (hbelow : List.Forall₂ SameBlock below₁ below₂)

include h hbelow

theorem chopDecodedBlockRefill_lockstep (size fuel : Nat) {block₁ block₂ : DecodedBlock}
    (hblock : SameBlock block₁ block₂) (parents : List DecodedBlock) (out : Bytes) (hs₁ : inv₁ s₁)
    (hs₂ : inv₂ s₂)
    {result₁ : Except (ReadResult σ) (DecodedBlock × List DecodedBlock × ReadState σ)}
    {result₂ : Except (ReadResult τ) (DecodedBlock × List DecodedBlock × ReadState τ)}
    (hrun₁ : chopDecodedBlockRefill bf₁ size below₁ fuel block₁ parents out s₁ = .done result₁)
    (hrun₂ : chopDecodedBlockRefill bf₂ size below₂ fuel block₂ parents out s₂ = .done result₂) :
    RefillFails result₁ ∨ RefillFails result₂ ∨ SameRefill result₁ result₂ := by
  unfold chopDecodedBlockRefill at hrun₁ hrun₂
  rw [← hblock.offset, ← hblock.buffer] at hrun₂
  by_cases hread : block₁.offset ≥ block₁.buffer.length
  · rw [if_pos hread] at hrun₁ hrun₂
    cases parents with
    | nil => cases hrun₁
    | cons parent grandparents =>
      obtain ⟨next₁, hnext₁, hrun₁⟩ := Outcome.bind_eq_done.mp hrun₁
      obtain ⟨next₂, hnext₂, hrun₂⟩ := Outcome.bind_eq_done.mp hrun₂
      rcases chopDecodedBlockNextChild_lockstep h sameChildren_keptByFetch fuel parent grandparents hs₁ hs₂
          (.inr ⟨block₁, block₂, rfl, rfl, hblock⟩) hnext₁ hnext₂ with
        ⟨err, hstatus, herr⟩ | ⟨err, hstatus, herr⟩ | hnext
      · simp only [hstatus, herr, false_and, if_false] at hrun₁
        cases hrun₁
        exact .inl ⟨_, rfl, err, rfl, herr⟩
      · simp only [hstatus, herr, false_and, if_false] at hrun₂
        cases hrun₂
        exact .inr (.inl ⟨_, rfl, err, rfl, herr⟩)
      · have hchild := sameChildren_some hblock hnext.child
        have hstatus := hnext.status
        have hchain := sameBlocks_chain (next₁.block :: next₁.parents) hchild hbelow
        cases hstatus₁ : next₁.status with
        | ok u =>
          rw [hstatus₁] at hstatus
          simp only [hstatus₁] at hrun₁
          simp only [← hstatus, ← hnext.block, ← hnext.parents] at hrun₂
          cases hrun₁
          cases hrun₂
          exact .inr (.inr (.refilled hchild))
        | error err =>
          rw [hstatus₁] at hstatus
          simp only [hstatus₁] at hrun₁
          simp only [← hstatus, ← hnext.block, ← hnext.parents] at hrun₂
          by_cases hpartial : err = .streamEnd ∧ out.length ≠ 0
          · rw [if_pos hpartial] at hrun₁ hrun₂
            obtain ⟨-, -, hrun₁⟩ := Outcome.bind_eq_done.mp hrun₁
            obtain ⟨-, -, hrun₂⟩ := Outcome.bind_eq_done.mp hrun₂
            cases hrun₁
            cases hrun₂
            obtain ⟨hchunk, hcopied⟩ := hchild.copy (size - out.length)
            refine .inr (.inr (.ended ⟨rfl, congrArg (out ++ ·) hchunk, ?_⟩))
            exact sameBlocks_chain (next₁.block :: next₁.parents) hcopied hbelow
          · rw [if_neg hpartial] at hrun₁ hrun₂
            cases hrun₁
            cases hrun₂
            exact .inr (.inr (.ended ⟨rfl, rfl, hchain⟩))
  · rw [if_neg hread] at hrun₁ hrun₂
    cases hrun₁
    cases hrun₂
    exact .inr (.inr (.refilled hblock))

theorem chopDecodedBlockReadData_lockstep (size fuel : Nat) {block₁ block₂ : DecodedBlock}
    (hblock : SameBlock block₁ block₂) (parents : List DecodedBlock) (out : Bytes) (hs₁ : inv₁ s₁)
    (hs₂ : inv₂ s₂) {r₁ : ReadResult σ} {r₂ : ReadResult τ}
    (hrun₁ : chopDecodedBlockReadData bf₁ size below₁ fuel block₁ parents out s₁ = .done r₁)
    (hrun₂ : chopDecodedBlockReadData bf₂ size below₂ fuel block₂ parents out s₂ = .done r₂) :
    Fails r₁.status ∨ Fails r₂.status ∨ SameRead r₁ r₂ := by
  induction fuel generalizing block₁ block₂ parents out s₁ s₂ with
  | zero => cases hrun₁
  | succ fuel ih =>
    rw [chopDecodedBlockReadData] at hrun₁ hrun₂
    by_cases hroom : out.length < size
    · rw [if_pos hroom] at hrun₁ hrun₂
      obtain ⟨result₁, hrefill₁, hrun₁⟩ := Outcome.bind_eq_done.mp hrun₁
      obtain ⟨result₂, hrefill₂, hrun₂⟩ := Outcome.bind_eq_done.mp hrun₂
      have hs₁' := chopDecodedBlockRefill_preserves h.preserves₁ hrefill₁ hs₁
      have hs₂' := chopDecodedBlockRefill_preserves h.preserves₂ hrefill₂ hs₂
      rcases chopDecodedBlockRefill_lockstep h hbelow size fuel hblock parents out hs₁ hs₂ hrefill₁
          hrefill₂ with ⟨r, rfl, hfails⟩ | ⟨r, rfl, hfails⟩ | hsame
      · cases hrun₁
        exact .inl hfails
      · cases hrun₂
        exact .inr (.inl hfails)
      · cases hsame with
        | ended hread =>
          cases hrun₁
          cases hrun₂
          exact .inr (.inr hread)
        | refilled hrefilled =>
          obtain ⟨hchunk, hcopied⟩ := hrefilled.copy (size - out.length)
          dsimp only at hrun₁ hrun₂
          rw [← hchunk] at hrun₂
          exact ih hcopied _ _ hs₁' hs₂' hrun₁ hrun₂
    · rw [if_neg hroom] at hrun₁ hrun₂
      cases hrun₁
      cases hrun₂
      exact .inr (.inr ⟨rfl, rfl, sameBlocks_chain parents hblock hbelow⟩)

theorem chopDecodedBlockRead_lockstep (size fuel : Nat) {block₁ block₂ : DecodedBlock}
    (hblock : SameBlock block₁ block₂) (parents : List DecodedBlock) (hs₁ : inv₁ s₁) (hs₂ : inv₂ s₂)
    {r₁ : ReadResult σ} {r₂ : ReadResult τ}
    (hrun₁ : chopDecodedBlockRead bf₁ size fuel block₁ parents below₁ s₁ = .done r₁)
    (hrun₂ : chopDecodedBlockRead bf₂ size fuel block₂ parents below₂ s₂ = .done r₂) :
    Fails r₁.status ∨ Fails r₂.status ∨ SameRead r₁ r₂ := by
  induction fuel generalizing block₁ block₂ parents below₁ below₂ s₁ s₂ with
  | zero => cases hrun₁
  | succ fuel ih =>
    unfold chopDecodedBlockRead at hrun₁ hrun₂
    rw [← hblock.isKeyBlock] at hrun₂
    by_cases hkey : block₁.isKeyBlock = true
    · obtain rfl := hblock.keyBlock hkey
      rw [if_pos hkey] at hrun₁ hrun₂
      cases hbelow with
      | cons hchild hrest => exact ih hrest hchild _ hs₁ hs₂ hrun₁ hrun₂
      | nil =>
        obtain ⟨next₁, hnext₁, hrun₁⟩ := Outcome.bind_eq_done.mp hrun₁
        obtain ⟨next₂, hnext₂, hrun₂⟩ := Outcome.bind_eq_done.mp hrun₂
        have hs₁' := chopDecodedBlockNextChild_preserves h.preserves₁ hnext₁ hs₁
        have hs₂' := chopDecodedBlockNextChild_preserves h.preserves₂ hnext₂ hs₂
        rcases chopDecodedBlockNextChild_lockstep h sameChildren_keptByFetch fuel block₁ parents hs₁ hs₂
            (.inl ⟨rfl, rfl⟩) hnext₁ hnext₂ with
          ⟨err, hstatus, herr⟩ | ⟨err, hstatus, herr⟩ | hnext
        · simp only [hstatus] at hrun₁
          cases hrun₁
          exact .inl ⟨err, rfl, herr⟩
        · simp only [hstatus] at hrun₂
          cases hrun₂
          exact .inr (.inl ⟨err, rfl, herr⟩)
        · have hstatus := hnext.status
          cases hstatus₁ : next₁.status with
          | error err =>
            rw [hstatus₁] at hstatus
            simp only [hstatus₁] at hrun₁
            simp only [← hstatus, ← hnext.block, ← hnext.parents] at hrun₂
            cases hrun₁
            cases hrun₂
            refine .inr (.inr ⟨rfl, rfl, ?_⟩)
            exact sameBlocks_chain next₁.parents (.refl _) hnext.child.toList
          | ok u =>
            rw [hstatus₁] at hstatus
            rcases hnext.child with ⟨hchild₁, -⟩ | ⟨a, b, hchild₁, hchild₂, hsame⟩
            · simp only [hstatus₁, hchild₁] at hrun₁
              cases hrun₁
            · simp only [hstatus₁, hchild₁] at hrun₁
              simp only [← hstatus, ← hnext.block, ← hnext.parents, hchild₂] at hrun₂
              exact ih .nil hsame _ hs₁' hs₂' hrun₁ hrun₂
    · rw [if_neg hkey] at hrun₁ hrun₂
      obtain ⟨-, -, hrun₁⟩ := Outcome.bind_eq_done.mp hrun₁
      obtain ⟨-, -, hrun₂⟩ := Outcome.bind_eq_done.mp hrun₂
      exact chopDecodedBlockReadData_lockstep h hbelow size fuel hblock parents [] hs₁ hs₂ hrun₁ hrun₂

end Read

section Stream

variable (h : Agree bf₁ bf₂ inv₁ inv₂) {s₁ s₁' : ReadState σ} {s₂ s₂' : ReadState τ}

include h

/-- Reads of two streams of one handle. -/
theorem treeStreamRead_lockstep {fuel size : Nat} {tree₁ tree₁' tree₂ tree₂' : DecodedBlockTree H}
    {status₁ status₂ : Status} {bytes₁ bytes₂ : Bytes} (hindex : tree₁.index = tree₂.index)
    (hchain : List.Forall₂ SameBlock tree₁.chain tree₂.chain) (hs₁ : inv₁ s₁) (hs₂ : inv₂ s₂)
    (hrun₁ : treeStreamRead bf₁ fuel tree₁ size s₁ = .done (status₁, bytes₁, tree₁', s₁'))
    (hrun₂ : treeStreamRead bf₂ fuel tree₂ size s₂ = .done (status₂, bytes₂, tree₂', s₂')) :
    Fails status₁ ∨ Fails status₂ ∨ status₁ = status₂ ∧ bytes₁ = bytes₂ ∧
      tree₁'.index = tree₂'.index ∧ List.Forall₂ SameBlock tree₁'.chain tree₂'.chain := by
  obtain ⟨index, chain₁, offset₁⟩ := tree₁
  obtain ⟨_, chain₂, offset₂⟩ := tree₂
  cases hindex
  unfold treeStreamRead at hrun₁ hrun₂
  cases hchain with
  | cons htop hbelow =>
    obtain ⟨r₁, hread₁, hrun₁⟩ := Outcome.bind_eq_done.mp hrun₁
    obtain ⟨r₂, hread₂, hrun₂⟩ := Outcome.bind_eq_done.mp hrun₂
    cases hrun₁
    cases hrun₂
    exact (chopDecodedBlockRead_lockstep h hbelow size fuel htop [] hs₁ hs₂ hread₁ hread₂).imp_right
      (Or.imp_right fun hsame => ⟨hsame.status, hsame.bytes, rfl, hsame.chain⟩)
  | nil =>
    dsimp only at hrun₁ hrun₂
    generalize hfetch₁ : chopDecodedBlockFetch bf₁ .metadata index none _ s₁ = fetched₁ at hrun₁
    generalize hfetch₂ : chopDecodedBlockFetch bf₂ .metadata index none _ s₂ = fetched₂ at hrun₂
    obtain ⟨status₁, top₁, s₁''⟩ := fetched₁
    obtain ⟨status₂, top₂, s₂''⟩ := fetched₂
    have hs₁'' := chopDecodedBlockFetch_preserves h.preserves₁ hfetch₁ hs₁
    have hs₂'' := chopDecodedBlockFetch_preserves h.preserves₂ hfetch₂ hs₂
    rcases chopDecodedBlockFetch_lockstep h hs₁ hs₂ hfetch₁ hfetch₂ with
      ⟨err, rfl, herr⟩ | ⟨err, rfl, herr⟩ | ⟨rfl, rfl, htop, -⟩
    · cases hrun₁
      exact .inl ⟨err, rfl, herr⟩
    · cases hrun₂
      exact .inr (.inl ⟨err, rfl, herr⟩)
    · obtain ⟨r₁, hread₁, hrun₁⟩ := Outcome.bind_eq_done.mp hrun₁
      obtain ⟨r₂, hread₂, hrun₂⟩ := Outcome.bind_eq_done.mp hrun₂
      cases hrun₁
      cases hrun₂
      exact (chopDecodedBlockRead_lockstep h .nil size fuel htop [] hs₁'' hs₂'' hread₁ hread₂).imp_right
        (Or.imp_right fun hsame => ⟨hsame.status, hsame.bytes, rfl, hsame.chain⟩)

end Stream

end Libchop
