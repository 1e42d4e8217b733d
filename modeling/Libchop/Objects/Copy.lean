import Libchop.Indexer.HandleSize
import Libchop.Objects.Lifecycle
import Mathlib.Logic.Nontrivial.Defs

/-!
# The copying of objects

`chop_object_copy` calls the copy methods of the ancestors of a class, and then the one of the class.  A class
without a copy method has the rest of its instances copied cell by cell, from the end of the last ancestor with
a copy method on.
-/

namespace Libchop

/-- The fields of an object and of those it is derived from, one after the other. -/
abbrev Cells (β : Type) := Nat → β

section Model

variable {K β : Type} [DecidableEq K] (records : ClassRecords K (Cells β))

/-- `memcpy` of the cells from `start` up to `stop`. -/
def memcpyCells (start stop : Nat) (source dest : Cells β) : Cells β := fun i =>
  if start ≤ i ∧ i < stop then source i else dest i

/-- The loop over the ancestors, from the root on, with `last_size_copied`. -/
def copyAncestors (source : Cells β) : List K → Cells β → Nat → Status × Cells β × Nat
  | [], dest, lastSizeCopied => (.ok (), dest, lastSizeCopied)
  | parent :: rest, dest, lastSizeCopied =>
    match records.copy parent with
    | none => copyAncestors source rest dest lastSizeCopied
    | some copy =>
      match copy source dest with
      | (.error err, dest) => (.error err, dest, lastSizeCopied)
      | (.ok _, dest) => copyAncestors source rest dest (records.instanceSize parent)

/-- `chop_object_copy`, for any class.  The copy method of the class itself may fail without notice. -/
def ClassRecords.chopObjectCopy (fuel : Nat) (source dest : Cells β) (klass : K) : Outcome (Status × Cells β) :=
  collectParents records.toClassTable fuel (records.parent klass) [] >>= fun parents =>
    match copyAncestors records source parents.reverse dest 0 with
    | (.error err, dest, _) => .done (.error err, dest)
    | (.ok _, dest, lastSizeCopied) =>
      match records.copy klass with
      | some copy => .done (.ok (), (copy source dest).2)
      | none =>
        Outcome.assert (lastSizeCopied ≤ records.instanceSize klass) >>= fun _ =>
          .done (.ok (), memcpyCells lastSizeCopied (records.instanceSize klass) source dest)

/-- A copy method that succeeds on an object.  Some cells of the copy are given by the object, and the others
are left as they are. -/
structure Fills (copy : Cells β → Cells β → Status × Cells β) (cells : Nat → Prop) (source : Cells β) :
    Prop where
  ok : ∀ dest, (copy source dest).1 = .ok ()
  filled : ∀ dest dest' i, cells i → (copy source dest).2 i = (copy source dest').2 i
  kept : ∀ dest i, ¬ cells i → (copy source dest).2 i = dest i

/-- Wherever it is made, a copy of the object is the same. -/
def CopiesWhole (source : Cells β) (klass : K) : Prop :=
  ∀ dest dest', ∃ copied copied',
    Outcome.Settles (fun fuel => records.chopObjectCopy fuel source dest klass) (.ok (), copied) ∧
    Outcome.Settles (fun fuel => records.chopObjectCopy fuel source dest' klass) (.ok (), copied') ∧
    ∀ i < records.instanceSize klass, copied i = copied' i

/-- Some of the classes have a copy method that fills the cell. -/
def FilledBy (cells : K → Nat → Prop) (chain : List K) (i : Nat) : Prop :=
  ∃ k ∈ chain, (records.copy k).isSome ∧ cells k i

/-- A cell that is filled by some copy method, or copied by `memcpy`: the class has no copy method, and no
ancestor with one ends behind the cell. -/
def CopiedCell (cells : K → Nat → Prop) (klass : K) (chain : List K) (i : Nat) : Prop :=
  FilledBy records cells chain i ∨
    records.copy klass = none ∧ ∀ k ∈ chain.tail, (records.copy k).isSome → records.instanceSize k ≤ i

/-- The end of the last of the classes with a copy method. -/
def lastCopied (ancestors : List K) (lastSizeCopied : Nat) : Nat :=
  ancestors.foldl (fun size k => if (records.copy k).isSome then records.instanceSize k else size)
    lastSizeCopied

end Model

section Copying

variable {K β : Type} {records : ClassRecords K (Cells β)} {cells : K → Nat → Prop} {source : Cells β}

/-- What the loop over the ancestors comes to, for two places to copy to. -/
theorem copyAncestors_spec {ancestors : List K}
    (hfills : ∀ k ∈ ancestors, ∀ copy, records.copy k = some copy → Fills copy (cells k) source)
    (dest dest' : Cells β) (size : Nat) :
    ∃ copied copied', copyAncestors records source ancestors dest size =
        (.ok (), copied, lastCopied records ancestors size) ∧
      copyAncestors records source ancestors dest' size =
        (.ok (), copied', lastCopied records ancestors size) ∧
      (∀ i, FilledBy records cells ancestors i ∨ dest i = dest' i → copied i = copied' i) ∧
      ∀ i, ¬ FilledBy records cells ancestors i → copied i = dest i ∧ copied' i = dest' i := by
  induction ancestors generalizing dest dest' size with
  | nil =>
    refine ⟨dest, dest', rfl, rfl, ?_, fun i _ => ⟨rfl, rfl⟩⟩
    rintro i (⟨k, hk, -⟩ | heq)
    · cases hk
    · exact heq
  | cons parent rest ih =>
    have hrest : ∀ k ∈ rest, ∀ copy, records.copy k = some copy → Fills copy (cells k) source :=
      fun k hk => hfills k (List.mem_cons_of_mem _ hk)
    cases hcopy : records.copy parent with
    | none =>
      have hskip : ∀ i, FilledBy records cells (parent :: rest) i ↔ FilledBy records cells rest i := by
        intro i
        simp [FilledBy, hcopy]
      have hlast : lastCopied records (parent :: rest) size = lastCopied records rest size := by
        simp [lastCopied, hcopy]
      simp only [copyAncestors, hcopy, hskip, hlast]
      exact ih hrest dest dest' size
    | some copy =>
      have hfill := hfills parent List.mem_cons_self copy hcopy
      have hlast : lastCopied records (parent :: rest) size =
          lastCopied records rest (records.instanceSize parent) := by
        simp [lastCopied, hcopy]
      have hfilled : ∀ i, FilledBy records cells (parent :: rest) i ↔
          cells parent i ∨ FilledBy records cells rest i := by
        intro i
        simp [FilledBy, hcopy]
      obtain ⟨copied, copied', hrun, hrun', hsame, hkept⟩ :=
        ih hrest (copy source dest).2 (copy source dest').2 (records.instanceSize parent)
      have hstep : ∀ dest, copyAncestors records source (parent :: rest) dest size =
          copyAncestors records source rest (copy source dest).2 (records.instanceSize parent) := by
        intro dest
        have hok := hfill.ok dest
        rw [copyAncestors, hcopy]
        dsimp only
        generalize copy source dest = run at hok ⊢
        obtain ⟨status, after⟩ := run
        cases hok
        rfl
      refine ⟨copied, copied', ?_, ?_, ?_, ?_⟩
      · rw [hstep, hrun, hlast]
      · rw [hstep, hrun', hlast]
      · intro i hi
        apply hsame
        rw [hfilled] at hi
        by_cases hcell : cells parent i
        · exact .inr (hfill.filled dest dest' i hcell)
        · refine (hi.imp_left fun h => h.resolve_left hcell).imp_right fun heq => ?_
          rw [hfill.kept dest i hcell, hfill.kept dest' i hcell, heq]
      · intro i hi
        rw [hfilled, not_or] at hi
        obtain ⟨hkeep, hkeep'⟩ := hkept i hi.2
        exact ⟨hkeep.trans (hfill.kept dest i hi.1), hkeep'.trans (hfill.kept dest' i hi.1)⟩

/-- Sizes grow from the root on, so that the last ancestor with a copy method is the one that ends last. -/
theorem lastCopied_le_iff {ancestors : List K}
    (hsizes : ancestors.Pairwise fun k k' => records.instanceSize k ≤ records.instanceSize k') {size i : Nat}
    (hsize : ∀ k ∈ ancestors, size ≤ records.instanceSize k) :
    lastCopied records ancestors size ≤ i ↔
      size ≤ i ∧ ∀ k ∈ ancestors, (records.copy k).isSome → records.instanceSize k ≤ i := by
  induction ancestors generalizing size with
  | nil => simp [lastCopied]
  | cons parent rest ih =>
    obtain ⟨hparent, hrest⟩ := List.pairwise_cons.mp hsizes
    have hlast : lastCopied records (parent :: rest) size = lastCopied records rest
        (if (records.copy parent).isSome then records.instanceSize parent else size) := rfl
    have hsmall := hsize parent List.mem_cons_self
    rw [hlast, List.forall_mem_cons]
    by_cases hcopy : (records.copy parent).isSome = true
    · rw [if_pos hcopy, ih hrest hparent]
      simp only [hcopy, forall_const]
      exact ⟨fun h => ⟨Nat.le_trans hsmall h.1, h⟩, fun h => h.2⟩
    · rw [if_neg hcopy, ih hrest fun k hk => hsize k (List.mem_cons_of_mem _ hk)]
      exact and_congr_right fun _ => (and_iff_right fun h => absurd h hcopy).symm

variable [DecidableEq K] {klass : K} {chain : List K}

/-- Two copies of an object agree on the cells that are copied, and are what they were before on the others. -/
theorem Lineage.copy (h : Lineage records.toClassTable klass chain) (hself : records.parent klass ≠ some klass)
    (hfits : chain.length ≤ 257)
    (hsizes : chain.Pairwise fun k ancestor => records.instanceSize ancestor ≤ records.instanceSize k)
    (hfills : ∀ k ∈ chain, ∀ copy, records.copy k = some copy → Fills copy (cells k) source)
    (dest dest' : Cells β) :
    ∃ copied copied',
      Outcome.Settles (fun fuel => records.chopObjectCopy fuel source dest klass) (.ok (), copied) ∧
      Outcome.Settles (fun fuel => records.chopObjectCopy fuel source dest' klass) (.ok (), copied') ∧
      ∀ i < records.instanceSize klass,
        (CopiedCell records cells klass chain i → copied i = copied' i) ∧
        (¬ CopiedCell records cells klass chain i → copied i = dest i ∧ copied' i = dest' i) := by
  have hchain := h.eq_cons
  have hparents : parentsOf records.toClassTable klass chain = chain.tail := if_neg hself
  have hcollect := h.collect_parentsOf.1 (by rw [hparents, List.length_tail]; omega)
  rw [hparents] at hcollect
  generalize chain.tail = ancestors at hchain hcollect
  subst hchain
  obtain ⟨hbelow, hsorted⟩ := List.pairwise_cons.mp hsizes
  have hancestors : ∀ k ∈ ancestors.reverse, ∀ copy, records.copy k = some copy → Fills copy (cells k) source :=
    fun k hk => hfills k (List.mem_cons_of_mem _ (List.mem_reverse.mp hk))
  obtain ⟨copied, copied', hrun, hrun', hsame, hkept⟩ := copyAncestors_spec hancestors dest dest' 0
  have hlast : ∀ i, lastCopied records ancestors.reverse 0 ≤ i ↔
      ∀ k ∈ ancestors, (records.copy k).isSome → records.instanceSize k ≤ i := by
    intro i
    rw [lastCopied_le_iff (List.pairwise_reverse.mpr hsorted) fun k _ => Nat.zero_le _]
    simp
  have hreverse : ∀ i, FilledBy records cells ancestors.reverse i ↔ FilledBy records cells ancestors i := by
    intro i
    simp [FilledBy]
  simp only [hreverse] at hsame hkept
  have hfilled : ∀ i, FilledBy records cells (klass :: ancestors) i ↔
      ((records.copy klass).isSome ∧ cells klass i) ∨ FilledBy records cells ancestors i := by
    intro i
    simp [FilledBy]
  cases hcopy : records.copy klass with
  | some copy =>
    have hfill := hfills klass List.mem_cons_self copy hcopy
    refine ⟨(copy source copied).2, (copy source copied').2, hcollect.bind (.of_eq fun _ => ?_),
      hcollect.bind (.of_eq fun _ => ?_), fun i _ => ?_⟩
    · rw [hrun, hcopy]
    · rw [hrun', hcopy]
    rw [CopiedCell, hfilled, hcopy]
    by_cases hcell : cells klass i
    · refine ⟨fun _ => hfill.filled copied copied' i hcell, fun hnot => ?_⟩
      exact absurd (.inl (.inl ⟨rfl, hcell⟩)) hnot
    · rw [hfill.kept copied i hcell, hfill.kept copied' i hcell]
      refine ⟨?_, fun hnot => hkept i fun hfilled => hnot (.inl (.inr hfilled))⟩
      rintro ((⟨-, hcell'⟩ | hfilled) | ⟨hnone, -⟩)
      · exact absurd hcell' hcell
      · exact hsame i (.inl hfilled)
      · cases hnone
  | none =>
    have hend : lastCopied records ancestors.reverse 0 ≤ records.instanceSize klass :=
      (hlast _).mpr fun k hk _ => hbelow k hk
    refine ⟨memcpyCells (lastCopied records ancestors.reverse 0) (records.instanceSize klass) source copied,
      memcpyCells (lastCopied records ancestors.reverse 0) (records.instanceSize klass) source copied',
      hcollect.bind (.of_eq fun _ => ?_), hcollect.bind (.of_eq fun _ => ?_), fun i hi => ?_⟩
    · rw [hrun, hcopy]
      dsimp only
      rw [Outcome.assert_of hend, Outcome.done_bind]
    · rw [hrun', hcopy]
      dsimp only
      rw [Outcome.assert_of hend, Outcome.done_bind]
    rw [CopiedCell, hfilled, hcopy, List.tail_cons, ← hlast, memcpyCells, memcpyCells]
    by_cases hcell : lastCopied records ancestors.reverse 0 ≤ i
    · rw [if_pos ⟨hcell, hi⟩, if_pos ⟨hcell, hi⟩]
      exact ⟨fun _ => rfl, fun hnot => absurd (.inr ⟨rfl, hcell⟩) hnot⟩
    · rw [if_neg fun hrange => hcell hrange.1, if_neg fun hrange => hcell hrange.1]
      refine ⟨?_, fun hnot => hkept i fun hfilled => hnot (.inl (.inr hfilled))⟩
      rintro ((⟨hsome, -⟩ | hfilled) | ⟨-, hcell'⟩)
      · cases hsome
      · exact hsame i (.inl hfilled)
      · exact absurd hcell' hcell

end Copying

/-- The fields of a class, at the ends of those of its ancestors, are copied as a whole if and only if each of
them is filled by some copy method, or else the class has no copy method and no ancestor with one ends behind
the field. -/
theorem chopObjectCopy_whole_iff {K β : Type} [DecidableEq K] [Nontrivial β]
    {records : ClassRecords K (Cells β)} {klass : K} {chain : List K}
    (h : Lineage records.toClassTable klass chain) (hself : records.parent klass ≠ some klass)
    (hfits : chain.length ≤ 257)
    (hsizes : chain.Pairwise fun k ancestor => records.instanceSize ancestor ≤ records.instanceSize k)
    {cells : K → Nat → Prop} {source : Cells β}
    (hfills : ∀ k ∈ chain, ∀ copy, records.copy k = some copy → Fills copy (cells k) source) :
    CopiesWhole records source klass ↔
      ∀ i < records.instanceSize klass, CopiedCell records cells klass chain i := by
  constructor
  · intro hwhole i hi
    by_contra hcell
    obtain ⟨a, b, hne⟩ := exists_pair_ne β
    obtain ⟨copied, copied', hrun, hrun', hcells⟩ :=
      h.copy hself hfits hsizes hfills (fun _ => a) fun _ => b
    obtain ⟨whole, whole', hwhole₁, hwhole₂, hsame⟩ := hwhole (fun _ => a) fun _ => b
    cases hwhole₁.unique hrun
    cases hwhole₂.unique hrun'
    obtain ⟨ha, hb⟩ := (hcells i hi).2 hcell
    have heq := hsame i hi
    rw [ha, hb] at heq
    exact hne heq
  · intro hcopied dest dest'
    obtain ⟨copied, copied', hrun, hrun', hcells⟩ := h.copy hself hfits hsizes hfills dest dest'
    exact ⟨copied, copied', hrun, hrun', fun i hi => (hcells i hi).1 (hcopied i hi)⟩

/-- The class of an index handle, or one that it is derived from. -/
inductive HandleKlass where
  | object
  | indexHandle
  | handle (handleClass : HandleClass)
deriving DecidableEq, Repr

/-- A field of a handle: `klass`, `size`, and those of its own class as one. -/
inductive HandleCell where
  | klass (handleClass : HandleClass)
  | size (size : Nat)
  | value (value : HandleValue)
deriving DecidableEq, Repr

instance : Nontrivial HandleCell := ⟨.size 0, .size 1, by decide⟩

def HandleObject.cells (object : HandleObject) : Cells HandleCell
  | 0 => .klass object.value.handleClass
  | 1 => .size object.size
  | _ => .value object.value

namespace HandleKlass

def parent : HandleKlass → Option HandleKlass
  | .object => none
  | .indexHandle => some .object
  | .handle _ => some .indexHandle

def fields : HandleKlass → Nat
  | .object => 1
  | .indexHandle => 2
  | .handle _ => 3

/-- The copy methods: `_object_primitive_copy`, `iih_copy`, and `uih_copy`, which assigns `size` as well. -/
def copy : HandleKlass → Option (Cells HandleCell → Cells HandleCell → Status × Cells HandleCell)
  | .object => some fun source dest => (.ok (), Function.update dest 0 (source 0))
  | .handle .integer => some fun source dest => (.ok (), Function.update dest 2 (source 2))
  | .handle .uuid => some fun source dest =>
    (.ok (), Function.update (Function.update dest 2 (source 2)) 1 (.size chopUuidSize))
  | .indexHandle | .handle .hash | .handle .chk => none

def copiedFields : HandleKlass → List Nat
  | .object => [0]
  | .handle .integer => [2]
  | .handle .uuid => [1, 2]
  | .indexHandle | .handle .hash | .handle .chk => []

def records : ClassRecords HandleKlass (Cells HandleCell) where
  parent := parent
  constructor _ := none
  destructor _ := none
  copy := copy
  instanceSize := fields

theorem lineage (handleClass : HandleClass) :
    Lineage records.toClassTable (.handle handleClass) [.handle handleClass, .indexHandle, .object] :=
  .child rfl nofun (.child rfl nofun (.root (.inl rfl)))

theorem fills (klass : HandleKlass) {copy : Cells HandleCell → Cells HandleCell → Status × Cells HandleCell}
    (h : records.copy klass = some copy) (source : Cells HandleCell) :
    Fills copy (fun i => i ∈ klass.copiedFields) source := by
  cases klass with
  | object =>
    cases h
    constructor <;> simp +contextual [copiedFields]
  | indexHandle => cases h
  | handle handleClass =>
    cases handleClass with
    | hash => cases h
    | chk => cases h
    | integer =>
      cases h
      constructor <;> simp +contextual [copiedFields]
    | uuid =>
      cases h
      constructor <;> simp +contextual [copiedFields, Function.update_apply]

end HandleKlass

/-- A copy of a hash index handle is whole, and in one of an integer index handle the size is left as it was. -/
theorem integerIndexHandle_not_whole :
    CopiesWhole HandleKlass.records (HandleObject.cells ⟨24, .index (.hash ⟨1, List.replicate 20 0⟩)⟩)
        (.handle .hash) ∧
      ¬ CopiesWhole HandleKlass.records (HandleObject.cells ⟨4, .index (.integer 7)⟩) (.handle .integer) := by
  have hcells : ∀ (k : HandleKlass) (copy : Cells HandleCell → Cells HandleCell → Status × Cells HandleCell)
      (source : Cells HandleCell), HandleKlass.records.copy k = some copy →
        Fills copy (fun i => i ∈ k.copiedFields) source := fun k _ source hcopy => k.fills hcopy source
  constructor
  · refine (chopObjectCopy_whole_iff (HandleKlass.lineage .hash) (by decide) (by decide) (by decide)
      fun k _ copy hcopy => hcells k copy _ hcopy).mpr ?_
    intro i _
    cases i with
    | zero => exact .inl ⟨.object, by simp, rfl, List.mem_singleton.mpr rfl⟩
    | succ i =>
      refine .inr ⟨rfl, ?_⟩
      simp [HandleKlass.records, HandleKlass.copy, HandleKlass.fields]
  · intro hwhole
    have hall := (chopObjectCopy_whole_iff (HandleKlass.lineage .integer) (by decide) (by decide) (by decide)
      fun k _ copy hcopy => hcells k copy _ hcopy).mp hwhole
    rcases hall 1 (by decide) with ⟨k, hk, -, hcell⟩ | ⟨hnone, -⟩
    · simp only [List.mem_cons, List.not_mem_nil, or_false] at hk
      rcases hk with rfl | rfl | rfl
      · exact absurd hcell (by decide)
      · exact absurd hcell (by decide)
      · exact absurd hcell (by decide)
    · cases hnone

end Libchop
