import Libchop.Indexer.SizeBound
import Mathlib.Data.List.Nodup

/-!
# Identifiers of the integer block indexer

An integer block indexer uses its counter as the key of a block, and increments it.  The counter has 32
bits, and the serialized form of an indexer does not say where it stands.
-/

namespace Libchop

/-- `chop_integer_block_indexer_open`, whose argument is an `unsigned long`. -/
def chopIntegerBlockIndexerOpen (start : UInt64) : UInt32 := start.toUInt32

/-- `ibi_serialize`, with what the buffer holds.  The source says that the indexer is stateless. -/
def ibiSerialize (_id : UInt32) (_method : SerialMethod) (buffer : Bytes) : Status × Bytes :=
  (.ok (), buffer)

/-- `ibi_deserialize`: the counter and the number of bytes that were read. -/
def ibiDeserializeBy (method : SerialMethod) (buffer : Bytes) : Except ChopError (UInt32 × Nat) :=
  match method with
  | .ascii => .ok (ibiDeserialize buffer buffer.length)
  | .binary =>
    if buffer.length < 4 then .error .deserialTooShort
    else .ok (UInt32.ofNat (ByteOrder.loadBe buffer), 4)

/-- What is done with an indexer.  It is serialized to a buffer, and the indexer that is read from this
buffer takes its place. -/
inductive IndexerStep where
  | index (block : Bytes)
  | serialize (method : SerialMethod)
  | deserialize (method : SerialMethod)
deriving DecidableEq, Repr

structure IndexerSession (σ : Type) where
  id : UInt32
  serial : Bytes
  store : σ

/-- A block that was indexed: the key it was written under, and its handle. -/
structure WrittenBlock where
  key : Bytes
  handle : IndexHandle
  block : Bytes
deriving DecidableEq, Repr

namespace IndexerSession

variable {σ : Type} (methods : StoreMethods σ)

/-- A failed write uses up its identifier, and a failed `ibi_deserialize` makes no indexer. -/
def step (s : IndexerSession σ) : IndexerStep → List WrittenBlock × IndexerSession σ
  | .index block =>
    match integerBlockIndex methods s.id block s.store with
    | (.ok handle, store) =>
      ([⟨integerKey s.id, handle, block⟩], { s with id := s.id + 1, store })
    | (.error _, store) => ([], { s with id := s.id + 1, store })
  | .serialize method => ([], { s with serial := (ibiSerialize s.id method s.serial).2 })
  | .deserialize method =>
    match ibiDeserializeBy method s.serial with
    | .ok (id, _) => ([], { s with id })
    | .error _ => ([], s)

def run (s : IndexerSession σ) : List IndexerStep → List WrittenBlock × IndexerSession σ
  | [] => ([], s)
  | op :: steps =>
    let (written, s) := s.step methods op
    let (rest, s) := s.run steps
    (written ++ rest, s)

end IndexerSession

/-- In every state of the run, the keys of the blocks that were written are pairwise distinct, and
each handle fetches its block. -/
def NeverReuses (start : UInt64) (steps : List IndexerStep) : Prop :=
  ∀ (σ : Type) (methods : StoreMethods σ) (contents : σ → BlockMap), MapStore methods contents →
    ∀ (store : σ) (earlier later : List IndexerStep), steps = earlier ++ later →
      let reached :=
        IndexerSession.run methods ⟨chopIntegerBlockIndexerOpen start, [], store⟩ earlier
      (reached.1.map WrittenBlock.key).Nodup ∧
        ∀ written ∈ reached.1, ∀ filling : BufferFilling,
          integerBlockFetch filling (fun key => (methods.readBlock key reached.2.store).1)
            written.handle [] = (.ok (), written.block, written.block.length)

/-- The number of index operations before the first ASCII deserialization, and after each one up to
the next. -/
def stretches : List IndexerStep → Nat × List Nat
  | [] => (0, [])
  | .index _ :: steps => ((stretches steps).1 + 1, (stretches steps).2)
  | .deserialize .ascii :: steps => (0, (stretches steps).1 :: (stretches steps).2)
  | .deserialize .binary :: steps => stretches steps
  | .serialize _ :: steps => stretches steps

/-- The identifiers from the start value on, and those from zero on that follow a deserialization, do
not meet and do not come round.  Only one deserialization is followed by index operations. -/
def CounterLasts (start : UInt64) (steps : List IndexerStep) : Prop :=
  (stretches steps).1 ≤ 2 ^ 32 ∧
    match (stretches steps).2.filter (0 < ·) with
    | [] => True
    | [count] =>
      count ≤ 2 ^ 32 ∧ ((stretches steps).1 = 0 ∨
        count ≤ start.toNat % 2 ^ 32 ∧ start.toNat % 2 ^ 32 + (stretches steps).1 ≤ 2 ^ 32)
    | _ => False

instance (start : UInt64) (steps : List IndexerStep) : Decidable (CounterLasts start steps) := by
  unfold CounterLasts
  split <;> infer_instance

/-- The identifiers that a run uses, also for blocks that are not written. -/
def identifiers (id : UInt32) : List IndexerStep → List UInt32
  | [] => []
  | .index _ :: steps => id :: identifiers (id + 1) steps
  | .deserialize .ascii :: steps => identifiers 0 steps
  | .deserialize .binary :: steps => identifiers id steps
  | .serialize _ :: steps => identifiers id steps

def countFrom (id : UInt32) (count : Nat) : List UInt32 :=
  (List.range count).map fun i => id + UInt32.ofNat i

section Counting

theorem countFrom_succ (id : UInt32) (count : Nat) :
    countFrom id (count + 1) = id :: countFrom (id + 1) count := by
  simp [countFrom, List.range_succ_eq_map, UInt32.ofNat_add, UInt32.add_assoc, UInt32.add_comm 1]

theorem toNat_add_ofNat (id : UInt32) (i : Nat) :
    (id + UInt32.ofNat i).toNat = (id.toNat + i) % 2 ^ 32 := by
  simp [UInt32.toNat_add]

theorem mem_countFrom {id x : UInt32} {count : Nat} :
    x ∈ countFrom id count ↔ ∃ i < count, x.toNat = (id.toNat + i) % 2 ^ 32 := by
  simp only [countFrom, List.mem_map, List.mem_range]
  constructor
  · rintro ⟨i, hi, rfl⟩
    exact ⟨i, hi, toNat_add_ofNat id i⟩
  · rintro ⟨i, hi, hx⟩
    exact ⟨i, hi, UInt32.toNat_inj.mp ((toNat_add_ofNat id i).trans hx.symm)⟩

theorem nodup_countFrom_iff {id : UInt32} {count : Nat} :
    (countFrom id count).Nodup ↔ count ≤ 2 ^ 32 := by
  constructor
  · intro h
    by_contra hmany
    have hinj := List.inj_on_of_nodup_map h
    have hsame : id + UInt32.ofNat 0 = id + UInt32.ofNat (2 ^ 32) := by
      apply UInt32.toNat_inj.mp
      rw [toNat_add_ofNat, toNat_add_ofNat]
      omega
    have hzero := hinj (List.mem_range.mpr (by omega)) (List.mem_range.mpr (by omega)) hsame
    omega
  · intro h
    apply List.Nodup.map_on _ List.nodup_range
    intro i hi j hj hsame
    have hi := List.mem_range.mp hi
    have hj := List.mem_range.mp hj
    have hnat := congrArg UInt32.toNat hsame
    rw [toNat_add_ofNat, toNat_add_ofNat] at hnat
    have := id.toNat_lt
    omega

/-- Where the identifiers from some value on meet those from zero on. -/
theorem disjoint_countFrom_iff {id : UInt32} {first count : Nat} (hfirst : first ≤ 2 ^ 32)
    (hpos : 0 < count) (hcount : count ≤ 2 ^ 32) :
    (countFrom id first).Disjoint (countFrom 0 count) ↔
      first = 0 ∨ count ≤ id.toNat ∧ id.toNat + first ≤ 2 ^ 32 := by
  have hid := id.toNat_lt
  constructor
  · intro h
    rcases Nat.eq_zero_or_pos first with hzero | hsome
    · exact .inl hzero
    refine .inr ⟨?_, ?_⟩
    · by_contra hlow
      apply h (a := id)
      · exact mem_countFrom.mpr ⟨0, hsome, by omega⟩
      · exact mem_countFrom.mpr ⟨id.toNat, by omega, by simp⟩
    · by_contra hround
      apply h (a := 0)
      · exact mem_countFrom.mpr ⟨2 ^ 32 - id.toNat, by omega, by simp; omega⟩
      · exact mem_countFrom.mpr ⟨0, hpos, rfl⟩
  · intro h x hx hx'
    obtain ⟨i, hi, hx⟩ := mem_countFrom.mp hx
    obtain ⟨j, hj, hx'⟩ := mem_countFrom.mp hx'
    simp only [UInt32.toNat_zero] at hx'
    rcases h with hzero | ⟨hhigh, hround⟩ <;> omega

theorem identifiers_eq (id : UInt32) (steps : List IndexerStep) :
    identifiers id steps =
      countFrom id (stretches steps).1 ++ ((stretches steps).2.map (countFrom 0)).flatten := by
  induction steps generalizing id with
  | nil => rfl
  | cons op steps ih =>
    cases op with
    | index block => simp [identifiers, stretches, countFrom_succ, ih]
    | serialize method => simp [identifiers, stretches, ih]
    | deserialize method =>
      cases method with
      | ascii => simp [identifiers, stretches, countFrom, ih]
      | binary => simp [identifiers, stretches, ih]

/-- Stretches without index operations do not matter. -/
theorem flatten_countFrom_filter (counts : List Nat) :
    (counts.map (countFrom 0)).flatten = ((counts.filter (0 < ·)).map (countFrom 0)).flatten := by
  induction counts with
  | nil => rfl
  | cons count counts ih =>
    rcases Nat.eq_zero_or_pos count with rfl | hpos
    · simp [countFrom, ih]
    · simp [hpos, ih]

theorem nodup_identifiers_iff {start : UInt64} {steps : List IndexerStep} :
    (identifiers (chopIntegerBlockIndexerOpen start) steps).Nodup ↔ CounterLasts start steps := by
  have hstart : (chopIntegerBlockIndexerOpen start).toNat = start.toNat % 2 ^ 32 := by
    simp [chopIntegerBlockIndexerOpen]
  rw [identifiers_eq, flatten_countFrom_filter, CounterLasts, ← hstart]
  have hpositive : ∀ count ∈ (stretches steps).2.filter (0 < ·), 0 < count := by
    intro count hcount
    simpa using (List.mem_filter.mp hcount).2
  split
  · next hnone => simp [hnone, nodup_countFrom_iff]
  · next count hone =>
    rw [hone] at hpositive ⊢
    have hpos := hpositive count List.mem_cons_self
    simp only [List.map_cons, List.map_nil, List.flatten_cons, List.flatten_nil, List.append_nil,
      List.nodup_append', nodup_countFrom_iff]
    refine and_congr_right fun hfirst => and_congr_right fun hcount => ?_
    exact disjoint_countFrom_iff hfirst hpos hcount
  · next hmany hone =>
    -- Two stretches after a deserialization both begin with zero.
    match hcounts : (stretches steps).2.filter (0 < ·) with
    | [] => exact (hmany hcounts).elim
    | [count] => exact (hone count hcounts).elim
    | first :: second :: rest =>
      rw [hcounts] at hpositive ⊢
      have hfirst := hpositive first (by simp)
      have hsecond := hpositive second (by simp)
      obtain ⟨first, rfl⟩ := Nat.exists_eq_add_of_lt hfirst
      obtain ⟨second, rfl⟩ := Nat.exists_eq_add_of_lt hsecond
      simp [countFrom_succ, List.nodup_append']

end Counting

theorem integerKey_injective : Function.Injective integerKey := by
  intro id id' h
  have hload := congrArg (fun key => ByteOrder.loadBe (key ++ [])) h
  simp only [loadBe_integerKey] at hload
  exact UInt32.toNat_inj.mp hload

namespace IndexerSession

variable {σ : Type} {methods : StoreMethods σ} {s : IndexerSession σ}

theorem run_cons (op : IndexerStep) (steps : List IndexerStep) :
    s.run methods (op :: steps) =
      ((s.step methods op).1 ++ ((s.step methods op).2.run methods steps).1,
        ((s.step methods op).2.run methods steps).2) := rfl

variable (methods) in
/-- Nothing is ever in the buffer that indexers are serialized to. -/
theorem step_serial (hserial : s.serial = []) (op : IndexerStep) :
    (s.step methods op).2.serial = [] := by
  cases op with
  | index block =>
    rw [step]
    split <;> exact hserial
  | serialize method => exact hserial
  | deserialize method =>
    rw [step]
    split <;> exact hserial

/-- An index operation writes its block under the identifier, or leaves the store as it was. -/
theorem step_index {contents : σ → BlockMap} (hstore : MapStore methods contents)
    (s : IndexerSession σ) (block : Bytes) :
    (∃ store, contents store = Function.update (contents s.store) (integerKey s.id) (some block) ∧
      s.step methods (.index block) =
        ([⟨integerKey s.id, .integer s.id, block⟩], ⟨s.id + 1, s.serial, store⟩)) ∨
    ∃ store, contents store = contents s.store ∧
      s.step methods (.index block) = ([], ⟨s.id + 1, s.serial, store⟩) := by
  rcases hstore.write_cases (integerKey s.id) block s.store with
    ⟨store, hwrite, hcontents⟩ | ⟨err, store, hwrite, hcontents⟩
  · refine .inl ⟨store, hcontents, ?_⟩
    simp [step, integerBlockIndex, writeIndexed, hwrite]
  · refine .inr ⟨store, hcontents, ?_⟩
    simp [step, integerBlockIndex, writeIndexed, hwrite]

theorem step_deserialize_ascii (hserial : s.serial = []) :
    s.step methods (.deserialize .ascii) = ([], { s with id := 0 }) := by
  simp [step, ibiDeserializeBy, ibiDeserialize, hserial]

theorem step_deserialize_binary (hserial : s.serial = []) :
    s.step methods (.deserialize .binary) = ([], s) := by
  simp [step, ibiDeserializeBy, hserial]

section Runs

variable {contents : σ → BlockMap} (hstore : MapStore methods contents)

include hstore

/-- Blocks are written under the identifiers of the run, in their order. -/
theorem run_keys_sublist (hserial : s.serial = []) (steps : List IndexerStep) :
    ((s.run methods steps).1.map WrittenBlock.key).Sublist
      ((identifiers s.id steps).map integerKey) := by
  induction steps generalizing s with
  | nil => exact List.Sublist.refl _
  | cons op steps ih =>
    rw [run_cons]
    have hrest := ih (step_serial methods hserial op)
    cases op with
    | index block =>
      rcases step_index hstore s block with ⟨store, -, hstep⟩ | ⟨store, -, hstep⟩
      · rw [hstep] at hrest ⊢
        exact hrest.cons_cons _
      · rw [hstep] at hrest ⊢
        exact hrest.cons _
    | serialize method => exact hrest
    | deserialize method =>
      cases method with
      | ascii =>
        rw [step_deserialize_ascii hserial] at hrest ⊢
        exact hrest
      | binary =>
        rw [step_deserialize_binary hserial] at hrest ⊢
        exact hrest

/-- A handle holds the identifier that its block was written under. -/
theorem run_handle (steps : List IndexerStep) {written : WrittenBlock}
    (h : written ∈ (s.run methods steps).1) :
    ∃ id, written.handle = .integer id ∧ written.key = integerKey id := by
  induction steps generalizing s with
  | nil => cases h
  | cons op steps ih =>
    rw [run_cons] at h
    rcases List.mem_append.mp h with h | h
    · cases op with
      | index block =>
        rcases step_index hstore s block with ⟨store, -, hstep⟩ | ⟨store, -, hstep⟩
        · rw [hstep] at h
          cases List.mem_singleton.mp h
          exact ⟨s.id, rfl, rfl⟩
        · rw [hstep] at h
          cases h
      | serialize method => cases h
      | deserialize method =>
        rw [step] at h
        split at h <;> cases h
    · exact ih h

/-- Other keys keep their blocks in a step. -/
theorem step_contents (op : IndexerStep) {key : Bytes}
    (hkey : key ∉ (s.step methods op).1.map WrittenBlock.key) :
    contents (s.step methods op).2.store key = contents s.store key := by
  cases op with
  | index block =>
    rcases step_index hstore s block with ⟨store, hcontents, hstep⟩ | ⟨store, hcontents, hstep⟩
    · rw [hstep] at hkey ⊢
      have hne : key ≠ integerKey s.id := by simpa using hkey
      rw [hcontents, Function.update_of_ne hne]
    · rw [hstep, hcontents]
  | serialize method => rfl
  | deserialize method =>
    rw [step]
    split <;> rfl

theorem run_contents (steps : List IndexerStep) {key : Bytes}
    (hkey : key ∉ (s.run methods steps).1.map WrittenBlock.key) :
    contents (s.run methods steps).2.store key = contents s.store key := by
  induction steps generalizing s with
  | nil => rfl
  | cons op steps ih =>
    rw [run_cons, List.map_append, List.mem_append, not_or] at hkey
    rw [run_cons, ih hkey.2, step_contents hstore op hkey.1]

/-- With distinct keys, each block is still there at the end. -/
theorem run_contents_written (steps : List IndexerStep)
    (hnodup : ((s.run methods steps).1.map WrittenBlock.key).Nodup) {written : WrittenBlock}
    (h : written ∈ (s.run methods steps).1) :
    contents (s.run methods steps).2.store written.key = some written.block := by
  induction steps generalizing s with
  | nil => cases h
  | cons op steps ih =>
    rw [run_cons] at hnodup h ⊢
    rw [List.map_append, List.nodup_append'] at hnodup
    obtain ⟨-, hrest, hdisjoint⟩ := hnodup
    rcases List.mem_append.mp h with h | h
    · have hkey := hdisjoint (List.mem_map_of_mem h)
      rw [run_contents hstore steps hkey]
      cases op with
      | index block =>
        rcases step_index hstore s block with ⟨store, hcontents, hstep⟩ | ⟨store, -, hstep⟩
        · rw [hstep] at h ⊢
          cases List.mem_singleton.mp h
          rw [hcontents, Function.update_self]
        · rw [hstep] at h
          cases h
      | serialize method => cases h
      | deserialize method =>
        rw [step] at h
        split at h <;> cases h
    · exact ih hrest h

end Runs

/-- A store that fails no write gets a block under each identifier. -/
theorem run_keys_blockMap {s : IndexerSession BlockMap} (hserial : s.serial = [])
    (steps : List IndexerStep) :
    (s.run BlockMap.methods steps).1.map WrittenBlock.key =
      (identifiers s.id steps).map integerKey := by
  induction steps generalizing s with
  | nil => rfl
  | cons op steps ih =>
    have hrest := ih (step_serial BlockMap.methods hserial op)
    rw [run_cons, List.map_append, hrest]
    cases op with
    | index block => rfl
    | serialize method => rfl
    | deserialize method =>
      cases method with
      | ascii =>
        rw [step_deserialize_ascii hserial]
        rfl
      | binary =>
        rw [step_deserialize_binary hserial]
        rfl

end IndexerSession

/-- What is stored under an identifier is fetched with its handle. -/
theorem integerBlockFetch_stored {σ : Type} {methods : StoreMethods σ} {contents : σ → BlockMap}
    (hstore : MapStore methods contents) {id : UInt32} {block : Bytes} {store : σ}
    (hblock : contents store (integerKey id) = some block) (filling : BufferFilling) :
    integerBlockFetch filling (fun key => (methods.readBlock key store).1) (.integer id) [] =
      (.ok (), block, block.length) := by
  have hread := (hstore.readBlock (integerKey id) store).2
  rw [hblock] at hread
  simp only [integerBlockFetch, hread, chopStoreReadBlock, BufferFilling.fill_eq (.inr rfl)]

theorem identifiers_append (id : UInt32) (earlier later : List IndexerStep) :
    identifiers id earlier <+: identifiers id (earlier ++ later) := by
  induction earlier generalizing id with
  | nil => exact List.nil_prefix
  | cons op earlier ih =>
    cases op with
    | index block => exact List.cons_prefix_cons.mpr ⟨rfl, ih _⟩
    | serialize method => exact ih id
    | deserialize method =>
      cases method with
      | ascii => exact ih 0
      | binary => exact ih id

/-- An integer block indexer gives each block a key of its own just when its counter lasts for the
index operations of the run. -/
theorem integerIndexer_neverReuses_iff (start : UInt64) (steps : List IndexerStep) :
    NeverReuses start steps ↔ CounterLasts start steps := by
  rw [← nodup_identifiers_iff]
  constructor
  · intro h
    have hkeys := (h BlockMap BlockMap.methods id BlockMap.mapStore (fun _ => none) steps []
      (List.append_nil steps).symm).1
    rw [IndexerSession.run_keys_blockMap rfl] at hkeys
    exact hkeys.of_map
  · rintro hids σ methods contents hstore store earlier later rfl
    have hearlier := (identifiers_append _ earlier later).sublist.nodup hids
    have hkeys := (IndexerSession.run_keys_sublist hstore
      (s := ⟨chopIntegerBlockIndexerOpen start, [], store⟩) rfl earlier).nodup
      (hearlier.map integerKey_injective)
    refine ⟨hkeys, ?_⟩
    intro written hwritten filling
    have hblock := IndexerSession.run_contents_written hstore earlier hkeys hwritten
    obtain ⟨id, hhandle, hkey⟩ := IndexerSession.run_handle hstore earlier hwritten
    rw [hkey] at hblock
    rw [hhandle]
    exact integerBlockFetch_stored hstore hblock filling

/-- An indexer that is saved and restored gives its first identifier again. -/
theorem integerIndexer_reuses_after_restore :
    ¬ NeverReuses 0 [.index [1], .serialize .ascii, .deserialize .ascii, .index [2]] := by
  intro h
  have hkeys := (h BlockMap BlockMap.methods id BlockMap.mapStore (fun _ => none) _ []
    (List.append_nil _).symm).1
  revert hkeys
  decide

end Libchop
