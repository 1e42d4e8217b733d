import Libchop.Filter.StoreIsolation
import Libchop.Filter.ThroughTermination
import Libchop.Indexer.BlockIndexer
import Libchop.Store.FsStore

/-!
# What stores leave in the caller's buffer

A store in the file system appends the block that it reads to the buffer, and a smart store does what its
backend does.  A database and a filtered store replace what the buffer holds.
-/

namespace Libchop

namespace StreamFilter

/-- A filter that tells its library of a whole block. -/
def TakesAll : (f : StreamFilter) → f.Filter → Bytes → Prop
  | zip _ _, filter, block => filter.inputBuffer.length < 2 ^ 32 ∨ block.length < 2 ^ 32
  | lzoZip _, _, _ => True
  | lzoUnzip library, _, block => ∀ portions, LzoFilter.unzipPortions library block = some portions →
    LzoFilter.ThroughFits (portions.map List.length) 0

theorem through_takesAll {f : StreamFilter} (hf : f.Unzips) (hlawful : f.Lawful) {size : Nat}
    {filter : f.Filter} (h : f.Idle size filter) {block : Bytes} (haccepted : (f.code 0 block).isSome = true)
    (htakes : f.TakesAll filter block) :
    ∃ output filter', f.code 0 block = some output ∧
      Outcome.Settles (fun fuel => chopFilterThrough f.methods fuel filter block)
        (.ok (), output, filter') := by
  cases f with
  | zip c library =>
    obtain ⟨coded, hcoded⟩ := Option.isSome_iff_exists.mp haccepted
    have hlength : filter.inputBuffer.length = size := h.wellFormed.length_eq
    have hshort : size < 2 ^ 32 ∨ block.length < 2 ^ 32 := hlength ▸ htakes
    obtain ⟨filter', -, hthrough⟩ := ZipFilter.through_eq hlawful h hshort hcoded
    exact ⟨coded, filter', hcoded, hthrough⟩
  | lzoZip library => exact hf.elim
  | lzoUnzip library =>
    obtain ⟨portions, hportions⟩ := Option.isSome_iff_exists.mp (Option.isSome_map ▸ haccepted)
    obtain ⟨filter', -, hthrough⟩ :=
      LzoFilter.unzip_through_eq hlawful h hportions (htakes portions hportions)
    exact ⟨portions.flatten, filter', congrArg (Option.map List.flatten) hportions, hthrough⟩

end StreamFilter

/-- An implementation, with those that it hands over to. -/
inductive StoreClass where
  | fs
  | genericDb
  | filtered (f : StreamFilter) (backend : StoreClass)
  | smart (backend : StoreClass)

namespace StoreClass

/-- A store: a directory, a database, or a filter before another store. -/
def Store : StoreClass → Type
  | fs => Directory
  | genericDb => Bytes → Option Bytes
  | filtered f backend => f.Filter × backend.Store
  | smart backend => backend.Store

/-- `DB_READ_BLOCK_METHOD`. -/
def dbReadBlock (dbRead : Bytes → Option Bytes) (key buffer : Bytes) : FilterStatus × Bytes × Nat :=
  match dbRead key with
  | none => (.error (.other .storeBlockUnavail), buffer, 0)
  | some content => (.ok (), content, content.length)

/-- `chop_store_read_block`: the error code, the buffer and the size, and the store, whose filters may
have changed. -/
def readBlock (fuel : Nat) : (c : StoreClass) → Bytes → Bytes → c.Store →
    Outcome ((FilterStatus × Bytes × Nat) × c.Store)
  | fs, key, buffer, dir =>
    chopFsReadBlock dir key buffer >>= fun (err, buffer, size) =>
      .done ((err.mapError .other, buffer, size), dir)
  | genericDb, key, buffer, dbRead => .done (dbReadBlock dbRead key buffer, dbRead)
  | filtered f backend, key, buffer, (outputFilter, store) =>
    readBlock fuel backend key [] store >>= fun ((err, unfiltered, size), store) =>
      match err with
      | .error err => .done ((.error err, buffer, size), outputFilter, store)
      | .ok _ =>
        chopFilterThrough f.methods fuel outputFilter unfiltered >>= fun (err, buffer, outputFilter) =>
          .done ((err, buffer, buffer.length), outputFilter, store)
  | smart backend, key, buffer, store => readBlock fuel backend key buffer store

def contents : (c : StoreClass) → c.Store → BlockMap
  | fs, dir => fsBlockMap dir
  | genericDb, dbRead => dbRead
  | filtered f backend, (_, store) => fun key => (backend.contents store key).bind (f.code 0)
  | smart backend, store => backend.contents store

def filling : StoreClass → BufferFilling
  | fs => .append
  | genericDb => .push
  | filtered _ _ => .push
  | smart backend => backend.filling

/-- Filters are as new. -/
def Ready : (c : StoreClass) → c.Store → Prop
  | fs, _ | genericDb, _ => True
  | filtered f backend, (outputFilter, store) =>
    f.Unzips ∧ f.Lawful ∧ (∃ size, f.Idle size outputFilter) ∧ backend.Ready store
  | smart backend, store => backend.Ready store

/-- A key that can name a file, if the store is in the file system, and under which a filtered store has a
block that the library accepts, or none. -/
def Usable : (c : StoreClass) → c.Store → Bytes → Prop
  | fs, _, key => key ≠ [] ∧ FitsBuffer key ∧ (blockFile key).length ≤ nameMax
  | genericDb, _, _ => True
  | filtered f backend, (_, store), key =>
    backend.Usable store key ∧
      ∀ block, backend.contents store key = some block → (f.code 0 block).isSome = true
  | smart backend, store, key => backend.Usable store key

/-- The library is told of the whole block under a key: no part of it is too long for its counters, and
the pulls have room for every header of LZO. -/
def ToldAll : (c : StoreClass) → c.Store → Bytes → Prop
  | fs, _, _ | genericDb, _, _ => True
  | filtered f backend, (outputFilter, store), key =>
    backend.ToldAll store key ∧
      ∀ block, backend.contents store key = some block → f.TakesAll outputFilter block
  | smart backend, store, key => backend.ToldAll store key

/-- The reply for what is under a key. -/
def reply (filling : BufferFilling) (block : Option Bytes) (buffer : Bytes) :
    FilterStatus × Bytes × Nat :=
  match block with
  | some block => (.ok (), filling.fill buffer block, block.length)
  | none => (.error (.other .storeBlockUnavail), buffer, 0)

/-- Only stores in the file system append, and smart stores over them. -/
theorem toldAll_of_append {c : StoreClass} (h : c.filling = .append) (store : c.Store) (key : Bytes) :
    c.ToldAll store key := by
  induction c with
  | fs => trivial
  | genericDb => cases h
  | filtered f backend _ => cases h
  | smart backend ih => exact ih h store

theorem readBlock_fs (fuel : Nat) {dir : Directory} {key : Bytes} (hkey : key ≠ [])
    (hbuffer : FitsBuffer key) (hname : (blockFile key).length ≤ nameMax) (buffer : Bytes) :
    readBlock fuel fs key buffer dir = .done (reply .append (fsBlockMap dir key) buffer, dir) := by
  have hread : chopFsReadBlock dir key buffer = _ := chopFsReadBlock_eq hkey hbuffer hname buffer
  cases hblock : fsBlockMap dir key with
  | none =>
    rw [hblock] at hread
    exact congrArg (· >>= _) hread
  | some block =>
    rw [hblock] at hread
    exact congrArg (· >>= _) hread

theorem dbReadBlock_eq (dbRead : Bytes → Option Bytes) (key buffer : Bytes) :
    dbReadBlock dbRead key buffer = reply .push (dbRead key) buffer := by
  rw [dbReadBlock]
  cases dbRead key with
  | none => rfl
  | some block => rfl

/-- A read returns what the map holds, in the way of the implementation. -/
theorem readBlock_settles {c : StoreClass} {store : c.Store} (h : c.Ready store) {key : Bytes}
    (hkey : c.Usable store key) (htold : c.ToldAll store key) (buffer : Bytes) :
    ∃ store', Outcome.Settles (fun fuel => c.readBlock fuel key buffer store)
      (reply c.filling (c.contents store key) buffer, store') := by
  induction c generalizing buffer with
  | fs => exact ⟨store, .of_eq fun fuel => readBlock_fs fuel hkey.1 hkey.2.1 hkey.2.2 buffer⟩
  | genericDb =>
    exact ⟨store, .of_eq fun fuel => congrArg (fun result => Outcome.done (result, store))
      (dbReadBlock_eq store key buffer)⟩
  | filtered f backend ih =>
    obtain ⟨outputFilter, store⟩ := store
    obtain ⟨hf, hlawful, ⟨size, hidle⟩, hbackend⟩ := h
    obtain ⟨store', hread⟩ := ih hbackend hkey.1 htold.1 []
    have hcontents : (filtered f backend).contents (outputFilter, store) key =
        (backend.contents store key).bind (f.code 0) := rfl
    rw [hcontents]
    cases hblock : backend.contents store key with
    | none =>
      rw [hblock] at hread
      exact ⟨(outputFilter, store'), hread.bind (.of_eq fun _ => rfl)⟩
    | some block =>
      rw [hblock] at hread
      obtain ⟨output, filter', hcode, hthrough⟩ :=
        StreamFilter.through_takesAll hf hlawful hidle (hkey.2 block hblock) (htold.2 block hblock)
      have hfill : backend.filling.fill [] block = block := BufferFilling.fill_eq (.inr rfl) block
      rw [reply, hfill] at hread
      rw [Option.bind_some, hcode]
      exact ⟨(filter', store'), hread.bind (hthrough.bind (.of_eq fun _ => rfl))⟩
  | smart backend ih => exact ih h hkey htold buffer

/-- A read of a block that is there leaves just this block in the buffer, and its length. -/
def ReadsExactly (c : StoreClass) (store : c.Store) (key buffer : Bytes) : Prop :=
  ∀ block, c.contents store key = some block →
    ∃ store', Outcome.Settles (fun fuel => c.readBlock fuel key buffer store)
      ((.ok (), block, block.length), store')

/-- Both stores give the same reply. -/
def ReadAlike (c c' : StoreClass) (store : c.Store) (store' : c'.Store) (key buffer : Bytes) : Prop :=
  ∃ result after after', Outcome.Settles (fun fuel => c.readBlock fuel key buffer store)
      (result, after) ∧
    Outcome.Settles (fun fuel => c'.readBlock fuel key buffer store') (result, after')

theorem readsExactly_of_fills {c : StoreClass} {store : c.Store} (h : c.Ready store) {key : Bytes}
    (hkey : c.Usable store key) (htold : c.ToldAll store key) {buffer : Bytes}
    (hfills : c.contents store key = none ∨ c.filling = .push ∨ buffer = []) :
    c.ReadsExactly store key buffer := by
  intro block hblock
  obtain ⟨store', hread⟩ := readBlock_settles h hkey htold buffer
  rw [hblock] at hfills hread
  rcases hfills with hnone | hfills
  · cases hnone
  · rw [reply, BufferFilling.fill_eq hfills] at hread
    exact ⟨store', hread⟩

theorem ReadsExactly.fills {c : StoreClass} {store : c.Store} (h : c.Ready store) {key : Bytes}
    (hkey : c.Usable store key) {buffer : Bytes} (hexact : c.ReadsExactly store key buffer) :
    c.contents store key = none ∨ c.filling = .push ∨ buffer = [] := by
  cases hblock : c.contents store key with
  | none => exact .inl rfl
  | some block =>
    cases hfilling : c.filling with
    | push => exact .inr (.inl rfl)
    | append =>
      obtain ⟨store', hread⟩ := readBlock_settles h hkey (toldAll_of_append hfilling store key) buffer
      obtain ⟨after, hread'⟩ := hexact block hblock
      rw [hblock, hfilling] at hread
      have hresult := congrArg (fun result => result.1.2.1.length) (hread.unique hread')
      exact .inr (BufferFilling.length_fill_eq_iff.mp hresult)

/-- Two stores that hold the same block under a key, or none, leave just this block in the buffer and
cannot be told apart only if there is none, the buffer is empty, or neither of them appends; and then they
do, if their libraries are told of the whole blocks. -/
theorem readsAgree {c c' : StoreClass} {store : c.Store} {store' : c'.Store}
    (h : c.Ready store) (h' : c'.Ready store') {key : Bytes} (hkey : c.Usable store key)
    (hkey' : c'.Usable store' key) (hsame : c.contents store key = c'.contents store' key)
    (buffer : Bytes) :
    (c.ReadsExactly store key buffer ∧ c'.ReadsExactly store' key buffer ∧
        ReadAlike c c' store store' key buffer →
      c.contents store key = none ∨ buffer = [] ∨ (c.filling = .push ∧ c'.filling = .push)) ∧
    ((c.contents store key = none ∨ buffer = [] ∨ (c.filling = .push ∧ c'.filling = .push)) ∧
        c.ToldAll store key ∧ c'.ToldAll store' key →
      c.ReadsExactly store key buffer ∧ c'.ReadsExactly store' key buffer ∧
        ReadAlike c c' store store' key buffer) := by
  constructor
  · rintro ⟨hexact, hexact', -⟩
    have hfirst := hexact.fills h hkey
    have hsecond := hexact'.fills h' hkey'
    rw [← hsame] at hsecond
    tauto
  · rintro ⟨hcond, htold, htold'⟩
    have hexact : c.ReadsExactly store key buffer :=
      readsExactly_of_fills h hkey htold (by tauto)
    have hexact' : c'.ReadsExactly store' key buffer :=
      readsExactly_of_fills h' hkey' htold' (by rw [← hsame]; tauto)
    refine ⟨hexact, hexact', ?_⟩
    cases hblock : c.contents store key with
    | none =>
      obtain ⟨after, hread⟩ := readBlock_settles h hkey htold buffer
      obtain ⟨after', hread'⟩ := readBlock_settles h' hkey' htold' buffer
      rw [hblock] at hread
      rw [← hsame, hblock] at hread'
      exact ⟨_, after, after', hread, hread'⟩
    | some block =>
      obtain ⟨after, hread⟩ := hexact block hblock
      obtain ⟨after', hread'⟩ := hexact' block (hsame ▸ hblock)
      exact ⟨_, after, after', hread, hread'⟩

def sampleKey : Bytes := [1, 2, 3, 4, 5]

def sampleFsStore : fs.Store :=
  AList.insert (blockDir sampleKey) (AList.insert (blockFile sampleKey) [5, 6] ∅) (∅ : Directory)

def sampleSmartStore : (smart fs).Store := sampleFsStore

def zippedDb (block : Bytes) : Bytes → Option Bytes := fun key =>
  if key = sampleKey then some (EscapeCodec.zip block) else none

def zippedStore (inputBuffer block : Bytes) : (filtered (.zip .zlibUnzip escapeUnzip) genericDb).Store :=
  (ZipFilter.new escapeUnzip inputBuffer, zippedDb block)

def sampleFilteredStore : (filtered (.zip .zlibUnzip escapeUnzip) genericDb).Store :=
  zippedStore [0] [5, 6]

theorem contents_sampleFsStore : fs.contents sampleFsStore sampleKey = some [5, 6] := by
  change ((AList.insert (blockDir sampleKey) (AList.insert (blockFile sampleKey) [5, 6] ∅)
    (∅ : Directory)).lookup (blockDir sampleKey)).bind (AList.lookup (blockFile sampleKey)) = _
  rw [AList.lookup_insert, Option.bind_some, AList.lookup_insert]

theorem ready_sampleFsStore : fs.Ready sampleFsStore := trivial

theorem contents_zippedStore (inputBuffer block : Bytes) :
    (filtered (.zip .zlibUnzip escapeUnzip) genericDb).contents (zippedStore inputBuffer block) sampleKey =
      some block := EscapeCodec.unzip_zip block

theorem contents_sampleFilteredStore :
    (filtered (.zip .zlibUnzip escapeUnzip) genericDb).contents sampleFilteredStore sampleKey =
      some [5, 6] := contents_zippedStore [0] [5, 6]

theorem usable_sampleFsStore : fs.Usable sampleFsStore sampleKey := by
  refine ⟨List.cons_ne_nil _ _, ?_, ?_⟩
  · decide
  · decide

theorem ready_sampleFilteredStore :
    (filtered (.zip .zlibUnzip escapeUnzip) genericDb).Ready sampleFilteredStore :=
  ⟨rfl, nofun, ⟨1, ZipFilter.idle_new (List.cons_ne_nil 0 [])⟩, trivial⟩

theorem usable_sampleFilteredStore :
    (filtered (.zip .zlibUnzip escapeUnzip) genericDb).Usable sampleFilteredStore sampleKey := by
  refine ⟨trivial, fun block hblock => ?_⟩
  cases hblock
  exact Option.isSome_iff_exists.mpr ⟨[5, 6], EscapeCodec.unzip_zip [5, 6]⟩

theorem toldAll_sampleFilteredStore :
    (filtered (.zip .zlibUnzip escapeUnzip) genericDb).ToldAll sampleFilteredStore sampleKey :=
  ⟨trivial, fun _ _ => .inl (by decide)⟩

/-- A store in the file system and a filtered database, and a buffer that is empty. -/
theorem sampleStores_readsAgree :
    fs.ReadsExactly sampleFsStore sampleKey [] ∧
      (filtered (.zip .zlibUnzip escapeUnzip) genericDb).ReadsExactly sampleFilteredStore sampleKey
        [] ∧
      ReadAlike fs (filtered (.zip .zlibUnzip escapeUnzip) genericDb) sampleFsStore
        sampleFilteredStore sampleKey [] :=
  (readsAgree ready_sampleFsStore ready_sampleFilteredStore usable_sampleFsStore
    usable_sampleFilteredStore (contents_sampleFsStore.trans contents_sampleFilteredStore.symm)
    []).2 ⟨.inr (.inl rfl), trivial, toldAll_sampleFilteredStore⟩

theorem length_zip (block : Bytes) : (EscapeCodec.zip block).length = 2 * block.length + 2 := by
  rw [EscapeCodec.zip, List.length_append, List.length_cons, EscapeCodec.length_escape, List.length_singleton]

/-- A block that is as long, when it is zipped, as the input buffer of the filter.  The library is told of
nothing and wants more. -/
theorem zippedStore_not_readsExactly {inputBuffer block : Bytes}
    (hbuffer : 2 ^ 32 ≤ inputBuffer.length) (hblock : (EscapeCodec.zip block).length = 2 ^ 32)
    (buffer : Bytes) :
    ¬ (filtered (.zip .zlibUnzip escapeUnzip) genericDb).ReadsExactly (zippedStore inputBuffer block)
      sampleKey buffer := by
  intro hexact
  obtain ⟨store', bound, hread⟩ := hexact block (contents_zippedStore inputBuffer block)
  have hdone := hread bound (Nat.le_refl bound)
  have hnew : inputBuffer ≠ [] :=
    List.ne_nil_of_length_pos (Nat.lt_of_lt_of_le (Nat.two_pow_pos 32) hbuffer)
  have hends := ZipFilter.unzip_through_returns_iff rfl escapeUnzip_judges (ZipFilter.idle_new hnew)
    (EscapeCodec.zip block)
  rw [received_wrapped hbuffer hblock] at hends
  have hnever : ¬ ZipFilterClass.zlibUnzip.EndsOn ([] : Bytes).length (EscapeCodec.unzipVerdict []) := by
    rintro (h | h) <;> cases h
  apply hnever
  apply hends.mp
  obtain ⟨_, hbackend, hthrough⟩ := Outcome.bind_eq_done.mp hdone
  cases hbackend
  obtain ⟨result, hresult, -⟩ := Outcome.bind_eq_done.mp hthrough
  exact ⟨bound, result, hresult⟩

/-- The input buffer and the block. -/
def wrappedStore : (filtered (.zip .zlibUnzip escapeUnzip) genericDb).Store :=
  zippedStore (List.replicate (2 ^ 32) 0) (List.replicate (2 ^ 31 - 1) 5)

theorem wrappedStore_not_readsExactly (buffer : Bytes) :
    ¬ (filtered (.zip .zlibUnzip escapeUnzip) genericDb).ReadsExactly wrappedStore sampleKey buffer := by
  have hbuffer : (List.replicate (2 ^ 32) (0 : UInt8)).length = 2 ^ 32 := List.length_replicate
  have hblock : (EscapeCodec.zip (List.replicate (2 ^ 31 - 1) 5)).length = 2 ^ 32 := by
    rw [length_zip, List.length_replicate]
    decide
  exact zippedStore_not_readsExactly (Nat.le_of_eq hbuffer.symm) hblock buffer

/-- A buffer that holds something: the store in the file system leaves it before the block, and so does a
smart store over it.  A filtered store whose library is told of nothing does not come to an end. -/
theorem sampleStores_not_readsAgree :
    ¬ fs.ReadsExactly sampleFsStore sampleKey [9] ∧
      ¬ (smart fs).ReadsExactly sampleSmartStore sampleKey [9] ∧
      ¬ ReadAlike fs (filtered (.zip .zlibUnzip escapeUnzip) genericDb) sampleFsStore
        sampleFilteredStore sampleKey [9] ∧
      ¬ (filtered (.zip .zlibUnzip escapeUnzip) genericDb).ReadsExactly wrappedStore sampleKey [] := by
  have happends : ¬ (some [5, 6] = (none : Option Bytes) ∨
      BufferFilling.append = .push ∨ ([9] : Bytes) = []) := by decide
  refine ⟨fun hexact => ?_, fun hexact => ?_, ?_, wrappedStore_not_readsExactly []⟩
  · have hfills := hexact.fills ready_sampleFsStore usable_sampleFsStore
    rw [contents_sampleFsStore] at hfills
    exact happends hfills
  · have hsmart : (smart fs).contents sampleSmartStore sampleKey = some [5, 6] :=
      contents_sampleFsStore
    have hready : (smart fs).Ready sampleSmartStore := ready_sampleFsStore
    have hfills := hexact.fills hready usable_sampleFsStore
    rw [hsmart] at hfills
    exact happends hfills
  · rintro ⟨result, after, after', hread, hread'⟩
    obtain ⟨_, hfs⟩ := readBlock_settles ready_sampleFsStore usable_sampleFsStore trivial [9]
    obtain ⟨_, hfiltered⟩ := readBlock_settles ready_sampleFilteredStore usable_sampleFilteredStore
      toldAll_sampleFilteredStore [9]
    rw [contents_sampleFsStore] at hfs
    rw [contents_sampleFilteredStore] at hfiltered
    have hfirst := congrArg Prod.fst (hread.unique hfs)
    have hsecond := congrArg Prod.fst (hread'.unique hfiltered)
    rw [hfirst] at hsecond
    cases hsecond

end StoreClass

end Libchop
