import Libchop.Store.GenericDb

/-!
# Converting a store

`chop-store-convert` goes through the blocks of a store and writes each of them to another one.
-/

namespace Libchop

/-- The methods of the store that is read, and those of its iterators. -/
structure SourceStore (σ It : Type) where
  firstBlock : σ → Status × Option It
  next : σ → It → Status × It
  isNil : It → Bool
  key : It → Bytes
  readBlock : Bytes → Bytes → σ → Status × Bytes × Nat

variable {σ τ It : Type}

/-- The loop of `main`, from the result of the last move on: the error code at the end, the number of
pairs that were converted, and the destination. -/
def storeConvertLoop (source : SourceStore σ It) (s : σ) (dest : StoreMethods τ) :
    Nat → Nat → Status × Option It → τ → Outcome (Status × Nat × τ)
  | 0, _, _, _ => .outOfFuel
  | _ + 1, count, (.error err, _), d =>
    .done (if err = .storeEnd then .ok () else .error err, count, d)
  | _ + 1, _, (.ok _, none), _ => .abort
  | fuel + 1, count, (.ok _, some it), d =>
    if source.isNil it then .done (.ok (), count, d)
    else
      match source.readBlock (source.key it) [] s with
      | (.error err, _, _) => .done (.error err, count, d)
      | (.ok _, buffer, blockLen) =>
        Outcome.assert (blockLen = buffer.length) >>= fun _ =>
          match dest.writeBlock (source.key it) buffer d with
          | (.error err, d) => .done (.error err, count, d)
          | (.ok _, d) =>
            let moved := source.next s it
            storeConvertLoop source s dest fuel (count + 1) (moved.1, some moved.2) d

/-- `main` of `chop-store-convert.c`, on open stores. -/
def storeConvert (source : SourceStore σ It) (s : σ) (dest : StoreMethods τ) (d : τ) (fuel : Nat) :
    Outcome (Status × Nat × τ) :=
  storeConvertLoop source s dest fuel 0 (source.firstBlock s) d

/-- From this result on, the iterator comes to these keys. -/
def SourceStore.ListsFrom (source : SourceStore σ It) (s : σ) : Status × Option It → List Bytes → Prop
  | moved, [] => moved.1 = .error .storeEnd
  | moved, key :: keys =>
    ∃ it, moved = (.ok (), some it) ∧ source.isNil it = false ∧ source.key it = key ∧
      source.ListsFrom s ((source.next s it).1, some (source.next s it).2) keys

/-- What the source has under these keys, over what was there. -/
def BlockMap.overlay (m : BlockMap) (source : BlockMap) (keys : List Bytes) : BlockMap :=
  fun key => if key ∈ keys then source key else m key

/-- The conversion came to the end, or it stopped at a key that could not be read or written. -/
inductive ConvertEnding (source : SourceStore σ It) (s : σ) (dest : StoreMethods τ) (keys : List Bytes) :
    Status → Nat → Prop where
  | complete : (∀ key ∈ keys, (source.readBlock key [] s).1 = .ok ()) →
    ConvertEnding source s dest keys (.ok ()) keys.length
  | unread {n : Nat} {key : Bytes} {err : ChopError} : keys[n]? = some key →
    (source.readBlock key [] s).1 = .error err → ConvertEnding source s dest keys (.error err) n
  | unwritten {n : Nat} {key block : Bytes} {d : τ} {err : ChopError} : keys[n]? = some key →
    (dest.writeBlock key block d).1 = .error err → ConvertEnding source s dest keys (.error err) n

section Loop

variable {source : SourceStore σ It} {s : σ} {dest : StoreMethods τ} {contents : τ → BlockMap}
  {sourceMap : BlockMap}

theorem ConvertEnding.cons {keys : List Bytes} {status : Status} {n : Nat} {key : Bytes}
    (hread : (source.readBlock key [] s).1 = .ok ()) (h : ConvertEnding source s dest keys status n) :
    ConvertEnding source s dest (key :: keys) status (n + 1) := by
  cases h with
  | complete hall => exact .complete (List.forall_mem_cons.mpr ⟨hread, hall⟩)
  | unread hkey hread => exact .unread hkey hread
  | unwritten hkey hwrite => exact .unwritten hkey hwrite

theorem BlockMap.overlay_cons {m : BlockMap} {key block : Bytes} {keys : List Bytes}
    (hkey : sourceMap key = some block) :
    BlockMap.overlay (Function.update m key (some block)) sourceMap keys =
      m.overlay sourceMap (key :: keys) := by
  funext other
  simp only [BlockMap.overlay, List.mem_cons]
  by_cases hother : other = key
  · rw [hother, Function.update_self, hkey]
    simp
  · rw [Function.update_of_ne hother]
    simp only [hother, false_or]

/-- A source that fails to read a block, or reads what its map has. -/
def SourceStore.Reads (source : SourceStore σ It) (s : σ) (sourceMap : BlockMap) (keys : List Bytes) :
    Prop :=
  ∀ key ∈ keys, (∃ err, (source.readBlock key [] s).1 = .error err) ∨
    ∃ block, sourceMap key = some block ∧
      source.readBlock key [] s = (.ok (), block, block.length)

theorem storeConvertLoop_spec (hdest : MapStore dest contents) {keys : List Bytes}
    (hreads : source.Reads s sourceMap keys) {moved : Status × Option It}
    (hlists : source.ListsFrom s moved keys) (d : τ) (count : Nat) :
    ∃ status n d', (∀ fuel, keys.length < fuel →
        storeConvertLoop source s dest fuel count moved d = .done (status, count + n, d')) ∧
      contents d' = (contents d).overlay sourceMap (keys.take n) ∧
      ConvertEnding source s dest keys status n := by
  induction keys generalizing moved d count with
  | nil =>
    obtain ⟨err, it⟩ := moved
    have hend : err = .error .storeEnd := hlists
    subst hend
    refine ⟨.ok (), 0, d, ?_, rfl, .complete (List.forall_mem_nil _)⟩
    intro fuel hfuel
    obtain ⟨fuel, rfl⟩ := Nat.exists_eq_succ_of_ne_zero (Nat.ne_of_gt hfuel)
    rw [storeConvertLoop, if_pos rfl, Nat.add_zero]
  | cons key keys ih =>
    obtain ⟨it, rfl, hnil, hkey, hrest⟩ := hlists
    obtain ⟨hfirst, hreads⟩ := List.forall_mem_cons.mp hreads
    have hround : ∀ fuel, (key :: keys).length < fuel → ∃ rest, fuel = rest + 1 ∧ keys.length < rest ∧
        storeConvertLoop source s dest fuel count (.ok (), some it) d =
          match source.readBlock key [] s with
          | (.error err, _, _) => .done (.error err, count, d)
          | (.ok _, buffer, blockLen) =>
            Outcome.assert (blockLen = buffer.length) >>= fun _ =>
              match dest.writeBlock key buffer d with
              | (.error err, d) => .done (.error err, count, d)
              | (.ok _, d) =>
                storeConvertLoop source s dest rest (count + 1)
                  ((source.next s it).1, some (source.next s it).2) d := by
      intro fuel hfuel
      obtain ⟨rest, rfl⟩ := Nat.exists_eq_succ_of_ne_zero (Nat.ne_of_gt (Nat.zero_lt_of_lt hfuel))
      refine ⟨rest, rfl, Nat.lt_of_succ_lt_succ hfuel, ?_⟩
      rw [storeConvertLoop, hnil, hkey]
      rfl
    rcases hfirst with ⟨err, hread⟩ | ⟨block, hblock, hread⟩
    · refine ⟨.error err, 0, d, ?_, rfl, .unread List.getElem?_cons_zero hread⟩
      intro fuel hfuel
      obtain ⟨rest, -, -, hround⟩ := hround fuel hfuel
      obtain ⟨buffer, size, hread⟩ : ∃ buffer size,
          source.readBlock key [] s = (.error err, buffer, size) := ⟨_, _, Prod.ext hread rfl⟩
      rw [hround, hread]
      rfl
    · rcases hdest.write_cases key block d with
        ⟨d₁, hwrite, hcontents⟩ | ⟨err, d₁, hwrite, hcontents⟩
      · obtain ⟨status, n, d', hrun, hd', hending⟩ := ih hreads hrest d₁ (count + 1)
        refine ⟨status, n + 1, d', ?_, ?_, hending.cons (by rw [hread])⟩
        · intro fuel hfuel
          obtain ⟨rest, -, hrest, hround⟩ := hround fuel hfuel
          rw [hround, hread]
          simp only [Outcome.assert_of, Outcome.done_bind, hwrite]
          rw [hrun rest hrest, Nat.add_assoc, Nat.add_comm 1]
        · rw [hd', hcontents, BlockMap.overlay_cons hblock, List.take_succ_cons]
      · have hunwritten : (dest.writeBlock key block d).1 = .error err := by rw [hwrite]
        refine ⟨.error err, 0, d₁, ?_, hcontents, .unwritten List.getElem?_cons_zero hunwritten⟩
        intro fuel hfuel
        obtain ⟨rest, -, -, hround⟩ := hround fuel hfuel
        rw [hround, hread]
        simp only [Outcome.assert_of, Outcome.done_bind, hwrite, Nat.add_zero]

theorem storeConvert_settles (hdest : MapStore dest contents) {keys : List Bytes}
    (hreads : source.Reads s sourceMap keys) (hlists : source.ListsFrom s (source.firstBlock s) keys)
    (d : τ) :
    ∃ status count d', Outcome.Settles (storeConvert source s dest d) (status, count, d') ∧
      contents d' = (contents d).overlay sourceMap (keys.take count) ∧
      ConvertEnding source s dest keys status count := by
  obtain ⟨status, n, d', hrun, hd', hending⟩ := storeConvertLoop_spec hdest hreads hlists d 0
  refine ⟨status, n, d', ⟨keys.length + 1, fun fuel hfuel => ?_⟩, hd', hending⟩
  rw [storeConvert, hrun fuel (Nat.lt_of_succ_le hfuel), Nat.zero_add]

end Loop

section Sources

variable {δ : Type}

def DbBlockStore.source (store : DbBlockStore δ) : SourceStore δ DbBlockIterator where
  firstBlock := store.firstBlock
  next := store.itNext
  isNil it := it.nil
  key it := it.key
  readBlock := store.readBlock

def bdbSource {κ : Type} (lib : BerkeleyDb δ κ) : SourceStore δ (BdbBlockIterator κ) where
  firstBlock := chopBdbFirstBlock lib
  next _ it := chopBdbItNext lib it
  isNil it := it.nil
  key it := it.key
  readBlock := chopBdbReadBlock lib

section GenericDb

variable {lib : DbLibrary δ} {pairs : δ → BlockMap} {order : δ → List Bytes}
  (h : lib.Documented pairs order) (db : δ)

include h

private theorem dbSource_listsFrom (before : List Bytes) (key : Bytes) (after : List Bytes)
    (horder : order db = before ++ key :: after) :
    (dbBlockStore lib).source.ListsFrom db (.ok (), some ⟨false, key⟩) (key :: after) := by
  have hnext := dbNextKey_eq h horder
  refine ⟨⟨false, key⟩, rfl, rfl, rfl, ?_⟩
  induction after generalizing before key with
  | nil =>
    rw [List.head?_nil] at hnext
    simp only [DbBlockStore.source, dbBlockStore, dbItNext, Bool.false_eq_true, if_false, hnext]
    rfl
  | cons next after ih =>
    have hafter : order db = (before ++ [key]) ++ next :: after := by
      rw [horder, List.append_assoc, List.singleton_append]
    rw [List.head?_cons] at hnext
    simp only [DbBlockStore.source, dbBlockStore, dbItNext, Bool.false_eq_true, if_false, hnext]
    exact ⟨⟨false, next⟩, rfl, rfl, rfl,
      ih (before ++ [key]) next hafter (dbNextKey_eq h hafter)⟩

private theorem dbSource_lists :
    (dbBlockStore lib).source.ListsFrom db ((dbBlockStore lib).firstBlock db) (order db) := by
  have hfirst := h.firstKey db
  cases horder : order db with
  | nil =>
    rw [horder, List.head?_nil] at hfirst
    simp only [dbBlockStore, dbFirstBlock, hfirst]
    rfl
  | cons key after =>
    rw [horder, List.head?_cons] at hfirst
    have hstart : (dbBlockStore lib).firstBlock db = (.ok (), some ⟨false, key⟩) := by
      simp only [dbBlockStore, dbFirstBlock, hfirst]
    rw [hstart]
    exact dbSource_listsFrom h db [] key after horder

private theorem dbSource_reads : (dbBlockStore lib).source.Reads db (pairs db) (order db) := by
  intro key hkey
  obtain ⟨block, hblock⟩ := Option.isSome_iff_exists.mp ((h.mem db key).mp hkey)
  refine .inr ⟨block, hblock, ?_⟩
  have hread := dbReadBlock_eq h (h.fits db key block hblock).1 [] db
  rw [hblock] at hread
  exact hread

end GenericDb

section BerkeleyDb

variable {κ : Type} {lib : BerkeleyDb δ κ} {pairs : δ → BlockMap} {ahead : κ → List KeyDataPair}
  (h : lib.Documented pairs ahead) {db : δ} (hshort : (pairs db).Shorter (2 ^ 32))

include h

private theorem bdbSource_listsFrom {cursor : κ} {rest : List KeyDataPair} (hcursor : ahead cursor = rest)
    (hkeys : ∀ pair ∈ rest, pair.1.length < 2 ^ 32) (key : Bytes) :
    (bdbSource lib).ListsFrom db (.ok (), some ⟨false, some cursor, key⟩) (key :: rest.keys) := by
  refine ⟨_, rfl, rfl, rfl, ?_⟩
  induction rest generalizing cursor key with
  | nil =>
    obtain ⟨cursor', hnext⟩ := bdbCursorNextify_nil h hcursor
    simp only [bdbSource, chopBdbItNext, hnext]
    rfl
  | cons pair rest ih =>
    obtain ⟨next, data⟩ := pair
    obtain ⟨hnext, hkeys⟩ := List.forall_mem_cons.mp hkeys
    obtain ⟨cursor', hmoved, hrest⟩ := bdbCursorNextify_cons h hcursor hnext
    have hmove : chopBdbItNext lib ⟨false, some cursor, key⟩ =
        (.ok (), ⟨false, some cursor', next⟩) := by
      simp only [chopBdbItNext, hmoved]
    simp only [bdbSource, hmove]
    exact ⟨_, rfl, rfl, rfl, ih hrest hkeys next⟩

include hshort

private theorem bdbSource_lists :
    (bdbSource lib).ListsFrom db ((bdbSource lib).firstBlock db) (ahead (lib.cursor db).2).keys := by
  have hlengths := cursor_keys_short h hshort
  have hstart : (bdbSource lib).firstBlock db = chopBdbFirstBlock lib db := rfl
  rcases chopBdbFirstBlock_cases h hshort with
    ⟨hahead, hfirst⟩ | ⟨key, data, rest, cursor, hahead, hrest, hfirst⟩
  · rw [hahead, hstart, hfirst]
    rfl
  · rw [hahead] at hlengths ⊢
    rw [hstart, hfirst]
    exact bdbSource_listsFrom h hrest (List.forall_mem_cons.mp hlengths).2 key

private theorem bdbSource_readBlock {key block : Bytes} (hkey : pairs db key = some block) :
    (block = [] ∧ ((bdbSource lib).readBlock key [] db).1 = .error .storeBlockUnavail) ∨
      (block ≠ [] ∧ (bdbSource lib).readBlock key [] db = (.ok (), block, block.length)) := by
  have hread := chopBdbReadBlock_eq h hshort (hshort key block hkey).1 []
  rw [hkey] at hread
  cases block with
  | nil => exact .inl ⟨rfl, congrArg Prod.fst hread⟩
  | cons byte block => exact .inr ⟨List.cons_ne_nil byte block, hread⟩

private theorem bdbSource_reads :
    (bdbSource lib).Reads db (pairs db) (ahead (lib.cursor db).2).keys := by
  intro key hkey
  obtain ⟨block, hblock⟩ := Option.isSome_iff_exists.mp ((mem_cursor_keys h).mp hkey)
  rcases bdbSource_readBlock h hshort hblock with ⟨-, herr⟩ | ⟨-, hread⟩
  · exact .inl ⟨_, herr⟩
  · exact .inr ⟨block, hblock, hread⟩

end BerkeleyDb

end Sources

/-- All keys of a map. -/
theorem BlockMap.overlay_all {m source : BlockMap} {keys : List Bytes}
    (hkeys : ∀ key, key ∈ keys ↔ (source key).isSome) :
    m.overlay source keys = fun key => (source key).or (m key) := by
  funext key
  rw [BlockMap.overlay]
  cases hkey : source key with
  | none =>
    have hnotin : key ∉ keys := by
      rw [hkeys key, hkey]
      decide
    rw [if_neg hnotin, Option.none_or]
  | some block =>
    have hin : key ∈ keys := by
      rw [hkeys key, hkey]
      rfl
    rw [if_pos hin, Option.some_or]

section Conversions

variable {δ : Type} {dest : StoreMethods τ} {contents : τ → BlockMap}

private theorem storeConvert_db {lib : DbLibrary δ} {pairs : δ → BlockMap} {order : δ → List Bytes}
    (h : lib.Documented pairs order) (hdest : MapStore dest contents) (db : δ) (d : τ) :
    ∃ status count d',
      Outcome.Settles (storeConvert (dbBlockStore lib).source db dest d) (status, count, d') ∧
      contents d' = (contents d).overlay (pairs db) ((order db).take count) ∧
      ((status = .ok () ∧ count = (order db).length ∧
          contents d' = fun key => (pairs db key).or (contents d key)) ∨
        ∃ key block d₁ err, (order db)[count]? = some key ∧ status = .error err ∧
          (dest.writeBlock key block d₁).1 = .error err) := by
  obtain ⟨status, count, d', hrun, hd', hending⟩ :=
    storeConvert_settles hdest (dbSource_reads h db) (dbSource_lists h db) d
  refine ⟨status, count, d', hrun, hd', ?_⟩
  cases hending with
  | complete =>
    refine .inl ⟨rfl, rfl, ?_⟩
    rw [hd', List.take_length, BlockMap.overlay_all (h.mem db)]
  | @unread n key err hkey herr =>
    obtain ⟨block, hblock⟩ :=
      Option.isSome_iff_exists.mp ((h.mem db key).mp (List.mem_of_getElem? hkey))
    have hread := dbReadBlock_eq h (h.fits db key block hblock).1 [] db
    rw [hblock] at hread
    have hok : ((dbBlockStore lib).source.readBlock key [] db).1 = .ok () := congrArg Prod.fst hread
    rw [hok] at herr
    cases herr
  | @unwritten n key block d₁ err hkey hwrite => exact .inr ⟨key, block, d₁, err, hkey, rfl, hwrite⟩

/-- A store on GDBM, TDB or QDBM is converted into any store that is a map.  The conversion ends; it has
copied as many blocks as it says, in the order of the database, and left all others as they were; and it
fails only where a write does. -/
theorem storeConvert_copies {lib : DbLibrary δ} {pairs : δ → BlockMap} {order : δ → List Bytes}
    (h : lib.Documented pairs order) {store : DbBlockStore δ}
    (hstore : (lib.dsize = intSize ∧ store = chopGdbmStoreOpen lib) ∨
      (lib.dsize = Int.ofNat ∧ store = chopTdbStoreOpen lib) ∨ store = chopQdbmStoreOpen lib)
    (hdest : MapStore dest contents) (db : δ) (d : τ) :
    ∃ status count d', Outcome.Settles (storeConvert store.source db dest d) (status, count, d') ∧
      contents d' = (contents d).overlay (pairs db) ((order db).take count) ∧
      ((status = .ok () ∧ count = (order db).length ∧
          contents d' = fun key => (pairs db key).or (contents d key)) ∨
        ∃ key block d₁ err, (order db)[count]? = some key ∧ status = .error err ∧
          (dest.writeBlock key block d₁).1 = .error err) := by
  rcases hstore with ⟨hdsize, rfl⟩ | ⟨hdsize, rfl⟩ | rfl
  · rw [chopGdbmStoreOpen_eq hdsize]
    exact storeConvert_db h hdest db d
  · rw [chopTdbStoreOpen_eq hdsize]
    exact storeConvert_db h.without_sync hdest db d
  · exact storeConvert_db h hdest db d

/-- Two blocks, one of which is empty. -/
def twoBlocks : PairList :=
  AList.insert [3] [] (AList.insert [1] [2] ∅)

/-- They are copied over what a map has. -/
theorem sampleStore_copied :
    ∃ status count d',
      Outcome.Settles (storeConvert (chopTdbStoreOpen listLibrary).source twoBlocks BlockMap.methods
        fun _ => some [9]) (status, count, d') ∧
      d' = BlockMap.overlay (fun _ => some [9]) twoBlocks.blockMap (twoBlocks.keys.take count) ∧
      ((status = .ok () ∧ count = twoBlocks.keys.length ∧
          d' = fun key => (twoBlocks.blockMap key).or (some [9])) ∨
        ∃ key block d₁ err, twoBlocks.keys[count]? = some key ∧ status = .error err ∧
          (BlockMap.methods.writeBlock key block d₁).1 = .error err) :=
  storeConvert_copies listLibrary_documented (.inr (.inl ⟨rfl, rfl⟩)) BlockMap.mapStore twoBlocks
    fun _ => some [9]

/-- A Berkeley DB store is converted, into a store whose writes do not fail, exactly when it has no empty
block. -/
theorem storeConvert_bdb_iff {κ : Type} {lib : BerkeleyDb δ κ} {pairs : δ → BlockMap}
    {ahead : κ → List KeyDataPair} (h : lib.Documented pairs ahead) {db : δ}
    (hshort : (pairs db).Shorter (2 ^ 32)) (hdest : MapStore dest contents)
    (hwrites : ∀ key block d, (dest.writeBlock key block d).1 = .ok ()) (d : τ) :
    ∃ status count d',
      Outcome.Settles (storeConvert (bdbSource lib) db dest d) (status, count, d') ∧
      (status = .ok () ↔ ∀ key, pairs db key ≠ some []) ∧
      (status = .ok () → contents d' = fun key => (pairs db key).or (contents d key)) ∧
      contents d' = (contents d).overlay (pairs db) ((ahead (lib.cursor db).2).keys.take count) := by
  obtain ⟨status, count, d', hrun, hd', hending⟩ :=
    storeConvert_settles hdest (bdbSource_reads h hshort) (bdbSource_lists h hshort) d
  cases hending with
  | complete hall =>
    refine ⟨.ok (), _, d', hrun, iff_of_true rfl fun key hkey => ?_, fun _ => ?_, hd'⟩
    · rcases bdbSource_readBlock h hshort hkey with ⟨-, herr⟩ | ⟨hne, -⟩
      · have hok := hall key ((mem_cursor_keys h).mpr (Option.isSome_iff_exists.mpr ⟨[], hkey⟩))
        rw [herr] at hok
        cases hok
      · exact hne rfl
    · rw [hd', List.take_length, BlockMap.overlay_all fun key => mem_cursor_keys h]
  | @unread n key err hkey herr =>
    refine ⟨.error err, _, d', hrun, iff_of_false (fun hok => ?_) fun hall => ?_, fun hok => ?_, hd'⟩
    · cases hok
    · obtain ⟨block, hblock⟩ :=
        Option.isSome_iff_exists.mp ((mem_cursor_keys h).mp (List.mem_of_getElem? hkey))
      rcases bdbSource_readBlock h hshort hblock with ⟨rfl, -⟩ | ⟨-, hread⟩
      · exact hall key hblock
      · rw [hread] at herr
        cases herr
    · cases hok
  | @unwritten n key block d₁ err hkey hwrite =>
    rw [hwrites] at hwrite
    cases hwrite

/-- A database with an empty block is not converted. -/
theorem twoBlocks_unconverted :
    ∃ status count d',
      Outcome.Settles (storeConvert (bdbSource listDatabase) twoBlocks BlockMap.methods
        fun _ => none) (status, count, d') ∧
      (status = .ok () ↔ ∀ key, twoBlocks.blockMap key ≠ some []) ∧
      (status = .ok () → d' = fun key => (twoBlocks.blockMap key).or none) ∧
      d' = BlockMap.overlay (fun _ => none) twoBlocks.blockMap (twoBlocks.entries.keys.take count) := by
  have hshort : twoBlocks.blockMap.Shorter (2 ^ 32) := by
    rw [twoBlocks, PairList.blockMap_insert, PairList.blockMap_insert]
    exact ((PairList.shorter_empty _).update (by decide) (by decide)).update (by decide) (by decide)
  exact storeConvert_bdb_iff listDatabase_documented hshort BlockMap.mapStore (fun _ _ _ => rfl)
    fun _ => none

end Conversions

end Libchop
