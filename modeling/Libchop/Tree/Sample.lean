import Libchop.Tree.Preserved
import Libchop.Tree.Reader

/-!
# A block indexer and a block fetcher to run the model on

Blocks are kept in one list for both stores and named by their position, as the integer block
indexer names them by a counter.  Handles are unbounded here, so their serialization is unary.
-/

namespace Libchop

/-- The blocks written so far, with the store each went to. -/
abbrev ListStore := List (StoreRole × Bytes)

def unarySerialize (id : Nat) : Bytes := List.replicate id 1 ++ [0]

def unaryDeserialize : Bytes → Except ChopError (Nat × Nat)
  | [] => .error (.code 0)
  | b :: bs =>
    if b = 0 then .ok (0, 1)
    else (unaryDeserialize bs).map fun (id, size) => (id + 1, size + 1)

theorem unaryDeserialize_serialize (id : Nat) (rest : Bytes) :
    unaryDeserialize (unarySerialize id ++ rest) = .ok (id, (unarySerialize id).length) := by
  induction id with
  | zero => rfl
  | succ id ih =>
    simp only [unarySerialize, List.append_assoc, List.singleton_append] at ih
    simp [unarySerialize, unaryDeserialize, List.replicate_succ, ih, Except.map]

def listIndexer : BlockIndexer ListStore Nat where
  index role b w := (.ok w.length, w ++ [(role, b)])
  serialize := unarySerialize
  hasMemory _ _ := true

def listHolds (w : ListStore) : Holds Nat := fun role h b => w[h]? = some (role, b)

theorem listIndexer_keepsBlocks : KeepsBlocks listIndexer listHolds := by
  constructor
  · intro role b w h w' heq
    simp only [listIndexer, Prod.mk.injEq, Except.ok.injEq] at heq
    obtain ⟨rfl, rfl⟩ := heq
    simp [listHolds]
  · intro role b w role' h c hold
    have hlt := (List.getElem?_eq_some_iff.mp hold).1
    simp only [listIndexer, listHolds, List.getElem?_append_left hlt]
    exact hold

theorem listIndexer_reliable (n : Nat) : Reliable listIndexer n where
  writes _ _ w := ⟨w.length, _, rfl⟩
  memory _ := rfl

/-- The same store in a process that cannot allocate `2 ^ 62` bytes. -/
def smallMemoryIndexer : BlockIndexer ListStore Nat :=
  { listIndexer with hasMemory := fun size _ => decide (size < 2 ^ 62) }

/-- The fetcher of the same store.  Memory that was never written reads as zeros here. -/
def listFetcher : BlockFetcher ListStore Nat where
  fetch role h w :=
    match w[h]? with
    | some (role', b) => (if role' = role then .ok b else .error (.storeBlockUnavail, []), w)
    | none => (.error (.storeBlockUnavail, []), w)
  deserialize := unaryDeserialize
  uninitialized _ := ⟨[], 0, false, 0, 0, 0, false⟩

theorem listFetcher_fetch {w : ListStore} {role : StoreRole} {h : Nat} {b : Bytes}
    (hold : listHolds w role h b) : listFetcher.fetch role h w = (.ok b, w) := by
  have hget : w[h]? = some (role, b) := hold
  simp [listFetcher, hget]

theorem listFetcher_fetchesBlocks : FetchesBlocks listFetcher unarySerialize listHolds := by
  constructor
  · intro role h b w c w' hold hfetch
    rw [listFetcher_fetch hold] at hfetch
    injection hfetch with hb
    injection hb with hb
    exact hb.symm
  · intro role h w role' h' c hold
    simp only [listFetcher]
    split
    · exact hold
    · exact hold
  · exact unaryDeserialize_serialize

/-- The same store behind a link that loses the operations numbered by `fails`. -/
abbrev FlakyStore := Nat × ListStore

def flakyIndexer (fails : Nat → Bool) : BlockIndexer FlakyStore Nat where
  index role b w :=
    if fails w.1 then (.error (.code 5), (w.1 + 1, w.2))
    else (.ok w.2.length, (w.1 + 1, w.2 ++ [(role, b)]))
  serialize := unarySerialize
  hasMemory _ _ := true

def flakyFetcher (fails : Nat → Bool) : BlockFetcher FlakyStore Nat where
  fetch role h w :=
    if fails w.1 then (.error (.code 5, []), (w.1 + 1, w.2))
    else ((listFetcher.fetch role h w.2).1, (w.1 + 1, w.2))
  deserialize := unaryDeserialize
  uninitialized _ := ⟨[], 0, false, 0, 0, 0, false⟩

def flakyHolds (w : FlakyStore) : Holds Nat := listHolds w.2

theorem flakyIndexer_keepsBlocks (fails : Nat → Bool) :
    KeepsBlocks (flakyIndexer fails) flakyHolds := by
  constructor
  · intro role b w h w' heq
    simp only [flakyIndexer] at heq
    split at heq
    · simp at heq
    · simp only [Prod.mk.injEq, Except.ok.injEq] at heq
      obtain ⟨rfl, rfl⟩ := heq
      simp [flakyHolds, listHolds]
  · intro role b w role' h c hold
    simp only [flakyIndexer]
    split
    · exact hold
    · exact listIndexer_keepsBlocks.keeps role b w.2 role' h c hold

theorem flakyFetcher_fetchesBlocks (fails : Nat → Bool) :
    FetchesBlocks (flakyFetcher fails) unarySerialize flakyHolds := by
  constructor
  · intro role h b w c w' hold hfetch
    simp only [flakyFetcher] at hfetch
    split at hfetch
    · simp at hfetch
    · rw [listFetcher_fetch hold] at hfetch
      injection hfetch with hb
      injection hb with hb
      exact hb.symm
  · intro role h w role' h' c hold
    simp only [flakyFetcher]
    split
    · exact hold
    · exact hold
  · exact unaryDeserialize_serialize

theorem flakyFetcher_noEndFailure (fails : Nat → Bool) :
    NoEndFailure (flakyFetcher fails) flakyHolds := by
  intro role h b w e left w' hold hfetch
  simp only [flakyFetcher] at hfetch
  split at hfetch
  · injection hfetch with he
    injection he with he
    injection he with he
    rw [← he]
    decide
  · rw [listFetcher_fetch hold] at hfetch
    simp at hfetch

end Libchop
