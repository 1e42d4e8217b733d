import Libchop.Basic
import Libchop.Framework.Iteration
import Libchop.Framework.Refinement
import Mathlib.Logic.Function.Basic

/-!
# The block store interface

What a block store is for: a finite map from keys to blocks, with the error codes of its interface.
-/

namespace Libchop

/-- What is stored under each key. -/
abbrev BlockMap := Bytes → Option Bytes

/-- The requests of the block store interface.  A traversal goes from the first block to the end,
and then moves its iterator a number of times more. -/
inductive StoreRequest where
  | writeBlock (key block : Bytes)
  | readBlock (key : Bytes)
  | deleteBlock (key : Bytes)
  | blocksExist (keys : List Bytes)
  | traverse (again : Nat)
deriving DecidableEq, Repr

namespace StoreRequest

def keys : StoreRequest → List Bytes
  | .writeBlock key _ => [key]
  | .readBlock key => [key]
  | .deleteBlock key => [key]
  | .blocksExist keys => keys
  | .traverse _ => []

def data : StoreRequest → List Bytes
  | .writeBlock key block => [key, block]
  | .readBlock key => [key]
  | .deleteBlock key => [key]
  | .blocksExist keys => keys
  | .traverse _ => []

def isTraversal : StoreRequest → Bool
  | .traverse _ => true
  | _ => false

end StoreRequest

/-- What a request returns.  A block is read into a cleared buffer. -/
inductive StoreReply where
  | status (err : Status)
  | block (err : Status) (buffer : Bytes) (size : Nat)
  | flags (err : Status) (exist : List Bool)
  | traversal (keys : List Bytes) (ends : List Status)

/-- The reply to a read that left an error code, a buffer and a size. -/
def StoreReply.ofRead (result : Status × Bytes × Nat) : StoreReply :=
  .block result.1 result.2.1 result.2.2

/-- A traversal from the first block on, and the moves after it.  A client has no iterator to move where
none was started. -/
def traversalReply {It : Type} (next : It → Outcome (Status × It)) (key : It → Bytes) (fuel again : Nat) :
    Status × Option It → Outcome StoreReply
  | (err, none) => .done (.traversal [] (List.replicate (again + 1) err))
  | (err, some it) =>
    Iteration.traverse next key fuel (err, it) >>= fun (keys, last, it) =>
      Iteration.nextAgain next again it >>= fun ends => .done (.traversal keys (.error last :: ends))

theorem traversalReply_enumerates {It : Type} {next : It → Outcome (Status × It)} {key : It → Bytes}
    {Ended : It → Prop} (hended : ∀ it, Ended it → next it = .done (.error .storeEnd, it)) {err : Status}
    {it : It} {keys : List Bytes}
    (h : Iteration.Enumerates next key ChopError.storeEnd Ended (err, it) keys) (again : Nat) :
    Outcome.Settles (fun fuel => traversalReply next key fuel again (err, some it))
      (.traversal keys (List.replicate (again + 1) (.error .storeEnd))) := by
  refine ⟨keys.length + 1, fun fuel hfuel => ?_⟩
  obtain ⟨it', htraverse, hit'⟩ := Iteration.traverse_enumerates h (Nat.lt_of_succ_le hfuel)
  have hagain : Iteration.nextAgain next again it' = .done (List.replicate again (.error .storeEnd)) :=
    Iteration.nextAgain_of_ended (fun it hit => ⟨it, hended it hit, hit⟩) hit' again
  simp only [traversalReply, htraverse, hagain, Outcome.done_bind, List.replicate_succ]

namespace BlockMap

/-- All keys and blocks are shorter than this. -/
def Shorter (bound : Nat) (m : BlockMap) : Prop :=
  ∀ key block, m key = some block → key.length < bound ∧ block.length < bound

theorem Shorter.update {bound : Nat} {m : BlockMap} (h : m.Shorter bound) {key block : Bytes}
    (hkey : key.length < bound) (hblock : block.length < bound) :
    Shorter bound (Function.update m key (some block)) := by
  intro other found hfound
  by_cases hother : other = key
  · rw [hother, Function.update_self] at hfound
    cases hfound
    exact ⟨hother ▸ hkey, hblock⟩
  · rw [Function.update_of_ne hother] at hfound
    exact h other found hfound

theorem Shorter.erase {bound : Nat} {m : BlockMap} (h : m.Shorter bound) (key : Bytes) :
    Shorter bound (Function.update m key none) := by
  intro other found hfound
  by_cases hother : other = key
  · rw [hother, Function.update_self] at hfound
    cases hfound
  · rw [Function.update_of_ne hother] at hfound
    exact h other found hfound

/-- The reply of the map to a request, and the map after it.  Only the order in which a traversal
comes to the keys is left open. -/
def Replies (m : BlockMap) : StoreRequest → StoreReply → BlockMap → Prop
  | .writeBlock key block, reply, m' =>
    reply = .status (.ok ()) ∧ m' = Function.update m key (some block)
  | .readBlock key, reply, m' =>
    m' = m ∧ reply =
      match m key with
      | some block => .block (.ok ()) block block.length
      | none => .block (.error .storeBlockUnavail) [] 0
  | .deleteBlock key, reply, m' =>
    if (m key).isSome then reply = .status (.ok ()) ∧ m' = Function.update m key none
    else reply = .status (.error .storeBlockUnavail) ∧ m' = m
  | .blocksExist keys, reply, m' =>
    m' = m ∧ reply = .flags (.ok ()) (keys.map fun key => (m key).isSome)
  | .traverse again, reply, m' =>
    m' = m ∧ ∃ keys : List Bytes, keys.Nodup ∧ (∀ key, key ∈ keys ↔ (m key).isSome) ∧
      reply = .traversal keys (List.replicate (again + 1) (.error .storeEnd))

/-- The reply of the map, or a write that fails and changes nothing. -/
def RepliesOrFails (m : BlockMap) (request : StoreRequest) (reply : StoreReply) (m' : BlockMap) : Prop :=
  m.Replies request reply m' ∨
    ∃ key block, request = .writeBlock key block ∧ reply = .status (.error .storeError) ∧ m' = m

theorem Replies.unique {m m₁ m₂ : BlockMap} {request : StoreRequest} {reply : StoreReply}
    (h₁ : m.Replies request reply m₁) (h₂ : m.Replies request reply m₂) : m₁ = m₂ := by
  cases request with
  | writeBlock key block => exact h₁.2.trans h₂.2.symm
  | readBlock key => exact h₁.1.trans h₂.1.symm
  | deleteBlock key =>
    rw [Replies] at h₁ h₂
    split at h₁
    · next hkey =>
      rw [if_pos hkey] at h₂
      exact h₁.2.trans h₂.2.symm
    · next hkey =>
      rw [if_neg hkey] at h₂
      exact h₁.2.trans h₂.2.symm
  | blocksExist keys => exact h₁.1.trans h₂.1.symm
  | traverse again => exact h₁.1.trans h₂.1.symm

end BlockMap

/-- The methods of a store that other components use. -/
structure StoreMethods (σ : Type) where
  blocksExist : (keys : List Bytes) → σ → Except ChopError (Fin keys.length → Bool) × σ
  readBlock : Bytes → σ → Except ChopError Bytes × σ
  writeBlock : Bytes → Bytes → σ → Status × σ
  sync : σ → Status × σ

/-- The store is a map.  A read returns what is there, and a write happens as a whole or not
at all. -/
structure MapStore {σ : Type} (methods : StoreMethods σ) (contents : σ → BlockMap) : Prop where
  blocksExist : ∀ keys s, contents (methods.blocksExist keys s).2 = contents s
  readBlock : ∀ key s, contents (methods.readBlock key s).2 = contents s ∧
    (methods.readBlock key s).1 =
      match contents s key with
      | some block => .ok block
      | none => .error .storeBlockUnavail
  writeBlock : ∀ key block s,
    ((methods.writeBlock key block s).1 = .ok () ∧
      contents (methods.writeBlock key block s).2 = Function.update (contents s) key (some block)) ∨
    ∃ err, (methods.writeBlock key block s).1 = .error err ∧
      contents (methods.writeBlock key block s).2 = contents s
  sync : ∀ s, contents (methods.sync s).2 = contents s

namespace MapStore

variable {σ : Type} {methods : StoreMethods σ} {contents : σ → BlockMap}
  (h : MapStore methods contents)

include h

theorem write_cases (key block : Bytes) (s : σ) :
    (∃ s', methods.writeBlock key block s = (.ok (), s') ∧
      contents s' = Function.update (contents s) key (some block)) ∨
    ∃ err s', methods.writeBlock key block s = (.error err, s') ∧ contents s' = contents s := by
  rcases h.writeBlock key block s with ⟨hok, hcontents⟩ | ⟨err, herr, hcontents⟩
  · exact .inl ⟨_, Prod.ext hok rfl, hcontents⟩
  · exact .inr ⟨err, _, Prod.ext herr rfl, hcontents⟩

theorem read_cases (key : Bytes) (s : σ) :
    (∃ block s', contents s key = some block ∧ methods.readBlock key s = (.ok block, s') ∧
      contents s' = contents s) ∨
    ∃ s', contents s key = none ∧ methods.readBlock key s = (.error .storeBlockUnavail, s') ∧
      contents s' = contents s := by
  obtain ⟨hkeep, hread⟩ := h.readBlock key s
  cases hkey : contents s key with
  | none =>
    rw [hkey] at hread
    exact .inr ⟨_, rfl, Prod.ext hread rfl, hkeep⟩
  | some block =>
    rw [hkey] at hread
    exact .inl ⟨block, _, rfl, Prod.ext hread rfl, hkeep⟩

end MapStore

def BlockMap.methods : StoreMethods BlockMap where
  blocksExist keys m := (.ok fun i => (m (keys.get i)).isSome, m)
  readBlock key m :=
    match m key with
    | some block => (.ok block, m)
    | none => (.error .storeBlockUnavail, m)
  writeBlock key block m := (.ok (), Function.update m key (some block))
  sync m := (.ok (), m)

theorem BlockMap.mapStore : MapStore BlockMap.methods id where
  blocksExist _ _ := rfl
  readBlock key m := by
    cases h : m key with
    | none => simp [methods, h]
    | some block => simp [methods, h]
  writeBlock _ _ _ := .inl ⟨rfl, rfl⟩
  sync _ := rfl

end Libchop
