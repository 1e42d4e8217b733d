import Libchop.Buffer.PoolInvariant

/-!
# Buffers as byte lists

Whatever a program does with its buffers, each of them holds the byte list that the operations on it
define, and each block of memory has one owner.
-/

namespace Libchop

variable {ι : Type}

/-- The pool and the buffers of the program own their memory, and no block has two owners. -/
structure BufferState.Valid (s : BufferState ι) : Prop where
  memory : s.memory.Valid
  owns : ∀ id buffer, s.buffers id = some buffer → buffer.Owns s.memory.heap
  size_le : ∀ id buffer, s.buffers id = some buffer → buffer.size ≤ buffer.realSize
  apart_pool : ∀ id buffer, s.buffers id = some buffer →
    ∀ entry ∈ s.memory.bufferPool, buffer.Apart entry
  apart : ∀ id buffer id' buffer', s.buffers id = some buffer → s.buffers id' = some buffer' →
    id ≠ id' → buffer.Apart buffer'

def BufferState.contents (s : BufferState ι) (id : ι) : Option Bytes :=
  (s.buffers id).map (ChopBuffer.contents s.memory.heap)

def BufferState.Others (s : BufferState ι) (id : ι) (address : Nat) : Prop :=
  ∃ other buffer, other ≠ id ∧ s.buffers other = some buffer ∧ buffer.buffer = some address

theorem BufferState.valid_initial : (initial ι).Valid where
  memory := ⟨nofun, .nil, Nat.zero_le _, rfl, Nat.zero_lt_succ _⟩
  owns := nofun
  size_le := nofun
  apart_pool := nofun
  apart := nofun

section Focus

variable {s : BufferState ι} {id : ι}

/-- One buffer and the pool, with the blocks of the other buffers around them. -/
theorem BufferState.Valid.holds (h : s.Valid) {buffer : ChopBuffer}
    (hbuffer : s.buffers id = some buffer) : HoldsBuffer (s.Others id) s.memory buffer where
  valid := h.memory
  owns := h.owns id buffer hbuffer
  size_le := h.size_le id buffer hbuffer
  apart := h.apart_pool id buffer hbuffer
  frame_allocated := by
    rintro address ⟨other, owner, -, howner, haddress⟩
    exact (h.owns other owner howner).1 address haddress
  frame_apart := by
    rintro address ⟨other, owner, hne, howner, haddress⟩
    constructor
    · exact h.apart other owner id buffer howner hbuffer hne address haddress
    · intro entry hentry
      exact h.apart_pool other owner howner entry hentry address haddress

/-- A buffer that is about to be initialized. -/
theorem BufferState.Valid.holds_empty (h : s.Valid) : HoldsBuffer (s.Others id) s.memory .empty where
  valid := h.memory
  owns := ChopBuffer.owns_empty _
  size_le := Nat.le_refl 0
  apart := nofun
  frame_allocated := by
    rintro address ⟨other, owner, -, howner, haddress⟩
    exact (h.owns other owner howner).1 address haddress
  frame_apart := by
    rintro address ⟨other, owner, -, howner, haddress⟩
    refine ⟨nofun, ?_⟩
    intro entry hentry
    exact h.apart_pool other owner howner entry hentry address haddress

variable [DecidableEq ι] {memory : PoolMemory} {buffer : ChopBuffer}

/-- What an operation on one buffer leaves is put back among the others. -/
theorem BufferState.Valid.update (h : s.Valid) {value : Option ChopBuffer}
    (hvalue : ∀ new, value = some new → new = buffer)
    (hholds : HoldsBuffer (s.Others id) memory buffer)
    (hkeeps : Keeps (s.Others id) s.memory.heap memory.heap) :
    (BufferState.mk memory (Function.update s.buffers id value)).Valid := by
  -- The owners of the new state: the buffer itself, or one of the others.
  have hcases : ∀ owner b, Function.update s.buffers id value owner = some b →
      (owner = id ∧ b = buffer) ∨ (owner ≠ id ∧ s.buffers owner = some b) := by
    intro owner b hb
    by_cases howner : owner = id
    · subst howner
      rw [Function.update_self] at hb
      exact .inl ⟨rfl, hvalue b hb⟩
    · rw [Function.update_of_ne howner] at hb
      exact .inr ⟨howner, hb⟩
  have hothers : ∀ owner b, owner ≠ id → s.buffers owner = some b → ∀ address,
      b.buffer = some address → s.Others id address :=
    fun owner b hne hb address haddress => ⟨owner, b, hne, hb, haddress⟩
  constructor
  case memory => exact hholds.valid
  case owns =>
    intro owner b hb
    rcases hcases owner b hb with ⟨-, rfl⟩ | ⟨hne, hb⟩
    · exact hholds.owns
    · apply (h.owns owner b hb).congr
      intro address haddress
      exact hkeeps address (hothers owner b hne hb address haddress)
  case size_le =>
    intro owner b hb
    rcases hcases owner b hb with ⟨-, rfl⟩ | ⟨-, hb⟩
    · exact hholds.size_le
    · exact h.size_le owner b hb
  case apart_pool =>
    intro owner b hb entry hentry
    rcases hcases owner b hb with ⟨-, rfl⟩ | ⟨hne, hb⟩
    · exact hholds.apart entry hentry
    · intro address haddress
      exact (hholds.frame_apart address (hothers owner b hne hb address haddress)).2 entry hentry
  case apart =>
    have hother : ∀ owner b, owner ≠ id → s.buffers owner = some b → b.Apart buffer := by
      intro owner b hne hb address haddress
      exact (hholds.frame_apart address (hothers owner b hne hb address haddress)).1
    intro owner b owner' b' hb hb' hdistinct
    rcases hcases owner b hb with ⟨howner, rfl⟩ | ⟨hne, hb⟩
    · rcases hcases owner' b' hb' with ⟨howner', -⟩ | ⟨hne', hb'⟩
      · exact absurd (howner.trans howner'.symm) hdistinct
      · exact (hother owner' b' hne' hb').symm
    · rcases hcases owner' b' hb' with ⟨-, rfl⟩ | ⟨-, hb'⟩
      · exact hother owner b hne hb
      · exact h.apart owner b owner' b' hb hb' hdistinct

/-- The other buffers keep their contents. -/
theorem BufferState.contents_update (value : Option ChopBuffer)
    (hkeeps : Keeps (s.Others id) s.memory.heap memory.heap) :
    (BufferState.mk memory (Function.update s.buffers id value)).contents =
      Function.update s.contents id (value.map (ChopBuffer.contents memory.heap)) := by
  funext owner
  by_cases howner : owner = id
  · subst howner
    simp only [contents, Function.update_self]
  · simp only [contents, Function.update_of_ne howner]
    cases hb : s.buffers owner with
    | none => rfl
    | some b =>
      simp only [Option.map_some, ChopBuffer.contents]
      rw [Heap.bytesAt_congr]
      intro address haddress
      exact hkeeps address ⟨owner, b, howner, hb, haddress⟩

end Focus

section Runs

variable [DecidableEq ι]

/-- A buffer gets new contents, or keeps the old ones if there is no memory for them. -/
def Replaced (m : ι → Option Bytes) (id : ι) (new : Bytes) (err : Status)
    (m' : ι → Option Bytes) : Prop :=
  (err = .ok () ∧ m' = Function.update m id (some new)) ∨ (err = .error enomem ∧ m' = m)

/-- What the operations do to byte lists. -/
def bufferSpec (m : ι → Option Bytes) (op : Allocator × BufferRequest ι) (err : Status)
    (m' : ι → Option Bytes) : Prop :=
  match op.2 with
  | .init id _ =>
    (err = .ok () ∧ m' = Function.update m id (some [])) ∨
      (err = .error enomem ∧ m' = Function.update m id none)
  | .push id data => Replaced m id data err m'
  | .append id data => Replaced m id ((m id).getD [] ++ data) err m'
  | .clear id => err = .ok () ∧ m' = Function.update m id (some [])
  | .return id => err = .ok () ∧ m' = Function.update m id (some [])

/-- Buffers are initialized before anything else is done with them. -/
def LiveRequest (s : BufferState ι) (op : Allocator × BufferRequest ι) : Prop :=
  match op.2 with
  | .init _ _ => True
  | .push id _ | .append id _ | .clear id | .return id => (s.buffers id).isSome = true

instance (s : BufferState ι) : ∀ op, Decidable (LiveRequest s op)
  | (_, .init _ _) => .isTrue trivial
  | (_, .push id _) | (_, .append id _) | (_, .clear id) | (_, .return id) =>
    inferInstanceAs (Decidable ((s.buffers id).isSome = true))

/-- A state that stands for these byte lists. -/
def Represents (m : ι → Option Bytes) (s : BufferState ι) : Prop := s.Valid ∧ s.contents = m

variable {s : BufferState ι}

/-- An operation that is right for one buffer is right for the program. -/
theorem onBuffer_represents (h : s.Valid) {id : ι} {buffer buffer' : ChopBuffer}
    (hbuffer : s.buffers id = some buffer) {err : Status} {memory : PoolMemory} {new : Bytes}
    (operation : ChopBuffer → PoolMemory → Outcome (Status × ChopBuffer × PoolMemory))
    (hdone : operation buffer s.memory = .done (err, buffer', memory))
    (hresult : Result (s.Others id) s.memory buffer new err buffer' memory) :
    ∃ s' m', onBuffer s id operation = .done (err, s') ∧ Replaced s.contents id new err m' ∧
      Represents m' s' := by
  let s' : BufferState ι := ⟨memory, Function.update s.buffers id (some buffer')⟩
  have hvalid : s'.Valid := by
    apply h.update _ hresult.holds hresult.keeps
    intro new hnew
    exact (Option.some.inj hnew).symm
  have hcontents : s'.contents =
      Function.update s.contents id (some (buffer'.contents memory.heap)) :=
    BufferState.contents_update (some buffer') hresult.keeps
  refine ⟨s', s'.contents, ?_, ?_, hvalid, rfl⟩
  · simp only [onBuffer, hbuffer, hdone, Outcome.done_bind, s']
  · rw [hcontents]
    rcases hresult.contents with ⟨herr, hnew⟩ | ⟨herr, hold⟩
    · exact .inl ⟨herr, by rw [hnew]⟩
    · refine .inr ⟨herr, ?_⟩
      apply Function.update_eq_self_iff.mpr
      rw [hold, BufferState.contents, hbuffer, Option.map_some]

theorem init_represents (h : s.Valid) (allocator : Allocator) (id : ι) (size : Nat) :
    ∃ err s' m', bufferStep s (allocator, .init id size) = .done (err, s') ∧
      bufferSpec s.contents (allocator, .init id size) err m' ∧ Represents m' s' := by
  obtain ⟨memory, hkeeps, hinit⟩ := chopBufferInit_cases allocator h.holds_empty size
  rcases hinit with ⟨buffer, hinit, hholds, hempty⟩ | ⟨hinit, hholds⟩
  · let s' : BufferState ι := ⟨memory, Function.update s.buffers id (some buffer)⟩
    have hvalid : s'.Valid := by
      apply h.update _ hholds hkeeps
      intro new hnew
      exact (Option.some.inj hnew).symm
    refine ⟨.ok (), s', s'.contents, ?_, .inl ⟨rfl, ?_⟩, hvalid, rfl⟩
    · simp only [bufferStep, hinit, s']
    · rw [BufferState.contents_update (some buffer) hkeeps, Option.map_some, hempty]
  · let s' : BufferState ι := ⟨memory, Function.update s.buffers id none⟩
    have hvalid : s'.Valid := h.update nofun hholds hkeeps
    refine ⟨.error enomem, s', s'.contents, ?_, .inr ⟨rfl, ?_⟩, hvalid, rfl⟩
    · simp only [bufferStep, hinit, s']
    · rw [BufferState.contents_update none hkeeps, Option.map_none]

/-- Clearing a buffer forgets its size only. -/
theorem chopBufferClear_result {frame : Nat → Prop} {m : PoolMemory} {buffer : ChopBuffer}
    (h : HoldsBuffer frame m buffer) : Result frame m buffer [] (.ok ()) (chopBufferClear buffer) m where
  holds := { h with size_le := Nat.zero_le _ }
  keeps := Keeps.refl _
  contents := .inl ⟨rfl, List.take_zero⟩

theorem chopBufferReturn_result {frame : Nat → Prop} {m : PoolMemory} {buffer : ChopBuffer}
    (h : HoldsBuffer frame m buffer) :
    Result frame m buffer [] (.ok ()) .empty (chopBufferReturn buffer m) where
  holds := h.return.1
  keeps := h.return.2
  contents := .inl ⟨rfl, rfl⟩

theorem Replaced.of_ok {m m' : ι → Option Bytes} {id : ι} {new : Bytes}
    (h : Replaced m id new (.ok ()) m') : m' = Function.update m id (some new) := by
  rcases h with ⟨-, h⟩ | ⟨herr, -⟩
  · exact h
  · cases herr

/-- Every operation does what it does to byte lists. -/
theorem bufferStep_represents (m : ι → Option Bytes) (s : BufferState ι)
    (op : Allocator × BufferRequest ι) (h : Represents m s) (hlive : LiveRequest s op) :
    ∃ err s' m', bufferStep s op = .done (err, s') ∧ bufferSpec m op err m' ∧ Represents m' s' := by
  obtain ⟨allocator, request⟩ := op
  obtain ⟨hvalid, rfl⟩ := h
  cases request with
  | init id size => exact init_represents hvalid allocator id size
  | push id data =>
    obtain ⟨buffer, hbuffer⟩ := Option.isSome_iff_exists.mp hlive
    obtain ⟨err, buffer', memory, hdone, hresult⟩ :=
      chopBufferPush_result allocator (hvalid.holds hbuffer) data
    obtain ⟨s', m', hstep, hspec, hrep⟩ := onBuffer_represents hvalid hbuffer
      (fun buffer => chopBufferPush allocator buffer data) hdone hresult
    exact ⟨err, s', m', hstep, hspec, hrep⟩
  | append id data =>
    obtain ⟨buffer, hbuffer⟩ := Option.isSome_iff_exists.mp hlive
    obtain ⟨err, buffer', memory, hdone, hresult⟩ :=
      chopBufferAppend_result allocator (hvalid.holds hbuffer) data
    obtain ⟨s', m', hstep, hspec, hrep⟩ := onBuffer_represents hvalid hbuffer
      (fun buffer => chopBufferAppend allocator buffer data) hdone hresult
    refine ⟨err, s', m', hstep, ?_, hrep⟩
    have hcontents : s.contents id = some (buffer.contents s.memory.heap) := by
      rw [BufferState.contents, hbuffer, Option.map_some]
    simp only [bufferSpec, hcontents, Option.getD_some]
    exact hspec
  | clear id =>
    obtain ⟨buffer, hbuffer⟩ := Option.isSome_iff_exists.mp hlive
    obtain ⟨s', m', hstep, hspec, hrep⟩ := onBuffer_represents hvalid hbuffer
      (fun buffer m => .done (.ok (), chopBufferClear buffer, m)) rfl
      (chopBufferClear_result (hvalid.holds hbuffer))
    exact ⟨.ok (), s', m', hstep, ⟨rfl, hspec.of_ok⟩, hrep⟩
  | «return» id =>
    obtain ⟨buffer, hbuffer⟩ := Option.isSome_iff_exists.mp hlive
    obtain ⟨s', m', hstep, hspec, hrep⟩ := onBuffer_represents hvalid hbuffer
      (fun buffer m => .done (.ok (), .empty, chopBufferReturn buffer m)) rfl
      (chopBufferReturn_result (hvalid.holds hbuffer))
    exact ⟨.ok (), s', m', hstep, ⟨rfl, hspec.of_ok⟩, hrep⟩

/-- Whatever a program does with its buffers, with any allocator: each buffer holds the byte list that
the operations define, the pool keeps its limits and its count, and no block has two owners. -/
theorem bufferRun_represents (ops : List (Allocator × BufferRequest ι))
    (hlive : Refinement.Admissible bufferStep LiveRequest (BufferState.initial ι) ops) :
    ∃ replies s m, Refinement.run bufferStep (BufferState.initial ι) ops = .done (replies, s) ∧
      Refinement.Allows bufferSpec (fun _ => none) ops replies m ∧ s.contents = m ∧ s.Valid := by
  have hinitial : Represents (fun _ => none) (BufferState.initial ι) :=
    ⟨BufferState.valid_initial, rfl⟩
  obtain ⟨replies, s, m, hrun, hallows, hvalid, hcontents⟩ :=
    Refinement.run_refines (fun m s op _ => bufferStep_represents m s op)
      (fun _ _ => trivial) hinitial hlive
  exact ⟨replies, s, m, hrun, hallows, hcontents, hvalid⟩

end Runs

section Sample

/-- Four blocks, of which the first free one is taken; a block grows where it is. -/
def fourBlocks : Allocator where
  malloc heap _ := (List.range 4).find? fun address => (heap address).isNone
  realloc heap block _ := block.or ((List.range 4).find? fun address => (heap address).isNone)
  junk _ := 0xff
  malloc_fresh := by
    intro heap size address h
    have hfree := List.find?_some h
    exact Option.isNone_iff_eq_none.mp hfree
  realloc_fresh := by
    intro heap block size address h
    cases block with
    | none =>
      have hfree := List.find?_some h
      exact .inr (Option.isNone_iff_eq_none.mp hfree)
    | some old => exact .inl h

/-- A buffer that grows takes the block of another one, which was returned before. -/
def sampleBufferRequests : List (Allocator × BufferRequest Bool) :=
  [(fourBlocks, .init false 2), (fourBlocks, .init true 8), (fourBlocks, .push false [1, 2]),
    (fourBlocks, .push true [7, 7, 7, 7]), (fourBlocks, .return true),
    (fourBlocks, .append false [3]), (fourBlocks, .init true 1), (fourBlocks, .append true [9, 9, 9])]

theorem sampleBufferRun_represents :
    Refinement.Admissible bufferStep LiveRequest (BufferState.initial Bool) sampleBufferRequests ∧
    ∃ replies s m,
      Refinement.run bufferStep (BufferState.initial Bool) sampleBufferRequests =
        .done (replies, s) ∧
      Refinement.Allows bufferSpec (fun _ => none) sampleBufferRequests replies m ∧
      s.contents = m ∧ s.Valid :=
  ⟨by decide, bufferRun_represents sampleBufferRequests (by decide)⟩

end Sample

end Libchop
