import Libchop.Buffer.BufferPool
import Mathlib.Algebra.BigOperators.Group.List.Basic
import Mathlib.Data.List.Perm.Basic

/-!
# Ownership of buffer memory

Each operation works on one buffer and on the pool, while the memory of the other buffers stays as it
is.  What holds for one buffer and such a frame is put together for all of them.
-/

namespace Libchop

namespace ChopBuffer

/-- The buffer owns a block of its real size. -/
def Owns (heap : Heap) (buffer : ChopBuffer) : Prop :=
  heap.Allocated buffer.buffer ∧ (heap.bytesAt buffer.buffer).length = buffer.realSize

def contents (heap : Heap) (buffer : ChopBuffer) : Bytes :=
  (heap.bytesAt buffer.buffer).take buffer.size

/-- Two buffers do not share a block. -/
def Apart (b b' : ChopBuffer) : Prop := ∀ address, b.buffer = some address → b'.buffer ≠ some address

theorem Apart.symm {b b' : ChopBuffer} (h : b.Apart b') : b'.Apart b :=
  fun address hb' hb => h address hb hb'

theorem owns_empty (heap : Heap) : empty.Owns heap := ⟨Heap.allocated_none, rfl⟩

end ChopBuffer

/-- The pool owns its blocks, keeps its limits and counts its bytes. -/
structure PoolMemory.Valid (m : PoolMemory) : Prop where
  owns : ∀ entry ∈ m.bufferPool, entry.Owns m.heap
  apart : m.bufferPool.Pairwise ChopBuffer.Apart
  length_le : m.bufferPool.length ≤ bufferPoolMaxSize
  available_eq : m.bufferPoolAvailable = (m.bufferPool.map ChopBuffer.realSize).sum
  available_lt : m.bufferPoolAvailable < bufferPoolMaxAvailable

/-- A buffer and the pool, next to blocks that others own. -/
structure HoldsBuffer (frame : Nat → Prop) (m : PoolMemory) (buffer : ChopBuffer) : Prop where
  valid : m.Valid
  owns : buffer.Owns m.heap
  size_le : buffer.size ≤ buffer.realSize
  apart : ∀ entry ∈ m.bufferPool, buffer.Apart entry
  frame_allocated : ∀ address, frame address → (m.heap address).isSome = true
  frame_apart : ∀ address, frame address →
    buffer.buffer ≠ some address ∧ ∀ entry ∈ m.bufferPool, entry.buffer ≠ some address

/-- The blocks of others stay as they are. -/
def Keeps (frame : Nat → Prop) (heap heap' : Heap) : Prop :=
  ∀ address, frame address → heap' address = heap address

section Removal

/-- The entry that is taken out and the entries that are left. -/
theorem removeFromPool_perm {pool : List ChopBuffer} {position : Nat} {found : ChopBuffer}
    (h : pool[position]? = some found) :
    pool.Perm (found :: removeFromPool pool position) := by
  obtain ⟨hlt, hfound⟩ := List.getElem?_eq_some_iff.mp h
  have hsplit : pool = pool.take position ++ found :: pool.drop (position + 1) := by
    rw [← hfound, List.getElem_cons_drop, List.take_append_drop]
  have hlength : (pool.take position).length = position := List.length_take_of_le (Nat.le_of_lt hlt)
  generalize pool.take position = before at hsplit hlength
  generalize pool.drop (position + 1) = after at hsplit
  subst hsplit
  rw [removeFromPool, List.getLast?_append]
  rcases List.eq_nil_or_concat after with rfl | ⟨middle, last, rfl⟩
  · have hset : (before ++ [found]).set position found = before ++ [found] := by
      rw [← hlength, List.set_append_right _ _ (Nat.le_refl _), Nat.sub_self, List.set_cons_zero]
    simp only [List.getLast?_singleton, Option.some_or, hset, List.dropLast_concat]
    exact List.perm_append_singleton found before
  · rw [List.concat_eq_append]
    have hlast : (found :: (middle ++ [last])).getLast? = some last := by
      rw [← List.cons_append, List.getLast?_concat]
    have hset : (before ++ found :: (middle ++ [last])).set position last =
        before ++ last :: middle ++ [last] := by
      rw [← hlength, List.set_append_right _ _ (Nat.le_refl _), Nat.sub_self, List.set_cons_zero]
      simp
    rw [hlast, Option.some_or]
    simp only [hset, List.dropLast_concat]
    refine List.perm_middle.trans (List.Perm.cons found ?_)
    exact List.Perm.append_left before (List.perm_append_singleton last middle)

structure Found (size : Nat) (m : PoolMemory) (found : ChopBuffer) (m' : PoolMemory) : Prop where
  size_le : size ≤ found.realSize
  perm : m.bufferPool.Perm (found :: m'.bufferPool)
  heap_eq : m'.heap = m.heap
  available_eq : m'.bufferPoolAvailable = m.bufferPoolAvailable - found.realSize

theorem findBufferInPool_found {size : Nat} {m m' : PoolMemory} {found : ChopBuffer}
    (h : findBufferInPool size m = some (found, m')) : Found size m found m' := by
  rw [findBufferInPool] at h
  split at h
  · cases h
  · next position hposition =>
    obtain ⟨entry, hentry, heq⟩ := Option.map_eq_some_iff.mp h
    cases heq
    obtain ⟨hlt, hsize, -⟩ := List.findIdx?_eq_some_iff_getElem.mp hposition
    obtain ⟨hlt', hget⟩ := List.getElem?_eq_some_iff.mp hentry
    rw [hget] at hsize
    exact ⟨of_decide_eq_true hsize, removeFromPool_perm hentry, rfl, rfl⟩

theorem PoolMemory.Valid.found {size : Nat} {m m' : PoolMemory} {found : ChopBuffer}
    (hvalid : m.Valid) (h : Found size m found m') :
    m'.Valid ∧ found.Owns m'.heap ∧ ∀ entry ∈ m'.bufferPool, found.Apart entry := by
  have hmem : ∀ entry, entry ∈ found :: m'.bufferPool → entry ∈ m.bufferPool :=
    fun entry hentry => h.perm.mem_iff.mpr hentry
  have hpairwise : (found :: m'.bufferPool).Pairwise ChopBuffer.Apart :=
    h.perm.pairwise hvalid.apart fun hab => hab.symm
  have hsum : m.bufferPoolAvailable =
      found.realSize + (m'.bufferPool.map ChopBuffer.realSize).sum := by
    rw [hvalid.available_eq, (h.perm.map ChopBuffer.realSize).sum_eq, List.map_cons, List.sum_cons]
  have hlength : m.bufferPool.length = m'.bufferPool.length + 1 := h.perm.length_eq
  have havailable := h.available_eq
  have hlt := hvalid.available_lt
  have hle := hvalid.length_le
  obtain ⟨hfound, hrest⟩ := List.pairwise_cons.mp hpairwise
  refine ⟨⟨?_, hrest, by omega, by omega, by omega⟩, ?_, hfound⟩
  · intro entry hentry
    rw [h.heap_eq]
    exact hvalid.owns entry (hmem entry (List.mem_cons_of_mem _ hentry))
  · rw [h.heap_eq]
    exact hvalid.owns found (hmem found List.mem_cons_self)

end Removal

section Focus

variable {frame : Nat → Prop} {m m' : PoolMemory} {buffer : ChopBuffer}

theorem Keeps.refl (heap : Heap) : Keeps frame heap heap := fun _ _ => rfl

theorem Keeps.trans {heap heap' heap'' : Heap} (h : Keeps frame heap heap')
    (h' : Keeps frame heap' heap'') : Keeps frame heap heap'' :=
  fun address ha => (h' address ha).trans (h address ha)

/-- Memory that changed only where neither the pool nor the frame owns a block. -/
theorem PoolMemory.Valid.heap_congr (hvalid : m.Valid) {heap' : Heap}
    (h : ∀ entry ∈ m.bufferPool, ∀ address, entry.buffer = some address →
      heap' address = m.heap address) : PoolMemory.Valid { m with heap := heap' } where
  owns := by
    intro entry hentry
    obtain ⟨hallocated, hlength⟩ := hvalid.owns entry hentry
    exact ⟨Heap.allocated_congr hallocated (h entry hentry),
      by rw [Heap.bytesAt_congr (h entry hentry)]; exact hlength⟩
  apart := hvalid.apart
  length_le := hvalid.length_le
  available_eq := hvalid.available_eq
  available_lt := hvalid.available_lt

/-- The buffer may be given another block, as long as that belongs to nobody else. -/
theorem HoldsBuffer.heap_update (h : HoldsBuffer frame m buffer) {heap' : Heap} {buffer' : ChopBuffer}
    (hblock : ∀ address, buffer'.buffer = some address →
      buffer.buffer = some address ∨ m.heap address = none)
    (howns : buffer'.Owns heap') (hsize : buffer'.size ≤ buffer'.realSize)
    (hother : ∀ other, buffer'.buffer ≠ some other → buffer.buffer ≠ some other →
      heap' other = m.heap other) :
    HoldsBuffer frame { m with heap := heap' } buffer' ∧ Keeps frame m.heap heap' := by
  have hforeign : ∀ other, (m.heap other).isSome = true → buffer.buffer ≠ some other →
      buffer'.buffer ≠ some other := by
    intro other hallocated hne hsame
    rcases hblock other hsame with hbuffer | hnone
    · exact hne hbuffer
    · rw [hnone] at hallocated
      cases hallocated
  have hpool : ∀ entry ∈ m.bufferPool, ∀ other, entry.buffer = some other →
      buffer'.buffer ≠ some other ∧ buffer.buffer ≠ some other := by
    intro entry hentry other hentryBlock
    have hbuffer : buffer.buffer ≠ some other :=
      fun hbuffer => h.apart entry hentry other hbuffer hentryBlock
    exact ⟨hforeign other ((h.valid.owns entry hentry).1 other hentryBlock) hbuffer, hbuffer⟩
  have hframe : ∀ other, frame other →
      buffer'.buffer ≠ some other ∧ buffer.buffer ≠ some other := by
    intro other hframed
    have hbuffer := (h.frame_apart other hframed).1
    exact ⟨hforeign other (h.frame_allocated other hframed) hbuffer, hbuffer⟩
  have hkeeps : Keeps frame m.heap heap' := by
    intro other hframed
    exact hother other (hframe other hframed).1 (hframe other hframed).2
  refine ⟨⟨?_, howns, hsize, ?_, ?_, ?_⟩, hkeeps⟩
  · apply h.valid.heap_congr
    intro entry hentry other hentryBlock
    exact hother other (hpool entry hentry other hentryBlock).1
      (hpool entry hentry other hentryBlock).2
  · intro entry hentry other hbuffer hentryBlock
    exact (hpool entry hentry other hentryBlock).1 hbuffer
  · intro other hframed
    change (heap' other).isSome = true
    rw [hkeeps other hframed]
    exact h.frame_allocated other hframed
  · intro other hframed
    exact ⟨(hframe other hframed).1, (h.frame_apart other hframed).2⟩

/-- A copy into the block of the buffer. -/
theorem HoldsBuffer.write (h : HoldsBuffer frame m buffer) (offset : Nat) (data : Bytes) (size : Nat)
    (hfits : offset + data.length ≤ buffer.realSize) (hsize : size ≤ buffer.realSize) :
    ∃ heap', m.heap.write buffer.buffer offset data = .done heap' ∧
      HoldsBuffer frame { m with heap := heap' } { buffer with size } ∧ Keeps frame m.heap heap' ∧
      heap'.bytesAt buffer.buffer = (m.heap.bytesAt buffer.buffer).take offset ++ data ++
        (m.heap.bytesAt buffer.buffer).drop (offset + data.length) := by
  obtain ⟨hallocated, hlength⟩ := h.owns
  rw [← hlength] at hfits
  obtain ⟨heap', hwrite, hbytes, hallocated', hother⟩ := Heap.write_eq hallocated hfits
  have hlength' : (heap'.bytesAt buffer.buffer).length = buffer.realSize := by
    rw [hbytes, ← hlength]
    simp only [List.length_append, List.length_take, List.length_drop]
    omega
  have hupdate : HoldsBuffer frame { m with heap := heap' } { buffer with size } ∧
      Keeps frame m.heap heap' :=
    h.heap_update (fun _ hsame => .inl hsame) ⟨hallocated', hlength'⟩ hsize
      fun other _ hne => hother other hne
  exact ⟨heap', hwrite, hupdate.1, hupdate.2, hbytes⟩

/-- The pool takes the block of a buffer, or it is freed. -/
theorem HoldsBuffer.return (h : HoldsBuffer frame m buffer) :
    HoldsBuffer frame (chopBufferReturn buffer m) .empty ∧
      Keeps frame m.heap (chopBufferReturn buffer m).heap := by
  rw [chopBufferReturn]
  split
  · next hroom =>
    refine ⟨⟨⟨?_, ?_, ?_, ?_, hroom.2⟩, ChopBuffer.owns_empty _, Nat.le_refl 0, ?_,
      h.frame_allocated, ?_⟩, Keeps.refl _⟩
    · intro entry hentry
      rcases List.mem_append.mp hentry with hentry | hentry
      · exact h.valid.owns entry hentry
      · rw [List.mem_singleton.mp hentry]
        exact h.owns
    · rw [List.pairwise_append]
      refine ⟨h.valid.apart, List.pairwise_singleton _ _, ?_⟩
      intro entry hentry last hlast
      rw [List.mem_singleton.mp hlast]
      exact (h.apart entry hentry).symm
    · rw [List.length_append]
      exact hroom.1
    · simp only [List.map_append, List.sum_append, h.valid.available_eq, List.map_cons, List.map_nil,
        List.sum_cons, List.sum_nil, Nat.add_zero]
    · intro entry _ address hnone
      cases hnone
    · intro address hframed
      refine ⟨nofun, ?_⟩
      intro entry hentry
      rcases List.mem_append.mp hentry with hentry | hentry
      · exact (h.frame_apart address hframed).2 entry hentry
      · rw [List.mem_singleton.mp hentry]
        exact (h.frame_apart address hframed).1
  · apply h.heap_update
    · intro address hnone
      cases hnone
    · exact ChopBuffer.owns_empty _
    · exact Nat.le_refl 0
    · intro other _ hne
      exact Heap.free_of_ne hne

theorem HoldsBuffer.mono {frame' : Nat → Prop} (h : HoldsBuffer frame m buffer)
    (hframe : ∀ address, frame' address → frame address) : HoldsBuffer frame' m buffer :=
  { h with
    frame_allocated := fun address hframed => h.frame_allocated address (hframe address hframed)
    frame_apart := fun address hframed => h.frame_apart address (hframe address hframed) }

/-- A buffer whose block is in the frame takes the place of the one outside. -/
theorem HoldsBuffer.swap (other : ChopBuffer)
    (h : HoldsBuffer (fun address => frame address ∨ other.buffer = some address) m buffer)
    (howns : other.Owns m.heap) (hsize : other.size ≤ other.realSize)
    (hframe : ∀ address, frame address → other.buffer ≠ some address) :
    HoldsBuffer (fun address => frame address ∨ buffer.buffer = some address) m other where
  valid := h.valid
  owns := howns
  size_le := hsize
  apart := fun entry hentry address hother => (h.frame_apart address (.inr hother)).2 entry hentry
  frame_allocated := by
    rintro address (hframed | hbuffer)
    · exact h.frame_allocated address (.inl hframed)
    · exact h.owns.1 address hbuffer
  frame_apart := by
    rintro address (hframed | hbuffer)
    · exact ⟨hframe address hframed, (h.frame_apart address (.inl hframed)).2⟩
    · refine ⟨?_, fun entry hentry => h.apart entry hentry address hbuffer⟩
      intro hother
      exact (h.frame_apart address (.inr hother)).1 hbuffer

theorem ChopBuffer.Owns.congr {heap heap' : Heap} (h : buffer.Owns heap)
    (hsame : ∀ address, buffer.buffer = some address → heap' address = heap address) :
    buffer.Owns heap' :=
  ⟨Heap.allocated_congr h.1 hsame, by rw [Heap.bytesAt_congr hsame]; exact h.2⟩

/-- An entry that was taken from the pool, next to the buffer. -/
theorem HoldsBuffer.found (h : HoldsBuffer frame m buffer) {size : Nat} {found : ChopBuffer}
    (hfound : Found size m found m') {newSize : Nat} (hsize : newSize ≤ found.realSize) :
    HoldsBuffer (fun address => frame address ∨ buffer.buffer = some address) m'
      { found with size := newSize } := by
  obtain ⟨hvalid, howns, hapart⟩ := h.valid.found hfound
  have hmem : ∀ entry, entry ∈ found :: m'.bufferPool → entry ∈ m.bufferPool :=
    fun entry hentry => hfound.perm.mem_iff.mpr hentry
  refine ⟨hvalid, howns, hsize, hapart, ?_, ?_⟩
  · rw [hfound.heap_eq]
    rintro address (hframed | hbuffer)
    · exact h.frame_allocated address hframed
    · exact h.owns.1 address hbuffer
  · have hforeign : ∀ address, frame address ∨ buffer.buffer = some address →
        ∀ entry ∈ m.bufferPool, entry.buffer ≠ some address := by
      rintro address (hframed | hbuffer) entry hentry
      · exact (h.frame_apart address hframed).2 entry hentry
      · exact h.apart entry hentry address hbuffer
    intro address hframed
    refine ⟨hforeign address hframed found (hmem found List.mem_cons_self), ?_⟩
    intro entry hentry
    exact hforeign address hframed entry (hmem entry (List.mem_cons_of_mem _ hentry))

end Focus

/-- The contents of a buffer after an operation: new ones, or the old ones without memory for them. -/
structure Result (frame : Nat → Prop) (m : PoolMemory) (buffer : ChopBuffer) (new : Bytes)
    (err : Status) (buffer' : ChopBuffer) (m' : PoolMemory) : Prop where
  holds : HoldsBuffer frame m' buffer'
  keeps : Keeps frame m.heap m'.heap
  contents : (err = .ok () ∧ buffer'.contents m'.heap = new) ∨
    (err = .error enomem ∧ buffer'.contents m'.heap = buffer.contents m.heap)

section Operations

variable {frame : Nat → Prop} {m : PoolMemory} {buffer : ChopBuffer}

private theorem doubleSize_spec (size fuel newSize : Nat) (hpos : 0 < newSize)
    (hfuel : size ≤ newSize + fuel) :
    size ≤ doubleSize size fuel newSize ∧ newSize ≤ doubleSize size fuel newSize := by
  induction fuel generalizing newSize with
  | zero => exact ⟨hfuel, Nat.le_refl _⟩
  | succ fuel ih =>
    rw [doubleSize]
    split
    · have hshift : newSize <<< 1 = 2 * newSize := by
        rw [Nat.shiftLeft_eq]
        omega
      have hrest := ih (newSize <<< 1) (by omega) (by omega)
      exact ⟨hrest.1, Nat.le_trans (by omega) hrest.2⟩
    · exact ⟨by omega, Nat.le_refl _⟩

/-- Growing keeps the contents and the size of a buffer, and gives it room. -/
structure GrownBuffer (frame : Nat → Prop) (m : PoolMemory) (buffer : ChopBuffer) (size : Nat)
    (err : Status) (buffer' : ChopBuffer) (m' : PoolMemory) : Prop where
  holds : HoldsBuffer frame m' buffer'
  keeps : Keeps frame m.heap m'.heap
  contents_eq : buffer'.contents m'.heap = buffer.contents m.heap
  size_eq : buffer'.size = buffer.size
  room : (err = .ok () ∧ size ≤ buffer'.realSize) ∨ err = .error enomem

private theorem grown_found (h : HoldsBuffer frame m buffer) {size : Nat} (hsize : size > buffer.realSize)
    {found : ChopBuffer} {m₁ : PoolMemory} (hfound : Found size m found m₁) :
    ∃ buffer' m', (m₁.heap.read buffer.buffer buffer.size >>= fun bytes =>
        m₁.heap.write found.buffer 0 bytes >>= fun heap =>
          .done ((.ok (), { found with size := buffer.size },
            chopBufferReturn buffer { m₁ with heap }) : Status × ChopBuffer × PoolMemory)) =
        .done (.ok (), buffer', m') ∧ GrownBuffer frame m buffer size (.ok ()) buffer' m' := by
  have hle := h.size_le
  have hroom := hfound.size_le
  have hheap := hfound.heap_eq
  have hlength : (m₁.heap.bytesAt buffer.buffer).length = buffer.realSize := by
    rw [hheap]
    exact h.owns.2
  have hread : m₁.heap.read buffer.buffer buffer.size = .done (buffer.contents m₁.heap) :=
    Heap.read_eq (by omega)
  have hdata : (buffer.contents m₁.heap).length = buffer.size :=
    List.length_take_of_le (by omega)
  have hnew : HoldsBuffer (fun address => frame address ∨ buffer.buffer = some address) m₁
      { found with size := buffer.size } := h.found hfound (by omega)
  obtain ⟨heap', hwrite, hcopied, hkeeps, hbytes⟩ :=
    hnew.write 0 (buffer.contents m₁.heap) buffer.size (by simp only [hdata]; omega)
      (by simp only; omega)
  have hold : HoldsBuffer (fun address => frame address ∨ found.buffer = some address)
      { m₁ with heap := heap' } buffer := by
    apply hcopied.swap buffer
    · apply h.owns.congr
      intro address hbuffer
      rw [← hheap]
      exact hkeeps address (.inr hbuffer)
    · exact hle
    · exact fun address hframed => (h.frame_apart address hframed).1
  obtain ⟨hreturned, hkeeps'⟩ := hold.return
  have hholds : HoldsBuffer frame (chopBufferReturn buffer { m₁ with heap := heap' })
      { found with size := buffer.size } := by
    have hswapped := hreturned.swap { found with size := buffer.size }
      (hcopied.owns.congr fun address hfound => hkeeps' address (.inr hfound)) hcopied.size_le
      fun address hframed => (hcopied.frame_apart address (.inl hframed)).1
    exact hswapped.mono fun address hframed => .inl hframed
  refine ⟨_, _, ?_, hholds, ?_, ?_, rfl, .inl ⟨rfl, hroom⟩⟩
  · rw [hread, Outcome.done_bind, hwrite, Outcome.done_bind]
  · intro address hframed
    rw [hkeeps' address (.inl hframed), ← hheap]
    exact hkeeps address (.inl hframed)
  · have hcontents : (heap'.bytesAt found.buffer).take buffer.size = buffer.contents m₁.heap := by
      rw [hbytes, List.take_zero, List.nil_append, ← hdata, List.take_left]
    rw [← hheap, ← hcontents, ChopBuffer.contents,
      Heap.bytesAt_congr fun address hfound => hkeeps' address (.inr hfound)]

private theorem grown_realloc (allocator : Allocator) (h : HoldsBuffer frame m buffer) (size : Nat) :
    ∃ err buffer' m',
      (match m.heap.realloc allocator buffer.buffer
          (doubleSize size size (if buffer.realSize = 0 then 1 else buffer.realSize)) with
        | (none, heap) => .done (.error enomem, buffer, { m with heap })
        | (some address, heap) =>
          .done (.ok (), { buffer with
            buffer := some address
            realSize := doubleSize size size (if buffer.realSize = 0 then 1 else buffer.realSize) },
              { m with heap }) : Outcome (Status × ChopBuffer × PoolMemory)) =
        .done (err, buffer', m') ∧ GrownBuffer frame m buffer size err buffer' m' := by
  have hspec : size ≤ doubleSize size size (if buffer.realSize = 0 then 1 else buffer.realSize) ∧
      buffer.realSize ≤ doubleSize size size (if buffer.realSize = 0 then 1 else buffer.realSize) := by
    have hdouble := doubleSize_spec size size
      (if buffer.realSize = 0 then 1 else buffer.realSize) (by split <;> omega) (by omega)
    refine ⟨hdouble.1, Nat.le_trans ?_ hdouble.2⟩
    split <;> omega
  generalize doubleSize size size (if buffer.realSize = 0 then 1 else buffer.realSize) = newSize
    at hspec ⊢
  have hle : (m.heap.bytesAt buffer.buffer).length ≤ newSize := by
    rw [h.owns.2]
    exact hspec.2
  rcases Heap.realloc_cases allocator m.heap hle with
    hnone | ⟨address, heap', more, hsome, hfree, hbytes, hlength, hallocated, hother⟩
  · rw [hnone]
    exact ⟨_, _, _, rfl, h, Keeps.refl _, rfl, rfl, .inr rfl⟩
  · rw [hsome]
    have hupdate : HoldsBuffer frame { m with heap := heap' }
        { buffer with buffer := some address, realSize := newSize } ∧ Keeps frame m.heap heap' := by
      apply h.heap_update
      · intro _ heq
        cases heq
        exact hfree
      · exact ⟨hallocated, hlength⟩
      · exact Nat.le_trans h.size_le hspec.2
      · intro other hne hbuffer
        refine hother other ?_ hbuffer
        rintro rfl
        exact hne rfl
    refine ⟨_, _, _, rfl, hupdate.1, hupdate.2, ?_, rfl, .inl ⟨rfl, hspec.1⟩⟩
    have hsizeLe : buffer.size ≤ (m.heap.bytesAt buffer.buffer).length := by
      rw [h.owns.2]
      exact h.size_le
    simp only [ChopBuffer.contents, hbytes, List.take_append_of_le_length hsizeLe]

theorem ensureRoom_grown (allocator : Allocator) (h : HoldsBuffer frame m buffer) (size : Nat) :
    ∃ err buffer' m', ensureRoom allocator buffer size m = .done (err, buffer', m') ∧
      GrownBuffer frame m buffer size err buffer' m' := by
  rw [ensureRoom]
  split
  · next hsize =>
    rw [chopBufferGrow]
    split
    · next found m₁ hfound =>
      obtain ⟨buffer', m', hdone, hgrown⟩ :=
        grown_found h hsize (findBufferInPool_found hfound)
      exact ⟨_, buffer', m', hdone, hgrown⟩
    · exact grown_realloc allocator h size
  · exact ⟨_, _, _, rfl, h, Keeps.refl _, rfl, rfl, .inl ⟨rfl, by omega⟩⟩

theorem chopBufferPush_result (allocator : Allocator) (h : HoldsBuffer frame m buffer) (data : Bytes) :
    ∃ err buffer' m', chopBufferPush allocator buffer data m = .done (err, buffer', m') ∧
      Result frame m buffer data err buffer' m' := by
  obtain ⟨err, buffer₁, m₁, hroom, hgrown⟩ := ensureRoom_grown allocator h data.length
  simp only [chopBufferPush, hroom, Outcome.done_bind]
  rcases hgrown.room with ⟨rfl, hle⟩ | rfl
  · obtain ⟨heap', hwrite, hholds, hkeeps, hbytes⟩ :=
      hgrown.holds.write 0 data data.length (by omega) hle
    simp only [hwrite, Outcome.done_bind]
    refine ⟨_, _, _, rfl, hholds, hgrown.keeps.trans hkeeps, .inl ⟨rfl, ?_⟩⟩
    simp only [ChopBuffer.contents, hbytes, List.take_zero, List.nil_append, List.take_left]
  · exact ⟨_, _, _, rfl, hgrown.holds, hgrown.keeps, .inr ⟨rfl, hgrown.contents_eq⟩⟩

theorem chopBufferAppend_result (allocator : Allocator) (h : HoldsBuffer frame m buffer) (data : Bytes) :
    ∃ err buffer' m', chopBufferAppend allocator buffer data m = .done (err, buffer', m') ∧
      Result frame m buffer (buffer.contents m.heap ++ data) err buffer' m' := by
  obtain ⟨err, buffer₁, m₁, hroom, hgrown⟩ :=
    ensureRoom_grown allocator h (buffer.size + data.length)
  simp only [chopBufferAppend, hroom, Outcome.done_bind]
  rcases hgrown.room with ⟨rfl, hle⟩ | rfl
  · have hsize := hgrown.size_eq
    obtain ⟨heap', hwrite, hholds, hkeeps, hbytes⟩ :=
      hgrown.holds.write buffer₁.size data (buffer.size + data.length) (by omega) hle
    simp only [hwrite, Outcome.done_bind]
    refine ⟨_, _, _, rfl, hholds, hgrown.keeps.trans hkeeps, .inl ⟨rfl, ?_⟩⟩
    have htake : (buffer₁.contents m₁.heap ++ data).length = buffer.size + data.length := by
      have hlength := hgrown.holds.owns.2
      have hle := hgrown.holds.size_le
      rw [List.length_append, ChopBuffer.contents, List.length_take]
      omega
    rw [← hgrown.contents_eq, ← htake]
    simp only [ChopBuffer.contents] at htake ⊢
    rw [hbytes, List.take_left]
  · exact ⟨_, _, _, rfl, hgrown.holds, hgrown.keeps, .inr ⟨rfl, hgrown.contents_eq⟩⟩

/-- A buffer is initialized from the pool or with new memory, or not at all. -/
theorem chopBufferInit_cases (allocator : Allocator) (h : HoldsBuffer frame m .empty) (size : Nat) :
    ∃ m', Keeps frame m.heap m'.heap ∧
      ((∃ buffer', chopBufferInit allocator size m = (.ok buffer', m') ∧ HoldsBuffer frame m' buffer' ∧
        buffer'.contents m'.heap = []) ∨
      (chopBufferInit allocator size m = (.error enomem, m') ∧ HoldsBuffer frame m' .empty)) := by
  rw [chopBufferInit]
  split
  · next found m' hfound =>
    have hfound := findBufferInPool_found hfound
    have hholds := h.found hfound (Nat.zero_le found.realSize)
    refine ⟨m', ?_, .inl ⟨_, rfl, hholds.mono fun address hframed => .inl hframed, List.take_zero⟩⟩
    rw [hfound.heap_eq]
    exact Keeps.refl _
  · rcases Heap.calloc_cases allocator m.heap size with
      hnone | ⟨address, heap', hsome, hfree, hlength, hallocated, hother⟩
    · rw [hnone]
      exact ⟨_, Keeps.refl _, .inr ⟨rfl, h⟩⟩
    · rw [hsome]
      have hupdate : HoldsBuffer frame { m with heap := heap' } ⟨some address, size, 0⟩ ∧
          Keeps frame m.heap heap' := by
        apply h.heap_update
        · intro _ heq
          cases heq
          exact .inr hfree
        · exact ⟨hallocated, hlength⟩
        · exact Nat.zero_le _
        · intro other hne _
          refine hother other ?_
          rintro rfl
          exact hne rfl
      exact ⟨_, hupdate.2, .inl ⟨_, rfl, hupdate.1, List.take_zero⟩⟩

end Operations

end Libchop
