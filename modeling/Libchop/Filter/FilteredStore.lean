import Libchop.Filter.EscapeCodec
import Libchop.Filter.ZipContract
import Libchop.Store.BlockMap

/-!
# The filtered block store

Blocks go through one filter when they are written, and through another one when they are read.  Both
filters are used again and again.
-/

namespace Libchop

inductive ZipType where
  | zlib
  | bzip2
deriving DecidableEq, Repr

def ZipType.zipClass : ZipType → ZipFilterClass
  | .zlib => .zlibZip
  | .bzip2 => .bzip2Zip

def ZipType.unzipClass : ZipType → ZipFilterClass
  | .zlib => .zlibUnzip
  | .bzip2 => .bzip2Unzip

structure FilteredBlockStore (F G σ : Type) where
  inputFilter : F
  outputFilter : G
  backend : σ

section Methods

variable {F G σ : Type} (input : FilterMethods F) (output : FilterMethods G)
  (backend : StoreMethods σ)

def chopFilteredBlockStoreWriteBlock (fuel : Nat) (key block : Bytes)
    (store : FilteredBlockStore F G σ) : Outcome (FilterStatus × FilteredBlockStore F G σ) :=
  chopFilterThrough input fuel store.inputFilter block >>= fun (err, filtered, inputFilter) =>
    match err with
    | .error err => .done (.error err, { store with inputFilter })
    | .ok _ =>
      match backend.writeBlock key filtered store.backend with
      | (.error err, backend) =>
        .done (.error (.other err), { store with inputFilter, backend })
      | (.ok _, backend) => .done (.ok (), { store with inputFilter, backend })

/-- The error code, the caller's buffer and the size.  The block is read into a buffer of its own
first. -/
def chopFilteredBlockStoreReadBlock (fuel : Nat) (key buffer : Bytes)
    (store : FilteredBlockStore F G σ) :
    Outcome ((FilterStatus × Bytes × Nat) × FilteredBlockStore F G σ) :=
  match backend.readBlock key store.backend with
  | (.error err, backend) => .done ((.error (.other err), buffer, 0), { store with backend })
  | (.ok unfiltered, backend) =>
    chopFilterThrough output fuel store.outputFilter unfiltered >>= fun (err, buffer, outputFilter) =>
      .done ((err, buffer, buffer.length), { store with outputFilter, backend })

/-- What is done with the store.  A block is read into a buffer that holds something. -/
inductive FilteredRequest where
  | writeBlock (key block : Bytes)
  | readBlock (key buffer : Bytes)

inductive FilteredReply where
  | status (err : FilterStatus)
  | block (err : FilterStatus) (buffer : Bytes) (size : Nat)

def filteredStep (fuel : Nat) (store : FilteredBlockStore F G σ) :
    FilteredRequest → Outcome (FilteredReply × FilteredBlockStore F G σ)
  | .writeBlock key block =>
    chopFilteredBlockStoreWriteBlock input backend fuel key block store >>= fun (err, store) =>
      .done (.status err, store)
  | .readBlock key buffer =>
    chopFilteredBlockStoreReadBlock output backend fuel key buffer store >>=
      fun ((err, buffer, size), store) => .done (.block err buffer size, store)

end Methods

/-- The replies of a map.  Writes that the backend refuses leave it as it is. -/
def BlockMap.RepliesFiltered (m : BlockMap) :
    FilteredRequest → FilteredReply → BlockMap → Prop
  | .writeBlock key block, reply, m' =>
    (reply = .status (.ok ()) ∧ m' = Function.update m key (some block)) ∨
      ∃ err, reply = .status (.error (.other err)) ∧ m' = m
  | .readBlock key buffer, reply, m' =>
    m' = m ∧ reply =
      match m key with
      | some block => .block (.ok ()) block block.length
      | none => .block (.error (.other .storeBlockUnavail)) buffer 0

section RoundTrip

variable {σ : Type} {backend : StoreMethods σ} {contents : σ → BlockMap} {type : ZipType}
  (zip : type.zipClass.Library) (unzip : type.unzipClass.Library)

/-- The backend holds what the map holds, zipped, and both filters are as new. -/
structure StoresZipped (contents : σ → BlockMap) (zipSize unzipSize : Nat) (m : BlockMap)
    (store : FilteredBlockStore (ZipFilter zip.State) (ZipFilter unzip.State) σ) : Prop where
  contents_eq : ∀ key, contents store.backend key = (m key).bind zip.code
  inputFilter : ZipFilter.Idle zip zipSize store.inputFilter
  outputFilter : ZipFilter.Idle unzip unzipSize store.outputFilter

variable {zip unzip} {zipSize unzipSize : Nat}

theorem ZipType.unzipClass_isZip (type : ZipType) : type.unzipClass.isZip = false := by
  cases type <;> rfl

/-- `avail_in` can count what the filters are given: their input buffer is short, or the block, which is
zipped in the backend. -/
def BlockCounted {F G : Type} (contents : σ → BlockMap)
    (store : FilteredBlockStore (ZipFilter F) (ZipFilter G) σ) : FilteredRequest → Prop
  | .writeBlock _ block => store.inputFilter.inputBuffer.length < 2 ^ 32 ∨ block.length < 2 ^ 32
  | .readBlock key _ => store.outputFilter.inputBuffer.length < 2 ^ 32 ∨
    ∀ coded, contents store.backend key = some coded → coded.length < 2 ^ 32

/-- A block is written as a whole, or not at all. -/
theorem filteredWrite_step (hbackend : MapStore backend contents)
    (htotal : ∀ block, (zip.code block).isSome = true) {m : BlockMap}
    {store : FilteredBlockStore (ZipFilter zip.State) (ZipFilter unzip.State) σ}
    (h : StoresZipped zip unzip contents zipSize unzipSize m store) (key block : Bytes)
    (hcounted : BlockCounted contents store (.writeBlock key block)) :
    ∃ reply store' m',
      Outcome.Settles (fun fuel => filteredStep (ZipFilter.methods zip) (ZipFilter.methods unzip)
        backend fuel store (.writeBlock key block)) (reply, store') ∧
      m.RepliesFiltered (.writeBlock key block) reply m' ∧
      StoresZipped zip unzip contents zipSize unzipSize m' store' := by
  obtain ⟨coded, hcoded⟩ := Option.isSome_iff_exists.mp (htotal block)
  have hshort : zipSize < 2 ^ 32 ∨ block.length < 2 ^ 32 :=
    h.inputFilter.wellFormed.length_eq ▸ hcounted
  obtain ⟨filter', hidle, hthrough⟩ :=
    ZipFilter.through_eq (fun _ => htotal) h.inputFilter hshort hcoded
  rcases hbackend.write_cases key coded store.backend with
    ⟨s', hwrite, hcontents⟩ | ⟨err, s', hwrite, hcontents⟩
  · refine ⟨.status (.ok ()), { store with inputFilter := filter', backend := s' },
      Function.update m key (some block), ?_, .inl ⟨rfl, rfl⟩, ?_, hidle, h.outputFilter⟩
    · refine hthrough.imp fun fuel hdone => ?_
      simp only [filteredStep, chopFilteredBlockStoreWriteBlock, hdone, Outcome.done_bind, hwrite]
    · intro other
      rw [hcontents]
      by_cases hother : other = key
      · subst hother
        simp [hcoded]
      · simp [hother, h.contents_eq]
  · refine ⟨.status (.error (.other err)), { store with inputFilter := filter', backend := s' },
      m, ?_, .inr ⟨err, rfl, rfl⟩, ?_, hidle, h.outputFilter⟩
    · refine hthrough.imp fun fuel hdone => ?_
      simp only [filteredStep, chopFilteredBlockStoreWriteBlock, hdone, Outcome.done_bind, hwrite]
    · intro other
      rw [hcontents]
      exact h.contents_eq other

/-- A block that is there is unzipped, whatever the buffer held before. -/
theorem filteredRead_step (hbackend : MapStore backend contents)
    (hundoes : ∀ block coded, zip.code block = some coded → unzip.code coded = some block)
    (htotal : ∀ block, (zip.code block).isSome = true) {m : BlockMap}
    {store : FilteredBlockStore (ZipFilter zip.State) (ZipFilter unzip.State) σ}
    (h : StoresZipped zip unzip contents zipSize unzipSize m store) (key buffer : Bytes)
    (hcounted : BlockCounted contents store (.readBlock key buffer)) :
    ∃ reply store' m',
      Outcome.Settles (fun fuel => filteredStep (ZipFilter.methods zip) (ZipFilter.methods unzip)
        backend fuel store (.readBlock key buffer)) (reply, store') ∧
      m.RepliesFiltered (.readBlock key buffer) reply m' ∧
      StoresZipped zip unzip contents zipSize unzipSize m' store' := by
  have hstored := h.contents_eq key
  rcases hbackend.read_cases key store.backend with
    ⟨coded, s', hkey, hread, hcontents⟩ | ⟨s', hkey, hread, hcontents⟩
  · rw [hkey] at hstored
    obtain ⟨block, hblock, hcoded⟩ := Option.bind_eq_some_iff.mp hstored.symm
    have hnever : type.unzipClass.isZip = true → ∀ input, (unzip.code input).isSome = true := by
      rw [type.unzipClass_isZip]
      nofun
    have hshort : unzipSize < 2 ^ 32 ∨ coded.length < 2 ^ 32 := by
      rw [← h.outputFilter.wellFormed.length_eq]
      exact hcounted.imp_right fun hcoded => hcoded coded hkey
    obtain ⟨filter', hidle, hthrough⟩ :=
      ZipFilter.through_eq hnever h.outputFilter hshort (hundoes block coded hcoded)
    refine ⟨.block (.ok ()) block block.length, { store with outputFilter := filter', backend := s' },
      m, ?_, ⟨rfl, ?_⟩, ?_, h.inputFilter, hidle⟩
    · refine hthrough.imp fun fuel hdone => ?_
      simp only [filteredStep, chopFilteredBlockStoreReadBlock, hread, hdone, Outcome.done_bind]
    · rw [hblock]
    · intro other
      rw [hcontents]
      exact h.contents_eq other
  · have hnone : m key = none := by
      rw [hkey] at hstored
      cases hm : m key with
      | none => rfl
      | some block =>
        rw [hm, Option.bind_some] at hstored
        have hsome := htotal block
        rw [← hstored] at hsome
        cases hsome
    refine ⟨.block (.error (.other .storeBlockUnavail)) buffer 0, { store with backend := s' },
      m, .of_eq fun fuel => ?_, ⟨rfl, ?_⟩, ?_, h.inputFilter, h.outputFilter⟩
    · simp only [filteredStep, chopFilteredBlockStoreReadBlock, hread, Outcome.done_bind]
    · rw [hnone]
    · intro other
      rw [hcontents]
      exact h.contents_eq other

theorem filtered_step (hbackend : MapStore backend contents)
    (hundoes : ∀ block, ∃ coded, zip.code block = some coded ∧ unzip.code coded = some block)
    (m : BlockMap) (store : FilteredBlockStore (ZipFilter zip.State) (ZipFilter unzip.State) σ)
    (request : FilteredRequest) (h : StoresZipped zip unzip contents zipSize unzipSize m store)
    (hcounted : BlockCounted contents store request) :
    ∃ reply store' m',
      Outcome.Settles (fun fuel => filteredStep (ZipFilter.methods zip) (ZipFilter.methods unzip)
        backend fuel store request) (reply, store') ∧
      m.RepliesFiltered request reply m' ∧
      StoresZipped zip unzip contents zipSize unzipSize m' store' := by
  have htotal : ∀ block, (zip.code block).isSome = true := by
    intro block
    obtain ⟨coded, hcoded, -⟩ := hundoes block
    rw [hcoded]
    rfl
  have hundone : ∀ block coded, zip.code block = some coded → unzip.code coded = some block := by
    intro block coded hcoded
    obtain ⟨coded', hcoded', hblock⟩ := hundoes block
    rw [hcoded] at hcoded'
    cases hcoded'
    exact hblock
  cases request with
  | writeBlock key block => exact filteredWrite_step hbackend htotal h key block hcounted
  | readBlock key buffer => exact filteredRead_step hbackend hundone htotal h key buffer hcounted

variable (type zip unzip) in
/-- Whatever is written to and read from a filtered store, in any order, with filters of any buffer size:
each read returns the last block that was written under its key, and both filters are as new, if `avail_in`
can count what they are given. -/
theorem filteredStore_roundTrip
    (hundoes : ∀ block, ∃ coded, zip.code block = some coded ∧ unzip.code coded = some block)
    (hbackend : MapStore backend contents) {zipBuffer unzipBuffer : Bytes} (hzip : zipBuffer ≠ [])
    (hunzip : unzipBuffer ≠ []) {s : σ} {m : BlockMap}
    (hcontents : ∀ key, contents s key = (m key).bind zip.code)
    (requests : List FilteredRequest)
    (hcounted : Refinement.Meets
      (filteredStep (ZipFilter.methods zip) (ZipFilter.methods unzip) backend) (BlockCounted contents)
      ⟨ZipFilter.new zip zipBuffer, ZipFilter.new unzip unzipBuffer, s⟩ requests) :
    ∃ replies store' m',
      Outcome.Settles
        (fun fuel => Refinement.run
          (filteredStep (ZipFilter.methods zip) (ZipFilter.methods unzip) backend fuel)
          ⟨ZipFilter.new zip zipBuffer, ZipFilter.new unzip unzipBuffer, s⟩ requests)
        (replies, store') ∧
      Refinement.Allows BlockMap.RepliesFiltered m requests replies m' ∧
      ZipFilter.Idle zip zipBuffer.length store'.inputFilter ∧
      ZipFilter.Idle unzip unzipBuffer.length store'.outputFilter := by
  have hstart : StoresZipped zip unzip contents zipBuffer.length unzipBuffer.length m
      ⟨ZipFilter.new zip zipBuffer, ZipFilter.new unzip unzipBuffer, s⟩ :=
    ⟨hcontents, ZipFilter.idle_new hzip, ZipFilter.idle_new hunzip⟩
  obtain ⟨replies, store', m', hrun, hallows, hend⟩ :=
    Refinement.run_settles (filtered_step hbackend hundoes) hstart hcounted
  exact ⟨replies, store', m', hrun, hallows, hend.inputFilter, hend.outputFilter⟩

/-- An empty block and a block that is written twice, with input buffers of one and two bytes. -/
def sampleFilteredRequests : List FilteredRequest :=
  [.writeBlock [1] [], .writeBlock [2] [5, 6, 7], .readBlock [1] [9], .writeBlock [2] [8],
    .readBlock [2] [9, 9], .readBlock [3] [9]]

theorem sampleFilteredStore_roundTrip :
    ∃ replies store' m',
      Outcome.Settles
        (fun fuel => Refinement.run
          (filteredStep (ZipFilter.methods escapeZip) (ZipFilter.methods escapeUnzip)
            BlockMap.methods fuel)
          ⟨ZipFilter.new escapeZip [0], ZipFilter.new escapeUnzip [0, 0], fun _ => none⟩
          sampleFilteredRequests)
        (replies, store') ∧
      Refinement.Allows BlockMap.RepliesFiltered (fun _ => none) sampleFilteredRequests replies m' ∧
      ZipFilter.Idle escapeZip 1 store'.inputFilter ∧
      ZipFilter.Idle escapeUnzip 2 store'.outputFilter := by
  have hempty : ∀ key, id (fun _ => none : BlockMap) key =
      ((fun _ => none : BlockMap) key).bind escapeZip.code := fun _ => rfl
  have hundoes (block : Bytes) :
      ∃ coded, escapeZip.code block = some coded ∧ escapeUnzip.code coded = some block :=
    ⟨_, rfl, EscapeCodec.unzip_zip block⟩
  have hstart : @StoresZipped BlockMap .zlib escapeZip escapeUnzip id 1 2 (fun _ => none)
      ⟨ZipFilter.new escapeZip [0], ZipFilter.new escapeUnzip [0, 0], fun _ => none⟩ :=
    ⟨hempty, ZipFilter.idle_new (List.cons_ne_nil 0 []), ZipFilter.idle_new (List.cons_ne_nil 0 [0])⟩
  have hcounted := Refinement.Meets.of_forall (filtered_step BlockMap.mapStore hundoes)
    (fun m store request (_ : True) h => by
      cases request with
      | writeBlock key block =>
        have hlength := h.inputFilter.wellFormed.length_eq
        exact .inl (Nat.lt_of_le_of_lt (Nat.le_of_eq hlength) (by decide))
      | readBlock key buffer =>
        have hlength := h.outputFilter.wellFormed.length_eq
        exact .inl (Nat.lt_of_le_of_lt (Nat.le_of_eq hlength) (by decide)))
    hstart (fun request (_ : request ∈ sampleFilteredRequests) => trivial)
  exact filteredStore_roundTrip .zlib escapeZip escapeUnzip hundoes BlockMap.mapStore
    (List.cons_ne_nil 0 []) (List.cons_ne_nil 0 [0]) hempty sampleFilteredRequests hcounted

/-- A block of which `avail_in` counts nothing is written as an empty one. -/
theorem filteredStore_loses_wrapped {block zipBuffer : Bytes} (hblock : block.length = 2 ^ 32)
    (hbuffer : 2 ^ 32 ≤ zipBuffer.length) :
    ∃ replies store', Outcome.Settles
        (fun fuel => Refinement.run
          (filteredStep (ZipFilter.methods escapeZip) (ZipFilter.methods escapeUnzip)
            BlockMap.methods fuel)
          ⟨ZipFilter.new escapeZip zipBuffer, ZipFilter.new escapeUnzip [0], fun _ => none⟩
          [.writeBlock [1] block, .readBlock [1] []]) (replies, store') ∧
      ¬ ∃ m', Refinement.Allows BlockMap.RepliesFiltered (fun _ => none)
        [.writeBlock [1] block, .readBlock [1] []] replies m' := by
  have hnew : zipBuffer ≠ [] :=
    List.ne_nil_of_length_pos (Nat.lt_of_lt_of_le (Nat.two_pow_pos 32) hbuffer)
  have hcode : escapeZip.code (received (fun _ => zipBuffer.length) block) =
      some (EscapeCodec.zip []) := by
    rw [received_wrapped hbuffer hblock]
    rfl
  obtain ⟨zipped, -, hwrite⟩ :=
    ZipFilter.through_received (fun _ _ => rfl) (ZipFilter.idle_new hnew) hcode
  have hback : escapeUnzip.code (EscapeCodec.zip []) = some [] := EscapeCodec.unzip_zip []
  have hnever : ZipFilterClass.zlibUnzip.isZip = true →
      ∀ input, (escapeUnzip.code input).isSome = true := fun h => absurd h (by decide)
  obtain ⟨unzipped, -, hread⟩ := ZipFilter.through_eq hnever
    (ZipFilter.idle_new (List.cons_ne_nil 0 [])) (.inl (by decide)) hback
  refine ⟨[.status (.ok ()), .block (.ok ()) [] 0],
    ⟨zipped, unzipped, Function.update (fun _ => none) [1] (some (EscapeCodec.zip []))⟩, ?_, ?_⟩
  · have hfirst : Outcome.Settles
        (fun fuel => filteredStep (ZipFilter.methods escapeZip) (ZipFilter.methods escapeUnzip)
          BlockMap.methods fuel
          ⟨ZipFilter.new escapeZip zipBuffer, ZipFilter.new escapeUnzip [0], fun _ => none⟩
          (.writeBlock [1] block))
        (.status (.ok ()), ⟨zipped, ZipFilter.new escapeUnzip [0],
          Function.update (fun _ => none) [1] (some (EscapeCodec.zip []))⟩) := by
      refine hwrite.imp fun fuel hdone => ?_
      simp only [filteredStep, chopFilteredBlockStoreWriteBlock, hdone, Outcome.done_bind,
        BlockMap.methods]
    have hsecond : Outcome.Settles
        (fun fuel => filteredStep (ZipFilter.methods escapeZip) (ZipFilter.methods escapeUnzip)
          BlockMap.methods fuel
          ⟨zipped, ZipFilter.new escapeUnzip [0],
            Function.update (fun _ => none) [1] (some (EscapeCodec.zip []))⟩ (.readBlock [1] []))
        (.block (.ok ()) [] 0, ⟨zipped, unzipped,
          Function.update (fun _ => none) [1] (some (EscapeCodec.zip []))⟩) := by
      refine hread.imp fun fuel hdone => ?_
      simp only [filteredStep, chopFilteredBlockStoreReadBlock, BlockMap.methods, Function.update_self,
        hdone, Outcome.done_bind, List.length_nil]
    exact Refinement.settles_cons hfirst (Refinement.settles_cons hsecond (.of_eq fun _ => rfl))
  · rintro ⟨m', m₁, hwritten, m₂, ⟨-, hreply⟩, -⟩
    rcases hwritten with ⟨-, rfl⟩ | ⟨err, herr, -⟩
    · rw [Function.update_self] at hreply
      injection hreply with _ hbuffer _
      rw [← hbuffer, List.length_nil] at hblock
      exact absurd hblock (by decide)
    · cases herr

/-- Such a block, of zeros, and an input buffer of its size. -/
theorem filteredStore_loses_block :
    ∃ replies store', Outcome.Settles
        (fun fuel => Refinement.run
          (filteredStep (ZipFilter.methods escapeZip) (ZipFilter.methods escapeUnzip)
            BlockMap.methods fuel)
          ⟨ZipFilter.new escapeZip (List.replicate (2 ^ 32) 0), ZipFilter.new escapeUnzip [0],
            fun _ => none⟩
          [.writeBlock [1] (List.replicate (2 ^ 32) 0), .readBlock [1] []]) (replies, store') ∧
      ¬ ∃ m', Refinement.Allows BlockMap.RepliesFiltered (fun _ => none)
        [.writeBlock [1] (List.replicate (2 ^ 32) 0), .readBlock [1] []] replies m' :=
  filteredStore_loses_wrapped List.length_replicate (Nat.le_of_eq List.length_replicate.symm)

end RoundTrip

end Libchop
