import Libchop.Filter.EscapeCodec
import Libchop.Filter.LzoUnzipContract
import Libchop.Filter.ZipContract

/-!
# Filtered streams

A filtered stream pulls from a filter that is fed from a backend stream.  Reads of the backend may be
short, and its user reads as much at a time as it likes.
-/

namespace Libchop

/-- How many bytes a stream returns at most when it has some left and is asked for some. -/
abbrev Portion := Nat → Nat → Nat

/-- `chop_stream_read` of a backend that has these bytes left.  It returns one of them at least. -/
def backendRead (portion : Portion) (left : Bytes) (amount : Nat) : Except ChopError Bytes × Bytes :=
  if left = [] then (.error .streamEnd, left)
  else
    let amount := min amount (max 1 (portion left.length amount))
    (.ok (left.take amount), left.drop amount)

/-- Reads return all that is asked for, if so much is left. -/
def Portion.Whole (portion : Portion) : Prop :=
  ∀ left amount, min left amount ≤ portion left amount

section Methods

variable {F : Type} (portion : Portion)

def handleInputFault (push : PushMethod F) : FaultHandler F Bytes :=
  fun fuel howMuch filter backend =>
    match backendRead portion backend howMuch with
    | (.error .streamEnd, backend) => .done (.error .unhandledFault, filter, backend)
    | (.error err, backend) => .done (.error (.other err), filter, backend)
    | (.ok data, backend) =>
      push fuel filter data >>= fun (err, pushed, filter) =>
        match err with
        | .ok _ => Outcome.assert (pushed = data.length) >>= fun _ => .done (.ok (), filter, backend)
        | .error (.other .streamEnd) => .done (.error .unhandledFault, filter, backend)
        | .error err => .done (.error err, filter, backend)

structure FilteredStream (F : Type) where
  filter : F
  backend : Bytes
  flushing : Bool
  finished : Bool

/-- The first pull of `filtered_stream_read`, and a second one when the filter has become empty. -/
def pullOrFlush (methods : FilterMethods F) (fuel : Nat) (stream : FilteredStream F) (howmuch : Nat) :
    Outcome (FilterStatus × Bytes × FilteredStream F) :=
  let pull := methods.pull Bytes (handleInputFault portion methods.push)
  pull fuel stream.flushing howmuch (stream.filter, stream.backend) >>=
    fun (err, read, filter, backend) =>
      match err, stream.flushing with
      | .error .empty, false =>
        pull fuel true (howmuch - read.length) (filter, backend) >>=
          fun (err, someMore, filter, backend) =>
            let stream := { stream with filter, backend, flushing := true }
            match err with
            | .ok _ => .done (.ok (), read ++ someMore, stream)
            | .error err => .done (.error err, read, stream)
      | err, _ => .done (err, read, { stream with filter, backend })

def filteredStreamRead (methods : FilterMethods F) (fuel : Nat) (stream : FilteredStream F)
    (howmuch : Nat) : Outcome (FilterStatus × Bytes × FilteredStream F) :=
  if stream.finished then .done (.error (.other .streamEnd), [], stream)
  else
    pullOrFlush portion methods fuel stream howmuch >>= fun (err, read, stream) =>
      match err, stream.flushing with
      | .error .empty, true =>
        if read ≠ [] then .done (.ok (), read, stream)
        else .done (.error (.other .streamEnd), [], { stream with finished := true })
      | err, _ => .done (err, read, stream)

/-- A user reads some bytes at a time until there is an error.  The reads are collected. -/
def readUntilError (methods : FilterMethods F) (sizes : Nat → Nat) :
    Nat → Nat → FilteredStream F → List Bytes → Outcome (FilterStatus × List Bytes × FilteredStream F)
  | 0, _, _, _ => .outOfFuel
  | fuel + 1, i, stream, reads =>
    filteredStreamRead portion methods fuel stream (sizes i) >>= fun (err, read, stream) =>
      match err with
      | .ok _ => readUntilError methods sizes fuel (i + 1) stream (reads ++ [read])
      | .error err => .done (.error err, reads, stream)

end Methods

theorem backendRead_eq {portion : Portion} {left : Bytes} (hleft : left ≠ []) {amount n : Nat}
    (hn : min amount (max 1 (portion left.length amount)) = n) :
    backendRead portion left amount = (.ok (left.take n), left.drop n) := by
  rw [backendRead, if_neg hleft]
  simp only [hn]

/-- However the backend splits its data, the handler feeds the filter. -/
theorem handleInputFault_feeds {F : Type} (portion : Portion) (push : PushMethod F) :
    Feeds (handleInputFault portion push) push id where
  unhandled := by
    rintro left rfl
    exact ⟨[], rfl, fun fuel amount filter => rfl⟩
  handled := by
    intro left amount hleft hamount
    rw [id] at hleft
    generalize hn : min amount (max 1 (portion left.length amount)) = n
    refine ⟨left.take n, left.drop n, ?_, ?_, ?_, ?_⟩
    · intro hnil
      rcases List.take_eq_nil_iff.mp hnil with hzero | hnil
      · omega
      · exact hleft hnil
    · have hle := List.length_take_le n left
      omega
    · exact (List.take_append_drop n left).symm
    · intro fuel filter filter' hpush
      simp only [handleInputFault, backendRead_eq hleft hn, hpush, Outcome.done_bind,
        Outcome.assert_of]

/-- How much a filter that is empty is given at a time, of what the backend has left. -/
def Portion.amount (portion : Portion) (bufferSize left : Nat) : Nat :=
  min bufferSize (max 1 (portion left bufferSize))

theorem handleInputFault_fedBy {σ : Type} (portion : Portion) {bufferSize : Nat} (hpos : 0 < bufferSize) :
    ZipFilter.FedBy (handleInputFault portion (ZipFilter.push (σ := σ))) bufferSize
      (received (portion.amount bufferSize)) List.length := by
  refine ZipFilter.FedBy.of_amount (fun left => ?_) (fun left => Nat.min_le_left _ _)
    (fun _ _ _ => rfl) ?_
  · rw [Portion.amount]
    omega
  · intro fuel filter filter' source hsource hpush
    have hread : backendRead portion source bufferSize =
        (.ok (source.take (portion.amount bufferSize source.length)),
          source.drop (portion.amount bufferSize source.length)) := backendRead_eq hsource rfl
    simp only [handleInputFault, hread, hpush, Outcome.done_bind, Outcome.assert_of]

theorem handleInputFault_feedsWhole {F : Type} {portion : Portion} (h : portion.Whole)
    (push : PushMethod F) : FeedsWhole (handleInputFault portion push) push id where
  unhandled := (handleInputFault_feeds portion push).unhandled
  handled := by
    intro left amount hleft hamount
    rw [id] at hleft
    have hwhole := h left.length amount
    have hpos := List.length_pos_of_ne_nil hleft
    generalize hn : min amount (max 1 (portion left.length amount)) = n
    have htake : left.take n = left.take amount := by
      rw [List.take_eq_take_iff]
      omega
    have hdrop : left.drop n = left.drop amount := by
      rw [List.drop_eq_drop_iff]
      omega
    refine ⟨left.drop amount, rfl, fun fuel filter filter' hpush => ?_⟩
    rw [id] at hpush
    simp only [handleInputFault, backendRead_eq hleft hn, htake, hdrop, hpush, Outcome.done_bind,
      Outcome.assert_of]

section Reads

variable {F : Type} (portion : Portion) (methods : FilterMethods F) (sizes : Nat → Nat)

/-- From the read number `i` on, after some `reads`, the stream returns `out` and then
`CHOP_STREAM_END`, and no read returns more than it was asked for. -/
def ReadsAs (i : Nat) (stream : FilteredStream F) (reads : List Bytes) (out : Bytes) : Prop :=
  ∃ more stream', Outcome.Settles
      (fun fuel => readUntilError portion methods sizes fuel i stream reads)
      (.error (.other .streamEnd), reads ++ more, stream') ∧
    more.flatten = out ∧ ∀ j read, more[j]? = some read → read.length ≤ sizes (i + j)

inductive ReadsTo : Nat → FilteredStream F → Nat → FilteredStream F → Prop where
  | refl (i : Nat) (stream : FilteredStream F) : ReadsTo i stream i stream
  | step {i j : Nat} {stream stream' stream'' : FilteredStream F} {read : Bytes} :
    Outcome.Settles (fun fuel => filteredStreamRead portion methods fuel stream (sizes i))
      (.ok (), read, stream') →
    ReadsTo (i + 1) stream' j stream'' → ReadsTo i stream j stream''

variable {portion methods sizes} {i : Nat} {stream stream' : FilteredStream F} {reads : List Bytes}
  {read out : Bytes}

theorem ReadsAs.step
    (hread : Outcome.Settles (fun fuel => filteredStreamRead portion methods fuel stream (sizes i))
      (.ok (), read, stream')) (hle : read.length ≤ sizes i)
    (h : ReadsAs portion methods sizes (i + 1) stream' (reads ++ [read]) out) :
    ReadsAs portion methods sizes i stream reads (read ++ out) := by
  obtain ⟨more, stream'', hsettles, rfl, hbound⟩ := h
  refine ⟨read :: more, stream'', ?_, List.flatten_cons, fun j other hother => ?_⟩
  · rw [List.append_assoc] at hsettles
    exact Outcome.Settles.succ (fun fuel => rfl) (hread.bind hsettles)
  · cases j with
    | zero =>
      cases hother
      exact hle
    | succ j =>
      rw [Nat.add_comm j, ← Nat.add_assoc]
      exact hbound j other hother

theorem ReadsAs.ended
    (hread : Outcome.Settles (fun fuel => filteredStreamRead portion methods fuel stream (sizes i))
      (.error (.other .streamEnd), [], stream')) :
    ReadsAs portion methods sizes i stream reads [] := by
  refine ⟨[], stream', ?_, rfl, nofun⟩
  rw [List.append_nil]
  exact Outcome.Settles.succ (fun fuel => rfl) (hread.bind (.of_eq fun _ => rfl))

variable {Fits : F × Bytes → Nat → Prop} {Drains : Nat → Prop} {Pulling Draining : Nat → F × Bytes → Bytes → Prop}
  {Idle : F × Bytes → Prop} {size n : Nat}

/-- A read of a stream whose filter is being flushed. -/
theorem filteredStreamRead_flushing
    (h : PullProtocol.Delivers (methods.pull Bytes (handleInputFault portion methods.push)) .empty
      Fits Drains Pulling Draining Idle) {filter : F} {backend : Bytes}
    (hs : Draining n (filter, backend) out) (hsize : 0 < size) (hdrains : Drains size) :
    (∃ read filter' backend' out' n', n' < n ∧ out = read ++ out' ∧ read.length ≤ size ∧
      Draining n' (filter', backend') out' ∧
      Outcome.Settles
        (fun fuel => filteredStreamRead portion methods fuel ⟨filter, backend, true, false⟩ size)
        (.ok (), read, ⟨filter', backend', true, false⟩)) ∨
    (out = [] ∧ ∃ stream', Outcome.Settles
        (fun fuel => filteredStreamRead portion methods fuel ⟨filter, backend, true, false⟩ size)
        (.error (.other .streamEnd), [], stream')) := by
  obtain ⟨err, read, ⟨filter', backend'⟩, out', hpull, rfl, hcases⟩ := h.draining hs hsize hdrains
  rcases hcases with ⟨rfl, hle, n', hn', hs'⟩ | ⟨rfl, rfl, rfl, -⟩
  · left
    refine ⟨read, filter', backend', out', n', hn', rfl, hle, hs', ?_⟩
    refine hpull.imp fun fuel hdone => ?_
    simp [filteredStreamRead, pullOrFlush, hdone]
  · right
    refine ⟨rfl, ⟨filter', backend', true, true⟩, ?_⟩
    refine hpull.imp fun fuel hdone => ?_
    simp [filteredStreamRead, pullOrFlush, hdone]

variable (portion methods Draining Idle) in
/-- A filter that becomes empty while it is pulled from has pulled nothing, or it may be flushed
twice. -/
def MayFlushTwice : Prop :=
  (∀ s, Idle s → ∃ n, Draining n s []) ∨
    ∀ fuel size s read s', methods.pull Bytes (handleInputFault portion methods.push) fuel false size
      s = .done (.error .empty, read, s') → read = []

/-- A read of a stream whose filter is being pulled from. -/
theorem filteredStreamRead_pulling
    (h : PullProtocol.Delivers (methods.pull Bytes (handleInputFault portion methods.push)) .empty
      Fits Drains Pulling Draining Idle) (htwice : MayFlushTwice portion methods Draining Idle) {filter : F}
    {backend : Bytes} (hs : Pulling n (filter, backend) out) (hsize : 0 < size)
    (hfits : Fits (filter, backend) size) (hdrains : ∀ left, left ≤ size → Drains left) :
    (∃ read filter' backend' flushing out', out = read ++ out' ∧ read.length ≤ size ∧
      ((flushing = false ∧ ∃ n', n' < n ∧ Pulling n' (filter', backend') out') ∨
        (flushing = true ∧ ∃ n', Draining n' (filter', backend') out')) ∧
      Outcome.Settles
        (fun fuel => filteredStreamRead portion methods fuel ⟨filter, backend, false, false⟩ size)
        (.ok (), read, ⟨filter', backend', flushing, false⟩)) ∨
    (out = [] ∧ ∃ stream', Outcome.Settles
        (fun fuel => filteredStreamRead portion methods fuel ⟨filter, backend, false, false⟩ size)
        (.error (.other .streamEnd), [], stream')) := by
  obtain ⟨err, read, ⟨filter', backend'⟩, out', hpull, rfl, hcases⟩ := h.pulling hs hsize hfits
  rcases hcases with ⟨rfl, hle, hgoes⟩ | ⟨rfl, hlt, n', hs'⟩
  · left
    refine ⟨read, filter', backend', false, out', rfl, hle, .inl ⟨rfl, hgoes⟩, ?_⟩
    refine hpull.imp fun fuel hdone => ?_
    simp [filteredStreamRead, pullOrFlush, hdone]
  · obtain ⟨err', more, ⟨filter'', backend''⟩, out'', hflush, rfl, hcases⟩ :=
      h.draining hs' (Nat.sub_pos_of_lt hlt) (hdrains _ (Nat.sub_le _ _))
    have hread : ∀ {result}, (∀ fuel, methods.pull Bytes (handleInputFault portion methods.push) fuel
          true (size - read.length) (filter', backend') = .done (err', more, filter'', backend'') →
          methods.pull Bytes (handleInputFault portion methods.push) fuel false size
            (filter, backend) = .done (.error .empty, read, filter', backend') →
          filteredStreamRead portion methods fuel ⟨filter, backend, false, false⟩ size =
            .done result) →
        Outcome.Settles
          (fun fuel => filteredStreamRead portion methods fuel ⟨filter, backend, false, false⟩ size)
          result := by
      intro result hresult
      obtain ⟨bound, hpull⟩ := hpull
      obtain ⟨bound', hflush⟩ := hflush
      exact ⟨max bound bound', fun fuel hfuel => hresult fuel (hflush fuel (by omega))
        (hpull fuel (by omega))⟩
    rcases hcases with ⟨rfl, hle, n'', -, hs''⟩ | ⟨rfl, rfl, rfl, hidle⟩
    · left
      refine ⟨read ++ more, filter'', backend'', true, out'', (List.append_assoc _ _ _).symm, ?_,
        .inr ⟨rfl, n'', hs''⟩, hread fun fuel hflush hpull => ?_⟩
      · rw [List.length_append]
        omega
      · simp [filteredStreamRead, pullOrFlush, hpull, hflush]
    · by_cases hnil : read = []
      · right
        subst hnil
        refine ⟨rfl, ⟨filter'', backend'', true, true⟩, hread fun fuel hflush hpull => ?_⟩
        rw [List.length_nil, Nat.sub_zero] at hflush
        simp [filteredStreamRead, pullOrFlush, hpull, hflush]
      · left
        have hagain : ∃ n, Draining n (filter'', backend'') [] := by
          rcases htwice with htwice | hnever
          · exact htwice _ hidle
          · obtain ⟨bound, hpull⟩ := hpull
            exact absurd (hnever _ _ _ _ _ (hpull bound (Nat.le_refl bound))) hnil
        refine ⟨read, filter'', backend'', true, [], rfl, Nat.le_of_lt hlt, .inr ⟨rfl, hagain⟩,
          hread fun fuel hflush hpull => ?_⟩
        simp [filteredStreamRead, pullOrFlush, hpull, hflush, hnil]

/-- From a filter that is being flushed, the stream returns the rest. -/
theorem readsAs_flushing
    (h : PullProtocol.Delivers (methods.pull Bytes (handleInputFault portion methods.push)) .empty
      Fits Drains Pulling Draining Idle) (hsizes : ∀ i, 0 < sizes i) (n : Nat) {filter : F}
    {backend : Bytes} (hs : Draining n (filter, backend) out)
    (hdrains : ∀ j stream', ReadsTo portion methods sizes i ⟨filter, backend, true, false⟩ j stream' →
      Drains (sizes j)) :
    ReadsAs portion methods sizes i ⟨filter, backend, true, false⟩ reads out := by
  induction n using Nat.strongRecOn generalizing filter backend out i reads with
  | ind n ih =>
    rcases filteredStreamRead_flushing h hs (hsizes i) (hdrains i _ (.refl i _)) with
      ⟨read, filter', backend', out', n', hn', rfl, hle, hs', hread⟩ | ⟨rfl, stream', hread⟩
    · exact ReadsAs.step hread hle
        (ih n' hn' hs' fun j stream'' hto => hdrains j stream'' (.step hread hto))
    · exact ReadsAs.ended hread

/-- From a filter that is being pulled from, the stream returns what the filter delivers, if the reads
fit. -/
theorem readsAs_pulling
    (h : PullProtocol.Delivers (methods.pull Bytes (handleInputFault portion methods.push)) .empty
      Fits Drains Pulling Draining Idle) (htwice : MayFlushTwice portion methods Draining Idle)
    (hsizes : ∀ i, 0 < sizes i) (n : Nat) {filter : F} {backend : Bytes}
    (hs : Pulling n (filter, backend) out)
    (hfits : ∀ j filter' backend', ReadsTo portion methods sizes i ⟨filter, backend, false, false⟩ j
      ⟨filter', backend', false, false⟩ → Fits (filter', backend') (sizes j))
    (hdrains : ∀ j stream', ReadsTo portion methods sizes i ⟨filter, backend, false, false⟩ j stream' →
      ∀ left, left ≤ sizes j → Drains left) :
    ReadsAs portion methods sizes i ⟨filter, backend, false, false⟩ reads out := by
  induction n using Nat.strongRecOn generalizing filter backend out i reads with
  | ind n ih =>
    rcases filteredStreamRead_pulling h htwice hs (hsizes i) (hfits i filter backend (.refl i _))
      (hdrains i _ (.refl i _)) with
      ⟨read, filter', backend', flushing, out', rfl, hle, hphase, hread⟩ | ⟨rfl, stream', hread⟩
    · refine ReadsAs.step hread hle ?_
      rcases hphase with ⟨rfl, n', hn', hs'⟩ | ⟨rfl, n', hs'⟩
      · exact ih n' hn' hs'
          (fun j filter'' backend'' hto => hfits j filter'' backend'' (.step hread hto))
          (fun j stream'' hto => hdrains j stream'' (.step hread hto))
      · exact readsAs_flushing h hsizes n' hs' fun j stream'' hto =>
          hdrains j stream'' (.step hread hto) _ (Nat.le_refl _)
    · exact ReadsAs.ended hread

theorem filteredStreamRead_keeps_flushing {fuel : Nat} {err : FilterStatus}
    (h : filteredStreamRead portion methods fuel stream size = .done (err, read, stream'))
    (hflushing : stream.flushing = true) : stream'.flushing = true := by
  rw [filteredStreamRead] at h
  split at h
  · cases h
    exact hflushing
  · obtain ⟨⟨err', read', stream''⟩, hpull, h⟩ := Outcome.bind_eq_done.mp h
    have hstill : stream''.flushing = true := by
      obtain ⟨⟨err'', read'', filter, backend⟩, -, hpull⟩ := Outcome.bind_eq_done.mp hpull
      rw [hflushing] at hpull
      dsimp only at hpull
      split at hpull
      · next heq => cases heq
      · cases hpull
        rfl
    dsimp only at h
    split at h
    · split at h
      · cases h
        exact hstill
      · cases h
        exact hstill
    · cases h
      exact hstill

theorem ReadsTo.keeps_flushing {j : Nat} (hto : ReadsTo portion methods sizes i stream j stream')
    (hflushing : stream.flushing = true) : stream'.flushing = true := by
  induction hto with
  | refl i stream => exact hflushing
  | step hread _ ih =>
    obtain ⟨bound, hread⟩ := hread
    exact ih (filteredStreamRead_keeps_flushing (hread bound (Nat.le_refl bound)) hflushing)

/-- A filter that is not flushed after some reads is still being pulled from. -/
theorem ReadsTo.pulling
    (h : PullProtocol.Delivers (methods.pull Bytes (handleInputFault portion methods.push)) .empty
      Fits Drains Pulling Draining Idle) (htwice : MayFlushTwice portion methods Draining Idle)
    (hsizes : ∀ i, 0 < sizes i) (hfits : ∀ i n s out, Pulling n s out → Fits s (sizes i))
    (hdrains : ∀ i left, left ≤ sizes i → Drains left) {j : Nat}
    (hto : ReadsTo portion methods sizes i stream j stream') {filter : F} {backend : Bytes}
    (hstream : stream = ⟨filter, backend, false, false⟩) (hs : Pulling n (filter, backend) out)
    (hstream' : stream'.flushing = false) :
    ∃ n out, Pulling n (stream'.filter, stream'.backend) out := by
  induction hto generalizing filter backend n out with
  | refl i stream =>
    subst hstream
    exact ⟨n, out, hs⟩
  | @step i j stream stream₁ stream₂ read hread hto ih =>
    subst hstream
    rcases filteredStreamRead_pulling h htwice hs (hsizes i) (hfits i n _ out hs) (hdrains i) with
      ⟨read', filter', backend', flushing, out', rfl, -, hphase, hread'⟩ | ⟨-, stream'', hread'⟩
    · cases hread.unique hread'
      rcases hphase with ⟨rfl, n', -, hs'⟩ | ⟨rfl, -⟩
      · exact ih rfl hs' hstream'
      · rw [hto.keeps_flushing rfl] at hstream'
        cases hstream'
    · cases hread.unique hread'

end Reads

end Libchop
