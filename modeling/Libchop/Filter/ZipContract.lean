import Libchop.Filter.ZipTemplate

/-!
# What the zip and unzip filters deliver

However the handler feeds the filter and however much is pulled at a time, the filter delivers what the
library makes of the whole input, and it is as new afterwards.
-/

namespace Libchop

namespace ZipFilterClass

variable (c : ZipFilterClass)

@[simp] theorem processReturn_progress (flush : Bool) :
    c.processReturn flush (c.progress flush) = .ok := by
  cases c <;> cases flush <;> rfl

@[simp] theorem processReturn_streamEnd (flush : Bool) :
    c.processReturn flush .streamEnd = .streamEnd := by
  cases c <;> cases flush <;> rfl

@[simp] theorem processReturn_ended (flush : Bool) : c.processReturn flush c.ended = c.ended := by
  cases c <;> cases flush <;> rfl

@[simp] theorem inputCorrupted_ok : c.inputCorrupted .ok = false := by cases c <;> rfl

@[simp] theorem inputCorrupted_streamEnd : c.inputCorrupted .streamEnd = false := by cases c <;> rfl

@[simp] theorem inputCorrupted_ended : c.inputCorrupted c.ended = false := by cases c <;> rfl

@[simp] theorem cantProduceMore_ok : c.cantProduceMore .ok = false := by cases c <;> rfl

@[simp] theorem streamEnded_ok : c.streamEnded .ok = false := by cases c <;> rfl

@[simp] theorem streamEnded_streamEnd : c.streamEnded .streamEnd = true := by cases c <;> rfl

@[simp] theorem streamEnded_ended : c.streamEnded c.ended = true := by cases c <;> rfl

theorem progress_ne_streamEnd (flush : Bool) : c.progress flush ≠ .streamEnd := by
  cases c <;> cases flush <;> nofun

variable {c} in
theorem eq_of_not_isZip (h : c.isZip = false) : c = .zlibUnzip ∨ c = .bzip2Unzip := by
  cases c with
  | zlibZip => cases h
  | zlibUnzip => exact .inl rfl
  | bzip2Zip => cases h
  | bzip2Unzip => exact .inr rfl

theorem cantProduceMore_streamEnd (h : c.isZip = false) : c.cantProduceMore .streamEnd = true := by
  rcases eq_of_not_isZip h with rfl | rfl <;> rfl

theorem needMoreInput_ok {availIn : Nat} (h : availIn ≠ 0) :
    c.needMoreInput availIn .ok = false := by
  cases c with
  | zlibZip => rfl
  | zlibUnzip => rfl
  | bzip2Zip => rfl
  | bzip2Unzip => simp [needMoreInput, h]

end ZipFilterClass

namespace ZipFilter

variable {σ : Type}

/-- The stream points into an input buffer of this size. -/
structure WellFormed (size : Nat) (filter : ZipFilter σ) : Prop where
  length_eq : filter.inputBuffer.length = size
  pos : 0 < size
  fits : filter.nextIn + filter.availIn ≤ size

variable {size : Nat} {filter : ZipFilter σ}

theorem WellFormed.length_pending (h : filter.WellFormed size) :
    filter.pending.length = filter.availIn := by
  have hfits := h.fits
  have hlength := h.length_eq
  rw [pending, List.length_take, List.length_drop]
  omega

theorem pending_eq_nil (h : filter.availIn = 0) : filter.pending = [] := by
  rw [pending, h, List.take_zero]

/-- What is copied to the buffer, as far as the counter says. -/
theorem pending_receive (h : filter.WellFormed size) (hnext : filter.nextIn = 0) {data : Bytes}
    (hfits : filter.availIn + data.length ≤ size) :
    (filter.receive data).WellFormed size ∧
      (filter.receive data).pending = counted (filter.pending ++ data) := by
  have hlength := h.length_eq
  have hcount := streamCount_le (filter.availIn + data.length)
  have hpending : filter.pending = filter.inputBuffer.take filter.availIn := by
    rw [pending, hnext, List.drop_zero]
  have hwindow : (filter.pending ++ data).length = filter.availIn + data.length := by
    rw [List.length_append, h.length_pending]
  refine ⟨⟨?_, h.pos, ?_⟩, ?_⟩
  · simp only [receive, List.length_append, List.length_take, List.length_drop]
    omega
  · simp only [receive]
    omega
  · rw [counted, hwindow, hpending]
    simp only [pending, receive, hnext, List.drop_zero]
    rw [List.take_append_of_le_length]
    rw [List.length_append, List.length_take]
    omega

theorem pushLoop_extends {fuel : Nat} (pushed : Nat) {data : Bytes} (h : filter.WellFormed size)
    (hnext : filter.nextIn = 0) (hcount : size < 2 ^ 32 ∨ filter.availIn + data.length < 2 ^ 32)
    (hfuel : data.length < fuel) :
    ∃ status filter', pushLoop fuel filter data pushed =
        .done (status, pushed + min data.length (size - filter.availIn), filter') ∧
      (0 < pushed + min data.length (size - filter.availIn) → status = .ok ()) ∧
      filter'.WellFormed size ∧
      filter'.pending = filter.pending ++ data.take (size - filter.availIn) ∧
      filter'.zstream = filter.zstream := by
  induction fuel generalizing filter data pushed with
  | zero => omega
  | succ fuel ih =>
    have hlength := h.length_eq
    rw [pushLoop]
    by_cases hdata : data = []
    · refine ⟨.ok (), filter, ?_, fun _ => rfl, h, ?_, rfl⟩
      · rw [if_pos hdata, hdata, List.length_nil, Nat.zero_min, Nat.add_zero]
      · rw [hdata, List.take_nil, List.append_nil]
    by_cases hfull : filter.availIn ≥ filter.inputBuffer.length
    · have hroom : size - filter.availIn = 0 := by omega
      refine ⟨if pushed = 0 then .error .full else .ok (), filter, ?_, ?_, h, ?_, rfl⟩
      · rw [if_neg hdata, if_pos hfull, hroom, Nat.min_zero, Nat.add_zero]
      · intro hpushed
        exact if_neg (by omega)
      · rw [hroom, List.take_zero, List.append_nil]
    have hpos := List.length_pos_of_ne_nil hdata
    rw [if_neg hdata, if_neg hfull, hlength]
    dsimp only
    generalize hamount : min (size - filter.availIn) data.length = amount
    have hfits : filter.availIn + (data.take amount).length ≤ size := by
      rw [List.length_take]
      omega
    obtain ⟨hwf', hpending'⟩ := pending_receive h hnext hfits
    have hshort : filter.availIn + (data.take amount).length < 2 ^ 32 := by
      rw [List.length_take] at hfits ⊢
      omega
    rw [counted_of_lt (by rw [List.length_append, h.length_pending]; exact hshort)] at hpending'
    have havail' : (filter.receive (data.take amount)).availIn = filter.availIn + amount := by
      change streamCount (filter.availIn + (data.take amount).length) = filter.availIn + amount
      rw [streamCount_of_lt hshort, List.length_take]
      omega
    have hrest : (data.drop amount).length < fuel := by
      rw [List.length_drop]
      omega
    have hcount' : size < 2 ^ 32 ∨
        (filter.receive (data.take amount)).availIn + (data.drop amount).length < 2 ^ 32 := by
      rw [havail', List.length_drop]
      omega
    obtain ⟨status, filter'', hloop, hstatus, hwf'', hpending'', hzstream⟩ :=
      ih (pushed + amount) hwf' hnext hcount' hrest
    have htotal : pushed + amount + min (data.length - amount) (size - (filter.availIn + amount)) =
        pushed + min data.length (size - filter.availIn) := by omega
    rw [havail', List.length_drop, htotal] at hloop hstatus
    refine ⟨status, filter'', hloop, hstatus, hwf'', ?_, hzstream⟩
    have hroom : amount + (size - (filter.availIn + amount)) = size - filter.availIn := by omega
    rw [hpending'', hpending', havail', List.append_assoc, ← List.take_add, hroom]

/-- A push that finds the window at the start of the buffer, or empty, absorbs what it reports. -/
theorem push_extends (h : filter.WellFormed size) {data : Bytes}
    (hstart : filter.availIn = 0 ∨ filter.nextIn = 0 ∨ data = [])
    (hcount : size < 2 ^ 32 ∨ filter.availIn + data.length < 2 ^ 32) (fuel : Nat) :
    ∃ status filter', push fuel filter data =
        .done (status, min data.length (size - filter.availIn), filter') ∧
      (0 < min data.length (size - filter.availIn) → status = .ok ()) ∧
      filter'.WellFormed size ∧
      filter'.pending = filter.pending ++ data.take (size - filter.availIn) ∧
      filter'.zstream = filter.zstream := by
  have hfits := h.fits
  rw [push]
  by_cases hempty : filter.availIn = 0
  · have hwf : WellFormed size { filter with nextIn := 0 } :=
      ⟨h.length_eq, h.pos, by simp only; omega⟩
    have hnothing : pending { filter with nextIn := 0 } = [] := pending_eq_nil hempty
    have hpushed := pushLoop_extends 0 hwf rfl hcount (Nat.lt_succ_self data.length)
    rw [Nat.zero_add, hnothing, ← pending_eq_nil hempty] at hpushed
    rw [if_pos hempty]
    exact hpushed
  rw [if_neg hempty]
  by_cases hdata : data = []
  · refine ⟨.ok (), filter, ?_, fun _ => rfl, h, ?_, rfl⟩
    · rw [hdata, List.length_nil, Nat.zero_min, pushLoop, if_pos rfl]
    · rw [hdata, List.take_nil, List.append_nil]
  · have hnext : filter.nextIn = 0 := (hstart.resolve_left hempty).resolve_right hdata
    have hpushed := pushLoop_extends 0 h hnext hcount (Nat.lt_succ_self data.length)
    rw [Nat.zero_add] at hpushed
    exact hpushed

/-- An empty filter takes all that it has room for, and counts a beginning of it. -/
theorem push_eq (h : filter.WellFormed size) (hempty : filter.availIn = 0) {data : Bytes}
    (hdata : data ≠ []) (hfits : data.length ≤ size) :
    ∃ filter' : ZipFilter σ, (∀ fuel, push fuel filter data = .done (.ok (), data.length, filter')) ∧
      filter'.WellFormed size ∧ filter'.pending = counted data ∧ filter'.zstream = filter.zstream := by
  have hpos : 0 < data.length := List.length_pos_of_ne_nil hdata
  have hsize := h.pos
  have hlength := h.length_eq
  let start : ZipFilter σ := { filter with nextIn := 0 }
  have hwf : start.WellFormed size := ⟨hlength, hsize, by simp only [start]; omega⟩
  have hnothing : start.pending = [] := pending_eq_nil hempty
  have hroom : start.availIn + data.length ≤ size := by
    simp only [start]
    omega
  obtain ⟨hwf', hpending'⟩ := pending_receive hwf rfl hroom
  rw [hnothing, List.nil_append] at hpending'
  refine ⟨start.receive data, fun fuel => ?_, hwf', hpending', rfl⟩
  have hnotFull : ¬ start.availIn ≥ start.inputBuffer.length := by
    simp only [start]
    omega
  have hamount : min (start.inputBuffer.length - start.availIn) data.length = data.length := by
    simp only [start]
    omega
  obtain ⟨rounds, hrounds⟩ := Nat.exists_eq_succ_of_ne_zero (Nat.ne_of_gt hpos)
  rw [push, if_pos hempty]
  change pushLoop (data.length + 1) start data 0 = _
  rw [pushLoop, if_neg hdata, if_neg hnotFull]
  simp only [hamount, List.take_length, List.drop_length, Nat.zero_add]
  rw [hrounds, pushLoop, if_pos rfl]

/-- The handler pushes as much as an empty filter has room for. -/
theorem handleInputFault_push {source : Bytes} (hwf : filter.WellFormed size)
    (hempty : filter.availIn = 0) (hsource : source ≠ []) :
    ∃ filter' : ZipFilter σ, filter'.WellFormed size ∧ filter'.zstream = filter.zstream ∧
      filter'.pending = counted (source.take size) ∧
      ∀ fuel, handleInputFaultFromBuffer push fuel filter.inputBuffer.length filter source =
        .done (.ok (), filter', source.drop size) := by
  have hpos := hwf.pos
  have hlength := List.length_pos_of_ne_nil hsource
  have hdata : source.take size ≠ [] := by
    apply List.ne_nil_of_length_pos
    rw [List.length_take]
    omega
  obtain ⟨filter', hpush, hwf', hpending, hzstream⟩ :=
    push_eq hwf hempty hdata (List.length_take_le _ _)
  refine ⟨filter', hwf', hzstream, hpending, ?_⟩
  intro fuel
  have hdrop : source.drop (source.take size).length = source.drop size := by
    rw [List.length_take, List.drop_eq_drop_iff]
    omega
  simp only [handleInputFaultFromBuffer, if_neg hsource, hwf.length_eq, hpush, Outcome.done_bind,
    hdrop]

/-- What is pending after the library took some of it. -/
theorem pending_take (h : filter.WellFormed size) (step : CodecStep σ)
    (hle : step.consumed ≤ filter.pending.length) :
    (filter.take step).WellFormed size ∧
      (filter.take step).pending = filter.pending.drop step.consumed := by
  have hlength := h.length_pending
  have hfits := h.fits
  refine ⟨⟨h.length_eq, h.pos, ?_⟩, ?_⟩
  · simp only [take]
    omega
  · simp only [take, pending, List.drop_take, List.drop_drop]

section AvailOut

variable {pulled : Bytes}

theorem uncounted_of_lt (h : size < 2 ^ 32) : uncounted size = 0 := by
  rw [uncounted, streamCount_of_lt h, Nat.sub_self]

theorem written_of_lt (h : size < 2 ^ 32) : written size pulled = pulled := by
  rw [written, uncounted_of_lt h, Nat.sub_zero, List.take_length]

theorem availOut_of_lt (h : size < 2 ^ 32) : availOut size pulled = size - pulled.length := by
  rw [availOut, written_of_lt h, streamCount_of_lt h]

theorem deliver_of_lt (h : size < 2 ^ 32) (output : Bytes) :
    deliver size pulled output = pulled ++ output := by
  rw [deliver, written_of_lt h, uncounted_of_lt h, List.replicate_zero, List.append_nil]

end AvailOut

/-- An input fault of an empty filter is not handled and the source has nothing to receive, or the filter
receives the next portion.  Sources have a number of bytes left, of which the filter is told of some. -/
structure FedBy {S : Type} (handle : FaultHandler (ZipFilter σ) S) (bufferSize : Nat)
    (rest : S → Bytes) (left : S → Nat) : Prop where
  fault : ∀ {filter : ZipFilter σ} {source}, filter.WellFormed bufferSize → filter.availIn = 0 →
    (rest source = [] ∧ ∃ source', rest source' = [] ∧ left source' ≤ left source ∧
      ∀ fuel, handle fuel filter.inputBuffer.length filter source =
        .done (.error .unhandledFault, filter, source')) ∨
    (∃ filter' source', filter'.WellFormed bufferSize ∧ filter'.zstream = filter.zstream ∧
      rest source = filter'.pending ++ rest source' ∧
      filter'.pending.length + left source' ≤ left source ∧ left source' < left source ∧
      ∀ fuel, handle fuel filter.inputBuffer.length filter source = .done (.ok (), filter', source'))

/-- A handler that pushes an amount of bytes which depends on how many are left. -/
theorem FedBy.of_amount {handle : FaultHandler (ZipFilter σ) Bytes} {amount : Nat → Nat}
    (hpos : ∀ left, 0 < amount left) (hle : ∀ left, amount left ≤ size)
    (hunhandled : ∀ fuel asked filter,
      handle fuel asked filter [] = .done (.error .unhandledFault, filter, []))
    (hhandled : ∀ fuel filter filter' source, source ≠ [] →
      push fuel filter (source.take (amount source.length)) =
        .done (.ok (), (source.take (amount source.length)).length, filter') →
      handle fuel size filter source = .done (.ok (), filter', source.drop (amount source.length))) :
    FedBy handle size (received amount) List.length where
  fault := by
    intro filter source hwf hempty
    by_cases hsource : source = []
    · left
      subst hsource
      exact ⟨received_nil, [], received_nil, Nat.le_refl _, fun fuel => hunhandled fuel _ filter⟩
    · right
      have hsome := List.length_pos_of_ne_nil hsource
      have hfirst := hpos source.length
      have hdata : source.take (amount source.length) ≠ [] := by
        apply List.ne_nil_of_length_pos
        rw [List.length_take]
        omega
      have hfits : (source.take (amount source.length)).length ≤ size :=
        Nat.le_trans (List.length_take_le _ _) (hle _)
      obtain ⟨filter', hpush, hwf', hpending, hzstream⟩ := push_eq hwf hempty hdata hfits
      refine ⟨filter', source.drop (amount source.length), hwf', hzstream, ?_, ?_, ?_, ?_⟩
      · rw [received_of_ne_nil hsource hfirst, hpending]
      · have hcount := streamCount_le (source.take (amount source.length)).length
        rw [List.length_take] at hcount
        rw [hpending, length_counted, List.length_take, List.length_drop]
        omega
      · rw [List.length_drop]
        omega
      · intro fuel
        rw [hwf.length_eq]
        exact hhandled fuel filter filter' source hsource (hpush fuel)

theorem handleInputFaultFromBuffer_fedBy (hpos : 0 < size) :
    FedBy (handleInputFaultFromBuffer (push (σ := σ))) size (received fun _ => size) List.length := by
  refine FedBy.of_amount (fun _ => hpos) (fun _ => Nat.le_refl size) (fun _ _ _ => if_pos rfl) ?_
  intro fuel filter filter' source hsource hpush
  have hdrop : source.drop (source.take size).length = source.drop size := by
    rw [List.length_take, List.drop_eq_drop_iff]
    omega
  simp only [handleInputFaultFromBuffer, if_neg hsource, hpush, Outcome.done_bind, hdrop]

section Contract

variable {c : ZipFilterClass} (library : c.Library) {S : Type} (rest : S → Bytes) (left : S → Nat)
  (bufferSize : Nat)

def Pulling (n : Nat) (s : ZipFilter library.State × S) (out : Bytes) : Prop :=
  s.1.WellFormed bufferSize ∧
  ((∃ fed given coded, library.code (fed ++ s.1.pending ++ rest s.2) = some coded ∧
      coded = given ++ out ∧ library.Running s.1.zstream fed given ∧
      n = s.1.pending.length + left s.2 + out.length + 1) ∨
    (library.Ended s.1.zstream ∧ s.1.availIn = 0 ∧ rest s.2 = [] ∧ out = [] ∧ n = 0))

/-- All input was taken, and the library will put out `out` when it is asked to finish. -/
def Draining (n : Nat) (s : ZipFilter library.State × S) (out : Bytes) : Prop :=
  s.1.WellFormed bufferSize ∧ s.1.availIn = 0 ∧
  ((∃ whole given coded, library.code whole = some coded ∧ coded = given ++ out ∧
      (library.Running s.1.zstream whole given ∨ library.Finishing s.1.zstream whole given) ∧
      n = out.length + 1) ∨
    (library.Ended s.1.zstream ∧ out = [] ∧ n = 0))

/-- The filter is as new: nothing is available, and the library is in its initial state. -/
structure Idle (filter : ZipFilter library.State) : Prop where
  wellFormed : filter.WellFormed bufferSize
  availIn_eq : filter.availIn = 0
  zstream_eq : filter.zstream = library.init

variable {library rest left bufferSize} {handle : FaultHandler (ZipFilter library.State) S}

/-- One call of the library, while there is input. -/
theorem pullLoop_process {size : Nat} (hcount : size < 2 ^ 32) {filter : ZipFilter library.State}
    {source : S} {pulled : Bytes} (hroom : pulled.length < size) (havail : filter.availIn ≠ 0) (fuel : Nat)
    {step : CodecStep library.State}
    (hstep : library.process filter.zstream false filter.pending (size - pulled.length) = step)
    (hret : step.ret = c.progress false) :
    pullLoop library handle false size (fuel + 1) (filter, source) .ok pulled =
      pullLoop library handle false size fuel (filter.take step, source) .ok
        (pulled ++ step.output) := by
  rw [pullLoop]
  simp [hroom, havail, c.needMoreInput_ok havail, availOut_of_lt hcount, deliver_of_lt hcount, hstep,
    hret]

theorem pullLoop_streamEnd (hunzip : c.isZip = false) {size : Nat} (hcount : size < 2 ^ 32)
    {filter : ZipFilter library.State} {source : S} {pulled : Bytes} (hroom : pulled.length < size)
    (havail : filter.availIn ≠ 0) (fuel : Nat) {step : CodecStep library.State}
    (hstep : library.process filter.zstream false filter.pending (size - pulled.length) = step)
    (hret : step.ret = .streamEnd) :
    pullLoop library handle false size (fuel + 1) (filter, source) .ok pulled =
      .done (.ok (), pulled ++ step.output, filter.take step, source) := by
  rw [pullLoop]
  simp [hroom, havail, c.needMoreInput_ok havail, availOut_of_lt hcount, deliver_of_lt hcount, hstep,
    hret, c.cantProduceMore_streamEnd hunzip]

/-- The handler is called when there is no input. -/
theorem pullLoop_fault {size : Nat} {filter : ZipFilter library.State} {source : S} {pulled : Bytes}
    (hroom : pulled.length < size) (hempty : filter.availIn = 0) (fuel : Nat) :
    pullLoop library handle false size (fuel + 1) (filter, source) .ok pulled =
      (handle fuel filter.inputBuffer.length filter source >>= fun (err, filter, source) =>
        match err with
        | .ok _ => pullLoop library handle false size fuel (filter, source) .ok pulled
        | .error .unhandledFault | .error .empty =>
          .done (pullEmpty pulled, pulled, filter, source)
        | .error err => .done (.error err, pulled, filter, source)) := by
  rewrite [pullLoop, if_pos hroom, if_pos ⟨.inl hempty, rfl⟩, hempty, Nat.sub_zero]
  rfl

theorem Pulling.of_running {filter : ZipFilter library.State} {source : S} (fed given : Bytes)
    {out : Bytes} (hwf : filter.WellFormed bufferSize)
    (hcode : library.code (fed ++ filter.pending ++ rest source) = some (given ++ out))
    (hrunning : library.Running filter.zstream fed given) :
    Pulling library rest left bufferSize (filter.pending.length + left source + out.length + 1)
      (filter, source) out :=
  ⟨hwf, .inl ⟨fed, given, given ++ out, hcode, rfl, hrunning, rfl⟩⟩

/-- The loop ends when the fault is not handled. -/
theorem pullLoop_unhandled {size : Nat} {filter : ZipFilter library.State} {source source' : S}
    {pulled : Bytes} (hroom : pulled.length < size) (hempty : filter.availIn = 0)
    (hunhandled : ∀ fuel, handle fuel filter.inputBuffer.length filter source =
      .done (.error .unhandledFault, filter, source')) :
    Outcome.Settles (fun fuel => pullLoop library handle false size fuel (filter, source) .ok pulled)
      (pullEmpty pulled, pulled, filter, source') :=
  Outcome.Settles.succ
    (fun fuel => by rw [pullLoop_fault hroom hempty, hunhandled, Outcome.done_bind])
    (.of_eq fun _ => rfl)

theorem pullLoop_handled {size : Nat} {filter filter' : ZipFilter library.State} {source source' : S}
    {pulled : Bytes} (hroom : pulled.length < size) (hempty : filter.availIn = 0)
    (hhandled : ∀ fuel, handle fuel filter.inputBuffer.length filter source =
      .done (.ok (), filter', source')) (fuel : Nat) :
    pullLoop library handle false size (fuel + 1) (filter, source) .ok pulled =
      pullLoop library handle false size fuel (filter', source') .ok pulled := by
  rw [pullLoop_fault hroom hempty, hhandled, Outcome.done_bind]

/-- Without input in the filter and its source, the loop ends, though it may still be handed portions of
which the filter is told nothing. -/
theorem pullLoop_exhausted (hfed : FedBy handle bufferSize rest left) {size : Nat} {pulled : Bytes}
    (hroom : pulled.length < size) (count : Nat) {filter : ZipFilter library.State} {source : S}
    (hcount : left source = count) (hwf : filter.WellFormed bufferSize) (hempty : filter.availIn = 0)
    (hrest : rest source = []) :
    ∃ filter' source', filter'.WellFormed bufferSize ∧ filter'.availIn = 0 ∧
      filter'.zstream = filter.zstream ∧
      Outcome.Settles
        (fun fuel => pullLoop library handle false size fuel (filter, source) .ok pulled)
        (pullEmpty pulled, pulled, filter', source') := by
  induction count using Nat.strongRecOn generalizing filter source with
  | ind count ih =>
    subst hcount
    rcases hfed.fault hwf hempty with
      ⟨-, source', -, -, hunhandled⟩ | ⟨filter', source', hwf', hzstream, hsplit, -, hless, hhandled⟩
    · exact ⟨filter, source', hwf, hempty, rfl, pullLoop_unhandled hroom hempty hunhandled⟩
    · rw [hrest] at hsplit
      obtain ⟨hpending, hrest'⟩ := List.append_eq_nil_iff.mp hsplit.symm
      have hempty' : filter'.availIn = 0 := by
        rw [← hwf'.length_pending, hpending, List.length_nil]
      obtain ⟨filter'', source'', hwf'', hempty'', hzstream', hsettles⟩ :=
        ih _ hless rfl hwf' hempty' hrest'
      exact ⟨filter'', source'', hwf'', hempty'', hzstream'.trans hzstream,
        hsettles.succ (pullLoop_handled hroom hempty hhandled)⟩

/-- The library goes on, or it comes to the end of a stream that it unzips. -/
theorem process_cases (htotal : c.isZip = true → ∀ input, (library.code input).isSome = true)
    {filter : ZipFilter library.State} (hwf : filter.WellFormed bufferSize)
    (havail : filter.availIn ≠ 0) {fed given input out : Bytes} {room : Nat} (hroom : 0 < room)
    (hcode : library.code (fed ++ filter.pending ++ input) = some (given ++ out))
    (hrunning : library.Running filter.zstream fed given) {step : CodecStep library.State}
    (hstep : library.process filter.zstream false filter.pending room = step) :
    (step.ret = c.progress false ∧ (0 < step.consumed ∨ step.output ≠ []) ∧
      (∃ out', out = step.output ++ out') ∧
      library.Running step.state (fed ++ filter.pending.take step.consumed)
        (given ++ step.output)) ∨
    (c.isZip = false ∧ step.ret = .streamEnd ∧ step.consumed = filter.pending.length ∧ input = [] ∧
      step.output = out ∧ library.Ended step.state) := by
  have hpending : filter.pending ≠ [] := by
    intro hnil
    have hlength := hwf.length_pending
    rw [hnil] at hlength
    exact havail hlength.symm
  have hstarts : fed ++ filter.pending <+: fed ++ filter.pending ++ input :=
    List.prefix_append _ _
  have hout : given ++ step.output <+: given ++ out → ∃ out', out = step.output ++ out' := by
    intro h
    obtain ⟨out', hout'⟩ := (List.prefix_append_right_inj given).mp h
    exact ⟨out', hout'.symm⟩
  cases hzip : c.isZip with
  | true =>
    obtain ⟨hret, hmore, hgiven, hrunning'⟩ := library.run_of_total (htotal hzip)
      (c.progress_ne_streamEnd false) hstep hrunning hpending hroom hstarts hcode
    exact .inl ⟨hret, hmore, hout hgiven, hrunning'⟩
  | false =>
    rcases library.run hstep hrunning hpending hroom hstarts hcode with
      ⟨hret, hmore, hgiven, hrunning'⟩ | ⟨hret, hwhole, hgiven, hended⟩
    · exact .inl ⟨hret, hmore, hout hgiven, hrunning'⟩
    · have hlengths := congrArg List.length hwhole
      simp only [List.length_append, List.length_take] at hlengths
      have hconsumed := library.consumed_le hstep
      refine .inr ⟨rfl, hret, by omega, ?_, List.append_cancel_left hgiven, hended⟩
      exact List.eq_nil_of_length_eq_zero (by omega)

/-- From a running library the loop pulls until it has enough, the stream ends or the source is
exhausted. -/
theorem pullLoop_running (hfed : FedBy handle bufferSize rest left)
    (htotal : c.isZip = true → ∀ input, (library.code input).isSome = true) {size : Nat}
    (hsize : 0 < size) (hcount : size < 2 ^ 32) (measure : Nat) {filter : ZipFilter library.State}
    {source : S} (hwf : filter.WellFormed bufferSize) {fed given out : Bytes}
    (hcode : library.code (fed ++ filter.pending ++ rest source) = some (given ++ out))
    (hrunning : library.Running filter.zstream fed given) {pulled : Bytes}
    (hpulled : pulled.length ≤ size)
    (hmeasure : measure = 2 * (filter.pending.length + left source + out.length) +
      (if filter.availIn = 0 then 1 else 0)) :
    PullProtocol.LoopResult .empty (Pulling library rest left bufferSize)
      (fun pulled s out => pulled.length < size ∧ ∃ n, Draining library bufferSize n s out) size
      (filter.pending.length + left source + out.length + 1) pulled out
      (fun fuel => pullLoop library handle false size fuel (filter, source) .ok pulled) := by
  induction measure using Nat.strongRecOn generalizing filter source fed given out pulled with
  | ind measure ih =>
    by_cases hroom : pulled.length < size
    case neg =>
      refine PullProtocol.LoopResult.ok ?_ hpulled ?_
        (Pulling.of_running fed given hwf hcode hrunning)
      · exact Outcome.Settles.succ (fun fuel => by rw [pullLoop, if_neg hroom])
          (.of_eq fun _ => rfl)
      · exact Nat.lt_add_of_pos_right (by omega)
    by_cases hempty : filter.availIn = 0
    case pos =>
      have hpending : filter.pending = [] := pending_eq_nil hempty
      rcases hfed.fault hwf hempty with
        ⟨hrest, source', hrest', hleft, hunhandled⟩ |
        ⟨filter', source', hwf', hzstream, hsplit, hleft, hless, hhandled⟩
      · have hsettles : Outcome.Settles
            (fun fuel => pullLoop library handle false size fuel (filter, source) .ok pulled)
            (pullEmpty pulled, pulled, filter, source') := pullLoop_unhandled hroom hempty hunhandled
        by_cases hnil : pulled = []
        · rw [hpending, hrest, List.append_nil, List.append_nil] at hcode
          rw [pullEmpty, if_pos hnil] at hsettles
          refine PullProtocol.LoopResult.exhausted hsettles
            ⟨hroom, out.length + 1, hwf, hempty, .inl ?_⟩
          exact ⟨fed, given, given ++ out, hcode, rfl, .inl hrunning, rfl⟩
        · have hlength : 0 < pulled.length := List.length_pos_of_ne_nil hnil
          rw [hrest, ← hrest'] at hcode
          rw [pullEmpty, if_neg hnil] at hsettles
          refine PullProtocol.LoopResult.ok hsettles hpulled ?_
            (Pulling.of_running fed given hwf hcode hrunning)
          omega
      · have havail' : filter'.availIn = filter'.pending.length := hwf'.length_pending.symm
        rw [hpending, List.append_nil, hsplit, ← List.append_assoc] at hcode
        rw [← hzstream] at hrunning
        rw [if_pos hempty, hpending, List.length_nil] at hmeasure
        have hsmaller : 2 * (filter'.pending.length + left source' + out.length) +
            (if filter'.availIn = 0 then 1 else 0) < measure := by
          split <;> omega
        have hloop := ih _ hsmaller hwf' hcode hrunning hpulled rfl
        refine PullProtocol.LoopResult.round_nil (pullLoop_handled hroom hempty hhandled) hloop ?_
        rw [hpending, List.length_nil]
        omega
    case neg =>
      have hpositive : 0 < size - pulled.length := by omega
      generalize hstep : library.process filter.zstream false filter.pending (size - pulled.length) =
        step
      have hconsumed := library.consumed_le hstep
      have houtput := library.output_le hstep
      obtain ⟨hwf', hpending'⟩ := pending_take hwf step hconsumed
      rcases process_cases htotal hwf hempty hpositive hcode hrunning hstep with
        ⟨hret, hmore, ⟨out', rfl⟩, hrunning'⟩ | ⟨hunzip, hret, hall, hrest, rfl, hended⟩
      · have hcode' : library.code (fed ++ filter.pending.take step.consumed ++
            (filter.take step).pending ++ rest source) = some (given ++ step.output ++ out') := by
          rw [hpending', List.append_assoc fed, List.take_append_drop, List.append_assoc given]
          exact hcode
        have hlength' : (filter.take step).pending.length =
            filter.pending.length - step.consumed := by
          rw [hpending', List.length_drop]
        have hprogress : 0 < step.consumed ∨ 0 < step.output.length :=
          hmore.imp_right List.length_pos_of_ne_nil
        rw [if_neg hempty, List.length_append] at hmeasure
        have hsmaller : 2 * ((filter.take step).pending.length + left source + out'.length) +
            (if (filter.take step).availIn = 0 then 1 else 0) < measure := by
          split <;> omega
        have hpulled' : (pulled ++ step.output).length ≤ size := by
          rw [List.length_append]
          omega
        have hloop := ih _ hsmaller hwf' hcode' hrunning' hpulled' rfl
        refine PullProtocol.LoopResult.round
          (fun fuel => pullLoop_process hcount hroom hempty fuel hstep hret) hloop ?_
        rw [List.length_append]
        omega
      · have hpulled' : (pulled ++ step.output).length ≤ size := by
          rw [List.length_append]
          omega
        have hempty' : (filter.take step).availIn = 0 := by
          rw [← hwf'.length_pending, hpending', List.length_drop]
          omega
        refine ⟨.ok (), step.output, (filter.take step, source), [], ?_, (List.append_nil _).symm,
          .inl ⟨rfl, hpulled', 0, by omega, hwf', .inr ⟨hended, hempty', hrest, rfl, rfl⟩⟩⟩
        exact Outcome.Settles.succ
          (fun fuel => pullLoop_streamEnd hunzip hcount hroom hempty fuel hstep hret)
          (.of_eq fun _ => rfl)

/-- A pull that flushes calls the library once. -/
theorem pullLoop_flush {size : Nat} (hsize : 0 < size) (hcount : size < 2 ^ 32) {filter : ZipFilter library.State}
    {source : S} (hempty : filter.availIn = 0) (fuel : Nat) {step : CodecStep library.State}
    (hstep : library.process filter.zstream true [] size = step) :
    pullLoop library handle true size (fuel + 1) (filter, source) .ok [] =
      if c.inputCorrupted (c.processReturn true step.ret) then
        .done (.error .error, [], filter.take step, source)
      else if c.streamEnded (c.processReturn true step.ret) ∧ step.output = [] then
        .done (.error .empty, [], { filter.take step with zstream := library.init }, source)
      else .done (.ok (), step.output, filter.take step, source) := by
  rw [pullLoop]
  simp only [List.length_nil, hsize, if_true, reduceCtorEq, and_false, if_false, Nat.sub_zero,
    pending_eq_nil hempty, availOut_of_lt hcount, deliver_of_lt hcount, hstep, List.nil_append]
  split
  · rfl
  · split
    · next hend => rw [hend.2]
    · rfl

theorem take_of_empty {filter : ZipFilter σ} {size : Nat} (h : filter.WellFormed size)
    (hempty : filter.availIn = 0) (step : CodecStep σ) (hle : step.consumed ≤ ([] : Bytes).length) :
    (filter.take step).WellFormed size ∧ (filter.take step).availIn = 0 := by
  have hle' : step.consumed ≤ filter.pending.length := by
    rw [pending_eq_nil hempty]
    exact hle
  refine ⟨(pending_take h step hle').1, ?_⟩
  simp only [take, hempty, Nat.zero_sub]

/-- A filter that works delivers its output, to pulls of sizes that the library can be told of. -/
theorem delivers (hfed : FedBy handle bufferSize rest left)
    (htotal : c.isZip = true → ∀ input, (library.code input).isSome = true) :
    PullProtocol.Delivers (pull library handle) .empty (fun _ size => size < 2 ^ 32) (· < 2 ^ 32)
      (Pulling library rest left bufferSize) (Draining library bufferSize)
      (fun s => Idle library bufferSize s.1) where
  pulling := by
    rintro n ⟨filter, source⟩ out size ⟨hwf, hcases⟩ hsize hcount
    have hnone : ([] : Bytes).length < size := hsize
    rcases hcases with
      ⟨fed, given, coded, hcode, rfl, hrunning, rfl⟩ | ⟨hended, hempty, hrest, rfl, rfl⟩
    · obtain ⟨err, more, s', out', hsettles, hout, hresult⟩ :=
        pullLoop_running hfed htotal hsize hcount _ hwf hcode hrunning (Nat.le_of_lt hnone) rfl
      rw [List.nil_append] at hsettles hresult
      refine ⟨err, more, s', out', hsettles, hout, ?_⟩
      exact hresult
    · obtain ⟨filter', source', hwf', hempty', hzstream, hsettles⟩ :=
        pullLoop_exhausted hfed hnone _ rfl hwf hempty hrest
      refine ⟨_, [], (filter', source'), [], hsettles, rfl, .inr ⟨rfl, hsize, 0, hwf', hempty', ?_⟩⟩
      exact .inr ⟨hzstream ▸ hended, rfl, rfl⟩
  draining := by
    rintro n ⟨filter, source⟩ out size ⟨hwf, hempty, hcases⟩ hsize hcount
    generalize hstep : library.process filter.zstream true [] size = step
    obtain ⟨hwf', hempty'⟩ := take_of_empty hwf hempty step (library.consumed_le hstep)
    have hlength := library.output_le hstep
    have hreset : Idle library bufferSize { filter.take step with zstream := library.init } :=
      ⟨⟨hwf'.length_eq, hwf'.pos, hwf'.fits⟩, hempty', rfl⟩
    rcases hcases with ⟨whole, given, coded, hcode, rfl, hs, rfl⟩ | ⟨hended, rfl, rfl⟩
    · rcases library.finish hstep hs hsize hcode with
        ⟨hret, hmore, hgiven, hfinishing⟩ | ⟨hret, hgiven, hended⟩
      · obtain ⟨out', rfl⟩ := (List.prefix_append_right_inj given).mp hgiven
        refine ⟨.ok (), step.output, (filter.take step, source), out', ?_, rfl,
          .inl ⟨rfl, hlength, out'.length + 1, ?_, hwf', hempty', .inl ?_⟩⟩
        · exact (Outcome.Settles.of_eq fun _ => rfl).succ fun fuel =>
            (pullLoop_flush hsize hcount hempty fuel hstep).trans (by simp [hret])
        · have hpos := List.length_pos_of_ne_nil hmore
          rw [List.length_append]
          omega
        · exact ⟨whole, given ++ step.output, _, hcode, (List.append_assoc _ _ _).symm,
            .inr hfinishing, rfl⟩
      · cases List.append_cancel_left hgiven
        by_cases hnil : step.output = []
        · refine ⟨.error .empty, [], ({ filter.take step with zstream := library.init }, source), [], ?_,
            hnil, .inr ⟨rfl, rfl, rfl, hreset⟩⟩
          exact (Outcome.Settles.of_eq fun _ => rfl).succ fun fuel =>
            (pullLoop_flush hsize hcount hempty fuel hstep).trans (by simp [hret, hnil])
        · refine ⟨.ok (), step.output, (filter.take step, source), [], ?_, (List.append_nil _).symm,
            .inl ⟨rfl, hlength, 0, Nat.succ_pos _, hwf', hempty', .inr ⟨hended, rfl, rfl⟩⟩⟩
          exact (Outcome.Settles.of_eq fun _ => rfl).succ fun fuel =>
            (pullLoop_flush hsize hcount hempty fuel hstep).trans (by simp [hret, hnil])
    · obtain ⟨hret, hnil⟩ := library.finished hstep hended hsize
      refine ⟨.error .empty, [], ({ filter.take step with zstream := library.init }, source), [], ?_,
        rfl, .inr ⟨rfl, rfl, rfl, hreset⟩⟩
      exact (Outcome.Settles.of_eq fun _ => rfl).succ fun fuel =>
        (pullLoop_flush hsize hcount hempty fuel hstep).trans (by simp [hret, hnil])

theorem idle_new {inputBuffer : Bytes} (h : inputBuffer ≠ []) :
    Idle library inputBuffer.length (new library inputBuffer) :=
  ⟨⟨rfl, List.length_pos_of_ne_nil h, Nat.zero_le _⟩, rfl, rfl⟩

variable (rest left) in
/-- A filter that is as new starts on a whole input. -/
theorem Idle.pulling {filter : ZipFilter library.State} (h : Idle library bufferSize filter)
    {source : S} {coded : Bytes} (hcode : library.code (rest source) = some coded) :
    ∃ n, Pulling library rest left bufferSize n (filter, source) coded := by
  have hrunning : library.Running filter.zstream [] [] := by
    rw [h.zstream_eq]
    exact library.running_init
  refine ⟨_, Pulling.of_running [] [] h.wellFormed ?_ hrunning⟩
  rw [pending_eq_nil h.availIn_eq]
  exact hcode

/-- `chop_filter_through` computes the function of the library of what it is told of the input, and
leaves the filter as new. -/
theorem through_received (htotal : c.isZip = true → ∀ input, (library.code input).isSome = true)
    {filter : ZipFilter library.State} (h : Idle library bufferSize filter) {input coded : Bytes}
    (hcode : library.code (received (fun _ => bufferSize) input) = some coded) :
    ∃ filter', Idle library bufferSize filter' ∧
      Outcome.Settles (fun fuel => chopFilterThrough (methods library) fuel filter input)
        (.ok (), coded, filter') := by
  obtain ⟨n, hpulling⟩ := h.pulling _ List.length hcode
  have hdelivers : PullProtocol.Delivers
      ((methods library).pull Bytes (handleInputFaultFromBuffer (methods library).push)) .empty
      (fun _ size => size < 2 ^ 32) (· < 2 ^ 32)
      (Pulling library (received fun _ => bufferSize) List.length bufferSize)
      (Draining library bufferSize) (fun s => Idle library bufferSize s.1) :=
    delivers (handleInputFaultFromBuffer_fedBy h.wellFormed.pos) htotal
  exact chopFilterThrough_delivers hdelivers (fun _ _ _ _ => by decide) (by decide) hpulling

/-- If the input buffer or the input is short, it is told of all of it. -/
theorem through_eq (htotal : c.isZip = true → ∀ input, (library.code input).isSome = true)
    {filter : ZipFilter library.State} (h : Idle library bufferSize filter) {input coded : Bytes}
    (hshort : bufferSize < 2 ^ 32 ∨ input.length < 2 ^ 32) (hcode : library.code input = some coded) :
    ∃ filter', Idle library bufferSize filter' ∧
      Outcome.Settles (fun fuel => chopFilterThrough (methods library) fuel filter input)
        (.ok (), coded, filter') := by
  rw [← received_eq_of_short h.wellFormed.pos hshort] at hcode
  exact through_received htotal h hcode

end Contract

end ZipFilter

end Libchop
