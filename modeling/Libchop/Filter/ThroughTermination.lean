import Libchop.Filter.ZipContract
import Libchop.Filter.EscapeCodec
import Mathlib.Order.Monotone.Basic

/-!
# When the loop of `chop_filter_through` ends

A pull that returns nothing without an error is repeated.  The zip filters do not pull nothing for ever,
but the unzip filters do: at the end of an input that is too short, and for zlib also when there is input
after the end of the stream.
-/

namespace Libchop

section Loop

variable {F S : Type}

/-- What a pull comes to: the loop has less to do than before, or has to flush, or ends.  If the loop is
not to end, it may go on for ever. -/
inductive Advance (ends : Prop) (Stage : Bool → Nat → F × S → Prop) (flush : Bool) (n : Nat) :
    FilterStatus × Bytes × F × S → Prop
  | onward {block : Bytes} {s : F × S} {n' : Nat} (stage : Stage flush n' s) (less : n' < n ∨ ¬ ends) :
      Advance ends Stage flush n (.ok (), block, s)
  | exhausted {block : Bytes} {s : F × S} {n' : Nat} (pulling : flush = false) (stage : Stage true n' s)
      (le : n' ≤ n) : Advance ends Stage flush n (.error .empty, block, s)
  | flushed {block : Bytes} {s : F × S} (flushing : flush = true) (ending : ends) :
      Advance ends Stage flush n (.error .empty, block, s)
  | failed {block : Bytes} {s : F × S} (ending : ends) :
      Advance ends Stage flush n (.error .error, block, s)

variable {ends : Prop} {Stage : Bool → Nat → F × S → Prop}
  {pull : PullProtocol.Pull (F × S) UInt8 FilterError}
  {budget : Nat → Nat} (hpull : ∀ {flush n s}, Stage flush n s → ∀ fuel,
    Outcome.Ensures (budget n ≤ fuel) (pull fuel flush throughBlockSize s) (Advance ends Stage flush n))

include hpull

theorem throughLoop_not_returns (hends : ¬ ends) (fuel : Nat) {flush : Bool} {n : Nat} {s : F × S}
    (h : Stage flush n s) (output : Bytes) : ¬ (throughLoop pull fuel flush s output).Returns := by
  induction fuel generalizing flush n s output with
  | zero => simp [throughLoop, Outcome.Returns]
  | succ fuel ih =>
    rintro ⟨result, hresult⟩
    rw [throughLoop, Outcome.bind_eq_done] at hresult
    obtain ⟨⟨err, block, s'⟩, hrun, hresult⟩ := hresult
    cases (hpull h fuel).post _ hrun with
    | onward hstage _ => exact ih hstage _ ⟨result, hresult⟩
    | exhausted hpulling hstage _ =>
      subst hpulling
      exact ih hstage _ ⟨result, hresult⟩
    | flushed _ hover => exact hends hover
    | failed hover => exact hends hover

theorem throughLoop_returns (hbudget : Monotone budget) (hends : ends) {fuel : Nat} {flush : Bool}
    {n : Nat} {s : F × S} (h : Stage flush n s)
    (hfuel : budget n + n + (if flush then 0 else 1) < fuel) (output : Bytes) :
    (throughLoop pull fuel flush s output).Returns := by
  induction fuel generalizing flush n s output with
  | zero => omega
  | succ fuel ih =>
    obtain ⟨⟨err, block, s'⟩, hrun⟩ := (hpull h fuel).returns (by omega)
    rw [throughLoop, hrun, Outcome.done_bind]
    cases (hpull h fuel).post _ hrun with
    | @onward _ _ n' hstage hless =>
      have hlt : n' < n := hless.resolve_right (not_not_intro hends)
      have hmono := hbudget (Nat.le_of_lt hlt)
      exact ih hstage (by omega) _
    | @exhausted _ _ n' hpulling hstage hle =>
      subst hpulling
      have hmono := hbudget hle
      simp only [Bool.false_eq_true, if_false] at hfuel
      exact ih hstage (by simp only [if_true]; omega) _
    | flushed hflushing _ =>
      subst hflushing
      exact ⟨_, rfl⟩
    | failed _ => exact ⟨_, rfl⟩

/-- The loop ends exactly if it is to end. -/
theorem throughLoop_returns_iff (hbudget : Monotone budget) {flush : Bool} {n : Nat} {s : F × S}
    (h : Stage flush n s) (output : Bytes) :
    (∃ fuel, (throughLoop pull fuel flush s output).Returns) ↔ ends := by
  constructor
  · rintro ⟨fuel, hreturns⟩
    by_contra hends
    exact throughLoop_not_returns hpull hends fuel h output hreturns
  · intro hends
    exact ⟨_, throughLoop_returns hpull hbudget hends h (Nat.lt_succ_self _) output⟩

end Loop

namespace ZipFilterClass

/-- The verdicts on an input of a given length after which the filter comes to an end. -/
def EndsOn (c : ZipFilterClass) (length : Nat) (verdict : Verdict) : Prop :=
  match c with
  | .zlibZip | .bzip2Zip => True
  | .zlibUnzip => verdict = .corrupted ∨ verdict = .ended length
  | .bzip2Unzip => verdict ≠ .incomplete

variable {c : ZipFilterClass} {length : Nat}

theorem endsOn_corrupted : c.EndsOn length .corrupted := by
  cases c <;> simp [EndsOn]

theorem endsOn_ended : c.EndsOn length (.ended length) := by
  cases c <;> simp [EndsOn]

theorem not_endsOn_incomplete (hunzip : c.isZip = false) : ¬ c.EndsOn length .incomplete := by
  rcases eq_of_not_isZip hunzip with rfl | rfl <;> simp [EndsOn]

theorem processReturn_unzip (hunzip : c.isZip = false) (flush : Bool) (ret : CodecReturn) :
    c.processReturn flush ret = ret := by
  rcases eq_of_not_isZip hunzip with rfl | rfl <;> rfl

theorem progress_unzip (hunzip : c.isZip = false) (flush : Bool) : c.progress flush = .ok := by
  rcases eq_of_not_isZip hunzip with rfl | rfl <;> rfl

@[simp] theorem inputCorrupted_bufError : c.inputCorrupted .bufError = false := by cases c <;> rfl

@[simp] theorem streamEnded_bufError : c.streamEnded .bufError = false := by cases c <;> rfl

end ZipFilterClass

namespace ZipFilter

section Stages

variable {c : ZipFilterClass} (library : c.Library) (verdict : Bytes → Verdict) (limit : Bytes → Nat)
  (bufferSize : Nat) (whole : Bytes)

/-- Where a filter is in what it is told of an input, with a bound on the pulls that are left if it comes
to an end. -/
inductive Stage : Bool → Nat → ZipFilter library.State × Bytes → Prop
  | reading {filter : ZipFilter library.State} {source fed given : Bytes}
      (wf : filter.WellFormed bufferSize)
      (whole_eq : fed ++ filter.pending ++ received (fun _ => bufferSize) source = whole)
      (running : library.Running filter.zstream fed given) :
      Stage false (filter.pending.length + source.length + (limit whole - given.length) + 1)
        (filter, source)
  | past {filter : ZipFilter library.State} {source taken : Bytes}
      (wf : filter.WellFormed bufferSize)
      (whole_eq : taken ++ filter.pending ++ received (fun _ => bufferSize) source = whole)
      (ended : library.Ended filter.zstream) (verdict_eq : verdict whole = .ended taken.length) :
      Stage false source.length (filter, source)
  | finishing {filter : ZipFilter library.State} {source given : Bytes}
      (wf : filter.WellFormed bufferSize) (empty : filter.availIn = 0)
      (finishing : library.Running filter.zstream whole given ∨
        library.Finishing filter.zstream whole given) :
      Stage true (limit whole - given.length + 1) (filter, source)
  | finished {filter : ZipFilter library.State} {source : Bytes}
      (wf : filter.WellFormed bufferSize) (empty : filter.availIn = 0)
      (ended : library.Ended filter.zstream) (verdict_eq : verdict whole = .ended whole.length) :
      Stage true 0 (filter, source)

variable {library verdict limit bufferSize whole}

/-- The library reports an error. -/
theorem pullLoop_corrupted (hunzip : c.isZip = false)
    {handle : FaultHandler (ZipFilter library.State) Bytes}
    {size : Nat} (hcount : size < 2 ^ 32) {filter : ZipFilter library.State} {source pulled : Bytes}
    (hroom : pulled.length < size) (havail : filter.availIn ≠ 0) (fuel : Nat) {step : CodecStep library.State}
    (hstep : library.process filter.zstream false filter.pending (size - pulled.length) = step)
    (hret : c.inputCorrupted step.ret = true) :
    pullLoop library handle false size (fuel + 1) (filter, source) .ok pulled =
      .done (.error .error, pulled, filter.take step, source) := by
  rw [pullLoop]
  simp [hroom, havail, c.needMoreInput_ok havail, availOut_of_lt hcount, hstep,
    c.processReturn_unzip hunzip, hret]

variable (hunzip : c.isZip = false) (hjudges : library.Judges c.inputCorrupted verdict limit)

include hunzip hjudges

/-- The loop of a pull, while the library has not come to the end of its stream.  What was pulled already
counts as progress. -/
theorem pullLoop_reading (fuel : Nat) {size bound : Nat} (hsize : 0 < size) (hcount : size < 2 ^ 32)
    {filter : ZipFilter library.State} {source fed given pulled : Bytes}
    (hwf : filter.WellFormed bufferSize)
    (hwhole : fed ++ filter.pending ++ received (fun _ => bufferSize) source = whole)
    (hrunning : library.Running filter.zstream fed given)
    (hbound : filter.pending.length + source.length + (limit whole - given.length) + pulled.length ≤
      bound) :
    Outcome.Ensures (2 * (filter.pending.length + source.length + (limit whole - given.length)) +
        (if filter.availIn = 0 then 1 else 0) < fuel)
      (pullLoop library (handleInputFaultFromBuffer push) false size fuel (filter, source) .ok pulled)
      (Advance (c.EndsOn whole.length (verdict whole)) (Stage library verdict limit bufferSize whole)
        false (bound + 1)) := by
  induction fuel generalizing filter source fed given pulled with
  | zero => exact .of_not_total (by omega) (by simp [pullLoop, Outcome.Returns])
  | succ fuel ih =>
    by_cases hroom : pulled.length < size
    case neg =>
      rw [pullLoop, if_neg hroom]
      refine .done (.onward (.reading hwf hwhole hrunning) (.inl ?_))
      omega
    by_cases hempty : filter.availIn = 0
    case pos =>
      have hpending : filter.pending = [] := pending_eq_nil hempty
      rw [pullLoop_fault hroom hempty]
      rcases (handleInputFaultFromBuffer_fedBy hwf.pos).fault hwf hempty with
        ⟨hrest, source', hrest', hleft, hunhandled⟩ |
        ⟨filter', source', hwf', hzstream, hsplit, hleft, hless, hhandled⟩
      · rw [hunhandled, Outcome.done_bind]
        dsimp only
        rw [hrest, ← hrest'] at hwhole
        by_cases hnil : pulled = []
        · rw [hpending, hrest', List.append_nil, List.append_nil] at hwhole
          subst hwhole
          rw [pullEmpty, if_pos hnil]
          refine .done (.exhausted rfl (.finishing hwf hempty (.inl hrunning)) ?_)
          omega
        · have hpositive := List.length_pos_of_ne_nil hnil
          rw [pullEmpty, if_neg hnil]
          refine .done (.onward (.reading hwf hwhole hrunning) (.inl ?_))
          omega
      · have havail' : filter'.availIn = filter'.pending.length := hwf'.length_pending.symm
        rw [hpending, List.append_nil, hsplit, ← List.append_assoc] at hwhole
        rw [hpending, List.length_nil] at hbound
        rw [hhandled, Outcome.done_bind]
        refine (ih hwf' hwhole (hzstream ▸ hrunning) ?_).imp_total ?_
        · omega
        · rw [if_pos hempty, hpending, List.length_nil]
          split <;> omega
    case neg =>
      have hpositive : 0 < size - pulled.length := by omega
      have hnonempty : filter.pending ≠ [] := by
        apply List.ne_nil_of_length_pos
        rw [hwf.length_pending]
        omega
      generalize hstep : library.process filter.zstream false filter.pending (size - pulled.length) =
        step
      have hconsumed := library.consumed_le hstep
      obtain ⟨hwf', hpending'⟩ := pending_take hwf step hconsumed
      have hlength' : (filter.take step).pending.length = filter.pending.length - step.consumed := by
        rw [hpending', List.length_drop]
      have hwhole' : fed ++ filter.pending.take step.consumed ++ (filter.take step).pending ++
          received (fun _ => bufferSize) source = whole := by
        rw [hpending', List.append_assoc fed, List.take_append_drop, hwhole]
      rcases hjudges.run hstep hrunning hnonempty hpositive with
        ⟨hret, hmore, hrunning'⟩ | ⟨hret, hended, hverdict⟩ | ⟨hret, hverdict⟩
      · have hfed : fed ++ filter.pending.take step.consumed <+: whole := by
          rw [← hwhole', List.append_assoc (fed ++ _)]
          exact List.prefix_append _ _
        have hlimit := hjudges.limited (.inl hrunning') hfed
        rw [List.length_append] at hlimit
        have hprogress : 0 < step.consumed ∨ 0 < step.output.length :=
          hmore.imp_right List.length_pos_of_ne_nil
        rw [pullLoop_process hcount hroom hempty fuel hstep hret]
        refine (ih hwf' hwhole' hrunning' ?_).imp_total ?_
        · rw [List.length_append, List.length_append]
          omega
        · rw [if_neg hempty, List.length_append]
          split <;> omega
      · have hover := hverdict ((filter.take step).pending ++ received (fun _ => bufferSize) source)
        rw [← List.append_assoc, hwhole'] at hover
        rw [pullLoop_streamEnd hunzip hcount hroom hempty fuel hstep hret]
        refine .done (.onward (.past hwf' hwhole' hended hover) (.inl ?_))
        omega
      · have hcorrupted := hverdict (received (fun _ => bufferSize) source)
        rw [hwhole] at hcorrupted
        rw [pullLoop_corrupted hunzip hcount hroom hempty fuel hstep hret]
        exact .done (.failed (hcorrupted ▸ ZipFilterClass.endsOn_corrupted))

/-- A pull with input after the end of the stream.  Only bzip2 reports it. -/
theorem pullLoop_trailing {fuel size bound : Nat} (hsize : 0 < size) (hcount : size < 2 ^ 32)
    {filter : ZipFilter library.State} {source taken : Bytes} (hwf : filter.WellFormed bufferSize)
    (havail : filter.availIn ≠ 0)
    (hwhole : taken ++ filter.pending ++ received (fun _ => bufferSize) source = whole)
    (hended : library.Ended filter.zstream) (hverdict : verdict whole = .ended taken.length) :
    Outcome.Ensures (1 ≤ fuel)
      (pullLoop library (handleInputFaultFromBuffer push) false size fuel (filter, source) .ok [])
      (Advance (c.EndsOn whole.length (verdict whole)) (Stage library verdict limit bufferSize whole)
        false bound) := by
  cases fuel with
  | zero => exact .of_not_total (by omega) (by simp [pullLoop, Outcome.Returns])
  | succ fuel =>
    have hroom : ([] : Bytes).length < size := hsize
    generalize hstep : library.process filter.zstream false filter.pending size = step
    obtain ⟨hret, hconsumed, houtput, hended'⟩ := hjudges.past hstep hended hsize
    obtain ⟨hwf', hpending'⟩ := pending_take hwf step (by omega)
    rw [hconsumed, List.drop_zero] at hpending'
    have htrailing : taken.length < whole.length := by
      have hlength := hwf.length_pending
      rw [← hwhole, List.length_append, List.length_append]
      omega
    rcases ZipFilterClass.eq_of_not_isZip hunzip with rfl | rfl
    · rw [pullLoop_streamEnd hunzip hcount hroom havail fuel hstep hret]
      refine .done (.onward (.past hwf' (hpending' ▸ hwhole) hended' hverdict) (.inr ?_))
      simp only [ZipFilterClass.EndsOn, hverdict, reduceCtorEq, Verdict.ended.injEq, false_or]
      omega
    · have hfailed : pullLoop library (handleInputFaultFromBuffer push) false size (fuel + 1)
          (filter, source) .ok [] = .done (.error .error, step.output, filter.take step, source) := by
        rw [pullLoop]
        simp [hsize, havail, ZipFilterClass.needMoreInput, ZipFilterClass.processReturn,
          ZipFilterClass.inputCorrupted, ZipFilterClass.cantProduceMore, availOut_of_lt hcount,
          deliver_of_lt hcount, hstep, hret, ZipFilterClass.ended]
      rw [hfailed]
      exact .done (.failed (by simp [ZipFilterClass.EndsOn, hverdict]))

/-- A pull after the end of the stream. -/
theorem pullLoop_past (fuel : Nat) {size bound : Nat} (hsize : 0 < size) (hcount : size < 2 ^ 32)
    {filter : ZipFilter library.State} {source taken : Bytes} (hwf : filter.WellFormed bufferSize)
    (hwhole : taken ++ filter.pending ++ received (fun _ => bufferSize) source = whole)
    (hended : library.Ended filter.zstream) (hverdict : verdict whole = .ended taken.length) :
    Outcome.Ensures (source.length + 2 ≤ fuel)
      (pullLoop library (handleInputFaultFromBuffer push) false size fuel (filter, source) .ok [])
      (Advance (c.EndsOn whole.length (verdict whole)) (Stage library verdict limit bufferSize whole)
        false bound) := by
  induction fuel generalizing filter source with
  | zero => exact .of_not_total (by omega) (by simp [pullLoop, Outcome.Returns])
  | succ fuel ih =>
    by_cases hempty : filter.availIn = 0
    case neg =>
      refine (pullLoop_trailing hunzip hjudges hsize hcount hwf hempty hwhole hended
        hverdict).imp_total ?_
      omega
    have hroom : ([] : Bytes).length < size := hsize
    rw [pending_eq_nil hempty, List.append_nil] at hwhole
    rw [pullLoop_fault hroom hempty]
    rcases (handleInputFaultFromBuffer_fedBy hwf.pos).fault hwf hempty with
      ⟨hrest, source', hrest', hleft, hunhandled⟩ |
      ⟨filter', source', hwf', hzstream, hsplit, hleft, hless, hhandled⟩
    · rw [hunhandled, Outcome.done_bind]
      rw [hrest, List.append_nil] at hwhole
      exact .done (.exhausted rfl (.finished hwf hempty hended (hwhole ▸ hverdict)) (Nat.zero_le _))
    · rw [hsplit, ← List.append_assoc] at hwhole
      rw [hhandled, Outcome.done_bind]
      refine (ih hwf' hwhole (hzstream ▸ hended)).imp_total ?_
      omega

/-- A pull that flushes, before the end of the stream. -/
theorem pullLoop_finishing {fuel size : Nat} (hsize : 0 < size) (hcount : size < 2 ^ 32)
    {filter : ZipFilter library.State} {source given : Bytes} (hwf : filter.WellFormed bufferSize) (hempty : filter.availIn = 0)
    (hfinishing : library.Running filter.zstream whole given ∨
      library.Finishing filter.zstream whole given) :
    Outcome.Ensures (1 ≤ fuel)
      (pullLoop library (handleInputFaultFromBuffer push) true size fuel (filter, source) .ok [])
      (Advance (c.EndsOn whole.length (verdict whole)) (Stage library verdict limit bufferSize whole)
        true (limit whole - given.length + 1)) := by
  cases fuel with
  | zero => exact .of_not_total (by omega) (by simp [pullLoop, Outcome.Returns])
  | succ fuel =>
    generalize hstep : library.process filter.zstream true [] size = step
    obtain ⟨hwf', hempty'⟩ := take_of_empty hwf hempty step (library.consumed_le hstep)
    rw [pullLoop_flush hsize hcount hempty fuel hstep, c.processReturn_unzip hunzip]
    rcases hjudges.finish hstep hfinishing hsize with
      ⟨hret, hmore, hfinishing'⟩ | ⟨hret, hended, hverdict⟩ | ⟨hret, hverdict⟩ |
        ⟨hret, hnothing, hfinishing', hverdict⟩
    · have hlimit := hjudges.limited (.inr hfinishing') (List.prefix_refl whole)
      have hpositive := List.length_pos_of_ne_nil hmore
      simp only [hret, c.progress_unzip hunzip, c.inputCorrupted_ok, Bool.false_eq_true, if_false, hmore,
        and_false]
      refine .done (.onward (.finishing hwf' hempty' (.inr hfinishing')) (.inl ?_))
      rw [List.length_append] at hlimit ⊢
      omega
    · simp only [hret, c.inputCorrupted_streamEnd, c.streamEnded_streamEnd, Bool.false_eq_true, if_false,
        true_and]
      split
      · exact .done (.flushed rfl (hverdict ▸ ZipFilterClass.endsOn_ended))
      · exact .done (.onward (.finished hwf' hempty' hended hverdict) (.inl (Nat.succ_pos _)))
    · simp only [hret, if_true]
      exact .done (.failed (hverdict ▸ ZipFilterClass.endsOn_corrupted))
    · -- Nothing was pulled and the library wants more input: there is as much to do as before.
      have hgoes : c.inputCorrupted step.ret = false ∧ c.streamEnded step.ret = false := by
        rw [c.progress_unzip hunzip] at hret
        rcases hret with hret | hret <;> simp [hret]
      simp only [hgoes.1, hgoes.2, Bool.false_eq_true, if_false, false_and]
      refine .done (.onward (.finishing hwf' hempty' (.inr hfinishing')) (.inr ?_))
      rw [hverdict]
      exact ZipFilterClass.not_endsOn_incomplete hunzip

/-- A pull from a filter that unzips. -/
theorem pull_advances {flush : Bool} {n : Nat} {s : ZipFilter library.State × Bytes}
    (h : Stage library verdict limit bufferSize whole flush n s) (fuel : Nat) :
    Outcome.Ensures (2 * n + 2 ≤ fuel)
      (pull library (handleInputFaultFromBuffer push) fuel flush throughBlockSize s)
      (Advance (c.EndsOn whole.length (verdict whole)) (Stage library verdict limit bufferSize whole)
        flush n) := by
  have hsize : 0 < throughBlockSize := by decide
  have hcount : throughBlockSize < 2 ^ 32 := by decide
  cases h with
  | reading hwf hwhole hrunning =>
    refine (pullLoop_reading hunzip hjudges fuel hsize hcount hwf hwhole hrunning
      (Nat.le_refl _)).imp_total ?_
    intro hfuel
    split <;> omega
  | past hwf hwhole hended hverdict =>
    refine (pullLoop_past hunzip hjudges fuel hsize hcount hwf hwhole hended hverdict).imp_total ?_
    omega
  | finishing hwf hempty hfinishing =>
    refine (pullLoop_finishing hunzip hjudges hsize hcount hwf hempty hfinishing).imp_total ?_
    omega
  | @finished filter source hwf hempty hended hverdict =>
    cases fuel with
    | zero => exact .of_not_total (by omega) (by simp [pull, pullLoop, Outcome.Returns])
    | succ fuel =>
      generalize hstep : library.process filter.zstream true [] throughBlockSize = step
      obtain ⟨hret, _, houtput, _⟩ := hjudges.past hstep hended hsize
      rw [pull, pullLoop_flush hsize hcount hempty fuel hstep]
      simp only [hret, houtput, c.processReturn_ended, c.inputCorrupted_ended, c.streamEnded_ended,
        Bool.false_eq_true, if_false, and_self, if_true]
      exact .done (.flushed rfl (hverdict ▸ ZipFilterClass.endsOn_ended))

theorem unzip_through_returns_iff {filter : ZipFilter library.State} (h : Idle library bufferSize filter)
    (input : Bytes) :
    (∃ fuel, (chopFilterThrough (methods library) fuel filter input).Returns) ↔
      c.EndsOn (received (fun _ => bufferSize) input).length
        (verdict (received (fun _ => bufferSize) input)) := by
  have hrunning : library.Running filter.zstream [] [] := by
    rw [h.zstream_eq]
    exact library.running_init
  have hwhole : [] ++ filter.pending ++ received (fun _ => bufferSize) input =
      received (fun _ => bufferSize) input := by
    rw [pending_eq_nil h.availIn_eq]
    rfl
  have hstart : Stage library verdict limit bufferSize (received (fun _ => bufferSize) input) false _
      (filter, input) :=
    .reading h.wellFormed hwhole hrunning
  have hbudget : Monotone fun n : Nat => 2 * n + 2 := by
    intro n n' hle
    dsimp only
    omega
  rw [← throughLoop_returns_iff (pull_advances hunzip hjudges) hbudget hstart []]
  constructor
  · rintro ⟨fuel, result, hresult⟩
    rw [chopFilterThrough, Outcome.bind_eq_done] at hresult
    obtain ⟨result', hresult', _⟩ := hresult
    exact ⟨fuel, result', hresult'⟩
  · rintro ⟨fuel, ⟨err, output, filter', source⟩, hresult⟩
    refine ⟨fuel, (err, output, filter'), ?_⟩
    rw [chopFilterThrough, Outcome.bind_eq_done]
    exact ⟨_, hresult, rfl⟩

end Stages

/-- `chop_filter_through` comes to an end with the zip filters on every input, with the unzip filter of
bzip2 unless what it is told of the input is incomplete, and with the one of zlib if that is corrupted or
ends where its stream does. -/
theorem through_returns_iff {c : ZipFilterClass} {library : c.Library} {verdict : Bytes → Verdict}
    {limit : Bytes → Nat} {bufferSize : Nat}
    (htotal : c.isZip = true → ∀ input, (library.code input).isSome = true)
    (hjudges : c.isZip = false → library.Judges c.inputCorrupted verdict limit)
    {filter : ZipFilter library.State} (h : Idle library bufferSize filter) (input : Bytes) :
    (∃ fuel, (chopFilterThrough (methods library) fuel filter input).Returns) ↔
      c.EndsOn (received (fun _ => bufferSize) input).length
        (verdict (received (fun _ => bufferSize) input)) := by
  cases hzip : c.isZip with
  | false => exact unzip_through_returns_iff hzip (hjudges hzip) h input
  | true =>
    obtain ⟨coded, hcoded⟩ :=
      Option.isSome_iff_exists.mp (htotal hzip (received (fun _ => bufferSize) input))
    obtain ⟨filter', _, bound, hsettles⟩ := through_received htotal h hcoded
    have hends : c.EndsOn (received (fun _ => bufferSize) input).length
        (verdict (received (fun _ => bufferSize) input)) := by
      cases c with
      | zlibZip => trivial
      | bzip2Zip => trivial
      | zlibUnzip => cases hzip
      | bzip2Unzip => cases hzip
    exact iff_of_true ⟨bound, _, hsettles bound (Nat.le_refl bound)⟩ hends

theorem through_returns_iff_escape :
    (∃ fuel, (chopFilterThrough (methods escapeUnzip) fuel (new escapeUnzip [0, 0])
      (EscapeCodec.zip [5])).Returns) ↔ ZipFilterClass.zlibUnzip.EndsOn 4 (.ended 4) := by
  have hreceived : received (fun _ => 2) (EscapeCodec.zip [5]) = EscapeCodec.zip [5] :=
    received_eq_of_short (by decide) (.inl (by decide))
  have hiff := through_returns_iff (fun hzip => by cases hzip) (fun _ => escapeUnzip_judges)
    (idle_new (List.cons_ne_nil 0 [0])) (EscapeCodec.zip [5])
  rw [show ([0, 0] : Bytes).length = 2 from rfl, hreceived] at hiff
  exact hiff

/-- Nothing to unzip, the beginning of a stream, a stream with a byte behind it, and as many bytes as
`avail_in` cannot count: the loop pulls nothing for ever. -/
theorem through_never_returns :
    (¬ ∃ fuel, (chopFilterThrough (methods escapeUnzip) fuel (new escapeUnzip [0, 0]) []).Returns) ∧
    (¬ ∃ fuel, (chopFilterThrough (methods escapeUnzip) fuel (new escapeUnzip [0, 0])
      [EscapeCodec.header, 1, 5]).Returns) ∧
    (¬ ∃ fuel, (chopFilterThrough (methods escapeUnzip) fuel (new escapeUnzip [0, 0])
      (EscapeCodec.zip [5] ++ [7])).Returns) ∧
    ¬ ∃ fuel, (chopFilterThrough (methods escapeUnzip) fuel
      (new escapeUnzip (List.replicate (2 ^ 32) 0)) (List.replicate (2 ^ 32) 9)).Returns := by
  have hbuffer : ([0, 0] : Bytes) ≠ [] := List.cons_ne_nil 0 [0]
  have hreceived (input : Bytes) : received (fun _ => ([0, 0] : Bytes).length) input = input :=
    received_eq_of_short (by decide) (.inl (by decide))
  have hiff (input : Bytes) := unzip_through_returns_iff rfl escapeUnzip_judges (idle_new hbuffer) input
  refine ⟨?_, ?_, ?_, ?_⟩
  case refine_4 =>
    have hlength (byte : UInt8) : (List.replicate (2 ^ 32) byte).length = 2 ^ 32 :=
      List.length_replicate
    have hlarge : List.replicate (2 ^ 32) (0 : UInt8) ≠ [] := by
      apply List.ne_nil_of_length_pos
      rw [hlength]
      exact Nat.two_pow_pos 32
    rw [unzip_through_returns_iff rfl escapeUnzip_judges (idle_new hlarge),
      received_wrapped (Nat.le_of_eq (hlength 0).symm) (hlength 9)]
    rintro (h | h) <;> cases h
  all_goals
    rw [hiff, hreceived]
    rintro (h | h) <;> cases h

end ZipFilter

end Libchop
