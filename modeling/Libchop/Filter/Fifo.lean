import Libchop.Filter.ZipContract
import Libchop.Filter.EscapeCodec
import Libchop.Framework.Refinement

/-!
# The order in which the library is given what is pushed

The input that waits in a filter is a window of its input buffer, which the library advances and a push
extends.  A push copies behind as many bytes as wait, counted from the start of the buffer: the window is
only extended if it is at the start.
-/

namespace Libchop

/-- A call of the library: the window of the input buffer it was given, and what it took of it. -/
structure LibraryCall where
  nextIn : Nat
  availIn : Nat
  taken : Bytes
deriving DecidableEq, Repr

/-- What was reported as pushed into a filter, and the calls of its library. -/
structure Traffic where
  pushed : Bytes
  calls : List LibraryCall
deriving DecidableEq, Repr

namespace Traffic

def consumed (traffic : Traffic) : Bytes := traffic.calls.flatMap LibraryCall.taken

def push (traffic : Traffic) (data : Bytes) : Traffic :=
  { traffic with pushed := traffic.pushed ++ data }

def call {σ : Type} (traffic : Traffic) (filter : ZipFilter σ) (step : CodecStep σ) : Traffic :=
  { traffic with
    calls := traffic.calls ++ [⟨filter.nextIn, filter.availIn, filter.pending.take step.consumed⟩] }

@[simp] theorem push_nil (traffic : Traffic) : traffic.push [] = traffic := by
  rw [push, List.append_nil]

@[simp] theorem consumed_push (traffic : Traffic) (data : Bytes) :
    (traffic.push data).consumed = traffic.consumed := rfl

theorem consumed_call {σ : Type} (traffic : Traffic) (filter : ZipFilter σ) (step : CodecStep σ) :
    (traffic.call filter step).consumed = traffic.consumed ++ filter.pending.take step.consumed := by
  simp [consumed, call]

end Traffic

namespace ZipFilter

section Traced

variable {c : ZipFilterClass} (library : c.Library)

/-- The loop of `ZIP_PULL_METHOD` with its traffic.  The handler pushes from a source, and without one it
does not handle the fault. -/
def pullLoopTraced (flush : Bool) (size : Nat) : Nat → ZipFilter library.State × Bytes → CodecReturn →
    Bytes → Traffic → Outcome ((FilterStatus × Bytes × ZipFilter library.State × Bytes) × Traffic)
  | 0, _, _, _, _ => .outOfFuel
  | fuel + 1, (filter, source), zret, pulled, traffic =>
    if pulled.length < size then
      if (filter.availIn = 0 ∨ c.needMoreInput filter.availIn zret) ∧ flush = false then
        handleInputFaultFromBuffer push fuel (filter.inputBuffer.length - filter.availIn) filter source >>=
          fun (err, filter, rest) =>
            let traffic := traffic.push (source.take (source.length - rest.length))
            match err with
            | .ok _ => pullLoopTraced flush size fuel (filter, rest) zret pulled traffic
            | .error .unhandledFault | .error .empty =>
              .done ((pullEmpty pulled, pulled, filter, rest), traffic)
            | .error err => .done ((.error err, pulled, filter, rest), traffic)
      else
        let step := library.process filter.zstream flush filter.pending (availOut size pulled)
        let traffic := traffic.call filter step
        let zret := c.processReturn flush step.ret
        let filter := filter.take step
        if c.inputCorrupted zret then .done ((.error .error, pulled, filter, source), traffic)
        else
          let pulled := deliver size pulled step.output
          if flush then
            if c.streamEnded zret ∧ pulled = [] then
              .done ((.error .empty, pulled, { filter with zstream := library.init }, source), traffic)
            else .done ((.ok (), pulled, filter, source), traffic)
          else if c.cantProduceMore zret then .done ((.ok (), pulled, filter, source), traffic)
          else if zret ≠ .ok then .done ((.error .error, pulled, filter, source), traffic)
          else pullLoopTraced flush size fuel (filter, source) zret pulled traffic
    else .done ((.ok (), pulled, filter, source), traffic)

/-- Without its traffic, it is the loop of the pull method. -/
theorem pullLoopTraced_fst (flush : Bool) (size fuel : Nat) (s : ZipFilter library.State × Bytes)
    (zret : CodecReturn) (pulled : Bytes) (traffic : Traffic) :
    (pullLoopTraced library flush size fuel s zret pulled traffic >>= fun result => .done result.1) =
      pullLoop library (handleInputFaultFromBuffer push) flush size fuel s zret pulled := by
  induction fuel generalizing s zret pulled traffic with
  | zero => rfl
  | succ fuel ih =>
    obtain ⟨filter, source⟩ := s
    rw [pullLoopTraced, pullLoop]
    split
    · split
      · rw [Outcome.bind_assoc]
        congr 1
        funext result
        obtain ⟨err, filter', rest⟩ := result
        cases err with
        | ok _ => exact ih _ _ _ _
        | error err => cases err <;> rfl
      · dsimp only
        split
        · rfl
        · split
          · split <;> rfl
          · split
            · rfl
            · split
              · rfl
              · exact ih _ _ _ _
    · rfl

end Traced

/-- What the library took and what waits is what was pushed, and the library was only given windows inside
of the input buffer. -/
structure InOrder {σ : Type} (size : Nat) (filter : ZipFilter σ) (traffic : Traffic) : Prop where
  wellFormed : filter.WellFormed size
  order : traffic.consumed ++ filter.pending = traffic.pushed
  inside : ∀ call ∈ traffic.calls, call.nextIn + call.availIn ≤ size

namespace InOrder

variable {σ : Type} {size : Nat} {filter : ZipFilter σ} {traffic : Traffic}

theorem push (h : InOrder size filter traffic) {data : Bytes}
    (hstart : filter.availIn = 0 ∨ filter.nextIn = 0 ∨ data = [])
    (hcount : size < 2 ^ 32 ∨ filter.availIn + data.length < 2 ^ 32) {fuel : Nat}
    {status : FilterStatus} {n : Nat} {filter' : ZipFilter σ}
    (hpush : ZipFilter.push fuel filter data = .done (status, n, filter')) :
    n ≤ data.length ∧ filter'.pending = filter.pending ++ data.take n ∧
      InOrder size filter' (traffic.push (data.take n)) := by
  obtain ⟨status', filter'', hpush', _, hwf, hpending, _⟩ := push_extends h.wellFormed hstart hcount fuel
  rw [hpush] at hpush'
  cases hpush'
  have htake :
      data.take (size - filter.availIn) = data.take (min data.length (size - filter.availIn)) := by
    rw [List.take_eq_take_iff]
    omega
  rw [htake] at hpending
  refine ⟨Nat.min_le_left _ _, hpending, hwf, ?_, h.inside⟩
  rw [Traffic.consumed_push, hpending, ← List.append_assoc, h.order]
  rfl

theorem take (h : InOrder size filter traffic) {step : CodecStep σ}
    (hle : step.consumed ≤ filter.pending.length) :
    InOrder size (filter.take step) (traffic.call filter step) := by
  obtain ⟨hwf, hpending⟩ := pending_take h.wellFormed step hle
  refine ⟨hwf, ?_, ?_⟩
  · rw [Traffic.consumed_call, hpending, List.append_assoc, List.take_append_drop, h.order]
    rfl
  · simp only [Traffic.call, List.mem_append, List.mem_singleton]
    rintro call (hcall | rfl)
    · exact h.inside call hcall
    · exact h.wellFormed.fits

theorem reset (h : InOrder size filter traffic) (zstream : σ) :
    InOrder size { filter with zstream } traffic :=
  ⟨⟨h.wellFormed.length_eq, h.wellFormed.pos, h.wellFormed.fits⟩, h.order, h.inside⟩

/-- The handler is called for a filter that is empty. -/
theorem handle (h : InOrder size filter traffic) (hempty : filter.availIn = 0) {fuel amount : Nat}
    {source rest : Bytes} (hcount : size < 2 ^ 32 ∨ source.length < 2 ^ 32) {err : FilterStatus} {filter' : ZipFilter σ}
    (hrun : handleInputFaultFromBuffer ZipFilter.push fuel amount filter source =
      .done (err, filter', rest)) :
    InOrder size filter' (traffic.push (source.take (source.length - rest.length))) ∧
      rest.length ≤ source.length := by
  by_cases hsource : source = []
  · rw [handleInputFaultFromBuffer, if_pos hsource] at hrun
    cases hrun
    rw [Nat.sub_self, List.take_zero, Traffic.push_nil]
    exact ⟨h, Nat.le_refl _⟩
  · rw [handleInputFaultFromBuffer, if_neg hsource, Outcome.bind_eq_done] at hrun
    obtain ⟨⟨status, n, filter''⟩, hpush, hrun⟩ := hrun
    cases hrun
    have hshort : size < 2 ^ 32 ∨ filter.availIn + (source.take amount).length < 2 ^ 32 := by
      rw [hempty, List.length_take]
      omega
    obtain ⟨hle, _, hpushed⟩ := h.push (.inl hempty) hshort hpush
    rw [List.take_take] at hpushed
    rw [List.length_take] at hle
    have hamount : source.length - (source.drop n).length = min n amount := by
      rw [List.length_drop]
      omega
    rw [hamount]
    refine ⟨hpushed, ?_⟩
    rw [List.length_drop]
    exact Nat.sub_le _ _

end InOrder

section Runs

variable {c : ZipFilterClass} {library : c.Library} {bufferSize : Nat}

/-- The loop of a pull keeps the order.  It only goes on after the library reported that all is well, so
that the handler is only called for an empty filter. -/
theorem pullLoopTraced_inOrder {fuel : Nat} {flush : Bool} {size : Nat}
    {filter : ZipFilter library.State} {source pulled : Bytes} {traffic traffic' : Traffic}
    {result : FilterStatus × Bytes × ZipFilter library.State × Bytes}
    (h : InOrder bufferSize filter traffic) (hcount : bufferSize < 2 ^ 32 ∨ source.length < 2 ^ 32)
    (hrun : pullLoopTraced library flush size fuel (filter, source) .ok pulled traffic =
      .done (result, traffic')) : InOrder bufferSize result.2.2.1 traffic' := by
  induction fuel generalizing filter source pulled traffic with
  | zero => cases hrun
  | succ fuel ih =>
    rw [pullLoopTraced] at hrun
    split at hrun
    case isFalse =>
      cases hrun
      exact h
    split at hrun
    case isTrue hfault =>
      have hempty : filter.availIn = 0 := by
        by_contra hne
        rw [c.needMoreInput_ok hne] at hfault
        simp [hne] at hfault
      rw [Outcome.bind_eq_done] at hrun
      obtain ⟨⟨err, filter', rest⟩, hhandle, hrun⟩ := hrun
      obtain ⟨h', hrest⟩ := h.handle hempty hcount hhandle
      cases err with
      | ok _ =>
        have hcount' : bufferSize < 2 ^ 32 ∨ rest.length < 2 ^ 32 :=
          hcount.imp_right (Nat.lt_of_le_of_lt hrest)
        exact ih h' hcount' hrun
      | error err =>
        cases err with
        | empty => cases hrun; exact h'
        | error => cases hrun; exact h'
        | unhandledFault => cases hrun; exact h'
        | full => cases hrun; exact h'
        | other err => cases hrun; exact h'
    case isFalse =>
      have h' := h.take (library.consumed_le
        (rfl : library.process filter.zstream flush filter.pending (availOut size pulled) = _))
      dsimp only at hrun
      split at hrun
      · cases hrun
        exact h'
      split at hrun
      · split at hrun
        · cases hrun
          exact h'.reset library.init
        · cases hrun
          exact h'
      split at hrun
      · cases hrun
        exact h'
      split at hrun
      · cases hrun
        exact h'
      · next hok =>
        rw [not_not] at hok
        rw [hok] at hrun
        exact ih h' hcount hrun

/-- A call of `chop_filter_push`, or one of `chop_filter_pull` with what its handler can push. -/
inductive Request where
  | push (data : Bytes)
  | pull (flush : Bool) (size : Nat) (source : Bytes)
deriving DecidableEq, Repr

inductive Reply where
  | pushed (status : FilterStatus) (count : Nat)
  | pulled (status : FilterStatus) (block : Bytes)

/-- A filter in use. -/
structure Traced (σ : Type) where
  filter : ZipFilter σ
  traffic : Traffic

variable (library) in
def requestStep (fuel : Nat) (s : Traced library.State) :
    Request → Outcome (Reply × Traced library.State)
  | .push data =>
    push fuel s.filter data >>= fun (status, count, filter) =>
      .done (.pushed status count, ⟨filter, s.traffic.push (data.take count)⟩)
  | .pull flush size source =>
    pullLoopTraced library flush size fuel (s.filter, source) .ok [] s.traffic >>=
      fun ((status, block, filter, _), traffic) => .done (.pulled status block, ⟨filter, traffic⟩)

variable (library) in
/-- A call of a method of the filter, whose handler pushes from the source. -/
def methodStep (fuel : Nat) (filter : ZipFilter library.State) :
    Request → Outcome (Reply × ZipFilter library.State)
  | .push data => push fuel filter data >>= fun (status, count, filter) => .done (.pushed status count, filter)
  | .pull flush size source =>
    pull library (handleInputFaultFromBuffer push) fuel flush size (filter, source) >>=
      fun (status, block, filter, _) => .done (.pulled status block, filter)

/-- The traffic is only looked at. -/
theorem requestStep_methodStep {fuel : Nat} (s : Traced library.State) (request : Request) (reply : Reply)
    (s' : Traced library.State) (h : requestStep library fuel s request = .done (reply, s')) :
    methodStep library fuel s.filter request = .done (reply, s'.filter) := by
  cases request with
  | push data =>
    obtain ⟨⟨status, count, filter⟩, hpush, hdone⟩ := Outcome.bind_eq_done.mp h
    cases hdone
    rw [methodStep, hpush, Outcome.done_bind]
  | pull flush size source =>
    obtain ⟨⟨⟨status, block, filter, rest⟩, traffic⟩, hpull, hdone⟩ := Outcome.bind_eq_done.mp h
    cases hdone
    rw [methodStep, pull, ← pullLoopTraced_fst library flush size fuel (s.filter, source) .ok [] s.traffic,
      hpull, Outcome.done_bind, Outcome.done_bind]

/-- No push finds input that waits behind input that was taken, and `avail_in` can count what it comes to:
the input buffer is short, or the data. -/
def PushesCounted {σ : Type} (s : Traced σ) : Request → Prop
  | .push data =>
    (s.filter.availIn = 0 ∨ s.filter.nextIn = 0 ∨ data = []) ∧
      (s.filter.inputBuffer.length < 2 ^ 32 ∨ s.filter.availIn + data.length < 2 ^ 32)
  | .pull _ _ source => s.filter.inputBuffer.length < 2 ^ 32 ∨ source.length < 2 ^ 32

instance {σ : Type} (s : Traced σ) (request : Request) : Decidable (PushesCounted s request) :=
  match request with
  | .push data => inferInstanceAs (Decidable ((s.filter.availIn = 0 ∨ s.filter.nextIn = 0 ∨ data = []) ∧
      (s.filter.inputBuffer.length < 2 ^ 32 ∨ s.filter.availIn + data.length < 2 ^ 32)))
  | .pull _ _ source =>
    inferInstanceAs (Decidable (s.filter.inputBuffer.length < 2 ^ 32 ∨ source.length < 2 ^ 32))

theorem requestStep_inOrder {fuel : Nat} {s s' : Traced library.State} {request : Request} {reply : Reply}
    (hcounted : PushesCounted s request) (h : InOrder bufferSize s.filter s.traffic)
    (hstep : requestStep library fuel s request = .done (reply, s')) :
    InOrder bufferSize s'.filter s'.traffic := by
  have hlength := h.wellFormed.length_eq
  cases request with
  | push data =>
    obtain ⟨⟨status, count, filter⟩, hpush, hdone⟩ := Outcome.bind_eq_done.mp hstep
    cases hdone
    obtain ⟨hstart, hcount⟩ := hcounted
    rw [hlength] at hcount
    exact (h.push hstart hcount hpush).2.2
  | pull flush size source =>
    obtain ⟨⟨⟨status, block, filter, rest⟩, traffic⟩, hpull, hdone⟩ := Outcome.bind_eq_done.mp hstep
    cases hdone
    have hcount : bufferSize < 2 ^ 32 ∨ source.length < 2 ^ 32 := hlength ▸ hcounted
    exact pullLoopTraced_inOrder h hcount hpull

end Runs

end ZipFilter

end Libchop
