import Libchop.Filter.ZipContract

/-!
# Filters that cannot be told apart

Two filters whose pulls cannot be told apart give the same output for any input, also for input that is
corrupted or ends too early.  For the filters of zlib and bzip2, what is in the input buffer before the
input that waits does not matter.
-/

namespace Libchop

section Pulls

variable {F S : Type} (R : F × S → F × S → Prop)

/-- The same error code and output.  The states are only related if pulling goes on. -/
def SamePull (a b : FilterStatus × Bytes × F × S) : Prop :=
  a.1 = b.1 ∧ a.2.1 = b.2.1 ∧ (a.1 = .ok () ∨ a.1 = .error .empty → R a.2.2 b.2.2)

/-- States that cannot be told apart by pulling from them. -/
def PullsAlike (pull : PullProtocol.Pull (F × S) UInt8 FilterError) : Prop :=
  ∀ fuel flush size s t, R s t →
    Outcome.Related (SamePull R) (pull fuel flush size s) (pull fuel flush size t)

variable {R} {pull : PullProtocol.Pull (F × S) UInt8 FilterError}

/-- After a failure pulling does not go on. -/
theorem SamePull.failed (pulled : Bytes) (s t : F × S) :
    SamePull R (.error .error, pulled, s) (.error .error, pulled, t) := by
  refine ⟨rfl, rfl, ?_⟩
  rintro (hok | hempty)
  · cases hok
  · cases hempty

theorem throughLoop_alike (h : PullsAlike R pull) (fuel : Nat) {flush : Bool} {s t : F × S}
    (hst : R s t) (output : Bytes) :
    Outcome.Related (fun a b => a.1 = b.1 ∧ a.2.1 = b.2.1) (throughLoop pull fuel flush s output)
      (throughLoop pull fuel flush t output) := by
  induction fuel generalizing flush s t output with
  | zero => exact .outOfFuel
  | succ fuel ih =>
    refine (h fuel flush throughBlockSize s t hst).bind ?_
    rintro ⟨err, block, s'⟩ ⟨_, _, t'⟩ ⟨rfl, rfl, hnext⟩
    cases err with
    | ok _ => exact ih (hnext (.inl rfl)) _
    | error err =>
      cases err with
      | empty =>
        cases flush with
        | true => exact .done ⟨rfl, rfl⟩
        | false => exact ih (hnext (.inr rfl)) _
      | error => exact .done ⟨rfl, rfl⟩
      | unhandledFault => exact .done ⟨rfl, rfl⟩
      | full => exact .done ⟨rfl, rfl⟩
      | other err => exact .done ⟨rfl, rfl⟩

/-- `chop_filter_through` gives the same output. -/
theorem chopFilterThrough_alike {methods : FilterMethods F} {R : F × Bytes → F × Bytes → Prop}
    (h : PullsAlike R (methods.pull Bytes (handleInputFaultFromBuffer methods.push))) (fuel : Nat)
    {f g : F} {input : Bytes} (hfg : R (f, input) (g, input)) :
    Outcome.Related (fun a b => a.1 = b.1 ∧ a.2.1 = b.2.1) (chopFilterThrough methods fuel f input)
      (chopFilterThrough methods fuel g input) := by
  refine (throughLoop_alike h fuel hfg []).bind ?_
  rintro ⟨err, output, s'⟩ ⟨_, _, t'⟩ ⟨rfl, rfl⟩
  exact .done ⟨rfl, rfl⟩

end Pulls

namespace ZipFilter

/-- The same input waits, the library is in the same state, and the source is the same. -/
structure Alike {σ : Type} (size : Nat) (s t : ZipFilter σ × Bytes) : Prop where
  left : s.1.WellFormed size
  right : t.1.WellFormed size
  availIn_eq : s.1.availIn = t.1.availIn
  pending_eq : s.1.pending = t.1.pending
  zstream_eq : s.1.zstream = t.1.zstream
  source_eq : s.2 = t.2

variable {c : ZipFilterClass} {library : c.Library} {bufferSize : Nat}

theorem Alike.of_idle {f g : ZipFilter library.State} (hf : Idle library bufferSize f)
    (hg : Idle library bufferSize g) (input : Bytes) : Alike bufferSize (f, input) (g, input) where
  left := hf.wellFormed
  right := hg.wellFormed
  availIn_eq := hf.availIn_eq.trans hg.availIn_eq.symm
  pending_eq := by rw [pending_eq_nil hf.availIn_eq, pending_eq_nil hg.availIn_eq]
  zstream_eq := hf.zstream_eq.trans hg.zstream_eq.symm
  source_eq := rfl

theorem Alike.take {s t : ZipFilter library.State × Bytes} (h : Alike bufferSize s t)
    {step : CodecStep library.State} (hle : step.consumed ≤ s.1.pending.length) :
    Alike bufferSize (s.1.take step, s.2) (t.1.take step, t.2) where
  left := (pending_take h.left step hle).1
  right := (pending_take h.right step (h.pending_eq ▸ hle)).1
  availIn_eq := by
    change s.1.availIn - step.consumed = t.1.availIn - step.consumed
    rw [h.availIn_eq]
  pending_eq := by
    rw [(pending_take h.left step hle).2, (pending_take h.right step (h.pending_eq ▸ hle)).2,
      h.pending_eq]
  zstream_eq := rfl
  source_eq := h.source_eq

/-- The handler is called for filters that are empty. -/
theorem Alike.handle {s t : ZipFilter library.State × Bytes} (h : Alike bufferSize s t)
    (hempty : s.1.availIn = 0) (fuel : Nat) :
    Outcome.Related (fun a b => a.1 = b.1 ∧ (a.1 = .ok () ∨ a.1 = .error .unhandledFault) ∧
        Alike bufferSize a.2 b.2)
      (handleInputFaultFromBuffer push fuel bufferSize s.1 s.2)
      (handleInputFaultFromBuffer push fuel bufferSize t.1 t.2) := by
  obtain ⟨f, source⟩ := s
  obtain ⟨g, source'⟩ := t
  obtain rfl : source = source' := h.source_eq
  by_cases hsource : source = []
  · rw [handleInputFaultFromBuffer, handleInputFaultFromBuffer, if_pos hsource, if_pos hsource]
    exact .done ⟨rfl, .inr rfl, h⟩
  · have havail : g.availIn = 0 := h.availIn_eq.symm.trans hempty
    obtain ⟨f', hwf, hzstream, hpending, hhandle⟩ := handleInputFault_push h.left hempty hsource
    obtain ⟨g', hwf', hzstream', hpending', hhandle'⟩ :=
      handleInputFault_push h.right havail hsource
    rw [h.left.length_eq] at hhandle
    rw [h.right.length_eq] at hhandle'
    rw [hhandle, hhandle']
    refine .done ⟨rfl, .inl rfl, hwf, hwf', ?_, hpending.trans hpending'.symm, ?_, rfl⟩
    · change f'.availIn = g'.availIn
      rw [← hwf.length_pending, ← hwf'.length_pending, hpending, hpending']
    · exact hzstream.trans (h.zstream_eq.trans hzstream'.symm)

theorem Alike.reset {s t : ZipFilter library.State × Bytes} (h : Alike bufferSize s t) :
    Alike bufferSize ({ s.1 with zstream := library.init }, s.2)
      ({ t.1 with zstream := library.init }, t.2) where
  left := ⟨h.left.length_eq, h.left.pos, h.left.fits⟩
  right := ⟨h.right.length_eq, h.right.pos, h.right.fits⟩
  availIn_eq := h.availIn_eq
  pending_eq := h.pending_eq
  zstream_eq := rfl
  source_eq := h.source_eq

/-- The loop only goes on after the library reported that all is well. -/
theorem pullLoop_alike (fuel : Nat) {flush : Bool} {size : Nat} {f g : ZipFilter library.State}
    {source source' : Bytes} (h : Alike bufferSize (f, source) (g, source')) (pulled : Bytes) :
    Outcome.Related (SamePull (Alike bufferSize))
      (pullLoop library (handleInputFaultFromBuffer push) flush size fuel (f, source) .ok pulled)
      (pullLoop library (handleInputFaultFromBuffer push) flush size fuel (g, source') .ok pulled) := by
  induction fuel generalizing f g source source' pulled with
  | zero => exact .outOfFuel
  | succ fuel ih =>
    have havail : f.availIn = g.availIn := h.availIn_eq
    have hpending : f.pending = g.pending := h.pending_eq
    have hzstream : f.zstream = g.zstream := h.zstream_eq
    rw [pullLoop, pullLoop]
    by_cases hroom : pulled.length < size
    case neg =>
      rw [if_neg hroom, if_neg hroom]
      exact .done ⟨rfl, rfl, fun _ => h⟩
    rw [if_pos hroom, if_pos hroom, ← havail]
    by_cases hfault : (f.availIn = 0 ∨ c.needMoreInput f.availIn .ok) ∧ flush = false
    case pos =>
      have hempty : f.availIn = 0 := by
        by_contra hne
        rw [c.needMoreInput_ok hne] at hfault
        simp [hne] at hfault
      rw [if_pos hfault, if_pos hfault, hempty, Nat.sub_zero, Nat.sub_zero, h.left.length_eq,
        h.right.length_eq]
      refine (h.handle hempty fuel).bind ?_
      rintro ⟨err, f', source₁⟩ ⟨_, g', source₂⟩ ⟨rfl, herr, halike⟩
      rcases herr with rfl | rfl
      · exact ih halike pulled
      · exact .done ⟨rfl, rfl, fun _ => halike⟩
    case neg =>
      rw [if_neg hfault, if_neg hfault, ← hpending, ← hzstream]
      generalize hstep : library.process f.zstream flush f.pending (availOut size pulled) = step
      have htake := h.take (library.consumed_le hstep)
      dsimp only
      by_cases hcorrupted : c.inputCorrupted (c.processReturn flush step.ret) = true
      · rw [if_pos hcorrupted, if_pos hcorrupted]
        exact .done (.failed _ _ _)
      rw [if_neg hcorrupted, if_neg hcorrupted]
      cases flush with
      | true =>
        rw [if_pos rfl, if_pos rfl]
        split
        · exact .done ⟨rfl, rfl, fun _ => htake.reset⟩
        · exact .done ⟨rfl, rfl, fun _ => htake⟩
      | false =>
        rw [if_neg Bool.false_ne_true, if_neg Bool.false_ne_true]
        split
        · exact .done ⟨rfl, rfl, fun _ => htake⟩
        · split
          · exact .done (.failed _ _ _)
          · next hok =>
            rw [not_not] at hok
            rw [hok]
            exact ih htake (deliver size pulled step.output)

theorem pull_alike :
    PullsAlike (Alike bufferSize)
      ((methods library).pull Bytes (handleInputFaultFromBuffer (methods library).push)) :=
  fun fuel _ _ _ _ h => pullLoop_alike fuel h []

end ZipFilter

end Libchop
