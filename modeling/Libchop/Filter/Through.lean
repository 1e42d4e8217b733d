import Libchop.Basic
import Libchop.Framework.PullProtocol
import Mathlib.Data.List.Basic

/-!
# Filters

A filter is pulled from.  When it lacks input it calls its input fault handler, which pushes data into
it and is not interrupted by output faults.
-/

namespace Libchop

/-- The error codes of the filter interface, and those of other functions that it passes on. -/
inductive FilterError where
  | empty
  | error
  | unhandledFault
  | full
  | other (err : ChopError)
deriving DecidableEq, Repr

abbrev FilterStatus := Except FilterError Unit

/-- The error code, how many bytes were pushed, and the filter. -/
abbrev PushMethod (F : Type) := Nat → F → Bytes → Outcome (FilterStatus × Nat × F)

/-- A handler is asked for an amount of data, which comes from a source. -/
abbrev FaultHandler (F S : Type) := Nat → Nat → F → S → Outcome (FilterStatus × F × S)

abbrev PullMethod (F S : Type) := FaultHandler F S → PullProtocol.Pull (F × S) UInt8 FilterError

structure FilterMethods (F : Type) where
  push : PushMethod F
  pull : (S : Type) → PullMethod F S

section Through

variable {F S : Type}

def handleInputFaultFromBuffer (push : PushMethod F) : FaultHandler F Bytes :=
  fun fuel amount filter ibuffer =>
    if ibuffer = [] then .done (.error .unhandledFault, filter, ibuffer)
    else
      push fuel filter (ibuffer.take amount) >>= fun (err, pushed, filter) =>
        .done (err, filter, ibuffer.drop pushed)

/-- A handler pushes what its source has left, in portions of its own choice. -/
structure Feeds (handle : FaultHandler F S) (push : PushMethod F) (rest : S → Bytes) : Prop where
  unhandled : ∀ {source}, rest source = [] → ∃ source', rest source' = [] ∧
    ∀ fuel amount filter,
      handle fuel amount filter source = .done (.error .unhandledFault, filter, source')
  handled : ∀ {source amount}, rest source ≠ [] → 0 < amount →
    ∃ data source', data ≠ [] ∧ data.length ≤ amount ∧ rest source = data ++ rest source' ∧
      ∀ fuel filter filter', push fuel filter data = .done (.ok (), data.length, filter') →
        handle fuel amount filter source = .done (.ok (), filter', source')

theorem handleInputFaultFromBuffer_feeds (push : PushMethod F) :
    Feeds (handleInputFaultFromBuffer push) push id where
  unhandled := by
    intro source hrest
    refine ⟨source, hrest, ?_⟩
    intro fuel amount filter
    exact if_pos hrest
  handled := by
    intro source amount hrest hamount
    rw [id] at hrest
    refine ⟨source.take amount, source.drop amount, ?_, List.length_take_le _ _, ?_, ?_⟩
    · intro hnil
      rcases List.take_eq_nil_iff.mp hnil with hzero | hnil
      · exact absurd hzero (Nat.ne_of_gt hamount)
      · exact hrest hnil
    · exact (List.take_append_drop amount source).symm
    · intro fuel filter filter' hpush
      have hdrop : source.drop (source.take amount).length = source.drop amount := by
        rw [List.length_take, List.drop_eq_drop_iff]
        omega
      simp only [handleInputFaultFromBuffer, if_neg hrest, hpush, Outcome.done_bind, hdrop]

def throughBlockSize : Nat := 1024

/-- The loop of `chop_filter_through`, with what it has appended to its output. -/
def throughLoop (pull : PullProtocol.Pull (F × S) UInt8 FilterError) :
    Nat → Bool → F × S → Bytes → Outcome (FilterStatus × Bytes × F × S)
  | 0, _, _, _ => .outOfFuel
  | fuel + 1, flush, s, output =>
    pull fuel flush throughBlockSize s >>= fun (err, block, s) =>
      match err with
      | .ok _ => throughLoop pull fuel flush s (output ++ block)
      | .error .empty =>
        if flush then .done (.ok (), output, s) else throughLoop pull fuel true s (output ++ block)
      | .error err => .done (.error err, output, s)

/-- The error code, the output, and the filter, whose handler is as it was before. -/
def chopFilterThrough (methods : FilterMethods F) (fuel : Nat) (filter : F) (input : Bytes) :
    Outcome (FilterStatus × Bytes × F) :=
  throughLoop (methods.pull Bytes (handleInputFaultFromBuffer methods.push)) fuel false
    (filter, input) [] >>= fun (err, output, filter, _) => .done (err, output, filter)

variable {pull : PullProtocol.Pull (F × S) UInt8 FilterError} {Fits : F × S → Nat → Prop}
  {Drains : Nat → Prop} {Pulling Draining : Nat → F × S → Bytes → Prop} {Idle : F × S → Prop}

theorem throughLoop_flush (h : PullProtocol.Delivers pull .empty Fits Drains Pulling Draining Idle)
    (hdrains : Drains throughBlockSize) (n : Nat) {s : F × S} {rest : Bytes} (hs : Draining n s rest)
    (output : Bytes) :
    ∃ s', Idle s' ∧
      Outcome.Settles (fun fuel => throughLoop pull fuel true s output) (.ok (), output ++ rest, s') := by
  induction n using Nat.strongRecOn generalizing s rest output with
  | ind n ih =>
    have hsize : 0 < throughBlockSize := by decide
    obtain ⟨err, out, s', rest', hsettles, rfl, hcases⟩ := h.draining hs hsize hdrains
    rcases hcases with ⟨rfl, -, n', hn', hs'⟩ | ⟨rfl, rfl, rfl, hidle⟩
    · obtain ⟨s'', hidle, hrest⟩ := ih n' hn' hs' (output ++ out)
      rw [List.append_assoc] at hrest
      refine ⟨s'', hidle, ?_⟩
      exact Outcome.Settles.succ (fun fuel => rfl) (hsettles.bind hrest)
    · refine ⟨s', hidle, ?_⟩
      rw [List.append_nil, List.append_nil]
      exact Outcome.Settles.succ (fun fuel => rfl) (hsettles.bind (.of_eq fun _ => rfl))

/-- A filter that delivers its output is pulled empty. -/
theorem throughLoop_delivers (h : PullProtocol.Delivers pull .empty Fits Drains Pulling Draining Idle)
    (hfits : ∀ n s rest, Pulling n s rest → Fits s throughBlockSize) (hdrains : Drains throughBlockSize)
    (n : Nat) {s : F × S} {rest : Bytes} (hs : Pulling n s rest) (output : Bytes) :
    ∃ s', Idle s' ∧
      Outcome.Settles (fun fuel => throughLoop pull fuel false s output)
        (.ok (), output ++ rest, s') := by
  induction n using Nat.strongRecOn generalizing s rest output with
  | ind n ih =>
    obtain ⟨err, out, s', rest', hsettles, rfl, hcases⟩ :=
      h.pulling hs (by decide) (hfits n s rest hs)
    rcases hcases with ⟨rfl, -, n', hn', hs'⟩ | ⟨rfl, -, n', hs'⟩
    · obtain ⟨s'', hidle, hrest⟩ := ih n' hn' hs' (output ++ out)
      rw [List.append_assoc] at hrest
      refine ⟨s'', hidle, ?_⟩
      exact Outcome.Settles.succ (fun fuel => rfl) (hsettles.bind hrest)
    · obtain ⟨s'', hidle, hrest⟩ := throughLoop_flush h hdrains n' hs' (output ++ out)
      rw [List.append_assoc] at hrest
      refine ⟨s'', hidle, ?_⟩
      exact Outcome.Settles.succ (fun fuel => rfl) (hsettles.bind hrest)

/-- A filter that delivers its output is pulled empty by `chop_filter_through`. -/
theorem chopFilterThrough_delivers {methods : FilterMethods F} {Fits : F × Bytes → Nat → Prop}
    {Drains : Nat → Prop} {Pulling Draining : Nat → F × Bytes → Bytes → Prop} {Idle : F → Prop}
    (h : PullProtocol.Delivers (methods.pull Bytes (handleInputFaultFromBuffer methods.push)) .empty
      Fits Drains Pulling Draining (fun s => Idle s.1))
    (hfits : ∀ n s rest, Pulling n s rest → Fits s throughBlockSize) (hdrains : Drains throughBlockSize)
    {n : Nat} {filter : F} {input output : Bytes} (hs : Pulling n (filter, input) output) :
    ∃ filter', Idle filter' ∧
      Outcome.Settles (fun fuel => chopFilterThrough methods fuel filter input)
        (.ok (), output, filter') := by
  obtain ⟨⟨filter', source⟩, hidle, hsettles⟩ := throughLoop_delivers h hfits hdrains n hs []
  refine ⟨filter', hidle, ?_⟩
  exact hsettles.bind (.of_eq fun _ => rfl)

end Through

end Libchop
