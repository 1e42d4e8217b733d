import Libchop.Framework.Outcome

/-!
# Pulling from a producer

A producer is pulled from until it reports that it is empty, and then asked to flush until it reports
it again.  What it delivers on the way is the same however much is asked for at a time.
-/

namespace PullProtocol

variable {α β ε : Type}

/-- A pull with a budget, for flushing or not, of at most a number of items. -/
abbrev Pull (α β ε : Type) := Nat → Bool → Nat → α → Outcome (Except ε Unit × List β × α)

/-- `Pulling n s rest` says that the producer still has `rest` to deliver, in at most `n` pulls that
succeed; `Draining` that it is to be flushed.  A request is only made if it `Fits` the state, and one
to flush only if its size `Drains`. -/
structure Delivers (pull : Pull α β ε) (empty : ε) (Fits : α → Nat → Prop) (Drains : Nat → Prop)
    (Pulling Draining : Nat → α → List β → Prop) (Idle : α → Prop) : Prop where
  pulling : ∀ {n s rest size}, Pulling n s rest → 0 < size → Fits s size →
    ∃ err out s' rest', Outcome.Settles (fun fuel => pull fuel false size s) (err, out, s') ∧
      rest = out ++ rest' ∧
      ((err = .ok () ∧ out.length ≤ size ∧ ∃ n', n' < n ∧ Pulling n' s' rest') ∨
        (err = .error empty ∧ out.length < size ∧ ∃ n', Draining n' s' rest'))
  draining : ∀ {n s rest size}, Draining n s rest → 0 < size → Drains size →
    ∃ err out s' rest', Outcome.Settles (fun fuel => pull fuel true size s) (err, out, s') ∧
      rest = out ++ rest' ∧
      ((err = .ok () ∧ out.length ≤ size ∧ ∃ n', n' < n ∧ Draining n' s' rest') ∨
        (err = .error empty ∧ out = [] ∧ rest' = [] ∧ Idle s'))

variable {empty : ε} {Goes : Nat → α → List β → Prop} {Ends : List β → α → List β → Prop}
  {size bound bound' : Nat} {pulled more out : List β}
  {run body : Nat → Outcome (Except ε Unit × List β × α)}

/-- What a loop that pulls comes to, with fewer than `bound` pulls left, when it has pulled something
already. -/
def LoopResult (empty : ε) (Goes : Nat → α → List β → Prop) (Ends : List β → α → List β → Prop)
    (size bound : Nat) (pulled out : List β) (run : Nat → Outcome (Except ε Unit × List β × α)) :
    Prop :=
  ∃ err more s' out', Outcome.Settles run (err, pulled ++ more, s') ∧ out = more ++ out' ∧
    ((err = .ok () ∧ (pulled ++ more).length ≤ size ∧
        ∃ n', n' < bound + pulled.length ∧ Goes n' s' out') ∨
      (err = .error empty ∧ Ends (pulled ++ more) s' out'))

namespace LoopResult

/-- The loop ends with what was pulled. -/
theorem ok {s' : α} {n' : Nat} (hrun : Outcome.Settles run (.ok (), pulled, s'))
    (hsize : pulled.length ≤ size) (hn : n' < bound + pulled.length) (hs' : Goes n' s' out) :
    LoopResult empty Goes Ends size bound pulled out run := by
  rw [← List.append_nil pulled] at hrun hsize
  exact ⟨.ok (), [], s', out, hrun, rfl, .inl ⟨rfl, hsize, n', hn, hs'⟩⟩

theorem exhausted {s' : α} (hrun : Outcome.Settles run (.error empty, pulled, s'))
    (hs' : Ends pulled s' out) : LoopResult empty Goes Ends size bound pulled out run := by
  rw [← List.append_nil pulled] at hrun hs'
  exact ⟨.error empty, [], s', out, hrun, rfl, .inr ⟨rfl, hs'⟩⟩

/-- A round of the loop that pulls something and goes on. -/
theorem round (hrun : ∀ fuel, run (fuel + 1) = body fuel)
    (h : LoopResult empty Goes Ends size bound' (pulled ++ more) out body)
    (hbound : bound' + more.length ≤ bound) :
    LoopResult empty Goes Ends size bound pulled (more ++ out) run := by
  obtain ⟨err, further, s', out', hsettles, rfl, hcases⟩ := h
  refine ⟨err, more ++ further, s', out', ?_, (List.append_assoc more further out').symm, ?_⟩
  · rw [← List.append_assoc]
    exact hsettles.succ hrun
  · rw [← List.append_assoc]
    rcases hcases with ⟨rfl, hle, n', hn', hs'⟩ | hempty
    · refine .inl ⟨rfl, hle, n', ?_, hs'⟩
      rw [List.length_append] at hn'
      omega
    · exact .inr hempty

/-- A round that pulls nothing. -/
theorem round_nil (hrun : ∀ fuel, run (fuel + 1) = body fuel)
    (h : LoopResult empty Goes Ends size bound' pulled out body) (hbound : bound' ≤ bound) :
    LoopResult empty Goes Ends size bound pulled out run := by
  rw [← List.append_nil pulled] at h
  exact round hrun h hbound

theorem imp (h : LoopResult empty Goes Ends size bound pulled out body)
    (himp : ∀ result, Outcome.Settles body result → Outcome.Settles run result) :
    LoopResult empty Goes Ends size bound pulled out run := by
  obtain ⟨err, more, s', out', hsettles, hout, hcases⟩ := h
  exact ⟨err, more, s', out', himp _ hsettles, hout, hcases⟩

end LoopResult

end PullProtocol
