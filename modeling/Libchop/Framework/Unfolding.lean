import Mathlib.Logic.Relation

/-!
# Work lists that run empty

A walk takes the first pending item and puts items below it in its place.  It ends when no
endless descent begins at a pending item, however many items each step adds.
-/

namespace Unfolding

open Relation

variable {α β : Type} {R : α → α → Prop}

/-- The first of the pending items is replaced by items below it. -/
def Unfolds (R : α → α → Prop) (after before : List α) : Prop :=
  ∃ a new rest, before = a :: rest ∧ after = new ++ rest ∧ ∀ b ∈ new, R b a

theorem acc_nil : Acc (Unfolds R) [] := by
  refine ⟨_, fun after hstep => ?_⟩
  obtain ⟨a, new, rest, hbefore, _⟩ := hstep
  cases hbefore

theorem acc_cons {a : α} (ha : Acc R a) {rest : List α} (hrest : Acc (Unfolds R) rest) :
    Acc (Unfolds R) (a :: rest) := by
  induction ha generalizing rest with
  | intro a _ ih =>
    refine ⟨_, fun after hstep => ?_⟩
    obtain ⟨a', new, rest', hbefore, rfl, hbelow⟩ := hstep
    injection hbefore with ha' hrest'
    subst ha' hrest'
    induction new with
    | nil => exact hrest
    | cons b new ihnew =>
      have hb : R b a := hbelow b List.mem_cons_self
      have hnew : ∀ c ∈ new, R c a := fun c hc => hbelow c (List.mem_cons_of_mem b hc)
      exact ih b hb (ihnew hnew)

theorem acc_of_forall {items : List α} (h : ∀ a ∈ items, Acc R a) : Acc (Unfolds R) items := by
  induction items with
  | nil => exact acc_nil
  | cons a rest ih =>
    have hrest : ∀ b ∈ rest, Acc R b := fun b hb => h b (List.mem_cons_of_mem a hb)
    exact acc_cons (h a List.mem_cons_self) (ih hrest)

/-- A walk each of whose steps unfolds the pending items of its position ends. -/
theorem acc_of_pending {step : β → β → Prop} (pending : β → List α)
    (hstep : ∀ p' p, step p' p → TransGen (Unfolds R) (pending p') (pending p)) {p : β}
    (h : ∀ a ∈ pending p, Acc R a) : Acc step p := by
  have hacc := InvImage.accessible pending (acc_of_forall h).transGen
  exact Subrelation.accessible (hstep _ _) hacc

end Unfolding
