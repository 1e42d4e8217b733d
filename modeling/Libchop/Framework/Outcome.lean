import Mathlib.Init
import Mathlib.Tactic.Common

/-!
# Outcomes of fuelled computations

A program whose recursion need not end is run with a fuel budget.  A run either returns,
stops on a failed run-time check, or exhausts its budget.  Divergence is exhaustion of
every budget, and a termination theorem exhibits a budget from which the run returns.
-/

/-- How a run with a finite fuel budget ends. -/
inductive Outcome (α : Type) where
  | done (a : α)
  | abort
  | outOfFuel
deriving DecidableEq, Repr

namespace Outcome

variable {α β : Type}

/-- Continue a run with its result; a run that did not return ends the whole. -/
def bind : Outcome α → (α → Outcome β) → Outcome β
  | .done a, f => f a
  | .abort, _ => .abort
  | .outOfFuel, _ => .outOfFuel

instance : Monad Outcome where
  pure := .done
  bind := bind

@[simp] theorem pure_eq_done (a : α) : (pure a : Outcome α) = .done a := rfl

@[simp] theorem done_bind (a : α) (f : α → Outcome β) : (Outcome.done a >>= f) = f a := rfl

@[simp] theorem abort_bind (f : α → Outcome β) : ((.abort : Outcome α) >>= f) = .abort := rfl

@[simp] theorem outOfFuel_bind (f : α → Outcome β) :
    ((.outOfFuel : Outcome α) >>= f) = .outOfFuel := rfl

theorem bind_assoc {γ : Type} (x : Outcome α) (f : α → Outcome β) (g : β → Outcome γ) :
    (x >>= f >>= g) = (x >>= fun a => f a >>= g) := by
  cases x with
  | done a => rfl
  | abort => rfl
  | outOfFuel => rfl

/-- Inversion of a sequenced run: both parts returned. -/
theorem bind_eq_done {x : Outcome α} {f : α → Outcome β} {b : β} :
    (x >>= f) = .done b ↔ ∃ a, x = .done a ∧ f a = .done b := by
  cases x with
  | done a => simp
  | abort => simp
  | outOfFuel => simp

/-- A run-time check of the program. -/
def assert (p : Prop) [Decidable p] : Outcome Unit :=
  if p then .done () else .abort

@[simp] theorem assert_of {p : Prop} [Decidable p] (h : p) : assert p = .done () := by
  simp [assert, h]

@[simp] theorem assert_of_not {p : Prop} [Decidable p] (h : ¬ p) : assert p = .abort := by
  simp [assert, h]

/-- A check that was passed. -/
theorem of_assert {p : Prop} [Decidable p] {u : Unit} (h : assert p = .done u) : p := by
  by_contra hfails
  rw [assert_of_not hfails] at h
  cases h

def Returns (x : Outcome α) : Prop := ∃ a, x = .done a

/-- The first run agrees with the second one unless it exhausted its budget. -/
def Approx (x y : Outcome α) : Prop := x = .outOfFuel ∨ x = y

theorem Approx.refl (x : Outcome α) : Approx x x := .inr rfl

theorem Approx.outOfFuel (y : Outcome α) : Approx .outOfFuel y := .inl rfl

theorem Approx.bind {x y : Outcome α} {f g : α → Outcome β} (h : Approx x y)
    (hrest : ∀ a, Approx (f a) (g a)) : Approx (x >>= f) (y >>= g) := by
  cases h with
  | inl h =>
    rw [h]
    exact .outOfFuel _
  | inr h =>
    rw [h]
    cases y with
    | done a => exact hrest a
    | abort => exact .refl _
    | outOfFuel => exact .outOfFuel _

theorem Approx.done {x y : Outcome α} {a : α} (h : Approx x y) (hx : x = .done a) :
    y = .done a := by
  cases h with
  | inl h =>
    rw [hx] at h
    cases h
  | inr h => rw [← h, hx]

/-- A contract: what the run returns satisfies `P`, and it does return if `total` holds. -/
structure Ensures (total : Prop) (x : Outcome α) (P : α → Prop) : Prop where
  returns : total → x.Returns
  post : ∀ a, x = .done a → P a

namespace Ensures

variable {total : Prop} {x : Outcome α} {P : α → Prop}

theorem done {a : α} (h : P a) : Ensures total (.done a) P where
  returns := fun _ => ⟨a, rfl⟩
  post := by
    intro b hb
    cases hb
    exact h

theorem bind {f : α → Outcome β} {Q : β → Prop} (h : Ensures total x P)
    (hrest : ∀ a, P a → Ensures total (f a) Q) : Ensures total (x >>= f) Q where
  returns := by
    intro htotal
    obtain ⟨a, rfl⟩ := h.returns htotal
    exact (hrest a (h.post a rfl)).returns htotal
  post := by
    intro b hb
    obtain ⟨a, ha, hb⟩ := bind_eq_done.mp hb
    exact (hrest a (h.post a ha)).post b hb

/-- A run that fails where it need not return. -/
theorem of_not_total {x : Outcome α} (htotal : ¬ total) (hx : ¬ x.Returns) : Ensures total x P where
  returns := fun h => (htotal h).elim
  post := fun a ha => (hx ⟨a, ha⟩).elim

theorem imp_total {total' : Prop} (h : Ensures total x P) (htotal : total' → total) :
    Ensures total' x P where
  returns := fun h' => h.returns (htotal h')
  post := h.post

theorem mono {Q : α → Prop} (h : Ensures total x P) (hpost : ∀ a, P a → Q a) :
    Ensures total x Q where
  returns := h.returns
  post := fun a ha => hpost a (h.post a ha)

end Ensures

/-- Both runs end the same way, with results that are related. -/
inductive Related (R : α → β → Prop) : Outcome α → Outcome β → Prop where
  | done {a : α} {b : β} (h : R a b) : Related R (.done a) (.done b)
  | abort : Related R .abort .abort
  | outOfFuel : Related R .outOfFuel .outOfFuel

theorem Related.mono {R Q : α → β → Prop} {x : Outcome α} {y : Outcome β} (h : Related R x y)
    (himp : ∀ a b, R a b → Q a b) : Related Q x y := by
  cases h with
  | done h => exact .done (himp _ _ h)
  | abort => exact .abort
  | outOfFuel => exact .outOfFuel

theorem Related.bind {γ δ : Type} {R : α → β → Prop} {Q : γ → δ → Prop} {x : Outcome α}
    {y : Outcome β} {f : α → Outcome γ} {g : β → Outcome δ} (h : Related R x y)
    (hrest : ∀ a b, R a b → Related Q (f a) (g b)) : Related Q (x >>= f) (y >>= g) := by
  cases h with
  | done h => exact hrest _ _ h
  | abort => exact .abort
  | outOfFuel => exact .outOfFuel

theorem Related.bind_eq {γ : Type} {R : α → β → Prop} {x : Outcome α} {y : Outcome β}
    {f : α → Outcome γ} {g : β → Outcome γ} (h : Related R x y)
    (hrest : ∀ a b, R a b → f a = g b) : (x >>= f) = (y >>= g) := by
  cases h with
  | done h => exact hrest _ _ h
  | abort => rfl
  | outOfFuel => rfl

/-- From some budget on, a run returns this result. -/
def Settles (run : Nat → Outcome α) (a : α) : Prop :=
  ∃ bound, ∀ fuel, bound ≤ fuel → run fuel = .done a

namespace Settles

variable {run : Nat → Outcome α} {a : α}

theorem of_eq (h : ∀ fuel, run fuel = .done a) : Settles run a := ⟨0, fun fuel _ => h fuel⟩

theorem of_add (k : Nat) (h : ∀ fuel, run (fuel + k) = .done a) : Settles run a := by
  refine ⟨k, fun fuel hfuel => ?_⟩
  rw [← Nat.sub_add_cancel hfuel]
  exact h (fuel - k)

/-- What follows from the result of a run. -/
theorem imp {run' : Nat → Outcome β} {b : β} (h : Settles run a)
    (himp : ∀ fuel, run fuel = .done a → run' fuel = .done b) : Settles run' b := by
  obtain ⟨bound, h⟩ := h
  exact ⟨bound, fun fuel hfuel => himp fuel (h fuel hfuel)⟩

theorem bind {next : Nat → α → Outcome β} {b : β} (h : Settles run a)
    (hnext : Settles (fun fuel => next fuel a) b) :
    Settles (fun fuel => run fuel >>= next fuel) b := by
  obtain ⟨bound, h⟩ := h
  obtain ⟨bound', hnext⟩ := hnext
  refine ⟨max bound bound', fun fuel hfuel => ?_⟩
  simp only [h fuel (Nat.le_trans (Nat.le_max_left _ _) hfuel), done_bind]
  exact hnext fuel (Nat.le_trans (Nat.le_max_right _ _) hfuel)

/-- A loop whose first round needs one unit of the budget. -/
theorem succ {body : Nat → Outcome α} (hrun : ∀ fuel, run (fuel + 1) = body fuel)
    (h : Settles body a) : Settles run a := by
  obtain ⟨bound, h⟩ := h
  refine ⟨bound + 1, fun fuel hfuel => ?_⟩
  cases fuel with
  | zero => cases hfuel
  | succ fuel =>
    rw [hrun]
    exact h fuel (Nat.le_of_succ_le_succ hfuel)

theorem unique {b : α} (h : Settles run a) (h' : Settles run b) : a = b := by
  obtain ⟨bound, h⟩ := h
  obtain ⟨bound', h'⟩ := h'
  have heq := h (max bound bound') (Nat.le_max_left _ _)
  rw [h' (max bound bound') (Nat.le_max_right _ _)] at heq
  cases heq
  rfl

end Settles

/-- From some budget on, a run returns a result of which `P` holds. -/
def Eventually (run : Nat → Outcome α) (P : α → Prop) : Prop :=
  ∃ bound, ∀ fuel, bound ≤ fuel → ∃ a, run fuel = .done a ∧ P a

namespace Eventually

variable {run : Nat → Outcome α} {P : α → Prop}

theorem of_add (k : Nat) {a : α} (h : ∀ fuel, run (fuel + k) = .done a) (ha : P a) : Eventually run P := by
  obtain ⟨bound, hbound⟩ := Settles.of_add k h
  exact ⟨bound, fun fuel hfuel => ⟨a, hbound fuel hfuel, ha⟩⟩

/-- A budget of which one unit is spent before. -/
theorem succ {body : Nat → Outcome β} {Q : β → Prop} (h : Eventually body Q)
    (hrun : ∀ fuel b, body fuel = .done b → Q b → ∃ a, run (fuel + 1) = .done a ∧ P a) : Eventually run P := by
  obtain ⟨bound, h⟩ := h
  refine ⟨bound + 1, fun fuel hfuel => ?_⟩
  cases fuel with
  | zero => cases hfuel
  | succ fuel =>
    obtain ⟨b, hb, hQ⟩ := h fuel (Nat.le_of_succ_le_succ hfuel)
    exact hrun fuel b hb hQ

/-- A run that returns spent a unit of its budget on a part that returned. -/
theorem pred {body : Nat → Outcome β} {Q : β → Prop} (h : Eventually run P)
    (hrun : ∀ fuel a, run (fuel + 1) = .done a → P a → ∃ b, body fuel = .done b ∧ Q b) : Eventually body Q := by
  obtain ⟨bound, h⟩ := h
  refine ⟨bound, fun fuel hfuel => ?_⟩
  obtain ⟨a, ha, hP⟩ := h (fuel + 1) (Nat.le_succ_of_le hfuel)
  exact hrun fuel a ha hP

/-- A run that never returns. -/
theorem not_of_never (h : ∀ fuel, ¬ (run fuel).Returns) : ¬ Eventually run P := by
  rintro ⟨bound, hbound⟩
  obtain ⟨a, ha, -⟩ := hbound bound (Nat.le_refl bound)
  exact h bound ⟨a, ha⟩

end Eventually

end Outcome
