import Libchop.Framework.Outcome

/-!
# Iteration

A client starts an iterator, takes what it points to, and moves it on until it reports something
else than success.
-/

namespace Iteration

variable {It κ ε : Type} (next : It → Outcome (Except ε Unit × It)) (key : It → κ)

/-- The keys a client sees from a first result on, how the loop ends, and the iterator it leaves. -/
def traverse : Nat → Except ε Unit × It → Outcome (List κ × ε × It)
  | 0, _ => .outOfFuel
  | _ + 1, (.error e, it) => .done ([], e, it)
  | fuel + 1, (.ok (), it) =>
    next it >>= fun moved =>
      traverse fuel moved >>= fun rest => .done (key it :: rest.1, rest.2)

/-- Move the iterator a number of times, whatever it reports. -/
def nextAgain : Nat → It → Outcome (List (Except ε Unit))
  | 0, _ => .done []
  | count + 1, it =>
    next it >>= fun moved =>
      nextAgain count moved.2 >>= fun rest => .done (moved.1 :: rest)

/-- From a first result on the iterator points to these keys in turn, and then reports the end. -/
def Enumerates (last : ε) (Ended : It → Prop) : Except ε Unit × It → List κ → Prop
  | first, [] => first.1 = .error last ∧ Ended first.2
  | first, k :: ks =>
    first.1 = .ok () ∧ key first.2 = k ∧
      ∃ moved, next first.2 = .done moved ∧ Enumerates last Ended moved ks

variable {next key}

theorem traverse_enumerates {last : ε} {Ended : It → Prop} {first : Except ε Unit × It}
    {ks : List κ} (h : Enumerates next key last Ended first ks) {fuel : Nat}
    (hfuel : ks.length < fuel) :
    ∃ it, traverse next key fuel first = .done (ks, last, it) ∧ Ended it := by
  induction ks generalizing first fuel with
  | nil =>
    obtain ⟨fuel, rfl⟩ := Nat.exists_eq_succ_of_ne_zero (Nat.ne_of_gt hfuel)
    obtain ⟨status, it⟩ := first
    obtain ⟨hlast, hended⟩ := h
    cases hlast
    exact ⟨it, rfl, hended⟩
  | cons k ks ih =>
    obtain ⟨fuel, rfl⟩ := Nat.exists_eq_succ_of_ne_zero (Nat.ne_of_gt (Nat.zero_lt_of_lt hfuel))
    obtain ⟨status, it⟩ := first
    obtain ⟨hok, hkey, moved, hmoved, hrest⟩ := h
    obtain ⟨it', htraverse, hended⟩ := ih hrest (Nat.lt_of_succ_lt_succ hfuel)
    cases hok
    refine ⟨it', ?_, hended⟩
    rw [traverse, hmoved, Outcome.done_bind, htraverse, Outcome.done_bind]
    exact congrArg (fun k => Outcome.done (k :: ks, last, it')) hkey

/-- An iterator that stays at the end reports it each time it is moved. -/
theorem nextAgain_of_ended {last : ε} {Ended : It → Prop}
    (hended : ∀ it, Ended it → ∃ it', next it = .done (.error last, it') ∧ Ended it') {it : It}
    (h : Ended it) (count : Nat) :
    nextAgain next count it = .done (List.replicate count (.error last)) := by
  induction count generalizing it with
  | zero => rfl
  | succ count ih =>
    obtain ⟨it', hnext, hit'⟩ := hended it h
    rw [nextAgain, hnext, Outcome.done_bind, ih hit', Outcome.done_bind]
    rfl

end Iteration
