import Libchop.Framework.Outcome

/-!
# Runs of a machine

A machine answers a list of requests one by one, and stops where a request makes it fail.  A
specification says which replies are right, and how each one changes what the machine stands for.
A machine that is right in every step is right in every run.
-/

namespace Refinement

variable {Op Reply σ μ : Type}

/-- The replies to a list of requests, and the state they lead to. -/
def run (step : σ → Op → Outcome (Reply × σ)) : σ → List Op → Outcome (List Reply × σ)
  | s, [] => .done ([], s)
  | s, op :: ops =>
    step s op >>= fun first =>
      run step first.2 ops >>= fun rest => .done (first.1 :: rest.1, rest.2)

/-- Each request meets its condition in the state it is made in. -/
def Admissible (step : σ → Op → Outcome (Reply × σ)) (ok : σ → Op → Prop) : σ → List Op → Prop
  | _, [] => True
  | s, op :: ops =>
    ok s op ∧ ∀ reply s', step s op = .done (reply, s') → Admissible step ok s' ops

instance decidableAdmissible (step : σ → Op → Outcome (Reply × σ)) (ok : σ → Op → Prop)
    [∀ s op, Decidable (ok s op)] : ∀ s ops, Decidable (Admissible step ok s ops)
  | _, [] => .isTrue trivial
  | s, op :: ops =>
    match h : step s op with
    | .done (reply, s') =>
      have := decidableAdmissible step ok s' ops
      decidable_of_iff (ok s op ∧ Admissible step ok s' ops) (by simp [Admissible, h])
    | .abort => decidable_of_iff (ok s op) (by simp [Admissible, h])
    | .outOfFuel => decidable_of_iff (ok s op) (by simp [Admissible, h])

/-- A specification allows these replies to the requests. -/
def Allows (spec : μ → Op → Reply → μ → Prop) : μ → List Op → List Reply → μ → Prop
  | m, [], [], m' => m = m'
  | m, op :: ops, reply :: replies, m' =>
    ∃ between, spec m op reply between ∧ Allows spec between ops replies m'
  | _, _, _, _ => False

variable {step : σ → Op → Outcome (Reply × σ)} {dom : Op → Prop} {ok : σ → Op → Prop}
  {spec : μ → Op → Reply → μ → Prop} {R : μ → σ → Prop}

theorem run_cons {s s' s'' : σ} {op : Op} {ops : List Op} {reply : Reply} {replies : List Reply}
    (h : step s op = .done (reply, s')) (hrest : run step s' ops = .done (replies, s'')) :
    run step s (op :: ops) = .done (reply :: replies, s'') := by
  simp only [run, h, hrest, Outcome.done_bind]

section Steps

variable (hstep : ∀ m s op, dom op → R m s → ok s op →
  ∃ reply s' m', step s op = .done (reply, s') ∧ spec m op reply m' ∧ R m' s')

include hstep

/-- A machine whose steps keep a relation to what it stands for returns from every admissible run,
with replies that the specification allows. -/
theorem run_refines {m : μ} {s : σ} {ops : List Op} (hdom : ∀ op ∈ ops, dom op) (hR : R m s)
    (hops : Admissible step ok s ops) :
    ∃ replies s' m', run step s ops = .done (replies, s') ∧ Allows spec m ops replies m' ∧
      R m' s' := by
  induction ops generalizing m s with
  | nil => exact ⟨[], s, m, rfl, rfl, hR⟩
  | cons op ops ih =>
    obtain ⟨hop, hdom⟩ := List.forall_mem_cons.mp hdom
    obtain ⟨hok, hrest⟩ := hops
    obtain ⟨reply, s', m', hreply, hspec, hR'⟩ := hstep m s op hop hR hok
    obtain ⟨replies, s'', m'', hrun, hallows, hR''⟩ := ih hdom hR' (hrest reply s' hreply)
    exact ⟨reply :: replies, s'', m'', run_cons hreply hrun, ⟨m', hspec, hallows⟩, hR''⟩

/-- A run is right just when each of its requests meets the condition under which a step is. -/
theorem run_refines_iff
    (hinv : ∀ m s op reply s' m', dom op → R m s → step s op = .done (reply, s') →
      spec m op reply m' → ok s op ∧ R m' s')
    {m : μ} {s : σ} {ops : List Op} (hdom : ∀ op ∈ ops, dom op) (hR : R m s) :
    (∃ replies s' m', run step s ops = .done (replies, s') ∧ Allows spec m ops replies m') ↔
      Admissible step ok s ops := by
  constructor
  · intro h
    induction ops generalizing m s with
    | nil => trivial
    | cons op ops ih =>
      obtain ⟨hop, hdom⟩ := List.forall_mem_cons.mp hdom
      obtain ⟨replies, s'', m'', hrun, hallows⟩ := h
      obtain ⟨⟨reply, s'⟩, hreply, hrun⟩ := Outcome.bind_eq_done.mp hrun
      obtain ⟨⟨rest, s₂⟩, hrest, hrun⟩ := Outcome.bind_eq_done.mp hrun
      cases hrun
      obtain ⟨m', hspec, hallows⟩ := hallows
      obtain ⟨hok, hR'⟩ := hinv m s op reply s' m' hop hR hreply hspec
      refine ⟨hok, ?_⟩
      intro reply₂ s₂' hreply₂
      rw [hreply] at hreply₂
      cases hreply₂
      exact ih hdom hR' ⟨rest, s₂, m'', hrest, hallows⟩
  · intro hops
    obtain ⟨replies, s', m', hrun, hallows, -⟩ := run_refines hstep hdom hR hops
    exact ⟨replies, s', m', hrun, hallows⟩

end Steps

/-- A condition that does not depend on the state holds of all requests of an admissible run. -/
theorem admissible_iff_forall {p : Op → Prop}
    (hstep : ∀ m s op, dom op → R m s → p op →
      ∃ reply s' m', step s op = .done (reply, s') ∧ spec m op reply m' ∧ R m' s')
    {m : μ} {s : σ} {ops : List Op} (hdom : ∀ op ∈ ops, dom op) (hR : R m s) :
    Admissible step (fun _ => p) s ops ↔ ∀ op ∈ ops, p op := by
  induction ops generalizing m s with
  | nil => simp [Admissible]
  | cons op ops ih =>
    obtain ⟨hop, hdom⟩ := List.forall_mem_cons.mp hdom
    rw [Admissible, List.forall_mem_cons]
    refine and_congr_right fun hp => ?_
    obtain ⟨reply, s', m', hreply, -, hR'⟩ := hstep m s op hop hR hp
    constructor
    · exact fun h => (ih hdom hR').mp (h reply s' hreply)
    · intro h reply₂ s₂ hreply₂
      rw [hreply] at hreply₂
      cases hreply₂
      exact (ih hdom hR').mpr h

/-- Every step of a run returns, with a reply that has a property. -/
def Satisfies (step : σ → Op → Outcome (Reply × σ)) (P : σ → Op → Reply → Prop) :
    σ → List Op → Prop
  | _, [] => True
  | s, op :: ops =>
    ∃ reply s', step s op = .done (reply, s') ∧ P s op reply ∧ Satisfies step P s' ops

theorem satisfies_iff_admissible {P : σ → Op → Reply → Prop}
    (hstep : ∀ s op, (∃ reply s', step s op = .done (reply, s') ∧ P s op reply) ↔ ok s op) {s : σ}
    {ops : List Op} : Satisfies step P s ops ↔ Admissible step ok s ops := by
  induction ops generalizing s with
  | nil => exact Iff.rfl
  | cons op ops ih =>
    constructor
    · rintro ⟨reply, s', hreply, hP, hrest⟩
      refine ⟨(hstep s op).mp ⟨reply, s', hreply, hP⟩, ?_⟩
      intro reply₂ s₂ hreply₂
      rw [hreply] at hreply₂
      cases hreply₂
      exact ih.mp hrest
    · rintro ⟨hok, hrest⟩
      obtain ⟨reply, s', hreply, hP⟩ := (hstep s op).mpr hok
      exact ⟨reply, s', hreply, hP, ih.mpr (hrest reply s' hreply)⟩

/-- What every step keeps holds wherever a run leads. -/
theorem run_invariant {I : σ → Prop}
    (hinv : ∀ s op reply s', dom op → I s → step s op = .done (reply, s') → I s')
    {s s' : σ} {ops : List Op} {replies : List Reply} (hdom : ∀ op ∈ ops, dom op) (hs : I s)
    (hrun : run step s ops = .done (replies, s')) : I s' := by
  induction ops generalizing s replies with
  | nil =>
    cases hrun
    exact hs
  | cons op ops ih =>
    obtain ⟨hop, hdom⟩ := List.forall_mem_cons.mp hdom
    obtain ⟨⟨reply, between⟩, hreply, hrun⟩ := Outcome.bind_eq_done.mp hrun
    obtain ⟨⟨rest, after⟩, hrest, hrun⟩ := Outcome.bind_eq_done.mp hrun
    cases hrun
    exact ih hdom (hinv s op reply between hop hs hreply) hrest

/-- What every step keeps that meets its condition holds wherever an admissible run leads. -/
theorem run_invariant_of_admissible {I : σ → Prop}
    (hinv : ∀ s op reply s', ok s op → I s → step s op = .done (reply, s') → I s')
    {s s' : σ} {ops : List Op} {replies : List Reply} (hops : Admissible step ok s ops) (hs : I s)
    (hrun : run step s ops = .done (replies, s')) : I s' := by
  induction ops generalizing s replies with
  | nil =>
    cases hrun
    exact hs
  | cons op ops ih =>
    obtain ⟨hok, hnext⟩ := hops
    obtain ⟨⟨reply, between⟩, hreply, hrun⟩ := Outcome.bind_eq_done.mp hrun
    obtain ⟨⟨rest, after⟩, hrest, hrun⟩ := Outcome.bind_eq_done.mp hrun
    cases hrun
    exact ih (hnext reply between hreply) (hinv s op reply between hok hs hreply) hrest

/-- What each reply says of the state after it, and later steps keep, holds where a run leads. -/
theorem run_lasting {I : σ → Prop} {P : Op → Reply → σ → Prop}
    (hstep : ∀ s op reply s', dom op → I s → step s op = .done (reply, s') →
      I s' ∧ P op reply s' ∧ ∀ op₀ reply₀, P op₀ reply₀ s → P op₀ reply₀ s')
    {s s' : σ} {ops : List Op} {replies : List Reply} (hdom : ∀ op ∈ ops, dom op) (hs : I s)
    (hrun : run step s ops = .done (replies, s')) {i : Nat} {op : Op} {reply : Reply}
    (hop : ops[i]? = some op) (hreply : replies[i]? = some reply) : P op reply s' := by
  induction ops generalizing s replies i with
  | nil => cases hop
  | cons first ops ih =>
    obtain ⟨hfirst, hdom⟩ := List.forall_mem_cons.mp hdom
    obtain ⟨⟨answer, between⟩, hanswer, hrun⟩ := Outcome.bind_eq_done.mp hrun
    obtain ⟨⟨rest, after⟩, hrest, hrun⟩ := Outcome.bind_eq_done.mp hrun
    cases hrun
    obtain ⟨hbetween, hP, -⟩ := hstep s first answer between hfirst hs hanswer
    cases i with
    | zero =>
      have hsame : answer = reply := Option.some.inj hreply
      rw [Option.some.inj hop, hsame] at hP
      have hinv : ∀ s later answer s', dom later → I s ∧ P op reply s →
          step s later = .done (answer, s') → I s' ∧ P op reply s' := by
        intro s later answer s' hlater hs hanswer
        obtain ⟨hs', -, hkeep⟩ := hstep s later answer s' hlater hs.1 hanswer
        exact ⟨hs', hkeep op reply hs.2⟩
      exact (run_invariant hinv hdom ⟨hbetween, hP⟩ hrest).2
    | succ i => exact ih hdom hbetween hrest hop hreply

/-- A run, seen from one of its steps. -/
theorem run_at {s s' : σ} {ops : List Op} {replies : List Reply}
    (hrun : run step s ops = .done (replies, s')) {i : Nat} {op : Op} (hop : ops[i]? = some op) :
    ∃ between reply after rest, run step s (ops.take i) = .done (replies.take i, between) ∧
      step between op = .done (reply, after) ∧ replies[i]? = some reply ∧
      run step after (ops.drop (i + 1)) = .done (rest, s') := by
  induction ops generalizing s replies i with
  | nil => cases hop
  | cons first ops ih =>
    obtain ⟨⟨answer, next⟩, hanswer, hrun⟩ := Outcome.bind_eq_done.mp hrun
    obtain ⟨⟨rest, last⟩, hrest, hrun⟩ := Outcome.bind_eq_done.mp hrun
    cases hrun
    cases i with
    | zero =>
      cases hop
      exact ⟨s, answer, next, rest, rfl, hanswer, rfl, hrest⟩
    | succ i =>
      obtain ⟨between, reply, after, rest', hbefore, hstep, hreply, hafter⟩ := ih hrest hop
      exact ⟨between, reply, after, rest', run_cons hanswer hbefore, hstep, hreply, hafter⟩

/-- A machine answers as another one if each of its steps is a step of that one, in states that it maps
to. -/
theorem run_map {τ : Type} {step' : τ → Op → Outcome (Reply × τ)} {f : σ → τ}
    (hstep : ∀ s op reply s', step s op = .done (reply, s') → step' (f s) op = .done (reply, f s'))
    {s s' : σ} {ops : List Op} {replies : List Reply} (hrun : run step s ops = .done (replies, s')) :
    run step' (f s) ops = .done (replies, f s') := by
  induction ops generalizing s replies with
  | nil =>
    cases hrun
    rfl
  | cons op ops ih =>
    obtain ⟨⟨reply, between⟩, hreply, hrun⟩ := Outcome.bind_eq_done.mp hrun
    obtain ⟨⟨rest, after⟩, hrest, hrun⟩ := Outcome.bind_eq_done.mp hrun
    cases hrun
    exact run_cons (hstep s op reply between hreply) (ih hrest)

/-- Each request meets its condition in the state it is made in, which is what the steps before it
settle to. -/
def Meets (step : Nat → σ → Op → Outcome (Reply × σ)) (ok : σ → Op → Prop) : σ → List Op → Prop
  | _, [] => True
  | s, op :: ops => ok s op ∧ ∀ reply s',
      Outcome.Settles (fun fuel => step fuel s op) (reply, s') → Meets step ok s' ops

theorem settles_cons {step : Nat → σ → Op → Outcome (Reply × σ)} {s s' s'' : σ} {op : Op} {ops : List Op}
    {reply : Reply} {replies : List Reply}
    (hfirst : Outcome.Settles (fun fuel => step fuel s op) (reply, s'))
    (hrest : Outcome.Settles (fun fuel => run (step fuel) s' ops) (replies, s'')) :
    Outcome.Settles (fun fuel => run (step fuel) s (op :: ops)) (reply :: replies, s'') :=
  hfirst.bind (hrest.bind (.of_eq fun _ => rfl))

theorem settles_of_cons {step : Nat → σ → Op → Outcome (Reply × σ)} {s s' s'' : σ} {op : Op}
    {ops : List Op} {reply : Reply} {replies : List Reply}
    (hfirst : Outcome.Settles (fun fuel => step fuel s op) (reply, s'))
    (hrun : Outcome.Settles (fun fuel => run (step fuel) s (op :: ops)) (replies, s'')) :
    ∃ rest, replies = reply :: rest ∧
      Outcome.Settles (fun fuel => run (step fuel) s' ops) (rest, s'') := by
  obtain ⟨bound, hfirst⟩ := hfirst
  obtain ⟨bound', hrun⟩ := hrun
  have hdone : ∀ fuel, max bound bound' ≤ fuel → ∃ rest, replies = reply :: rest ∧
      run (step fuel) s' ops = .done (rest, s'') := by
    intro fuel hfuel
    have hstep : step fuel s op = .done (reply, s') := hfirst fuel (by omega)
    obtain ⟨_, hstep', hrun⟩ := Outcome.bind_eq_done.mp (hrun fuel (by omega))
    rw [hstep] at hstep'
    cases hstep'
    obtain ⟨⟨rest, _⟩, hrest, hrun⟩ := Outcome.bind_eq_done.mp hrun
    cases hrun
    exact ⟨rest, rfl, hrest⟩
  obtain ⟨rest, hrest, -⟩ := hdone _ (Nat.le_refl _)
  refine ⟨rest, hrest, max bound bound', fun fuel hfuel => ?_⟩
  obtain ⟨rest', hrest', hrun'⟩ := hdone fuel hfuel
  rw [hrest] at hrest'
  cases hrest'
  exact hrun'

/-- A machine whose steps return with enough fuel, if they meet their condition. -/
theorem run_settles {step : Nat → σ → Op → Outcome (Reply × σ)}
    (hstep : ∀ m s op, R m s → ok s op → ∃ reply s' m',
      Outcome.Settles (fun fuel => step fuel s op) (reply, s') ∧ spec m op reply m' ∧ R m' s')
    {m : μ} {s : σ} {ops : List Op} (hR : R m s) (hops : Meets step ok s ops) :
    ∃ replies s' m', Outcome.Settles (fun fuel => run (step fuel) s ops) (replies, s') ∧
      Allows spec m ops replies m' ∧ R m' s' := by
  induction ops generalizing m s with
  | nil => exact ⟨[], s, m, .of_eq fun _ => rfl, rfl, hR⟩
  | cons op ops ih =>
    obtain ⟨hok, hnext⟩ := hops
    obtain ⟨reply, s', m', hreply, hspec, hR'⟩ := hstep m s op hR hok
    obtain ⟨replies, s'', m'', hrun, hallows, hR''⟩ := ih hR' (hnext reply s' hreply)
    exact ⟨reply :: replies, s'', m'', settles_cons hreply hrun, ⟨m', hspec, hallows⟩, hR''⟩

/-- The replies to a run are right just when each of its requests meets the condition under which the
reply to it is. -/
theorem run_settles_iff {step : Nat → σ → Op → Outcome (Reply × σ)}
    (hstep : ∀ m s op, dom op → R m s → ∃ reply s',
      Outcome.Settles (fun fuel => step fuel s op) (reply, s') ∧
        (ok s op → ∃ m', spec m op reply m') ∧ ∀ m', spec m op reply m' → ok s op ∧ R m' s')
    {m : μ} {s : σ} {ops : List Op} (hdom : ∀ op ∈ ops, dom op) (hR : R m s) :
    (∃ replies s' m', Outcome.Settles (fun fuel => run (step fuel) s ops) (replies, s') ∧
        Allows spec m ops replies m') ↔ Meets step ok s ops := by
  induction ops generalizing m s with
  | nil => exact iff_of_true ⟨[], s, m, .of_eq fun _ => rfl, rfl⟩ trivial
  | cons op ops ih =>
    obtain ⟨hop, hdom⟩ := List.forall_mem_cons.mp hdom
    obtain ⟨reply, s', hreply, hright, hinv⟩ := hstep m s op hop hR
    constructor
    · rintro ⟨replies, s'', m'', hrun, hallows⟩
      obtain ⟨rest, rfl, hrest⟩ := settles_of_cons hreply hrun
      obtain ⟨m', hspec, hallows⟩ := hallows
      obtain ⟨hok, hR'⟩ := hinv m' hspec
      refine ⟨hok, fun reply₂ s₂ hreply₂ => ?_⟩
      cases hreply.unique hreply₂
      exact (ih hdom hR').mp ⟨rest, s'', m'', hrest, hallows⟩
    · rintro ⟨hok, hnext⟩
      obtain ⟨m', hspec⟩ := hright hok
      obtain ⟨-, hR'⟩ := hinv m' hspec
      obtain ⟨replies, s'', m'', hrun, hallows⟩ := (ih hdom hR').mpr (hnext reply s' hreply)
      exact ⟨reply :: replies, s'', m'', settles_cons hreply hrun, m', hspec, hallows⟩

/-- Requests that meet the condition wherever the machine is right meet it in a run. -/
theorem Meets.of_forall {step : Nat → σ → Op → Outcome (Reply × σ)}
    (hstep : ∀ m s op, R m s → ok s op → ∃ reply s' m',
      Outcome.Settles (fun fuel => step fuel s op) (reply, s') ∧ spec m op reply m' ∧ R m' s')
    (hok : ∀ m s op, dom op → R m s → ok s op) {m : μ} {s : σ} {ops : List Op} (hR : R m s)
    (hdom : ∀ op ∈ ops, dom op) : Meets step ok s ops := by
  induction ops generalizing m s with
  | nil => trivial
  | cons op ops ih =>
    obtain ⟨hop, hdom⟩ := List.forall_mem_cons.mp hdom
    have hfirst := hok m s op hop hR
    refine ⟨hfirst, fun reply s' hsettles => ?_⟩
    obtain ⟨reply', s'', m', hsettles', -, hR'⟩ := hstep m s op hR hfirst
    cases hsettles.unique hsettles'
    exact ih hR' hdom

section Alongside

variable {τ Reply' : Type} {step' : τ → Op → Outcome (Reply' × τ)}
  {P : σ → τ → Op → Reply × σ → Reply' × τ → Prop}

/-- Two machines answer the same requests, step by step with results that belong together. -/
def Alongside (step : σ → Op → Outcome (Reply × σ)) (step' : τ → Op → Outcome (Reply' × τ))
    (P : σ → τ → Op → Reply × σ → Reply' × τ → Prop) : σ → τ → List Op → Prop
  | _, _, [] => True
  | s, t, op :: ops =>
    ∃ first first', step s op = .done first ∧ step' t op = .done first' ∧
      P s t op first first' ∧ Alongside step step' P first.2 first'.2 ops

/-- The machines stay together just when all requests meet the condition under which a step keeps
them together. -/
theorem alongside_iff {R : σ → τ → Prop} {p : Op → Prop}
    (hkeep : ∀ s t op first first', P s t op first first' → R first.2 first'.2)
    (hstep : ∀ s t op, R s t → ok s op →
      ((∃ first first', step s op = .done first ∧ step' t op = .done first' ∧
        P s t op first first') ↔ p op))
    {s : σ} {t : τ} {ops : List Op} (hR : R s t) (hops : Admissible step ok s ops) :
    Alongside step step' P s t ops ↔ ∀ op ∈ ops, p op := by
  induction ops generalizing s t with
  | nil => simp [Alongside]
  | cons op ops ih =>
    obtain ⟨hok, hrest⟩ := hops
    rw [List.forall_mem_cons]
    constructor
    · rintro ⟨first, first', hfirst, hfirst', hP, halong⟩
      refine ⟨(hstep s t op hR hok).mp ⟨first, first', hfirst, hfirst', hP⟩, ?_⟩
      exact (ih (hkeep s t op first first' hP) (hrest first.1 first.2 hfirst)).mp halong
    · rintro ⟨hp, hall⟩
      obtain ⟨first, first', hfirst, hfirst', hP⟩ := (hstep s t op hR hok).mpr hp
      refine ⟨first, first', hfirst, hfirst', hP, ?_⟩
      exact (ih (hkeep s t op first first' hP) (hrest first.1 first.2 hfirst)).mpr hall

end Alongside

end Refinement
