import Libchop.Basic

/-!
# The initialization of objects

`chop_object_initialize` collects the ancestors of a class in an array and runs their constructors from the last of
them to the first, and then the one of the class.
-/

namespace Libchop

/-- The classes, each with its parent and its constructor, which is given an object and the class that the object
is made for. -/
structure ClassTable (K O : Type) where
  parent : K → Option K
  constructor : K → Option (O → K → Status × O)

/-- What is observed of `chop_object_initialize`: the classes whose constructors it calls, how many entries of
`parents` it fills and which ones it reads. -/
structure InitializeTrace (K : Type) where
  calls : List K
  filled : Nat
  reads : List Int

section Model

variable {K O : Type} [DecidableEq K] (classes : ClassTable K O) (setKlass : O → K → O)

/-- The loop that fills `parents`, which has 256 entries.  The parent of `chop_class_class` is itself. -/
def collectParents : Nat → Option K → List K → Outcome (List K)
  | 0, _, _ => .outOfFuel
  | _ + 1, none, parents => .done parents
  | fuel + 1, some parent, parents =>
    Outcome.assert (parents.length < 256) >>= fun _ =>
      if classes.parent parent = some parent then .done (parents ++ [parent])
      else collectParents fuel (classes.parent parent) (parents ++ [parent])

/-- The constructor of one class, unless it is null, for an object of a class. -/
def construct (klass parent : K) (object : O) : Status × O × List K :=
  match classes.constructor parent with
  | none => (.ok (), object, [])
  | some constructor =>
    let (err, object) := constructor object klass
    (err, object, [parent])

/-- The loop over the first entries of `parents`, from the last of them on.  Before it ends, it reads the entry
below the first one. -/
def constructLoop (parents : List K) (klass : K) : (parentcnt : Nat) → parentcnt ≤ parents.length → O →
    InitializeTrace K → Status × O × InitializeTrace K
  | 0, _, object, trace => (.ok (), object, trace)
  | parentcnt + 1, h, object, trace =>
    let (err, object, calls) := construct classes klass (parents.get ⟨parentcnt, h⟩) object
    let trace := { trace with calls := trace.calls ++ calls }
    match err with
    | .error err => (.error err, object, trace)
    | .ok _ =>
      constructLoop parents klass parentcnt (Nat.le_of_succ_le h) object
        { trace with reads := trace.reads ++ [(parentcnt : Int) - 1] }

def chopObjectInitialize (fuel : Nat) (object : O) (klass : K) :
    Outcome (Status × O × InitializeTrace K) :=
  collectParents classes fuel (classes.parent klass) [] >>= fun parents =>
    let (err, object, trace) :=
      if parents.length > 0 then
        constructLoop classes parents klass parents.length (Nat.le_refl _) object
          ⟨[], parents.length, [(parents.length : Int) - 1]⟩
      else (.ok (), object, ⟨[], parents.length, []⟩)
    match err with
    | .error err => .done (.error err, object, trace)
    | .ok _ =>
      let (_, object, calls) := construct classes klass klass object
      .done (.ok (), setKlass object klass, { trace with calls := trace.calls ++ calls })

/-- The classes from a class up to its root. -/
inductive Lineage : K → List K → Prop
  | root {klass : K} (h : classes.parent klass = none ∨ classes.parent klass = some klass) :
      Lineage klass [klass]
  | child {klass parent : K} {chain : List K} (h : classes.parent klass = some parent) (hne : parent ≠ klass)
      (rest : Lineage parent chain) : Lineage klass (klass :: chain)

/-- Constructors are run in order up to the first one that fails. -/
def constructInOrder (klass : K) : List K → O → Status × O × List K
  | [], object => (.ok (), object, [])
  | parent :: rest, object =>
    match construct classes klass parent object with
    | (.error err, object, calls) => (.error err, object, calls)
    | (.ok _, object, calls) =>
      let (err, object, calls') := constructInOrder klass rest object
      (err, object, calls ++ calls')

def ConstructorFails (klass : K) (order : List K) (object : O) : Prop :=
  (constructInOrder classes klass order object).1 ≠ .ok ()

/-- The constructors of a chain are run once, from the root on and up to the first one that fails, whose error is
returned. -/
def InitializesInOrder (object : O) (klass : K) (chain : List K) : Prop :=
  ∃ err object' trace,
    Outcome.Settles (fun fuel => chopObjectInitialize classes setKlass fuel object klass) (err, object', trace) ∧
    err = (constructInOrder classes klass chain.reverse object).1 ∧
    trace.calls = (constructInOrder classes klass chain.reverse object).2.2

def ReadsFilled (object : O) (klass : K) : Prop :=
  ∃ err object' trace,
    Outcome.Settles (fun fuel => chopObjectInitialize classes setKlass fuel object klass) (err, object', trace) ∧
    ∀ i ∈ trace.reads, 0 ≤ i ∧ i < trace.filled

/-- The entries that are filled: the chain without the class, unless it is its own parent. -/
def parentsOf (klass : K) (chain : List K) : List K :=
  if classes.parent klass = some klass then chain else chain.tail

end Model

section Correctness

variable {K O : Type} [DecidableEq K] {classes : ClassTable K O} {setKlass : O → K → O} {klass : K}
  {chain parents : List K} {object : O}

omit [DecidableEq K] in
theorem parent_ne_self {parent : K} (h : classes.parent klass = some parent) (hne : parent ≠ klass) :
    classes.parent klass ≠ some klass := by
  rw [h]
  exact fun heq => hne (Option.some.inj heq)

/-- The ancestors of a class, and the class itself, are appended to the entries. -/
theorem Lineage.collect (h : Lineage classes klass chain) (hfits : parents.length + chain.length ≤ 256) :
    Outcome.Settles (fun fuel => collectParents classes fuel (some klass) parents) (parents ++ chain) := by
  induction h generalizing parents with
  | @root klass h =>
    rw [List.length_singleton] at hfits
    have hroom : parents.length < 256 := by omega
    refine .of_add 2 fun fuel => ?_
    rw [collectParents, Outcome.assert_of hroom, Outcome.done_bind]
    rcases h with hnone | hself
    · rw [hnone, if_neg nofun, collectParents]
    · rw [if_pos hself]
  | @child klass parent chain h hne _ ih =>
    rw [List.length_cons] at hfits
    have hfits' : (parents ++ [klass]).length + chain.length ≤ 256 := by
      rw [List.length_append, List.length_singleton]
      omega
    have hroom : parents.length < 256 := by omega
    have hother := parent_ne_self h hne
    have hrest := ih hfits'
    rw [List.append_assoc, List.singleton_append] at hrest
    refine hrest.succ fun fuel => ?_
    rw [collectParents, Outcome.assert_of hroom, Outcome.done_bind, if_neg hother, h]

/-- Too many ancestors overrun the array. -/
theorem Lineage.not_collect (h : Lineage classes klass chain) (hlong : 256 < parents.length + chain.length)
    (fuel : Nat) (filled : List K) : collectParents classes fuel (some klass) parents ≠ .done filled := by
  induction h generalizing parents fuel with
  | root h =>
    intro hdone
    cases fuel with
    | zero => cases hdone
    | succ fuel =>
      obtain ⟨_, hassert, -⟩ := Outcome.bind_eq_done.mp hdone
      have hroom := Outcome.of_assert hassert
      rw [List.length_singleton] at hlong
      omega
  | @child klass parent chain h hne _ ih =>
    intro hdone
    cases fuel with
    | zero => cases hdone
    | succ fuel =>
      obtain ⟨_, -, hdone⟩ := Outcome.bind_eq_done.mp hdone
      rw [if_neg (parent_ne_self h hne), h] at hdone
      refine ih ?_ fuel hdone
      rw [List.length_append, List.length_singleton]
      rw [List.length_cons] at hlong
      omega

/-- The entries that `chop_object_initialize` fills, if there are not too many. -/
theorem Lineage.collect_parentsOf (h : Lineage classes klass chain) :
    ((parentsOf classes klass chain).length ≤ 256 →
      Outcome.Settles (fun fuel => collectParents classes fuel (classes.parent klass) [])
        (parentsOf classes klass chain)) ∧
    (256 < (parentsOf classes klass chain).length →
      ∀ fuel filled, collectParents classes fuel (classes.parent klass) [] ≠ .done filled) := by
  cases h with
  | root h =>
    rcases hparent : classes.parent klass with _ | parent
    · have hnone : parentsOf classes klass [klass] = [] := by
        rw [parentsOf, hparent, if_neg nofun, List.tail_cons]
      rw [hnone]
      exact ⟨fun _ => .of_add 1 fun _ => rfl, nofun⟩
    · rw [hparent] at h
      obtain rfl : parent = klass := Option.some.inj (h.resolve_left nofun)
      have hself : parentsOf classes parent [parent] = [parent] := by rw [parentsOf, if_pos hparent]
      have hroot : Lineage classes parent [parent] := .root (.inr hparent)
      have hone : ([] : List K).length + [parent].length ≤ 256 := by
        rw [List.length_nil, List.length_singleton]
        omega
      rw [hself]
      exact ⟨fun _ => hroot.collect hone, fun hlong => absurd hlong (Nat.not_lt_of_le hone)⟩
  | @child _ parent chain hparent hne rest =>
    rw [parentsOf, if_neg (parent_ne_self hparent hne), List.tail_cons, hparent]
    constructor
    · intro hfits
      refine rest.collect ?_
      rw [List.length_nil, Nat.zero_add]
      exact hfits
    · intro hlong
      refine rest.not_collect ?_
      rw [List.length_nil, Nat.zero_add]
      exact hlong

omit [DecidableEq K] in
/-- The loop runs the constructors of the entries in reverse order.  If one fails it reads no further, and if none
does it reads below the first entry. -/
theorem constructLoop_spec (classes : ClassTable K O) (klass : K) (object : O) (n : Nat)
    (hn : n ≤ parents.length) (trace : InitializeTrace K) :
    let run := constructLoop classes parents klass n hn object trace
    let order := constructInOrder classes klass (parents.take n).reverse object
    run.1 = order.1 ∧ run.2.1 = order.2.1 ∧ run.2.2.calls = trace.calls ++ order.2.2 ∧
      run.2.2.filled = trace.filled ∧
      (order.1 ≠ .ok () → ∀ i ∈ run.2.2.reads, i ∈ trace.reads ∨ 0 ≤ i ∧ i < n) ∧
      (order.1 = .ok () → 0 < n → -1 ∈ run.2.2.reads) := by
  induction n generalizing object trace with
  | zero => exact ⟨rfl, rfl, (List.append_nil _).symm, rfl, fun _ i hi => .inl hi, fun _ hpos => nomatch hpos⟩
  | succ n ih =>
    have horder : (parents.take (n + 1)).reverse = parents[n] :: (parents.take n).reverse := by
      rw [List.take_succ_eq_append_getElem hn, List.reverse_append, List.reverse_singleton, List.singleton_append]
    rw [horder, constructLoop, constructInOrder]
    simp only [List.get_eq_getElem]
    rcases construct classes klass parents[n] object with ⟨err | _, object', calls⟩
    · exact ⟨rfl, rfl, rfl, rfl, fun _ i hi => .inl hi, nofun⟩
    · obtain ⟨herr, hobject, hcalls, hfilled, hreads, hend⟩ := ih object' (Nat.le_of_succ_le hn)
        ⟨trace.calls ++ calls, trace.filled, trace.reads ++ [(n : Int) - 1]⟩
      refine ⟨herr, hobject, ?_, hfilled, ?_, ?_⟩
      · rw [hcalls, List.append_assoc]
      · intro hfails i hi
        -- Below the first entry there is no constructor left to fail.
        have hpos : 0 < n := by
          refine Nat.pos_of_ne_zero fun hzero => hfails ?_
          rw [hzero, List.take_zero]
          rfl
        rcases hreads hfails i hi with hread | hread
        · refine (List.mem_append.mp hread).imp_right fun hlast => ?_
          have hi := List.mem_singleton.mp hlast
          omega
        · right
          omega
      · intro hok _
        cases n with
        | zero => exact List.mem_append_right _ (List.mem_singleton.mpr rfl)
        | succ n => exact hend hok n.succ_pos

omit [DecidableEq K] in
/-- What the constructors of the entries come to. -/
theorem constructParents_spec (classes : ClassTable K O) (klass : K) (object : O) (parents : List K) :
    ∃ err object' trace, (if parents.length > 0 then
        constructLoop classes parents klass parents.length (Nat.le_refl _) object
          ⟨[], parents.length, [(parents.length : Int) - 1]⟩
      else (.ok (), object, ⟨[], parents.length, []⟩)) = (err, object', trace) ∧
      constructInOrder classes klass parents.reverse object = (err, object', trace.calls) ∧
      trace.filled = parents.length ∧
      ((∀ i ∈ trace.reads, 0 ≤ i ∧ i < trace.filled) ↔ parents = [] ∨ err ≠ .ok ()) := by
  by_cases hparents : parents.length > 0
  case neg =>
    obtain rfl : parents = [] := List.eq_nil_of_length_eq_zero (Nat.eq_zero_of_not_pos hparents)
    exact ⟨.ok (), object, ⟨[], 0, []⟩, if_neg hparents, rfl, rfl, fun _ => .inl rfl, fun _ => nofun⟩
  obtain ⟨herr, hobject, hcalls, hfilled, hreads, hend⟩ :=
    constructLoop_spec classes klass object parents.length (Nat.le_refl _)
      ⟨[], parents.length, [(parents.length : Int) - 1]⟩
  rw [List.take_length] at herr hobject hcalls hreads hend
  refine ⟨_, _, _, if_pos hparents, ?_, hfilled, ?_⟩
  · rw [herr, hobject, hcalls, List.nil_append]
  · have hsome : parents ≠ [] := List.ne_nil_of_length_pos hparents
    rw [herr, hfilled]
    constructor
    · intro hall
      refine .inr fun hok => ?_
      have hlast := hall (-1) (hend hok hparents)
      omega
    · rintro (hnil | hfails)
      · exact absurd hnil hsome
      · intro i hi
        rcases hreads hfails i hi with hfirst | hread
        · have hi := List.mem_singleton.mp hfirst
          dsimp only
          omega
        · exact hread

/-- What `chop_object_initialize` comes to, if its array is large enough. -/
theorem Lineage.initialize (h : Lineage classes klass chain) (setKlass : O → K → O)
    (hfits : (parentsOf classes klass chain).length ≤ 256) (object : O) :
    ∃ err after object' calls trace,
      constructInOrder classes klass (parentsOf classes klass chain).reverse object = (err, object', calls) ∧
      Outcome.Settles (fun fuel => chopObjectInitialize classes setKlass fuel object klass) (err, after, trace) ∧
      trace.calls = calls ++ (if err = .ok () then (construct classes klass klass object').2.2 else []) ∧
      ((∀ i ∈ trace.reads, 0 ≤ i ∧ i < trace.filled) ↔ parentsOf classes klass chain = [] ∨ err ≠ .ok ()) := by
  have hcollect := h.collect_parentsOf.1 hfits
  generalize parentsOf classes klass chain = parents at hcollect
  obtain ⟨err, object', trace, hrun, horder, hfilled, hreads⟩ :=
    constructParents_spec classes klass object parents
  cases err with
  | error err =>
    refine ⟨.error err, object', object', trace.calls, trace, horder, hcollect.bind (.of_eq fun _ => ?_), ?_,
      hreads⟩
    · rw [hrun]
    · rw [if_neg nofun, List.append_nil]
  | ok _ =>
    refine ⟨.ok (), setKlass (construct classes klass klass object').2.1 klass, object', trace.calls,
      { trace with calls := trace.calls ++ (construct classes klass klass object').2.2 }, horder,
      hcollect.bind (.of_eq fun _ => ?_), ?_, hreads⟩
    · rw [hrun]
    · rw [if_pos rfl]

omit [DecidableEq K] in
theorem constructInOrder_concat (classes : ClassTable K O) (klass : K) (object : O) (order : List K) (last : K) :
    constructInOrder classes klass (order ++ [last]) object =
      match constructInOrder classes klass order object with
      | (.error err, object, calls) => (.error err, object, calls)
      | (.ok _, object, calls) =>
        let (err, object, calls') := construct classes klass last object
        (err, object, calls ++ calls') := by
  induction order generalizing object with
  | nil =>
    simp only [List.nil_append, constructInOrder]
    rcases construct classes klass last object with ⟨err | _, object', calls⟩
    · rfl
    · exact congrArg (fun calls => (Except.ok (), object', calls)) (List.append_nil calls)
  | cons first order ih =>
    rw [List.cons_append, constructInOrder, constructInOrder]
    rcases construct classes klass first object with ⟨err | _, object', calls⟩
    · rfl
    · simp only [ih]
      rcases constructInOrder classes klass order object' with ⟨err | _, object'', calls'⟩
      · rfl
      · simp only [List.append_assoc]

theorem Lineage.not_initialize (h : Lineage classes klass chain)
    (hlong : ¬ (parentsOf classes klass chain).length ≤ 256) {result : Status × O × InitializeTrace K} :
    ¬ Outcome.Settles (fun fuel => chopObjectInitialize classes setKlass fuel object klass) result := by
  rintro ⟨bound, hrun⟩
  obtain ⟨filled, hcollect, -⟩ := Outcome.bind_eq_done.mp (hrun bound (Nat.le_refl _))
  exact h.collect_parentsOf.2 (Nat.lt_of_not_le hlong) bound filled hcollect

/-- Only entries that were filled are read just in case the array is large enough, and there are none or a
constructor of them fails. -/
theorem readsFilled_iff (h : Lineage classes klass chain) :
    ReadsFilled classes setKlass object klass ↔
      (parentsOf classes klass chain).length ≤ 256 ∧
        (parentsOf classes klass chain = [] ∨
          ConstructorFails classes klass (parentsOf classes klass chain).reverse object) := by
  by_cases hfits : (parentsOf classes klass chain).length ≤ 256
  case neg =>
    constructor
    · rintro ⟨err, after, trace, hrun, -⟩
      exact absurd hrun (h.not_initialize hfits)
    · exact fun hcond => absurd hcond.1 hfits
  obtain ⟨err, after, object', calls, trace, horder, hrun, -, hreads⟩ := h.initialize setKlass hfits object
  rw [ConstructorFails, horder]
  constructor
  · rintro ⟨err', after', trace', hrun', hall⟩
    cases hrun'.unique hrun
    exact ⟨hfits, hreads.mp hall⟩
  · exact fun hcond => ⟨err, after, trace, hrun, hreads.mpr hcond.2⟩

omit [DecidableEq K] in
/-- A class that is its own parent is a root. -/
theorem Lineage.eq_of_self (h : Lineage classes klass chain) (hself : classes.parent klass = some klass) :
    chain = [klass] := by
  cases h with
  | root _ => rfl
  | child hparent hne _ =>
    rw [hself] at hparent
    exact absurd (Option.some.inj hparent).symm hne

omit [DecidableEq K] in
theorem Lineage.eq_cons (h : Lineage classes klass chain) : chain = klass :: chain.tail := by
  cases h with
  | root _ => rfl
  | child _ _ _ => rfl

omit [DecidableEq K] in
theorem construct_calls_eq_nil (parent : K) :
    (construct classes klass parent object).2.2 = [] ↔ classes.constructor parent = none := by
  rw [construct]
  cases classes.constructor parent with
  | none => simp
  | some constructor => simp

/-- The constructors are run in order just in case the array is large enough, the constructor of the class does not
fail where no other one does, and it is not run twice. -/
theorem initializesInOrder_iff (h : Lineage classes klass chain) :
    InitializesInOrder classes setKlass object klass chain ↔
      (parentsOf classes klass chain).length ≤ 256 ∧
        (ConstructorFails classes klass chain.reverse object →
          ConstructorFails classes klass (parentsOf classes klass chain).reverse object) ∧
        (classes.parent klass = some klass →
          classes.constructor klass = none ∨ ConstructorFails classes klass [klass] object) := by
  by_cases hfits : (parentsOf classes klass chain).length ≤ 256
  case neg =>
    constructor
    · rintro ⟨err, after, trace, hrun, -⟩
      exact absurd hrun (h.not_initialize hfits)
    · exact fun hcond => absurd hcond.1 hfits
  obtain ⟨err, after, object', calls, trace, horder, hrun, hcalls, -⟩ := h.initialize setKlass hfits object
  have hinit : InitializesInOrder classes setKlass object klass chain ↔
      err = (constructInOrder classes klass chain.reverse object).1 ∧
        trace.calls = (constructInOrder classes klass chain.reverse object).2.2 := by
    constructor
    · rintro ⟨err', after', trace', hrun', hspec⟩
      cases hrun'.unique hrun
      exact hspec
    · exact fun hspec => ⟨err, after, trace, hrun, hspec⟩
  rw [hinit, hcalls, ConstructorFails, ConstructorFails, ConstructorFails, horder]
  by_cases hself : classes.parent klass = some klass
  case pos =>
    obtain rfl : chain = [klass] := h.eq_of_self hself
    have hparents : parentsOf classes klass [klass] = [klass] := if_pos hself
    rw [hparents, List.reverse_singleton] at horder
    rw [List.reverse_singleton, horder]
    simp only [hself, forall_true_left, hfits, true_and, imp_self]
    by_cases hok : err = .ok ()
    · rw [if_pos hok, List.append_right_eq_self, construct_calls_eq_nil]
      exact (or_iff_left (not_not_intro hok)).symm
    · rw [if_neg hok, List.append_nil]
      exact ⟨fun _ => .inr hok, fun _ => rfl⟩
  case neg =>
    have hparents : parentsOf classes klass chain = chain.tail := if_neg hself
    rw [hparents] at horder hfits ⊢
    have hreverse : chain.reverse = chain.tail.reverse ++ [klass] := by
      rw [h.eq_cons, List.tail_cons, List.reverse_cons]
    have hconcat := constructInOrder_concat classes klass object chain.tail.reverse klass
    rw [← hreverse, horder] at hconcat
    have hnot : classes.parent klass = some klass →
        classes.constructor klass = none ∨ (constructInOrder classes klass [klass] object).1 ≠ .ok () :=
      fun hparent => absurd hparent hself
    cases err with
    | error err =>
      rw [hconcat, if_neg nofun, List.append_nil]
      exact ⟨fun _ => ⟨hfits, fun _ => nofun, hnot⟩, fun _ => ⟨rfl, rfl⟩⟩
    | ok _ =>
      rw [hconcat, if_pos rfl]
      constructor
      · rintro ⟨hown, -⟩
        exact ⟨hfits, fun hfails => absurd hown.symm hfails, hnot⟩
      · rintro ⟨-, hown, -⟩
        have hok := Classical.not_not.mp fun hfails => hown hfails rfl
        exact ⟨hok.symm, rfl⟩

/-- Initialization is correct just in case there are at most 256 entries to fill, a constructor of them fails unless
there are none, and where none of them does the one of the class does not. -/
theorem chopObjectInitialize_correct_iff (h : Lineage classes klass chain) (setKlass : O → K → O) (object : O) :
    (InitializesInOrder classes setKlass object klass chain ↔
      (parentsOf classes klass chain).length ≤ 256 ∧
        (ConstructorFails classes klass chain.reverse object →
          ConstructorFails classes klass (parentsOf classes klass chain).reverse object) ∧
        (classes.parent klass = some klass →
          classes.constructor klass = none ∨ ConstructorFails classes klass [klass] object)) ∧
    (ReadsFilled classes setKlass object klass ↔
      (parentsOf classes klass chain).length ≤ 256 ∧
        (parentsOf classes klass chain = [] ∨
          ConstructorFails classes klass (parentsOf classes klass chain).reverse object)) :=
  ⟨initializesInOrder_iff h, readsFilled_iff h⟩

end Correctness

/-- A class whose constructor fails, below one without a constructor. -/
def failingClass : ClassTable Bool Unit where
  parent klass := if klass then some false else none
  constructor klass := if klass then some fun object _ => (.error (.code 12), object) else none

theorem failingClass_lineage : Lineage failingClass true [true, false] :=
  .child rfl nofun (.root (.inl rfl))

/-- A class below one whose constructor fails. -/
def failingParent : ClassTable Bool Unit where
  parent klass := if klass then some false else none
  constructor klass := if klass then none else some fun object _ => (.error (.code 12), object)

theorem failingParent_lineage : Lineage failingParent true [true, false] :=
  .child rfl nofun (.root (.inl rfl))

def workingClass : ClassTable Bool Unit where
  parent klass := if klass then some false else none
  constructor _ := some fun object _ => (.ok (), object)

theorem workingClass_lineage : Lineage workingClass true [true, false] :=
  .child rfl nofun (.root (.inl rfl))

/-- The error of the constructor of the class is lost, and the one of its parent is returned.  Without an error the
constructors are all run. -/
theorem chopObjectInitialize_correct_iff_failing :
    (¬ InitializesInOrder failingClass (fun object _ => object) () true [true, false] ∧
      ¬ ReadsFilled failingClass (fun object _ => object) () true) ∧
    (InitializesInOrder failingParent (fun object _ => object) () true [true, false] ∧
      ReadsFilled failingParent (fun object _ => object) () true) ∧
    InitializesInOrder workingClass (fun object _ => object) () true [true, false] := by
  have hcorrect := chopObjectInitialize_correct_iff failingClass_lineage (fun object _ => object) ()
  have hparent := chopObjectInitialize_correct_iff failingParent_lineage (fun object _ => object) ()
  have hfails : ConstructorFails failingParent true [false] () := nofun
  have hworking := chopObjectInitialize_correct_iff workingClass_lineage (fun object _ => object) ()
  refine ⟨⟨?_, ?_⟩, ⟨?_, ?_⟩, ?_⟩
  · intro horder
    obtain ⟨-, hfails, -⟩ := hcorrect.1.mp horder
    exact hfails nofun rfl
  · intro hreads
    rcases (hcorrect.2.mp hreads).2 with hnone | hfails
    · cases hnone
    · exact hfails rfl
  · exact hparent.1.mpr ⟨by decide, fun _ => hfails, nofun⟩
  · exact hparent.2.mpr ⟨by decide, .inr hfails⟩
  · exact hworking.1.mpr ⟨by decide, fun hfails => absurd rfl hfails, nofun⟩

/-- The error of the constructor of the class is lost, and the entry below the first one is read. -/
theorem constructor_error_lost : ¬ ∀ (classes : ClassTable Bool Unit) (klass : Bool) (chain : List Bool),
    Lineage classes klass chain → InitializesInOrder classes (fun object _ => object) () klass chain ∧
      ReadsFilled classes (fun object _ => object) () klass := by
  intro h
  obtain ⟨⟨err, after, trace, hrun, herr, -⟩, -⟩ := h failingClass true [true, false] failingClass_lineage
  have hlost : Outcome.Settles
      (fun fuel => chopObjectInitialize failingClass (fun object _ => object) fuel () true)
      (.ok (), (), ⟨[true], 1, [0, -1]⟩) := .of_add 2 fun _ => rfl
  cases hrun.unique hlost
  exact absurd herr (by decide)

end Libchop
