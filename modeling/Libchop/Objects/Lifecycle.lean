import Libchop.Objects.Initialize

/-!
# The destruction of objects

`chop_object_destroy` runs the destructors of the class of an object and of its ancestors, and so undoes what
`chop_object_initialize` did.
-/

namespace Libchop

/-- The classes with what the destruction and the copying of objects use of them. -/
structure ClassRecords (K O : Type) extends ClassTable K O where
  destructor : K → Option (O → O)
  copy : K → Option (O → O → Status × O)
  instanceSize : K → Nat

section Model

variable {K O : Type} (records : ClassRecords K O)

def destruct (klass : K) (object : O) : O × List K :=
  match records.destructor klass with
  | none => (object, [])
  | some destructor => (destructor object, [klass])

def destroyLoop : Nat → Option K → O → Outcome (O × List K)
  | 0, _, _ => .outOfFuel
  | _ + 1, none, object => .done (object, [])
  | fuel + 1, some klass, object =>
    let (object, calls) := destruct records klass object
    destroyLoop fuel (records.parent klass) object >>= fun (object, calls') => .done (object, calls ++ calls')

/-- `chop_object_destroy`, with the classes whose destructors it calls. -/
def chopObjectDestroy (fuel : Nat) (object : O) (klass : K) : Outcome (O × List K) :=
  destroyLoop records fuel (some klass) object

/-- The root of a chain has no parent, so that it is not the one of `chop_class_class`. -/
def Ends (chain : List K) : Prop := ∀ root ∈ chain.getLast?, records.parent root = none

end Model

section Destroy

variable {K O : Type} {records : ClassRecords K O} {klass : K} {chain : List K}

theorem destruct_calls (klass : K) (object : O) :
    (destruct records klass object).2 = [klass].filter fun k => (records.destructor k).isSome := by
  rw [destruct]
  cases h : records.destructor klass with
  | none => simp [h]
  | some destructor => simp [h]

/-- By induction on the chain: the loop goes up to the root. -/
theorem Lineage.destroy (h : Lineage records.toClassTable klass chain) (hends : Ends records chain)
    (object : O) :
    ∃ object', Outcome.Settles (fun fuel => chopObjectDestroy records fuel object klass)
      (object', chain.filter fun k => (records.destructor k).isSome) := by
  induction h generalizing object with
  | @root klass h =>
    have hnone : records.parent klass = none := hends klass rfl
    refine ⟨(destruct records klass object).1, .of_add 2 fun fuel => ?_⟩
    simp only [chopObjectDestroy, destroyLoop, hnone, Outcome.done_bind, List.append_nil, destruct_calls]
  | @child klass parent chain hparent hne rest ih =>
    have hends' : Ends records chain := by
      intro root hroot
      apply hends root
      rw [rest.eq_cons] at hroot ⊢
      rw [List.getLast?_cons_cons]
      exact hroot
    obtain ⟨object', hdestroy⟩ := ih hends' (destruct records klass object).1
    refine ⟨object', ?_⟩
    obtain ⟨bound, hdestroy⟩ := hdestroy
    refine ⟨bound + 1, fun fuel hfuel => ?_⟩
    obtain ⟨fuel, rfl⟩ : ∃ n, fuel = n + 1 := ⟨fuel - 1, by omega⟩
    have hrest : destroyLoop records fuel (some parent) (destruct records klass object).1 =
        .done (object', chain.filter fun k => (records.destructor k).isSome) := hdestroy fuel (by omega)
    show destroyLoop records (fuel + 1) (some klass) object = _
    rw [destroyLoop]
    dsimp only
    rw [hparent, hrest, Outcome.done_bind, destruct_calls]
    dsimp only
    rw [← List.filter_append, List.singleton_append]

/-- At a class that is its own parent, the loop stays. -/
theorem Lineage.destroy_diverges (h : Lineage records.toClassTable klass chain) (hends : ¬ Ends records chain)
    (fuel : Nat) (object : O) : chopObjectDestroy records fuel object klass = .outOfFuel := by
  induction h generalizing fuel object with
  | @root klass h =>
    have hself : records.parent klass = some klass := by
      refine h.resolve_left fun hnone => hends ?_
      intro root hroot
      cases hroot
      exact hnone
    induction fuel generalizing object with
    | zero => rfl
    | succ fuel ih =>
      have hrest := ih (destruct records klass object).1
      rw [chopObjectDestroy] at hrest ⊢
      rw [destroyLoop]
      dsimp only
      rw [hself, hrest, Outcome.outOfFuel_bind]
  | @child klass parent chain hparent hne rest ih =>
    have hends' : ¬ Ends records chain := by
      intro hends'
      apply hends
      intro root hroot
      apply hends' root
      rw [rest.eq_cons] at hroot ⊢
      rw [List.getLast?_cons_cons] at hroot
      exact hroot
    cases fuel with
    | zero => rfl
    | succ fuel =>
      have hrest := ih hends' fuel (destruct records klass object).1
      rw [chopObjectDestroy] at hrest ⊢
      rw [destroyLoop]
      dsimp only
      rw [hparent, hrest, Outcome.outOfFuel_bind]

end Destroy

section Construct

variable {K O : Type} {classes : ClassTable K O} {klass : K}

theorem construct_calls (classes : ClassTable K O) (klass parent : K) (object : O) :
    (construct classes klass parent object).2.2 = [parent].filter fun k => (classes.constructor k).isSome := by
  rw [construct]
  cases h : classes.constructor parent with
  | none => simp [h]
  | some constructor => simp [h]

/-- Constructors that do not fail are all called. -/
theorem constructInOrder_calls {order : List K} {object : O}
    (h : (constructInOrder classes klass order object).1 = .ok ()) :
    (constructInOrder classes klass order object).2.2 =
      order.filter fun k => (classes.constructor k).isSome := by
  induction order generalizing object with
  | nil => rfl
  | cons parent rest ih =>
    have hcalls := construct_calls classes klass parent object
    rw [constructInOrder] at h ⊢
    generalize construct classes klass parent object = run at h hcalls ⊢
    obtain ⟨status, object', calls⟩ := run
    cases status with
    | error err => cases h
    | ok _ =>
      dsimp only at h hcalls ⊢
      rw [ih h, hcalls, ← List.filter_append, List.singleton_append]

/-- An object of a class that is not its own parent was made with all the constructors of the lineage. -/
theorem Lineage.initialize_calls [DecidableEq K] {chain : List K} (h : Lineage classes klass chain)
    (hself : classes.parent klass ≠ some klass) {setKlass : O → K → O} {object object' : O}
    {trace : InitializeTrace K}
    (hinit : Outcome.Settles (fun fuel => chopObjectInitialize classes setKlass fuel object klass)
      (.ok (), object', trace)) :
    trace.calls = chain.reverse.filter fun k => (classes.constructor k).isSome := by
  have hfits : (parentsOf classes klass chain).length ≤ 256 := by
    by_contra hlong
    exact h.not_initialize hlong hinit
  obtain ⟨err, after, between, calls, trace', horder, hrun, hcalls, -⟩ := h.initialize setKlass hfits object
  cases hinit.unique hrun
  rw [parentsOf, if_neg hself] at horder
  have hparents := constructInOrder_calls (congrArg Prod.fst horder)
  rw [horder] at hparents
  dsimp only at hparents
  rw [if_pos rfl, construct_calls, hparents, ← List.filter_append, ← List.reverse_cons, ← h.eq_cons] at hcalls
  exact hcalls

end Construct

/-- An object that was initialized: its destruction ends if and only if the root of its class has no parent, and
goes on for ever at a class that is its own parent.  When it ends, it has called the destructors of the lineage, those
of the classes whose constructors were called in the reverse order of these. -/
theorem chopObjectDestroy_undoes_iff {K O : Type} [DecidableEq K] {records : ClassRecords K O} {klass : K}
    {chain : List K} (h : Lineage records.toClassTable klass chain) {setKlass : O → K → O} {object object' : O}
    {trace : InitializeTrace K}
    (hinit : Outcome.Settles (fun fuel => chopObjectInitialize records.toClassTable setKlass fuel object klass)
      (.ok (), object', trace)) :
    ((∃ fuel, (chopObjectDestroy records fuel object' klass).Returns) ↔ Ends records chain) ∧
    (¬ Ends records chain → ∀ fuel, chopObjectDestroy records fuel object' klass = .outOfFuel) ∧
    (Ends records chain → ∃ object'' calls,
      Outcome.Settles (fun fuel => chopObjectDestroy records fuel object' klass) (object'', calls) ∧
      calls = chain.filter (fun k => (records.destructor k).isSome) ∧
      calls.filter (fun k => (records.constructor k).isSome) =
        trace.calls.reverse.filter fun k => (records.destructor k).isSome) := by
  refine ⟨⟨?_, ?_⟩, fun hends fuel => h.destroy_diverges hends fuel object', ?_⟩
  · rintro ⟨fuel, result, hdestroy⟩
    by_contra hends
    rw [h.destroy_diverges hends] at hdestroy
    cases hdestroy
  · intro hends
    obtain ⟨object'', bound, hdestroy⟩ := h.destroy hends object'
    exact ⟨bound, _, hdestroy bound (Nat.le_refl bound)⟩
  · intro hends
    obtain ⟨object'', hdestroy⟩ := h.destroy hends object'
    refine ⟨object'', _, hdestroy, rfl, ?_⟩
    have hself : records.parent klass ≠ some klass := by
      intro hself
      rw [h.eq_of_self hself] at hends
      have hnone := hends klass rfl
      rw [hself] at hnone
      cases hnone
    have hcalls : trace.calls.reverse = chain.filter fun k => (records.constructor k).isSome := by
      rw [h.initialize_calls hself hinit, List.filter_reverse, List.reverse_reverse]
    rw [hcalls]
    rw [List.filter_filter, List.filter_filter]
    exact List.filter_congr fun k _ => Bool.and_comm _ _

/-- Some classes of the library. -/
inductive SampleKlass where
  | object
  | blockStore
  | gdbmBlockStore
deriving DecidableEq

/-- The class of GDBM stores has a destructor and no constructor. -/
def storeRecords : ClassRecords SampleKlass (List String) where
  parent
    | .object => none
    | .blockStore => some .object
    | .gdbmBlockStore => some .blockStore
  constructor
    | .object => some fun object _ => (.ok (), "_object_primitive_init" :: object)
    | .blockStore => some fun object _ => (.ok (), "store_ctor" :: object)
    | .gdbmBlockStore => none
  destructor
    | .object => some fun object => "_object_primitive_destroy" :: object
    | .blockStore => some fun object => "store_dtor" :: object
    | .gdbmBlockStore => some fun object => "gdbm_dtor" :: object
  copy _ := none
  instanceSize _ := 0

theorem storeRecords_undone : ∃ object'' calls,
    Outcome.Settles (fun fuel => chopObjectDestroy storeRecords fuel ["store_ctor", "_object_primitive_init"]
      .gdbmBlockStore) (object'', calls) ∧
    calls = [.gdbmBlockStore, .blockStore, .object] ∧
    calls.filter (fun k => (storeRecords.constructor k).isSome) = [.blockStore, .object] := by
  have hlineage : Lineage storeRecords.toClassTable .gdbmBlockStore [.gdbmBlockStore, .blockStore, .object] :=
    .child rfl nofun (.child rfl nofun (.root (.inl rfl)))
  have hinit : Outcome.Settles (fun fuel => chopObjectInitialize storeRecords.toClassTable
      (fun object _ => object) fuel [] .gdbmBlockStore)
      (.ok (), ["store_ctor", "_object_primitive_init"], ⟨[.object, .blockStore], 2, [1, 0, -1]⟩) :=
    .of_add 3 fun _ => rfl
  have hends : Ends storeRecords [.gdbmBlockStore, .blockStore, .object] := by
    intro root hroot
    cases hroot
    rfl
  obtain ⟨object'', calls, hdestroy, rfl, hreverse⟩ := (chopObjectDestroy_undoes_iff hlineage hinit).2.2 hends
  exact ⟨object'', _, hdestroy, rfl, hreverse⟩

end Libchop
