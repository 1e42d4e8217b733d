import Libchop.Filter.Through

/-!
# Programs of fault handlers

A fault handler works on its filter through the push and pull methods.  A fault that occurs while it does so is
not handled, so there is one level of handlers.
-/

namespace Libchop

variable {F S : Type}

/-- What a handler does: it returns, with its source as it leaves it, or it calls a method of the filter, and what
it does next depends on the result. -/
inductive HandlerProgram (S : Type) where
  | stop (err : FilterStatus) (source : S)
  | push (data : Bytes) (next : FilterStatus → Nat → HandlerProgram S)
  | pull (flush : Bool) (size : Nat) (next : FilterStatus → Bytes → HandlerProgram S)

/-- A filter without a handler, or within one. -/
def unhandled : FaultHandler F S := fun _ _ filter source => .done (.error .unhandledFault, filter, source)

/-- The program is run on the filter. -/
def HandlerProgram.run (methods : FilterMethods F) (fuel : Nat) :
    HandlerProgram S → F → Outcome (FilterStatus × F × S)
  | .stop err source, filter => .done (err, filter, source)
  | .push data next, filter =>
    methods.push fuel filter data >>= fun (err, pushed, filter) => (next err pushed).run methods fuel filter
  | .pull flush size next, filter =>
    methods.pull Unit unhandled fuel flush size (filter, ()) >>= fun (err, block, filter, _) =>
      (next err block).run methods fuel filter

def HandlerProgram.handler (methods : FilterMethods F) (program : Nat → S → HandlerProgram S) : FaultHandler F S :=
  fun fuel amount filter source => (program amount source).run methods fuel filter

/-- `handle_input_fault_from_buffer` as a program. -/
def HandlerProgram.fromBuffer (amount : Nat) (ibuffer : Bytes) : HandlerProgram Bytes :=
  if ibuffer = [] then .stop (.error .unhandledFault) ibuffer
  else .push (ibuffer.take amount) fun err pushed => .stop err (ibuffer.drop pushed)

/-- A result of the handler does not change with a larger budget. -/
structure HandlerMono (handle : FaultHandler F S) : Prop where
  mono : ∀ {fuel fuel' amount filter source result}, fuel ≤ fuel' →
    handle fuel amount filter source = .done result → handle fuel' amount filter source = .done result

/-- `P` is true of the filter after the handler. -/
structure HandlerKeeps (handle : FaultHandler F S) (P : F → Prop) : Prop where
  keeps : ∀ {fuel amount filter source err filter' source'}, P filter →
    handle fuel amount filter source = .done (err, filter', source') → P filter'

/-- The same for pushes, and for pulls of a filter whose faults are not handled. -/
structure MethodsMono (methods : FilterMethods F) : Prop where
  push : ∀ {fuel fuel' filter data result}, fuel ≤ fuel' →
    methods.push fuel filter data = .done result → methods.push fuel' filter data = .done result
  pull : ∀ {fuel fuel' flush size s result}, fuel ≤ fuel' →
    methods.pull Unit unhandled fuel flush size s = .done result →
      methods.pull Unit unhandled fuel' flush size s = .done result

structure PushKeeps (methods : FilterMethods F) (P : F → Prop) : Prop where
  keeps : ∀ {fuel filter data err pushed filter'}, P filter →
    methods.push fuel filter data = .done (err, pushed, filter') → P filter'

structure PullKeeps (methods : FilterMethods F) (P : F → Prop) : Prop where
  keeps : ∀ {fuel flush size filter err block filter'}, P filter →
    methods.pull Unit unhandled fuel flush size (filter, ()) = .done (err, block, filter', ()) → P filter'

/-- A program that only pushes, as handlers of input faults are meant to do. -/
def HandlerProgram.OnlyPushes : HandlerProgram S → Prop
  | .stop _ _ => True
  | .push _ next => ∀ err pushed, (next err pushed).OnlyPushes
  | .pull _ _ _ => False

variable {methods : FilterMethods F} {P : F → Prop}

theorem HandlerMono.settles {handle : FaultHandler F S} (h : HandlerMono handle) {fuel amount : Nat} {filter : F}
    {source : S} {result : FilterStatus × F × S} (hdone : handle fuel amount filter source = .done result) :
    Outcome.Settles (fun fuel => handle fuel amount filter source) result :=
  ⟨fuel, fun _ hle => h.mono hle hdone⟩

theorem unhandled_mono : HandlerMono (unhandled : FaultHandler F S) where
  mono _ hdone := hdone

theorem unhandled_keeps (P : F → Prop) : HandlerKeeps (unhandled : FaultHandler F S) P where
  keeps hfilter hdone := by
    cases hdone
    exact hfilter

theorem HandlerProgram.run_mono (hmethods : MethodsMono methods) (program : HandlerProgram S) {fuel fuel' : Nat}
    (hle : fuel ≤ fuel') {filter : F} {result : FilterStatus × F × S}
    (hdone : program.run methods fuel filter = .done result) : program.run methods fuel' filter = .done result := by
  induction program generalizing filter with
  | stop err source => exact hdone
  | push data next ih =>
    obtain ⟨⟨err, pushed, filter'⟩, hdata, hrest⟩ := Outcome.bind_eq_done.mp hdone
    exact Outcome.bind_eq_done.mpr ⟨_, hmethods.push hle hdata, ih err pushed hrest⟩
  | pull flush size next ih =>
    obtain ⟨⟨err, block, filter', _⟩, hblock, hrest⟩ := Outcome.bind_eq_done.mp hdone
    exact Outcome.bind_eq_done.mpr ⟨_, hmethods.pull hle hblock, ih err block hrest⟩

theorem HandlerProgram.handler_mono (hmethods : MethodsMono methods) (program : Nat → S → HandlerProgram S) :
    HandlerMono (HandlerProgram.handler methods program) where
  mono {_ _ amount _ source _} hle hdone := run_mono hmethods (program amount source) hle hdone

theorem HandlerProgram.run_keeps (hpush : PushKeeps methods P) {program : HandlerProgram S}
    (hprogram : program.OnlyPushes ∨ PullKeeps methods P) {fuel : Nat} {filter filter' : F} {err : FilterStatus}
    {source' : S} (hfilter : P filter) (hdone : program.run methods fuel filter = .done (err, filter', source')) :
    P filter' := by
  induction program generalizing filter with
  | stop err source =>
    cases hdone
    exact hfilter
  | push data next ih =>
    obtain ⟨⟨err', pushed, filter''⟩, hdata, hrest⟩ := Outcome.bind_eq_done.mp hdone
    have hnext := hprogram.imp_left fun honly => honly err' pushed
    exact ih err' pushed hnext (hpush.keeps hfilter hdata) hrest
  | pull flush size next ih =>
    obtain ⟨⟨err', block, filter'', _⟩, hblock, hrest⟩ := Outcome.bind_eq_done.mp hdone
    have hpull := hprogram.resolve_left id
    exact ih err' block (.inr hpull) (hpull.keeps hfilter hblock) hrest

/-- What the methods keep is kept by a handler that calls them. -/
theorem HandlerProgram.handler_keeps (hpush : PushKeeps methods P) {program : Nat → S → HandlerProgram S}
    (hprogram : (∀ amount source, (program amount source).OnlyPushes) ∨ PullKeeps methods P) :
    HandlerKeeps (HandlerProgram.handler methods program) P where
  keeps {_ amount _ source _ _ _} hfilter hdone :=
    run_keeps hpush (hprogram.imp_left fun honly => honly amount source) hfilter hdone

end Libchop
