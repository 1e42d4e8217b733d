import Libchop.Filter.HandlerPrograms
import Libchop.Filter.LzoUnzipSize

/-!
# The states of LZO filters

Whatever the fault handlers do, the zip filter keeps its output within its buffer.  So does the unzip filter if
they provide data and nothing else, as `chop_filter_handle_input_fault` has it.
-/

namespace Libchop

namespace LzoFilter

variable {library : LzoLibrary} {filter filter' : LzoFilter} {S : Type} {handle : FaultHandler LzoFilter S}

structure NoOutput (filter : LzoFilter) : Prop where
  availOut_eq : filter.availOut = 0
  outputOffset_eq : filter.outputOffset = 0

theorem NoOutput.outputFits (h : filter.NoOutput) : filter.OutputFits where
  fits := by
    rw [h.availOut_eq, h.outputOffset_eq]
    exact Nat.zero_le _
  rewound _ := h.outputOffset_eq

theorem OutputFits.noOutput (h : filter.OutputFits) (hempty : ¬ filter.availOut > 0) : filter.NoOutput :=
  have hzero := Nat.eq_zero_of_not_pos hempty
  ⟨hzero, h.rewound hzero⟩

theorem push_mono {fuel fuel' : Nat} (hle : fuel ≤ fuel') {data : Bytes} {result : FilterStatus × Nat × LzoFilter}
    (h : push fuel filter data = .done result) : push fuel' filter data = .done result := by
  obtain ⟨u, hassert, hloop⟩ := Outcome.bind_eq_done.mp h
  exact Outcome.bind_eq_done.mpr ⟨u, hassert, pushLoop_mono hle hloop⟩

/-- A push keeps what depends on the output alone. -/
theorem push_keeps {P : LzoFilter → Prop} (hP : ∀ {filter filter' : LzoFilter}, P filter →
    filter'.outputBuffer = filter.outputBuffer ∧ filter'.availOut = filter.availOut ∧
      filter'.outputOffset = filter.outputOffset → P filter')
    (methods : FilterMethods LzoFilter) (hmethods : methods.push = push) : PushKeeps methods P where
  keeps hfilter hdone := by
    rw [hmethods] at hdone
    obtain ⟨_, _, hloop⟩ := Outcome.bind_eq_done.mp hdone
    exact hP hfilter (pushLoop_output hloop)

theorem push_outputFits (methods : FilterMethods LzoFilter) (hmethods : methods.push = push) :
    PushKeeps methods OutputFits :=
  push_keeps OutputFits.of_output methods hmethods

theorem push_noOutput (methods : FilterMethods LzoFilter) (hmethods : methods.push = push) :
    PushKeeps methods NoOutput := by
  refine push_keeps ?_ methods hmethods
  intro filter filter' h heq
  exact ⟨heq.2.1.trans h.availOut_eq, heq.2.2.trans h.outputOffset_eq⟩

section Zip

/-- What was compressed lies in the output buffer, whether its sizes can be written there or not. -/
theorem NoOutput.compress {err : FilterStatus} (h : filter.NoOutput)
    (hdone : compress library filter = .done (err, filter')) : filter'.OutputFits := by
  obtain ⟨_, hassert, hdone⟩ := Outcome.bind_eq_done.mp hdone
  have hfits := Outcome.of_assert hassert
  have hoffset := h.outputOffset_eq
  split at hdone
  · cases hdone
    refine ⟨?_, fun _ => hoffset⟩
    simp only [hoffset, List.length_append, List.length_take, List.length_drop]
    omega
  · cases hdone
    refine ⟨?_, fun _ => hoffset⟩
    simp only [hoffset, List.length_append, List.length_drop, ByteOrder.length_storeBe]
    omega

/-- The rounds of the loop, with a larger budget. -/
theorem zipPullLoop_mono (hhandle : HandlerMono handle) {flush : Bool} {fuel fuel' : Nat}
    (hle : fuel ≤ fuel') {s : LzoFilter × S} {size : Nat} {pulled : Bytes}
    {result : FilterStatus × Bytes × LzoFilter × S}
    (h : zipPullLoop library handle flush fuel s size pulled = .done result) :
    zipPullLoop library handle flush fuel' s size pulled = .done result := by
  induction fuel generalizing fuel' s size pulled with
  | zero => cases h
  | succ fuel ih =>
    obtain ⟨filter, source⟩ := s
    obtain ⟨fuel', rfl⟩ :=
      Nat.exists_eq_add_one_of_ne_zero (Nat.ne_of_gt (Nat.lt_of_lt_of_le fuel.succ_pos hle))
    have hle' : fuel ≤ fuel' := Nat.le_of_succ_le_succ hle
    rw [zipPullLoop] at h ⊢
    by_cases hroom : pulled.length < size
    case neg =>
      rw [if_neg hroom] at h ⊢
      exact h
    rw [if_pos hroom] at h ⊢
    by_cases hpending : filter.availOut > 0
    case pos =>
      rw [if_pos hpending] at h ⊢
      exact ih hle' h
    rw [if_neg hpending] at h ⊢
    by_cases hfault : filter.availIn < filter.inputBuffer.length ∧ flush = false
    case pos =>
      rw [if_pos hfault] at h ⊢
      obtain ⟨⟨err, filter', source'⟩, hdone, h⟩ := Outcome.bind_eq_done.mp h
      refine Outcome.bind_eq_done.mpr ⟨_, hhandle.mono hle' hdone, ?_⟩
      cases err with
      | ok _ => exact ih hle' h
      | error err =>
        cases err with
        | unhandledFault => exact h
        | empty | error | full | other err => exact h
    rw [if_neg hfault] at h ⊢
    by_cases hinput : filter.availIn > 0
    case pos =>
      rw [if_pos hinput] at h ⊢
      obtain ⟨⟨err, filter'⟩, hdone, h⟩ := Outcome.bind_eq_done.mp h
      refine Outcome.bind_eq_done.mpr ⟨_, hdone, ?_⟩
      cases err with
      | ok _ => exact ih hle' h
      | error err => exact h
    case neg =>
      rw [if_neg hinput] at h ⊢
      exact h

theorem zipPullLoop_outputFits (hhandle : HandlerKeeps handle OutputFits) {flush : Bool} {fuel : Nat}
    {s s' : LzoFilter × S} (hfilter : s.1.OutputFits) {size : Nat} {pulled out : Bytes} {err : FilterStatus}
    (h : zipPullLoop library handle flush fuel s size pulled = .done (err, out, s')) : s'.1.OutputFits := by
  induction fuel generalizing s size pulled with
  | zero => cases h
  | succ fuel ih =>
    obtain ⟨filter, source⟩ := s
    rw [zipPullLoop] at h
    split at h
    case isFalse =>
      cases h
      exact hfilter
    split at h
    · have hle : min filter.availOut size ≤ filter.availOut := Nat.min_le_left _ _
      exact ih (hfilter.drain hle).1 h
    next hempty =>
      split at h
      · obtain ⟨⟨err', filter', source'⟩, hdone, h⟩ := Outcome.bind_eq_done.mp h
        have hfilter' := hhandle.keeps hfilter hdone
        cases err' with
        | ok _ => exact ih hfilter' h
        | error err' =>
          cases err' with
          | unhandledFault | empty | error | full | other err' =>
            cases h
            exact hfilter'
      split at h
      · obtain ⟨⟨err', filter'⟩, hdone, h⟩ := Outcome.bind_eq_done.mp h
        have hfilter' := (hfilter.noOutput hempty).compress hdone
        cases err' with
        | ok _ => exact ih hfilter' h
        | error err' =>
          cases h
          exact hfilter'
      · cases h
        exact hfilter

theorem zipMethods_mono : MethodsMono (zipMethods library) where
  push hle hdone := push_mono hle hdone
  pull hle hdone := zipPullLoop_mono unhandled_mono hle hdone

theorem zipPull_outputFits : PullKeeps (zipMethods library) OutputFits where
  keeps hfilter hdone := zipPullLoop_outputFits (unhandled_keeps OutputFits) hfilter hdone

/-- Any program can handle the faults of the zip filter. -/
theorem zipHandler_keeps (program : Nat → S → HandlerProgram S) :
    HandlerKeeps (HandlerProgram.handler (zipMethods library) program) OutputFits :=
  HandlerProgram.handler_keeps (push_outputFits _ rfl) (.inr zipPull_outputFits)

end Zip

section Unzip

/-- What was decompressed lies in the output buffer, even if it is not all. -/
theorem NoOutput.decompress {in32 out32 : Nat} {err : FilterStatus} (h : filter.NoOutput)
    (hdone : decompress library filter in32 out32 = .done (err, filter')) : filter'.OutputFits := by
  rw [LzoFilter.decompress] at hdone
  split at hdone
  · cases hdone
    exact h.outputFits
  dsimp only at hdone
  split at hdone
  · cases hdone
    refine ⟨?_, fun _ => h.outputOffset_eq⟩
    simp only [h.outputOffset_eq, List.length_append, Nat.zero_add]
    exact Nat.le_add_right _ _
  · obtain ⟨_, _, hdone⟩ := Outcome.bind_eq_done.mp hdone
    cases hdone
    refine ⟨?_, fun _ => rfl⟩
    simp only [List.length_append, Nat.zero_add]
    exact Nat.le_add_right _ _

def fetchPortion (handle : FaultHandler LzoFilter S) (fuel in32 : Nat) (filter : LzoFilter) (source : S) :
    Outcome (FilterStatus × LzoFilter × S) :=
  if in32 > filter.availIn then handle fuel (in32 - filter.availIn) filter source
  else .done (.ok (), filter, source)

theorem fetchPortion_mono (hhandle : HandlerMono handle) {fuel fuel' in32 : Nat} (hle : fuel ≤ fuel')
    {source : S} {result : FilterStatus × LzoFilter × S}
    (h : fetchPortion handle fuel in32 filter source = .done result) :
    fetchPortion handle fuel' in32 filter source = .done result := by
  rw [fetchPortion] at h ⊢
  split at h
  · next hmore =>
    rw [if_pos hmore]
    exact hhandle.mono hle h
  · next hmore =>
    rw [if_neg hmore]
    exact h

theorem fetchPortion_keeps {P : LzoFilter → Prop} (hhandle : HandlerKeeps handle P) {fuel in32 : Nat}
    {source source' : S} {err : FilterStatus} (hfilter : P filter)
    (h : fetchPortion handle fuel in32 filter source = .done (err, filter', source')) : P filter' := by
  rw [fetchPortion] at h
  split at h
  · exact hhandle.keeps hfilter h
  · cases h
    exact hfilter

theorem NoOutput.skipHeader (h : filter.NoOutput) (in32 out32 : Nat) : (filter.skipHeader in32 out32).NoOutput :=
  ⟨h.availOut_eq, h.outputOffset_eq⟩

theorem unzipPullLoop_mono (hhandle : HandlerMono handle) {flush : Bool} {fuel fuel' : Nat}
    (hle : fuel ≤ fuel') {s : LzoFilter × S} {size : Nat} {pulled : Bytes}
    {result : FilterStatus × Bytes × LzoFilter × S}
    (h : unzipPullLoop library handle flush fuel s size pulled = .done result) :
    unzipPullLoop library handle flush fuel' s size pulled = .done result := by
  induction fuel generalizing fuel' s size pulled with
  | zero => cases h
  | succ fuel ih =>
    obtain ⟨filter, source⟩ := s
    obtain ⟨fuel', rfl⟩ :=
      Nat.exists_eq_add_one_of_ne_zero (Nat.ne_of_gt (Nat.lt_of_lt_of_le fuel.succ_pos hle))
    have hle' : fuel ≤ fuel' := Nat.le_of_succ_le_succ hle
    rw [unzipPullLoop] at h ⊢
    by_cases hroom : pulled.length < size
    case neg =>
      rw [if_neg hroom] at h ⊢
      exact h
    rw [if_pos hroom] at h ⊢
    by_cases hpending : filter.availOut > 0
    case pos =>
      rw [if_pos hpending] at h ⊢
      exact ih hle' h
    rw [if_neg hpending] at h ⊢
    by_cases hflush : flush = true
    case pos =>
      rw [if_pos hflush] at h ⊢
      exact h
    rw [if_neg hflush] at h ⊢
    by_cases hfew : filter.availIn < 8
    case pos =>
      rw [if_pos hfew] at h ⊢
      obtain ⟨⟨err, filter', source'⟩, hdone, h⟩ := Outcome.bind_eq_done.mp h
      refine Outcome.bind_eq_done.mpr ⟨_, hhandle.mono hle' hdone, ?_⟩
      cases err with
      | ok _ => exact ih hle' h
      | error err => exact h
    case neg =>
      rw [if_neg hfew] at h ⊢
      dsimp only at h ⊢
      obtain ⟨⟨err, filter', source'⟩, hfetch, h⟩ := Outcome.bind_eq_done.mp h
      change fetchPortion handle fuel _ _ source = _ at hfetch
      refine Outcome.bind_eq_done.mpr ⟨_, fetchPortion_mono hhandle hle' hfetch, ?_⟩
      cases err with
      | error err => exact h
      | ok _ =>
        obtain ⟨⟨err, filter''⟩, hdone, h⟩ := Outcome.bind_eq_done.mp h
        refine Outcome.bind_eq_done.mpr ⟨_, hdone, ?_⟩
        cases err with
        | ok _ => exact ih hle' h
        | error err => exact h

theorem unzipPullLoop_outputFits (hhandle : HandlerKeeps handle OutputFits)
    (hempties : HandlerKeeps handle NoOutput) {flush : Bool} {fuel : Nat} {s s' : LzoFilter × S}
    (hfilter : s.1.OutputFits) {size : Nat} {pulled out : Bytes} {err : FilterStatus}
    (h : unzipPullLoop library handle flush fuel s size pulled = .done (err, out, s')) : s'.1.OutputFits := by
  induction fuel generalizing s size pulled with
  | zero => cases h
  | succ fuel ih =>
    obtain ⟨filter, source⟩ := s
    rw [unzipPullLoop] at h
    split at h
    case isFalse =>
      cases h
      exact hfilter
    split at h
    · have hle : min filter.availOut size ≤ filter.availOut := Nat.min_le_left _ _
      exact ih (hfilter.drain hle).1 h
    next hempty =>
      split at h
      · cases h
        exact hfilter
      split at h
      · obtain ⟨⟨err', filter', source'⟩, hdone, h⟩ := Outcome.bind_eq_done.mp h
        have hfilter' := hhandle.keeps hfilter hdone
        cases err' with
        | ok _ => exact ih hfilter' h
        | error err' =>
          cases h
          exact hfilter'
      · dsimp only at h
        obtain ⟨⟨err', filter', source'⟩, hfetch, h⟩ := Outcome.bind_eq_done.mp h
        change fetchPortion handle fuel _ _ source = _ at hfetch
        have hskipped := (hfilter.noOutput hempty).skipHeader (ByteOrder.loadBe filter.inputBuffer)
          (ByteOrder.loadBe (filter.inputBuffer.drop 4))
        have hfilter' := fetchPortion_keeps hempties hskipped hfetch
        cases err' with
        | error err' =>
          cases h
          exact hfilter'.outputFits
        | ok _ =>
          obtain ⟨⟨err'', filter''⟩, hdone, h⟩ := Outcome.bind_eq_done.mp h
          have hfilter'' := hfilter'.decompress hdone
          cases err'' with
          | ok _ => exact ih hfilter'' h
          | error err'' =>
            cases h
            exact hfilter''

theorem unzipMethods_mono : MethodsMono (unzipMethods library) where
  push hle hdone := push_mono hle hdone
  pull hle hdone := unzipPullLoop_mono unhandled_mono hle hdone

theorem unzipPull_outputFits : PullKeeps (unzipMethods library) OutputFits where
  keeps hfilter hdone :=
    unzipPullLoop_outputFits (unhandled_keeps OutputFits) (unhandled_keeps NoOutput) hfilter hdone

/-- While the faults of the unzip filter are handled, any program keeps the output within its buffer. -/
theorem unzipHandler_keeps (program : Nat → S → HandlerProgram S) :
    HandlerKeeps (HandlerProgram.handler (unzipMethods library) program) OutputFits :=
  HandlerProgram.handler_keeps (push_outputFits _ rfl) (.inr unzipPull_outputFits)

theorem unzipHandler_noOutput {program : Nat → S → HandlerProgram S}
    (hprogram : ∀ amount source, (program amount source).OnlyPushes) :
    HandlerKeeps (HandlerProgram.handler (unzipMethods library) program) NoOutput :=
  HandlerProgram.handler_keeps (push_noOutput _ rfl) (.inl hprogram)

end Unzip

end LzoFilter

namespace StreamFilter

/-- The fault handlers of the unzip filter of LZO provide data. -/
def Permits {S : Type} : StreamFilter → (Nat → S → HandlerProgram S) → Prop
  | zip _ _, _ | lzoZip _, _ => True
  | lzoUnzip _, program => ∀ amount source, (program amount source).OnlyPushes

/-- The states that a filter reaches while it is pushed to and pulled from, with whatever handlers. -/
inductive Reached (f : StreamFilter) : f.Filter → Prop where
  | new (inputBuffer : Bytes) (junk : Nat → UInt8) : f.Reached (f.new inputBuffer junk)
  | push {filter filter' : f.Filter} {fuel pushed : Nat} {data : Bytes} {err : FilterStatus}
      (h : f.Reached filter) (hpush : f.methods.push fuel filter data = .done (err, pushed, filter')) :
      f.Reached filter'
  | pull {filter filter' : f.Filter} {S : Type} {source source' : S} {program : Nat → S → HandlerProgram S}
      {fuel size : Nat} {flush : Bool} {out : Bytes} {err : FilterStatus}
      (h : f.Reached filter) (hprogram : f.Permits program)
      (hpull : f.methods.pull S (HandlerProgram.handler f.methods program) fuel flush size (filter, source) =
        .done (err, out, filter', source')) : f.Reached filter'

theorem Reached.outputFits_zip {library : LzoLibrary} {filter : (lzoZip library).Filter}
    (h : (lzoZip library).Reached filter) : LzoFilter.OutputFits filter := by
  induction h with
  | new inputBuffer junk => exact ⟨Nat.zero_le _, fun _ => rfl⟩
  | push _ hpush ih => exact (LzoFilter.push_outputFits (LzoFilter.zipMethods library) rfl).keeps ih hpush
  | pull _ _ hpull ih => exact LzoFilter.zipPullLoop_outputFits (LzoFilter.zipHandler_keeps _) ih hpull

theorem Reached.outputFits_unzip {library : LzoLibrary} {filter : (lzoUnzip library).Filter}
    (h : (lzoUnzip library).Reached filter) : LzoFilter.OutputFits filter := by
  induction h with
  | new inputBuffer junk => exact ⟨Nat.zero_le _, fun _ => rfl⟩
  | push _ hpush ih =>
    exact (LzoFilter.push_outputFits (LzoFilter.unzipMethods library) rfl).keeps ih hpush
  | pull _ hprogram hpull ih =>
    exact LzoFilter.unzipPullLoop_outputFits (LzoFilter.unzipHandler_keeps _)
      (LzoFilter.unzipHandler_noOutput hprogram) ih hpull

end StreamFilter

end Libchop
