import Libchop.Filter.LzoReached

/-!
# Pulls from an empty filter

A pull that reports `CHOP_FILTER_EMPTY` should not have pulled anything.  The pull methods of LZO report it when
a fault is not handled, or when its handler does, and by then they may have copied output that was waiting.
-/

namespace Libchop

/-- A pull of zlib or bzip2 that flushes ends in its first round. -/
theorem ZipFilter.pull_empty {c : ZipFilterClass} {library : c.Library} {S : Type}
    {handle : FaultHandler (ZipFilter library.State) S} {flush : Bool} {size fuel : Nat}
    {s s' : ZipFilter library.State × S} {out : Bytes}
    (h : pull library handle fuel flush size s = .done (.error .empty, out, s')) : out = [] := by
  cases flush with
  | false => exact pullLoop_empty h
  | true =>
    cases fuel with
    | zero => cases h
    | succ fuel =>
      rw [pull, pullLoop] at h
      split at h
      case isFalse => cases h
      split at h
      · next hfault => cases hfault.2
      dsimp only at h
      split at h
      · cases h
      rw [if_pos rfl] at h
      split at h
      · next hnil =>
        cases h
        exact hnil.2
      · cases h

namespace LzoFilter

variable {library : LzoLibrary} {S : Type} {handle : FaultHandler LzoFilter S}

section Zip

variable (library handle) in
/-- However much is asked for, the zip filter comes to a fault that is not handled, or whose handler reports an
empty filter, behind so many bytes of output. -/
inductive ZipStarves : LzoFilter × S → Nat → Prop
  | fault {filter filter' : LzoFilter} {source source' : S} {err : FilterError} (empty : ¬ filter.availOut > 0)
      (space : filter.availIn < filter.inputBuffer.length)
      (handled : Outcome.Settles
        (fun fuel => handle fuel (filter.inputBuffer.length - filter.availIn) filter source)
        (.error err, filter', source'))
      (empties : err = .unhandledFault ∨ err = .empty) : ZipStarves (filter, source) 0
  | drain {filter : LzoFilter} {source : S} {n : Nat} (pending : filter.availOut > 0)
      (rest : ZipStarves (filter.drain filter.availOut, source) n) :
      ZipStarves (filter, source) (filter.availOut + n)
  | feed {filter filter' : LzoFilter} {source source' : S} {n : Nat} (empty : ¬ filter.availOut > 0)
      (space : filter.availIn < filter.inputBuffer.length)
      (handled : Outcome.Settles
        (fun fuel => handle fuel (filter.inputBuffer.length - filter.availIn) filter source)
        (.ok (), filter', source'))
      (rest : ZipStarves (filter', source') n) : ZipStarves (filter, source) n
  | compress {filter filter' : LzoFilter} {source : S} {n : Nat} (empty : ¬ filter.availOut > 0)
      (space : ¬ filter.availIn < filter.inputBuffer.length) (input : filter.availIn > 0)
      (compressed : compress library filter = .done (.ok (), filter'))
      (rest : ZipStarves (filter', source) n) : ZipStarves (filter, source) n

theorem compress_error {filter filter' : LzoFilter} {err : FilterError}
    (h : compress library filter = .done (.error err, filter')) : err = .error := by
  obtain ⟨_, _, h⟩ := Outcome.bind_eq_done.mp h
  split at h
  · cases h
    rfl
  · cases h

/-- What is pulled counts twice. -/
theorem ZipStarves.pull {s : LzoFilter × S} {n : Nat} (h : ZipStarves library handle s n)
    (hhandle : HandlerKeeps handle OutputFits) (hfilter : s.1.OutputFits) {size : Nat} {pulled : Bytes}
    (hroom : pulled.length + n + n < size) :
    ∃ out s', out.length = pulled.length + n ∧
      Outcome.Settles (fun fuel => zipPullLoop library handle false fuel s size pulled)
        (.error .empty, out, s') := by
  induction h generalizing size pulled with
  | @fault filter filter' source source' err empty space handled empties =>
    have hempty : filter.availOut = 0 := Nat.eq_zero_of_not_pos empty
    refine ⟨pulled, (filter', source'), rfl, ?_⟩
    refine Outcome.Settles.succ (zipPullLoop_fault library handle source hroom hempty space) (handled.bind ?_)
    rcases empties with rfl | rfl
    · exact .of_eq fun _ => rfl
    · exact .of_eq fun _ => rfl
  | @drain filter source n pending _ ih =>
    have hmin : min filter.availOut size = filter.availOut := by omega
    have hlength : (filter.pendingOutput.take filter.availOut).length = filter.availOut :=
      (hfilter.take_append_drain (Nat.le_refl _)).2
    have hroom' : (pulled ++ filter.pendingOutput.take filter.availOut).length + n + n <
        size - filter.availOut := by
      rw [List.length_append, hlength]
      omega
    obtain ⟨out, s', hout, hsettles⟩ := ih (hfilter.drain (Nat.le_refl _)).1 hroom'
    refine ⟨out, s', ?_, Outcome.Settles.succ (fun fuel => ?_) hsettles⟩
    · rw [hout, List.length_append, hlength, Nat.add_assoc]
    · have hpulled : pulled.length < size := by omega
      rw [zipPullLoop, if_pos hpulled, if_pos pending, hmin]
  | @feed filter filter' source source' n empty space handled _ ih =>
    have hempty : filter.availOut = 0 := Nat.eq_zero_of_not_pos empty
    have hpulled : pulled.length < size := by omega
    obtain ⟨_, hdone⟩ := handled
    have hfilter' := hhandle.keeps hfilter (hdone _ (Nat.le_refl _))
    obtain ⟨out, s', hout, hsettles⟩ := ih hfilter' hroom
    refine ⟨out, s', hout, ?_⟩
    exact Outcome.Settles.succ (zipPullLoop_fault library handle source hpulled hempty space)
      (Outcome.Settles.bind ⟨_, hdone⟩ hsettles)
  | @compress filter filter' source n empty space input compressed _ ih =>
    have hpulled : pulled.length < size := by omega
    obtain ⟨out, s', hout, hsettles⟩ := ih ((hfilter.noOutput empty).compress compressed) hroom
    refine ⟨out, s', hout, Outcome.Settles.succ (fun fuel => ?_) hsettles⟩
    rw [zipPullLoop, if_pos hpulled, if_neg empty, if_neg fun hfault => space hfault.1, if_pos input,
      compressed, Outcome.done_bind]

/-- A pull that flushes does not call the handler. -/
theorem zipPullLoop_flush {fuel : Nat} {s s' : LzoFilter × S} {size : Nat} {pulled out : Bytes}
    (h : zipPullLoop library handle true fuel s size pulled = .done (.error .empty, out, s')) : out = [] := by
  induction fuel generalizing s size pulled with
  | zero => cases h
  | succ fuel ih =>
    rw [zipPullLoop] at h
    split at h
    case isFalse => cases h
    split at h
    · exact ih h
    split at h
    · next hfault => cases hfault.2
    split at h
    · obtain ⟨⟨err, filter'⟩, hdone, h⟩ := Outcome.bind_eq_done.mp h
      cases err with
      | ok _ => exact ih h
      | error err =>
        cases h
        cases compress_error hdone
    · split at h
      · next hnil =>
        cases h
        exact hnil
      · cases h

/-- A pull that reports an empty filter starved, or pulled nothing. -/
theorem zipPullLoop_starves (hmono : HandlerMono handle) (hhandle : HandlerKeeps handle OutputFits) {fuel : Nat}
    {s s' : LzoFilter × S} (hfilter : s.1.OutputFits) {size : Nat} {pulled out : Bytes}
    (h : zipPullLoop library handle false fuel s size pulled = .done (.error .empty, out, s')) :
    out = [] ∨ ∃ n, ZipStarves library handle s n ∧ out.length = pulled.length + n ∧
      pulled.length + n + n < size := by
  induction fuel generalizing s size pulled with
  | zero => cases h
  | succ fuel ih =>
    obtain ⟨filter, source⟩ := s
    by_cases hroom : pulled.length < size
    case neg =>
      rw [zipPullLoop, if_neg hroom] at h
      cases h
    by_cases hpending : filter.availOut > 0
    case pos =>
      rw [zipPullLoop, if_pos hroom, if_pos hpending] at h
      have hle : min filter.availOut size ≤ filter.availOut := Nat.min_le_left _ _
      have hlength := (hfilter.take_append_drain hle).2
      rcases ih (hfilter.drain hle).1 h with hnil | ⟨n, hstarves, hout, hrest⟩
      · exact .inl hnil
      · rw [List.length_append, hlength] at hout hrest
        have hmin : min filter.availOut size = filter.availOut := by omega
        rw [hmin] at hstarves hout hrest
        exact .inr ⟨filter.availOut + n, .drain hpending hstarves, by omega, by omega⟩
    have hempty : filter.availOut = 0 := Nat.eq_zero_of_not_pos hpending
    by_cases hspace : filter.availIn < filter.inputBuffer.length
    case pos =>
      rw [zipPullLoop_fault library handle source hroom hempty hspace] at h
      obtain ⟨⟨err, filter', source'⟩, hdone, h⟩ := Outcome.bind_eq_done.mp h
      cases err with
      | ok _ =>
        rcases ih (hhandle.keeps hfilter hdone) h with hnil | ⟨n, hstarves, hout, hrest⟩
        · exact .inl hnil
        · exact .inr ⟨n, .feed hpending hspace (hmono.settles hdone) hstarves, hout, hrest⟩
      | error err =>
        cases err with
        | unhandledFault =>
          cases h
          exact .inr ⟨0, .fault hpending hspace (hmono.settles hdone) (.inl rfl), rfl, hroom⟩
        | empty =>
          cases h
          exact .inr ⟨0, .fault hpending hspace (hmono.settles hdone) (.inr rfl), rfl, hroom⟩
        | error | full | other err => cases h
    have hfull : ¬ (filter.availIn < filter.inputBuffer.length ∧ false = false) := fun hfault => hspace hfault.1
    rw [zipPullLoop, if_pos hroom, if_neg hpending, if_neg hfull] at h
    split at h
    · next hinput =>
      obtain ⟨⟨err, filter'⟩, hdone, h⟩ := Outcome.bind_eq_done.mp h
      cases err with
      | ok _ =>
        rcases ih ((hfilter.noOutput hpending).compress hdone) h with hnil | ⟨n, hstarves, hout, hrest⟩
        · exact .inl hnil
        · exact .inr ⟨n, .compress hpending hspace hinput hdone hstarves, hout, hrest⟩
      | error err =>
        cases h
        cases compress_error hdone
    · split at h
      · next hnil =>
        cases h
        exact .inl hnil
      · cases h

theorem zipPull_empty_iff (hmono : HandlerMono handle) (hhandle : HandlerKeeps handle OutputFits)
    {flush : Bool} {size : Nat} {s : LzoFilter × S} (hfilter : s.1.OutputFits) :
    (∀ fuel out s', zipPull library handle fuel flush size s = .done (.error .empty, out, s') → out = []) ↔
      (flush = false → ∀ n, ZipStarves library handle s n → n + n < size → n = 0) := by
  constructor
  · rintro h rfl n hstarves hroom
    have hroom' : ([] : Bytes).length + n + n < size := by
      rw [List.length_nil]
      omega
    obtain ⟨out, s', hout, bound, hdone⟩ := hstarves.pull hhandle hfilter hroom'
    rw [h bound out s' (hdone bound (Nat.le_refl _))] at hout
    simpa using hout.symm
  · intro h fuel out s' hdone
    cases flush with
    | true => exact zipPullLoop_flush hdone
    | false =>
      rcases zipPullLoop_starves hmono hhandle hfilter hdone with hnil | ⟨n, hstarves, hout, hroom⟩
      · exact hnil
      · rw [List.length_nil, Nat.zero_add] at hout hroom
        rw [h rfl n hstarves hroom] at hout
        exact List.length_eq_zero_iff.mp hout

end Zip

section Unzip

/-- What the unzip filter does to the size of a pull: all its output is copied, or a header is read. -/
inductive UnzipStep where
  | drain (availOut : Nat)
  | header
deriving DecidableEq, Repr

namespace UnzipStep

/-- What the steps copy. -/
def output : List UnzipStep → Nat
  | [] => 0
  | .drain availOut :: steps => availOut + output steps
  | .header :: steps => output steps

/-- After so much was pulled, and with so much of the size left, a pull takes all the steps and goes on. -/
def Outlasted : List UnzipStep → Nat → Nat → Prop
  | [], pulled, size => pulled < size
  | .drain availOut :: steps, pulled, size =>
    pulled < size ∧ Outlasted steps (pulled + availOut) (size - availOut)
  | .header :: steps, pulled, size => pulled < size ∧ Outlasted steps pulled (subtractHeader size)

instance instDecidableOutlasted :
    (steps : List UnzipStep) → (pulled size : Nat) → Decidable (Outlasted steps pulled size)
  | [], pulled, size => inferInstanceAs (Decidable (pulled < size))
  | .drain availOut :: steps, pulled, size =>
    have := instDecidableOutlasted steps (pulled + availOut) (size - availOut)
    inferInstanceAs (Decidable (_ ∧ _))
  | .header :: steps, pulled, size =>
    have := instDecidableOutlasted steps pulled (subtractHeader size)
    inferInstanceAs (Decidable (_ ∧ _))

theorem Outlasted.room {steps : List UnzipStep} {pulled size : Nat} (h : Outlasted steps pulled size) :
    pulled < size := by
  cases steps with
  | nil => exact h
  | cons step steps =>
    cases step with
    | drain availOut => exact h.1
    | header => exact h.1

end UnzipStep

variable (library handle) in
/-- However much is asked for, the unzip filter comes to a fault whose handler reports an empty filter, by these
steps. -/
inductive UnzipStarves : LzoFilter × S → List UnzipStep → Prop
  | fault {filter filter' : LzoFilter} {source source' : S} (empty : ¬ filter.availOut > 0)
      (few : filter.availIn < 8)
      (handled : Outcome.Settles (fun fuel => handle fuel 8 filter source) (.error .empty, filter', source')) :
      UnzipStarves (filter, source) []
  | drain {filter : LzoFilter} {source : S} {steps : List UnzipStep} (pending : filter.availOut > 0)
      (rest : UnzipStarves (filter.drain filter.availOut, source) steps) :
      UnzipStarves (filter, source) (.drain filter.availOut :: steps)
  | feed {filter filter' : LzoFilter} {source source' : S} {steps : List UnzipStep} (empty : ¬ filter.availOut > 0)
      (few : filter.availIn < 8)
      (handled : Outcome.Settles (fun fuel => handle fuel 8 filter source) (.ok (), filter', source'))
      (rest : UnzipStarves (filter', source') steps) : UnzipStarves (filter, source) steps
  | portion {filter filter' filter'' : LzoFilter} {source source' : S} {steps : List UnzipStep}
      (empty : ¬ filter.availOut > 0) (many : ¬ filter.availIn < 8)
      (handled : Outcome.Settles (fun fuel => fetchPortion handle fuel (ByteOrder.loadBe filter.inputBuffer)
        (filter.skipHeader (ByteOrder.loadBe filter.inputBuffer)
          (ByteOrder.loadBe (filter.inputBuffer.drop 4))) source) (.ok (), filter', source'))
      (decompressed : decompress library filter' (ByteOrder.loadBe filter.inputBuffer)
        (ByteOrder.loadBe (filter.inputBuffer.drop 4)) = .done (.ok (), filter''))
      (rest : UnzipStarves (filter'', source') steps) : UnzipStarves (filter, source) (.header :: steps)

theorem UnzipStarves.pull {s : LzoFilter × S} {steps : List UnzipStep} (h : UnzipStarves library handle s steps)
    (hhandle : HandlerKeeps handle OutputFits) (hfilter : s.1.OutputFits) {size : Nat} {pulled : Bytes}
    (hroom : UnzipStep.Outlasted steps pulled.length size) :
    ∃ out s', out.length = pulled.length + UnzipStep.output steps ∧
      Outcome.Settles (fun fuel => unzipPullLoop library handle false fuel s size pulled)
        (.error .empty, out, s') := by
  induction h generalizing size pulled with
  | @fault filter filter' source source' empty few handled =>
    have hempty : filter.availOut = 0 := Nat.eq_zero_of_not_pos empty
    refine ⟨pulled, (filter', source'), rfl, ?_⟩
    refine Outcome.Settles.succ (unzipPullLoop_fault library handle source hroom hempty few) (handled.bind ?_)
    exact .of_eq fun _ => rfl
  | @drain filter source steps pending _ ih =>
    obtain ⟨hpulled, hrest⟩ := hroom
    have hlength : (filter.pendingOutput.take filter.availOut).length = filter.availOut :=
      (hfilter.take_append_drain (Nat.le_refl _)).2
    have hmin : min filter.availOut size = filter.availOut := by
      have hpos := hrest.room
      omega
    have hrest' : UnzipStep.Outlasted steps (pulled ++ filter.pendingOutput.take filter.availOut).length
        (size - filter.availOut) := by
      rw [List.length_append, hlength]
      exact hrest
    obtain ⟨out, s', hout, hsettles⟩ := ih (hfilter.drain (Nat.le_refl _)).1 hrest'
    refine ⟨out, s', ?_, Outcome.Settles.succ (fun fuel => ?_) hsettles⟩
    · rw [hout, List.length_append, hlength, Nat.add_assoc]
      rfl
    · rw [unzipPullLoop, if_pos hpulled, if_pos pending, hmin]
  | @feed filter filter' source source' steps empty few handled _ ih =>
    have hempty : filter.availOut = 0 := Nat.eq_zero_of_not_pos empty
    obtain ⟨_, hdone⟩ := handled
    have hfilter' := hhandle.keeps hfilter (hdone _ (Nat.le_refl _))
    obtain ⟨out, s', hout, hsettles⟩ := ih hfilter' hroom
    refine ⟨out, s', hout, ?_⟩
    exact Outcome.Settles.succ (unzipPullLoop_fault library handle source hroom.room hempty few)
      (Outcome.Settles.bind ⟨_, hdone⟩ hsettles)
  | @portion filter filter' filter'' source source' steps empty many handled decompressed _ ih =>
    obtain ⟨hpulled, hrest⟩ := hroom
    have hempty : filter.availOut = 0 := Nat.eq_zero_of_not_pos empty
    obtain ⟨out, s', hout, hsettles⟩ := ih (decompress_outputFits decompressed) hrest
    refine ⟨out, s', hout, ?_⟩
    refine Outcome.Settles.succ (unzipPullLoop_header library handle source hpulled hempty many rfl rfl)
      (handled.bind ?_)
    simp only [decompressed, Outcome.done_bind]
    exact hsettles

theorem decompress_error {filter filter' : LzoFilter} {in32 out32 : Nat} {err : FilterError}
    (h : decompress library filter in32 out32 = .done (.error err, filter')) : err = .error := by
  rw [decompress] at h
  split at h
  · cases h
    rfl
  dsimp only at h
  split at h
  · cases h
    rfl
  · obtain ⟨_, _, h⟩ := Outcome.bind_eq_done.mp h
    cases h

/-- A pull that flushes does not call the handler. -/
theorem unzipPullLoop_flush {fuel : Nat} {s s' : LzoFilter × S} {size : Nat} {pulled out : Bytes}
    (h : unzipPullLoop library handle true fuel s size pulled = .done (.error .empty, out, s')) : out = [] := by
  induction fuel generalizing s size pulled with
  | zero => cases h
  | succ fuel ih =>
    rw [unzipPullLoop] at h
    split at h
    case isFalse => cases h
    split at h
    · exact ih h
    rw [if_pos rfl] at h
    split at h
    · next hnil =>
      cases h
      exact hnil
    · cases h

theorem unzipPullLoop_starves (hmono : HandlerMono handle) (hhandle : HandlerKeeps handle OutputFits) {fuel : Nat}
    {s s' : LzoFilter × S} (hfilter : s.1.OutputFits) {size : Nat} {pulled out : Bytes}
    (h : unzipPullLoop library handle false fuel s size pulled = .done (.error .empty, out, s')) :
    out = [] ∨ ∃ steps, UnzipStarves library handle s steps ∧
      out.length = pulled.length + UnzipStep.output steps ∧ UnzipStep.Outlasted steps pulled.length size := by
  induction fuel generalizing s size pulled with
  | zero => cases h
  | succ fuel ih =>
    obtain ⟨filter, source⟩ := s
    by_cases hroom : pulled.length < size
    case neg =>
      rw [unzipPullLoop, if_neg hroom] at h
      cases h
    by_cases hpending : filter.availOut > 0
    case pos =>
      rw [unzipPullLoop, if_pos hroom, if_pos hpending] at h
      have hle : min filter.availOut size ≤ filter.availOut := Nat.min_le_left _ _
      have hlength := (hfilter.take_append_drain hle).2
      rcases ih (hfilter.drain hle).1 h with hnil | ⟨steps, hstarves, hout, hrest⟩
      · exact .inl hnil
      · rw [List.length_append, hlength] at hout hrest
        have hmin : min filter.availOut size = filter.availOut := by
          have hpos := hrest.room
          omega
        rw [hmin] at hstarves hout hrest
        refine .inr ⟨.drain filter.availOut :: steps, .drain hpending hstarves, ?_, hroom, hrest⟩
        rw [hout, Nat.add_assoc]
        rfl
    have hempty : filter.availOut = 0 := Nat.eq_zero_of_not_pos hpending
    by_cases hfew : filter.availIn < 8
    case pos =>
      rw [unzipPullLoop_fault library handle source hroom hempty hfew] at h
      obtain ⟨⟨err, filter', source'⟩, hdone, h⟩ := Outcome.bind_eq_done.mp h
      cases err with
      | ok _ =>
        rcases ih (hhandle.keeps hfilter hdone) h with hnil | ⟨steps, hstarves, hout, hrest⟩
        · exact .inl hnil
        · exact .inr ⟨steps, .feed hpending hfew (hmono.settles hdone) hstarves, hout, hrest⟩
      | error err =>
        cases err with
        | unhandledFault =>
          dsimp only [unzipFault] at h
          split at h
          · next hnil =>
            cases h
            exact .inl hnil
          · cases h
        | empty =>
          cases h
          exact .inr ⟨[], .fault hpending hfew (hmono.settles hdone), rfl, hroom⟩
        | error | full | other err => cases h
    case neg =>
      rw [unzipPullLoop_header library handle source hroom hempty hfew rfl rfl] at h
      obtain ⟨⟨err, filter', source'⟩, hfetch, h⟩ := Outcome.bind_eq_done.mp h
      change fetchPortion handle fuel _ _ source = _ at hfetch
      have hsettles : Outcome.Settles (fun fuel => fetchPortion handle fuel _ _ source) (err, filter', source') :=
        ⟨fuel, fun _ hle => fetchPortion_mono hmono hle hfetch⟩
      cases err with
      | error err => cases h
      | ok _ =>
        obtain ⟨⟨err, filter''⟩, hdone, h⟩ := Outcome.bind_eq_done.mp h
        cases err with
        | error err =>
          cases h
          cases decompress_error hdone
        | ok _ =>
          rcases ih (decompress_outputFits hdone) h with hnil | ⟨steps, hstarves, hout, hrest⟩
          · exact .inl hnil
          · exact .inr ⟨.header :: steps, .portion hpending hfew hsettles hdone hstarves, hout, hroom, hrest⟩

theorem unzipPull_empty_iff (hmono : HandlerMono handle) (hhandle : HandlerKeeps handle OutputFits)
    {flush : Bool} {size : Nat} {s : LzoFilter × S} (hfilter : s.1.OutputFits) :
    (∀ fuel out s', unzipPull library handle fuel flush size s = .done (.error .empty, out, s') → out = []) ↔
      (flush = false → ∀ steps, UnzipStarves library handle s steps → UnzipStep.Outlasted steps 0 size →
        UnzipStep.output steps = 0) := by
  constructor
  · rintro h rfl steps hstarves hroom
    have hroom' : UnzipStep.Outlasted steps ([] : Bytes).length size := hroom
    obtain ⟨out, s', hout, bound, hdone⟩ := hstarves.pull hhandle hfilter hroom'
    rw [h bound out s' (hdone bound (Nat.le_refl _))] at hout
    simpa using hout.symm
  · intro h fuel out s' hdone
    cases flush with
    | true => exact unzipPullLoop_flush hdone
    | false =>
      rcases unzipPullLoop_starves hmono hhandle hfilter hdone with hnil | ⟨steps, hstarves, hout, hroom⟩
      · exact hnil
      · rw [List.length_nil, Nat.zero_add] at hout
        rw [h rfl steps hstarves hroom] at hout
        exact List.length_eq_zero_iff.mp hout

end Unzip

end LzoFilter

namespace StreamFilter

/-- LZO must not starve behind output, within the size of the pull. -/
def StarvesEmptyHanded {S : Type} : (f : StreamFilter) → FaultHandler f.Filter S → Nat → f.Filter × S → Prop
  | zip _ _, _, _, _ => True
  | lzoZip library, handle, size, s => ∀ n, LzoFilter.ZipStarves library handle s n → n + n < size → n = 0
  | lzoUnzip library, handle, size, s =>
    ∀ steps, LzoFilter.UnzipStarves library handle s steps → LzoFilter.UnzipStep.Outlasted steps 0 size →
      LzoFilter.UnzipStep.output steps = 0

theorem pull_empty_iff {f : StreamFilter} {filter : f.Filter} (hfilter : f.Reached filter) {S : Type}
    (program : Nat → S → HandlerProgram S) (flush : Bool) (size : Nat) (source : S) :
    (∀ fuel out s', f.methods.pull S (HandlerProgram.handler f.methods program) fuel flush size (filter, source) =
      .done (.error .empty, out, s') → out = []) ↔
      (flush = false → f.StarvesEmptyHanded (HandlerProgram.handler f.methods program) size (filter, source)) := by
  cases f with
  | zip c library => exact ⟨fun _ _ => trivial, fun _ _ _ _ hdone => ZipFilter.pull_empty hdone⟩
  | lzoZip library =>
    exact LzoFilter.zipPull_empty_iff (HandlerProgram.handler_mono LzoFilter.zipMethods_mono program)
      (LzoFilter.zipHandler_keeps program) hfilter.outputFits_zip
  | lzoUnzip library =>
    exact LzoFilter.unzipPull_empty_iff (HandlerProgram.handler_mono LzoFilter.unzipMethods_mono program)
      (LzoFilter.unzipHandler_keeps program) hfilter.outputFits_unzip

/-- All of the input was compressed, and was pulled. -/
theorem pull_empty_with_output :
    (lzoZip literalLzo).Reached (LzoFilter.newZip [0, 0] fun _ => 0) ∧
      ∃ fuel out s', LzoFilter.zipPull literalLzo
        (HandlerProgram.handler (LzoFilter.zipMethods literalLzo) HandlerProgram.fromBuffer) fuel false 837
        (LzoFilter.newZip [0, 0] fun _ => 0, [7, 8]) = .done (.error .empty, out, s') ∧ out.length = 14 :=
  ⟨.new [0, 0] fun _ => 0, 8, _, _, rfl, by decide⟩

theorem pull_empty_iff_two :
    (∀ fuel out s', LzoFilter.zipPull literalLzo
        (HandlerProgram.handler (LzoFilter.zipMethods literalLzo) HandlerProgram.fromBuffer) fuel false 837
        (LzoFilter.newZip [0, 0] fun _ => 0, [7, 8]) = .done (.error .empty, out, s') → out = []) ↔
      (false = false → (lzoZip literalLzo).StarvesEmptyHanded
        (HandlerProgram.handler (LzoFilter.zipMethods literalLzo) HandlerProgram.fromBuffer) 837
        (LzoFilter.newZip [0, 0] fun _ => 0, [7, 8])) :=
  pull_empty_iff (f := lzoZip literalLzo) (.new [0, 0] fun _ => 0) HandlerProgram.fromBuffer false 837 [7, 8]

end StreamFilter

end Libchop
