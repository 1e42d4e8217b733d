import Libchop.Filter.LzoSizes
import Libchop.Filter.StreamChunking

/-!
# Pushes to the filters of LZO

A push of more than there is room for should be cut short.  `ZIP_PUSH_METHOD` only leaves its loop before the end
of the data when a fault handler fails: with no output to be pulled it never does.  When a handler succeeds, the
output buffer is recorded to be empty while it is not.
-/

namespace Libchop

namespace LzoObject

variable {library : LzoLibrary} {S : Type} {handle : FaultHandler LzoObject S} {filter filter' : LzoObject}
  {source source' : S}

section Push

variable {buffer : Bytes} {fuel offset size pushed n : Nat} {err : FilterStatus}

/-- The input lies where it was, with what was received behind it. -/
def unreadInput (filter : LzoObject) : Bytes := (filter.inputBuffer.drop filter.inputOffset).take filter.availIn

/-- Data is received behind the input. -/
def receive (filter : LzoObject) (data : Bytes) : LzoObject :=
  { filter with toLzoFilter := filter.toLzoFilter.receive (filter.inputOffset + filter.availIn) data }

theorem Sound.receive (h : filter.Sound) {data : Bytes}
    (hroom : data.length ≤ filter.inputBufferSize - (filter.inputOffset + filter.availIn)) :
    (filter.receive data).Sound := by
  have hle := h.input_le
  have hsize := h.inputBufferSize_eq
  refine ⟨⟨?_, h.outputBufferSize_eq⟩, ?_, h.outputBuffer_ne⟩
  · simp only [LzoObject.receive, LzoFilter.receive, List.length_append, List.length_take, List.length_drop]
    omega
  · simp only [LzoObject.receive, LzoFilter.receive]
    omega

theorem Sound.unreadInput_receive (h : filter.Sound) (data : Bytes) :
    (filter.receive data).unreadInput = filter.unreadInput ++ data := by
  have hle := h.input_le
  rw [h.inputBufferSize_eq] at hle
  have hkept : (filter.inputBuffer.take (filter.inputOffset + filter.availIn)).drop filter.inputOffset =
      filter.unreadInput := by
    rw [List.drop_take, Nat.add_sub_cancel_left, unreadInput]
  have hlength : filter.unreadInput.length = filter.availIn := by
    rw [unreadInput, List.length_take, List.length_drop]
    omega
  have hoffset : filter.inputOffset ≤ (filter.inputBuffer.take (filter.inputOffset + filter.availIn)).length := by
    rw [List.length_take]
    omega
  rw [unreadInput]
  simp only [LzoObject.receive, LzoFilter.receive]
  rw [List.append_assoc, List.drop_append_of_le_length hoffset, hkept, ← List.append_assoc]
  refine List.take_left' ?_
  rw [List.length_append, hlength]

/-- The rest of a push whose data was copied. -/
theorem pushLoop_zero (s : LzoObject × S) :
    pushLoop handle buffer (fuel + 1) s offset 0 pushed = .done (.ok (), pushed, s) := by
  obtain ⟨filter, source⟩ := s
  rfl

theorem outputFault_of_empty (hempty : filter.availOut = 0) (source : S) :
    outputFault handle fuel filter source = .done (.ok (), filter, source) := by
  rw [outputFault, if_neg (Nat.not_lt.mpr (Nat.le_of_eq hempty))]

/-- One round of the loop, with no output to be pulled. -/
theorem pushLoop_copy (hempty : filter.availOut = 0) (hsize : 0 < size)
    (hroom : 0 < filter.inputBufferSize - offset) :
    pushLoop handle buffer (fuel + 1) (filter, source) offset size pushed =
      let amount := min (filter.inputBufferSize - offset) size
      pushLoop handle buffer fuel
        ({ filter with toLzoFilter := filter.toLzoFilter.receive offset (buffer.take amount) }, source)
        (offset + amount) (size - amount) (pushed + amount) := by
  rw [pushLoop, if_pos hsize, outputFault_of_empty hempty, Outcome.done_bind]
  exact if_pos hroom

/-- With no output to be pulled, nothing can make room. -/
theorem pushLoop_stuck (hempty : filter.availOut = 0) (hmore : filter.inputBufferSize - offset < size) :
    ¬ (pushLoop handle buffer fuel (filter, source) offset size pushed).Returns := by
  induction fuel generalizing filter offset size pushed with
  | zero =>
    rintro ⟨result, h⟩
    cases h
  | succ fuel ih =>
    have hsize : 0 < size := Nat.zero_lt_of_lt hmore
    by_cases hroom : 0 < filter.inputBufferSize - offset
    · rw [pushLoop_copy hempty hsize hroom]
      refine ih hempty ?_
      dsimp only
      omega
    · rw [pushLoop, if_pos hsize, outputFault_of_empty hempty, Outcome.done_bind]
      dsimp only
      rw [if_neg hroom]
      exact ih hempty hmore

/-- The size is not recorded again. -/
theorem pushLoop_emptied (hhandle : HandlerKeeps handle Emptied) {s s' : LzoObject × S} (hfilter : s.1.Emptied)
    (h : pushLoop handle buffer fuel s offset size pushed = .done (err, n, s')) : s'.1.Emptied := by
  induction fuel generalizing s offset size pushed with
  | zero => cases h
  | succ fuel ih =>
    obtain ⟨filter, source⟩ := s
    rw [pushLoop] at h
    split at h
    case isFalse =>
      cases h
      exact hfilter
    obtain ⟨⟨err', filter', source'⟩, hfault, h⟩ := Outcome.bind_eq_done.mp h
    have hfilter' : filter'.Emptied := by
      rw [outputFault] at hfault
      split at hfault
      · obtain ⟨⟨err'', filter'', source''⟩, hdone, hfault⟩ := Outcome.bind_eq_done.mp hfault
        have hfilter'' := hhandle.keeps hfilter hdone
        cases err'' with
        | ok _ =>
          cases hfault
          exact ⟨rfl, hfilter''.outputBuffer_ne⟩
        | error err'' =>
          cases hfault
          exact hfilter''
      · cases hfault
        exact hfilter
    cases err' with
    | error err' =>
      cases h
      exact hfilter'
    | ok _ =>
      dsimp only at h
      split at h
      · refine ih ?_ h
        exact ⟨hfilter'.outputBufferSize_eq, hfilter'.outputBuffer_ne⟩
      · exact ih hfilter' h

/-- With output to be pulled, the loop ends with the handler's failure, or goes on without a size. -/
theorem pushLoop_pending (hsize : 0 < size) (hpending : filter.availOut > 0)
    (h : pushLoop handle buffer (fuel + 1) (filter, source) offset size pushed = .done (err, n, filter', source')) :
    ∃ err' filter'' source'', handle fuel filter.outputBufferSize filter source = .done (err', filter'', source'') ∧
      (err' ≠ .ok () → filter' = filter'') ∧
      (err' = .ok () → HandlerKeeps handle Emptied → filter''.outputBuffer ≠ [] → filter'.Emptied) := by
  rw [pushLoop, if_pos hsize, outputFault, if_pos hpending, Outcome.bind_assoc] at h
  obtain ⟨⟨err', filter'', source''⟩, hhandle, h⟩ := Outcome.bind_eq_done.mp h
  refine ⟨err', filter'', source'', hhandle, ?_⟩
  cases err' with
  | error e =>
    cases h
    exact ⟨fun _ => rfl, fun hok => nomatch hok⟩
  | ok _ =>
    refine ⟨fun hne => absurd rfl hne, fun _ hkeeps hne => ?_⟩
    rw [Outcome.done_bind] at h
    dsimp only at h
    split at h
    · exact pushLoop_emptied hkeeps ⟨rfl, hne⟩ h
    · exact pushLoop_emptied hkeeps ⟨rfl, hne⟩ h

variable {data : Bytes}

theorem push_of_le (hle : filter.inputOffset + filter.availIn ≤ filter.inputBufferSize) (source : S)
    (data : Bytes) :
    push handle fuel (filter, source) data =
      pushLoop handle data fuel (filter, source) (filter.inputOffset + filter.availIn) data.length 0 := by
  rw [push]
  dsimp only
  rw [Outcome.assert_of hle, Outcome.done_bind]

theorem push_nil (h : filter.Sound) (source : S) :
    push handle (fuel + 1) (filter, source) [] = .done (.ok (), 0, filter, source) := by
  rw [push_of_le h.input_le]
  exact pushLoop_zero (filter, source)

theorem push_fits (h : filter.Sound) (hempty : filter.availOut = 0) (source : S) (hdata : data ≠ [])
    (hroom : data.length ≤ filter.inputBufferSize - (filter.inputOffset + filter.availIn)) :
    push handle (fuel + 2) (filter, source) data = .done (.ok (), data.length, filter.receive data, source) := by
  have hpos := List.length_pos_iff.mpr hdata
  rw [push_of_le h.input_le, pushLoop_copy hempty hpos (Nat.lt_of_lt_of_le hpos hroom)]
  dsimp only
  rw [Nat.min_eq_right hroom, List.take_length, Nat.sub_self, Nat.zero_add]
  exact pushLoop_zero _

/-- A fault whose handler fails ends the first round. -/
theorem push_refused (h : filter.Sound) (hpending : filter.availOut > 0) (hdata : data ≠ []) {e : FilterError}
    (hrefused : handle fuel filter.outputBufferSize filter source = .done (.error e, filter', source')) :
    push handle (fuel + 1) (filter, source) data = .done (pushFault 0 e, 0, filter', source') := by
  rw [push_of_le h.input_le, pushLoop, if_pos (List.length_pos_iff.mpr hdata), outputFault, if_pos hpending,
    hrefused]
  rfl

/-- How a push returns: with nothing to do, with all the data, or after a fault. -/
theorem push_done (h : push handle fuel (filter, source) data = .done (err, n, filter', source')) :
    (data = [] ∧ filter' = filter) ∨
      (filter.availOut = 0 ∧ data.length ≤ filter.inputBufferSize - (filter.inputOffset + filter.availIn) ∧
        filter' = filter.receive data) ∨
      (filter.availOut > 0 ∧ data ≠ [] ∧ ∃ fuel' err' filter'' source'', fuel = fuel' + 1 ∧
        handle fuel' filter.outputBufferSize filter source = .done (err', filter'', source'') ∧
        (err' ≠ .ok () → filter' = filter'') ∧
        (err' = .ok () → HandlerKeeps handle Emptied → filter''.outputBuffer ≠ [] → filter'.Emptied)) := by
  obtain ⟨_, _, h⟩ := Outcome.bind_eq_done.mp h
  dsimp only at h
  cases fuel with
  | zero => cases h
  | succ fuel =>
    by_cases hdata : data = []
    · subst hdata
      rw [List.length_nil, pushLoop_zero] at h
      cases h
      exact .inl ⟨rfl, rfl⟩
    have hpos := List.length_pos_iff.mpr hdata
    by_cases hpending : filter.availOut > 0
    · refine .inr (.inr ⟨hpending, hdata, ?_⟩)
      obtain ⟨err', filter'', source'', hhandle, hresult⟩ := pushLoop_pending hpos hpending h
      exact ⟨fuel, err', filter'', source'', rfl, hhandle, hresult⟩
    · have hempty := Nat.eq_zero_of_not_pos hpending
      by_cases hroom : data.length ≤ filter.inputBufferSize - (filter.inputOffset + filter.availIn)
      · refine .inr (.inl ⟨hempty, hroom, ?_⟩)
        rw [pushLoop_copy hempty hpos (Nat.lt_of_lt_of_le hpos hroom)] at h
        dsimp only at h
        rw [Nat.min_eq_right hroom, List.take_length, Nat.sub_self] at h
        cases fuel with
        | zero => cases h
        | succ fuel =>
          rw [pushLoop_zero] at h
          cases h
          rfl
      · exact (pushLoop_stuck hempty (Nat.not_le.mp hroom) ⟨_, h⟩).elim

/-- A push keeps the sizes unless its fault is handled. -/
theorem push_sound (hfilter : filter.Sound) (hhandle : HandlerKeeps handle Sound)
    (hrefused : filter.availOut > 0 → data ≠ [] → ∀ fuel' filter'' source'', fuel = fuel' + 1 →
      handle fuel' filter.outputBufferSize filter source ≠ .done (.ok (), filter'', source''))
    (h : push handle fuel (filter, source) data = .done (err, n, filter', source')) : filter'.Sound := by
  rcases push_done h with ⟨-, rfl⟩ | ⟨-, hroom, rfl⟩ |
    ⟨hpending, hdata, fuel', err', filter'', source'', hfuel, hdone, hfailed, -⟩
  · exact hfilter
  · exact hfilter.receive hroom
  · have hne : err' ≠ .ok () := by
      rintro rfl
      exact hrefused hpending hdata fuel' filter'' source'' hfuel hdone
    rw [hfailed hne]
    exact hhandle.keeps hfilter hdone

theorem pushUnhandled_sound (direction : ZipDirection) : PushKeeps (methods library direction) Sound where
  keeps hfilter hdone := by
    obtain ⟨⟨err, n, filter', _⟩, hpush, hdone⟩ := Outcome.bind_eq_done.mp hdone
    cases hdone
    exact push_sound hfilter (unhandled_keeps Sound) (fun _ _ _ _ _ _ hok => nomatch hok) hpush

theorem pushUnhandled_emptied (direction : ZipDirection) : PushKeeps (methods library direction) Emptied where
  keeps hfilter hdone := by
    obtain ⟨⟨err, n, filter', _⟩, hpush, hdone⟩ := Outcome.bind_eq_done.mp hdone
    obtain ⟨_, _, hloop⟩ := Outcome.bind_eq_done.mp hpush
    cases hdone
    exact pushLoop_emptied (unhandled_keeps Emptied) hfilter hloop

end Push

section Returns

variable (handle) in
/-- A push that takes what it is given, or whose fault is not handled. -/
inductive Absorbs (filter : LzoObject) (source : S) (data : Bytes) : Prop
  | nothing (nil : data = [])
  | fits (empty : filter.availOut = 0)
      (room : data.length ≤ filter.inputBufferSize - (filter.inputOffset + filter.availIn))
  | refused (pending : filter.availOut > 0)
      (fails : Outcome.Eventually (fun fuel => handle fuel filter.outputBufferSize filter source)
        fun result => result.1 ≠ .ok ())

variable (handle) in
/-- A push that returns took a part of the data from its beginning.  If it took none of it then it was because of a
fault; the error is that of the handler, or `CHOP_FILTER_FULL` if there is none. -/
structure Pushed (filter : LzoObject) (source : S) (data : Bytes) (result : FilterStatus × Nat × LzoObject × S) :
    Prop where
  absorbed : result.1 = .ok () → result.2.1 ≤ data.length ∧ (data ≠ [] → 0 < result.2.1) ∧
    result.2.2.1.unreadInput = filter.unreadInput ++ data.take result.2.1
  refused : ∀ err, result.1 = .error err → result.2.1 = 0 ∧ filter.availOut > 0 ∧
    ∃ fuel err', handle fuel filter.outputBufferSize filter source = .done (.error err', result.2.2) ∧
      err = if err' = .unhandledFault then .full else err'
  described : result.2.2.1.Described

theorem pushFault_zero (err : FilterError) :
    pushFault 0 err = .error (if err = .unhandledFault then .full else err) := by
  cases err with
  | unhandledFault | empty | error | full | other err => rfl

theorem pushed_of_absorbs {data : Bytes} (hfilter : filter.Sound) (hhandle : HandlerKeeps handle Sound)
    (h : Absorbs handle filter source data) :
    Outcome.Eventually (fun fuel => push handle fuel (filter, source) data) (Pushed handle filter source data) := by
  by_cases hdata : data = []
  · subst hdata
    refine .of_add 1 (fun fuel => push_nil hfilter source) ⟨fun _ => ⟨Nat.zero_le _, fun hne => ?_, ?_⟩, ?_, ?_⟩
    · exact absurd rfl hne
    · exact (List.append_nil _).symm
    · exact fun err herr => nomatch herr
    · exact hfilter.toDescribed
  cases h with
  | nothing hnil => exact absurd hnil hdata
  | fits hempty hroom =>
    refine .of_add 2 (fun fuel => push_fits hfilter hempty source hdata hroom)
      ⟨fun _ => ⟨?_, fun _ => ?_, ?_⟩, ?_, ?_⟩
    · exact Nat.le_refl _
    · exact List.length_pos_iff.mpr hdata
    · dsimp only
      rw [List.take_length]
      exact hfilter.unreadInput_receive data
    · exact fun err herr => nomatch herr
    · exact (hfilter.receive hroom).toDescribed
  | refused hpending hfails =>
    refine hfails.succ ?_
    rintro fuel ⟨err, filter', source'⟩ hdone herr
    cases err with
    | ok _ => exact absurd rfl herr
    | error err =>
      refine ⟨_, push_refused hfilter hpending hdata hdone, ?_, ?_, ?_⟩
      · rw [pushFault_zero]
        exact fun hok => nomatch hok
      · rw [pushFault_zero]
        rintro err' ⟨⟩
        exact ⟨rfl, hpending, fuel, err, hdone, rfl⟩
      · exact (hhandle.keeps hfilter hdone).toDescribed

theorem absorbs_of_pushed {data : Bytes} (hfilter : filter.Sound) (hsound : HandlerKeeps handle Sound)
    (hemptied : HandlerKeeps handle Emptied)
    (h : Outcome.Eventually (fun fuel => push handle fuel (filter, source) data)
      (Pushed handle filter source data)) :
    Absorbs handle filter source data := by
  by_cases hdata : data = []
  · exact .nothing hdata
  by_cases hpending : filter.availOut > 0
  · refine .refused hpending (h.pred ?_)
    rintro fuel ⟨err, n, filter', source'⟩ hpush hpushed
    rcases push_done hpush with ⟨hnil, -⟩ | ⟨hempty, -⟩ |
      ⟨-, -, fuel', err', filter'', source'', hfuel, hdone, -, hhandled⟩
    · exact absurd hnil hdata
    · exact absurd hpending (Nat.not_lt.mpr (Nat.le_of_eq hempty))
    · cases hfuel
      refine ⟨_, hdone, fun hok => ?_⟩
      have hne := (hsound.keeps hfilter hdone).outputBuffer_ne
      exact (hhandled hok hemptied hne).not_described hpushed.described
  · have hempty := Nat.eq_zero_of_not_pos hpending
    by_cases hroom : data.length ≤ filter.inputBufferSize - (filter.inputOffset + filter.availIn)
    · exact .fits hempty hroom
    · refine absurd h (Outcome.Eventually.not_of_never fun fuel => ?_)
      rw [push_of_le hfilter.input_le]
      exact pushLoop_stuck hempty (Nat.not_le.mp hroom)

/-- The sizes stay right as long as the pushes absorb their data. -/
theorem Absorbs.sound {data : Bytes} {err : FilterStatus} {n : Nat} (h : Absorbs handle filter source data)
    (hfilter : filter.Sound) (hhandle : HandlerKeeps handle Sound)
    (hpush : Outcome.Settles (fun fuel => push handle fuel (filter, source) data) (err, n, filter', source')) :
    filter'.Sound := by
  obtain ⟨bound, hpush⟩ := hpush
  cases h with
  | nothing hnil =>
    refine push_sound hfilter hhandle ?_ (hpush bound (Nat.le_refl bound))
    exact fun _ hdata => absurd hnil hdata
  | fits hempty _ =>
    refine push_sound hfilter hhandle ?_ (hpush bound (Nat.le_refl bound))
    exact fun hpending => absurd hpending (Nat.not_lt.mpr (Nat.le_of_eq hempty))
  | refused _ hfails =>
    obtain ⟨bound', hfails⟩ := hfails
    refine push_sound hfilter hhandle ?_ (hpush (max bound (bound' + 1)) (Nat.le_max_left _ _))
    intro _ _ fuel' filter'' source'' hfuel hdone
    obtain ⟨result, hresult, hne⟩ := hfails fuel' (by omega)
    cases hdone.symm.trans hresult
    exact hne rfl

/-- The states of a filter that is pushed to and pulled from, with whatever handlers, when the data of each push is
absorbed. -/
inductive Reached (library : LzoLibrary) (direction : ZipDirection) : LzoObject → Prop
  | new (inputSize : Nat) (junk junk' : Nat → UInt8) :
      Reached library direction (new direction inputSize junk junk')
  | push {filter filter' : LzoObject} {S : Type} {source source' : S} {program : Nat → S → HandlerProgram S}
      {data : Bytes} {err : FilterStatus} {n : Nat} (h : Reached library direction filter)
      (habsorbs : Absorbs (HandlerProgram.handler (methods library direction) program) filter source data)
      (hpush : Outcome.Settles
        (fun fuel => push (HandlerProgram.handler (methods library direction) program) fuel (filter, source) data)
        (err, n, filter', source')) : Reached library direction filter'
  | pull {filter filter' : LzoObject} {S : Type} {source source' : S} {program : Nat → S → HandlerProgram S}
      {size : Nat} {flush : Bool} {out : Bytes} {err : FilterStatus} (h : Reached library direction filter)
      (hpull : Outcome.Settles
        (fun fuel => pull library direction (HandlerProgram.handler (methods library direction) program) fuel flush
          size (filter, source))
        (err, out, filter', source')) : Reached library direction filter'

theorem initialOutputSize_pos (inputSize : Nat) (direction : ZipDirection) :
    0 < initialOutputSize (initialInputSize inputSize direction) direction := by
  cases direction with
  | zip => exact Nat.succ_pos _
  | unzip =>
    rw [initialOutputSize, initialInputSize, Nat.shiftLeft_eq]
    split
    · omega
    · decide

theorem new_sound (direction : ZipDirection) (inputSize : Nat) (junk junk' : Nat → UInt8) :
    (new direction inputSize junk junk').Sound where
  inputBufferSize_eq := by
    simp only [new, List.length_map, List.length_range]
  outputBufferSize_eq := by
    simp only [new, List.length_map, List.length_range]
  input_le := Nat.zero_le _
  outputBuffer_ne := by
    refine List.ne_nil_of_length_pos ?_
    simp only [new, List.length_map, List.length_range]
    exact initialOutputSize_pos inputSize direction

theorem handler_sound (hlibrary : library.WritesWithin) (direction : ZipDirection)
    (program : Nat → S → HandlerProgram S) :
    HandlerKeeps (HandlerProgram.handler (methods library direction) program) Sound :=
  handler_keeps (sound_steps hlibrary) direction (pushUnhandled_sound direction) program

theorem handler_emptied (hlibrary : library.WritesWithin) (direction : ZipDirection)
    (program : Nat → S → HandlerProgram S) :
    HandlerKeeps (HandlerProgram.handler (methods library direction) program) Emptied :=
  handler_keeps (emptied_steps hlibrary) direction (pushUnhandled_emptied direction) program

theorem Reached.sound (hlibrary : library.WritesWithin) {direction : ZipDirection}
    (h : Reached library direction filter) : filter.Sound := by
  induction h with
  | new inputSize junk junk' => exact new_sound direction inputSize junk junk'
  | push _ habsorbs hpush ih => exact habsorbs.sound ih (handler_sound hlibrary direction _) hpush
  | pull _ hpull ih =>
    obtain ⟨bound, hpull⟩ := hpull
    exact pull_keeps (sound_steps hlibrary) direction (handler_sound hlibrary direction _) ih
      (hpull bound (Nat.le_refl bound))

/-- A push returns, with the data absorbed and the sizes right, if and only if the data fits while no output waits,
or the output fault fails. -/
theorem push_returns_iff (hlibrary : library.WritesWithin) {direction : ZipDirection}
    (hfilter : Reached library direction filter) (program : Nat → S → HandlerProgram S) (source : S)
    (data : Bytes) :
    filter.Described ∧
      (Outcome.Eventually
        (fun fuel => push (HandlerProgram.handler (methods library direction) program) fuel (filter, source) data)
        (Pushed (HandlerProgram.handler (methods library direction) program) filter source data) ↔
      Absorbs (HandlerProgram.handler (methods library direction) program) filter source data) := by
  have hsound := hfilter.sound hlibrary
  refine ⟨hsound.toDescribed, ?_, ?_⟩
  · exact absorbs_of_pushed hsound (handler_sound hlibrary direction program)
      (handler_emptied hlibrary direction program)
  · exact pushed_of_absorbs hsound (handler_sound hlibrary direction program)

theorem literalLzo_writesWithin : literalLzo.WritesWithin := by
  intro data out room h
  cases data with
  | nil =>
    cases h with
    | inl h => cases h
    | inr h =>
      cases h
      exact Nat.zero_le _
  | cons run rest =>
    simp only [literalLzo] at h
    split at h
    · next hrest =>
      cases h with
      | inl h =>
        cases h
        exact hrest.2
      | inr h => cases h
    · cases h with
      | inl h => cases h
      | inr h =>
        cases h
        exact Nat.zero_le _

def noHandler (_ : Nat) (source : Unit) : HandlerProgram Unit := .stop (.error .unhandledFault) source

/-- A byte more than the input buffer of a new filter holds. -/
theorem push_five_never_returns :
    Reached literalLzo .zip (new .zip 4 (fun _ => 0) fun _ => 0) ∧
      (∀ fuel, ¬ (push (HandlerProgram.handler (methods literalLzo .zip) noHandler) fuel
        (new .zip 4 (fun _ => 0) fun _ => 0, ()) [1, 2, 3, 4, 5]).Returns) ∧
      ¬ Outcome.Eventually
        (fun fuel => push (HandlerProgram.handler (methods literalLzo .zip) noHandler) fuel
          (new .zip 4 (fun _ => 0) fun _ => 0, ()) [1, 2, 3, 4, 5])
        (Pushed (HandlerProgram.handler (methods literalLzo .zip) noHandler)
          (new .zip 4 (fun _ => 0) fun _ => 0) () [1, 2, 3, 4, 5]) := by
  have hnever : ∀ fuel, ¬ (push (HandlerProgram.handler (methods literalLzo .zip) noHandler) fuel
      (new .zip 4 (fun _ => 0) fun _ => 0, ()) [1, 2, 3, 4, 5]).Returns := by
    intro fuel
    rw [push_of_le (new_sound .zip 4 _ _).input_le]
    exact pushLoop_stuck rfl (by decide)
  exact ⟨.new 4 _ _, hnever, Outcome.Eventually.not_of_never hnever⟩

theorem push_returns_iff_three :
    (new .zip 4 (fun _ => 0) fun _ => 0).Described ∧
      (Outcome.Eventually
        (fun fuel => push (HandlerProgram.handler (methods literalLzo .zip) noHandler) fuel
          (new .zip 4 (fun _ => 0) fun _ => 0, ()) [1, 2, 3])
        (Pushed (HandlerProgram.handler (methods literalLzo .zip) noHandler)
          (new .zip 4 (fun _ => 0) fun _ => 0) () [1, 2, 3]) ↔
      Absorbs (HandlerProgram.handler (methods literalLzo .zip) noHandler)
        (new .zip 4 (fun _ => 0) fun _ => 0) () [1, 2, 3]) :=
  push_returns_iff literalLzo_writesWithin (.new 4 (fun _ => 0) fun _ => 0) noHandler () [1, 2, 3]

end Returns

end LzoObject

end Libchop
