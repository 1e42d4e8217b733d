import Libchop.Filter.LzoFilters

/-!
# What the zip filter of LZO delivers

The input is cut into portions of the size of the input buffer, however it arrives, and each of them is
compressed on its own.
-/

namespace Libchop

namespace LzoFilter

/-- The output that waits to be pulled lies in the output buffer. -/
structure OutputFits (filter : LzoFilter) : Prop where
  fits : filter.outputOffset + filter.availOut ≤ filter.outputBuffer.length
  rewound : filter.availOut = 0 → filter.outputOffset = 0

theorem OutputFits.length_pendingOutput {filter : LzoFilter} (h : filter.OutputFits) :
    filter.pendingOutput.length = filter.availOut := by
  have hfits := h.fits
  rw [pendingOutput, List.length_take, List.length_drop]
  omega

theorem pendingOutput_eq_nil {filter : LzoFilter} (h : filter.availOut = 0) :
    filter.pendingOutput = [] := by
  rw [pendingOutput, h, List.take_zero]

/-- What is left when some output was pulled. -/
theorem OutputFits.drain {filter : LzoFilter} (h : filter.OutputFits) {amount : Nat}
    (hle : amount ≤ filter.availOut) :
    (filter.drain amount).OutputFits ∧
      (filter.drain amount).pendingOutput = filter.pendingOutput.drop amount := by
  have hfits := h.fits
  by_cases hall : filter.availOut - amount = 0
  · have hdrain : filter.drain amount = { filter with availOut := 0, outputOffset := 0 } := by
      simp only [LzoFilter.drain, hall, if_true]
    rw [hdrain]
    refine ⟨⟨Nat.zero_le _, fun _ => rfl⟩, ?_⟩
    rw [pendingOutput_eq_nil rfl, List.drop_eq_nil_of_le]
    rw [h.length_pendingOutput]
    omega
  · have hdrain : filter.drain amount = { filter with
        availOut := filter.availOut - amount, outputOffset := filter.outputOffset + amount } := by
      simp only [LzoFilter.drain, hall, if_false]
    rw [hdrain]
    refine ⟨⟨?_, fun hzero => absurd hzero hall⟩, ?_⟩
    · change filter.outputOffset + amount + (filter.availOut - amount) ≤ filter.outputBuffer.length
      omega
    · simp only [pendingOutput, List.drop_take, List.drop_drop]

/-- Some output is pulled. -/
theorem OutputFits.take_append_drain {filter : LzoFilter} (h : filter.OutputFits) {amount : Nat}
    (hle : amount ≤ filter.availOut) :
    filter.pendingOutput =
        filter.pendingOutput.take amount ++ (filter.drain amount).pendingOutput ∧
      (filter.pendingOutput.take amount).length = amount := by
  rw [(h.drain hle).2, List.take_append_drop, List.length_take, h.length_pendingOutput]
  exact ⟨rfl, Nat.min_eq_left hle⟩

/-- A filter without output takes all that it has room for, in two rounds of the loop. -/
theorem push_fuel {filter : LzoFilter} (hempty : filter.availOut = 0) {data : Bytes}
    (hdata : data ≠ [])
    (hfits : filter.inputOffset + filter.availIn + data.length ≤ filter.inputBuffer.length)
    (fuel : Nat) :
    push fuel filter data = if fuel < 2 then .outOfFuel else
      .done (.ok (), data.length, filter.receive (filter.inputOffset + filter.availIn) data) := by
  have hpos := List.length_pos_of_ne_nil hdata
  have hoffset : filter.inputOffset + filter.availIn ≤ filter.inputBuffer.length := by omega
  have hnone : ¬ filter.availOut > 0 := by omega
  have havailable : filter.inputBuffer.length - (filter.inputOffset + filter.availIn) > 0 := by omega
  have hamount : min (filter.inputBuffer.length - (filter.inputOffset + filter.availIn))
      data.length = data.length := by omega
  rw [push, Outcome.assert_of hoffset, Outcome.done_bind]
  cases fuel with
  | zero => rfl
  | succ fuel =>
    simp only [pushLoop, if_neg hdata, if_neg hnone, if_pos havailable, hamount, List.take_length,
      List.drop_length, Nat.zero_add]
    cases fuel with
    | zero => rfl
    | succ fuel => rw [pushLoop, if_pos rfl, if_neg (by omega)]

theorem push_eq {filter : LzoFilter} (hempty : filter.availOut = 0) {data : Bytes} (hdata : data ≠ [])
    (hfits : filter.inputOffset + filter.availIn + data.length ≤ filter.inputBuffer.length) :
    Outcome.Settles (fun fuel => push fuel filter data)
      (.ok (), data.length, filter.receive (filter.inputOffset + filter.availIn) data) := by
  refine ⟨2, fun fuel hfuel => ?_⟩
  exact (push_fuel hempty hdata hfits fuel).trans (if_neg (Nat.not_lt_of_le hfuel))

/-- The input that was received from the beginning of the input buffer on. -/
def pendingInput (filter : LzoFilter) : Bytes := filter.inputBuffer.take filter.availIn

section Zip

variable (library : LzoLibrary) (bufferSize : Nat)

/-- `chop_lzo_zip_filter_init` allocates so much for the output. -/
def zipOutputSize : Nat := bufferSize + (bufferSize >>> 6) + 100

/-- A portion of the input behind its header, if the sizes can be written there and LZO keeps to the
output buffer. -/
def zipPortion (portion : Bytes) : Option Bytes :=
  let out := library.lzo1xCompress portion
  if out.length + 8 ≤ zipOutputSize bufferSize ∧ portion.length < 2 ^ 32 ∧ out.length < 2 ^ 32 then
    some (ByteOrder.storeBe out.length ++ ByteOrder.storeBe portion.length ++ out)
  else none

/-- All portions of an input. -/
def zipCode (input : Bytes) : Option Bytes :=
  if input = [] then some []
  else if bufferSize = 0 then none
  else
    (zipPortion library bufferSize (input.take bufferSize)).bind fun portion =>
      (zipCode (input.drop bufferSize)).map (portion ++ ·)
termination_by input.length
decreasing_by
  rename_i hinput hsize
  have hpos := List.length_pos_of_ne_nil hinput
  rw [List.length_drop]
  omega

variable {library bufferSize}

theorem zipCode_nil : zipCode library bufferSize [] = some [] := by
  rw [zipCode, if_pos rfl]

theorem zipCode_eq_some {input coded : Bytes} (hinput : input ≠ []) (hsize : 0 < bufferSize)
    (h : zipCode library bufferSize input = some coded) :
    ∃ portion coded', zipPortion library bufferSize (input.take bufferSize) = some portion ∧
      zipCode library bufferSize (input.drop bufferSize) = some coded' ∧
      coded = portion ++ coded' := by
  rw [zipCode, if_neg hinput, if_neg (Nat.ne_of_gt hsize)] at h
  obtain ⟨portion, hportion, h⟩ := Option.bind_eq_some_iff.mp h
  obtain ⟨coded', hcoded', rfl⟩ := Option.map_eq_some_iff.mp h
  exact ⟨portion, coded', hportion, hcoded', rfl⟩

variable (bufferSize) in
structure ZipReady (filter : LzoFilter) : Prop extends OutputFits filter where
  input_length : filter.inputBuffer.length = bufferSize
  pos : 0 < bufferSize
  inputOffset_eq : filter.inputOffset = 0
  availIn_le : filter.availIn ≤ bufferSize
  output_length : filter.outputBuffer.length = zipOutputSize bufferSize

variable {filter : LzoFilter}

theorem ZipReady.length_pendingInput (h : ZipReady bufferSize filter) :
    filter.pendingInput.length = filter.availIn := by
  rw [pendingInput, List.length_take, h.input_length]
  exact Nat.min_eq_left h.availIn_le

theorem ZipReady.drain (h : ZipReady bufferSize filter) {amount : Nat}
    (hle : amount ≤ filter.availOut) : ZipReady bufferSize (filter.drain amount) where
  toOutputFits := (h.toOutputFits.drain hle).1
  input_length := h.input_length
  pos := h.pos
  inputOffset_eq := h.inputOffset_eq
  availIn_le := h.availIn_le
  output_length := h.output_length

/-- Input is collected in the input buffer. -/
theorem ZipReady.receive (h : ZipReady bufferSize filter) (hempty : filter.availOut = 0)
    {data : Bytes} (hdata : data ≠ []) (hle : data.length ≤ bufferSize - filter.availIn) :
    ∃ filter', Outcome.Settles (fun fuel => push fuel filter data) (.ok (), data.length, filter') ∧
      ZipReady bufferSize filter' ∧ filter'.availOut = 0 ∧
      filter'.availIn = filter.availIn + data.length ∧
      filter'.pendingInput = filter.pendingInput ++ data := by
  have hlength := h.input_length
  have havail := h.availIn_le
  have hpush := push_eq hempty hdata (by rw [h.inputOffset_eq]; omega)
  rw [h.inputOffset_eq, Nat.zero_add] at hpush
  refine ⟨_, hpush, ⟨⟨h.fits, h.rewound⟩, ?_, h.pos, h.inputOffset_eq, ?_, h.output_length⟩, hempty,
    rfl, ?_⟩
  · simp only [LzoFilter.receive, List.length_append, List.length_take, List.length_drop]
    omega
  · simp only [LzoFilter.receive]
    omega
  · have hfront : (filter.inputBuffer.take filter.availIn ++ data).length =
        filter.availIn + data.length := by
      rw [List.length_append, List.length_take]
      omega
    simp only [pendingInput, LzoFilter.receive]
    rw [← hfront, List.take_left]

/-- The collected input is compressed as one portion. -/
theorem ZipReady.compress (h : ZipReady bufferSize filter) (hempty : filter.availOut = 0)
    {portion : Bytes} (hportion : zipPortion library bufferSize filter.pendingInput = some portion) :
    ∃ filter', compress library filter = .done (.ok (), filter') ∧ ZipReady bufferSize filter' ∧
      filter'.availIn = 0 ∧ filter'.pendingOutput = portion := by
  have hlength := h.length_pendingInput
  have houtput := h.output_length
  rw [zipPortion] at hportion
  split at hportion
  case isFalse => cases hportion
  case isTrue hsizes =>
    cases hportion
    obtain ⟨hfits, hin, hout⟩ := hsizes
    rw [← houtput] at hfits
    rw [hlength] at hin
    have hnot : ¬ (filter.availIn ≥ 2 ^ 32 ∨
        (library.lzo1xCompress filter.pendingInput).length ≥ 2 ^ 32) := by omega
    let out := library.lzo1xCompress filter.pendingInput
    let header := ByteOrder.storeBe out.length ++ ByteOrder.storeBe filter.availIn
    let filter' : LzoFilter := { filter with
      outputBuffer := header ++ out ++ filter.outputBuffer.drop (out.length + 8)
      availIn := 0
      availOut := out.length + 8 }
    have hfront : (header ++ out).length = out.length + 8 := by
      simp only [header, List.length_append, ByteOrder.length_storeBe]
      omega
    have hbuffer : filter'.outputBuffer.length = filter.outputBuffer.length := by
      change (header ++ out ++ filter.outputBuffer.drop (out.length + 8)).length = _
      rw [List.length_append, hfront, List.length_drop]
      exact Nat.add_sub_cancel' hfits
    have hoffset : filter'.outputOffset = 0 := h.rewound hempty
    refine ⟨filter', ?_, ⟨⟨?_, nofun⟩, h.input_length, h.pos, h.inputOffset_eq, Nat.zero_le _,
      hbuffer.trans houtput⟩, rfl, ?_⟩
    · rw [LzoFilter.compress]
      change Outcome.assert (out.length + 8 ≤ filter.outputBuffer.length) >>= _ = _
      rw [Outcome.assert_of hfits, Outcome.done_bind]
      exact if_neg hnot
    · rw [hoffset, hbuffer, Nat.zero_add]
      exact hfits
    · rw [pendingOutput, hoffset, List.drop_zero, hlength]
      change (header ++ out ++ filter.outputBuffer.drop (out.length + 8)).take (out.length + 8) = _
      rw [← hfront, List.take_left]

variable (library bufferSize) {S : Type} (rest : S → Bytes)

/-- The filter will deliver `out`, from its buffers and what its source has left. -/
def ZipPulling (n : Nat) (s : LzoFilter × S) (out : Bytes) : Prop :=
  ZipReady bufferSize s.1 ∧ ∃ coded,
    zipCode library bufferSize (s.1.pendingInput ++ rest s.2) = some coded ∧
    out = s.1.pendingOutput ++ coded ∧ n = out.length

/-- The filter will deliver `out` when it is flushed. -/
def ZipDraining : Nat → LzoFilter × S → Bytes → Prop :=
  ZipPulling library bufferSize fun _ => []

structure ZipIdle (filter : LzoFilter) : Prop extends ZipReady bufferSize filter where
  availIn_eq : filter.availIn = 0
  availOut_eq : filter.availOut = 0

/-- How a pull ends when there is no more input. -/
def ZipEnds (flush : Bool) (size : Nat) (pulled : Bytes) (s : LzoFilter × S) (out : Bytes) : Prop :=
  match flush with
  | false => pulled.length < size ∧ ∃ n, ZipDraining library bufferSize n s out
  | true => pulled = [] ∧ out = [] ∧ ZipIdle bufferSize s.1

variable {library bufferSize rest} {handle : FaultHandler LzoFilter S}

theorem ZipPulling.intro {source : S} {coded : Bytes} (h : ZipReady bufferSize filter)
    (hcode : zipCode library bufferSize (filter.pendingInput ++ rest source) = some coded) :
    ZipPulling library bufferSize rest (filter.pendingOutput ++ coded).length (filter, source)
      (filter.pendingOutput ++ coded) :=
  ⟨h, coded, hcode, rfl, rfl⟩

variable (library handle) in
/-- The handler is called when there is neither output nor enough input. -/
theorem zipPullLoop_fault (source : S) {size : Nat} {pulled : Bytes} (hroom : pulled.length < size)
    (hempty : filter.availOut = 0) (hspace : filter.availIn < filter.inputBuffer.length) (fuel : Nat) :
    zipPullLoop library handle false (fuel + 1) (filter, source) size pulled =
      (handle fuel (filter.inputBuffer.length - filter.availIn) filter source >>=
        fun (err, filter, source) =>
          match err with
          | .ok _ => zipPullLoop library handle false fuel (filter, source) size pulled
          | .error .unhandledFault => .done (.error .empty, pulled, filter, source)
          | .error err => .done (.error err, pulled, filter, source)) := by
  have hnone : ¬ filter.availOut > 0 := by omega
  rewrite [zipPullLoop, if_pos hroom, if_neg hnone, if_pos ⟨hspace, rfl⟩]
  rfl

/-- A full input buffer, or the last input, is a portion. -/
theorem ZipReady.take_portion (h : ZipReady bufferSize filter) {input : Bytes}
    (hall : filter.availIn = bufferSize ∨ input = []) :
    (filter.pendingInput ++ input).take bufferSize = filter.pendingInput ∧
      (filter.pendingInput ++ input).drop bufferSize = input := by
  have hlength := h.length_pendingInput
  have havail := h.availIn_le
  rcases hall with hfull | rfl
  · rw [hfull] at hlength
    rw [← hlength, List.take_left, List.drop_left]
    exact ⟨rfl, rfl⟩
  · rw [List.append_nil]
    exact ⟨List.take_of_length_le (by omega), List.drop_eq_nil_of_le (by omega)⟩

/-- The loop drains the output, collects input and compresses it, until it has pulled enough or there is
no more input. -/
theorem zipPullLoop_result (flush : Bool) (hfeeds : flush = false → Feeds handle push rest)
    (hflush : flush = true → ∀ source, rest source = []) {total : Nat} (htotal : 0 < total)
    (measure : Nat) {source : S} (hready : ZipReady bufferSize filter) {coded : Bytes}
    (hcode : zipCode library bufferSize (filter.pendingInput ++ rest source) = some coded)
    {size : Nat} {pulled : Bytes} (hsize : pulled.length + size = total)
    (hmeasure : measure = 2 * (rest source).length + filter.availIn +
      (filter.pendingOutput ++ coded).length) :
    PullProtocol.LoopResult .empty (ZipPulling library bufferSize rest)
      (ZipEnds library bufferSize flush total) total (filter.pendingOutput ++ coded).length pulled
      (filter.pendingOutput ++ coded)
      (fun fuel => zipPullLoop library handle flush fuel (filter, source) size pulled) := by
  induction measure using Nat.strongRecOn generalizing filter source coded size pulled with
  | ind measure ih =>
    by_cases hroom : pulled.length < size
    case neg =>
      refine PullProtocol.LoopResult.ok ?_ (by omega) ?_ (ZipPulling.intro hready hcode)
      · exact Outcome.Settles.succ (fun fuel => by rw [zipPullLoop, if_neg hroom])
          (.of_eq fun _ => rfl)
      · omega
    by_cases hpending : filter.availOut > 0
    case pos =>
      have hle : min filter.availOut size ≤ filter.availOut := Nat.min_le_left _ _
      obtain ⟨hsplit, htake⟩ := hready.take_append_drain hle
      generalize hmore : filter.pendingOutput.take (min filter.availOut size) = more at hsplit htake
      have hlengths := congrArg List.length hsplit
      rw [List.length_append] at hlengths
      rw [List.length_append] at hmeasure
      have hsmaller : 2 * (rest source).length + filter.availIn +
          ((filter.drain (min filter.availOut size)).pendingOutput ++ coded).length < measure := by
        rw [List.length_append]
        omega
      have hsize' : (pulled ++ more).length + (size - min filter.availOut size) = total := by
        rw [List.length_append]
        omega
      have hloop := ih _ hsmaller (hready.drain hle) hcode hsize' rfl
      rw [hsplit, List.append_assoc]
      refine PullProtocol.LoopResult.round (fun fuel => ?_) hloop ?_
      · rw [zipPullLoop, if_pos hroom, if_pos hpending, ← hmore]
      · simp only [List.length_append]
        omega
    have hempty : filter.availOut = 0 := by omega
    have hnothing : filter.pendingOutput = [] := pendingOutput_eq_nil hempty
    rw [hnothing, List.nil_append] at hmeasure ⊢
    have havail := hready.availIn_le
    have hbuffer := hready.input_length
    by_cases hfault : filter.availIn < filter.inputBuffer.length ∧ flush = false
    case pos =>
      obtain ⟨hspace, rfl⟩ := hfault
      have hloop := zipPullLoop_fault library handle source hroom hempty hspace
      by_cases hrest : rest source = []
      · obtain ⟨source', hrest', hunhandled⟩ := (hfeeds rfl).unhandled hrest
        have hrun : Outcome.Settles
            (fun fuel => zipPullLoop library handle false fuel (filter, source) size pulled)
            (.error .empty, pulled, filter, source') :=
          Outcome.Settles.succ hloop
            (.of_eq fun fuel => by rw [hunhandled, Outcome.done_bind])
        rw [hrest] at hcode
        refine PullProtocol.LoopResult.exhausted hrun ⟨by omega, coded.length, ?_⟩
        exact ⟨hready, coded, hcode, by rw [hnothing, List.nil_append], rfl⟩
      · obtain ⟨data, source', hdata, hle, hsplit, hhandle⟩ :=
          (hfeeds rfl).handled hrest (Nat.sub_pos_of_lt hspace)
        rw [hready.input_length] at hle
        obtain ⟨filter', hpush, hready', hempty', havail', hinput'⟩ :=
          hready.receive hempty hdata hle
        have hpos := List.length_pos_of_ne_nil hdata
        have hlengths : (rest source).length = data.length + (rest source').length := by
          rw [hsplit, List.length_append]
        rw [hsplit, ← List.append_assoc, ← hinput'] at hcode
        have hsmaller : 2 * (rest source').length + filter'.availIn +
            (filter'.pendingOutput ++ coded).length < measure := by
          rw [pendingOutput_eq_nil hempty', List.nil_append]
          omega
        have hnext := ih _ hsmaller hready' hcode hsize rfl
        rw [pendingOutput_eq_nil hempty', List.nil_append] at hnext
        have hhandled := hpush.imp fun fuel hdone => hhandle fuel filter filter' hdone
        exact hnext.imp fun result hresult => Outcome.Settles.succ hloop (hhandled.bind hresult)
    by_cases hinput : filter.availIn > 0
    case pos =>
      have hall : filter.availIn = bufferSize ∨ rest source = [] := by
        cases hflag : flush with
        | true => exact .inr (hflush hflag source)
        | false =>
          left
          by_contra hnot
          exact hfault ⟨by omega, hflag⟩
      obtain ⟨htake, hdrop⟩ := hready.take_portion hall
      have hsome : filter.pendingInput ++ rest source ≠ [] := by
        intro hnil
        have hlength := hready.length_pendingInput
        rw [(List.append_eq_nil_iff.mp hnil).1, List.length_nil] at hlength
        omega
      obtain ⟨portion, coded', hcoded, hcode', rfl⟩ := zipCode_eq_some hsome hready.pos hcode
      rw [htake] at hcoded
      rw [hdrop] at hcode'
      obtain ⟨filter', hcompress, hready', havail', houtput'⟩ := hready.compress hempty hcoded
      have hcode'' : zipCode library bufferSize (filter'.pendingInput ++ rest source) = some coded' := by
        rw [pendingInput, havail', List.take_zero, List.nil_append]
        exact hcode'
      have hsmaller : 2 * (rest source).length + filter'.availIn +
          (filter'.pendingOutput ++ coded').length < measure := by
        rw [houtput']
        omega
      have hnext := ih _ hsmaller hready' hcode'' hsize rfl
      rw [houtput'] at hnext
      refine PullProtocol.LoopResult.round_nil (fun fuel => ?_) hnext (Nat.le_refl _)
      rw [zipPullLoop, if_pos hroom, if_neg hpending, if_neg hfault, if_pos hinput, hcompress,
        Outcome.done_bind]
    case neg =>
      have hnone : filter.availIn = 0 := by omega
      have hpos := hready.pos
      have hflag : flush = true := by
        by_contra hflag
        exact hfault ⟨by omega, Bool.eq_false_of_not_eq_true hflag⟩
      have hcoded : coded = [] := by
        rw [pendingInput, hnone, List.take_zero, hflush hflag source, List.append_nil,
          zipCode_nil] at hcode
        exact (Option.some.inj hcode).symm
      have hrun : Outcome.Settles
          (fun fuel => zipPullLoop library handle flush fuel (filter, source) size pulled)
          (if pulled = [] then .error .empty else .ok (), pulled, filter, source) :=
        Outcome.Settles.succ (fun fuel => by
          rw [zipPullLoop, if_pos hroom, if_neg hpending, if_neg hfault, if_neg hinput])
          (.of_eq fun _ => rfl)
      by_cases hnil : pulled = []
      · rw [if_pos hnil] at hrun
        refine PullProtocol.LoopResult.exhausted hrun ?_
        rw [hflag]
        exact ⟨hnil, hcoded, hready, hnone, hempty⟩
      · rw [if_neg hnil] at hrun
        have hgoes := ZipPulling.intro hready hcode
        rw [hnothing, List.nil_append] at hgoes
        refine PullProtocol.LoopResult.ok hrun (by omega) ?_ hgoes
        exact Nat.lt_add_of_pos_right (List.length_pos_of_ne_nil hnil)

/-- However the handler feeds the filter, it delivers the portions of the whole input. -/
theorem zip_delivers (hfeeds : Feeds handle push rest) :
    PullProtocol.Delivers (zipPull library handle) .empty (fun _ _ => True) (fun _ => True)
      (ZipPulling library bufferSize rest) (ZipDraining library bufferSize)
      (fun s => ZipIdle bufferSize s.1) where
  pulling := by
    rintro n ⟨filter, source⟩ out size ⟨hready, coded, hcode, rfl, rfl⟩ hsize -
    have hstart : ([] : Bytes).length + size = size := Nat.zero_add size
    obtain ⟨err, more, s', out', hsettles, hout, hresult⟩ :=
      zipPullLoop_result false (fun _ => hfeeds) nofun hsize _ hready hcode hstart rfl
    exact ⟨err, more, s', out', hsettles, hout, hresult⟩
  draining := by
    rintro n ⟨filter, source⟩ out size ⟨hready, coded, hcode, rfl, rfl⟩ hsize -
    have hnone : ∀ source : S, (fun _ => [] : S → Bytes) source = [] := fun _ => rfl
    have hstart : ([] : Bytes).length + size = size := Nat.zero_add size
    obtain ⟨err, more, s', out', hsettles, hout, hresult⟩ :=
      zipPullLoop_result true nofun (fun _ => hnone) hsize _ hready hcode hstart rfl
    exact ⟨err, more, s', out', hsettles, hout, hresult⟩

theorem zipIdle_new {inputBuffer : Bytes} (h : inputBuffer ≠ []) (junk : Nat → UInt8) :
    ZipIdle inputBuffer.length (newZip inputBuffer junk) where
  fits := Nat.zero_le _
  rewound := fun _ => rfl
  input_length := rfl
  pos := List.length_pos_of_ne_nil h
  inputOffset_eq := rfl
  availIn_le := Nat.zero_le _
  output_length := by simp [newZip, zipOutputSize]
  availIn_eq := rfl
  availOut_eq := rfl

theorem ZipIdle.pendingInput_eq (h : ZipIdle bufferSize filter) : filter.pendingInput = [] := by
  rw [pendingInput, h.availIn_eq, List.take_zero]

variable (rest) in
/-- A filter that is as new starts on a whole input. -/
theorem ZipIdle.pulling (h : ZipIdle bufferSize filter) {source : S} {coded : Bytes}
    (hcode : zipCode library bufferSize (rest source) = some coded) :
    ZipPulling library bufferSize rest coded.length (filter, source) coded := by
  refine ⟨h.toZipReady, coded, ?_, ?_, rfl⟩
  · rw [h.pendingInput_eq]
    exact hcode
  · rw [pendingOutput_eq_nil h.availOut_eq, List.nil_append]

/-- A filter that is as new has nothing to flush. -/
theorem ZipIdle.draining (h : ZipIdle bufferSize filter) (source : S) :
    ZipDraining library bufferSize 0 (filter, source) [] :=
  h.pulling (fun _ => []) zipCode_nil

end Zip

end LzoFilter

end Libchop
