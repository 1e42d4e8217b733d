import Libchop.Filter.StreamChunking

/-!
# The size of a pull from the unzip filter of LZO

A pull takes the headers it reads from its size, as well as what it copies.  A header that finds fewer than
eight bytes left makes the size wrap around, and from then on the loop copies all that it can get.
-/

namespace Libchop

namespace LzoFilter

/-- What a pull does to its size: so many bytes are copied to the caller, or a header is taken from a size
that is left. -/
inductive SizeEvent where
  | copy (amount : Nat)
  | header (size : Nat)
deriving DecidableEq, Repr

def copied (events : List SizeEvent) : Nat :=
  (events.map fun
    | .copy amount => amount
    | .header _ => 0).sum

def fetchData (fuel in32 : Nat) (filter : LzoFilter) (source : Bytes) :
    Outcome (FilterStatus × LzoFilter × Bytes) :=
  if in32 > filter.availIn then
    handleInputFaultFromBuffer push fuel (in32 - filter.availIn) filter source
  else .done (.ok (), filter, source)

section Events

variable (library : LzoLibrary)

/-- The events of the loop of `chop_lzo_unzip_pull`, with how much was pulled.  The ones of a pull that does
not return are those up to where its budget ends. -/
def unzipEvents (flush : Bool) : Nat → LzoFilter × Bytes → Nat → Nat → List SizeEvent
  | 0, _, _, _ => []
  | fuel + 1, (filter, source), size, pulled =>
    if pulled < size then
      if filter.availOut > 0 then
        let amount := min filter.availOut size
        .copy amount ::
          unzipEvents flush fuel (filter.drain amount, source) (size - amount) (pulled + amount)
      else if flush then []
      else if filter.availIn < 8 then
        match handleInputFaultFromBuffer push fuel 8 filter source with
        | .done (.ok _, filter, source) => unzipEvents flush fuel (filter, source) size pulled
        | _ => []
      else
        let in32 := ByteOrder.loadBe filter.inputBuffer
        let out32 := ByteOrder.loadBe (filter.inputBuffer.drop 4)
        .header size ::
          match fetchData fuel in32 (filter.skipHeader in32 out32) source with
          | .done (.ok _, filter, source) =>
            match decompress library filter in32 out32 with
            | .done (.ok _, filter) =>
              unzipEvents flush fuel (filter, source) (subtractHeader size) pulled
            | _ => []
          | _ => []
    else []

/-- The portions that a filter without output comes to, by the sizes they have when they are decompressed.
Of the last one only the header need be there. -/
inductive Portions : LzoFilter → Bytes → List Nat → Prop
  | nil {filter : LzoFilter} {source : Bytes} : Portions filter source []
  | fetch {filter filter' : LzoFilter} {source source' : Bytes} {sizes : List Nat}
      (few : filter.availIn < 8)
      (handled : Outcome.Settles (fun fuel => handleInputFaultFromBuffer push fuel 8 filter source)
        (.ok (), filter', source'))
      (rest : Portions filter' source' sizes) : Portions filter source sizes
  | header {filter : LzoFilter} {source : Bytes} (many : ¬ filter.availIn < 8) :
      Portions filter source [0]
  | portion {filter filter' filter'' : LzoFilter} {source source' : Bytes} {sizes : List Nat}
      (many : ¬ filter.availIn < 8)
      (handled : Outcome.Settles (fun fuel => fetchData fuel (ByteOrder.loadBe filter.inputBuffer)
        (filter.skipHeader (ByteOrder.loadBe filter.inputBuffer)
          (ByteOrder.loadBe (filter.inputBuffer.drop 4))) source) (.ok (), filter', source'))
      (decompressed : decompress library filter' (ByteOrder.loadBe filter.inputBuffer)
        (ByteOrder.loadBe (filter.inputBuffer.drop 4)) = .done (.ok (), filter''))
      (rest : Portions (filter''.drain filter''.availOut) source' sizes) :
      Portions filter source (filter''.availOut :: sizes)

end Events

/-- A push that returned returns the same with a larger budget. -/
theorem pushLoop_mono {fuel fuel' : Nat} (hle : fuel ≤ fuel') {filter : LzoFilter} {offset pushed : Nat}
    {data : Bytes} {result : FilterStatus × Nat × LzoFilter}
    (h : pushLoop fuel filter offset data pushed = .done result) :
    pushLoop fuel' filter offset data pushed = .done result := by
  induction fuel generalizing fuel' filter offset data pushed with
  | zero => cases h
  | succ fuel ih =>
    obtain ⟨fuel', rfl⟩ :=
      Nat.exists_eq_add_one_of_ne_zero (Nat.ne_of_gt (Nat.lt_of_lt_of_le fuel.succ_pos hle))
    have hle' : fuel ≤ fuel' := Nat.le_of_succ_le_succ hle
    rw [pushLoop] at h ⊢
    split at h
    · next hdata => rw [if_pos hdata, h]
    · next hdata =>
      rw [if_neg hdata]
      split at h
      · next hfull => rw [if_pos hfull, h]
      · next hfull =>
        rw [if_neg hfull]
        dsimp only at h ⊢
        split at h
        · next hroom =>
          rw [if_pos hroom]
          exact ih hle' h
        · next hroom =>
          rw [if_neg hroom]
          exact ih hle' h

/-- A push only changes the input. -/
theorem pushLoop_output {fuel : Nat} {filter filter' : LzoFilter} {offset pushed n : Nat} {data : Bytes}
    {status : FilterStatus} (h : pushLoop fuel filter offset data pushed = .done (status, n, filter')) :
    filter'.outputBuffer = filter.outputBuffer ∧ filter'.availOut = filter.availOut ∧
      filter'.outputOffset = filter.outputOffset := by
  induction fuel generalizing filter offset data pushed with
  | zero => cases h
  | succ fuel ih =>
    rw [pushLoop] at h
    split at h
    · cases h
      exact ⟨rfl, rfl, rfl⟩
    split at h
    · cases h
      exact ⟨rfl, rfl, rfl⟩
    dsimp only at h
    split at h
    · have hrest := ih h
      exact hrest
    · exact ih h

section Handler

variable {fuel amount in32 : Nat} {filter filter' : LzoFilter} {source source' : Bytes}
  {err : FilterStatus}

theorem handleInputFault_settles
    (h : handleInputFaultFromBuffer push fuel amount filter source = .done (err, filter', source')) :
    Outcome.Settles (fun fuel => handleInputFaultFromBuffer push fuel amount filter source)
      (err, filter', source') := by
  refine ⟨fuel, fun fuel' hle => ?_⟩
  change handleInputFaultFromBuffer push fuel' amount filter source = _
  by_cases hsource : source = []
  · rw [handleInputFaultFromBuffer, if_pos hsource] at h ⊢
    exact h
  · rw [handleInputFaultFromBuffer, if_neg hsource, Outcome.bind_eq_done] at h ⊢
    obtain ⟨⟨status, n, filter''⟩, hpush, hdone⟩ := h
    refine ⟨(status, n, filter''), ?_, hdone⟩
    rw [push, Outcome.bind_eq_done] at hpush ⊢
    obtain ⟨u, hassert, hloop⟩ := hpush
    exact ⟨u, hassert, pushLoop_mono hle hloop⟩

theorem handleInputFault_output
    (h : handleInputFaultFromBuffer push fuel amount filter source = .done (err, filter', source')) :
    filter'.outputBuffer = filter.outputBuffer ∧ filter'.availOut = filter.availOut ∧
      filter'.outputOffset = filter.outputOffset := by
  by_cases hsource : source = []
  · rw [handleInputFaultFromBuffer, if_pos hsource] at h
    cases h
    exact ⟨rfl, rfl, rfl⟩
  · rw [handleInputFaultFromBuffer, if_neg hsource, Outcome.bind_eq_done] at h
    obtain ⟨⟨status, n, filter''⟩, hpush, hdone⟩ := h
    cases hdone
    rw [push, Outcome.bind_eq_done] at hpush
    obtain ⟨_, _, hloop⟩ := hpush
    exact pushLoop_output hloop

theorem fetchData_settles (h : fetchData fuel in32 filter source = .done (err, filter', source')) :
    Outcome.Settles (fun fuel => fetchData fuel in32 filter source) (err, filter', source') := by
  by_cases hmore : in32 > filter.availIn
  · simp only [fetchData, if_pos hmore] at h ⊢
    exact handleInputFault_settles h
  · simp only [fetchData, if_neg hmore] at h ⊢
    exact .of_eq fun _ => h

theorem OutputFits.of_output (h : filter.OutputFits)
    (heq : filter'.outputBuffer = filter.outputBuffer ∧ filter'.availOut = filter.availOut ∧
      filter'.outputOffset = filter.outputOffset) : filter'.OutputFits := by
  obtain ⟨hbuffer, havail, hoffset⟩ := heq
  refine ⟨?_, ?_⟩
  · rw [hbuffer, havail, hoffset]
    exact h.fits
  · rw [havail, hoffset]
    exact h.rewound

/-- What was decompressed lies in the output buffer. -/
theorem decompress_outputFits {library : LzoLibrary} {out32 : Nat}
    (h : decompress library filter in32 out32 = .done (.ok (), filter')) : filter'.OutputFits := by
  rw [decompress] at h
  split at h
  · cases h
  dsimp only at h
  split at h
  · cases h
  · rw [Outcome.bind_eq_done] at h
    obtain ⟨_, _, hdone⟩ := h
    cases hdone
    refine ⟨?_, fun _ => rfl⟩
    simp only [List.length_append, Nat.zero_add]
    exact Nat.le_add_right _ _

/-- Without output, there is nothing to drain. -/
theorem OutputFits.drain_zero (h : filter.OutputFits) (hempty : filter.availOut = 0) :
    filter.drain filter.availOut = filter := by
  have hoffset := h.rewound hempty
  obtain ⟨inputBuffer, availIn, inputOffset, outputBuffer, availOut, outputOffset⟩ := filter
  simp only at hempty hoffset
  subst hempty hoffset
  rfl

theorem drain_drain :
    (filter.drain amount).drain (filter.drain amount).availOut = filter.drain filter.availOut := by
  simp [drain]

end Handler

@[simp] theorem copied_copy (amount : Nat) (events : List SizeEvent) :
    copied (.copy amount :: events) = amount + copied events := rfl

@[simp] theorem copied_header (size : Nat) (events : List SizeEvent) :
    copied (.header size :: events) = copied events := by
  simp [copied]

section Size

variable {library : LzoLibrary} {flush : Bool} {filter : LzoFilter} {source : Bytes} {size : Nat}

/-- A pull reports what it copied. -/
theorem unzipPullLoop_copied {fuel : Nat} {pulled out : Bytes} {err : FilterStatus}
    {s' : LzoFilter × Bytes} (hout : filter.OutputFits)
    (h : unzipPullLoop library (handleInputFaultFromBuffer push) flush fuel (filter, source) size pulled =
      .done (err, out, s')) :
    out.length = pulled.length +
      copied (unzipEvents library flush fuel (filter, source) size pulled.length) := by
  induction fuel generalizing filter source size pulled with
  | zero => cases h
  | succ fuel ih =>
    rw [unzipPullLoop] at h
    rw [unzipEvents]
    by_cases hroom : pulled.length < size
    case neg =>
      rw [if_neg hroom] at h ⊢
      cases h
      rfl
    rw [if_pos hroom] at h ⊢
    by_cases hpending : filter.availOut > 0
    case pos =>
      rw [if_pos hpending] at h ⊢
      have hle : min filter.availOut size ≤ filter.availOut := Nat.min_le_left _ _
      have hlength := (hout.take_append_drain hle).2
      have hrest := ih (hout.drain hle).1 h
      rw [List.length_append, hlength] at hrest
      rw [hrest, copied_copy, Nat.add_assoc]
    rw [if_neg hpending] at h ⊢
    cases flush with
    | true =>
      rw [if_pos rfl] at h ⊢
      cases h
      rfl
    | false =>
      rw [if_neg Bool.false_ne_true] at h ⊢
      by_cases hfew : filter.availIn < 8
      · rw [if_pos hfew] at h ⊢
        rw [Outcome.bind_eq_done] at h
        obtain ⟨⟨err', filter', source'⟩, hhandle, h⟩ := h
        rw [hhandle]
        cases err' with
        | ok _ => exact ih (hout.of_output (handleInputFault_output hhandle)) h
        | error err' =>
          cases h
          rfl
      · rw [if_neg hfew] at h ⊢
        dsimp only at h ⊢
        rw [Outcome.bind_eq_done] at h
        obtain ⟨⟨err', filter', source'⟩, hfetch, h⟩ := h
        change fetchData fuel _ _ source = _ at hfetch
        rw [copied_header, hfetch]
        cases err' with
        | error err' =>
          cases h
          rfl
        | ok _ =>
          dsimp only at h ⊢
          rw [Outcome.bind_eq_done] at h
          obtain ⟨⟨err'', filter''⟩, hdecompress, h⟩ := h
          rw [hdecompress]
          cases err'' with
          | error err'' =>
            cases h
            rfl
          | ok _ => exact ih (decompress_outputFits hdecompress) h

/-- What a pull comes to after it has drained the output. -/
theorem headersFit_iff_drained {sizes : List Nat} {pulled avail : Nat} :
    HeadersFit sizes pulled size avail ↔
      (pulled + avail + avail < size → HeadersFit sizes (pulled + avail) (size - avail) 0) := by
  cases sizes with
  | nil => simp [HeadersFit]
  | cons portion sizes =>
    simp only [HeadersFit, Nat.add_zero, Nat.sub_zero]
    constructor
    · intro h hroom _
      exact h hroom
    · intro h hroom
      exact h hroom (by omega)

theorem room_of_not_headersFit {sizes : List Nat} {pulled avail : Nat}
    (h : ¬ HeadersFit sizes pulled size avail) : pulled + avail + avail < size := by
  by_contra hroom
  exact h (headersFit_iff_drained.mpr fun hlt => absurd hlt hroom)

/-- If the headers fit, no more is copied than the size allows, and it does not wrap around. -/
theorem unzipEvents_respect (fuel : Nat) {pulled : Nat} (hout : filter.OutputFits) (hwide : size < 2 ^ 64)
    (hfits : flush = false → ∀ sizes, Portions library (filter.drain filter.availOut) source sizes →
      HeadersFit sizes pulled size filter.availOut) :
    copied (unzipEvents library flush fuel (filter, source) size pulled) ≤ size ∧
      ∀ n, .header n ∈ unzipEvents library flush fuel (filter, source) size pulled → 8 ≤ n := by
  induction fuel generalizing filter source size pulled with
  | zero => simp [unzipEvents, copied]
  | succ fuel ih =>
    rw [unzipEvents]
    by_cases hroom : pulled < size
    case neg =>
      rw [if_neg hroom]
      simp [copied]
    rw [if_pos hroom]
    by_cases hpending : filter.availOut > 0
    case pos =>
      rw [if_pos hpending]
      generalize hamount : min filter.availOut size = amount
      have hle : amount ≤ filter.availOut := by omega
      have hfits' : flush = false → ∀ sizes,
          Portions library ((filter.drain amount).drain (filter.drain amount).availOut) source sizes →
          HeadersFit sizes (pulled + amount) (size - amount) (filter.drain amount).availOut := by
        intro hflush sizes hsizes
        rw [drain_drain] at hsizes
        exact (hfits hflush sizes hsizes).drain hamount.symm
      obtain ⟨hcopied, hheaders⟩ := ih (hout.drain hle).1 (by omega) hfits'
      refine ⟨?_, ?_⟩
      · simp only [copied_copy]
        omega
      · intro n hn
        exact hheaders n ((List.mem_cons.mp hn).resolve_left nofun)
    rw [if_neg hpending]
    cases flush with
    | true => simp [copied]
    | false =>
      have hempty : filter.availOut = 0 := by omega
      have hfits := hfits rfl
      rw [hout.drain_zero hempty, hempty] at hfits
      rw [if_neg Bool.false_ne_true]
      by_cases hfew : filter.availIn < 8
      · rw [if_pos hfew]
        split
        · next u filter' source' hhandle =>
          have houtput := handleInputFault_output hhandle
          have hout' := hout.of_output houtput
          have hempty' : filter'.availOut = 0 := houtput.2.1.trans hempty
          refine ih hout' hwide fun _ sizes hsizes => ?_
          rw [hout'.drain_zero hempty'] at hsizes
          rw [hempty']
          exact hfits sizes (.fetch hfew (handleInputFault_settles hhandle) hsizes)
        · simp [copied]
      · rw [if_neg hfew]
        dsimp only
        have hheight : 8 ≤ size := (hfits [0] (.header hfew) (by omega)).1
        have hsubtract : subtractHeader size = size - 8 := by
          rw [subtractHeader]
          omega
        have hcons {events : List SizeEvent}
            (h : copied events ≤ size ∧ ∀ n, .header n ∈ events → 8 ≤ n) :
            copied (.header size :: events) ≤ size ∧
              ∀ n, .header n ∈ SizeEvent.header size :: events → 8 ≤ n := by
          refine ⟨by rw [copied_header]; exact h.1, ?_⟩
          intro n hn
          rcases List.mem_cons.mp hn with heq | hmem
          · cases heq
            exact hheight
          · exact h.2 n hmem
        refine hcons ?_
        split
        · next u filter' source' hfetch =>
          split
          · next u' filter'' hdecompress =>
            rw [hsubtract]
            have hfits' : false = false → ∀ sizes,
                Portions library (filter''.drain filter''.availOut) source' sizes →
                HeadersFit sizes pulled (size - 8) filter''.availOut := by
              intro _ sizes hsizes
              have hportion : Portions library filter source (filter''.availOut :: sizes) :=
                .portion hfew (fetchData_settles hfetch) hdecompress hsizes
              exact (hfits _ hportion (by omega)).2
            obtain ⟨hcopied, hheaders⟩ := ih (decompress_outputFits hdecompress) (by omega) hfits'
            exact ⟨Nat.le_trans hcopied (Nat.sub_le _ _), hheaders⟩
          · simp [copied]
        · simp [copied]

/-- With enough fuel, a header is taken from a size that is too small. -/
def Wraps (library : LzoLibrary) (filter : LzoFilter) (source : Bytes) (size pulled : Nat) : Prop :=
  ∃ bound, ∀ fuel ≥ bound, ∃ n < 8,
    .header n ∈ unzipEvents library false fuel (filter, source) size pulled

theorem Wraps.succ {filter' : LzoFilter} {source' : Bytes} {size' pulled pulled' : Nat}
    (hrun : ∃ bound, ∀ fuel ≥ bound, ∀ event,
      event ∈ unzipEvents library false fuel (filter', source') size' pulled' →
      event ∈ unzipEvents library false (fuel + 1) (filter, source) size pulled)
    (h : Wraps library filter' source' size' pulled') : Wraps library filter source size pulled := by
  obtain ⟨bound, hrun⟩ := hrun
  obtain ⟨bound', h⟩ := h
  refine ⟨max bound bound' + 1, fun fuel hfuel => ?_⟩
  cases fuel with
  | zero => omega
  | succ fuel =>
    obtain ⟨n, hn, hmem⟩ := h fuel (by omega)
    exact ⟨n, hn, hrun fuel (by omega) _ hmem⟩

theorem Wraps.of_drained (hout : filter.OutputFits) {pulled : Nat}
    (hroom : pulled + filter.availOut + filter.availOut < size)
    (h : Wraps library (filter.drain filter.availOut) source (size - filter.availOut)
      (pulled + filter.availOut)) : Wraps library filter source size pulled := by
  by_cases hempty : filter.availOut = 0
  · rw [hout.drain_zero hempty, hempty, Nat.sub_zero, Nat.add_zero] at h
    exact h
  · refine h.succ ⟨0, fun fuel _ event hmem => ?_⟩
    have hamount : min filter.availOut size = filter.availOut := by omega
    rw [unzipEvents, if_pos (by omega), if_pos (by omega)]
    dsimp only
    rw [hamount]
    exact List.mem_cons_of_mem _ hmem

/-- A header at the beginning of the input buffer finds too little of the size left. -/
theorem Wraps.of_small {pulled : Nat} (hempty : filter.availOut = 0) (hmany : ¬ filter.availIn < 8)
    (hroom : pulled < size) (hsmall : size < 8) : Wraps library filter source size pulled := by
  refine ⟨1, fun fuel hfuel => ?_⟩
  cases fuel with
  | zero => omega
  | succ fuel =>
    refine ⟨size, hsmall, ?_⟩
    rw [unzipEvents, if_pos hroom, if_neg (by omega), if_neg Bool.false_ne_true, if_neg hmany]
    exact List.mem_cons_self ..

/-- A pull that comes to portions whose headers do not fit. -/
theorem wraps_of_portions {sizes : List Nat} (h : Portions library filter source sizes)
    (hout : filter.OutputFits) (hempty : filter.availOut = 0) {pulled : Nat} (hwide : size < 2 ^ 64)
    (hfits : ¬ HeadersFit sizes pulled size 0) : Wraps library filter source size pulled := by
  induction h generalizing size pulled with
  | nil => exact absurd trivial hfits
  | @fetch filter filter' source source' sizes hfew hhandled _ ih =>
    have hroom : pulled < size := room_of_not_headersFit hfits
    obtain ⟨bound, hsettles⟩ := hhandled
    dsimp only at hsettles
    have houtput := handleInputFault_output (hsettles bound (Nat.le_refl bound))
    have hwraps := ih (hout.of_output houtput) (houtput.2.1.trans hempty) hwide hfits
    refine hwraps.succ ⟨bound, fun fuel hfuel event hmem => ?_⟩
    rw [unzipEvents, if_pos hroom, if_neg (by omega), if_neg Bool.false_ne_true, if_pos hfew,
      hsettles fuel hfuel]
    exact hmem
  | @header filter source hmany =>
    simp only [HeadersFit, Nat.add_zero, Nat.sub_zero, and_true, Classical.not_imp] at hfits
    exact .of_small hempty hmany hfits.1 (by omega)
  | @portion filter filter' filter'' source source' sizes hmany hhandled hdecompress _ ih =>
    have hroom : pulled < size := room_of_not_headersFit hfits
    by_cases hsmall : size < 8
    · exact .of_small hempty hmany hroom hsmall
    have hrest : ¬ HeadersFit sizes pulled (size - 8) filter''.availOut :=
      fun hrest => hfits fun _ => ⟨by omega, hrest⟩
    have hout' := decompress_outputFits hdecompress
    have hroom' := room_of_not_headersFit hrest
    rw [headersFit_iff_drained] at hrest
    have hdrained := ih (hout'.drain (Nat.le_refl _)).1 (Nat.sub_self _) (by omega)
      fun hfit => hrest fun _ => hfit
    have hwraps := Wraps.of_drained hout' hroom' hdrained
    obtain ⟨bound, hsettles⟩ := hhandled
    dsimp only at hsettles
    have hsubtract : subtractHeader size = size - 8 := by
      rw [subtractHeader]
      omega
    refine hwraps.succ ⟨bound, fun fuel hfuel event hmem => ?_⟩
    rw [unzipEvents, if_pos hroom, if_neg (by omega), if_neg Bool.false_ne_true, if_neg hmany]
    dsimp only
    rw [hsettles fuel hfuel]
    dsimp only
    rw [hdecompress, hsubtract]
    exact List.mem_cons_of_mem _ hmem

/-- `chop_lzo_unzip_pull` copies and reports no more than its size allows, and its size does not wrap around,
exactly if it flushes or each header that it comes to finds eight bytes left.  What it comes to are the
portions in the filter and its source, after the output that the filter has. -/
theorem unzipPull_respects_size_iff (library : LzoLibrary) (flush : Bool) {filter : LzoFilter}
    (hout : filter.OutputFits) (source : Bytes) {size : Nat} (hwide : size < 2 ^ 64) :
    (∀ fuel, (copied (unzipEvents library flush fuel (filter, source) size 0) ≤ size ∧
        ∀ n, .header n ∈ unzipEvents library flush fuel (filter, source) size 0 → 8 ≤ n) ∧
      ∀ err out s', unzipPull library (handleInputFaultFromBuffer push) fuel flush size (filter, source) =
        .done (err, out, s') → out.length ≤ size) ↔
    (flush = true ∨ ∀ sizes, Portions library (filter.drain filter.availOut) source sizes →
      HeadersFit sizes 0 size filter.availOut) := by
  constructor
  · intro h
    by_contra hnot
    obtain ⟨hflush, hnot⟩ := not_or.mp hnot
    obtain ⟨sizes, hnot⟩ := Classical.not_forall.mp hnot
    obtain ⟨hsizes, hfits⟩ := Classical.not_imp.mp hnot
    have hroom := room_of_not_headersFit hfits
    rw [headersFit_iff_drained] at hfits
    have hdrained := wraps_of_portions hsizes (hout.drain (Nat.le_refl _)).1 (Nat.sub_self _) (by omega)
      fun hfit => hfits fun _ => hfit
    obtain ⟨bound, hwraps⟩ := Wraps.of_drained hout hroom hdrained
    obtain ⟨n, hn, hmem⟩ := hwraps bound (Nat.le_refl bound)
    rw [← Bool.eq_false_of_not_eq_true hflush] at hmem
    exact absurd ((h bound).1.2 n hmem) (by omega)
  · intro h fuel
    have hfits : flush = false → ∀ sizes, Portions library (filter.drain filter.availOut) source sizes →
        HeadersFit sizes 0 size filter.availOut :=
      fun hflush => h.resolve_left (by rw [hflush]; exact Bool.false_ne_true)
    have hrespects := unzipEvents_respect fuel hout hwide hfits
    refine ⟨hrespects, ?_⟩
    intro err out s' hpull
    have hcopied := unzipPullLoop_copied hout hpull
    rw [List.length_nil, Nat.zero_add] at hcopied
    omega

end Size

/-- A new filter comes to one portion of three bytes at first. -/
theorem samplePortion_sizes {sizes : List Nat}
    (h : Portions literalLzo (newUnzip (List.replicate 16 0) fun _ => 0) samplePortion sizes) :
    sizes = [] ∨ sizes = [0] ∨ ∃ rest, sizes = 3 :: rest := by
  cases h with
  | nil => exact .inl rfl
  | header many => exact absurd (by decide) many
  | portion many _ _ _ => exact absurd (by decide) many
  | @fetch _ filter' _ source' _ few handled rest =>
    have hheader : Outcome.Settles (fun fuel => handleInputFaultFromBuffer push fuel 8
        (newUnzip (List.replicate 16 0) fun _ => 0) samplePortion)
        (.ok (), (newUnzip (List.replicate 16 0) fun _ => 0).receive 0 (samplePortion.take 8),
          samplePortion.drop 8) := .of_add 2 fun _ => rfl
    cases handled.unique hheader
    cases rest with
    | nil => exact .inl rfl
    | header many => exact .inr (.inl rfl)
    | fetch few' _ _ => exact absurd few' (by decide)
    | @portion _ filter₂ filter₃ _ source₂ rest many handled decompressed _ =>
      obtain ⟨bound, hdata⟩ := handled
      cases hdata (bound + 2) (Nat.le_add_right bound 2)
      cases decompressed
      exact .inr (.inr ⟨rest, rfl⟩)

/-- A pull of eleven bytes reads a header, and copies the three bytes that are left. -/
theorem unzipPull_respects_size_header :
    unzipEvents literalLzo false 10 (newUnzip (List.replicate 16 0) (fun _ => 0), samplePortion) 11 0 =
        [.header 11, .copy 3] ∧
      ∀ fuel, copied
        (unzipEvents literalLzo false fuel (newUnzip (List.replicate 16 0) (fun _ => 0), samplePortion) 11 0) ≤
          11 := by
  have hout : OutputFits (newUnzip (List.replicate 16 0) fun _ => 0) := ⟨by decide, fun _ => rfl⟩
  have hrespects := (unzipPull_respects_size_iff literalLzo false hout samplePortion
    (by decide : 11 < 2 ^ 64)).mpr (.inr fun sizes hsizes => by
      rcases samplePortion_sizes hsizes with rfl | rfl | ⟨rest, rfl⟩
      · trivial
      · exact fun _ => ⟨by decide, trivial⟩
      · refine fun _ => ⟨by decide, ?_⟩
        cases rest with
        | nil => trivial
        | cons size rest => exact fun hroom => absurd hroom (by decide))
  exact ⟨rfl, fun fuel => (hrespects fuel).1.1⟩

/-- A pull of two bytes from a new filter copies three, because the header was taken from two. -/
theorem unzipPull_exceeds_size :
    ∃ err s', unzipPull literalLzo (handleInputFaultFromBuffer push) 10 false 2
        (newUnzip (List.replicate 16 0) (fun _ => 0), samplePortion) = .done (err, [1, 2, 3], s') ∧
      unzipEvents literalLzo false 10
        (newUnzip (List.replicate 16 0) (fun _ => 0), samplePortion) 2 0 = [.header 2, .copy 3] :=
  ⟨_, _, rfl, rfl⟩

end LzoFilter

end Libchop
