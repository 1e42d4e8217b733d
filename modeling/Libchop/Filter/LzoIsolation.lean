import Libchop.Filter.LzoUnzipContract
import Libchop.Filter.ZipIsolation

/-!
# Unzip filters of LZO that cannot be told apart

The buffers of the unzip filter grow, and the library is given all of the output buffer.  The sizes of the
buffers do not matter for input whose headers tell the truth.
-/

namespace Libchop

namespace LzoFilter

/-- The loop comes to a portion that decompresses to another size than its header says. -/
inductive Lying (library : LzoLibrary) : Bytes → Prop where
  | here {input out : Bytes} {room : Nat} :
    8 + ByteOrder.loadBe input ≤ input.length →
    library.lzo1xDecompressSafe ((input.drop 8).take (ByteOrder.loadBe input)) room = .ok out →
    out.length ≠ ByteOrder.loadBe (input.drop 4) → Lying library input
  | later {input out : Bytes} {room : Nat} :
    8 + ByteOrder.loadBe input ≤ input.length →
    library.lzo1xDecompressSafe ((input.drop 8).take (ByteOrder.loadBe input)) room = .ok out →
    Lying library (input.drop (8 + ByteOrder.loadBe input)) → Lying library input

theorem Decompresses.unique {library : LzoLibrary} (h : Decompresses library) {data out out' : Bytes}
    {room room' : Nat} (hout : library.lzo1xDecompressSafe data room = .ok out)
    (hout' : library.lzo1xDecompressSafe data room' = .ok out') : out = out' := by
  have hlarge := (h data room out hout).2 (max out.length out'.length) (Nat.le_max_left _ _)
  rw [(h data room' out' hout').2 _ (Nat.le_max_right _ _)] at hlarge
  cases hlarge
  rfl

/-- Input that is accepted tells the truth. -/
theorem not_lying {library : LzoLibrary} (hlibrary : Decompresses library) {input : Bytes}
    {portions : List Bytes} (h : unzipPortions library input = some portions) :
    ¬ Lying library input := by
  intro hlying
  induction hlying generalizing portions with
  | here hlength hout hne =>
    obtain ⟨out', _, -, hout', hsize, -, -⟩ :=
      unzipPortions_eq_some (List.ne_nil_of_length_pos (by omega)) h
    rw [hlibrary.unique hout hout'] at hne
    exact hne hsize
  | later hlength _ _ ih =>
    obtain ⟨_, portions', -, -, -, hportions', -⟩ :=
      unzipPortions_eq_some (List.ne_nil_of_length_pos (by omega)) h
    exact ih hportions'

/-- A filter in order, before a portion or with its header. -/
structure Waiting (filter : LzoFilter) : Prop extends OutputFits filter where
  input_large : 8 ≤ filter.inputBuffer.length
  inputOffset_eq : filter.inputOffset = 0
  availIn_le : filter.availIn ≤ 8
  output_pos : 0 < filter.outputBuffer.length

theorem UnzipReady.waiting {filter : LzoFilter} (h : UnzipReady filter) : Waiting filter where
  toOutputFits := h.toOutputFits
  input_large := h.input_large
  inputOffset_eq := h.inputOffset_eq
  availIn_le := by
    rw [h.availIn_eq]
    decide
  output_pos := h.output_pos

variable {library : LzoLibrary}

variable (library) in
/-- The same input and output wait, and the source is the same. -/
structure Alike (s t : LzoFilter × Bytes) : Prop where
  left : Waiting s.1
  right : Waiting t.1
  availIn_eq : s.1.availIn = t.1.availIn
  pendingInput_eq : s.1.pendingInput = t.1.pendingInput
  availOut_eq : s.1.availOut = t.1.availOut
  pendingOutput_eq : s.1.pendingOutput = t.1.pendingOutput
  source_eq : s.2 = t.2
  /-- A header is only incomplete at the end of the source. -/
  complete : s.1.availIn = 0 ∨ s.1.availIn = 8 ∨ s.2 = []
  honest : ¬ Lying library (s.1.pendingInput ++ s.2)

theorem Alike.of_ready {f g : LzoFilter} (hf : UnzipReady f) (hg : UnzipReady g)
    (havail : f.availOut = g.availOut) (houtput : f.pendingOutput = g.pendingOutput) {source : Bytes}
    (honest : ¬ Lying library source) : Alike library (f, source) (g, source) where
  left := hf.waiting
  right := hg.waiting
  availIn_eq := hf.availIn_eq.trans hg.availIn_eq.symm
  pendingInput_eq := by
    rw [pendingInput, hf.availIn_eq, pendingInput, hg.availIn_eq, List.take_zero, List.take_zero]
  availOut_eq := havail
  pendingOutput_eq := houtput
  source_eq := rfl
  complete := .inl hf.availIn_eq
  honest := by
    rw [pendingInput, hf.availIn_eq, List.take_zero, List.nil_append]
    exact honest

theorem Alike.drain {s t : LzoFilter × Bytes} (h : Alike library s t) {amount : Nat}
    (hle : amount ≤ s.1.availOut) :
    Alike library (s.1.drain amount, s.2) (t.1.drain amount, t.2) where
  left := ⟨(h.left.toOutputFits.drain hle).1, h.left.input_large, h.left.inputOffset_eq,
    h.left.availIn_le, h.left.output_pos⟩
  right := ⟨(h.right.toOutputFits.drain (h.availOut_eq ▸ hle)).1, h.right.input_large,
    h.right.inputOffset_eq, h.right.availIn_le, h.right.output_pos⟩
  availIn_eq := h.availIn_eq
  pendingInput_eq := h.pendingInput_eq
  availOut_eq := by
    change s.1.availOut - amount = t.1.availOut - amount
    rw [h.availOut_eq]
  pendingOutput_eq := by
    rw [(h.left.toOutputFits.drain hle).2, (h.right.toOutputFits.drain (h.availOut_eq ▸ hle)).2,
      h.pendingOutput_eq]
  source_eq := h.source_eq
  complete := h.complete
  honest := h.honest

/-- Both filters receive the same input. -/
theorem handle_alike {f g : LzoFilter} (hf : f.availOut = 0) (hg : g.availOut = 0)
    {offset : Nat} (hfoffset : f.inputOffset + f.availIn = offset)
    (hgoffset : g.inputOffset + g.availIn = offset) {source : Bytes} (hsource : source ≠ [])
    {amount : Nat} (hamount : 0 < amount) (hffits : offset + amount ≤ f.inputBuffer.length)
    (hgfits : offset + amount ≤ g.inputBuffer.length) (fuel : Nat) :
    Outcome.Related
      (fun a b => a = (.ok (), f.receive offset (source.take amount), source.drop amount) ∧
        b = (.ok (), g.receive offset (source.take amount), source.drop amount))
      (handleInputFaultFromBuffer push fuel amount f source)
      (handleInputFaultFromBuffer push fuel amount g source) := by
  have hle := List.length_take_le amount source
  have hdata : source.take amount ≠ [] := by
    intro hnil
    rcases List.take_eq_nil_iff.mp hnil with hzero | hnil
    · omega
    · exact hsource hnil
  have hdrop : source.drop (source.take amount).length = source.drop amount := by
    rw [List.length_take, List.drop_eq_drop_iff]
    omega
  simp only [handleInputFaultFromBuffer, if_neg hsource]
  rw [push_fuel hf hdata (by omega), push_fuel hg hdata (by omega), hfoffset, hgoffset]
  split
  · exact .outOfFuel
  · rw [Outcome.done_bind, Outcome.done_bind, hdrop]
    exact .done ⟨rfl, rfl⟩

/-- Data that is not all there, or that the library does not decompress. -/
theorem HeaderRead.decompress_error {filter : LzoFilter} {in32 out32 : Nat}
    (h : HeaderRead filter in32 out32) {data : Bytes} (hle : data.length ≤ in32)
    (herror : data.length = in32 → ∃ out,
      library.lzo1xDecompressSafe data filter.outputBuffer.length = .error out) :
    ∃ filter', LzoFilter.decompress library (filter.receive 8 data) in32 out32 =
      .done (.error .error, filter') := by
  by_cases hlength : data.length = in32
  · obtain ⟨havail, hdata⟩ := h.data_eq hlength
    obtain ⟨out, hout⟩ := herror hlength
    have hroom : (filter.receive 8 data).outputBuffer = filter.outputBuffer := rfl
    rw [LzoFilter.decompress, if_neg (by rw [havail]; exact Nat.lt_irrefl in32)]
    simp only [hdata, hroom, hout]
    exact ⟨_, rfl⟩
  · have havail : (filter.receive 8 data).availIn < in32 := by
      simp only [LzoFilter.receive, h.availIn_eq]
      omega
    rw [LzoFilter.decompress, if_pos havail]
    exact ⟨_, rfl⟩

/-- Data with a header that tells the truth is decompressed to both filters, or to none. -/
theorem decompress_alike (hlibrary : Decompresses library) {f g : LzoFilter} {in32 out32 : Nat}
    (hf : HeaderRead f in32 out32) (hg : HeaderRead g in32 out32) {data : Bytes}
    (hle : data.length ≤ in32)
    (hhonest : data.length = in32 → ∀ room out,
      library.lzo1xDecompressSafe data room = .ok out → out.length = out32) :
    (∃ f' g' out, LzoFilter.decompress library (f.receive 8 data) in32 out32 = .done (.ok (), f') ∧
      LzoFilter.decompress library (g.receive 8 data) in32 out32 = .done (.ok (), g') ∧
      UnzipReady f' ∧ UnzipReady g' ∧ f'.availOut = g'.availOut ∧
      f'.pendingOutput = g'.pendingOutput ∧ data.length = in32 ∧
      library.lzo1xDecompressSafe data out32 = .ok out) ∨
    (∃ f' g', LzoFilter.decompress library (f.receive 8 data) in32 out32 =
        .done (.error .error, f') ∧
      LzoFilter.decompress library (g.receive 8 data) in32 out32 = .done (.error .error, g')) := by
  have hfroom := hf.output_large
  have hgroom := hg.output_large
  by_cases hok : data.length = in32 ∧ ∃ out, library.lzo1xDecompressSafe data out32 = .ok out
  · left
    obtain ⟨hlength, out, hout⟩ := hok
    have hsize := hhonest hlength out32 out hout
    obtain ⟨f', hf', hfready, hfoutput, hfavail⟩ := hf.decompress hlibrary hlength hout hsize
    obtain ⟨g', hg', hgready, hgoutput, hgavail⟩ := hg.decompress hlibrary hlength hout hsize
    exact ⟨f', g', out, hf', hg', hfready, hgready, hfavail.trans hgavail.symm,
      hfoutput.trans hgoutput.symm, hlength, hout⟩
  · right
    have herror : ∀ room, out32 ≤ room → data.length = in32 →
        ∃ out, library.lzo1xDecompressSafe data room = .error out := by
      intro room hroom hlength
      cases hout : library.lzo1xDecompressSafe data room with
      | error out => exact ⟨out, rfl⟩
      | ok out =>
        have hsize := hhonest hlength room out hout
        exact absurd ⟨hlength, out, (hlibrary data room out hout).2 out32 (by omega)⟩ hok
    obtain ⟨f', hf'⟩ := hf.decompress_error hle (herror _ hfroom)
    obtain ⟨g', hg'⟩ := hg.decompress_error hle (herror _ hgroom)
    exact ⟨f', g', hf', hg'⟩

/-- Both filters receive the beginning of a header, or all of it. -/
theorem Alike.receive_header {f g : LzoFilter} {source : Bytes}
    (h : Alike library (f, source) (g, source)) (hfew : f.availIn < 8) (hsource : source ≠ []) :
    f.availIn = 0 ∧ Alike library (f.receive 0 (source.take 8), source.drop 8)
      (g.receive 0 (source.take 8), source.drop 8) := by
  have hzero : f.availIn = 0 := by
    rcases h.complete with hzero | height | hnil
    · exact hzero
    · exact absurd height (Nat.ne_of_lt hfew)
    · exact absurd hnil hsource
  have hlength := List.length_take_le 8 source
  have hwaiting : ∀ {filter : LzoFilter}, Waiting filter → filter.availIn = 0 →
      Waiting (filter.receive 0 (source.take 8)) ∧
        (filter.receive 0 (source.take 8)).availIn = (source.take 8).length ∧
        (filter.receive 0 (source.take 8)).pendingInput = source.take 8 := by
    intro filter hfilter havail
    have hlarge := hfilter.input_large
    have havail' : (filter.receive 0 (source.take 8)).availIn = (source.take 8).length := by
      simp only [LzoFilter.receive, havail, Nat.zero_add]
    refine ⟨⟨⟨hfilter.fits, hfilter.rewound⟩, ?_, hfilter.inputOffset_eq, ?_, hfilter.output_pos⟩,
      havail', ?_⟩
    · simp only [LzoFilter.receive, List.length_append, List.length_take, List.length_drop]
      omega
    · rw [havail']
      exact hlength
    · rw [pendingInput, havail']
      simp only [LzoFilter.receive, List.take_zero, List.nil_append, List.take_left]
  obtain ⟨hleft, hfavail, hfinput⟩ := hwaiting h.left hzero
  obtain ⟨hright, hgavail, hginput⟩ := hwaiting h.right (h.availIn_eq.symm.trans hzero)
  refine ⟨hzero, hleft, hright, hfavail.trans hgavail.symm, hfinput.trans hginput.symm,
    h.availOut_eq, h.pendingOutput_eq, rfl, ?_, ?_⟩
  · right
    by_cases hall : 8 ≤ source.length
    · left
      exact hfavail.trans (List.length_take_of_le hall)
    · right
      exact List.drop_eq_nil_of_le (by omega)
  · have honest := h.honest
    simp only [pendingInput, hzero, List.take_zero, List.nil_append] at honest
    simp only [hfinput, List.take_append_drop]
    exact honest

/-- Both filters receive the data of a portion, as far as the source has it. -/
theorem fetch_alike {f g : LzoFilter} {in32 out32 : Nat} (hf : HeaderRead f in32 out32)
    (hg : HeaderRead g in32 out32) (source : Bytes) (fuel : Nat) :
    Outcome.Related
      (fun a b => (a.1 = .error .unhandledFault ∧ b.1 = .error .unhandledFault ∧ a.2.2 = b.2.2) ∨
        (a = (.ok (), f.receive 8 (source.take in32), source.drop in32) ∧
          b = (.ok (), g.receive 8 (source.take in32), source.drop in32)))
      (if in32 > f.availIn then handleInputFaultFromBuffer push fuel (in32 - f.availIn) f source
        else .done (.ok (), f, source))
      (if in32 > g.availIn then handleInputFaultFromBuffer push fuel (in32 - g.availIn) g source
        else .done (.ok (), g, source)) := by
  rw [hf.availIn_eq, hg.availIn_eq, Nat.sub_zero]
  by_cases hsome : in32 > 0
  · rw [if_pos hsome, if_pos hsome]
    by_cases hsource : source = []
    · rw [handleInputFaultFromBuffer, handleInputFaultFromBuffer, if_pos hsource, if_pos hsource]
      exact .done (.inl ⟨rfl, rfl, rfl⟩)
    · have hfoffset : f.inputOffset + f.availIn = 8 := by rw [hf.inputOffset_eq, hf.availIn_eq]
      have hgoffset : g.inputOffset + g.availIn = 8 := by rw [hg.inputOffset_eq, hg.availIn_eq]
      exact (handle_alike hf.availOut_eq hg.availOut_eq hfoffset hgoffset hsource hsome
        hf.input_large hg.input_large fuel).mono fun _ _ => .inr
  · have hzero : in32 = 0 := by omega
    subst hzero
    have hreceive : ∀ filter : LzoFilter, filter.receive 8 (source.take 0) = filter := by
      intro filter
      simp [LzoFilter.receive]
    rw [if_neg hsome, if_neg hsome, hreceive f, hreceive g, List.drop_zero]
    exact .done (.inr ⟨rfl, rfl⟩)

/-- Input whose headers tell the truth. -/
theorem honest_portion {header source : Bytes} (hheader : header.length = 8)
    (h : ¬ Lying library (header ++ source)) {in32 : Nat}
    (hin32 : ByteOrder.loadBe (header ++ source) = in32)
    (hlength : (source.take in32).length = in32) {room : Nat} {out : Bytes}
    (hout : library.lzo1xDecompressSafe (source.take in32) room = .ok out) :
    out.length = ByteOrder.loadBe ((header ++ source).drop 4) ∧
      ¬ Lying library (source.drop in32) := by
  subst hin32
  have hdrop : (header ++ source).drop 8 = source := by rw [← hheader, List.drop_left]
  have hall : 8 + ByteOrder.loadBe (header ++ source) ≤ (header ++ source).length := by
    rw [List.length_append, hheader]
    rw [List.length_take] at hlength
    omega
  have hout' : library.lzo1xDecompressSafe
      (((header ++ source).drop 8).take (ByteOrder.loadBe (header ++ source))) room = .ok out := by
    rw [hdrop]
    exact hout
  constructor
  · by_contra hne
    exact h (.here hall hout' hne)
  · intro hlying
    refine h (.later hall hout' ?_)
    rw [← List.drop_drop, hdrop]
    exact hlying

/-- The loop from a header that both filters have. -/
theorem unzipPullLoop_portion_alike (hlibrary : Decompresses library) {f g : LzoFilter}
    {source : Bytes} (h : Alike library (f, source) (g, source)) (hempty : f.availOut = 0)
    (hmany : ¬ f.availIn < 8) {size fuel : Nat} {pulled : Bytes} (hroom : pulled.length < size)
    (ih : ∀ {f g : LzoFilter} {source : Bytes}, Alike library (f, source) (g, source) →
      Outcome.Related (SamePull (Alike library))
        (unzipPullLoop library (handleInputFaultFromBuffer push) false fuel (f, source)
          (subtractHeader size) pulled)
        (unzipPullLoop library (handleInputFaultFromBuffer push) false fuel (g, source)
          (subtractHeader size) pulled)) :
    Outcome.Related (SamePull (Alike library))
      (unzipPullLoop library (handleInputFaultFromBuffer push) false (fuel + 1) (f, source) size
        pulled)
      (unzipPullLoop library (handleInputFaultFromBuffer push) false (fuel + 1) (g, source) size
        pulled) := by
  have hfavail : f.availIn = 8 := Nat.le_antisymm h.left.availIn_le (Nat.le_of_not_lt hmany)
  have hgavail : g.availIn = 8 := h.availIn_eq.symm.trans hfavail
  have hgempty : g.availOut = 0 := h.availOut_eq.symm.trans hempty
  have hheader : f.inputBuffer.take 8 = g.inputBuffer.take 8 := by
    have hinput : f.pendingInput = g.pendingInput := h.pendingInput_eq
    rw [pendingInput, hfavail, pendingInput, hgavail] at hinput
    exact hinput
  have honest : ¬ Lying library (f.inputBuffer.take 8 ++ source) := by
    have honest := h.honest
    simp only [pendingInput, hfavail] at honest
    exact honest
  obtain ⟨hfin32, hfout32⟩ := loadBe_header h.left.input_large source
  obtain ⟨hgin32, hgout32⟩ := loadBe_header h.right.input_large source
  rw [← hheader] at hgin32 hgout32
  generalize hin32 : ByteOrder.loadBe (f.inputBuffer.take 8 ++ source) = in32 at *
  generalize hout32 : ByteOrder.loadBe ((f.inputBuffer.take 8 ++ source).drop 4) = out32 at *
  rw [unzipPullLoop_header library _ source hroom hempty hmany hfin32.symm hfout32.symm,
    unzipPullLoop_header library _ source hroom hgempty (by rw [hgavail]; decide) hgin32.symm
      hgout32.symm]
  have hlength : (f.inputBuffer.take 8).length = 8 := List.length_take_of_le h.left.input_large
  have hfread := HeaderRead.of_skipHeader (Nat.lt_of_lt_of_le (by decide) h.left.input_large)
    h.left.inputOffset_eq hfavail hempty (h.left.rewound hempty) h.left.output_pos in32 out32
  have hgread := HeaderRead.of_skipHeader (Nat.lt_of_lt_of_le (by decide) h.right.input_large)
    h.right.inputOffset_eq hgavail hgempty (h.right.rewound hgempty) h.right.output_pos in32 out32
  refine (fetch_alike hfread hgread source fuel).bind ?_
  rintro ⟨err, f', source'⟩ ⟨err', g', source''⟩ (⟨rfl, rfl, rfl⟩ | ⟨hf', hg'⟩)
  · exact .done (.failed _ _ _)
  cases hf'
  cases hg'
  have hhonest : (source.take in32).length = in32 → ∀ room out,
      library.lzo1xDecompressSafe (source.take in32) room = .ok out → out.length = out32 := by
    intro hall room out hout
    rw [← hout32]
    exact (honest_portion hlength honest hin32 hall hout).1
  rcases decompress_alike hlibrary hfread hgread (List.length_take_le in32 source) hhonest with
    ⟨f', g', out, hf', hg', hfready, hgready, havail, houtput, hall, hout⟩ | ⟨f', g', hf', hg'⟩
  · simp only [hf', hg', Outcome.done_bind]
    exact ih (Alike.of_ready hfready hgready havail houtput
      (honest_portion hlength honest hin32 hall hout).2)
  · simp only [hf', hg', Outcome.done_bind]
    exact .done (.failed _ _ _)

/-- The loop does the same to both filters. -/
theorem unzipPullLoop_alike (hlibrary : Decompresses library) (fuel : Nat) {flush : Bool}
    {f g : LzoFilter} {source : Bytes} (h : Alike library (f, source) (g, source)) (size : Nat)
    (pulled : Bytes) :
    Outcome.Related (SamePull (Alike library))
      (unzipPullLoop library (handleInputFaultFromBuffer push) flush fuel (f, source) size pulled)
      (unzipPullLoop library (handleInputFaultFromBuffer push) flush fuel (g, source) size pulled) := by
  induction fuel generalizing f g source size pulled with
  | zero => exact .outOfFuel
  | succ fuel ih =>
    have havail : f.availOut = g.availOut := h.availOut_eq
    have houtput : f.pendingOutput = g.pendingOutput := h.pendingOutput_eq
    by_cases hroom : pulled.length < size
    case neg =>
      rw [unzipPullLoop, unzipPullLoop, if_neg hroom, if_neg hroom]
      exact .done ⟨rfl, rfl, fun _ => h⟩
    by_cases hpending : f.availOut > 0
    case pos =>
      rw [unzipPullLoop, unzipPullLoop, if_pos hroom, if_pos hroom, if_pos hpending,
        if_pos (havail ▸ hpending), ← havail, ← houtput]
      exact ih (h.drain (Nat.min_le_left _ _)) _ _
    have hempty : f.availOut = 0 := Nat.eq_zero_of_not_pos hpending
    have hgpending : ¬ g.availOut > 0 := havail ▸ hpending
    cases flush with
    | true =>
      rw [unzipPullLoop, unzipPullLoop, if_pos hroom, if_pos hroom, if_neg hpending,
        if_neg hgpending, if_pos rfl, if_pos rfl]
      exact .done ⟨rfl, rfl, fun _ => h⟩
    | false =>
      by_cases hfew : f.availIn < 8
      case neg =>
        exact unzipPullLoop_portion_alike hlibrary h hempty hfew hroom fun h' => ih h' _ _
      have hgfew : g.availIn < 8 := by
        rw [← (h.availIn_eq : f.availIn = g.availIn)]
        exact hfew
      have hgempty : g.availOut = 0 := havail.symm.trans hempty
      rw [unzipPullLoop_fault library _ source hroom hempty hfew,
        unzipPullLoop_fault library _ source hroom hgempty hgfew]
      by_cases hsource : source = []
      · rw [handleInputFaultFromBuffer, handleInputFaultFromBuffer, if_pos hsource, if_pos hsource]
        exact .done ⟨rfl, rfl, fun _ => h⟩
      · obtain ⟨hzero, halike⟩ := h.receive_header hfew hsource
        have hgzero : g.availIn = 0 := (h.availIn_eq : f.availIn = g.availIn).symm.trans hzero
        have hfoffset : f.inputOffset + f.availIn = 0 := by rw [h.left.inputOffset_eq, hzero]
        have hgoffset : g.inputOffset + g.availIn = 0 := by rw [h.right.inputOffset_eq, hgzero]
        have hhandle := handle_alike hempty hgempty hfoffset hgoffset hsource (by decide : 0 < 8)
          (by rw [Nat.zero_add]; exact h.left.input_large)
          (by rw [Nat.zero_add]; exact h.right.input_large) fuel
        refine hhandle.bind ?_
        rintro _ _ ⟨rfl, rfl⟩
        exact ih halike size pulled

theorem unzipPull_alike (hlibrary : Decompresses library) :
    PullsAlike (Alike library) ((unzipMethods library).pull Bytes
      (handleInputFaultFromBuffer (unzipMethods library).push)) := by
  rintro fuel flush size ⟨f, source⟩ ⟨g, source'⟩ h
  obtain rfl : source = source' := h.source_eq
  exact unzipPullLoop_alike hlibrary fuel h size []

theorem Alike.of_idle {f g : LzoFilter} (hf : UnzipIdle f) (hg : UnzipIdle g) {input : Bytes}
    (honest : ¬ Lying library input) : Alike library (f, input) (g, input) := by
  refine Alike.of_ready hf.toUnzipReady hg.toUnzipReady (hf.availOut_eq.trans hg.availOut_eq.symm) ?_
    honest
  rw [pendingOutput_eq_nil hf.availOut_eq, pendingOutput_eq_nil hg.availOut_eq]

end LzoFilter

end Libchop
