import Libchop.Chopper.SlidingWindow
import Mathlib.Data.ZMod.Basic
import Mathlib.Tactic.Ring
import Mathlib.Tactic.LinearCombination

/-!
# The fingerprint of a window

The fingerprint of a window is its value as a number in base three, modulo `2 ^ 30`.  The source
computes it with 32-bit words: from scratch, backwards over the two subwindows, or from the
fingerprint of the window one byte earlier.  Both are read modulo `2 ^ 30`, where words add,
subtract and multiply as numbers do.
-/

namespace Libchop

def windowSum : Bytes → Nat
  | [] => 0
  | c :: cs => c.toNat * 3 ^ cs.length + windowSum cs

def windowFingerprint (window : Bytes) : Nat := windowSum window % 2 ^ 30

def anchorPrimeNumber : UInt32 := 3

def anchorModuloMask : UInt32 := 0x3fffffff

/-- The fields of `chop_anchor_based_chopper_t` the fingerprint routines use. -/
structure AnchorFields where
  windowSize : Nat
  magicFprMask : UInt32
  primeToTheWs : UInt32
  productCache : UInt8 → UInt32
  prevFpr : UInt32
  prevFirstChar : UInt8

/-- The loop of `chop_anchor_based_chopper_init` that computes `prime_to_the_ws`. -/
def primeToThe : Nat → UInt32
  | 0 => 1
  | n + 1 => primeToThe n * anchorPrimeNumber

/-- The fields after `chop_anchor_based_chopper_init`; the cache is empty. -/
def anchorFieldsInit (windowSize magicFprMask : Nat) : AnchorFields where
  windowSize := windowSize
  magicFprMask := UInt32.ofNat magicFprMask
  primeToTheWs := primeToThe windowSize
  productCache := fun _ => 0
  prevFpr := 0
  prevFirstChar := 0

def multiplyWithPrimeToTheWs (anchor : AnchorFields) (what : UInt8) : UInt32 × AnchorFields :=
  if what = 0 then (0, anchor)
  else
    let cached := anchor.productCache what
    if cached = 0 then
      let result := UInt32.ofNat what.toNat * anchor.primeToTheWs
      (result, { anchor with
        productCache := fun c => if c = what then result else anchor.productCache c })
    else
      (cached, anchor)

def computeNextWindowFingerprint (anchor : AnchorFields) (firstChar lastChar : UInt8)
    (fpr : UInt32) : UInt32 × AnchorFields :=
  let fpr := fpr * anchorPrimeNumber
  let (product, anchor) := multiplyWithPrimeToTheWs anchor anchor.prevFirstChar
  let fpr := fpr - product
  let fpr := fpr + UInt32.ofNat lastChar.toNat
  let fpr := fpr &&& anchorModuloMask
  (fpr, { anchor with prevFirstChar := firstChar, prevFpr := fpr })

/-- The local variables of `compute_window_fingerprint`. -/
structure FingerprintLocals where
  fpr : UInt32
  primePower : UInt32
  firstChar : UInt8
  total : Nat

/-- `ITERATE_OVER_SUBWINDOW` over bytes that are given last to first. -/
def iterateOverSubwindow : Bytes → FingerprintLocals → FingerprintLocals
  | [], v => v
  | c :: cs, v =>
    let v : FingerprintLocals :=
      { fpr := (v.fpr + UInt32.ofNat c.toNat * v.primePower) &&& anchorModuloMask
        primePower := v.primePower * anchorPrimeNumber
        firstChar := c
        total := v.total - 1 }
    if v.total = 0 then v else iterateOverSubwindow cs v

/-- `compute_window_fingerprint`, with its final assertion. -/
def computeWindowFingerprint (anchor : AnchorFields) (w : SlidingWindow) :
    Outcome (UInt32 × AnchorFields) := do
  let startOffset := slidingWindowStartOffset w
  let v : FingerprintLocals := ⟨0, 1, 0, anchor.windowSize⟩
  let v :=
    if startOffset > 0 ∧ w.sizes1 > 0 then
      iterateOverSubwindow (w.windows1.take startOffset).reverse v
    else v
  let v :=
    if v.total > 0 then
      iterateOverSubwindow ((w.windows0.take w.sizes0).drop startOffset).reverse v
    else v
  Outcome.assert (slidingWindowUnfull w = true ∨ v.total = 0)
  return (v.fpr, { anchor with prevFirstChar := v.firstChar })

def isAnchorFingerprint (anchor : AnchorFields) (fpr : UInt32) : Bool :=
  fpr &&& anchor.magicFprMask = 0

theorem windowSum_concat (window : Bytes) (c : UInt8) :
    windowSum (window ++ [c]) = 3 * windowSum window + c.toNat := by
  induction window with
  | nil => simp [windowSum]
  | cons b bs ih =>
    rw [List.cons_append, windowSum, windowSum, ih, List.length_append, List.length_singleton,
      pow_succ]
    ring

def residue (a : UInt32) : ZMod (2 ^ 30) := (a.toNat : ZMod (2 ^ 30))

private theorem residue_of_mod (n : Nat) : ((n % 2 ^ 32 : Nat) : ZMod (2 ^ 30)) = n := by
  rw [ZMod.natCast_eq_natCast_iff']
  exact Nat.mod_mod_of_dvd n (by decide)

theorem residue_add (a b : UInt32) : residue (a + b) = residue a + residue b := by
  rw [residue, UInt32.toNat_add, residue_of_mod, Nat.cast_add, residue, residue]

theorem residue_mul (a b : UInt32) : residue (a * b) = residue a * residue b := by
  rw [residue, UInt32.toNat_mul, residue_of_mod, Nat.cast_mul, residue, residue]

theorem residue_sub (a b : UInt32) : residue (a - b) = residue a - residue b := by
  have h := residue_add (a - b) b
  rw [UInt32.sub_add_cancel] at h
  rw [h, add_sub_cancel_right]

theorem residue_byte (c : UInt8) : residue (UInt32.ofNat c.toNat) = (c.toNat : ZMod (2 ^ 30)) := by
  rw [residue, UInt32.toNat_ofNat_of_lt']
  exact c.toNat_lt.trans (by decide)

theorem mask_toNat (a : UInt32) : (a &&& anchorModuloMask).toNat = a.toNat % 2 ^ 30 := by
  rw [UInt32.toNat_and, ← Nat.and_two_pow_sub_one_eq_mod]
  rfl

theorem residue_mask (a : UInt32) : residue (a &&& anchorModuloMask) = residue a := by
  rw [residue, mask_toNat, ZMod.natCast_mod, residue]

/-- A masked word is known from its residue. -/
theorem toNat_of_residue {a : UInt32} {n : Nat} (hlt : a.toNat < 2 ^ 30)
    (h : residue a = (n : ZMod (2 ^ 30))) : a.toNat = n % 2 ^ 30 := by
  rw [residue, ZMod.natCast_eq_natCast_iff'] at h
  rw [← h, Nat.mod_eq_of_lt hlt]

theorem residue_anchorPrimeNumber : residue anchorPrimeNumber = 3 := rfl

theorem residue_primeToThe (n : Nat) : residue (primeToThe n) = 3 ^ n := by
  induction n with
  | zero =>
    rw [primeToThe, residue]
    simp
  | succ n ih =>
    rw [primeToThe, residue_mul, ih, residue_anchorPrimeNumber]
    exact (pow_succ 3 n).symm

/-- The fields keep the parameters, and the cache holds nothing but products. -/
structure AnchorOk (windowSize mask : Nat) (anchor : AnchorFields) : Prop where
  windowSize_eq : anchor.windowSize = windowSize
  mask_eq : anchor.magicFprMask = UInt32.ofNat mask
  prime_eq : anchor.primeToTheWs = primeToThe windowSize
  cache : ∀ c, anchor.productCache c = 0 ∨
    anchor.productCache c = UInt32.ofNat c.toNat * primeToThe windowSize

variable {windowSize mask left : Nat} {anchor : AnchorFields} {w : SlidingWindow}

theorem anchorFieldsInit_ok : AnchorOk windowSize mask (anchorFieldsInit windowSize mask) :=
  ⟨rfl, rfl, rfl, fun _ => .inl rfl⟩

theorem multiplyWithPrimeToTheWs_spec (hok : AnchorOk windowSize mask anchor)
    (what : UInt8) :
    (multiplyWithPrimeToTheWs anchor what).1 = UInt32.ofNat what.toNat * primeToThe windowSize ∧
      AnchorOk windowSize mask (multiplyWithPrimeToTheWs anchor what).2 ∧
      (multiplyWithPrimeToTheWs anchor what).2.prevFirstChar = anchor.prevFirstChar := by
  unfold multiplyWithPrimeToTheWs
  by_cases hzero : what = 0
  · rw [if_pos hzero, hzero]
    exact ⟨by simp, hok, rfl⟩
  · rw [if_neg hzero]
    by_cases hcached : anchor.productCache what = 0
    · simp only [if_pos hcached, hok.prime_eq]
      refine ⟨trivial, ⟨hok.windowSize_eq, hok.mask_eq, rfl, fun c => ?_⟩, trivial⟩
      by_cases hc : c = what
      · exact .inr (by simp [hc])
      · simpa [hc] using hok.cache c
    · simp only [if_neg hcached]
      exact ⟨(hok.cache what).resolve_left hcached, hok, trivial⟩

/-- Sliding the window by one byte. -/
theorem computeNextWindowFingerprint_spec (hok : AnchorOk windowSize mask anchor)
    {tail : Bytes} {fpr : UInt32} (firstChar lastChar : UInt8)
    (hlen : tail.length + 1 = windowSize)
    (hfpr : fpr.toNat = windowFingerprint (anchor.prevFirstChar :: tail)) :
    (computeNextWindowFingerprint anchor firstChar lastChar fpr).1.toNat =
        windowFingerprint (tail ++ [lastChar]) ∧
      AnchorOk windowSize mask (computeNextWindowFingerprint anchor firstChar lastChar fpr).2 ∧
      (computeNextWindowFingerprint anchor firstChar lastChar fpr).2.prevFirstChar = firstChar := by
  obtain ⟨hproduct, hok', _⟩ := multiplyWithPrimeToTheWs_spec hok anchor.prevFirstChar
  simp only [computeNextWindowFingerprint, hproduct]
  refine ⟨?_, ⟨hok'.windowSize_eq, hok'.mask_eq, hok'.prime_eq, hok'.cache⟩, trivial⟩
  apply toNat_of_residue
  · rw [mask_toNat]
    exact Nat.mod_lt _ (by decide)
  · have hprev : residue fpr =
        (anchor.prevFirstChar.toNat : ZMod (2 ^ 30)) * 3 ^ tail.length + (windowSum tail : Nat) := by
      rw [residue, hfpr, windowFingerprint, ZMod.natCast_mod, windowSum]
      push_cast
      rfl
    rw [residue_mask, residue_add, residue_sub, residue_mul, residue_mul, residue_byte, residue_byte,
      residue_primeToThe, residue_anchorPrimeNumber, hprev, windowSum_concat, ← hlen]
    push_cast
    ring

private theorem iterateOverSubwindow_spec (cs : Bytes) {v : FingerprintLocals}
    (hlen : cs.length ≤ v.total) (hlt : v.fpr.toNat < 2 ^ 30) :
    let r := iterateOverSubwindow cs v
    r.total = v.total - cs.length ∧ r.fpr.toNat < 2 ^ 30 ∧
      residue r.fpr = residue v.fpr + residue v.primePower * (windowSum cs.reverse : Nat) ∧
      residue r.primePower = residue v.primePower * 3 ^ cs.length ∧
      r.firstChar = cs.getLastD v.firstChar := by
  induction cs generalizing v with
  | nil => exact ⟨rfl, hlt, by simp [iterateOverSubwindow, windowSum],
      by simp [iterateOverSubwindow], rfl⟩
  | cons c cs ih =>
    rw [List.length_cons] at hlen
    have hfpr : residue ((v.fpr + UInt32.ofNat c.toNat * v.primePower) &&& anchorModuloMask) =
        residue v.fpr + c.toNat * residue v.primePower := by
      rw [residue_mask, residue_add, residue_mul, residue_byte]
    have hmasked :
        ((v.fpr + UInt32.ofNat c.toNat * v.primePower) &&& anchorModuloMask).toNat < 2 ^ 30 := by
      rw [mask_toNat]
      exact Nat.mod_lt _ (by decide)
    have hprime : residue (v.primePower * anchorPrimeNumber) = residue v.primePower * 3 := by
      rw [residue_mul, residue_anchorPrimeNumber]
    simp only [iterateOverSubwindow]
    split
    · have hnil : cs = [] := List.eq_nil_of_length_eq_zero (by omega)
      subst hnil
      refine ⟨rfl, hmasked, ?_, ?_, rfl⟩
      · rw [hfpr]
        simp [windowSum]
        ring
      · rw [hprime]
        simp
    · obtain ⟨htotal, hlt', hfpr', hprime', hfirst'⟩ := ih (v := ⟨_, _, c, v.total - 1⟩)
        (show cs.length ≤ v.total - 1 by omega) hmasked
      refine ⟨?_, hlt', ?_, ?_, ?_⟩
      · rw [htotal, List.length_cons]
        simp only
        omega
      · rw [hfpr', List.reverse_cons, windowSum_concat]
        simp only [hfpr, hprime]
        push_cast
        ring
      · rw [hprime', List.length_cons]
        simp only [hprime]
        ring
      · rw [hfirst', List.getLastD_cons]

private theorem iterateOverSubwindow_append (cs ds : Bytes) {v : FingerprintLocals}
    (hlen : cs.length + ds.length ≤ v.total) :
    iterateOverSubwindow (cs ++ ds) v = iterateOverSubwindow ds (iterateOverSubwindow cs v) := by
  induction cs generalizing v with
  | nil => rfl
  | cons c cs ih =>
    rw [List.length_cons] at hlen
    simp only [List.cons_append, iterateOverSubwindow]
    split
    · have hnil : ds = [] := List.eq_nil_of_length_eq_zero (by omega)
      rw [hnil, iterateOverSubwindow]
    · exact ih (by simp only; omega)

private theorem getLastD_reverse (l : Bytes) (c : UInt8) : l.reverse.getLastD c = l.headD c := by
  cases l with
  | nil => rfl
  | cons b bs => simp [List.getLastD_eq_getLast?]

private theorem content_window (h : Loaded windowSize left w)
    (hfull : w.offset + windowSize ≤ w.content.length) :
    (w.content.drop w.offset).take windowSize =
      (w.windows0.take w.sizes0).drop w.offset ++ w.windows1.take w.offset := by
  have hphase := h.phase
  have hpos := h.pos
  have hle := h.sizes0_le
  have hle' := h.sizes1_le
  rw [h.content_length] at hfull
  have hsizes : w.sizes0 = windowSize := by omega
  have hlen : (w.windows0.take w.sizes0).length = windowSize := by
    rw [List.length_take, h.length0]
    omega
  rw [SlidingWindow.content, List.drop_append_of_le_length (by omega), List.take_append,
    List.length_drop, hlen, List.take_take]
  congr 1
  · apply List.take_of_length_le
    rw [List.length_drop, hlen]
    omega
  · congr 1
    omega

private theorem computeWindowFingerprint_eq (hok : AnchorOk windowSize mask anchor)
    (h : Loaded windowSize left w) (hfull : w.offset + windowSize ≤ w.content.length) :
    let v := iterateOverSubwindow ((w.content.drop w.offset).take windowSize).reverse
      ⟨0, 1, 0, windowSize⟩
    computeWindowFingerprint anchor w =
      .done (v.fpr, { anchor with prevFirstChar := v.firstChar }) := by
  have hphase := h.phase
  have hpos := h.pos
  have hle := h.sizes0_le
  have hle' := h.sizes1_le
  rw [content_window h hfull, List.reverse_append]
  rw [h.content_length] at hfull
  have hstart : slidingWindowStartOffset w = w.offset := by
    simp only [slidingWindowStartOffset]
    rw [if_pos (by omega)]
  have hlen0 : ((w.windows0.take w.sizes0).drop w.offset).reverse.length = windowSize - w.offset := by
    rw [List.length_reverse, List.length_drop, List.length_take, h.length0]
    omega
  have hlen1 : (w.windows1.take w.offset).reverse.length = w.offset := by
    rw [List.length_reverse, List.length_take, h.length1]
    omega
  let v₀ : FingerprintLocals := ⟨0, 1, 0, windowSize⟩
  let v₁ := iterateOverSubwindow (w.windows1.take w.offset).reverse v₀
  let v₂ := iterateOverSubwindow ((w.windows0.take w.sizes0).drop w.offset).reverse v₁
  have hsum : (w.windows1.take w.offset).reverse.length +
      ((w.windows0.take w.sizes0).drop w.offset).reverse.length ≤ v₀.total := by
    show _ ≤ windowSize
    omega
  have happend := iterateOverSubwindow_append _ _ hsum
  have hlt : v₀.fpr.toNat < 2 ^ 30 := show 0 < 2 ^ 30 by decide
  have htotal₁ : v₁.total = windowSize - w.offset := by
    have htotal := (iterateOverSubwindow_spec (w.windows1.take w.offset).reverse (by omega) hlt).1
    rw [hlen1] at htotal
    exact htotal
  have hzero : v₂.total = 0 := by
    have htotal := (iterateOverSubwindow_spec ((w.windows1.take w.offset).reverse ++
      ((w.windows0.take w.sizes0).drop w.offset).reverse) (by rwa [List.length_append]) hlt).1
    rw [happend, List.length_append, hlen0, hlen1] at htotal
    have hv₀ : v₀.total = windowSize := rfl
    have hv₂ : v₂.total = v₀.total - (w.offset + (windowSize - w.offset)) := htotal
    omega
  have hloop₁ : (if w.offset > 0 ∧ w.sizes1 > 0 then v₁ else v₀) = v₁ := by
    split
    · rfl
    · have hoffset : w.offset = 0 := by omega
      simp only [v₁, hoffset, List.take_zero, List.reverse_nil, iterateOverSubwindow]
  have hloop₂ : (if v₁.total > 0 then v₂ else v₁) = v₂ := by
    split
    · rfl
    · have hnil : ((w.windows0.take w.sizes0).drop w.offset).reverse = [] :=
        List.eq_nil_of_length_eq_zero (by omega)
      simp only [v₂, hnil, iterateOverSubwindow]
  rw [happend]
  simp only [v₁, v₂, v₀] at hloop₁ hloop₂ hzero
  simp only [computeWindowFingerprint, hstart, hok.windowSize_eq, hloop₁, hloop₂, hzero, or_true,
    Outcome.assert_of, Outcome.done_bind, Outcome.pure_eq_done, v₀]

/-- The fingerprint from scratch. -/
theorem computeWindowFingerprint_spec (hok : AnchorOk windowSize mask anchor)
    (h : Loaded windowSize left w) (hfull : w.offset + windowSize ≤ w.content.length) :
    ∃ fpr anchor', computeWindowFingerprint anchor w = .done (fpr, anchor') ∧
      AnchorOk windowSize mask anchor' ∧
      fpr.toNat = windowFingerprint ((w.content.drop w.offset).take windowSize) ∧
      ∃ tail, (w.content.drop w.offset).take windowSize = anchor'.prevFirstChar :: tail := by
  have hpos := h.pos
  refine ⟨_, _, computeWindowFingerprint_eq hok h hfull,
    ⟨hok.windowSize_eq, hok.mask_eq, hok.prime_eq, hok.cache⟩, ?_⟩
  have hlength : ((w.content.drop w.offset).take windowSize).length = windowSize := by
    rw [List.length_take, List.length_drop]
    omega
  generalize (w.content.drop w.offset).take windowSize = window at hlength
  let v₀ : FingerprintLocals := ⟨0, 1, 0, windowSize⟩
  have hle : window.reverse.length ≤ v₀.total := by
    rw [List.length_reverse]
    exact hlength.le
  obtain ⟨-, hlt, hfpr, -, hfirst⟩ :=
    iterateOverSubwindow_spec window.reverse hle (show 0 < 2 ^ 30 by decide)
  constructor
  · apply toNat_of_residue hlt
    have hone : residue v₀.primePower = 1 := rfl
    have hzero : residue v₀.fpr = 0 := rfl
    rw [hfpr, hone, hzero, zero_add, one_mul, List.reverse_reverse]
  · cases window with
    | nil =>
      rw [List.length_nil] at hlength
      omega
    | cons c tail =>
      rw [getLastD_reverse] at hfirst
      exact ⟨tail, by rw [hfirst]; rfl⟩

theorem isAnchorFingerprint_eq (hok : AnchorOk windowSize mask anchor) {fpr : UInt32}
    {window : Bytes} (hfpr : fpr.toNat = windowFingerprint window) :
    isAnchorFingerprint anchor fpr = decide (windowFingerprint window &&& mask = 0) := by
  have hlt : windowFingerprint window < 2 ^ 32 :=
    (Nat.mod_lt _ (show 0 < 2 ^ 30 by decide)).trans (by decide)
  have htoNat : (fpr &&& anchor.magicFprMask).toNat = windowFingerprint window &&& mask := by
    rw [UInt32.toNat_and, hfpr, hok.mask_eq, UInt32.toNat_ofNat', ← Nat.and_two_pow_sub_one_eq_mod,
      Nat.and_comm mask, ← Nat.and_assoc, Nat.and_two_pow_sub_one_eq_mod, Nat.mod_eq_of_lt hlt]
  unfold isAnchorFingerprint
  rw [decide_eq_decide, ← htoNat, ← UInt32.toNat_inj]
  rfl

end Libchop
