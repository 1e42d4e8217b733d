import Libchop.Chopper.Fingerprint

/-!
# Fingerprints that roll

Whatever was computed before, the fingerprint that is computed from the one of the previous window is the one that
is computed from scratch.  A product in the cache is never zero, since a power of three is odd, so a zero
there says that the product was not computed.
-/

namespace Libchop

variable {windowSize mask : Nat} {anchor : AnchorFields} {computed : List UInt8}

theorem toNat_primeToThe (n : Nat) : (primeToThe n).toNat = 3 ^ n % 2 ^ 32 := by
  induction n with
  | zero => rfl
  | succ n ih =>
    rw [primeToThe, UInt32.toNat_mul, ih, pow_succ, Nat.mod_mul_mod]
    rfl

/-- A byte that is not zero cannot make up for a factor of `2 ^ 32`. -/
theorem product_ne_zero {c : UInt8} (hc : c ≠ 0) (n : Nat) : UInt32.ofNat c.toNat * primeToThe n ≠ 0 := by
  intro hzero
  have hmod := congrArg UInt32.toNat hzero
  have hbyte : c.toNat < 2 ^ 32 := c.toNat_lt.trans (by decide)
  rw [UInt32.toNat_mul, UInt32.toNat_ofNat_of_lt' hbyte, toNat_primeToThe, Nat.mul_mod_mod] at hmod
  have hdvd : 2 ^ 32 ∣ c.toNat * 3 ^ n := Nat.dvd_of_mod_eq_zero hmod
  have hcoprime : Nat.Coprime (2 ^ 32) (3 ^ n) := Nat.Coprime.pow 32 n (by decide)
  have hfactor := hcoprime.dvd_of_dvd_mul_right hdvd
  have hnat : c.toNat = 0 := Nat.eq_zero_of_dvd_of_lt hfactor hbyte
  exact hc (UInt8.toNat_inj.mp hnat)

/-- The bytes whose products were computed when a product is asked for. -/
def computedWith (what : UInt8) (computed : List UInt8) : List UInt8 :=
  if what = 0 then computed else what :: computed

/-- The states of the fields that the fingerprint routines lead to, with the bytes whose products they computed.
What is remembered of the previous window may be anything. -/
inductive AnchorReached (windowSize mask : Nat) : AnchorFields → List UInt8 → Prop where
  | init : AnchorReached windowSize mask (anchorFieldsInit windowSize mask) []
  | remember {anchor : AnchorFields} {computed : List UInt8} (h : AnchorReached windowSize mask anchor computed)
      (prevFpr : UInt32) (prevFirstChar : UInt8) :
      AnchorReached windowSize mask { anchor with prevFpr, prevFirstChar } computed
  | window {anchor anchor' : AnchorFields} {computed : List UInt8} {w : SlidingWindow} {fpr : UInt32}
      (h : AnchorReached windowSize mask anchor computed)
      (hwindow : computeWindowFingerprint anchor w = .done (fpr, anchor')) :
      AnchorReached windowSize mask anchor' computed
  | next {anchor : AnchorFields} {computed : List UInt8} (h : AnchorReached windowSize mask anchor computed)
      (firstChar lastChar : UInt8) (fpr : UInt32) :
      AnchorReached windowSize mask (computeNextWindowFingerprint anchor firstChar lastChar fpr).2
        (computedWith anchor.prevFirstChar computed)

/-- The cache holds the products that were computed, and zeros elsewhere. -/
structure CacheHolds (windowSize : Nat) (anchor : AnchorFields) (computed : List UInt8) : Prop where
  nonzero : 0 ∉ computed
  product : ∀ c ∈ computed, anchor.productCache c = UInt32.ofNat c.toNat * primeToThe windowSize
  missing : ∀ c, c ∉ computed → anchor.productCache c = 0

/-- A zero in the cache says that the product was not computed. -/
theorem CacheHolds.eq_zero_iff (h : CacheHolds windowSize anchor computed) (c : UInt8) :
    anchor.productCache c = 0 ↔ c ∉ computed := by
  constructor
  · intro hzero hmem
    rw [h.product c hmem] at hzero
    have hc : c ≠ 0 := fun hnull => h.nonzero (hnull ▸ hmem)
    exact product_ne_zero hc windowSize hzero
  · exact h.missing c

theorem CacheHolds.multiply (h : CacheHolds windowSize anchor computed)
    (hprime : anchor.primeToTheWs = primeToThe windowSize) (what : UInt8) :
    CacheHolds windowSize (multiplyWithPrimeToTheWs anchor what).2 (computedWith what computed) := by
  rw [multiplyWithPrimeToTheWs, computedWith]
  by_cases hnull : what = 0
  · rw [if_pos hnull, if_pos hnull]
    exact h
  rw [if_neg hnull, if_neg hnull]
  have hnonzero : 0 ∉ what :: computed := by
    rw [List.mem_cons, not_or]
    exact ⟨Ne.symm hnull, h.nonzero⟩
  by_cases hcached : anchor.productCache what = 0
  case pos =>
    simp only [if_pos hcached, hprime]
    refine ⟨hnonzero, fun c hc => ?_, fun c hc => ?_⟩
    · by_cases heq : c = what
      · subst heq
        exact if_pos rfl
      · exact (if_neg heq).trans (h.product c ((List.mem_cons.mp hc).resolve_left heq))
    · obtain ⟨hne, hmissing⟩ := not_or.mp (mt List.mem_cons.mpr hc)
      exact (if_neg hne).trans (h.missing c hmissing)
  case neg =>
    simp only [if_neg hcached]
    have hmem : what ∈ computed := Classical.not_not.mp (mt (h.missing what) hcached)
    refine ⟨hnonzero, fun c hc => ?_, fun c hc => ?_⟩
    · rcases List.mem_cons.mp hc with rfl | hc
      · exact h.product c hmem
      · exact h.product c hc
    · exact h.missing c (mt (List.mem_cons_of_mem what) hc)

theorem AnchorReached.ok (h : AnchorReached windowSize mask anchor computed) :
    AnchorOk windowSize mask anchor ∧ CacheHolds windowSize anchor computed := by
  induction h with
  | init => exact ⟨anchorFieldsInit_ok, ⟨List.not_mem_nil, nofun, fun _ _ => rfl⟩⟩
  | remember _ prevFpr prevFirstChar ih =>
    obtain ⟨hok, hcache⟩ := ih
    exact ⟨⟨hok.windowSize_eq, hok.mask_eq, hok.prime_eq, hok.cache⟩,
      ⟨hcache.nonzero, hcache.product, hcache.missing⟩⟩
  | window _ hwindow ih =>
    obtain ⟨hok, hcache⟩ := ih
    obtain ⟨_, _, hdone⟩ := Outcome.bind_eq_done.mp hwindow
    cases hdone
    exact ⟨⟨hok.windowSize_eq, hok.mask_eq, hok.prime_eq, hok.cache⟩,
      ⟨hcache.nonzero, hcache.product, hcache.missing⟩⟩
  | @next anchor _ _ firstChar lastChar fpr ih =>
    obtain ⟨hok, hcache⟩ := ih
    have hcache' := hcache.multiply hok.prime_eq anchor.prevFirstChar
    obtain ⟨-, hok', -⟩ := multiplyWithPrimeToTheWs_spec hok anchor.prevFirstChar
    exact ⟨⟨hok'.windowSize_eq, hok'.mask_eq, hok'.prime_eq, hok'.cache⟩,
      ⟨hcache'.nonzero, hcache'.product, hcache'.missing⟩⟩

/-- A sliding window holds the window of an input at a position. -/
structure HoldsWindow (windowSize : Nat) (input : Bytes) (position : Nat) (w : SlidingWindow) : Prop where
  loaded : ∃ left, Loaded windowSize left w
  window_eq : (w.content.drop w.offset).take windowSize = (input.drop position).take windowSize

theorem HoldsWindow.fingerprint {input : Bytes} {position : Nat} {w : SlidingWindow}
    (h : HoldsWindow windowSize input position w) (hfits : position + windowSize ≤ input.length)
    (hok : AnchorOk windowSize mask anchor) :
    ∃ fpr anchor', computeWindowFingerprint anchor w = .done (fpr, anchor') ∧
      fpr.toNat = windowFingerprint ((input.drop position).take windowSize) := by
  obtain ⟨left, hloaded⟩ := h.loaded
  have hlength := congrArg List.length h.window_eq
  rw [List.length_take, List.length_take, List.length_drop, List.length_drop] at hlength
  have hpos := hloaded.pos
  have hfull : w.offset + windowSize ≤ w.content.length := by omega
  obtain ⟨fpr, anchor', hdone, -, hfpr, -⟩ := computeWindowFingerprint_spec hok hloaded hfull
  rw [h.window_eq] at hfpr
  exact ⟨fpr, anchor', hdone, hfpr⟩

/-- The fingerprint of the next window is the one that is computed from scratch, and a zero in the cache says that
the product was not computed. -/
theorem computeNextWindowFingerprint_eq (h : AnchorReached windowSize mask anchor computed) {input : Bytes}
    {position : Nat} (hposition : position + windowSize < input.length)
    (hleaves : anchor.prevFirstChar = input[position]) {scratch scratch' : AnchorFields}
    {computed' computed'' : List UInt8} (hscratch : AnchorReached windowSize mask scratch computed')
    (hscratch' : AnchorReached windowSize mask scratch' computed'') {w w' : SlidingWindow}
    (hw : HoldsWindow windowSize input position w) (hw' : HoldsWindow windowSize input (position + 1) w')
    (firstChar : UInt8) :
    (∃ fpr after fpr' after', computeWindowFingerprint scratch w = .done (fpr, after) ∧
      computeWindowFingerprint scratch' w' = .done (fpr', after') ∧
      (computeNextWindowFingerprint anchor firstChar input[position + windowSize] fpr).1 = fpr') ∧
    ∀ c, anchor.productCache c = 0 ↔ c ∉ computed := by
  refine ⟨?_, h.ok.2.eq_zero_iff⟩
  obtain ⟨left, hloaded⟩ := hw.loaded
  obtain ⟨fpr, after, hdone, hfpr⟩ := hw.fingerprint (Nat.le_of_lt hposition) hscratch.ok.1
  have hfits' : position + 1 + windowSize ≤ input.length := by omega
  obtain ⟨fpr', after', hdone', hfpr'⟩ := hw'.fingerprint hfits' hscratch'.ok.1
  refine ⟨fpr, after, fpr', after', hdone, hdone', UInt32.toNat_inj.mp ?_⟩
  obtain ⟨n, rfl⟩ := Nat.exists_eq_add_one_of_ne_zero (Nat.ne_of_gt hloaded.pos)
  have hhere : position < input.length := by omega
  have hsplit : (input.drop position).take (n + 1) = input[position] :: (input.drop (position + 1)).take n := by
    rw [List.drop_eq_getElem_cons hhere, List.take_succ_cons]
  have hlength : ((input.drop (position + 1)).take n).length + 1 = n + 1 := by
    rw [List.length_take, List.length_drop]
    omega
  have hnext : (input.drop (position + 1)).take (n + 1) =
      (input.drop (position + 1)).take n ++ [input[position + (n + 1)]] := by
    have hn : n < (input.drop (position + 1)).length := by
      rw [List.length_drop]
      omega
    rw [← List.take_append_getElem hn, List.getElem_drop]
    congr 3
    omega
  rw [hsplit, ← hleaves] at hfpr
  rw [hfpr', hnext]
  exact (computeNextWindowFingerprint_spec h.ok.1 firstChar _ hlength hfpr).1

/-- A window of two bytes in its first subwindow. -/
private def twoBytes (first second : UInt8) : SlidingWindow := ⟨2, 4, [first, second], [0, 0], 0, 2, 0⟩

private theorem twoBytes_loaded (first second : UInt8) : Loaded 2 0 (twoBytes first second) where
  windowSize_eq := rfl
  rawSize_eq := rfl
  length0 := rfl
  length1 := rfl
  sizes0_le := Nat.le_refl 2
  sizes1_le := Nat.zero_le 2
  sizes1_eq _ := rfl
  pos := Nat.two_pos
  phase := .inr (.inl ⟨Nat.two_pos, rfl, Nat.zero_le 2, fun _ => rfl⟩)

/-- The second window of three bytes, of two bytes each. -/
theorem computeNextWindowFingerprint_eq_three :
    (∃ fpr after fpr' after', computeWindowFingerprint (anchorFieldsInit 2 0) (twoBytes 1 2) = .done (fpr, after) ∧
      computeWindowFingerprint (anchorFieldsInit 2 0) (twoBytes 2 3) = .done (fpr', after') ∧
      (computeNextWindowFingerprint { anchorFieldsInit 2 0 with prevFpr := 5, prevFirstChar := 1 } 2 3 fpr).1 =
        fpr') ∧
    ∀ c, (anchorFieldsInit 2 0).productCache c = 0 ↔ c ∉ ([] : List UInt8) :=
  computeNextWindowFingerprint_eq ((@AnchorReached.init 2 0).remember 5 1)
    (show 0 + 2 < ([1, 2, 3] : Bytes).length by decide) rfl .init .init ⟨⟨0, twoBytes_loaded 1 2⟩, rfl⟩
    ⟨⟨0, twoBytes_loaded 2 3⟩, rfl⟩ 2

end Libchop
