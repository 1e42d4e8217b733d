import Libchop.Framework.BitString
import Libchop.Indexer.Base32

/-!
# The base32 encoder

`chop_buffer_to_base32_string` writes quintets from right to left, in a loop that it enters in the middle.
What it leaves in memory is the encoding of RFC 4648.
-/

namespace Libchop

/-- The encoding of RFC 4648: bits in groups of five, a character of the alphabet for each of them, and `=`
up to a multiple of eight characters. -/
def rfc4648Base32 (bytes : Bytes) : Bytes :=
  let text := (BitString.groups 5 (BitString.ofBytes bytes)).map fun group =>
    base32Chars.getD (BitString.toNat group) 0
  text ++ List.replicate ((8 - text.length % 8) % 8) base32Pad

section Rfc

/-- The byte that holds a group of bits. -/
def groupByte (group : List Bool) : UInt8 := UInt8.ofNat (BitString.toNat group)

private theorem groups_five (a b c d e : Bool) (rest : List Bool) :
    BitString.groups 5 (a :: b :: c :: d :: e :: rest) = [a, b, c, d, e] :: BitString.groups 5 rest := by
  have hlength : [a, b, c, d, e].length = 5 := rfl
  exact BitString.groups_append (by decide) hlength rest

private theorem groupByte_bit (b4 b3 b2 b1 b0 : Bool) {i : Nat} (hi : i < 8) :
    (groupByte [b4, b3, b2, b1, b0]).toBitVec.getLsbD i = [b0, b1, b2, b3, b4].getD i false := by
  interval_cases i <;> revert b4 b3 b2 b1 b0 <;> decide

private theorem byte_bits (b : UInt8) : BitString.ofNat 8 b.toNat =
    [b.toBitVec.getLsbD 7, b.toBitVec.getLsbD 6, b.toBitVec.getLsbD 5, b.toBitVec.getLsbD 4,
      b.toBitVec.getLsbD 3, b.toBitVec.getLsbD 2, b.toBitVec.getLsbD 1, b.toBitVec.getLsbD 0] := rfl

private theorem map_groups_group (b0 b1 b2 b3 b4 : UInt8) (rest : Bytes) :
    (BitString.groups 5 (BitString.ofBytes (b0 :: b1 :: b2 :: b3 :: b4 :: rest))).map groupByte =
      base32Group b0 b1 b2 b3 b4 ++ (BitString.groups 5 (BitString.ofBytes rest)).map groupByte := by
  simp only [BitString.ofBytes, List.flatMap_cons, byte_bits, List.cons_append, List.nil_append,
    groups_five, List.map_cons, base32Group, List.cons.injEq, and_true]
  refine ⟨?_, ?_, ?_, ?_, ?_, ?_, ?_, ?_⟩
  all_goals
    apply eq_of_bits
    intro i hi
    rw [groupByte_bit _ _ _ _ _ hi]
    interval_cases i <;> simp

private theorem map_groups_short {bytes zeros : Bytes} {n : Nat}
    (hgroups : BitString.groups 5 (BitString.ofBytes bytes) =
      (BitString.groups 5 (BitString.ofBytes (bytes ++ zeros))).take n)
    {b0 b1 b2 b3 b4 : UInt8} (hbytes : bytes ++ zeros = [b0, b1, b2, b3, b4]) :
    (BitString.groups 5 (BitString.ofBytes bytes)).map groupByte =
      (base32Group b0 b1 b2 b3 b4).take n := by
  rw [hgroups, hbytes, List.map_take, map_groups_group]
  simp [BitString.ofBytes, BitString.groups_nil]

theorem base32Quintets_eq_groups (buffer : Bytes) :
    base32Quintets buffer = (BitString.groups 5 (BitString.ofBytes buffer)).map groupByte := by
  fun_induction base32Quintets buffer with
  | case1 => simp [BitString.ofBytes, BitString.groups_nil]
  | case2 b0 =>
    have hgroups : BitString.groups 5 (BitString.ofBytes [b0]) =
        (BitString.groups 5 (BitString.ofBytes ([b0] ++ List.replicate 4 0))).take 2 := by
      simp [BitString.ofBytes, byte_bits, groups_five, BitString.groups_of_short]
    exact (map_groups_short hgroups rfl).symm
  | case3 b0 b1 =>
    have hgroups : BitString.groups 5 (BitString.ofBytes [b0, b1]) =
        (BitString.groups 5 (BitString.ofBytes ([b0, b1] ++ List.replicate 3 0))).take 4 := by
      simp [BitString.ofBytes, byte_bits, groups_five, BitString.groups_of_short]
    exact (map_groups_short hgroups rfl).symm
  | case4 b0 b1 b2 =>
    have hgroups : BitString.groups 5 (BitString.ofBytes [b0, b1, b2]) =
        (BitString.groups 5 (BitString.ofBytes ([b0, b1, b2] ++ List.replicate 2 0))).take 5 := by
      simp [BitString.ofBytes, byte_bits, groups_five, BitString.groups_of_short]
    exact (map_groups_short hgroups rfl).symm
  | case5 b0 b1 b2 b3 =>
    have hgroups : BitString.groups 5 (BitString.ofBytes [b0, b1, b2, b3]) =
        (BitString.groups 5 (BitString.ofBytes ([b0, b1, b2, b3] ++ List.replicate 1 0))).take 7 := by
      simp [BitString.ofBytes, byte_bits, groups_five, BitString.groups_of_short]
    exact (map_groups_short hgroups rfl).symm
  | case6 b0 b1 b2 b3 b4 rest ih => rw [map_groups_group, ih]

/-- Read from left to right, the encoder writes the encoding of the RFC. -/
theorem chopBufferToBase32String_eq_rfc (buffer : Bytes) :
    chopBufferToBase32String buffer = rfc4648Base32 buffer := by
  have hchars : (base32Quintets buffer).map base32Char =
      (BitString.groups 5 (BitString.ofBytes buffer)).map fun group =>
        base32Chars.getD (BitString.toNat group) 0 := by
    rw [base32Quintets_eq_groups, List.map_map]
    apply List.map_congr_left
    intro group hgroup
    have hlt : BitString.toNat group < 2 ^ 8 := by
      refine Nat.lt_trans (BitString.toNat_lt group) ?_
      rw [BitString.length_of_mem_groups hgroup]
      decide
    rw [Function.comp_apply, base32Char, groupByte, UInt8.toNat_ofNat_of_lt' hlt]
  have hlength := congrArg List.length hchars
  rw [List.length_map] at hlength
  rw [chopBufferToBase32String, rfc4648Base32, hchars, hlength]
  congr 2
  split
  · omega
  · omega

end Rfc

/-- The local variables of the encoder.  `b32` is the array that it writes to. -/
structure Base32Locals where
  i : UInt32
  j : UInt32
  value : UInt8
  b32 : Bytes

def storeChar (b32 : Bytes) (index : UInt32) (c : UInt8) : Outcome Bytes :=
  Outcome.assert (index.toNat < b32.length) >>= fun _ => .done (b32.set index.toNat c)

/-- `b32[--j] = base32_chars[value]`. -/
def putQuintet (s : Base32Locals) : Outcome Base32Locals :=
  storeChar s.b32 (s.j - 1) (base32Char s.value) >>= fun b32 => .done { s with j := s.j - 1, b32 }

section Duff

variable (ubuf : Bytes)

def readByte (s : Base32Locals) : UInt8 := ubuf.getD s.i.toNat 0

/-- The loop from `case 3` to its end. -/
def duffCase3 (s : Base32Locals) : Outcome Base32Locals := do
  let s ← putQuintet { s with value := s.value ||| ((readByte ubuf s &&& 0x07) <<< 2) }
  putQuintet { s with value := (readByte ubuf s &&& 0xf8) >>> 3, i := s.i - 1 }

/-- The loop from `case 1` on, as each case falls through to the next one. -/
def duffCase1 (s : Base32Locals) : Outcome Base32Locals := do
  let s ← putQuintet { s with value := s.value ||| ((readByte ubuf s &&& 0x01) <<< 4) }
  let s ← putQuintet { s with value := (readByte ubuf s &&& 0x3e) >>> 1 }
  duffCase3 ubuf { s with value := (readByte ubuf s &&& 0xc0) >>> 6, i := s.i - 1 }

def duffCase4 (s : Base32Locals) : Outcome Base32Locals := do
  let s ← putQuintet { s with value := s.value ||| ((readByte ubuf s &&& 0x0f) <<< 1) }
  duffCase1 ubuf { s with value := (readByte ubuf s &&& 0xf0) >>> 4, i := s.i - 1 }

def duffCase2 (s : Base32Locals) : Outcome Base32Locals := do
  let s ← putQuintet { s with value := s.value ||| ((readByte ubuf s &&& 0x03) <<< 3) }
  let s ← putQuintet { s with value := (readByte ubuf s &&& 0x7c) >>> 2 }
  duffCase4 ubuf { s with value := (readByte ubuf s &&& 0x80) >>> 7, i := s.i - 1 }

def duffCase0 (s : Base32Locals) : Outcome Base32Locals := do
  let s ← putQuintet { s with value := readByte ubuf s &&& 0x1f }
  duffCase2 ubuf { s with value := (readByte ubuf s &&& 0xe0) >>> 5, i := s.i - 1 }

/-- The label that the `switch` goes to. -/
def duffEnter (label : Nat) : Base32Locals → Outcome Base32Locals :=
  match label with
  | 0 => duffCase0 ubuf
  | 1 => duffCase1 ubuf
  | 2 => duffCase2 ubuf
  | 3 => duffCase3 ubuf
  | _ => duffCase4 ubuf

/-- `do { ... } while (j >= 8)`, entered at a label. -/
def duffLoop : Nat → Nat → Base32Locals → Outcome Base32Locals
  | 0, _, _ => .outOfFuel
  | fuel + 1, label, s =>
    duffEnter ubuf label s >>= fun s => if s.j ≥ 8 then duffLoop fuel 0 s else .done s

end Duff

/-- The loop that writes `=` at `quintets + j`. -/
def storePadding (quintets : UInt32) : Nat → UInt32 → Bytes → Outcome Bytes
  | 0, _, b32 => .done b32
  | padding + 1, j, b32 =>
    storeChar b32 (quintets + j) base32Pad >>= fun b32 => storePadding quintets padding (j + 1) b32

/-- `chop_buffer_to_base32_string`, with the array that it is given.  Counters are `unsigned int`. -/
def storeBase32String (fuel : Nat) (buffer b32 : Bytes) : Outcome Bytes :=
  let size := buffer.length
  if size = 0 then storeChar b32 0 0
  else
    let quintets := UInt32.ofNat ((size * 8 + 4) % 2 ^ 64 / 5)
    duffLoop buffer fuel (size * 8 % 2 ^ 64 % 5) ⟨UInt32.ofNat (size - 1), quintets, 0, b32⟩ >>= fun s =>
      let padding := if quintets % 8 ≠ 0 then 8 - quintets % 8 else 0
      storePadding quintets padding.toNat 0 s.b32 >>= fun b32 => storeChar b32 (quintets + padding) 0

/-- So many bytes are still to be read, so many characters are still to be written, and these have been
written in their places. -/
structure Written (array : Bytes) (unread unwritten : Nat) (chars : Bytes) (s : Base32Locals) : Prop where
  i_eq : s.i = UInt32.ofNat unread - 1
  j_eq : s.j = UInt32.ofNat unwritten
  fits : unwritten + chars.length ≤ array.length
  word : unread < 2 ^ 32 ∧ unwritten < 2 ^ 32
  b32_eq : s.b32 = array.take unwritten ++ (chars ++ array.drop (unwritten + chars.length))

private theorem pred_ofNat_succ (n : Nat) : UInt32.ofNat (n + 1) - 1 = UInt32.ofNat n := by
  rw [UInt32.ofNat_add]
  exact UInt32.add_sub_cancel _ _

namespace Written

variable {array ubuf chars : Bytes} {unread unwritten : Nat} {s : Base32Locals}

theorem with_value (h : Written array unread unwritten chars s) (value : UInt8) :
    Written array unread unwritten chars { s with value } :=
  ⟨h.i_eq, h.j_eq, h.fits, h.word, h.b32_eq⟩

/-- The byte before is the next one to be read. -/
theorem prev (h : Written array (unread + 1) unwritten chars s) (value : UInt8) :
    Written array unread unwritten chars { s with value, i := s.i - 1 } where
  i_eq := by
    rw [h.i_eq, pred_ofNat_succ]
  j_eq := h.j_eq
  fits := h.fits
  word := ⟨Nat.lt_of_succ_lt h.word.1, h.word.2⟩
  b32_eq := h.b32_eq

theorem readByte_eq (h : Written array (unread + 1) unwritten chars s) {byte : UInt8}
    (hbyte : ubuf[unread]? = some byte) : readByte ubuf s = byte := by
  have hword : unread < 2 ^ 32 := Nat.lt_of_succ_lt h.word.1
  rw [readByte, h.i_eq, pred_ofNat_succ, UInt32.toNat_ofNat_of_lt' hword, List.getD_eq_getElem?_getD,
    hbyte, Option.getD_some]

theorem put (h : Written array unread (unwritten + 1) chars s) :
    ∃ s', putQuintet s = .done s' ∧ Written array unread unwritten (base32Char s.value :: chars) s' := by
  have hfits := h.fits
  have hword : unwritten < 2 ^ 32 := Nat.lt_of_succ_lt h.word.2
  have hj : (s.j - 1).toNat = unwritten := by
    rw [h.j_eq, pred_ofNat_succ, UInt32.toNat_ofNat_of_lt' hword]
  have htake : (array.take unwritten).length = unwritten := List.length_take_of_le (by omega)
  have hcell : array.take (unwritten + 1) = array.take unwritten ++ [array[unwritten]] :=
    List.take_succ_eq_append_getElem (by omega)
  have hroom : (s.j - 1).toNat < s.b32.length := by
    rw [hj, h.b32_eq, List.length_append, List.length_take]
    omega
  refine ⟨{ s with j := s.j - 1, b32 := s.b32.set (s.j - 1).toNat (base32Char s.value) }, ?_, h.i_eq, ?_,
    ?_, ⟨h.word.1, hword⟩, ?_⟩
  · rw [putQuintet, storeChar, Outcome.assert_of hroom]
    rfl
  · rw [h.j_eq, pred_ofNat_succ]
  · rw [List.length_cons]
    omega
  · change s.b32.set (s.j - 1).toNat (base32Char s.value) = _
    rw [hj, h.b32_eq, hcell, List.append_assoc, List.set_append_right _ _ (by omega), htake,
      Nat.sub_self, List.singleton_append, List.set_cons_zero, List.length_cons, Nat.add_assoc,
      Nat.add_comm 1]
    rfl

variable {b0 b1 b2 b3 b4 : UInt8}

theorem case3 (h : Written array (unread + 1) (unwritten + 2) chars s) (h0 : ubuf[unread]? = some b0) :
    ∃ s', duffCase3 ubuf s = .done s' ∧ Written array unread unwritten
      (base32Char ((b0 &&& 0xf8) >>> 3) :: base32Char (s.value ||| ((b0 &&& 0x07) <<< 2)) :: chars) s' := by
  obtain ⟨s₁, hput₁, h₁⟩ := (h.with_value (s.value ||| ((b0 &&& 0x07) <<< 2))).put
  obtain ⟨s₂, hput₂, h₂⟩ := (h₁.prev ((b0 &&& 0xf8) >>> 3)).put
  refine ⟨s₂, ?_, h₂⟩
  rw [duffCase3, h.readByte_eq h0, hput₁, Outcome.done_bind, h₁.readByte_eq h0, hput₂]

theorem case1 (h : Written array (unread + 2) (unwritten + 4) chars s) (h0 : ubuf[unread]? = some b0)
    (h1 : ubuf[unread + 1]? = some b1) :
    ∃ s', duffCase1 ubuf s = .done s' ∧ Written array unread unwritten
      (base32Char ((b0 &&& 0xf8) >>> 3) ::
        base32Char (((b1 &&& 0xc0) >>> 6) ||| ((b0 &&& 0x07) <<< 2)) ::
        base32Char ((b1 &&& 0x3e) >>> 1) :: base32Char (s.value ||| ((b1 &&& 0x01) <<< 4)) :: chars) s' := by
  obtain ⟨s₁, hput₁, h₁⟩ := (h.with_value (s.value ||| ((b1 &&& 0x01) <<< 4))).put
  obtain ⟨s₂, hput₂, h₂⟩ := (h₁.with_value ((b1 &&& 0x3e) >>> 1)).put
  obtain ⟨s₃, hrest, h₃⟩ := (h₂.prev ((b1 &&& 0xc0) >>> 6)).case3 h0
  refine ⟨s₃, ?_, h₃⟩
  rw [duffCase1, h.readByte_eq h1, hput₁, Outcome.done_bind, h₁.readByte_eq h1, hput₂, Outcome.done_bind,
    h₂.readByte_eq h1, hrest]

theorem case4 (h : Written array (unread + 3) (unwritten + 5) chars s) (h0 : ubuf[unread]? = some b0)
    (h1 : ubuf[unread + 1]? = some b1) (h2 : ubuf[unread + 2]? = some b2) :
    ∃ s', duffCase4 ubuf s = .done s' ∧ Written array unread unwritten
      (base32Char ((b0 &&& 0xf8) >>> 3) ::
        base32Char (((b1 &&& 0xc0) >>> 6) ||| ((b0 &&& 0x07) <<< 2)) ::
        base32Char ((b1 &&& 0x3e) >>> 1) ::
        base32Char (((b2 &&& 0xf0) >>> 4) ||| ((b1 &&& 0x01) <<< 4)) ::
        base32Char (s.value ||| ((b2 &&& 0x0f) <<< 1)) :: chars) s' := by
  obtain ⟨s₁, hput₁, h₁⟩ := (h.with_value (s.value ||| ((b2 &&& 0x0f) <<< 1))).put
  obtain ⟨s₂, hrest, h₂⟩ := (h₁.prev ((b2 &&& 0xf0) >>> 4)).case1 h0 h1
  refine ⟨s₂, ?_, h₂⟩
  rw [duffCase4, h.readByte_eq h2, hput₁, Outcome.done_bind, h₁.readByte_eq h2, hrest]

theorem case2 (h : Written array (unread + 4) (unwritten + 7) chars s) (h0 : ubuf[unread]? = some b0)
    (h1 : ubuf[unread + 1]? = some b1) (h2 : ubuf[unread + 2]? = some b2)
    (h3 : ubuf[unread + 3]? = some b3) :
    ∃ s', duffCase2 ubuf s = .done s' ∧ Written array unread unwritten
      (base32Char ((b0 &&& 0xf8) >>> 3) ::
        base32Char (((b1 &&& 0xc0) >>> 6) ||| ((b0 &&& 0x07) <<< 2)) ::
        base32Char ((b1 &&& 0x3e) >>> 1) ::
        base32Char (((b2 &&& 0xf0) >>> 4) ||| ((b1 &&& 0x01) <<< 4)) ::
        base32Char (((b3 &&& 0x80) >>> 7) ||| ((b2 &&& 0x0f) <<< 1)) ::
        base32Char ((b3 &&& 0x7c) >>> 2) ::
        base32Char (s.value ||| ((b3 &&& 0x03) <<< 3)) :: chars) s' := by
  obtain ⟨s₁, hput₁, h₁⟩ := (h.with_value (s.value ||| ((b3 &&& 0x03) <<< 3))).put
  obtain ⟨s₂, hput₂, h₂⟩ := (h₁.with_value ((b3 &&& 0x7c) >>> 2)).put
  obtain ⟨s₃, hrest, h₃⟩ := (h₂.prev ((b3 &&& 0x80) >>> 7)).case4 h0 h1 h2
  refine ⟨s₃, ?_, h₃⟩
  rw [duffCase2, h.readByte_eq h3, hput₁, Outcome.done_bind, h₁.readByte_eq h3, hput₂, Outcome.done_bind,
    h₂.readByte_eq h3, hrest]

/-- The whole loop writes the quintets of five bytes. -/
theorem case0 (h : Written array (unread + 5) (unwritten + 8) chars s) (h0 : ubuf[unread]? = some b0)
    (h1 : ubuf[unread + 1]? = some b1) (h2 : ubuf[unread + 2]? = some b2)
    (h3 : ubuf[unread + 3]? = some b3) (h4 : ubuf[unread + 4]? = some b4) :
    ∃ s', duffCase0 ubuf s = .done s' ∧ Written array unread unwritten
      ((base32Group b0 b1 b2 b3 b4).map base32Char ++ chars) s' := by
  obtain ⟨s₁, hput₁, h₁⟩ := (h.with_value (b4 &&& 0x1f)).put
  obtain ⟨s₂, hrest, h₂⟩ := (h₁.prev ((b4 &&& 0xe0) >>> 5)).case2 h0 h1 h2 h3
  refine ⟨s₂, ?_, h₂⟩
  rw [duffCase0, h.readByte_eq h4, hput₁, Outcome.done_bind, h₁.readByte_eq h4, hrest]

end Written


section Encoder

variable {array buffer : Bytes}

private theorem exists_five {group : Bytes} (h : group.length = 5) :
    ∃ b0 b1 b2 b3 b4, group = [b0, b1, b2, b3, b4] := by
  match group, h with
  | [b0, b1, b2, b3, b4], _ => exact ⟨b0, b1, b2, b3, b4, rfl⟩

/-- Groups of five bytes are written one after the other, from the last one to the first. -/
theorem Written.groups {m fuel : Nat} {before after : Bytes} {s : Base32Locals} (hfuel : m ≤ fuel)
    (hbefore : before.length = 5 * m)
    (h : Written array (5 * m) (8 * m) ((base32Quintets after).map base32Char) s) :
    ∃ s', (if s.j ≥ 8 then duffLoop (before ++ after) fuel 0 s else .done s) = .done s' ∧
      Written array 0 0 ((base32Quintets (before ++ after)).map base32Char) s' := by
  induction m generalizing fuel before after s with
  | zero =>
    have hnil : before = [] := List.length_eq_zero_iff.mp hbefore
    have hj : ¬ s.j ≥ 8 := by
      rw [h.j_eq]
      decide
    rw [if_neg hj, hnil, List.nil_append]
    exact ⟨s, rfl, h⟩
  | succ m ih =>
    have hword := h.word.2
    have hj : s.j ≥ 8 := by
      rw [h.j_eq, ge_iff_le, UInt32.le_iff_toNat_le, UInt32.toNat_ofNat_of_lt' hword]
      change 8 ≤ _
      omega
    obtain ⟨b0, b1, b2, b3, b4, hgroup⟩ : ∃ b0 b1 b2 b3 b4, before.drop (5 * m) = [b0, b1, b2, b3, b4] := by
      apply exists_five
      rw [List.length_drop]
      omega
    have hlength : (before.take (5 * m)).length = 5 * m := List.length_take_of_le (by omega)
    have hsplit : before ++ after = before.take (5 * m) ++ (b0 :: b1 :: b2 :: b3 :: b4 :: after) := by
      conv_lhs => rw [← List.take_append_drop (5 * m) before, hgroup]
      rw [List.append_assoc]
      rfl
    have hget (k : Nat) : (before ++ after)[5 * m + k]? = (b0 :: b1 :: b2 :: b3 :: b4 :: after)[k]? := by
      rw [hsplit, List.getElem?_append_right (by omega), hlength, Nat.add_sub_cancel_left]
    obtain ⟨fuel, rfl⟩ : ∃ fuel', fuel = fuel' + 1 := ⟨fuel - 1, by omega⟩
    obtain ⟨s', hrun, h'⟩ := h.case0 (hget 0) (hget 1) (hget 2) (hget 3) (hget 4)
    rw [← List.map_append] at h'
    rw [if_pos hj, duffLoop, duffEnter, hrun, Outcome.done_bind, hsplit]
    exact ih (by omega) hlength h'

theorem length_base32Quintets (buffer : Bytes) :
    (base32Quintets buffer).length = (buffer.length * 8 + 4) / 5 := by
  fun_induction base32Quintets buffer with
  | case1 => rfl
  | case2 b0 => simp [base32Group]
  | case3 b0 b1 => simp [base32Group]
  | case4 b0 b1 b2 => simp [base32Group]
  | case5 b0 b1 b2 b3 => simp [base32Group]
  | case6 b0 b1 b2 b3 b4 rest ih =>
    rw [List.length_append, ih, base32Group]
    simp only [List.length_cons, List.length_nil]
    omega

/-- The loop from the label that belongs to the last group, which may have fewer than five bytes. -/
theorem Written.whole {fuel : Nat} {s : Base32Locals} (hne : buffer ≠ []) (hfuel : buffer.length / 5 < fuel)
    (h : Written array buffer.length ((buffer.length * 8 + 4) / 5) [] s) (hvalue : s.value = 0) :
    ∃ s', duffLoop buffer fuel (buffer.length * 8 % 5) s = .done s' ∧
      Written array 0 0 ((base32Quintets buffer).map base32Char) s' := by
  have hpos : 0 < buffer.length := List.length_pos_of_ne_nil hne
  generalize hm : buffer.length / 5 = m at hfuel
  have hbefore : (buffer.take (5 * m)).length = 5 * m := List.length_take_of_le (by omega)
  have hafter : (buffer.drop (5 * m)).length = buffer.length - 5 * m := List.length_drop
  have hget (k : Nat) : buffer[5 * m + k]? = (buffer.drop (5 * m))[k]? := List.getElem?_drop.symm
  have hsplit := List.take_append_drop (5 * m) buffer
  obtain ⟨fuel, rfl⟩ : ∃ fuel', fuel = fuel' + 1 := ⟨fuel - 1, by omega⟩
  have hfirst {label : Nat} {s s' : Base32Locals} (hrun : duffEnter buffer label s = .done s')
      (h : Written array (5 * m) (8 * m) ((base32Quintets (buffer.drop (5 * m))).map base32Char) s') :
      ∃ s'', duffLoop buffer (fuel + 1) label s = .done s'' ∧
        Written array 0 0 ((base32Quintets buffer).map base32Char) s'' := by
    obtain ⟨s'', hrest, h''⟩ := h.groups (Nat.le_of_lt_succ hfuel) hbefore
    rw [hsplit] at hrest h''
    refine ⟨s'', ?_, h''⟩
    rw [duffLoop, hrun, Outcome.done_bind]
    exact hrest
  match hlast : buffer.drop (5 * m), hafter with
  | [], hafter =>
    rw [List.length_nil] at hafter
    have hunread : buffer.length = 5 * m := by omega
    have hunwritten : (buffer.length * 8 + 4) / 5 = 8 * m := by omega
    have hlabel : buffer.length * 8 % 5 = 0 := by omega
    have hword := h.word.2
    have hj : s.j ≥ 8 := by
      rw [h.j_eq, ge_iff_le, UInt32.le_iff_toNat_le, UInt32.toNat_ofNat_of_lt' hword]
      change 8 ≤ _
      omega
    rw [hunwritten, hunread] at h
    have hnone : Written array (5 * m) (8 * m) ((base32Quintets []).map base32Char) s := h
    obtain ⟨s', hrun, h'⟩ := hnone.groups (Nat.le_of_lt hfuel) hbefore
    rw [hlast] at hsplit
    rw [hsplit] at hrun h'
    rw [if_pos hj] at hrun
    rw [hlabel]
    exact ⟨s', hrun, h'⟩
  | [b0], hafter =>
    simp only [List.length_cons, List.length_nil] at hafter
    have hunread : buffer.length = 5 * m + 1 := by omega
    have hunwritten : (buffer.length * 8 + 4) / 5 = 8 * m + 2 := by omega
    have hlabel : buffer.length * 8 % 5 = 3 := by omega
    rw [hlast] at hfirst hget
    rw [hunwritten, hunread] at h
    obtain ⟨s', hrun, h'⟩ := h.case3 (hget 0)
    rw [hvalue] at h'
    rw [hlabel]
    exact hfirst hrun h'
  | [b0, b1], hafter =>
    simp only [List.length_cons, List.length_nil] at hafter
    have hunread : buffer.length = 5 * m + 2 := by omega
    have hunwritten : (buffer.length * 8 + 4) / 5 = 8 * m + 4 := by omega
    have hlabel : buffer.length * 8 % 5 = 1 := by omega
    rw [hlast] at hfirst hget
    rw [hunwritten, hunread] at h
    obtain ⟨s', hrun, h'⟩ := h.case1 (hget 0) (hget 1)
    rw [hvalue] at h'
    rw [hlabel]
    exact hfirst hrun h'
  | [b0, b1, b2], hafter =>
    simp only [List.length_cons, List.length_nil] at hafter
    have hunread : buffer.length = 5 * m + 3 := by omega
    have hunwritten : (buffer.length * 8 + 4) / 5 = 8 * m + 5 := by omega
    have hlabel : buffer.length * 8 % 5 = 4 := by omega
    rw [hlast] at hfirst hget
    rw [hunwritten, hunread] at h
    obtain ⟨s', hrun, h'⟩ := h.case4 (hget 0) (hget 1) (hget 2)
    rw [hvalue] at h'
    rw [hlabel]
    exact hfirst hrun h'
  | [b0, b1, b2, b3], hafter =>
    simp only [List.length_cons, List.length_nil] at hafter
    have hunread : buffer.length = 5 * m + 4 := by omega
    have hunwritten : (buffer.length * 8 + 4) / 5 = 8 * m + 7 := by omega
    have hlabel : buffer.length * 8 % 5 = 2 := by omega
    rw [hlast] at hfirst hget
    rw [hunwritten, hunread] at h
    obtain ⟨s', hrun, h'⟩ := h.case2 (hget 0) (hget 1) (hget 2) (hget 3)
    rw [hvalue] at h'
    rw [hlabel]
    exact hfirst hrun h'
  | _ :: _ :: _ :: _ :: _ :: _, hafter =>
    simp only [List.length_cons] at hafter
    omega

private theorem storeChar_append {text rest : Bytes} (hword : text.length < 2 ^ 32) (old c : UInt8) :
    storeChar (text ++ old :: rest) (UInt32.ofNat text.length) c = .done (text ++ c :: rest) := by
  have hroom : text.length < (text ++ old :: rest).length := by simp
  rw [storeChar, UInt32.toNat_ofNat_of_lt' hword, Outcome.assert_of hroom, Outcome.done_bind,
    List.set_append_right _ _ (Nat.le_refl _), Nat.sub_self, List.set_cons_zero]

private theorem storePadding_append {quintets j padding : Nat} {text rest : Bytes}
    (htext : text.length = quintets + j) (hrest : padding ≤ rest.length)
    (hword : quintets + j + padding ≤ 2 ^ 32) :
    storePadding (UInt32.ofNat quintets) padding (UInt32.ofNat j) (text ++ rest) =
      .done (text ++ (List.replicate padding base32Pad ++ rest.drop padding)) := by
  induction padding generalizing j text rest with
  | zero => rfl
  | succ padding ih =>
    cases rest with
    | nil => cases hrest
    | cons old rest =>
      have hlength : (text ++ [base32Pad]).length = quintets + (j + 1) := by
        rw [List.length_append, htext]
        rfl
      have hadd : UInt32.ofNat quintets + UInt32.ofNat j = UInt32.ofNat text.length := by
        rw [htext, UInt32.ofNat_add]
      have hnext : UInt32.ofNat j + 1 = UInt32.ofNat (j + 1) := by
        rw [UInt32.ofNat_add]
        rfl
      rw [storePadding, hadd, storeChar_append (by omega), Outcome.done_bind, hnext,
        List.append_cons text base32Pad rest,
        ih hlength (Nat.le_of_succ_le_succ hrest) (by omega), List.append_assoc]
      rfl

theorem padding_eq (quintets : Nat) :
    (if UInt32.ofNat quintets % 8 ≠ 0 then 8 - UInt32.ofNat quintets % 8 else 0) =
      UInt32.ofNat (if quintets % 8 ≠ 0 then 8 - quintets % 8 else 0) := by
  have hmod : UInt32.ofNat quintets % 8 = UInt32.ofNat (quintets % 8) := by
    rw [← UInt32.toNat_inj, UInt32.toNat_mod, UInt32.toNat_ofNat', UInt32.toNat_ofNat']
    change quintets % 2 ^ 32 % 8 = quintets % 8 % 2 ^ 32
    omega
  have hlt : quintets % 8 < 8 := Nat.mod_lt _ (by decide)
  rw [hmod]
  generalize quintets % 8 = rest at hlt
  interval_cases rest <;> rfl

/-- The array begins with the encoding and a null character, and is as it was behind them. -/
theorem storeBase32String_eq {fuel : Nat} (hfuel : buffer.length / 5 < fuel)
    (hword : 8 * ((buffer.length + 4) / 5) < 2 ^ 32) (hroom : 8 * ((buffer.length + 4) / 5) < array.length) :
    storeBase32String fuel buffer array = .done (chopBufferToBase32String buffer ++
      0 :: array.drop ((chopBufferToBase32String buffer).length + 1)) := by
  have hlength := length_chopBufferToBase32String buffer
  by_cases hne : buffer = []
  · subst hne
    obtain ⟨old, rest, rfl⟩ := List.exists_cons_of_length_pos (Nat.lt_of_le_of_lt (Nat.zero_le _) hroom)
    exact storeChar_append (by decide : ([] : Bytes).length < 2 ^ 32) old 0
  have hpos : 0 < buffer.length := List.length_pos_of_ne_nil hne
  generalize hquintets : (buffer.length * 8 + 4) / 5 = quintets
  have hstart : Written array buffer.length quintets []
      ⟨UInt32.ofNat (buffer.length - 1), UInt32.ofNat quintets, 0, array⟩ := by
    refine ⟨?_, rfl, ?_, ⟨by omega, by omega⟩, (List.take_append_drop _ array).symm⟩
    · obtain ⟨n, hn⟩ := Nat.exists_eq_add_one_of_ne_zero hpos.ne'
      rw [hn, pred_ofNat_succ, Nat.add_sub_cancel]
    · rw [List.length_nil]
      omega
  rw [← hquintets] at hstart
  obtain ⟨s, hrun, h⟩ := hstart.whole hne hfuel rfl
  rw [hquintets] at hrun
  have hchars : ((base32Quintets buffer).map base32Char).length = quintets := by
    rw [List.length_map, length_base32Quintets, hquintets]
  have hb32 : s.b32 = (base32Quintets buffer).map base32Char ++ array.drop quintets := by
    rw [h.b32_eq, List.take_zero, List.nil_append, Nat.zero_add, hchars]
  have hwide : buffer.length * 8 + 4 < 2 ^ 64 := by omega
  have hsize : buffer.length * 8 % 2 ^ 64 = buffer.length * 8 :=
    Nat.mod_eq_of_lt (Nat.lt_of_le_of_lt (Nat.le_add_right _ 4) hwide)
  have hsize' : (buffer.length * 8 + 4) % 2 ^ 64 / 5 = quintets := by
    rw [Nat.mod_eq_of_lt hwide, hquintets]
  simp only [storeBase32String, if_neg hpos.ne', hsize, hsize', hrun, Outcome.done_bind, padding_eq]
  have hlength' : quintets + (if quintets % 8 ≠ 0 then 8 - quintets % 8 else 0) =
      (chopBufferToBase32String buffer).length := by
    rw [chopBufferToBase32String, List.length_append, hchars, length_base32Quintets, hquintets,
      List.length_replicate]
  generalize hpadding : (if quintets % 8 ≠ 0 then 8 - quintets % 8 else 0) = padding at hlength'
  have htext : chopBufferToBase32String buffer =
      (base32Quintets buffer).map base32Char ++ List.replicate padding base32Pad := by
    rw [chopBufferToBase32String, length_base32Quintets, hquintets, hpadding]
  have hdrop : padding ≤ (array.drop quintets).length := by
    rw [List.length_drop]
    omega
  have hstore := storePadding_append (j := 0) hchars hdrop (by omega)
  have hrest : (array.drop quintets).drop padding =
      array[(chopBufferToBase32String buffer).length] ::
        array.drop ((chopBufferToBase32String buffer).length + 1) := by
    rw [List.drop_drop, hlength']
    exact List.drop_eq_getElem_cons (by omega)
  have hpaddingNat : (UInt32.ofNat padding).toNat = padding := UInt32.toNat_ofNat_of_lt' (by
    change padding < 2 ^ 32
    omega)
  have hend : UInt32.ofNat quintets + UInt32.ofNat padding =
      UInt32.ofNat (chopBufferToBase32String buffer).length := by
    rw [← hlength', UInt32.ofNat_add]
  rw [hpaddingNat, hb32, show (0 : UInt32) = UInt32.ofNat 0 from rfl, hstore, Outcome.done_bind, hend,
    ← List.append_assoc, ← htext, hrest]
  exact storeChar_append (by omega) _ 0

end Encoder

section Frame

variable {ubuf b32 : Bytes}

theorem storeChar_eq_done {index : UInt32} {c : UInt8} {out : Bytes} (h : storeChar b32 index c = .done out) :
    index.toNat < b32.length ∧ out = b32.set index.toNat c := by
  obtain ⟨_, hassert, hdone⟩ := Outcome.bind_eq_done.mp h
  cases hdone
  exact ⟨Outcome.of_assert hassert, rfl⟩

def KeepsLength (run : Base32Locals → Outcome Base32Locals) : Prop :=
  ∀ s s', run s = .done s' → s'.b32.length = s.b32.length

theorem KeepsLength.putQuintet : KeepsLength putQuintet := by
  intro s s' h
  obtain ⟨b32, hstore, hdone⟩ := Outcome.bind_eq_done.mp h
  cases hdone
  rw [(storeChar_eq_done hstore).2, List.length_set]

theorem KeepsLength.duffCase3 : KeepsLength (duffCase3 ubuf) := by
  intro s s' h
  obtain ⟨s₁, hput₁, hput₂⟩ := Outcome.bind_eq_done.mp h
  have hlength₁ := KeepsLength.putQuintet _ _ hput₁
  exact (KeepsLength.putQuintet _ _ hput₂).trans hlength₁

theorem KeepsLength.duffCase1 : KeepsLength (duffCase1 ubuf) := by
  intro s s' h
  obtain ⟨s₁, hput₁, hrest⟩ := Outcome.bind_eq_done.mp h
  obtain ⟨s₂, hput₂, hrest⟩ := Outcome.bind_eq_done.mp hrest
  have hlength₁ := KeepsLength.putQuintet _ _ hput₁
  have hlength₂ := (KeepsLength.putQuintet _ _ hput₂).trans hlength₁
  exact (KeepsLength.duffCase3 _ _ hrest).trans hlength₂

theorem KeepsLength.duffCase4 : KeepsLength (duffCase4 ubuf) := by
  intro s s' h
  obtain ⟨s₁, hput₁, hrest⟩ := Outcome.bind_eq_done.mp h
  have hlength₁ := KeepsLength.putQuintet _ _ hput₁
  exact (KeepsLength.duffCase1 _ _ hrest).trans hlength₁

theorem KeepsLength.duffCase2 : KeepsLength (duffCase2 ubuf) := by
  intro s s' h
  obtain ⟨s₁, hput₁, hrest⟩ := Outcome.bind_eq_done.mp h
  obtain ⟨s₂, hput₂, hrest⟩ := Outcome.bind_eq_done.mp hrest
  have hlength₁ := KeepsLength.putQuintet _ _ hput₁
  have hlength₂ := (KeepsLength.putQuintet _ _ hput₂).trans hlength₁
  exact (KeepsLength.duffCase4 _ _ hrest).trans hlength₂

theorem KeepsLength.duffCase0 : KeepsLength (duffCase0 ubuf) := by
  intro s s' h
  obtain ⟨s₁, hput₁, hrest⟩ := Outcome.bind_eq_done.mp h
  have hlength₁ := KeepsLength.putQuintet _ _ hput₁
  exact (KeepsLength.duffCase2 _ _ hrest).trans hlength₁

theorem KeepsLength.duffEnter (label : Nat) : KeepsLength (duffEnter ubuf label) := by
  fun_cases Libchop.duffEnter ubuf label with
  | case1 => exact .duffCase0
  | case2 => exact .duffCase1
  | case3 => exact .duffCase2
  | case4 => exact .duffCase3
  | case5 => exact .duffCase4

theorem KeepsLength.duffLoop (fuel label : Nat) : KeepsLength (duffLoop ubuf fuel label) := by
  induction fuel generalizing label with
  | zero =>
    intro s s' h
    cases h
  | succ fuel ih =>
    intro s s' h
    obtain ⟨t, henter, hrest⟩ := Outcome.bind_eq_done.mp h
    have hlength := KeepsLength.duffEnter label _ _ henter
    by_cases hj : t.j ≥ 8
    · rw [if_pos hj] at hrest
      rw [ih 0 _ _ hrest, hlength]
    · rw [if_neg hj] at hrest
      cases hrest
      exact hlength

theorem length_storePadding {quintets j : UInt32} {padding : Nat} {out : Bytes}
    (h : storePadding quintets padding j b32 = .done out) : out.length = b32.length := by
  induction padding generalizing j b32 with
  | zero =>
    cases h
    rfl
  | succ padding ih =>
    obtain ⟨next, hstore, hrest⟩ := Outcome.bind_eq_done.mp h
    rw [ih hrest, (storeChar_eq_done hstore).2, List.length_set]

/-- Where the null character is written: a position of the array, as an `unsigned int`. -/
theorem storeBase32String_null {fuel : Nat} {buffer out : Bytes} (hne : buffer ≠ [])
    (h : storeBase32String fuel buffer b32 = .done out) :
    ∃ index : UInt32, index.toNat < b32.length ∧ out[index.toNat]? = some 0 ∧
      (buffer.length * 8 + 4 < 2 ^ 64 → index = UInt32.ofNat (8 * ((buffer.length + 4) / 5))) := by
  have hpos : 0 < buffer.length := List.length_pos_of_ne_nil hne
  rw [storeBase32String, if_neg hpos.ne'] at h
  obtain ⟨s, hloop, hrest⟩ := Outcome.bind_eq_done.mp h
  obtain ⟨padded, hpadding, hstore⟩ := Outcome.bind_eq_done.mp hrest
  obtain ⟨hindex, rfl⟩ := storeChar_eq_done hstore
  have hnull := List.getElem?_set_self (a := (0 : UInt8)) hindex
  rw [length_storePadding hpadding, KeepsLength.duffLoop _ _ _ _ hloop] at hindex
  refine ⟨_, hindex, hnull, fun hword => ?_⟩
  rw [Nat.mod_eq_of_lt hword, padding_eq, ← UInt32.ofNat_add]
  congr 1
  split
  · omega
  · omega

end Frame

end Libchop
