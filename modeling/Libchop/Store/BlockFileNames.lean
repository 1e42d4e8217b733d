import Libchop.Framework.CArray
import Libchop.Indexer.Base32Decoder
import Libchop.Store.FsStore

/-!
# The names of block files

`block_file_name` encodes a key into a buffer of twice its size, and from there writes a name with a slash into
the array of its caller.  The encoding fits the buffer for most sizes of keys.
-/

namespace Libchop

/-- `block_file_name`, with what is in its buffer and in the array of its caller before. -/
def storeBlockFileName (fuel : Nat) (key buffer name : Bytes) : Outcome Bytes := do
  let buffer ← storeBase32String fuel key buffer
  let text ← CArray.string buffer 0
  Outcome.assert (text.length > 2)
  Outcome.assert (text.length < key.length * 2 + 1)
  let name ← CArray.copy name 0 (buffer.take 2)
  let name ← CArray.strcpy name 2 [slash]
  let rest ← CArray.string buffer 2
  CArray.strcat name rest

/-- The name that is written for a key, whatever is in the two arrays before. -/
def FileNameOf (key name : Bytes) : Prop :=
  (0 : UInt8) ∉ name ∧ ∀ buffer array : Bytes, buffer.length = key.length * 2 + 1 →
    array.length = key.length * 2 + 2 → ∃ enough, ∀ fuel ≥ enough, ∃ rest,
      storeBlockFileName fuel key buffer array = .done (name ++ 0 :: rest)

/-- A name has two components, which make up the key's base32 form. -/
structure NamesKey (key name : Bytes) : Prop where
  stored : FileNameOf key name
  decoded : ∃ dir file, name = dir ++ slash :: file ∧ slash ∉ dir ∧ slash ∉ file ∧
    loadBase32String (dir ++ file) = (key, (dir ++ file).length)

/-- The base32 form of the key fits its buffer, and an `unsigned int` counts its characters. -/
def FitsName (key : Bytes) : Prop :=
  key.length ∉ [1, 2, 3, 6, 7, 11] ∧ key.length ≤ 5 * (2 ^ 29 - 1)

instance (key : Bytes) : Decidable (FitsName key) := inferInstanceAs (Decidable (_ ∧ _))

section Names

variable {key buffer array text rest : Bytes} {fuel : Nat}

private theorem exists_four (h : 4 ≤ array.length) :
    ∃ n0 n1 n2 n3 after, array = n0 :: n1 :: n2 :: n3 :: after := by
  match array, h with
  | n0 :: n1 :: n2 :: n3 :: after, _ => exact ⟨n0, n1, n2, n3, after, rfl⟩
  | [_, _, _], h => simp at h
  | [_, _], h => simp at h
  | [_], h => simp at h
  | [], h => simp at h

/-- A string of more than two characters goes to the array with a slash behind its first two. -/
theorem storeBlockFileName_eq
    (hstore : storeBase32String fuel key buffer = .done (text ++ 0 :: rest)) (htext : (0 : UInt8) ∉ text)
    (hlong : 2 < text.length) (hfits : text.length < key.length * 2 + 1)
    (harray : array.length = key.length * 2 + 2) :
    storeBlockFileName fuel key buffer array =
      .done ((text.take 2 ++ slash :: text.drop 2) ++ 0 :: array.drop (text.length + 2)) := by
  obtain ⟨n0, n1, n2, n3, array, rfl⟩ := exists_four (show 4 ≤ array.length by omega)
  have hwhole : CArray.string (text ++ 0 :: rest) 0 = .done text := CArray.string_append [] rest htext
  rw [storeBlockFileName, hstore, Outcome.done_bind, hwhole, Outcome.done_bind, Outcome.assert_of hlong,
    Outcome.done_bind, Outcome.assert_of hfits, Outcome.done_bind]
  obtain ⟨c, d, text, rfl⟩ : ∃ c d more, text = c :: d :: more := by
    match text, hlong with
    | c :: d :: more, _ => exact ⟨c, d, more, rfl⟩
  simp only [List.length_cons] at hfits harray
  simp only [List.mem_cons, not_or] at htext
  obtain ⟨hc, hd, hmore⟩ := htext
  have hcopy : CArray.copy (n0 :: n1 :: n2 :: n3 :: array) 0 [c, d] = .done (c :: d :: n2 :: n3 :: array) :=
    CArray.copy_append [] (n2 :: n3 :: array) (show [c, d].length = [n0, n1].length from rfl)
  have hslash : CArray.strcpy (c :: d :: n2 :: n3 :: array) 2 [slash] =
      .done (c :: d :: slash :: 0 :: array) := by
    rw [CArray.strcpy]
    exact CArray.copy_append [c, d] array (show ([slash] ++ [0]).length = [n2, n3].length from rfl)
  have hrest : CArray.string (c :: d :: text ++ 0 :: rest) 2 = .done text :=
    CArray.string_append [c, d] rest hmore
  have hbefore : CArray.string (c :: d :: slash :: 0 :: array) 0 = .done [c, d, slash] :=
    CArray.string_append [] array (show (0 : UInt8) ∉ [c, d, slash] by simp [hc, hd, slash])
  have hroom : (0 :: array).take (text.length + 1) ++ (0 :: array).drop (text.length + 1) = 0 :: array :=
    List.take_append_drop _ _
  have hlength : (text ++ [0]).length = ((0 :: array).take (text.length + 1)).length := by
    rw [List.length_append, List.length_take, List.length_cons]
    simp only [List.length_cons, List.length_nil]
    omega
  have hend := CArray.copy_append [c, d, slash] ((0 :: array).drop (text.length + 1)) hlength
  rw [hroom] at hend
  have hcat : CArray.strcat (c :: d :: slash :: 0 :: array) text =
      .done ([c, d, slash] ++ (text ++ [0] ++ (0 :: array).drop (text.length + 1))) := by
    rw [CArray.strcat, hbefore, Outcome.done_bind]
    exact hend
  change (CArray.copy _ 0 [c, d] >>= _) = _
  rw [hcopy, Outcome.done_bind, hslash, Outcome.done_bind, hrest, Outcome.done_bind, hcat]
  simp

private theorem terminated_inj {text' rest' : Bytes} (htext : (0 : UInt8) ∉ text) (htext' : (0 : UInt8) ∉ text')
    (h : text ++ 0 :: rest = text' ++ 0 :: rest') : text = text' := by
  have hstring : CArray.string (text ++ 0 :: rest) 0 = .done text := CArray.string_append [] rest htext
  rw [h] at hstring
  exact (Outcome.done.inj ((CArray.string_append [] rest' htext').symm.trans hstring)).symm

private theorem zero_notMem_string (key : Bytes) : (0 : UInt8) ∉ chopBufferToBase32String key := by
  intro h
  exact absurd (mem_chopBufferToBase32String h) (by decide)

/-- A key that fits is named by its base32 form. -/
theorem NamesKey.of_fitsName (hne : key ≠ []) (h : FitsName key) :
    NamesKey key (blockDir key ++ slash :: blockFile key) := by
  obtain ⟨hsmall, hlarge⟩ := h
  have hpos : 0 < key.length := List.length_pos_of_ne_nil hne
  have hlength := length_chopBufferToBase32String key
  have hfits : 8 * ((key.length + 4) / 5) ≤ 2 * key.length := by
    simp only [List.mem_cons, List.not_mem_nil, or_false, not_or] at hsmall
    omega
  have hzero := zero_notMem_string key
  have hname : (0 : UInt8) ∉ blockDir key ++ slash :: blockFile key := by
    intro hmem
    rcases List.mem_append.mp hmem with hdir | hrest
    · exact hzero (List.mem_of_mem_take hdir)
    · rcases List.mem_cons.mp hrest with hslash | hfile
      · exact absurd hslash (by decide)
      · exact hzero (List.mem_of_mem_drop hfile)
  refine ⟨⟨hname, fun buffer array hbuffer harray => ⟨key.length / 5 + 1, fun fuel hfuel => ?_⟩⟩, ?_⟩
  · have hstore := storeBase32String_eq hfuel (by omega)
      (show 8 * ((key.length + 4) / 5) < buffer.length by omega)
    exact ⟨_, storeBlockFileName_eq hstore hzero (by omega) (by omega) harray⟩
  · refine ⟨blockDir key, blockFile key, rfl, slash_notMem_blockDir key, slash_notMem_blockFile key, ?_⟩
    have hread := chopBase32StringToBuffer_string key (.inl (by decide) : EndsBase32 [])
    rw [List.append_nil] at hread
    rw [blockDir_append_blockFile, loadBase32String_eq, hread]

/-- A name that is written has one character more than the key's base32 form, which a null character of the
buffer ends. -/
theorem FileNameOf.string {name : Bytes} (h : FileNameOf key name) (hne : key ≠ []) :
    ∃ index : UInt32, 2 < index.toNat ∧ index.toNat < key.length * 2 + 1 ∧
      name.length ≤ index.toNat + 1 ∧
        (key.length * 8 + 4 < 2 ^ 64 → index = UInt32.ofNat (8 * ((key.length + 4) / 5))) := by
  obtain ⟨hname, hstored⟩ := h
  obtain ⟨enough, hrun⟩ := hstored (List.replicate (key.length * 2 + 1) 0)
    (List.replicate (key.length * 2 + 2) 0) List.length_replicate List.length_replicate
  obtain ⟨rest, hdone⟩ := hrun enough (Nat.le_refl _)
  obtain ⟨out, hstore, hrest⟩ := Outcome.bind_eq_done.mp hdone
  obtain ⟨text, htext, hrest⟩ := Outcome.bind_eq_done.mp hrest
  obtain ⟨_, hlong, hrest⟩ := Outcome.bind_eq_done.mp hrest
  obtain ⟨_, hfits, _⟩ := Outcome.bind_eq_done.mp hrest
  replace hlong := Outcome.of_assert hlong
  replace hfits := Outcome.of_assert hfits
  obtain ⟨hzero, after, rfl⟩ := CArray.string_eq_done htext
  obtain ⟨index, hindex, hnull, hvalue⟩ := storeBase32String_null hne hstore
  have hend := CArray.length_le_of_null htext hnull
  rw [List.length_replicate] at hindex
  rw [storeBlockFileName_eq hstore hzero hlong hfits List.length_replicate] at hdone
  have hwritten : (0 : UInt8) ∉ text.take 2 ++ slash :: text.drop 2 := by
    intro hmem
    rcases List.mem_append.mp hmem with hdir | hrest
    · exact hzero (List.mem_of_mem_take hdir)
    · rcases List.mem_cons.mp hrest with hslash | hfile
      · exact absurd hslash (by decide)
      · exact hzero (List.mem_of_mem_drop hfile)
  obtain rfl : text.take 2 ++ slash :: text.drop 2 = name := terminated_inj hwritten hname (Outcome.done.inj hdone)
  refine ⟨index, by omega, hindex, ?_, hvalue⟩
  rw [List.length_append, List.length_cons, List.length_take, List.length_drop]
  omega

/-- Only a key that fits is read back from its name. -/
theorem NamesKey.fitsName {name : Bytes} (h : NamesKey key name) (hne : key ≠ []) : FitsName key := by
  obtain ⟨index, hlong, hindex, hname, hvalue⟩ := h.stored.string hne
  obtain ⟨dir, file, rfl, _, _, hread⟩ := h.decoded
  have hcount := (base32Decode_length (dir ++ file) (by decide : 0 < 8) 0).1
  rw [loadBase32String_eq, chopBase32StringToBuffer] at hread
  rw [hread] at hcount
  simp only [List.length_append, List.length_cons] at hname hcount
  have hword : index.toNat < 2 ^ 32 := index.toNat_lt
  have hsize := hvalue (by omega)
  have hlarge : 8 * ((key.length + 4) / 5) < 2 ^ 32 := by
    by_contra hlarge
    have hwhole : 8 * ((key.length + 4) / 5) = 2 ^ 32 := by omega
    rw [hsize, hwhole] at hlong
    exact absurd hlong (by decide)
  rw [hsize, UInt32.toNat_ofNat_of_lt' hlarge] at hindex
  refine ⟨?_, by omega⟩
  simp only [List.mem_cons, List.not_mem_nil, or_false, not_or]
  omega

/-- What is written for a key does not depend on the arrays before. -/
theorem FileNameOf.unique {name name' : Bytes} (h : FileNameOf key name) (h' : FileNameOf key name') :
    name = name' := by
  obtain ⟨hname, hstored⟩ := h
  obtain ⟨hname', hstored'⟩ := h'
  have hbuffer : (List.replicate (key.length * 2 + 1) (0 : UInt8)).length = key.length * 2 + 1 :=
    List.length_replicate
  have harray : (List.replicate (key.length * 2 + 2) (0 : UInt8)).length = key.length * 2 + 2 :=
    List.length_replicate
  obtain ⟨enough, hrun⟩ := hstored _ _ hbuffer harray
  obtain ⟨enough', hrun'⟩ := hstored' _ _ hbuffer harray
  obtain ⟨rest, hdone⟩ := hrun (max enough enough') (Nat.le_max_left _ _)
  obtain ⟨rest', hdone'⟩ := hrun' (max enough enough') (Nat.le_max_right _ _)
  rw [hdone] at hdone'
  exact terminated_inj hname hname' (Outcome.done.inj hdone')

/-- A name names one key. -/
theorem NamesKey.injective {key' name : Bytes} (h : NamesKey key name) (h' : NamesKey key' name) :
    key = key' := by
  obtain ⟨dir, file, rfl, hdir, hfile, hread⟩ := h.decoded
  obtain ⟨dir', file', hname, hdir', hfile', hread'⟩ := h'.decoded
  obtain ⟨rfl, _, rfl⟩ := (List.append_cons_inj_of_notMem hdir' hfile').mp hname.symm
  rw [hread] at hread'
  exact congrArg Prod.fst hread'

/-- Exactly the keys that fit are named in their arrays without a failed assertion and read back, and they have
distinct names. -/
theorem blockFileName_correct_iff {key : Bytes} (hne : key ≠ []) :
    ((∃ name, NamesKey key name) ↔ FitsName key) ∧
    ∀ key' name : Bytes, key' ≠ [] → FitsName key → FitsName key' →
      FileNameOf key name → FileNameOf key' name → key = key' := by
  constructor
  · constructor
    · rintro ⟨name, hname⟩
      exact hname.fitsName hne
    · intro hfits
      exact ⟨_, .of_fitsName hne hfits⟩
  · intro key' name hne' hfits hfits' hname hname'
    have hkey := NamesKey.of_fitsName hne hfits
    have hkey' := NamesKey.of_fitsName hne' hfits'
    rw [hkey.stored.unique hname] at hkey
    rw [hkey'.stored.unique hname'] at hkey'
    exact hkey.injective hkey'

theorem blockFileName_correct_iff_four :
    (∃ name, NamesKey [1, 2, 3, 4] name) ∧ ¬ ∃ name, NamesKey [1, 2, 3] name := by
  have hfour : ([1, 2, 3, 4] : Bytes) ≠ [] := by decide
  have hthree : ([1, 2, 3] : Bytes) ≠ [] := by decide
  refine ⟨(blockFileName_correct_iff hfour).1.mpr (by decide), fun hname => ?_⟩
  exact absurd ((blockFileName_correct_iff hthree).1.mp hname) (by decide)

/-- A key of one byte has no name: its eight characters overrun a buffer of three bytes. -/
theorem one_byte_not_named : ¬ ∀ key : Bytes, key ≠ [] → ∃ name, NamesKey key name := by
  intro h
  obtain ⟨name, hname⟩ := h [1] (by decide)
  exact absurd (hname.fitsName (by decide)) (by decide)

end Names

end Libchop
