import Libchop.Indexer.SizeBound

/-!
# The size of ASCII input with names

The fetchers look for the end of the name of a hash method or of a cipher mode, and then for the name
in a table.  A name that ends inside the text is read from it.  One that does not may still be
completed by what follows, unless no name of the table begins like it.
-/

namespace Libchop

section Names

variable {α : Type} {table : List α} {name : α → Bytes} {text : Bytes}

/-- Names are tokens of at most sixteen characters. -/
structure TokenTable (table : List α) (name : α → Bytes) : Prop where
  isToken : ∀ entry ∈ table, IsToken ((name entry).map toLower)
  length_le : ∀ entry ∈ table, (name entry).length ≤ 16
  nonempty : table ≠ []

theorem hashMethods_tokenTable : TokenTable hashMethods chopHashMethodName where
  isToken := fun method _ => isToken_hashMethodName method
  length_le := by decide
  nonempty := by decide

theorem cipherModes_tokenTable : TokenTable cipherModes chopCipherModeName where
  isToken := fun mode _ => isToken_cipherModeName mode
  length_le := by decide
  nonempty := by decide

private theorem toLower_toLower (c : UInt8) : toLower (toLower c) = toLower c := by
  simp only [toLower]
  grind

/-- Nothing that goes on with the text is a name. -/
theorem enumLookup_append_eq_none
    (h : ∀ entry ∈ table, ¬ text.map toLower <+: (name entry).map toLower) (more : Bytes) :
    enumLookup table name (text ++ more) = none := by
  rw [enumLookup, List.find?_eq_none]
  intro entry hentry hequal
  apply h entry hentry
  simp only [equalIgnoringCase, List.map_append, decide_eq_true_eq] at hequal
  exact ⟨_, hequal.symm⟩

/-- Names are not longer than sixteen characters. -/
theorem enumLookup_long (htable : TokenTable table name) {wanted : Bytes} (h : 16 < wanted.length) :
    enumLookup table name wanted = none := by
  rw [enumLookup, List.find?_eq_none]
  intro entry hentry hequal
  simp only [equalIgnoringCase, decide_eq_true_eq] at hequal
  have hlength := congrArg List.length hequal
  rw [List.length_map, List.length_map] at hlength
  have hle := htable.length_le entry hentry
  omega

/-- The beginning of a name can be completed. -/
theorem exists_enumLookup_append (htable : TokenTable table name) {entry : α} (hentry : entry ∈ table)
    (h : text.map toLower <+: (name entry).map toLower) :
    ∃ more, IsToken more ∧ enumLookup table name (text ++ more) ≠ none := by
  obtain ⟨more, hmore⟩ := h
  have htoken := List.all_eq_true.mp (htable.isToken entry hentry)
  have hlower : more.map toLower = more := by
    have hmem : ∀ c ∈ more, toLower c = c := by
      intro c hc
      have hname : c ∈ (name entry).map toLower := by
        rw [← hmore]
        exact List.mem_append_right _ hc
      obtain ⟨d, -, rfl⟩ := List.mem_map.mp hname
      exact toLower_toLower d
    rw [List.map_congr_left hmem, List.map_id']
  refine ⟨more, ?_, ?_⟩
  · apply List.all_eq_true.mpr
    intro c hc
    apply htoken
    rw [← hmore]
    exact List.mem_append_right _ hc
  · rw [enumLookup, ← Option.isSome_iff_ne_none, List.find?_isSome]
    refine ⟨entry, hentry, ?_⟩
    simp only [equalIgnoringCase, List.map_append, hlower, hmore, decide_eq_true_eq]

private theorem isToken_of_not_lt (h : ¬ (CText.token text).length < text.length) : IsToken text := by
  have hself : CText.token text = text :=
    (List.takeWhile_prefix _).eq_of_length_le (Nat.le_of_not_lt h)
  apply List.all_eq_true.mpr
  exact List.takeWhile_eq_self_iff.mp hself

private theorem token_null {name : Bytes} (h : IsToken name) (rest : Bytes) :
    CText.token (name ++ 0 :: rest) = name := by
  rw [CText.token, List.takeWhile_append_of_pos (List.all_eq_true.mp h),
    List.takeWhile_cons_of_neg (by decide), List.append_nil]

/-- How a name that does not end inside the text may go on. -/
theorem exists_tokens_of_not_nameEnds (htable : TokenTable table name)
    (h : ¬ NameEnds table name text) :
    ∃ found unknown, IsToken (text ++ found) ∧ enumLookup table name (text ++ found) ≠ none ∧
      IsToken (text ++ unknown) ∧ enumLookup table name (text ++ unknown) = none ∧
        text ++ unknown ≠ [] := by
  rw [NameEnds, not_or] at h
  obtain ⟨hopen, hprefix⟩ := h
  push Not at hprefix
  obtain ⟨entry, hentry, hprefix⟩ := hprefix
  obtain ⟨found, hfound, hlookup⟩ := exists_enumLookup_append htable hentry hprefix
  have htext := isToken_of_not_lt hopen
  have happend : ∀ {more : Bytes}, IsToken more → IsToken (text ++ more) := by
    intro more hmore
    simp only [IsToken, List.all_append, Bool.and_eq_true]
    exact ⟨htext, hmore⟩
  refine ⟨found, List.replicate 17 122, happend hfound, hlookup, happend rfl, ?_, by simp⟩
  apply enumLookup_long htable
  simp

/-- A name that cannot be completed is not found. -/
theorem enumLookup_token_append_eq_none (htable : TokenTable table name)
    (hopen : ¬ (CText.token text).length < text.length) (h : NameEnds table name text)
    (rest : Bytes) :
    CText.token (text ++ rest) ≠ [] ∧
      enumLookup table name (CText.token (text ++ rest)) = none := by
  have hprefix := h.resolve_left hopen
  rw [CText.token, CText.takeWhile_append_of_not_lt hopen]
  refine ⟨?_, enumLookup_append_eq_none hprefix _⟩
  intro hnil
  obtain ⟨entry, hentry⟩ := List.exists_mem_of_ne_nil _ htable.nonempty
  apply hprefix entry hentry
  rw [(List.append_eq_nil_iff.mp hnil).1]
  exact List.nil_prefix

end Names

section Methods

variable {text : Bytes}

/-- What is read of the name of a hash method: nothing, a name that is not known, or a method. -/
def readMethodName {β : Type} (nothing unknown : β) (found : HashMethod → Nat → β) (buffer : Bytes) :
    β :=
  let methodName := CText.token buffer
  if methodName = [] then nothing
  else
    match chopHashMethodLookup methodName with
    | none => unknown
    | some method => found method methodName.length

/-- What is read of a method depends on what follows exactly when the name may go on there. -/
theorem readMethodName_append_iff {β : Type} (nothing : β) {unknown : β}
    {found : HashMethod → Nat → β} (hfound : ∀ method length, found method length ≠ unknown) :
    (∀ rest rest', readMethodName nothing unknown found (text ++ rest) =
      readMethodName nothing unknown found (text ++ rest')) ↔
        NameEnds hashMethods chopHashMethodName text := by
  constructor
  · intro hread
    by_contra hopen
    obtain ⟨more, other, hmore, hlookup, hother, hunknown, hne⟩ :=
      exists_tokens_of_not_nameEnds hashMethods_tokenTable hopen
    have hread := hread (more ++ [0]) (other ++ [0])
    rw [← List.append_assoc, ← List.append_assoc, readMethodName, readMethodName,
      token_null hmore, token_null hother, if_neg hne] at hread
    have hfoundNe : text ++ more ≠ [] := by
      intro hnil
      rw [hnil] at hlookup
      exact hlookup rfl
    rw [if_neg hfoundNe, chopHashMethodLookup, hunknown] at hread
    split at hread
    · next hnone => exact hlookup hnone
    · exact hfound _ _ hread
  · intro hends rest rest'
    by_cases hstops : (CText.token text).length < text.length
    · have htoken : ∀ rest, CText.token (text ++ rest) = CText.token text :=
        CText.takeWhile_append_of_lt hstops
      rw [readMethodName, readMethodName, htoken, htoken]
    · have hnone := fun rest =>
        enumLookup_token_append_eq_none hashMethods_tokenTable hstops hends rest
      rw [readMethodName, readMethodName, if_neg (hnone rest).1, if_neg (hnone rest').1,
        chopHashMethodLookup, (hnone rest).2, (hnone rest').2]

private theorem readMethodName_bytesRead {nothing unknown : Deserialized AsciiObject}
    {found : HashMethod → Nat → Deserialized AsciiObject} {limit : Nat}
    (hends : NameEnds hashMethods chopHashMethodName text)
    (hnothing : ∀ n, nothing.bytesRead = some n → n ≤ limit)
    (hunknown : ∀ n, unknown.bytesRead = some n → n ≤ limit)
    (hfound : ∀ method length n, length < text.length → (found method length).bytesRead = some n →
      n ≤ limit) {n : Nat}
    (h : (readMethodName nothing unknown found text).bytesRead = some n) : n ≤ limit := by
  rw [readMethodName] at h
  split at h
  · exact hnothing n h
  · split at h
    · exact hunknown n h
    · next method hlookup =>
      by_cases hstops : (CText.token text).length < text.length
      · exact hfound _ _ _ hstops h
      · have hnone := (enumLookup_token_append_eq_none hashMethods_tokenTable hstops hends []).2
        rw [List.append_nil] at hnone
        rw [chopHashMethodLookup, hnone] at hlookup
        cases hlookup

/-- A deserializer that ends with the name of a method, from a position of the text on. -/
theorem honoursSize_methodName_iff
    {deserialize : Bytes → Nat → Outcome (Deserialized AsciiObject)}
    {nothing unknown : Deserialized AsciiObject}
    {found : HashMethod → Nat → Deserialized AsciiObject} (start : Nat)
    (hdeserialize : ∀ rest, deserialize (text ++ rest) text.length =
      .done (readMethodName nothing unknown found (text.drop start ++ rest)))
    (hne : ∀ method length, found method length ≠ unknown)
    (hnothing : ∀ n, nothing.bytesRead = some n → n ≤ text.length)
    (hunknown : ∀ n, unknown.bytesRead = some n → n ≤ text.length)
    (hfound : ∀ method length n, (found method length).bytesRead = some n → n = start + length) :
    HonoursSize deserialize text ↔ NameEnds hashMethods chopHashMethodName (text.drop start) := by
  have hself := hdeserialize []
  rw [List.append_nil, List.append_nil] at hself
  constructor
  · intro h
    apply (readMethodName_append_iff nothing hne).mp
    intro rest rest'
    have heq := h.append_eq rest rest'
    rw [hdeserialize, hdeserialize] at heq
    exact Outcome.done.inj heq
  · intro hends
    apply honoursSize_of_append
    · intro rest
      have heq := (readMethodName_append_iff nothing hne).mpr hends rest []
      rw [hdeserialize, hself, heq, List.append_nil]
    · intro read bytesRead hread hbytes
      rw [hself] at hread
      cases hread
      refine readMethodName_bytesRead hends hnothing hunknown ?_ hbytes
      intro method length n hlength hn
      rw [hfound method length n hn]
      rw [List.length_drop] at hlength
      omega

theorem honoursSize_hashBlockFetcher_iff (ciphers : Ciphers) :
    HonoursSize (asciiDeserialize ciphers .hashBlockFetcher) text ↔
      NameEnds hashMethods chopHashMethodName text := by
  have hread : ∀ rest, asciiDeserialize ciphers .hashBlockFetcher (text ++ rest) text.length =
      .done (readMethodName ⟨.ok (.hashBlockFetcher .none), some 0⟩
        ⟨.error .deserialCorruptInput, none⟩
        (fun method length => ⟨.ok (.hashBlockFetcher method), some length⟩)
        (text.drop 0 ++ rest)) := by
    intro rest
    simp only [asciiDeserialize, hbfDeserialize, readMethodName, List.drop_zero]
    split
    · rfl
    · cases chopHashMethodLookup (CText.token (text ++ rest)) with
      | none => rfl
      | some method => rfl
  refine honoursSize_methodName_iff 0 hread ?_ ?_ ?_ ?_
  · intro method length h
    cases h
  · intro n hn
    cases hn
    exact Nat.zero_le _
  · intro n hn
    cases hn
  · intro method length n hn
    cases hn
    exact (Nat.zero_add _).symm

end Methods

section Ciphers

variable {text : Bytes}

/-- The rest of `cbf_deserialize` after the algorithm, whose name ends here. -/
def cbfReadMode (ciphers : Ciphers) (algo : CipherAlgo) (position : Nat) (tail : Bytes) :
    Deserialized AsciiObject :=
  match chopCipherModeLookup (CText.token tail) with
  | none => ⟨.error .deserialCorruptInput, none⟩
  | some mode =>
    let start := position + 1 + (CText.token tail).length + 1
    let cipher := if ciphers.opens ⟨algo, mode⟩ then some ⟨algo, mode⟩ else none
    readMethodName ⟨.ok (.chkBlockFetcher cipher .none), some start⟩
      ⟨.error .deserialCorruptInput, some 0⟩
      (fun method length => ⟨.ok (.chkBlockFetcher cipher method), some (start + length)⟩)
      (tail.drop ((CText.token tail).length + 1))

private theorem cbf_eq {ciphers : Ciphers} {buffer : Bytes} {size position : Nat}
    {algo : CipherAlgo} (hcomma : CText.memchr CText.comma buffer size = some position)
    (halgo : chopCipherAlgoLookup ((buffer.take position).takeWhile (· ≠ 0)) = some algo) :
    asciiDeserialize ciphers .chkBlockFetcher buffer size =
      .done (cbfReadMode ciphers algo position (buffer.drop (position + 1))) := by
  simp only [asciiDeserialize, cbfFailedBytesRead, cbfDeserialize, cbfReadMode, hcomma, halgo]
  cases chopCipherModeLookup (CText.token (buffer.drop (position + 1))) with
  | none => rfl
  | some mode =>
    simp only [readMethodName, List.drop_drop]
    have hstart : position + 1 + ((CText.token (buffer.drop (position + 1))).length + 1) =
        position + 1 + (CText.token (buffer.drop (position + 1))).length + 1 := by omega
    rw [hstart]
    split
    · rfl
    · cases chopHashMethodLookup _ with
      | none => rfl
      | some method => rfl

private theorem memchr_append_length (wanted : UInt8) (rest : Bytes) :
    CText.memchr wanted (text ++ rest) text.length = CText.memchr wanted text text.length := by
  rw [CText.memchr, CText.memchr, List.take_left, List.take_length]

private theorem memchr_lt {wanted : UInt8} {position : Nat}
    (h : CText.memchr wanted text text.length = some position) : position < text.length := by
  have hlt := (List.findIdx?_eq_some_iff_findIdx_eq.mp h).1
  rw [List.take_length] at hlt
  exact hlt

private theorem honoursSize_of_error {deserialize : Bytes → Nat → Outcome (Deserialized AsciiObject)}
    (h : ∀ rest, deserialize (text ++ rest) text.length =
      .done ⟨.error .deserialCorruptInput, none⟩) : HonoursSize deserialize text := by
  have hself := h []
  rw [List.append_nil] at hself
  apply honoursSize_of_append
  · intro rest
    rw [h rest, hself]
  · intro read bytesRead hread hbytes
    rw [hself] at hread
    cases hread
    cases hbytes

section Found

variable {ciphers : Ciphers} {position : Nat} {algo : CipherAlgo}

private theorem cbf_append (hcomma : CText.memchr CText.comma text text.length = some position)
    (halgo : chopCipherAlgoLookup ((text.take position).takeWhile (· ≠ 0)) = some algo)
    (rest : Bytes) :
    asciiDeserialize ciphers .chkBlockFetcher (text ++ rest) text.length =
      .done (cbfReadMode ciphers algo position (text.drop (position + 1) ++ rest)) := by
  have hlt := memchr_lt hcomma
  rw [← CText.drop_append_of_le hlt]
  apply cbf_eq
  · rw [memchr_append_length, hcomma]
  · rw [List.take_append_of_le_length hlt.le, halgo]

private theorem not_honoursSize_of_mode
    (hcomma : CText.memchr CText.comma text text.length = some position)
    (halgo : chopCipherAlgoLookup ((text.take position).takeWhile (· ≠ 0)) = some algo)
    (hopen : ¬ NameEnds cipherModes chopCipherModeName (text.drop (position + 1))) :
    ¬ HonoursSize (asciiDeserialize ciphers .chkBlockFetcher) text := by
  intro h
  obtain ⟨found, unknown, hfound, hlookup, hother, hunknown, -⟩ :=
    exists_tokens_of_not_nameEnds cipherModes_tokenTable hopen
  have hread := h.append_eq (found ++ [0]) (unknown ++ [0])
  rw [cbf_append hcomma halgo, cbf_append hcomma halgo, ← List.append_assoc,
    ← List.append_assoc] at hread
  have hread := congrArg Deserialized.result (Outcome.done.inj hread)
  simp only [cbfReadMode, token_null hfound, token_null hother, chopCipherModeLookup, hunknown,
    CText.drop_past] at hread
  split at hread
  · next hnone => exact hlookup hnone
  · cases hread

private theorem honoursSize_of_mode_iff
    (hcomma : CText.memchr CText.comma text text.length = some position)
    (halgo : chopCipherAlgoLookup ((text.take position).takeWhile (· ≠ 0)) = some algo)
    (hstops : (CText.token (text.drop (position + 1))).length < (text.drop (position + 1)).length) :
    HonoursSize (asciiDeserialize ciphers .chkBlockFetcher) text ↔
      (chopCipherModeLookup (CText.token (text.drop (position + 1))) ≠ none →
        NameEnds hashMethods chopHashMethodName
          (text.drop (position + 1 + (CText.token (text.drop (position + 1))).length + 1))) := by
  have htoken : ∀ rest, CText.token (text.drop (position + 1) ++ rest) =
      CText.token (text.drop (position + 1)) := CText.takeWhile_append_of_lt hstops
  cases hmode : chopCipherModeLookup (CText.token (text.drop (position + 1))) with
  | none =>
    refine iff_of_true (honoursSize_of_error fun rest => ?_) fun h => absurd rfl h
    rw [cbf_append hcomma halgo, cbfReadMode, htoken, hmode]
  | some mode =>
    have hread : ∀ rest, asciiDeserialize ciphers .chkBlockFetcher (text ++ rest) text.length =
        .done (readMethodName
          ⟨.ok (.chkBlockFetcher (if ciphers.opens ⟨algo, mode⟩ then some ⟨algo, mode⟩ else none)
            .none), some (position + 1 + (CText.token (text.drop (position + 1))).length + 1)⟩
          ⟨.error .deserialCorruptInput, some 0⟩
          (fun method length =>
            ⟨.ok (.chkBlockFetcher (if ciphers.opens ⟨algo, mode⟩ then some ⟨algo, mode⟩ else none)
              method),
              some (position + 1 + (CText.token (text.drop (position + 1))).length + 1 + length)⟩)
          (text.drop (position + 1 + (CText.token (text.drop (position + 1))).length + 1) ++
            rest)) := by
      intro rest
      rw [cbf_append hcomma halgo]
      simp only [cbfReadMode, htoken, hmode]
      rw [CText.drop_append_of_le (by omega), List.drop_drop]
      rfl
    rw [List.length_drop] at hstops
    simp only [ne_eq, reduceCtorEq, not_false_eq_true, forall_const]
    refine honoursSize_methodName_iff _ hread ?_ ?_ ?_ ?_
    · intro method length h
      cases h
    · intro n hn
      cases hn
      omega
    · intro n hn
      cases hn
      exact Nat.zero_le _
    · intro method length n hn
      cases hn
      rfl

end Found

theorem honoursSize_chkBlockFetcher_iff (ciphers : Ciphers) :
    HonoursSize (asciiDeserialize ciphers .chkBlockFetcher) text ↔ CipherNamesEnd text := by
  rw [CipherNamesEnd]
  cases hcomma : CText.memchr CText.comma text text.length with
  | none =>
    refine iff_of_true (honoursSize_of_error fun rest => ?_) trivial
    simp only [asciiDeserialize, cbfFailedBytesRead, cbfDeserialize, memchr_append_length, hcomma]
    rfl
  | some position =>
    cases halgo : chopCipherAlgoLookup ((text.take position).takeWhile (· ≠ 0)) with
    | none =>
      simp only [halgo]
      refine iff_of_true (honoursSize_of_error fun rest => ?_) trivial
      have htake : (text ++ rest).take position = text.take position :=
        List.take_append_of_le_length (memchr_lt hcomma).le
      simp only [asciiDeserialize, cbfFailedBytesRead, cbfDeserialize, memchr_append_length, hcomma,
        htake, halgo]
      rfl
    | some algo =>
      simp only [halgo]
      by_cases hends : NameEnds cipherModes chopCipherModeName (text.drop (position + 1))
      · rw [and_iff_right hends]
        by_cases hstops : (CText.token (text.drop (position + 1))).length <
            (text.drop (position + 1)).length
        · exact honoursSize_of_mode_iff hcomma halgo hstops
        · have hnone := fun rest =>
            (enumLookup_token_append_eq_none cipherModes_tokenTable hstops hends rest).2
          refine iff_of_true (honoursSize_of_error fun rest => ?_) fun hmode => ?_
          · rw [cbf_append hcomma halgo, cbfReadMode, chopCipherModeLookup, hnone]
          · have hself := hnone []
            rw [List.append_nil] at hself
            exact (hmode hself).elim
      · exact iff_of_false (not_honoursSize_of_mode hcomma halgo hends) fun h => hends h.1

end Ciphers

/-- The deserializers keep to the size they are given exactly when the number or the name that they
look for ends inside it.  Those that do not look beyond it always do. -/
theorem asciiDeserialize_honoursSize_iff (ciphers : Ciphers) (asciiClass : AsciiClass)
    (text : Bytes) :
    HonoursSize (asciiDeserialize ciphers asciiClass) text ↔ EndsInside asciiClass text := by
  cases asciiClass with
  | treeIndexer => exact honoursSize_treeIndexer_iff ciphers
  | hashIndexHandle => exact iff_of_true (honoursSize_hashIndexHandle ciphers) trivial
  | chkIndexHandle => exact iff_of_true (honoursSize_chkIndexHandle ciphers) trivial
  | integerIndexHandle => exact honoursSize_integerIndexHandle_iff ciphers
  | hashBlockIndexer => exact iff_of_true (honoursSize_hashBlockIndexer ciphers) trivial
  | chkBlockIndexer => exact iff_of_true (honoursSize_chkBlockIndexer ciphers) trivial
  | integerBlockIndexer => exact honoursSize_integerBlockIndexer_iff ciphers
  | hashBlockFetcher => exact honoursSize_hashBlockFetcher_iff ciphers
  | chkBlockFetcher => exact honoursSize_chkBlockFetcher_iff ciphers

/-- The characters after `64` are read as digits of the number. -/
theorem treeIndexer_readsBeyondSize :
    ¬ HonoursSize (asciiDeserialize sampleCiphers .treeIndexer) (cString "64") := by
  have hread : asciiDeserialize sampleCiphers .treeIndexer (cString "64" ++ cString "0123")
      (cString "64").length = .done ⟨.ok (.treeIndexer 0x640123), some 6⟩ := rfl
  exact not_honoursSize_of_lt hread rfl (by decide)

end Libchop
