import Libchop.Filter.ZipTemplate

/-!
# A simple library for the zip and unzip filters

Each byte is escaped, between a header and an end mark.  The library works on one byte at a time, and
reports what zlib reports.
-/

namespace Libchop

namespace EscapeCodec

def header : UInt8 := 0x78

def escape (data : Bytes) : Bytes := data.flatMap fun b => [1, b]

def zip (data : Bytes) : Bytes := header :: escape data ++ [0]

def unescape : Bytes → Option Bytes
  | [0] => some []
  | 1 :: b :: rest => (unescape rest).map (b :: ·)
  | _ => none

def unzip : Bytes → Option Bytes
  | [] => none
  | b :: rest => if b = header then unescape rest else none

theorem unescape_escape_append (data rest : Bytes) :
    unescape (escape data ++ rest) = (unescape rest).map (data ++ ·) := by
  induction data with
  | nil =>
    change unescape rest = _
    cases unescape rest <;> rfl
  | cons b data ih =>
    change (unescape (escape data ++ rest)).map (b :: ·) = _
    rw [ih]
    cases unescape rest <;> rfl

theorem unzip_zip (data : Bytes) : unzip (zip data) = some data := by
  change (if header = header then unescape (escape data ++ [0]) else none) = _
  rw [if_pos rfl, unescape_escape_append]
  simp [unescape]

/-- Output that waits for room, or the end of the stream. -/
inductive ZipState where
  | working (pending : Bytes)
  | ended

def zipProcess (s : ZipState) (flush : Bool) (input : Bytes) (room : Nat) : CodecStep ZipState :=
  match s with
  | .ended => ⟨.streamEnd, 0, [], .ended⟩
  | .working pending =>
    if pending = [] then
      match input with
      | b :: _ => ⟨.ok, 1, [], .working [1, b]⟩
      | [] => if flush ∧ 0 < room then ⟨.streamEnd, 0, [0], .ended⟩ else ⟨.bufError, 0, [], s⟩
    else ⟨.ok, 0, pending.take room, .working (pending.drop room)⟩

/-- What was put out and what waits is the header and the input, escaped. -/
def ZipRunning (s : ZipState) (fed given : Bytes) : Prop :=
  ∃ pending, s = .working pending ∧ given ++ pending = header :: escape fed

theorem escape_append (x y : Bytes) : escape (x ++ y) = escape x ++ escape y :=
  List.flatMap_append

theorem zipProcess_pending {pending : Bytes} (h : pending ≠ []) (flush : Bool) (input : Bytes)
    (room : Nat) : zipProcess (.working pending) flush input room =
      ⟨.ok, 0, pending.take room, .working (pending.drop room)⟩ := if_neg h

theorem prefix_zip {fed whole : Bytes} (h : fed <+: whole) :
    header :: escape fed <+: EscapeCodec.zip whole := by
  obtain ⟨rest, rfl⟩ := h
  refine ⟨escape rest ++ [0], ?_⟩
  rw [zip, escape_append]
  simp

theorem zip_run {s : ZipState} {fed given input whole : Bytes} {room : Nat}
    (hs : ZipRunning s fed given) (hinput : input ≠ []) (hroom : 0 < room)
    (hstarts : fed ++ input <+: whole) {step : CodecStep ZipState}
    (hstep : zipProcess s false input room = step) :
    step.ret = .ok ∧ (0 < step.consumed ∨ step.output ≠ []) ∧
      given ++ step.output <+: EscapeCodec.zip whole ∧
      ZipRunning step.state (fed ++ input.take step.consumed) (given ++ step.output) := by
  obtain ⟨pending, rfl, hgiven⟩ := hs
  have hfed : fed <+: whole := (List.prefix_append fed input).trans hstarts
  by_cases hpending : pending = []
  · obtain ⟨b, rest, rfl⟩ := List.exists_cons_of_ne_nil hinput
    subst hpending
    subst hstep
    rw [List.append_nil] at hgiven
    subst hgiven
    refine ⟨rfl, .inl Nat.one_pos, ?_, [1, b], rfl, ?_⟩
    · exact (List.append_nil _).symm ▸ prefix_zip hfed
    · change header :: escape fed ++ [] ++ [1, b] = header :: escape (fed ++ [b])
      rw [escape_append, List.append_nil]
      rfl
  · rw [zipProcess_pending hpending] at hstep
    subst hstep
    have hsplit : given ++ pending.take room ++ pending.drop room = header :: escape fed := by
      rw [List.append_assoc, List.take_append_drop, hgiven]
    refine ⟨rfl, .inr ?_, ?_, pending.drop room, rfl, ?_⟩
    · intro hnil
      rcases List.take_eq_nil_iff.mp hnil with hzero | hnil
      · exact absurd hzero (Nat.ne_of_gt hroom)
      · exact hpending hnil
    · exact (List.prefix_append _ _).trans (hsplit ▸ prefix_zip hfed)
    · rw [List.take_zero, List.append_nil]
      exact hsplit

theorem zip_finish {s : ZipState} {whole given : Bytes} {room : Nat} (hs : ZipRunning s whole given)
    (hroom : 0 < room) {step : CodecStep ZipState} (hstep : zipProcess s true [] room = step) :
    (step.ret = .ok ∧ step.output ≠ [] ∧ given ++ step.output <+: EscapeCodec.zip whole ∧
      ZipRunning step.state whole (given ++ step.output)) ∨
    (step.ret = .streamEnd ∧ given ++ step.output = EscapeCodec.zip whole ∧
      step.state = .ended) := by
  obtain ⟨pending, rfl, hgiven⟩ := hs
  by_cases hpending : pending = []
  · right
    subst hpending
    rw [List.append_nil] at hgiven
    subst hgiven
    have hend : zipProcess (.working []) true [] room = ⟨.streamEnd, 0, [0], .ended⟩ := by
      simp [zipProcess, hroom]
    rw [hend] at hstep
    subst hstep
    exact ⟨rfl, rfl, rfl⟩
  · left
    rw [zipProcess_pending hpending] at hstep
    subst hstep
    have hsplit : given ++ pending.take room ++ pending.drop room = header :: escape whole := by
      rw [List.append_assoc, List.take_append_drop, hgiven]
    refine ⟨rfl, ?_, ?_, pending.drop room, rfl, hsplit⟩
    · intro hnil
      rcases List.take_eq_nil_iff.mp hnil with hzero | hnil
      · exact absurd hzero (Nat.ne_of_gt hroom)
      · exact hpending hnil
    · exact (List.prefix_append _ _).trans (hsplit ▸ prefix_zip (List.prefix_refl whole))

theorem zip_bounds {s : ZipState} {flush : Bool} {input : Bytes} {room : Nat}
    {step : CodecStep ZipState} (hstep : zipProcess s flush input room = step) :
    step.consumed ≤ input.length ∧ step.output.length ≤ room := by
  subst hstep
  cases s with
  | ended => exact ⟨Nat.zero_le _, Nat.zero_le _⟩
  | working pending =>
    by_cases hpending : pending = []
    · subst hpending
      cases input with
      | nil =>
        simp only [zipProcess, if_true]
        split
        · next h => exact ⟨Nat.le_refl _, h.2⟩
        · exact ⟨Nat.le_refl _, Nat.zero_le _⟩
      | cons b rest => exact ⟨Nat.succ_le_succ (Nat.zero_le _), Nat.zero_le _⟩
    · rw [zipProcess_pending hpending]
      exact ⟨Nat.zero_le _, List.length_take_le _ _⟩

/-- What comes next, the end, or a stream that is corrupted. -/
inductive UnzipState where
  | header
  | body
  | literal
  | ended
  | corrupted
deriving DecidableEq, Repr

def unzipProcess (s : UnzipState) (_ : Bool) (input : Bytes) (room : Nat) :
    CodecStep UnzipState :=
  match s, input with
  | .ended, _ => ⟨.streamEnd, 0, [], .ended⟩
  | .corrupted, _ => ⟨.dataError, 0, [], .corrupted⟩
  | s, [] => ⟨.bufError, 0, [], s⟩
  | .header, b :: _ =>
    if b = EscapeCodec.header then ⟨.ok, 1, [], .body⟩ else ⟨.dataError, 1, [], .corrupted⟩
  | .body, b :: _ =>
    if b = 0 then ⟨.streamEnd, 1, [], .ended⟩
    else if b = 1 then ⟨.ok, 1, [], .literal⟩ else ⟨.dataError, 1, [], .corrupted⟩
  | .literal, b :: _ => if 0 < room then ⟨.ok, 1, [b], .body⟩ else ⟨.ok, 0, [], .literal⟩

/-- The input so far, and what was put out for it. -/
def UnzipRunning (s : UnzipState) (fed given : Bytes) : Prop :=
  match s with
  | .header => fed = [] ∧ given = []
  | .body => fed = EscapeCodec.header :: escape given
  | .literal => fed = EscapeCodec.header :: escape given ++ [1]
  | .ended | .corrupted => False

theorem unzip_bounds {s : UnzipState} {flush : Bool} {input : Bytes} {room : Nat}
    {step : CodecStep UnzipState} (hstep : unzipProcess s flush input room = step) :
    step.consumed ≤ input.length ∧ step.output.length ≤ room := by
  subst hstep
  cases input with
  | nil => cases s <;> simp [unzipProcess]
  | cons b rest =>
    cases s with
    | header => simp only [unzipProcess]; split <;> simp
    | body => simp only [unzipProcess]; split <;> [simp; (split <;> simp)]
    | literal =>
      simp only [unzipProcess]
      split
      · next hroom => exact ⟨Nat.succ_le_succ (Nat.zero_le _), hroom⟩
      · simp
    | ended => simp [unzipProcess]
    | corrupted => simp [unzipProcess]

theorem unescape_cons {b : UInt8} {rest x : Bytes} (h : unescape (b :: rest) = some x) :
    (b = 0 ∧ rest = [] ∧ x = []) ∨
      (b = 1 ∧ ∃ b' rest' x', rest = b' :: rest' ∧ unescape rest' = some x' ∧ x = b' :: x') := by
  rw [unescape.eq_def] at h
  split at h
  · next heq =>
    cases heq
    cases h
    exact .inl ⟨rfl, rfl, rfl⟩
  · next b' rest' heq =>
    cases heq
    obtain ⟨x', hx', rfl⟩ := Option.map_eq_some_iff.mp h
    exact .inr ⟨rfl, b', rest', x', rfl, hx', rfl⟩
  · cases h

/-- What is left of a stream that is unzipped, after some of its output. -/
theorem unzip_escape_append {given rest coded : Bytes}
    (h : unzip (EscapeCodec.header :: escape given ++ rest) = some coded) :
    ∃ x, unescape rest = some x ∧ coded = given ++ x := by
  change (if header = header then unescape (escape given ++ rest) else none) = _ at h
  rw [if_pos rfl, unescape_escape_append] at h
  obtain ⟨x, hx, rfl⟩ := Option.map_eq_some_iff.mp h
  exact ⟨x, hx, rfl⟩

theorem unzip_run {s : UnzipState} {fed given input whole coded : Bytes} {room : Nat}
    (hs : UnzipRunning s fed given) (hinput : input ≠ []) (hroom : 0 < room)
    (hstarts : fed ++ input <+: whole) (hcode : unzip whole = some coded)
    {step : CodecStep UnzipState} (hstep : unzipProcess s false input room = step) :
    (step.ret = .ok ∧ (0 < step.consumed ∨ step.output ≠ []) ∧ given ++ step.output <+: coded ∧
      UnzipRunning step.state (fed ++ input.take step.consumed) (given ++ step.output)) ∨
    (step.ret = .streamEnd ∧ fed ++ input.take step.consumed = whole ∧
      given ++ step.output = coded ∧ step.state = .ended) := by
  obtain ⟨b, rest, rfl⟩ := List.exists_cons_of_ne_nil hinput
  obtain ⟨tail, rfl⟩ := hstarts
  subst hstep
  cases s with
  | header =>
    obtain ⟨rfl, rfl⟩ := hs
    have hb : b = header := by
      by_contra hb
      simp [unzip, hb] at hcode
    left
    simp [unzipProcess, hb, UnzipRunning, escape]
  | body =>
    rw [UnzipRunning] at hs
    subst hs
    rw [List.append_assoc] at hcode
    obtain ⟨x, hx, rfl⟩ := unzip_escape_append hcode
    rcases unescape_cons hx with ⟨rfl, hnil, rfl⟩ | ⟨rfl, -⟩
    · right
      obtain ⟨rfl, rfl⟩ := List.append_eq_nil_iff.mp hnil
      simp [unzipProcess]
    · left
      simp [unzipProcess, UnzipRunning]
  | literal =>
    rw [UnzipRunning] at hs
    subst hs
    have hassoc : EscapeCodec.header :: escape given ++ [1] ++ b :: rest ++ tail =
        EscapeCodec.header :: escape given ++ 1 :: b :: (rest ++ tail) := by simp
    rw [hassoc] at hcode
    obtain ⟨x, hx, rfl⟩ := unzip_escape_append hcode
    rcases unescape_cons hx with ⟨hzero, -, -⟩ | ⟨-, b', rest', x', heq, -, rfl⟩
    · cases hzero
    · cases heq
      left
      simp [unzipProcess, UnzipRunning, hroom, escape]
  | ended => cases hs
  | corrupted => cases hs

/-- A stream that has not ended is not complete. -/
theorem UnzipRunning.incomplete {s : UnzipState} {whole given : Bytes}
    (hs : UnzipRunning s whole given) : unzip whole = none := by
  cases s with
  | header => rw [hs.1]; rfl
  | body =>
    rw [UnzipRunning] at hs
    by_contra h
    obtain ⟨coded, hcoded⟩ := Option.ne_none_iff_exists'.mp h
    rw [hs, ← List.append_nil (header :: escape given)] at hcoded
    obtain ⟨x, hx, -⟩ := unzip_escape_append hcoded
    cases hx
  | literal =>
    rw [UnzipRunning] at hs
    by_contra h
    obtain ⟨coded, hcoded⟩ := Option.ne_none_iff_exists'.mp h
    rw [hs] at hcoded
    obtain ⟨x, hx, -⟩ := unzip_escape_append hcoded
    cases hx
  | ended => cases hs
  | corrupted => cases hs

/-- The verdict on what follows the header, and some escaped bytes. -/
def bodyVerdict : Nat → Bytes → Verdict
  | taken, 0 :: _ => .ended (taken + 1)
  | taken, 1 :: _ :: rest => bodyVerdict (taken + 2) rest
  | _, [] | _, [1] => .incomplete
  | _, _ :: _ => .corrupted

def unzipVerdict : Bytes → Verdict
  | [] => .incomplete
  | b :: rest => if b = header then bodyVerdict 1 rest else .corrupted

theorem length_escape (data : Bytes) : (escape data).length = 2 * data.length := by
  induction data with
  | nil => rfl
  | cons b data ih =>
    change (escape data).length + 2 = 2 * (data.length + 1)
    omega

theorem bodyVerdict_escape_append (data rest : Bytes) (taken : Nat) :
    bodyVerdict taken (escape data ++ rest) = bodyVerdict (taken + 2 * data.length) rest := by
  induction data generalizing taken with
  | nil => rfl
  | cons b data ih =>
    change bodyVerdict (taken + 2) (escape data ++ rest) = _
    rw [ih, List.length_cons]
    congr 1
    omega

theorem unzipVerdict_escape_append (data rest : Bytes) :
    unzipVerdict (header :: escape data ++ rest) = bodyVerdict (1 + 2 * data.length) rest := by
  change (if header = header then bodyVerdict 1 (escape data ++ rest) else .corrupted) = _
  rw [if_pos rfl, bodyVerdict_escape_append]

theorem bodyVerdict_corrupted {b : UInt8} (hzero : b ≠ 0) (hone : b ≠ 1) (taken : Nat)
    (rest : Bytes) : bodyVerdict taken (b :: rest) = .corrupted := by
  rw [bodyVerdict.eq_def]
  split <;> simp_all

theorem UnzipRunning.length_le {s : UnzipState} {fed given whole : Bytes}
    (h : UnzipRunning s fed given) (hstarts : fed <+: whole) : given.length ≤ whole.length := by
  have hle := hstarts.length_le
  cases s with
  | header =>
    rw [h.2]
    exact Nat.zero_le _
  | body =>
    rw [show fed = _ from h, List.length_cons, length_escape] at hle
    omega
  | literal =>
    rw [show fed = _ from h, List.length_append, List.length_cons, length_escape] at hle
    omega
  | ended => cases h
  | corrupted => cases h

/-- The verdict on a stream that has not ended. -/
theorem UnzipRunning.verdict_eq {s : UnzipState} {fed given : Bytes} (h : UnzipRunning s fed given) :
    unzipVerdict fed = .incomplete := by
  cases s with
  | header =>
    rw [h.1]
    rfl
  | body =>
    rw [show fed = header :: escape given ++ [] by rw [List.append_nil]; exact h,
      unzipVerdict_escape_append]
    rfl
  | literal =>
    rw [show fed = _ from h, unzipVerdict_escape_append]
    rfl
  | ended => cases h
  | corrupted => cases h

end EscapeCodec

open EscapeCodec in
def escapeZip : ZipFilterClass.Library .zlibZip where
  State := ZipState
  init := .working [header]
  process := zipProcess
  code := fun data => some (EscapeCodec.zip data)
  Running := ZipRunning
  Finishing := ZipRunning
  Ended := fun s => s = .ended
  running_init := ⟨[header], rfl, rfl⟩
  consumed_le := fun hstep => (zip_bounds hstep).1
  output_le := fun hstep => (zip_bounds hstep).2
  run := by
    intro s fed given input room whole coded step hstep hs hinput hroom hstarts hcode
    cases hcode
    exact .inl (zip_run hs hinput hroom hstarts hstep)
  finish := by
    intro s whole given room coded step hstep hs hroom hcode
    cases hcode
    exact zip_finish (hs.elim id id) hroom hstep
  finished := by
    rintro s room step rfl rfl -
    exact ⟨rfl, rfl⟩

open EscapeCodec in
def escapeUnzip : ZipFilterClass.Library .zlibUnzip where
  State := UnzipState
  init := .header
  process := unzipProcess
  code := EscapeCodec.unzip
  Running := UnzipRunning
  Finishing := UnzipRunning
  Ended := fun s => s = .ended
  running_init := ⟨rfl, rfl⟩
  consumed_le := fun hstep => (unzip_bounds hstep).1
  output_le := fun hstep => (unzip_bounds hstep).2
  run := fun hstep hs hinput hroom hstarts hcode =>
    unzip_run hs hinput hroom hstarts hcode hstep
  finish := by
    intro s whole given room coded step _ hs _ hcode
    rw [(hs.elim id id : UnzipRunning s whole given).incomplete] at hcode
    cases hcode
  finished := by
    rintro s room step rfl rfl -
    exact ⟨rfl, rfl⟩

open EscapeCodec in
theorem escapeUnzip_judges :
    escapeUnzip.Judges (ZipFilterClass.inputCorrupted .zlibUnzip) unzipVerdict List.length where
  limited := by
    intro s fed given whole hs hstarts
    exact (hs.elim id id : UnzipRunning s fed given).length_le hstarts
  run := by
    intro s fed given input room step hstep hs hinput hroom
    obtain ⟨b, rest, rfl⟩ := List.exists_cons_of_ne_nil hinput
    subst hstep
    cases s with
    | header =>
      obtain ⟨rfl, rfl⟩ := hs
      by_cases hb : b = header
      · left
        simp [escapeUnzip, unzipProcess, hb, UnzipRunning, escape, ZipFilterClass.progress]
      · right; right
        simp [escapeUnzip, unzipProcess, hb, unzipVerdict, ZipFilterClass.inputCorrupted]
    | body =>
      obtain rfl : fed = header :: escape given := hs
      by_cases hzero : b = 0
      · right; left
        subst hzero
        refine ⟨rfl, rfl, fun more => ?_⟩
        change unzipVerdict (header :: escape given ++ [0] ++ more) =
          .ended (header :: escape given ++ [0]).length
        have hlength : (header :: escape given ++ [0]).length = 1 + 2 * given.length + 1 := by
          rw [List.length_append, List.length_cons, length_escape, List.length_singleton]
          omega
        rw [hlength, List.append_assoc, unzipVerdict_escape_append]
        rfl
      · by_cases hone : b = 1
        · left
          subst hone
          exact ⟨rfl, .inl Nat.one_pos, by simp [escapeUnzip, unzipProcess, UnzipRunning]⟩
        · right; right
          refine ⟨by simp [escapeUnzip, unzipProcess, hzero, hone, ZipFilterClass.inputCorrupted], ?_⟩
          intro more
          rw [List.append_assoc, unzipVerdict_escape_append, List.cons_append,
            bodyVerdict_corrupted hzero hone]
    | literal =>
      obtain rfl : fed = header :: escape given ++ [1] := hs
      left
      simp [escapeUnzip, unzipProcess, UnzipRunning, hroom, escape, ZipFilterClass.progress]
    | ended => cases hs
    | corrupted => cases hs
  finish := by
    intro s fed given room step hstep hs hroom
    have hs : UnzipRunning s fed given := hs.elim id id
    have hverdict := hs.verdict_eq
    right; right; right
    cases s with
    | header => exact hstep ▸ ⟨.inr rfl, rfl, hs, hverdict⟩
    | body => exact hstep ▸ ⟨.inr rfl, rfl, hs, hverdict⟩
    | literal => exact hstep ▸ ⟨.inr rfl, rfl, hs, hverdict⟩
    | ended => cases hs
    | corrupted => cases hs
  past := by
    rintro s flush input room step rfl rfl -
    exact ⟨rfl, rfl, rfl, rfl⟩

end Libchop
