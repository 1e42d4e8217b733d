import Libchop.Framework.Outcome
import Mathlib.Data.List.Basic

/-!
# Stream codecs

A codec is given input and room for output in whatever portions its user chooses, and takes and
produces as much of them as it likes.  Over a whole input that it accepts it computes a function.
-/

/-- What a codec reports. -/
inductive CodecReturn where
  | ok
  | runOk
  | finishOk
  | streamEnd
  | bufError
  | outbuffFull
  | sequenceError
  | dataError
  | dataErrorMagic
deriving DecidableEq, Repr

/-- One call: what it reports, how much of the input it took, what it put out, and its state. -/
structure CodecStep (σ : Type) where
  ret : CodecReturn
  consumed : Nat
  output : List UInt8
  state : σ

/-- A codec that reports `progress` while it works, and `ended` once its stream has ended.  It accepts
the inputs that `code` has a value for.

`Running s fed given` says that `s` was fed some input and gave some output, and `Finishing` that it was
asked to finish since. -/
structure StreamCodec (progress : Bool → CodecReturn) (ended : CodecReturn) where
  State : Type
  init : State
  process : State → Bool → List UInt8 → Nat → CodecStep State
  code : List UInt8 → Option (List UInt8)
  Running : State → List UInt8 → List UInt8 → Prop
  Finishing : State → List UInt8 → List UInt8 → Prop
  Ended : State → Prop
  running_init : Running init [] []
  consumed_le : ∀ {s flush input room step}, process s flush input room = step →
    step.consumed ≤ input.length
  output_le : ∀ {s flush input room step}, process s flush input room = step →
    step.output.length ≤ room
  /-- With input and room, it goes on or comes to the end of an input that it accepts. -/
  run : ∀ {s fed given input room whole coded step}, process s false input room = step →
    Running s fed given → input ≠ [] → 0 < room → fed ++ input <+: whole →
    code whole = some coded →
    (step.ret = progress false ∧ (0 < step.consumed ∨ step.output ≠ []) ∧
      given ++ step.output <+: coded ∧
      Running step.state (fed ++ input.take step.consumed) (given ++ step.output)) ∨
    (step.ret = .streamEnd ∧ fed ++ input.take step.consumed = whole ∧
      given ++ step.output = coded ∧ Ended step.state)
  /-- Without more input, it puts out the rest. -/
  finish : ∀ {s whole given room coded step}, process s true [] room = step →
    Running s whole given ∨ Finishing s whole given → 0 < room → code whole = some coded →
    (step.ret = progress true ∧ step.output ≠ [] ∧ given ++ step.output <+: coded ∧
      Finishing step.state whole (given ++ step.output)) ∨
    (step.ret = .streamEnd ∧ given ++ step.output = coded ∧ Ended step.state)
  finished : ∀ {s room step}, process s true [] room = step → Ended s → 0 < room →
    step.ret = ended ∧ step.output = []

/-- What a codec makes of an input: it wants more, its stream ends after a number of bytes, or there is
an error in it. -/
inductive Verdict where
  | incomplete
  | ended (taken : Nat)
  | corrupted
deriving DecidableEq, Repr

/-- A codec whose verdict is the same in whatever portions it is given an input.  Without input it
reports the end of its stream, an error, or that it cannot go on; and what it puts out is limited by
what it is fed. -/
structure StreamCodec.Judges {progress : Bool → CodecReturn} {ended : CodecReturn}
    (codec : StreamCodec progress ended) (corrupt : CodecReturn → Bool)
    (verdict : List UInt8 → Verdict) (limit : List UInt8 → Nat) : Prop where
  limited : ∀ {s fed given whole}, codec.Running s fed given ∨ codec.Finishing s fed given →
    fed <+: whole → given.length ≤ limit whole
  run : ∀ {s fed given input room step}, codec.process s false input room = step →
    codec.Running s fed given → input ≠ [] → 0 < room →
    (step.ret = progress false ∧ (0 < step.consumed ∨ step.output ≠ []) ∧
      codec.Running step.state (fed ++ input.take step.consumed) (given ++ step.output)) ∨
    (step.ret = .streamEnd ∧ codec.Ended step.state ∧
      ∀ rest, verdict (fed ++ input.take step.consumed ++ rest) =
        .ended (fed ++ input.take step.consumed).length) ∨
    (corrupt step.ret = true ∧ ∀ rest, verdict (fed ++ input ++ rest) = .corrupted)
  finish : ∀ {s fed given room step}, codec.process s true [] room = step →
    codec.Running s fed given ∨ codec.Finishing s fed given → 0 < room →
    (step.ret = progress true ∧ step.output ≠ [] ∧
      codec.Finishing step.state fed (given ++ step.output)) ∨
    (step.ret = .streamEnd ∧ codec.Ended step.state ∧ verdict fed = .ended fed.length) ∨
    (corrupt step.ret = true ∧ verdict fed = .corrupted) ∨
    ((step.ret = progress true ∨ step.ret = .bufError) ∧ step.output = [] ∧
      codec.Finishing step.state fed given ∧ verdict fed = .incomplete)
  past : ∀ {s flush input room step}, codec.process s flush input room = step → codec.Ended s →
    0 < room → step.ret = ended ∧ step.consumed = 0 ∧ step.output = [] ∧ codec.Ended step.state

namespace StreamCodec

variable {progress : Bool → CodecReturn} {ended : CodecReturn} (codec : StreamCodec progress ended)

/-- A codec that accepts every input does not end before it is asked to finish. -/
theorem run_of_total (htotal : ∀ input, (codec.code input).isSome = true)
    (hprogress : progress false ≠ .streamEnd)
    {s : codec.State} {fed given input whole coded : List UInt8} {room : Nat}
    {step : CodecStep codec.State} (hstep : codec.process s false input room = step)
    (hs : codec.Running s fed given) (hinput : input ≠ []) (hroom : 0 < room)
    (hstarts : fed ++ input <+: whole) (hcode : codec.code whole = some coded) :
    step.ret = progress false ∧ (0 < step.consumed ∨ step.output ≠ []) ∧
      given ++ step.output <+: coded ∧
      codec.Running step.state (fed ++ input.take step.consumed) (given ++ step.output) := by
  rcases codec.run hstep hs hinput hroom hstarts hcode with hgo | ⟨hret, hwhole, -, -⟩
  · exact hgo
  · -- The same call would be the end of a longer input.
    obtain ⟨longer, hlonger⟩ := Option.isSome_iff_exists.mp (htotal (whole ++ [0]))
    have hstarts' : fed ++ input <+: whole ++ [0] := hstarts.trans (List.prefix_append whole [0])
    rcases codec.run hstep hs hinput hroom hstarts' hlonger with ⟨hret', -⟩ | ⟨-, hwhole', -⟩
    · exact absurd (hret'.symm.trans hret) hprogress
    · rw [hwhole] at hwhole'
      simp at hwhole'

end StreamCodec
