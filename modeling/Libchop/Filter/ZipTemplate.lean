import Libchop.Filter.Through
import Libchop.Filter.ZipCounters
import Libchop.Framework.StreamCodec

/-!
# The zip and unzip filters of zlib and bzip2

The push and pull methods are one template, with macros for each library and direction.
-/

namespace Libchop

/-- What `filter-zip-push-pull.c` is included for. -/
inductive ZipFilterClass where
  | zlibZip
  | zlibUnzip
  | bzip2Zip
  | bzip2Unzip
deriving DecidableEq, Repr

namespace ZipFilterClass

/-- `ZIP_PROCESS`, as far as it changes what the library reports (`do_zip_process`). -/
def processReturn : ZipFilterClass → Bool → CodecReturn → CodecReturn
  | .bzip2Zip, true, .finishOk => .ok
  | .bzip2Zip, false, .runOk => .ok
  | _, _, ret => ret

def needMoreInput : ZipFilterClass → Nat → CodecReturn → Bool
  | .zlibUnzip, _, zret => zret = .bufError
  | .bzip2Unzip, availIn, _ => availIn = 0
  | _, _, _ => false

def cantProduceMore : ZipFilterClass → CodecReturn → Bool
  | .zlibZip, zret => zret = .bufError
  | .zlibUnzip, zret => zret = .streamEnd
  | .bzip2Zip, zret => zret = .outbuffFull
  | .bzip2Unzip, zret => zret = .streamEnd

def inputCorrupted : ZipFilterClass → CodecReturn → Bool
  | .zlibZip, _ => false
  | .zlibUnzip, zret => zret = .dataError
  | .bzip2Zip, zret => zret = .dataError
  | .bzip2Unzip, zret => zret = .dataError ∨ zret = .dataErrorMagic

def streamEnded : ZipFilterClass → CodecReturn → Bool
  | .zlibZip, zret | .zlibUnzip, zret => zret = .streamEnd
  | .bzip2Zip, zret | .bzip2Unzip, zret => zret = .streamEnd ∨ zret = .sequenceError

/-- What the library reports while it works. -/
def progress : ZipFilterClass → Bool → CodecReturn
  | .bzip2Zip, true => .finishOk
  | .bzip2Zip, false => .runOk
  | _, _ => .ok

/-- What the library reports after the end of its stream. -/
def ended : ZipFilterClass → CodecReturn
  | .zlibZip | .zlibUnzip => .streamEnd
  | .bzip2Zip | .bzip2Unzip => .sequenceError

def isZip : ZipFilterClass → Bool
  | .zlibZip | .bzip2Zip => true
  | .zlibUnzip | .bzip2Unzip => false

abbrev Library (c : ZipFilterClass) := StreamCodec c.progress c.ended

end ZipFilterClass

/-- A filter object.  `nextIn` is a position of the input buffer. -/
structure ZipFilter (σ : Type) where
  inputBuffer : Bytes
  nextIn : Nat
  availIn : Nat
  zstream : σ

namespace ZipFilter

variable {σ : Type}

def pending (filter : ZipFilter σ) : Bytes := (filter.inputBuffer.drop filter.nextIn).take filter.availIn

/-- `memcpy` to the input buffer, behind as many bytes as are available. -/
def receive (filter : ZipFilter σ) (data : Bytes) : ZipFilter σ :=
  { filter with
    inputBuffer := filter.inputBuffer.take filter.availIn ++ data ++
      filter.inputBuffer.drop (filter.availIn + data.length)
    availIn := streamCount (filter.availIn + data.length) }

/-- The loop of `ZIP_PUSH_METHOD`.  The output fault of a filter that is full is never handled in an
input fault handler. -/
def pushLoop : Nat → ZipFilter σ → Bytes → Nat → Outcome (FilterStatus × Nat × ZipFilter σ)
  | 0, _, _, _ => .outOfFuel
  | fuel + 1, filter, data, pushed =>
    if data = [] then .done (.ok (), pushed, filter)
    else if filter.availIn ≥ filter.inputBuffer.length then
      .done (if pushed = 0 then .error .full else .ok (), pushed, filter)
    else
      let amount := min (filter.inputBuffer.length - filter.availIn) data.length
      pushLoop fuel (filter.receive (data.take amount)) (data.drop amount) (pushed + amount)

def push : PushMethod (ZipFilter σ) := fun _ filter data =>
  let filter := if filter.availIn = 0 then { filter with nextIn := 0 } else filter
  pushLoop (data.length + 1) filter data 0

/-- The library takes input from the stream. -/
def take (filter : ZipFilter σ) (step : CodecStep σ) : ZipFilter σ :=
  { filter with
    nextIn := filter.nextIn + step.consumed
    availIn := filter.availIn - step.consumed
    zstream := step.state }

/-- What a size has more than `avail_out`. -/
def uncounted (size : Nat) : Nat := size - streamCount size

/-- What the library has written, of what was pulled. -/
def written (size : Nat) (pulled : Bytes) : Bytes := pulled.take (pulled.length - uncounted size)

/-- `avail_out`, which is the size at first. -/
def availOut (size : Nat) (pulled : Bytes) : Nat := streamCount size - (written size pulled).length

/-- What `*pulled = size - avail_out` covers when the library has put out some more.  The bytes behind
it are those that the caller's buffer held, which are zeros here. -/
def deliver (size : Nat) (pulled output : Bytes) : Bytes :=
  written size pulled ++ output ++ List.replicate (uncounted size) 0

variable {c : ZipFilterClass} (library : c.Library) {S : Type}
  (handle : FaultHandler (ZipFilter library.State) S)

/-- The end of `ZIP_PULL_METHOD` when there is nothing more to pull. -/
def pullEmpty (pulled : Bytes) : FilterStatus := if pulled = [] then .error .empty else .ok ()

/-- The loop of `ZIP_PULL_METHOD`, with what the library reported last and what was pulled. -/
def pullLoop (flush : Bool) (size : Nat) : Nat → ZipFilter library.State × S → CodecReturn → Bytes →
    Outcome (FilterStatus × Bytes × ZipFilter library.State × S)
  | 0, _, _, _ => .outOfFuel
  | fuel + 1, (filter, source), zret, pulled =>
    if pulled.length < size then
      if (filter.availIn = 0 ∨ c.needMoreInput filter.availIn zret) ∧ flush = false then
        handle fuel (filter.inputBuffer.length - filter.availIn) filter source >>=
          fun (err, filter, source) =>
            match err with
            | .ok _ => pullLoop flush size fuel (filter, source) zret pulled
            | .error .unhandledFault | .error .empty =>
              .done (pullEmpty pulled, pulled, filter, source)
            | .error err => .done (.error err, pulled, filter, source)
      else
        let step := library.process filter.zstream flush filter.pending (availOut size pulled)
        let zret := c.processReturn flush step.ret
        let filter := filter.take step
        if c.inputCorrupted zret then .done (.error .error, pulled, filter, source)
        else
          let pulled := deliver size pulled step.output
          if flush then
            if c.streamEnded zret ∧ pulled = [] then
              .done (.error .empty, pulled, { filter with zstream := library.init }, source)
            else .done (.ok (), pulled, filter, source)
          else if c.cantProduceMore zret then .done (.ok (), pulled, filter, source)
          else if zret ≠ .ok then .done (.error .error, pulled, filter, source)
          else pullLoop flush size fuel (filter, source) zret pulled
    else .done (.ok (), pulled, filter, source)

def pull : PullMethod (ZipFilter library.State) S := fun handle fuel flush size s =>
  pullLoop library handle flush size fuel s .ok []

def methods : FilterMethods (ZipFilter library.State) where
  push := push
  pull _ := pull library

/-- A new filter, whose input buffer holds anything. -/
def new (inputBuffer : Bytes) : ZipFilter library.State := ⟨inputBuffer, 0, 0, library.init⟩

end ZipFilter

end Libchop
