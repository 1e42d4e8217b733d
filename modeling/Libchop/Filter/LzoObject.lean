import Libchop.Filter.HandlerPrograms
import Libchop.Filter.LzoFilters

/-!
# The filter objects of LZO and the sizes they record

A filter object records the size of each of its buffers.  What the push and pull methods do depends on these
fields, and an output fault changes one of them.
-/

namespace Libchop

/-- Which of the two files `ZIP_PUSH_METHOD` is a part of. -/
inductive ZipDirection where
  | zip
  | unzip
deriving DecidableEq, Repr

structure LzoObject extends LzoFilter where
  inputBufferSize : Nat
  outputBufferSize : Nat

namespace LzoObject

variable (library : LzoLibrary) {S : Type} (handle : FaultHandler LzoObject S)

/-- The fault of a filter whose output was not pulled. -/
def outputFault (fuel : Nat) (filter : LzoObject) (source : S) : Outcome (FilterStatus × LzoObject × S) :=
  if filter.availOut > 0 then
    handle fuel filter.outputBufferSize filter source >>= fun (err, filter, source) =>
      match err with
      | .ok _ => .done (.ok (), { filter with outputBufferSize := 0 }, source)
      | .error err => .done (.error err, filter, source)
  else .done (.ok (), filter, source)

/-- What a push returns after a fault that was not handled. -/
def pushFault (pushed : Nat) : FilterError → FilterStatus
  | .unhandledFault => if pushed = 0 then .error .full else .ok ()
  | err => .error err

/-- The loop of `ZIP_PUSH_METHOD`.  Neither `buffer` nor `offset` follows what a handler does to the filter, and
`buffer` does not follow what is copied. -/
def pushLoop (buffer : Bytes) : Nat → LzoObject × S → Nat → Nat → Nat → Outcome (FilterStatus × Nat × LzoObject × S)
  | 0, _, _, _, _ => .outOfFuel
  | fuel + 1, (filter, source), offset, size, pushed =>
    if size > 0 then
      outputFault handle fuel filter source >>= fun (err, filter, source) =>
        match err with
        | .error err => .done (pushFault pushed err, pushed, filter, source)
        | .ok _ =>
          let available := filter.inputBufferSize - offset
          if available > 0 then
            let amount := min available size
            pushLoop buffer fuel ({ filter with toLzoFilter := filter.receive offset (buffer.take amount) }, source)
              (offset + amount) (size - amount) (pushed + amount)
          else pushLoop buffer fuel (filter, source) offset size pushed
    else .done (.ok (), pushed, filter, source)

def push (fuel : Nat) (s : LzoObject × S) (buffer : Bytes) : Outcome (FilterStatus × Nat × LzoObject × S) :=
  let offset := s.1.inputOffset + s.1.availIn
  Outcome.assert (offset ≤ s.1.inputBufferSize) >>= fun _ => pushLoop handle buffer fuel s offset buffer.length 0

/-- A push within a fault handler. -/
def pushUnhandled : PushMethod LzoObject := fun fuel filter buffer =>
  push unhandled fuel (filter, ()) buffer >>= fun (err, pushed, filter, _) => .done (err, pushed, filter)

/-- The output is checked against the size that the object records. -/
def compress (filter : LzoObject) : Outcome (FilterStatus × LzoObject) :=
  let out := library.lzo1xCompress (filter.inputBuffer.take filter.availIn)
  Outcome.assert (out.length + 8 ≤ filter.outputBufferSize) >>= fun _ =>
    filter.toLzoFilter.compress library >>= fun (err, state) => .done (err, { filter with toLzoFilter := state })

def zipPullLoop (flush : Bool) : Nat → LzoObject × S → Nat → Bytes → Outcome (FilterStatus × Bytes × LzoObject × S)
  | 0, _, _, _ => .outOfFuel
  | fuel + 1, (filter, source), size, pulled =>
    if pulled.length < size then
      if filter.availOut > 0 then
        let amount := min filter.availOut size
        zipPullLoop flush fuel ({ filter with toLzoFilter := filter.drain amount }, source) (size - amount)
          (pulled ++ filter.pendingOutput.take amount)
      else if filter.availIn < filter.inputBufferSize ∧ flush = false then
        handle fuel (filter.inputBufferSize - filter.availIn) filter source >>= fun (err, filter, source) =>
          match err with
          | .ok _ => zipPullLoop flush fuel (filter, source) size pulled
          | .error .unhandledFault => .done (.error .empty, pulled, filter, source)
          | .error err => .done (.error err, pulled, filter, source)
      else if filter.availIn > 0 then
        compress library filter >>= fun (err, filter) =>
          match err with
          | .ok _ => zipPullLoop flush fuel (filter, source) size pulled
          | .error err => .done (.error err, pulled, filter, source)
      else .done (if pulled = [] then .error .empty else .ok (), pulled, filter, source)
    else .done (.ok (), pulled, filter, source)

/-- The `do` loop of `ENSURE_LARGE_ENOUGH_BUFFER`. -/
def growSize (needed : Nat) : Nat → Nat → Outcome Nat
  | 0, _ => .outOfFuel
  | fuel + 1, size =>
    let newSize := size <<< 1
    if newSize < needed then growSize needed fuel newSize else .done newSize

/-- `ENSURE_LARGE_ENOUGH_BUFFER`: the buffer and its size. -/
def ensureLargeEnough (fuel : Nat) (buffer : Bytes) (bufferSize needed : Nat) : Outcome (Bytes × Nat) :=
  if bufferSize < needed then
    growSize needed fuel bufferSize >>= fun newSize =>
      .done (buffer.take newSize ++ List.replicate (newSize - buffer.length) 0, newSize)
  else .done (buffer, bufferSize)

/-- A header was read from the beginning of the input buffer. -/
def skipHeader (fuel : Nat) (filter : LzoObject) (in32 out32 : Nat) : Outcome LzoObject :=
  ensureLargeEnough fuel filter.inputBuffer filter.inputBufferSize (in32 + (filter.inputOffset + 8)) >>=
    fun (inputBuffer, inputBufferSize) =>
      ensureLargeEnough fuel filter.outputBuffer filter.outputBufferSize (out32 + filter.outputOffset) >>=
        fun (outputBuffer, outputBufferSize) =>
          .done { filter with
            inputOffset := filter.inputOffset + 8
            availIn := filter.availIn - 8
            inputBuffer, inputBufferSize, outputBuffer, outputBufferSize }

/-- The library may write as much as the size that the object records. -/
def decompress (filter : LzoObject) (in32 out32 : Nat) : Outcome (FilterStatus × LzoObject) :=
  if filter.availIn < in32 then .done (.error .error, filter)
  else
    let data := (filter.inputBuffer.drop filter.inputOffset).take in32
    match library.lzo1xDecompressSafe data filter.outputBufferSize with
    | .error out =>
      .done (.error .error, { filter with
        outputBuffer := out ++ filter.outputBuffer.drop out.length, availOut := out.length })
    | .ok out =>
      Outcome.assert (out.length = out32) >>= fun _ =>
        .done (.ok (), { filter with
          outputBuffer := out ++ filter.outputBuffer.drop out.length
          availOut := out.length
          availIn := 0
          outputOffset := 0
          inputOffset := 0 })

/-- The data of a portion is fetched behind its header. -/
def fetchPortion (fuel in32 : Nat) (filter : LzoObject) (source : S) : Outcome (FilterStatus × LzoObject × S) :=
  if in32 > filter.availIn then handle fuel (in32 - filter.availIn) filter source
  else .done (.ok (), filter, source)

/-- The loop of `chop_lzo_unzip_pull`. -/
def unzipPullLoop (flush : Bool) : Nat → LzoObject × S → Nat → Bytes →
    Outcome (FilterStatus × Bytes × LzoObject × S)
  | 0, _, _, _ => .outOfFuel
  | fuel + 1, (filter, source), size, pulled =>
    if pulled.length < size then
      if filter.availOut > 0 then
        let amount := min filter.availOut size
        unzipPullLoop flush fuel ({ filter with toLzoFilter := filter.drain amount }, source) (size - amount)
          (pulled ++ filter.pendingOutput.take amount)
      else if flush then
        .done (if pulled = [] then .error .empty else .ok (), pulled, filter, source)
      else if filter.availIn < 8 then
        handle fuel 8 filter source >>= fun (err, filter, source) =>
          match err with
          | .ok _ => unzipPullLoop flush fuel (filter, source) size pulled
          | .error err => .done (LzoFilter.unzipFault pulled err, pulled, filter, source)
      else
        let in32 := ByteOrder.loadBe filter.inputBuffer
        let out32 := ByteOrder.loadBe (filter.inputBuffer.drop 4)
        skipHeader fuel filter in32 out32 >>= fun filter =>
          fetchPortion handle fuel in32 filter source >>= fun (err, filter, source) =>
            match err with
            | .error _ => .done (.error .error, pulled, filter, source)
            | .ok _ =>
              decompress library filter in32 out32 >>= fun (err, filter) =>
                match err with
                | .error err => .done (.error err, pulled, filter, source)
                | .ok _ =>
                  unzipPullLoop flush fuel (filter, source) (LzoFilter.subtractHeader size) pulled
    else .done (.ok (), pulled, filter, source)

def pull (direction : ZipDirection) : PullMethod LzoObject S := fun handle fuel flush size s =>
  match direction with
  | .zip => zipPullLoop library handle flush fuel s size []
  | .unzip => unzipPullLoop library handle flush fuel s size []

/-- The methods as a fault handler calls them. -/
def methods (direction : ZipDirection) : FilterMethods LzoObject where
  push := pushUnhandled
  pull _ := pull library direction

def initialInputSize (inputSize : Nat) : ZipDirection → Nat
  | .zip => if inputSize ≠ 0 then inputSize else 8192
  | .unzip => if inputSize ≠ 0 then inputSize else 1024

/-- The size of the output buffer behind an input buffer of this size. -/
def initialOutputSize (inputSize : Nat) : ZipDirection → Nat
  | .zip => inputSize + (inputSize >>> 6) + 100
  | .unzip => inputSize <<< 1

/-- `chop_lzo_zip_filter_init` and `chop_lzo_unzip_filter_init`, with buffers that hold anything. -/
def new (direction : ZipDirection) (inputSize : Nat) (junk junk' : Nat → UInt8) : LzoObject :=
  let inputSize := initialInputSize inputSize direction
  let outputSize := initialOutputSize inputSize direction
  { inputBuffer := (List.range inputSize).map junk
    inputBufferSize := inputSize
    availIn := 0
    inputOffset := 0
    outputBuffer := (List.range outputSize).map junk'
    outputBufferSize := outputSize
    availOut := 0
    outputOffset := 0 }

end LzoObject

end Libchop
