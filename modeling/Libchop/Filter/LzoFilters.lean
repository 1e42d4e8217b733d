import Libchop.Filter.Through
import Libchop.Framework.ByteOrder

/-!
# The zip and unzip filters of LZO

LZO has no streams: each portion of the input is compressed as a whole, behind a header with both
sizes.
-/

namespace Libchop

/-- The functions of the library.  When it fails, `lzo1xDecompressSafe` has put out something. -/
structure LzoLibrary where
  lzo1xCompress : Bytes → Bytes
  lzo1xDecompressSafe : Bytes → Nat → Except Bytes Bytes

structure LzoFilter where
  inputBuffer : Bytes
  availIn : Nat
  inputOffset : Nat
  outputBuffer : Bytes
  availOut : Nat
  outputOffset : Nat

namespace LzoFilter

/-- `memcpy` to a position of the input buffer. -/
def receive (filter : LzoFilter) (offset : Nat) (data : Bytes) : LzoFilter :=
  { filter with
    inputBuffer := filter.inputBuffer.take offset ++ data ++
      filter.inputBuffer.drop (offset + data.length)
    availIn := filter.availIn + data.length }

/-- The loop of `ZIP_PUSH_METHOD`.  The output fault of a filter that is full is never handled in an
input fault handler. -/
def pushLoop : Nat → LzoFilter → Nat → Bytes → Nat → Outcome (FilterStatus × Nat × LzoFilter)
  | 0, _, _, _, _ => .outOfFuel
  | fuel + 1, filter, offset, data, pushed =>
    if data = [] then .done (.ok (), pushed, filter)
    else if filter.availOut > 0 then
      .done (if pushed = 0 then .error .full else .ok (), pushed, filter)
    else
      let available := filter.inputBuffer.length - offset
      if available > 0 then
        let amount := min available data.length
        pushLoop fuel (filter.receive offset (data.take amount)) (offset + amount)
          (data.drop amount) (pushed + amount)
      else pushLoop fuel filter offset data pushed

def push : PushMethod LzoFilter := fun fuel filter data =>
  let offset := filter.inputOffset + filter.availIn
  Outcome.assert (offset ≤ filter.inputBuffer.length) >>= fun _ =>
    pushLoop fuel filter offset data 0

def pendingOutput (filter : LzoFilter) : Bytes :=
  (filter.outputBuffer.drop filter.outputOffset).take filter.availOut

/-- Output is copied to the caller. -/
def drain (filter : LzoFilter) (amount : Nat) : LzoFilter :=
  let availOut := filter.availOut - amount
  { filter with
    availOut
    outputOffset := if availOut = 0 then 0 else filter.outputOffset + amount }

variable (library : LzoLibrary) {S : Type} (handle : FaultHandler LzoFilter S)

/-- The available input is compressed to the output buffer, behind its header. -/
def compress (filter : LzoFilter) : Outcome (FilterStatus × LzoFilter) :=
  let out := library.lzo1xCompress (filter.inputBuffer.take filter.availIn)
  Outcome.assert (out.length + 8 ≤ filter.outputBuffer.length) >>= fun _ =>
    if filter.availIn ≥ 2 ^ 32 ∨ out.length ≥ 2 ^ 32 then
      .done (.error .error, { filter with
        outputBuffer := filter.outputBuffer.take 8 ++ out ++ filter.outputBuffer.drop (out.length + 8)
        availOut := out.length })
    else
      .done (.ok (), { filter with
        outputBuffer := ByteOrder.storeBe out.length ++ ByteOrder.storeBe filter.availIn ++ out ++
          filter.outputBuffer.drop (out.length + 8)
        availIn := 0
        availOut := out.length + 8 })

/-- The loop of `chop_lzo_zip_pull`.  What is pulled is taken from the size as well. -/
def zipPullLoop (flush : Bool) : Nat → LzoFilter × S → Nat → Bytes →
    Outcome (FilterStatus × Bytes × LzoFilter × S)
  | 0, _, _, _ => .outOfFuel
  | fuel + 1, (filter, source), size, pulled =>
    if pulled.length < size then
      if filter.availOut > 0 then
        let amount := min filter.availOut size
        zipPullLoop flush fuel (filter.drain amount, source) (size - amount)
          (pulled ++ filter.pendingOutput.take amount)
      else if filter.availIn < filter.inputBuffer.length ∧ flush = false then
        handle fuel (filter.inputBuffer.length - filter.availIn) filter source >>=
          fun (err, filter, source) =>
            match err with
            | .ok _ => zipPullLoop flush fuel (filter, source) size pulled
            | .error .unhandledFault => .done (.error .empty, pulled, filter, source)
            | .error err => .done (.error err, pulled, filter, source)
      else if filter.availIn > 0 then
        compress library filter >>= fun (err, filter) =>
          match err with
          | .ok _ => zipPullLoop flush fuel (filter, source) size pulled
          | .error err => .done (.error err, pulled, filter, source)
      else .done (if pulled = [] then .error .empty else .ok (), pulled, filter, source)
    else .done (.ok (), pulled, filter, source)

def zipPull : PullMethod LzoFilter S := fun handle fuel flush size s =>
  zipPullLoop library handle flush fuel s size []

/-- The size of a buffer that is doubled as long as it is too small. -/
def growSize (needed : Nat) : Nat → Nat → Nat
  | 0, size => size
  | fuel + 1, size => if size < needed then growSize needed fuel (size <<< 1) else size

def ensureLargeEnough (buffer : Bytes) (needed : Nat) : Bytes :=
  buffer ++ List.replicate (growSize needed needed buffer.length - buffer.length) 0

/-- The portion behind a header is decompressed to the output buffer. -/
def decompress (filter : LzoFilter) (in32 out32 : Nat) : Outcome (FilterStatus × LzoFilter) :=
  if filter.availIn < in32 then .done (.error .error, filter)
  else
    let data := (filter.inputBuffer.drop filter.inputOffset).take in32
    match library.lzo1xDecompressSafe data filter.outputBuffer.length with
    | .error out =>
      .done (.error .error, { filter with
        outputBuffer := out ++ filter.outputBuffer.drop out.length, availOut := out.length })
    | .ok out =>
      Outcome.assert (out.length = out32) >>= fun _ =>
        .done (.ok (), { filter with
          outputBuffer := out ++ filter.outputBuffer.drop out.length
          availOut := out.length
          availIn := 0
          outputOffset := 0
          inputOffset := 0 })

/-- A header was read from the beginning of the input buffer. -/
def skipHeader (filter : LzoFilter) (in32 out32 : Nat) : LzoFilter :=
  { filter with
    inputOffset := filter.inputOffset + 8
    availIn := filter.availIn - 8
    inputBuffer := ensureLargeEnough filter.inputBuffer (in32 + (filter.inputOffset + 8))
    outputBuffer := ensureLargeEnough filter.outputBuffer (out32 + filter.outputOffset) }

/-- `size` has 64 bits. -/
def subtractHeader (size : Nat) : Nat := (size + 2 ^ 64 - 8) % 2 ^ 64

/-- The end of `chop_lzo_unzip_pull` after an input fault. -/
def unzipFault (pulled : Bytes) : FilterError → FilterStatus
  | .unhandledFault => if pulled = [] then .error .empty else .ok ()
  | err => .error err

/-- The loop of `chop_lzo_unzip_pull`.  Headers are taken from the size as well. -/
def unzipPullLoop (flush : Bool) : Nat → LzoFilter × S → Nat → Bytes →
    Outcome (FilterStatus × Bytes × LzoFilter × S)
  | 0, _, _, _ => .outOfFuel
  | fuel + 1, (filter, source), size, pulled =>
    if pulled.length < size then
      if filter.availOut > 0 then
        let amount := min filter.availOut size
        unzipPullLoop flush fuel (filter.drain amount, source) (size - amount)
          (pulled ++ filter.pendingOutput.take amount)
      else if flush then
        .done (if pulled = [] then .error .empty else .ok (), pulled, filter, source)
      else if filter.availIn < 8 then
        handle fuel 8 filter source >>= fun (err, filter, source) =>
          match err with
          | .ok _ => unzipPullLoop flush fuel (filter, source) size pulled
          | .error err => .done (unzipFault pulled err, pulled, filter, source)
      else
        let in32 := ByteOrder.loadBe filter.inputBuffer
        let out32 := ByteOrder.loadBe (filter.inputBuffer.drop 4)
        let filter := filter.skipHeader in32 out32
        (if in32 > filter.availIn then handle fuel (in32 - filter.availIn) filter source
          else .done (.ok (), filter, source)) >>= fun (err, filter, source) =>
          match err with
          | .error _ => .done (.error .error, pulled, filter, source)
          | .ok _ =>
            decompress library filter in32 out32 >>= fun (err, filter) =>
              match err with
              | .error err => .done (.error err, pulled, filter, source)
              | .ok _ =>
                unzipPullLoop flush fuel (filter, source) (subtractHeader size) pulled
    else .done (.ok (), pulled, filter, source)

def unzipPull : PullMethod LzoFilter S := fun handle fuel flush size s =>
  unzipPullLoop library handle flush fuel s size []

def zipMethods : FilterMethods LzoFilter where
  push := push
  pull _ := zipPull library

def unzipMethods : FilterMethods LzoFilter where
  push := push
  pull _ := unzipPull library

/-- `chop_lzo_zip_filter_init`, with buffers that hold anything. -/
def newZip (inputBuffer : Bytes) (junk : Nat → UInt8) : LzoFilter where
  inputBuffer
  availIn := 0
  inputOffset := 0
  outputBuffer :=
    (List.range (inputBuffer.length + (inputBuffer.length >>> 6) + 100)).map junk
  availOut := 0
  outputOffset := 0

def newUnzip (inputBuffer : Bytes) (junk : Nat → UInt8) : LzoFilter where
  inputBuffer
  availIn := 0
  inputOffset := 0
  outputBuffer := (List.range (inputBuffer.length <<< 1)).map junk
  availOut := 0
  outputOffset := 0

end LzoFilter

end Libchop
