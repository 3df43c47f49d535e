import MinLz.Lib.Pipeline
import MinLz.Stream.Reader
import MinLz.Stream.Writer

/-! # Concurrent decoding

A dispatcher, the caller's thread, reads the chunks, workers decode the blocks, and a
writer thread puts them out in the order of the chunks. Chunks without data are handled
by the dispatcher. The buffers that go round through the pools are left out: one that is
acquired is empty. `mem` is what the spare capacity of such a buffer holds.
-/

namespace MinLz.Stream

open Block (maxBlockSize)
open Machine (Overflow)
open Loop (Iter)
open Pipeline (Prog Stages Thread Offer)

/-- A compressed chunk to decode. -/
structure DecodeJob where
  chunkType : UInt8
  /-- the body without the checksum -/
  body : List UInt8
  checksum : Nat
  ignoreCrc : Bool
  maxBlock : Nat
  deriving DecidableEq, Repr

inductive DecodeItem where
  | job (job : DecodeJob)
  /-- a block that was stored uncompressed, checked already -/
  | stored (body : List UInt8)
  deriving DecidableEq, Repr

/-- The sink and the number of decoded bytes written into it. -/
structure ConcurrentDecode (τ : Type) where
  bytesWritten : Nat := 0
  writer : τ
  deriving DecidableEq, Repr

/-- What the dispatcher keeps. -/
structure Dispatcher (σ : Type) where
  reader : Reader σ
  /-- the number of workers -/
  threads : Nat
  uncompEmitted : UInt64 := 0
  nextWorker : Nat := 0

/-- A part of the dispatcher. -/
abbrev Dispatching (σ α : Type) := Thread DecodeItem (Stop IoError) (Dispatcher σ) α

variable {σ τ α : Type}

/-- What the dispatcher does with the reader. -/
def onSource (x : Action σ α) : Dispatching σ α :=
  Thread.lift fun self =>
    match x self.reader with
    | .ok a reader => .ok a { self with reader }
    | .error e reader => .error e { self with reader }

/-- A handler whose error is returned, and not kept. -/
def raised (x : Handle σ α) : Action σ α := fun s =>
  match x s with
  | .ok a s => .ok a s
  | .error (.fault f) s => .error (.fault f) s
  | .error (.error e) s => .error (.error e.toIo) s

/-- Return the error of the writer thread, if there is one. -/
def checkPipeline : Dispatching σ Unit := do
  match ← Thread.check with
  | some e => throw e
  | none => return ()

/-- The first chunk of a stream has to be its identifier. -/
def requireHeader (kind : UInt8) : Action σ Unit := do
  if (← get).headerRead = false then
    if kind = chunkTypeStreamIdentifier then modify fun self => { self with headerRead := true }
    else if kind ≤ maxNonSkippableChunk ∧ kind ≠ chunkTypeEof then
      throw (.error Error.corrupt.toIo)

/-- The job of a compressed chunk, and the length that its block declares. -/
def readJob (kind : UInt8) (chunkLen : Nat) : Handle σ (DecodeJob × Nat) := do
  reject (chunkLen > maxBufSize (← get)) .corrupt
  let buf ← readExactOrCorrupt chunkLen
  let checksum := readU32Le buf
  let body := buf.drop checksumSize
  let dlen ← ofBlock (Block.decodedLenChunkBody body)
  let self ← get
  return (⟨kind, body, checksum, self.ignoreCrc, self.maxBlock⟩, dlen)

/-- Try the workers in turn, and wait for the one that is tried last. -/
def submitCompressed (job : DecodeJob) : Dispatching σ Unit := do
  let n := (← get).threads
  if ← Thread.order (.job job) then
    Thread.loop (.fault .unfinished) (fun tried => do
      let idx := (← get).nextWorker % n
      modify fun self => { self with nextWorker := (self.nextWorker + 1) % n }
      match ← Thread.offer idx with
      | .taken => return .done ()
      | .full =>
          if tried + 1 ≥ n then
            if ← Thread.hand idx then return .done ()
            else throw (.error ⟨.other, "MinLZ worker pool closed"⟩)
          else return .next (tried + 1)
      | .closed => throw (.error ⟨.other, "MinLZ worker pool closed"⟩)) (n + 1) 0
  else throw (.error ⟨.other, "MinLZ writer thread closed"⟩)

def dispatchCompressed (kind : UInt8) (chunkLen : Nat) : Dispatching σ Unit := do
  let (job, dlen) ← onSource (raised (readJob kind chunkLen))
  modify fun self => { self with uncompEmitted := self.uncompEmitted + dlen.toUInt64 }
  submitCompressed job

/-- The block of an uncompressed chunk, checked. -/
def readStored (chunkLen : Nat) : Handle σ (List UInt8) := do
  let self ← get
  reject (chunkLen > maxBufSize self) .corrupt
  let n := chunkLen - checksumSize
  reject (n > self.maxBlock) .tooLarge
  let checksum := readU32Le (← readExactOrCorrupt checksumSize)
  let body ← readExactOrCorrupt n
  if !self.ignoreCrc then verifyCrc body checksum
  return body

/-- The result of a stored block is sent right after its place in the order; until then the
    writer thread waits for it, so that the two are one step here. -/
def dispatchStored (chunkLen : Nat) : Dispatching σ Unit := do
  let body ← onSource (raised (readStored chunkLen))
  modify fun self => { self with uncompEmitted := self.uncompEmitted + body.length.toUInt64 }
  if ← Thread.order (.stored body) then Thread.supply
  else throw (.error ⟨.other, "MinLZ writer thread closed"⟩)

/-- The length that the end of a stream states is that of what has been dispatched. -/
def checkEmitted (self : Reader σ) (uncompEmitted : UInt64) (tmp : List UInt8) : Exec Unit :=
  if self.ignoreStreamId then .ok ()
  else
    match getUvarint tmp with
    | none => .error (.error .corrupt)
    | some (want, n) => reject (n ≠ tmp.length ∨ want ≠ uncompEmitted.toNat) .corrupt

def readEof (uncompEmitted : UInt64) (chunkLen : Nat) : Handle σ Unit := do
  reject (chunkLen > maxVarintLen64) .corrupt
  if chunkLen > 0 then
    let tmp ← readExactOrCorrupt chunkLen
    checkEmitted (← get) uncompEmitted tmp
  modify fun self => { self with expectEof := false, headerRead := false }

def readMagic (chunkLen : Nat) : Handle σ Unit := do
  reject (chunkLen ≠ magicBodyLen) .corrupt
  let tmp ← readExactOrCorrupt magicBodyLen
  let newMax ← identifierBlockSize tmp
  reject (newMax > (← get).maxBlockUser) .tooLarge
  modify fun self => { self with maxBlock := newMax, expectEof := true }

def dispatchStreamIdentifier (chunkLen : Nat) : Dispatching σ Unit := do
  onSource (raised (readMagic chunkLen))
  modify fun self => { self with uncompEmitted := 0 }

/-- The code of `handle_skippable`, with a buffer of its own. -/
def handleSkippableDispatch (kind : UInt8) (chunkLen : Nat) : Handle σ Unit :=
  handleSkippable kind chunkLen

/-- A data chunk that is too short for its checksum counts as an unknown one. -/
def dispatchChunk (kind : UInt8) (chunkLen : Nat) : Dispatching σ Unit := do
  if (kind = chunkTypeMinlzCompressedData ∨ kind = chunkTypeMinlzCompressedDataCompCrc) ∧
      chunkLen ≥ checksumSize then
    dispatchCompressed kind chunkLen
  else if kind = chunkTypeUncompressedData ∧ chunkLen ≥ checksumSize then dispatchStored chunkLen
  else if kind = chunkTypeEof then
    onSource (raised (readEof (← get).uncompEmitted chunkLen))
  else if kind = chunkTypeStreamIdentifier then dispatchStreamIdentifier chunkLen
  else if kind ≤ maxNonSkippableChunk then throw (.error Error.unsupported.toIo)
  else onSource (raised (handleSkippableDispatch kind chunkLen))

def dispatchStep (_ : Unit) : Dispatching σ (Iter Unit Unit) := do
  checkPipeline
  match ← onSource (readFullOrEof chunkHeaderSize (!(← get).reader.expectEof)) with
  | none => return .done ()
  | some hdr =>
      let kind := hdr.getD 0 0
      let chunkLen := readChunkLen (hdr.getD 1 0) (hdr.getD 2 0) (hdr.getD 3 0)
      onSource (requireHeader kind)
      dispatchChunk kind chunkLen
      return .next ()

def dispatchLoop : Dispatching σ Unit := do
  Thread.loop (.fault .unfinished) dispatchStep ((← get).reader.r.length + 1) ()

/-- The decoded block, checked. -/
def DecodeJob.output (mem : Nat → UInt8) (job : DecodeJob) : Exec (List UInt8) := do
  let dlen ← ofBlock (Block.decodedLenChunkBody job.body)
  reject (dlen > job.maxBlock) .tooLarge
  let decoded ← ofBlock (Block.appendDecodedChunkBody mem [] job.body)
  if job.ignoreCrc then return decoded
  let covered ← toCrc job.chunkType job.body decoded
  verifyCrc covered job.checksum
  return decoded

/-- What a worker sends back, unless it panics. -/
def DecodeJob.work (mem : Nat → UInt8) (job : DecodeJob) : Option (Except Error (List UInt8)) :=
  match job.output mem with
  | .ok decoded => some (.ok decoded)
  | .error (.error e) => some (.error e)
  | .error (.fault _) => none

section Writing

variable (m : Overflow) (sink : Sink τ)

/-- Write the next block; the count goes up also when the sink fails. -/
def writeDecoded (result : Except Error (List UInt8)) (self : ConcurrentDecode τ) :
    Except (Stop IoError) (ConcurrentDecode τ) :=
  match result with
  | .error e => .error (.error e.toIo)
  | .ok buf => do
      let (written, writer) := sink.writeAll buf self.writer
      let bytesWritten ← word (m.unsigned (self.bytesWritten + buf.length))
      match written with
      | .ok () => return { bytesWritten, writer }
      | .error e => throw (.error e)

/-- What the writer thread does when the order queue has been closed. -/
def flushDecoded (self : ConcurrentDecode τ) : Except (Stop IoError) (ConcurrentDecode τ) :=
  match sink.flush self.writer with
  | (.ok (), writer) => .ok { self with writer }
  | (.error e, _) => .error (.error e)

def decodeStages (mem : Nat → UInt8) :
    Stages DecodeItem (Except Error (List UInt8)) (ConcurrentDecode τ) (ConcurrentDecode τ)
      (Stop IoError) where
  direct _ := false
  result
    | .stored body => some (.ok body)
    | .job job => job.work mem
  eat := writeDecoded m sink
  lost := .error ⟨.other, "MinLZ worker exited without producing output"⟩
  noted
    | .error _ => true
    | .fault _ => false
  close := flushDecoded sink

/-- What is returned, from how the dispatcher and the writer thread end. -/
def decodeResult (dispatched : Except (Stop IoError) Unit × Dispatcher σ)
    (result : Except (Stop IoError) (ConcurrentDecode τ)) :
    Except (Stop IoError) (ConcurrentDecode τ) :=
  match dispatched.1, result with
  | .error e, _ => .error e
  | .ok (), .ok payload => .ok payload
  | .ok (), .error (.error e) => .error (.error e)
  | .ok (), .error (.fault _) =>
      .error (.error ⟨.other, "MinLZ writer thread exited unexpectedly"⟩)

/-- What `decode_concurrent` looks at before it starts the threads. -/
def mayDecode (self : Reader σ) (threads : Nat) : Except (Stop IoError) Unit :=
  if threads = 0 then .error (.error ⟨.invalidInput, "concurrency must be ≥ 1"⟩)
  else if self.decodedPos < self.decoded.length then
    .error (.error ⟨.invalidInput, "decode_concurrent called after Read"⟩)
  else
    match self.err with
    | some e => .error (.error e)
    | none => .ok ()

/-- The dispatcher before it has read a chunk. -/
def dispatcher (self : Reader σ) (threads : Nat) : Dispatcher σ where
  reader := self
  threads := threads

/-- Some run of the threads, if they are started, ends with what `decode_concurrent`
    returns. -/
inductive DecodeConcurrent (mem : Nat → UInt8) (self : Reader σ) (w : τ) (threads : Nat) :
    Except (Stop IoError) (ConcurrentDecode τ) → Prop where
  | refused {e : Stop IoError} (refused : mayDecode self threads = .error e) :
      DecodeConcurrent mem self w threads (.error e)
  | ended {s : Pipeline.State DecodeItem (Except Error (List UInt8)) (ConcurrentDecode τ)
      (ConcurrentDecode τ) (Stop IoError) _}
      {dispatched : Except (Stop IoError) Unit × Dispatcher σ}
      {result : Except (Stop IoError) (ConcurrentDecode τ)} (may : mayDecode self threads = .ok ())
      (run : Pipeline.Run (decodeStages m sink mem) (threads + 1)
        (Pipeline.start (dispatchLoop (dispatcher self threads)) { writer := w }) s)
      (ended : Pipeline.Ended s dispatched result) :
      DecodeConcurrent mem self w threads (decodeResult dispatched result)

end Writing

end MinLz.Stream
