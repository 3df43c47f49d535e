import MinLz.Lib.Pipeline
import MinLz.Stream.Produced

/-! # The multi-threaded writer

The caller's thread cuts its input into blocks, workers compress them, and a writer
thread puts the chunks out in the order of the blocks. The buffers that go round through
the pools are left out: one that is acquired is empty.
-/

namespace MinLz.Stream

open Block (maxBlockSize)
open Machine (Overflow)
open Pipeline (Prog Stages Thread Offer)

structure BlockJob where
  uncompressed : List UInt8
  level : Block.Level
  uncompressedMode : Bool
  deriving DecidableEq, Repr

inductive OrderItem where
  | block (job : BlockJob)
  /-- bytes that are written as they are -/
  | raw (bytes : List UInt8)
  deriving DecidableEq, Repr

structure WorkerOutput where
  hdr : List UInt8
  body : List UInt8
  uncompLen : Nat
  deriving DecidableEq, Repr

/-- What the writer thread has for an item. -/
inductive ReadyItem where
  | block (out : WorkerOutput)
  /-- an error marker with its message -/
  | marker (message : String)
  | raw (bytes : List UInt8)
  deriving DecidableEq, Repr

structure MtWriterBuilder where
  blockSize : Nat := defaultBlockSize
  level : Block.Level := .balanced
  uncompressed : Bool := false
  padding : Nat := 0
  concurrency : Nat := 1
  generateIndex : Bool := true
  appendIndex : Bool := false
  deriving DecidableEq, Repr

/-- What the caller's thread keeps. -/
structure MtWriter where
  blockSize : Nat
  level : Block.Level
  uncompressed : Bool
  ibuf : List UInt8 := []
  /-- the number of workers -/
  workers : Nat
  nextWorker : Nat := 0
  uncompWritten : Nat := 0
  wroteHeader : Bool := false
  deriving DecidableEq, Repr

/-- What the writer thread keeps. -/
structure Drain (σ : Type) where
  w : σ
  compWritten : Nat := 0
  uncompWritten : Nat := 0
  index : Option Index

/-- A call on the caller's thread. -/
abbrev Submit (α : Type) := Thread OrderItem (Stop IoError) MtWriter α

/-- A step of the writer thread. -/
abbrev Put (σ α : Type) := EStateM (Stop IoError) (Drain σ) α

def newMtWriter (b : MtWriterBuilder) : MtWriter where
  blockSize := b.blockSize
  level := b.level
  uncompressed := b.uncompressed
  workers := b.concurrency

def MtWriterBuilder.build (b : MtWriterBuilder) : Except Error MtWriter :=
  if b.blockSize < minBlockSize ∨ b.blockSize > maxBlockSize then
    .error (.config "block_size must be in [MIN_BLOCK_SIZE, MAX_BLOCK_SIZE]")
  else if b.padding > maxBlockSize then
    .error (.config "padding must be ≤ MAX_BLOCK_SIZE")
  else if b.concurrency = 0 then .error (.config "concurrency must be ≥ 1")
  else .ok (newMtWriter b)

namespace MtWriter

/-- Return the error of the writer thread, if there is one. -/
def checkErr : Submit Unit := do
  match ← Thread.check with
  | some e => throw e
  | none => return ()

def collectPipelineError {α : Type} : Submit α := do
  match ← Thread.check with
  | some e => throw e
  | none => throw (.error ⟨.other, "MinLZ MT pipeline closed unexpectedly"⟩)

def submitRaw (bytes : List UInt8) : Submit Unit := do
  if ← Thread.order (.raw bytes) then return () else collectPipelineError

/-- Try the workers in turn, and wait for the one that is tried last. -/
def sendBlockFallback (idx tried : Nat) : Submit Unit := do
  let n := (← get).workers
  Thread.loop (.fault .unfinished) (fun (idx, tried) => do
    let slot := idx % n
    let idx := (idx + 1) % n
    match ← Thread.offer slot with
    | .taken =>
        modify fun self => { self with nextWorker := idx }
        return .done ()
    | .full =>
        if tried + 1 ≥ n then
          if ← Thread.hand slot then return .done () else collectPipelineError
        else return .next (idx, tried + 1)
    | .closed => collectPipelineError) (n + 1) (idx, tried)

section Calls

variable (m : Overflow)

def submitBlock (block : List UInt8) : Submit Unit := do
  let total ← ofExcept (word (m.unsigned ((← get).uncompWritten + block.length)))
  modify fun self => { self with uncompWritten := total }
  let self ← get
  if ← Thread.order (.block ⟨block, self.level, self.uncompressed⟩) then
    let n := self.workers
    let idx := self.nextWorker % n
    modify fun self => { self with nextWorker := (self.nextWorker + 1) % n }
    match ← Thread.offer idx with
    | .taken => return ()
    | .full => sendBlockFallback (idx + 1) 1
    | .closed => collectPipelineError
  else collectPipelineError

def ensureHeader : Submit Unit := do
  let self ← get
  if self.wroteHeader then return ()
  set { self with wroteHeader := true }
  submitRaw (makeStreamHeader self.blockSize)

def writeBlocks (data : List UInt8) : Submit Unit := do
  ensureHeader
  Thread.loop (.fault .unfinished) (fun data => do
    if data = [] then return .done ()
    checkErr
    let n := min data.length (← get).blockSize
    submitBlock m (data.take n)
    return .next (data.drop n)) (data.length + 1) data

def flushIbuf : Submit Unit := do
  let buf := (← get).ibuf
  if buf = [] then return ()
  modify fun self => { self with ibuf := [] }
  writeBlocks m buf

/-- A buffer in one go. -/
def encodeBuffer (buf : List UInt8) : Submit Unit := do
  flushIbuf m
  writeBlocks m buf

def addUserChunk (id : UInt8) (data : List UInt8) : Submit Unit := do
  if ¬(minUserSkippableChunk ≤ id ∧ id ≤ maxUserNonSkippableChunk) then
    throw (.error ⟨.invalidInput, "user-chunk id 0x" ++ hex id ++ " out of range"⟩)
  if data.length > maxUserChunkSize then
    throw (.error ⟨.invalidInput, "user-chunk exceeds maximum size"⟩)
  checkErr
  flushIbuf m
  ensureHeader
  submitRaw (id :: chunkLength data.length ++ data)

def write (p : List UInt8) : Submit Nat := do
  checkErr
  if p = [] then return 0
  Thread.loop (.fault .unfinished) (fun (p, written) => do
    if p = [] then return .done written
    let self ← get
    let free ← ofExcept (word (m.unsigned (self.blockSize - self.ibuf.length)))
    if self.ibuf = [] ∧ p.length ≥ self.blockSize then
      let n := p.length - p.length % self.blockSize
      writeBlocks m (p.take n)
      return .next (p.drop n, written + n)
    else
      let take := min p.length free
      modify fun self => { self with ibuf := self.ibuf ++ p.take take }
      if (← get).ibuf.length = self.blockSize then flushIbuf m
      return .next (p.drop take, written + take)) (p.length + 1) (p, 0)

/-- Hand over what is buffered; the sink is not flushed. -/
def flush : Submit Unit := do
  checkErr
  flushIbuf m

/-- All that `finish` does before it closes the channels and waits for the threads. -/
def closing : Submit Unit := do
  checkErr
  flushIbuf m
  ensureHeader
  let tmp ← ofExcept (eofBytes (← get).uncompWritten)
  submitRaw tmp

end Calls

end MtWriter

/-- The chunk of a block, with its header apart from its body. -/
def BlockJob.output (job : BlockJob) : MinLz.Exec WorkerOutput := do
  let n := job.uncompressed.length
  let compressed ← show MinLz.Exec (Option (List UInt8)) from
    if job.uncompressedMode then .ok none
    else do
      let (obuf, ok) ←
        Block.appendEncodedChunkBody job.level [] (Slice.ofList job.uncompressed)
      return if ok then some obuf else none
  match compressed with
  | some obuf =>
      return ⟨dataHeader chunkTypeMinlzCompressedData obuf.length job.uncompressed, obuf, n⟩
  | none =>
      return ⟨dataHeader chunkTypeUncompressedData n job.uncompressed, job.uncompressed, n⟩

/-- What a worker sends back, unless it panics. -/
def BlockJob.work (job : BlockJob) : Option ReadyItem :=
  match job.output with
  | .ok out => some (.block out)
  | .error (.error e) => some (.marker ("encode: " ++ e.display))
  | .error (.fault _) => none

section Draining

variable {σ : Type} (m : Overflow) (sink : Sink σ)

def drainRaw (p : List UInt8) : Put σ Unit := fun s =>
  match sink.writeAll p s.w with
  | (.ok (), w) => .ok () { s with w }
  | (.error e, w) => .error (.error e) { s with w }

def drainCount (n : Nat) : Put σ Unit := do
  let total ← show Except (Stop IoError) Nat from word (m.unsigned ((← get).compWritten + n))
  modify fun self => { self with compWritten := total }

/-- Note where the next block is. -/
def drainIndex : Put σ Unit := do
  let self ← get
  match self.index with
  | none => return ()
  | some idx =>
      let idx ← ofIndex (Index.add m idx self.compWritten self.uncompWritten)
      modify fun self => { self with index := some idx }

def drainItem : ReadyItem → Put σ Unit
  | .raw bytes => do
      drainRaw sink bytes
      drainCount m bytes.length
  | .marker message => throw (.error ⟨.invalidData, message⟩)
  | .block out => do
      drainIndex m
      drainRaw sink out.hdr
      drainRaw sink out.body
      drainCount m (out.hdr.length + out.body.length)
      let total ← show Except (Stop IoError) Nat from
        word (m.unsigned ((← get).uncompWritten + out.uncompLen))
      modify fun self => { self with uncompWritten := total }

/-- The index at the end, which is built even when it is not appended. -/
def drainIndexBytes (padding : Nat) (appendIndex : Bool) : Put σ (List UInt8) := do
  let self ← get
  match self.index with
  | none => return []
  | some idx =>
      let compTotal := if padding ≤ 1 then some self.compWritten else none
      let (idx, bytes) ← ofIndex (Index.appendTo m idx [] (some self.uncompWritten) compTotal)
      modify fun self => { self with index := some idx }
      if appendIndex then
        drainCount m bytes.length
        return bytes
      else return []

/-- Zeros, 4096 at a time. -/
def drainZeros (n : Nat) : Put σ Unit :=
  Effects.runM (.fault .unfinished) (fun remaining => do
    if remaining > 0 then
      let n := min remaining 4096
      drainRaw sink (List.replicate n 0)
      return .next (remaining - n)
    else return .done ()) (n + 1) n

/-- Pad to a multiple; the index that is still to be written has been counted. -/
def emitMtPadding (multiple : Nat) : Put σ Unit := do
  let leftover := (← get).compWritten % multiple
  if leftover = 0 then return ()
  let toAdd := padTo multiple (multiple - leftover)
  if toAdd > maxBlockSize + chunkHeaderSize then return ()
  let bodyLen := toAdd - chunkHeaderSize
  drainRaw sink (chunkTypePadding :: chunkLength bodyLen)
  drainZeros sink bodyLen
  drainCount m toAdd

/-- What the writer thread does when the order queue has been closed. -/
def drainEnd (padding : Nat) (appendIndex : Bool) : Put σ Unit := do
  let idxBytes ← drainIndexBytes m padding appendIndex
  if padding > 1 then emitMtPadding m sink padding
  if idxBytes ≠ [] then drainRaw sink idxBytes
  fun s =>
    match sink.flush s.w with
    | (.ok (), w) => .ok () { s with w }
    | (.error e, w) => .error (.error e) { s with w }

/-- The state that a step of the writer thread leads to. -/
def drained (x : Put σ Unit) (s : Drain σ) : Except (Stop IoError) (Drain σ) :=
  match x s with
  | .ok _ s => .ok s
  | .error e _ => .error e

end Draining

def newDrain {σ : Type} (b : MtWriterBuilder) (w : σ) : Drain σ where
  w := w
  index := if b.generateIndex || b.appendIndex then some (Index.reset b.blockSize) else none

def mtStages {σ : Type} (m : Overflow) (sink : Sink σ) (b : MtWriterBuilder) :
    Stages OrderItem ReadyItem (Drain σ) σ (Stop IoError) where
  direct
    | .raw _ => true
    | .block _ => false
  result
    | .raw bytes => some (.raw bytes)
    | .block job => job.work
  eat item s := drained (drainItem m sink item) s
  lost := .error ⟨.other, "MinLZ worker exited without producing output"⟩
  noted
    | .error _ => true
    | .fault _ => false
  close s := (drained (drainEnd m sink b.padding b.appendIndex) s).map Drain.w

/-- A call, whose error the caller looks at and goes on. -/
def attempt (x : Submit Unit) : Submit (Except IoError Unit) := fun s => do
  match ← x s with
  | (.ok (), s) => return (.ok (.ok ()), s)
  | (.error (.error e), s) => return (.ok (.error e), s)
  | (.error (.fault f), s) => return (.error (.fault f), s)

inductive MtCall where
  | write (p : List UInt8)
  | flush
  | addUserChunk (id : UInt8) (data : List UInt8)
  | encodeBuffer (buf : List UInt8)
  deriving DecidableEq, Repr

def MtCall.run (m : Overflow) : MtCall → Submit Unit
  | .write p => do
      let _ ← MtWriter.write m p
      return ()
  | .flush => MtWriter.flush m
  | .addUserChunk id data => MtWriter.addUserChunk m id data
  | .encodeBuffer buf => MtWriter.encodeBuffer m buf

/-- The calls and then `finish`, up to where it waits for the threads. -/
def mtSession (m : Overflow) (calls : List MtCall) : Submit (List (Except IoError Unit)) := do
  let results ← calls.mapM fun call => attempt (call.run m)
  MtWriter.closing m
  return results

/-- What `finish` returns, from how the caller's thread and the writer thread end. -/
def mtFinish {σ α : Type} (submitted : Except (Stop IoError) α × MtWriter)
    (result : Except (Stop IoError) σ) : Except (Stop IoError) σ :=
  match submitted.1, result with
  | .error e, _ => .error e
  | .ok _, .ok w => .ok w
  | .ok _, .error (.error e) => .error (.error e)
  | .ok _, .error (.fault _) => .error (.error ⟨.other, "writer thread did not return W"⟩)

/-- Some run of the threads over the calls ends with what `finish` returns. -/
inductive MtProduces {σ : Type} (m : Overflow) (sink : Sink σ) (b : MtWriterBuilder) (w : σ)
    (calls : List MtCall) : Except (Stop IoError) σ → Prop where
  | finished {self : MtWriter} {s : Pipeline.State OrderItem ReadyItem (Drain σ) σ (Stop IoError) _}
      {submitted : Except (Stop IoError) (List (Except IoError Unit)) × MtWriter}
      {result : Except (Stop IoError) σ} (built : b.build = .ok self)
      (run : Pipeline.Run (mtStages m sink b) (b.concurrency + 1)
        (Pipeline.start (mtSession m calls self) (newDrain b w)) s)
      (ended : Pipeline.Ended s submitted result) :
      MtProduces m sink b w calls (mtFinish submitted result)

end MinLz.Stream
