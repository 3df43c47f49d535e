import MinLz.Block.Codec
import MinLz.Index.Codec
import MinLz.Lib.Effects
import MinLz.Lib.Machine
import MinLz.Stream.Crc
import MinLz.Stream.Error
import MinLz.Stream.Format

/-! # The streaming writer

A writer buffers its input up to one block and writes chunks to a sink, which may fail
at any call. The scratch buffer for an encoded block is left out: it is cleared before
it is used. `m` says whether the byte counts and the index wrap or panic when they
leave 64 bits.
-/

namespace MinLz.Stream

open Block (maxBlockSize)
open Machine (Overflow)
open Effects

/-- `io::Write`, of which a writer uses these calls. -/
structure Sink (σ : Type) where
  writeAll : List UInt8 → σ → Except IoError Unit × σ
  flush : σ → Except IoError Unit × σ

/-- A `Vec<u8>`, which takes everything. -/
def Sink.vec : Sink (List UInt8) where
  writeAll p w := (.ok (), w ++ p)
  flush w := (.ok (), w)

structure WriterBuilder where
  blockSize : Nat := defaultBlockSize
  level : Block.Level := .balanced
  uncompressed : Bool := false
  padding : Nat := 0
  flushOnWrite : Bool := false
  generateIndex : Bool := true
  appendIndex : Bool := false
  deriving DecidableEq, Repr

structure Writer (σ : Type) where
  w : σ
  /-- input that does not fill a block yet -/
  ibuf : List UInt8 := []
  blockSize : Nat
  level : Block.Level
  uncompressed : Bool
  padding : Nat
  flushOnWrite : Bool
  appendIndex : Bool
  index : Option Index
  wroteHeader : Bool := false
  uncompWritten : Nat := 0
  compWritten : Nat := 0
  /-- the error of the sink; once set, every call returns it -/
  err : Option IoError := none

/-- A call of the writer. -/
abbrev Emit (σ α : Type) := EStateM (Stop IoError) (Writer σ) α

variable {σ : Type}

def newWriter (w : σ) (b : WriterBuilder) : Writer σ where
  w := w
  blockSize := b.blockSize
  level := b.level
  uncompressed := b.uncompressed
  padding := b.padding
  flushOnWrite := b.flushOnWrite
  appendIndex := b.appendIndex
  index := if b.generateIndex || b.appendIndex then some (Index.reset b.blockSize) else none

def WriterBuilder.build (b : WriterBuilder) (w : σ) : Except Error (Writer σ) :=
  if b.blockSize < minBlockSize ∨ b.blockSize > maxBlockSize then
    .error (.config "block_size must be in [MIN_BLOCK_SIZE, MAX_BLOCK_SIZE]")
  else if b.padding > maxBlockSize then
    .error (.config "padding must be ≤ MAX_BLOCK_SIZE")
  else .ok (newWriter w b)

/-- Write to `w` next, with options kept. -/
def resetWriter (self : Writer σ) (w : σ) : Writer σ :=
  { self with
    w := w, ibuf := [], wroteHeader := false, uncompWritten := 0, compWritten := 0, err := none
    index := self.index.map fun _ => Index.reset self.blockSize }

def ofStream {α : Type} : Exec α → Except (Stop IoError) α
  | .ok a => .ok a
  | .error (.fault f) => .error (.fault f)
  | .error (.error e) => .error (.error e.toIo)

def ofIndex {α : Type} : Index.Exec α → Except (Stop IoError) α
  | .ok a => .ok a
  | .error (.fault f) => .error (.fault f)
  | .error (.error e) => .error (.error e.toIo)

def refuse {α : Type} (message : String) : Except (Stop IoError) α :=
  .error (.error ⟨.invalidInput, message⟩)

/-- Two hexadecimal digits. -/
def hex (b : UInt8) : String :=
  String.ofList [Nat.digitChar (b.toNat / 16), Nat.digitChar (b.toNat % 16)]

/-- The header of a data chunk, with the checksum of its block. -/
def dataHeader (kind : UInt8) (n : Nat) (block : List UInt8) : List UInt8 :=
  kind :: chunkLength (checksumSize + n) ++ Slice.leBytes 4 (Crc.maskedCrc32c block).toNat

/-- The chunk that ends a stream of `total` bytes, its varint put into ten bytes of zeros. -/
def eofBytes (total : Nat) : Except (Stop IoError) (List UInt8) := do
  let (tmp, n) ← word (putUvarint (List.replicate maxVarintLen64 0) total)
  return [chunkTypeEof, UInt8.ofNat n, 0, 0] ++ tmp.take n

/-- `while to_add < CHUNK_HEADER_SIZE { to_add += multiple }` -/
def padTo (multiple toAdd : Nat) : Nat :=
  if _h : 0 < multiple ∧ toAdd < chunkHeaderSize then padTo multiple (toAdd + multiple) else toAdd
termination_by chunkHeaderSize - toAdd
decreasing_by omega

section Calls

variable (m : Overflow) (sink : Sink σ)

/-- Write to the sink, whose error stays. -/
def putRaw (p : List UInt8) : Emit σ Unit := fun s =>
  match sink.writeAll p s.w with
  | (.ok (), w) => .ok () { s with w }
  | (.error e, w) => .error (.error e) { s with w, err := some e }

def countWritten (n : Nat) : Emit σ Unit := do
  let total ← show Except (Stop IoError) Nat from word (m.unsigned ((← get).compWritten + n))
  modify fun self => { self with compWritten := total }

def countAccepted (n : Nat) : Emit σ Unit := do
  let total ← show Except (Stop IoError) Nat from word (m.unsigned ((← get).uncompWritten + n))
  modify fun self => { self with uncompWritten := total }

def writeAllTracked (p : List UInt8) : Emit σ Unit := do
  putRaw sink p
  countWritten m p.length

def ensureHeader : Emit σ Unit := do
  let self ← get
  if self.wroteHeader = false then
    writeAllTracked m sink (makeStreamHeader self.blockSize)
    modify fun self => { self with wroteHeader := true }

/-- Note the position of the next block in the index, if there is one. -/
def addToIndex : Emit σ Unit := do
  let self ← get
  match self.index with
  | none => return ()
  | some idx =>
      let idx ← ofIndex (Index.add m idx self.compWritten self.uncompWritten)
      modify fun self => { self with index := some idx }

/-- The body of a block when it is shorter than the block. -/
def encodeBody (self : Writer σ) (block : List UInt8) : Except (Stop IoError) (Option (List UInt8)) :=
  if self.uncompressed then .ok none
  else do
    let (obuf, ok) ←
      ofStream (ofBlock (Block.appendEncodedChunkBody self.level [] (Slice.ofList block)))
    return if ok then some obuf else none

def emitBlock (block : List UInt8) : Emit σ Unit := do
  addToIndex m
  match ← encodeBody (← get) block with
  | some body =>
      writeAllTracked m sink (dataHeader chunkTypeMinlzCompressedData body.length block)
      writeAllTracked m sink body
  | none =>
      writeAllTracked m sink (dataHeader chunkTypeUncompressedData block.length block)
      writeAllTracked m sink block

def writeBlock (data : List UInt8) : Emit σ (Loop.Iter (List UInt8) Unit) := do
  if data = [] then return .done ()
  let n := min data.length (← get).blockSize
  emitBlock m sink (data.take n)
  countAccepted m n
  return .next (data.drop n)

/-- Write the data as blocks of `blockSize` bytes and a last shorter one. -/
def writeBlocks (data : List UInt8) : Emit σ Unit := do
  ensureHeader m sink
  runM (.fault .unfinished) (writeBlock m sink) (data.length + 1) data

def flushIbuf : Emit σ Unit := do
  let buf := (← get).ibuf
  if buf = [] then return ()
  modify fun self => { self with ibuf := [] }
  writeBlocks m sink buf

def emitEof : Emit σ Unit := do
  let tmp ← show Except (Stop IoError) (List UInt8) from eofBytes (← get).uncompWritten
  writeAllTracked m sink tmp

/-- Zeros, 4096 at a time. -/
def putZeros (n : Nat) : Emit σ Unit :=
  runM (.fault .unfinished) (fun remaining => do
    if remaining > 0 then
      let n := min remaining 4096
      writeAllTracked m sink (List.replicate n 0)
      return .next (remaining - n)
    else return .done ()) (n + 1) n

def putPadding (bodyLen : Nat) : Emit σ Unit := do
  writeAllTracked m sink (chunkTypePadding :: chunkLength bodyLen)
  putZeros m sink bodyLen

/-- Pad what has been written to a multiple of `padding`. -/
def emitPadding : Emit σ Unit := do
  let self ← get
  let leftover := self.compWritten % self.padding
  let toAdd := padTo self.padding (self.padding - leftover)
  if self.padding < 2 ∨ leftover = 0 ∨ toAdd > maxBlockSize + chunkHeaderSize then return ()
  putPadding m sink (toAdd - chunkHeaderSize)

def checkWriter : Emit σ Unit := do
  match (← get).err with
  | some e => throw (.error e)
  | none => return ()

def flushSink : Emit σ Unit := fun s =>
  match sink.flush s.w with
  | (.ok (), w) => .ok () { s with w }
  | (.error e, w) => .error (.error e) { s with w }

/-- The encoded index if it is wanted; it is counted as written when it is to be appended. -/
def buildIndexBytes (buildIndex : Bool) : Emit σ (List UInt8) := do
  let self ← get
  if !buildIndex then return []
  match self.index with
  | none => throw (.fault .panic)
  | some idx =>
      let compTotal := if self.padding ≤ 1 then some self.compWritten else none
      let (idx, bytes) ← ofIndex (Index.appendTo m idx [] (some self.uncompWritten) compTotal)
      modify fun self => { self with index := some idx }
      if self.appendIndex then countWritten m bytes.length
      return bytes

def putIndex (indexBytes : List UInt8) : Emit σ Unit := do
  if (← get).appendIndex ∧ indexBytes ≠ [] then putRaw sink indexBytes

/-- Write out what is left and end the stream; an index comes after the padding. -/
def closeInner (buildIndex : Bool) : Emit σ (List UInt8) := do
  flushIbuf m sink
  ensureHeader m sink
  emitEof m sink
  let indexBytes ← buildIndexBytes m buildIndex
  emitPadding m sink
  putIndex sink indexBytes
  flushSink sink
  return indexBytes

def addUserChunk (id : UInt8) (data : List UInt8) : Emit σ Unit := do
  if ¬(minUserSkippableChunk ≤ id ∧ id ≤ maxUserNonSkippableChunk) then
    refuse ("user-chunk id 0x" ++ hex id ++ " out of range")
  else if data.length > maxUserChunkSize then refuse "user-chunk exceeds maximum size"
  else
    checkWriter
    flushIbuf m sink
    ensureHeader m sink
    writeAllTracked m sink (id :: chunkLength data.length)
    writeAllTracked m sink data

/-- End the stream and give back the sink. -/
def finish : Emit σ σ := do
  checkWriter
  let _ ← closeInner m sink (← get).appendIndex
  return (← get).w

/-- End the stream and give the encoded index. -/
def closeIndex : Emit σ (List UInt8) := do
  checkWriter
  if (← get).index = none then
    refuse "minlz: close_index called but generate_index is false"
  else closeInner m sink true

/-- A pass of `write` with the rest of its input and the bytes taken. -/
def writeStep (t : List UInt8 × Nat) : Emit σ (Loop.Iter (List UInt8 × Nat) Nat) := do
  let (p, written) := t
  if p = [] then return .done written
  let self ← get
  let free ← show Except (Stop IoError) Nat from
    word (m.unsigned (self.blockSize - self.ibuf.length))
  if self.ibuf = [] ∧ p.length ≥ self.blockSize then
    let n := p.length - p.length % self.blockSize
    writeBlocks m sink (p.take n)
    return .next (p.drop n, written + n)
  else
    let take := min p.length free
    modify fun self => { self with ibuf := self.ibuf ++ p.take take }
    if (← get).ibuf.length = self.blockSize then flushIbuf m sink
    return .next (p.drop take, written + take)

/-- Take all of `p`; whole blocks are written out. -/
def write (p : List UInt8) : Emit σ Nat := do
  checkWriter
  if p = [] then return 0
  if (← get).flushOnWrite then
    writeBlocks m sink p
    return p.length
  runM (.fault .unfinished) (writeStep m sink) (p.length + 1) (p, 0)

def flush : Emit σ Unit := do
  checkWriter
  flushIbuf m sink
  flushSink sink

end Calls

end MinLz.Stream
