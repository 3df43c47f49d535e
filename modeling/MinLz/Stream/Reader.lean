import MinLz.Block.Codec
import MinLz.Lib.Effects
import MinLz.Lib.Machine
import MinLz.Stream.Crc
import MinLz.Stream.Error
import MinLz.Stream.Format

/-! # The streaming reader

A reader works on a source, the list of the bytes it has not read yet, and decodes
one block at a time. The scratch buffers are left out: what is read from them has
just been written. Offsets in the stream are words whose sums wrap; for the
subtractions of positions, `m` says whether they wrap or panic. `mem` is what spare
capacity holds before a block is decoded into it.
-/

namespace MinLz.Stream

open Block (maxBlockSize)
open Machine (Overflow)
open Effects

/-- A callback for a user chunk and the state it works on. -/
abbrev UserChunkCb (σ : Type) := UInt8 → List UInt8 → σ → Except IoError Unit × σ

structure ReaderBuilder (σ : Type) where
  maxBlockSize : Nat := Block.maxBlockSize
  ignoreStreamId : Bool := false
  ignoreCrc : Bool := false
  /-- looked up for the ids `0x80..=0xfd` only -/
  callbacks : UInt8 → Option (UserChunkCb σ) := fun _ => none

structure Reader (σ : Type) where
  r : List UInt8
  /-- decompressed payload of the current block -/
  decoded : List UInt8 := []
  decodedPos : Nat := 0
  /-- uncompressed offset at the start of the current block -/
  blockStart : UInt64 := 0
  maxBlockUser : Nat
  maxBlock : Nat
  headerRead : Bool
  expectEof : Bool := false
  ignoreStreamId : Bool
  ignoreCrc : Bool
  /-- sticky error; once set, every read returns it -/
  err : Option IoError := none
  callbacks : UInt8 → Option (UserChunkCb σ)
  world : σ

/-- A chunk handler. -/
abbrev Handle (σ α : Type) := EStateM (Stop Error) (Reader σ) α

/-- A call of the reader. -/
abbrev Action (σ α : Type) := EStateM (Stop IoError) (Reader σ) α

variable {σ α : Type}

def withBuilder (b : ReaderBuilder σ) (r : List UInt8) (world : σ) : Reader σ where
  r := r
  maxBlockUser := b.maxBlockSize
  maxBlock := b.maxBlockSize
  headerRead := b.ignoreStreamId
  ignoreStreamId := b.ignoreStreamId
  ignoreCrc := b.ignoreCrc
  callbacks := b.callbacks
  world := world

def ReaderBuilder.build (b : ReaderBuilder σ) (r : List UInt8) (world : σ) :
    Except Error (Reader σ) :=
  if b.maxBlockSize = 0 ∨ b.maxBlockSize > Block.maxBlockSize then
    .error (.config "max_block_size must be in (0, MAX_BLOCK_SIZE]")
  else .ok (withBuilder b r world)

/-- Read from `source` next, with options kept. -/
def reset (self : Reader σ) (source : List UInt8) : Reader σ :=
  { self with
    r := source, decoded := [], decodedPos := 0, blockStart := 0, maxBlock := self.maxBlockUser
    headerRead := self.ignoreStreamId, expectEof := false, err := none }

/-- The uncompressed offset after the current block. -/
def Reader.blockEnd (self : Reader σ) : UInt64 := self.blockStart + self.decoded.length.toUInt64

/-- The uncompressed offset of the next byte. -/
def Reader.currentOffset (self : Reader σ) : UInt64 := self.blockStart + self.decodedPos.toUInt64

/-- `read_exact`; a short source is read to its end. -/
def readExactOrCorrupt (n : Nat) : Handle σ (List UInt8) := fun s =>
  if n ≤ s.r.length then .ok (s.r.take n) { s with r := s.r.drop n }
  else .error (.error .corrupt) { s with r := [] }

/-- `read_exact` into `decoded`, which has been filled with `n` zeros. -/
def readDecoded (n : Nat) : Handle σ Unit := fun s =>
  if n ≤ s.r.length then .ok () { s with decoded := s.r.take n, r := s.r.drop n }
  else .error (.error .corrupt)
    { s with decoded := s.r ++ List.replicate (n - s.r.length) 0, r := [] }

/-- `n` bytes, or `none` at the end of the source when it is allowed there. -/
def readFullOrEof (n : Nat) (allowEof : Bool) : Action σ (Option (List UInt8)) := fun s =>
  if n ≤ s.r.length then .ok (some (s.r.take n)) { s with r := s.r.drop n }
  else if s.r = [] ∧ allowEof then .ok none s
  else .error (.error Error.corrupt.toIo) { s with r := [] }

/-- Drop `n` bytes, 4096 at a time. -/
def skipN (n : Nat) : Handle σ Unit :=
  runM (.fault .unfinished) (fun n => do
    if n > 0 then
      let take := min n 4096
      let _ ← readExactOrCorrupt take
      return .next (n - take)
    else return .done ()) (n + 1) n

def maxBufSize (self : Reader σ) : Nat :=
  (Block.maxEncodedLen self.maxBlock).getD maxBlockSize + checksumSize

def ensureBuf (n : Nat) : Handle σ Unit := do
  reject (n > maxBufSize (← get)) .corrupt

/-- A block body without the varint of its length. -/
def stripDlenVarint (body : List UInt8) : Exec (List UInt8) :=
  match getUvarint body with
  | some (_, n) => .ok (body.drop n)
  | none => .error (.error .corrupt)

/-- The bytes that the checksum of a compressed chunk covers. -/
def toCrc (kind : UInt8) (body decoded : List UInt8) : Exec (List UInt8) :=
  if kind = chunkTypeMinlzCompressedDataCompCrc then stripDlenVarint body else .ok decoded

def verifyCrc (data : List UInt8) (checksum : Nat) : Exec Unit :=
  reject ((Crc.maskedCrc32c data).toNat ≠ checksum) .crc

section Blocks

variable (mem : Nat → UInt8)

/-- Decode the body into `decoded`, which is empty, and check it. -/
def decodeBlock (kind : UInt8) (checksum : Nat) (body : List UInt8) : Handle σ Unit := do
  let out ← ofBlock (Block.appendDecodedChunkBody mem (← get).decoded body)
  modify fun self => { self with decoded := out }
  if (← get).ignoreCrc then return ()
  let covered ← toCrc kind body out
  verifyCrc covered checksum

/-- Read `n` bytes into `decoded` and check them. -/
def readBlock (checksum n : Nat) : Handle σ Unit := do
  readDecoded n
  if (← get).ignoreCrc then return ()
  verifyCrc (← get).decoded checksum

def handleCompressedChunk (kind : UInt8) (chunkLen : Nat) : Handle σ Unit := do
  reject (chunkLen < checksumSize) .corrupt
  modify fun self => { self with blockStart := self.blockEnd }
  ensureBuf chunkLen
  let buf ← readExactOrCorrupt chunkLen
  let checksum := readU32Le buf
  let body := buf.drop checksumSize
  let dlen ← ofBlock (Block.decodedLenChunkBody body)
  reject (dlen > (← get).maxBlock) .tooLarge
  modify fun self => { self with decoded := [] }
  decodeBlock mem kind checksum body
  modify fun self => { self with decodedPos := 0 }

def handleUncompressedChunk (chunkLen : Nat) : Handle σ Unit := do
  reject (chunkLen < checksumSize) .corrupt
  modify fun self => { self with blockStart := self.blockEnd }
  let n := chunkLen - checksumSize
  reject (n > (← get).maxBlock) .tooLarge
  ensureBuf checksumSize
  let checksum := readU32Le (← readExactOrCorrupt checksumSize)
  readBlock checksum n
  modify fun self => { self with decodedPos := 0 }

/-- Drop the block if it is within the next `n` bytes, else decode it and stop in it.
    The result is what is left of `n`. -/
def skipCompressedOrDecode (kind : UInt8) (chunkLen n : Nat) : Handle σ Nat := do
  reject (chunkLen < checksumSize) .corrupt
  ensureBuf chunkLen
  let buf ← readExactOrCorrupt chunkLen
  let checksum := readU32Le buf
  let body := buf.drop checksumSize
  let dlen ← ofBlock (Block.decodedLenChunkBody body)
  reject (dlen > (← get).maxBlock) .tooLarge
  if dlen > n then
    modify fun self => { self with blockStart := self.blockEnd, decoded := [] }
    decodeBlock mem kind checksum body
    modify fun self => { self with decodedPos := n }
    return 0
  else
    modify fun self =>
      { self with blockStart := self.blockEnd + dlen.toUInt64, decoded := [], decodedPos := 0 }
    return n - dlen

def skipUncompressedOrDecode (chunkLen n : Nat) : Handle σ Nat := do
  reject (chunkLen < checksumSize) .corrupt
  let n2 := chunkLen - checksumSize
  reject (n2 > (← get).maxBlock) .tooLarge
  if n2 > n then
    modify fun self => { self with blockStart := self.blockEnd }
    ensureBuf checksumSize
    let checksum := readU32Le (← readExactOrCorrupt checksumSize)
    readBlock checksum n2
    modify fun self => { self with decodedPos := n }
    return 0
  else
    modify fun self =>
      { self with blockStart := self.blockEnd + n2.toUInt64, decoded := [], decodedPos := 0 }
    skipN chunkLen
    return n - n2

end Blocks

/-- The length that the end of a stream states is that of the stream. -/
def checkTotal (self : Reader σ) (tmp : List UInt8) : Exec Unit :=
  if self.ignoreStreamId then .ok ()
  else
    match getUvarint tmp with
    | none => .error (.error .corrupt)
    | some (wantSize, n) => do
        reject (n ≠ tmp.length) .corrupt
        reject (wantSize ≠ self.blockEnd.toNat) .corrupt

/-- The body of the chunk that ends a stream, which may be empty. -/
def readTotal (chunkLen : Nat) : Handle σ Unit := do
  if chunkLen ≠ 0 then
    let tmp ← readExactOrCorrupt chunkLen
    checkTotal (← get) tmp

def handleEofChunk (chunkLen : Nat) : Handle σ Unit := do
  reject (chunkLen > maxVarintLen64) .corrupt
  readTotal chunkLen
  modify fun self => { self with expectEof := false, headerRead := false }

/-- The block size that a stream identifier states. -/
def identifierBlockSize (tmp : List UInt8) : Exec Nat := do
  reject (tmp.take magicBody.length ≠ magicBody) .unsupported
  let indicator := tmp.getD (magicBodyLen - 1) 0
  reject (indicator &&& 0xc0 ≠ 0) .corrupt
  match blockSizeFromIndicator indicator with
  | none => .error (.error .corrupt)
  | some newMax => return newMax

def handleStreamIdentifier (chunkLen : Nat) : Handle σ Unit := do
  reject (chunkLen ≠ magicBodyLen) .corrupt
  let tmp ← readExactOrCorrupt magicBodyLen
  let newMax ← identifierBlockSize tmp
  reject (newMax > (← get).maxBlockUser) .tooLarge
  modify fun self =>
    { self with
      maxBlock := newMax, blockStart := 0, decoded := [], decodedPos := 0, expectEof := true }

/-- Read a user chunk and hand it to its callback. -/
def callback (cb : UserChunkCb σ) (kind : UInt8) (chunkLen : Nat) : Handle σ Unit := fun s =>
  match readExactOrCorrupt chunkLen s with
  | .error (.error e) s => .error (.error (.io e.toIo)) s
  | .error (.fault f) s => .error (.fault f) s
  | .ok payload s =>
      match cb kind payload s.world with
      | (.ok (), world) => .ok () { s with world }
      | (.error e, world) => .error (.error (.io e)) { s with world }

/-- The callback for a chunk, which only user chunks have. -/
def callbackFor (self : Reader σ) (kind : UInt8) : Option (UserChunkCb σ) :=
  if minUserSkippableChunk ≤ kind ∧ kind ≤ maxUserNonSkippableChunk then self.callbacks kind
  else none

/-- A user chunk with its callback; any other is dropped, unless it must not be. -/
def handleSkippable (kind : UInt8) (chunkLen : Nat) : Handle σ Unit := do
  match callbackFor (← get) kind with
  | some cb => callback cb kind chunkLen
  | none =>
      reject (minUserNonSkippableChunk ≤ kind ∧ kind ≤ maxUserNonSkippableChunk) .corrupt
      skipN chunkLen

/-- A chunk without data, by its type. -/
def handleOther (kind : UInt8) (chunkLen : Nat) : Handle σ Unit :=
  if kind = chunkTypeEof then handleEofChunk chunkLen
  else if kind = chunkTypeStreamIdentifier then handleStreamIdentifier chunkLen
  else if kind ≤ maxNonSkippableChunk then throw (.error .unsupported)
  else handleSkippable kind chunkLen

/-- Fail with `e`, and go on failing with it. -/
def setErr (e : IoError) : Action σ α := fun s => .error (.error e) { s with err := some e }

/-- A handler whose error becomes the sticky one. -/
def sticky (x : Handle σ α) : Action σ α := fun s =>
  match x s with
  | .ok a s => .ok a s
  | .error (.fault f) s => .error (.fault f) s
  | .error (.error e) s => setErr e.toIo s

/-- Return the sticky error, if there is one. -/
def checkErr : Action σ Unit := do
  match (← get).err with
  | some e => throw (.error e)
  | none => return ()

/-- The first chunk of a stream has to be its identifier; other chunks that a reader
    may ignore can come before it. -/
def checkHeader (kind : UInt8) : Action σ Unit := do
  if (← get).headerRead = false then
    if kind = chunkTypeStreamIdentifier then modify fun self => { self with headerRead := true }
    else if kind ≤ maxNonSkippableChunk ∧ kind ≠ chunkTypeEof then setErr Error.corrupt.toIo

/-- A chunk by its type; the result for one without data is `other`. -/
def dispatch (compressed uncompressed : Handle σ α) (other : α) (kind : UInt8) (chunkLen : Nat) :
    Handle σ α :=
  if kind = chunkTypeMinlzCompressedData ∨ kind = chunkTypeMinlzCompressedDataCompCrc then
    compressed
  else if kind = chunkTypeUncompressedData then uncompressed
  else do
    handleOther kind chunkLen
    return other

/-- Read the next chunk, or report the end of the source. -/
def nextChunk (compressed : UInt8 → Nat → Handle σ α) (uncompressed : Nat → Handle σ α)
    (other : α) : Action σ (Option α) := do
  match ← readFullOrEof chunkHeaderSize (!(← get).expectEof) with
  | none => return none
  | some hdr =>
      let kind := hdr.getD 0 0
      let chunkLen := readChunkLen (hdr.getD 1 0) (hdr.getD 2 0) (hdr.getD 3 0)
      checkHeader kind
      let a ← sticky (dispatch (compressed kind chunkLen) (uncompressed chunkLen) other kind chunkLen)
      return some a

variable (m : Overflow) (mem : Nat → UInt8)

/-- The unread bytes of the current block. -/
def available (self : Reader σ) : Except (Stop IoError) Nat :=
  word (m.unsigned (self.decoded.length - self.decodedPos))

def fillStep (_ : Unit) : Action σ (Iter Unit Bool) := do
  let self ← get
  if self.decodedPos < self.decoded.length then return .done true
  match ← nextChunk (handleCompressedChunk mem) handleUncompressedChunk () with
  | none => return .done false
  | some () => return .next ()

/-- Whether there are unread bytes, after reading chunks until there are; the stream
    has ended when there are none. -/
def fillDecoded : Action σ Bool := do
  runM (.fault .unfinished) (fillStep mem) ((← get).r.length + 1) ()

/-- Read into a buffer of `len` bytes. -/
def read (len : Nat) : Action σ (List UInt8) := do
  checkErr
  if len = 0 then return []
  if !(← fillDecoded mem) then return []
  let self ← get
  let n := min (← available m self) len
  modify fun self => { self with decodedPos := self.decodedPos + n }
  return (self.decoded.drop self.decodedPos).take n

def fillBuf : Action σ (List UInt8) := do
  checkErr
  if !(← fillDecoded mem) then return []
  let self ← get
  return self.decoded.drop self.decodedPos

def consume (amt : Nat) : Action σ Unit := do
  let self ← get
  let amt := min amt (← available m self)
  let pos ← show Except (Stop IoError) Nat from word (m.unsigned (self.decodedPos + amt))
  modify fun self => { self with decodedPos := pos }

/-- A pass of `skip` with `n` bytes to go. -/
def skipStep (n : Nat) : Action σ (Iter Nat Unit) := do
  if n = 0 then return .done ()
  let avail ← available m (← get)
  if avail ≥ n then
    modify fun self => { self with decodedPos := self.decodedPos + n }
    return .done ()
  else
    let n := n - avail
    modify fun self => { self with decodedPos := self.decoded.length }
    match ← nextChunk (skipCompressedOrDecode mem · · n) (skipUncompressedOrDecode · n) n with
    | none => setErr unexpectedEof
    | some n => return .next n

/-- Skip `n` decoded bytes, whole blocks without decoding them. -/
def skip (n : Nat) : Action σ Unit := do
  checkErr
  runM (.fault .unfinished) (skipStep m mem) ((← get).r.length + 1) n

end MinLz.Stream
