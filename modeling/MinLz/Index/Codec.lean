import MinLz.Index.Offsets
import MinLz.Lib.Effects
import MinLz.Lib.Leb128
import MinLz.Stream.Format

/-! # The index chunk

Totals, block estimate and entry count, then the uncompressed column when the
spacing is not regular, then the compressed one, all as zigzag varints. Each
column holds differences from a prediction. A `Vec<u8>` is the list of its bytes.
-/

namespace MinLz.Index

open Machine (Overflow maxSigned ofWord zigzag unzigzag checkedAdd)
open MinLz.Stream (chunkLength readChunkLen maxUserChunkSize)

def chunkTypeIndex : UInt8 := 0x40
def legacyIndexChunk : UInt8 := 0x99

/-- `"s2idx\0"` -/
def indexHeader : List UInt8 := [0x73, 0x32, 0x69, 0x64, 0x78, 0]

/-- `"\0xdi2s"` -/
def indexTrailer : List UInt8 := [0, 0x78, 0x64, 0x69, 0x32, 0x73]

def skippableFrameHeader : Nat := 4
def maxVarintLen64 : Nat := 10

def fail {α : Type} (e : Error) : Exec α := .error (.error e)

/-- `if bad { return Err(e) }` -/
def reject (bad : Prop) [Decidable bad] (e : Error) : Exec Unit := if bad then fail e else .ok ()

/-- `&b[n..]` -/
def sliceFrom (b : List UInt8) (n : Nat) : Exec (List UInt8) :=
  if n ≤ b.length then .ok (b.drop n) else .error (.fault .panic)

/-- `&b[..n]` -/
def sliceTo (b : List UInt8) (n : Nat) : Exec (List UInt8) :=
  if n ≤ b.length then .ok (b.take n) else .error (.fault .panic)

def byteAt (b : List UInt8) (i : Nat) : Exec UInt8 :=
  match b[i]? with
  | some x => .ok x
  | none => .error (.fault .panic)

def putUvarint (v : Nat) : List UInt8 := Leb128.encode v

def putVarint (v : Int) : List UInt8 := putUvarint (zigzag v)

/-- The value at the head of `b` and the number of bytes it takes. -/
def readUvarint (m : Overflow) (b : List UInt8) : Exec (Nat × Nat) := go 0 0 0 b
where
  go (i x s : Nat) : List UInt8 → Exec (Nat × Nat)
  | [] => fail .truncated
  | byte :: rest =>
      if i = maxVarintLen64 then fail (.invalid "varint overflow")
      else if byte.toNat < 0x80 then
        if i = maxVarintLen64 - 1 ∧ byte.toNat > 1 then fail (.invalid "varint overflow")
        else do return (x ||| (← word (m.shl byte.toNat s)), i + 1)
      else do
        let bits ← word (m.shl (byte.toNat &&& 0x7f) s)
        go (i + 1) (x ||| bits) (s + 7) rest

def readVarint (m : Overflow) (b : List UInt8) : Exec (Int × Nat) := do
  let (u, n) ← readUvarint m b
  return (unzigzag u, n)

/-- A varint and what follows it. -/
def takeVarint (m : Overflow) (b : List UInt8) : Exec (Int × List UInt8) := do
  let (v, n) ← readVarint m b
  return (v, ← sliceFrom b n)

def optToWire : Option Nat → Exec Int
  | none => .ok (-1)
  | some x => if x ≤ maxSigned then .ok x else .error (.fault .panic)

/-- A negative wire value is an unknown total. -/
def wireToOpt (v : Int) : Option Nat := if v < 0 then none else some v.toNat

section Columns

variable (m : Overflow) (est : Nat)

/-- Where the entry after `prev` is when the spacing is regular. -/
def regularUncompressed (prev : Option OffsetPair) : Exec Nat :=
  match prev with
  | none => .ok 0
  | some p => word (m.unsigned (p.uncompressed + est))

def hasUncomp (prev : Option OffsetPair) : List OffsetPair → Exec Bool
  | [] => .ok false
  | info :: rest => do
      let expected ← regularUncompressed m est prev
      if info.uncompressed ≠ expected then return true
      hasUncomp (some info) rest

/-- The distance of an entry from `est` past the one before it. -/
def deltaUncompressed (prev : Option OffsetPair) (info : OffsetPair) : Exec Int :=
  match prev with
  | none => .ok (ofWord info.uncompressed)
  | some p => do
      let expected ← word (m.signed (ofWord p.uncompressed + ofWord est))
      word (m.signed (ofWord info.uncompressed - expected))

/-- The distance of an entry from the prediction, and the next prediction. -/
def deltaCompressed (cPredict : Int) (prev : Option OffsetPair) (info : OffsetPair) :
    Exec (Int × Int) :=
  match prev with
  | none => .ok (ofWord info.compressed, cPredict)
  | some p => do
      let expected ← word (m.signed (ofWord p.compressed + cPredict))
      let c ← word (m.signed (ofWord info.compressed - expected))
      return (c, ← word (m.signed (cPredict + c.tdiv 2)))

def putUncompressed (prev : Option OffsetPair) : List OffsetPair → Exec (List UInt8)
  | [] => .ok []
  | info :: rest => do
      let u ← deltaUncompressed m est prev info
      return putVarint u ++ (← putUncompressed (some info) rest)

def putCompressed (cPredict : Int) (prev : Option OffsetPair) :
    List OffsetPair → Exec (List UInt8)
  | [] => .ok []
  | info :: rest => do
      let (c, cPredict) ← deltaCompressed m cPredict prev info
      return putVarint c ++ (← putCompressed cPredict (some info) rest)

/-- The uncompressed column, left out when the spacing is regular. -/
def columnUncompressed (irregular : Bool) (offsets : List OffsetPair) : Exec (List UInt8) :=
  if irregular then putUncompressed m est none offsets else .ok []

end Columns

/-- What stands between the header and the trailer. -/
def putPayload (m : Overflow) (self : Index) : Exec (List UInt8) := do
  let est := self.estBlockUncomp
  let totalUncomp ← optToWire self.totalUncompressed
  let totalComp ← optToWire self.totalCompressed
  let irregular ← hasUncomp m est none self.offsets
  let us ← columnUncompressed m est irregular self.offsets
  let cs ← putCompressed m (ofWord (est / 2)) none self.offsets
  return putVarint totalUncomp ++ putVarint totalComp ++ putVarint (ofWord est) ++
    putVarint self.offsets.length ++ [if irregular then 1 else 0] ++ us ++ cs

/-- Header, stored size and trailer around a payload. -/
def putChunk (payload : List UInt8) : List UInt8 :=
  let size := 4 + indexHeader.length + payload.length + 4 + indexTrailer.length
  chunkTypeIndex :: chunkLength (size - skippableFrameHeader) ++ indexHeader ++ payload ++
    Slice.leBytes 4 size ++ indexTrailer

/-- Append the index to `buf` as a chunk, with the totals given. -/
def appendTo (m : Overflow) (self : Index) (buf : List UInt8)
    (totalUncomp totalComp : Option Nat) : Exec (Index × List UInt8) := do
  if totalUncomp.any (· > maxSigned) ∨ totalComp.any (· > maxSigned) then
    fail (.invalid "index total exceeds i64 wire range")
  else
    let self ← reduce m self
    let self := { self with totalUncompressed := totalUncomp, totalCompressed := totalComp }
    return (self, buf ++ putChunk (← putPayload m self))

/-- A load that fails keeps what it has stored by then. -/
abbrev Load (α : Type) := EStateM Stop Index α

/-- The bytes after the chunk header and the index header. -/
def loadFrame (bytes : List UInt8) : Exec (List UInt8) := do
  reject (bytes.length ≤ 4 + indexHeader.length + indexTrailer.length) .truncated
  let kind ← byteAt bytes 0
  reject (kind ≠ chunkTypeIndex ∧ kind ≠ legacyIndexChunk) (.badFormat "bad chunk type")
  let chunkLen := readChunkLen (← byteAt bytes 1) (← byteAt bytes 2) (← byteAt bytes 3)
  let b ← sliceFrom bytes 4
  reject (b.length < chunkLen) .truncated
  let header ← sliceTo b indexHeader.length
  reject (header ≠ indexHeader) (.badFormat "bad header")
  sliceFrom b indexHeader.length

/-- Read the totals and the estimate, and make room for the entries. -/
def loadTotals (m : Overflow) (b : List UInt8) : Load (List UInt8) := do
  let (v, b) ← takeVarint m b
  reject (v < 0) (.invalid "negative total uncompressed")
  modify fun self => { self with totalUncompressed := some v.toNat }
  let (v, b) ← takeVarint m b
  modify fun self => { self with totalCompressed := wireToOpt v }
  let (v, b) ← takeVarint m b
  reject (v < 0) (.invalid "negative est_block")
  modify fun self => { self with estBlockUncomp := v.toNat }
  let (v, b) ← takeVarint m b
  reject (v < 0 ∨ v > maxIndexEntries) (.invalid "entry count out of range")
  modify fun self => { self with offsets := List.replicate v.toNat {} }
  return b

/-- An uncompressed offset from its difference to the prediction. -/
def nextUncompressed (est : Int) (prev : Option OffsetPair) (u : Int) : Exec Nat := do
  let u ← match prev with
    | none => .ok u
    | some p =>
        match (checkedAdd (ofWord p.uncompressed) est).bind (checkedAdd u) with
        | none => fail (.invalid "uncompressed offset overflow")
        | some sum =>
            if sum ≤ ofWord p.uncompressed then
              fail (.invalid "non-monotonic uncompressed offset")
            else .ok sum
  if u < 0 then fail (.invalid "negative uncompressed offset") else return u.toNat

/-- A compressed offset, and the prediction for the entry after it. -/
def nextCompressed (cPredict : Int) (prev : Option OffsetPair) (c : Int) : Exec (Nat × Int) := do
  let (c, cPredict) ← match prev with
    | none => .ok (c, cPredict)
    | some p =>
        match checkedAdd cPredict (c.tdiv 2) with
        | none => fail (.invalid "compressed predictor overflow")
        | some predictNext =>
            match (checkedAdd (ofWord p.compressed) cPredict).bind (checkedAdd c) with
            | none => fail (.invalid "compressed offset overflow")
            | some sum =>
                if sum ≤ ofWord p.compressed then
                  fail (.invalid "non-monotonic compressed offset")
                else .ok (sum, predictNext)
  if c < 0 then fail (.invalid "negative compressed offset") else return (c.toNat, cPredict)

section Fill

variable (m : Overflow)

/-- An entry of the uncompressed column; `has` is zero when none is stored. -/
def takeUncompressed (has : UInt8) (est : Int) (prev : Option OffsetPair) (b : List UInt8) :
    Exec (Nat × List UInt8) := do
  let (u, b) ← show Exec (Int × List UInt8) from if has ≠ 0 then takeVarint m b else .ok (0, b)
  return (← nextUncompressed est prev u, b)

def takeCompressed (cPredict : Int) (prev : Option OffsetPair) (b : List UInt8) :
    Exec ((Nat × Int) × List UInt8) := do
  let (c, b) ← takeVarint m b
  return (← nextCompressed cPredict prev c, b)

/-- Store the uncompressed offsets into the entries up to the first that fails. -/
def fillUncompressed (has : UInt8) (est : Int) (prev : Option OffsetPair) :
    List OffsetPair → List UInt8 → List OffsetPair × Exec (List UInt8)
  | [], b => ([], .ok b)
  | info :: rest, b =>
      match takeUncompressed m has est prev b with
      | .error e => (info :: rest, .error e)
      | .ok (u, b) =>
          let info := { info with uncompressed := u }
          let (filled, r) := fillUncompressed has est (some info) rest b
          (info :: filled, r)

/-- Store the compressed offsets into the entries up to the first that fails. -/
def fillCompressed (cPredict : Int) (prev : Option OffsetPair) :
    List OffsetPair → List UInt8 → List OffsetPair × Exec (List UInt8)
  | [], b => ([], .ok b)
  | info :: rest, b =>
      match takeCompressed m cPredict prev b with
      | .error e => (info :: rest, .error e)
      | .ok ((c, cPredict), b) =>
          let info := { info with compressed := c }
          let (filled, r) := fillCompressed cPredict (some info) rest b
          (info :: filled, r)

end Fill

/-- Fill the entries, the uncompressed column first. -/
def loadEntries (m : Overflow) (b : List UInt8) : Load (List UInt8) := do
  reject (b = []) .truncated
  let has ← byteAt b 0
  let b ← sliceFrom b 1
  reject (has.toNat > 1) (.badFormat "invalid has_uncompressed byte")
  let est := ofWord (← get).estBlockUncomp
  let (filled, r) := fillUncompressed m has est none (← get).offsets b
  modify fun self => { self with offsets := filled }
  let b ← r
  let (filled, r) := fillCompressed m (est.tdiv 2) none (← get).offsets b
  modify fun self => { self with offsets := filled }
  r

/-- The bytes after the stored size and the trailer. -/
def loadTrailer (b : List UInt8) : Exec (List UInt8) := do
  reject (b.length < 4 + indexTrailer.length) .truncated
  let b ← sliceFrom b 4
  let trailer ← sliceTo b indexTrailer.length
  reject (trailer ≠ indexTrailer) (.badFormat "bad trailer")
  sliceFrom b indexTrailer.length

/-- Decode an index, the legacy chunk type included, and return the bytes after it. -/
def load (m : Overflow) (bytes : List UInt8) : Load (List UInt8) := do
  let b ← loadFrame bytes
  let b ← loadTotals m b
  let b ← loadEntries m b
  loadTrailer b

/-- A seek to before the start of the source. -/
def seekError : Error := .io ⟨.invalidInput, "invalid seek to a negative or overflowing position"⟩

/-- Load the index at the end of a source. -/
def loadStream (m : Overflow) (data : List UInt8) : Load Unit := do
  reject (data.length < 10) seekError
  let tail := data.drop (data.length - 10)
  reject ((tail.drop 4).take indexTrailer.length ≠ indexTrailer) (.badFormat "trailer not found")
  let sz := (Slice.ofList tail).word 4 0
  reject (sz > maxUserChunkSize + skippableFrameHeader) (.invalid "size exceeds maximum")
  reject (data.length < sz) seekError
  let _ ← load m (data.drop (data.length - sz))
  return ()

end MinLz.Index
