import MinLz.Block.Format
import MinLz.Io

/-! # Stream format constants and headers

A chunk is its type, three bytes of length and its body. The stream identifier
holds the block size of the stream as an indicator byte.
-/

namespace MinLz.Stream

open Block (maxBlockSize)

def minBlockSize : Nat := 4 <<< 10
def defaultBlockSize : Nat := 2 <<< 20
def maxBlockLog : Nat := 23
def maxUserChunkSize : Nat := (1 <<< 24) - 1

def minUserSkippableChunk : UInt8 := 0x80
def maxUserSkippableChunk : UInt8 := 0xbf
def minUserNonSkippableChunk : UInt8 := 0xc0
def maxUserNonSkippableChunk : UInt8 := 0xfd
def chunkTypePadding : UInt8 := 0xfe
def chunkTypeStreamIdentifier : UInt8 := 0xff
def chunkTypeUncompressedData : UInt8 := 0x01
def chunkTypeMinlzCompressedData : UInt8 := 0x02
def chunkTypeMinlzCompressedDataCompCrc : UInt8 := 0x03
def chunkTypeEof : UInt8 := 0x20
def maxNonSkippableChunk : UInt8 := 0x3f

def checksumSize : Nat := 4
def chunkHeaderSize : Nat := 4

/-- `"MinLz"` -/
def magicBody : List UInt8 := [0x4d, 0x69, 0x6e, 0x4c, 0x7a]
def magicBodyLen : Nat := magicBody.length + 1
def maxVarintLen64 : Nat := 10

/-- The low three bytes of a chunk length. -/
def chunkLength (n : Nat) : List UInt8 :=
  [UInt8.ofNat n, UInt8.ofNat (n >>> 8), UInt8.ofNat (n >>> 16)]

def readChunkLen (b0 b1 b2 : UInt8) : Nat := b0.toNat ||| b1.toNat <<< 8 ||| b2.toNat <<< 16

/-- `u32::from_le_bytes` of the first four bytes. -/
def readU32Le (b : List UInt8) : Nat := (Slice.ofList b).word 4 0

/-- The indicator of a block size, from the number of bits of `blockSize - 1`. -/
def blockSizeIndicator (blockSize : Nat) : UInt8 := UInt8.ofNat (Nat.size (blockSize - 1) - 10)

/-- The block size of an indicator; `none` when it is out of range. -/
def blockSizeFromIndicator (indicator : UInt8) : Option Nat :=
  let n := (indicator &&& 15).toNat + 10
  if n > maxBlockLog then none else some (1 <<< n)

/-- The stream identifier chunk. -/
def makeStreamHeader (blockSize : Nat) : List UInt8 :=
  chunkTypeStreamIdentifier :: chunkLength magicBodyLen ++ magicBody ++
    [blockSizeIndicator blockSize]

/-- The slice with `value` put at its start, and the number of bytes that takes; `none` is
    the panic of an index past the end of the slice. -/
def putUvarint : List UInt8 → Nat → Option (List UInt8 × Nat)
  | [], _ => none
  | _ :: dst, value =>
      if value ≥ 0x80 then do
        let (dst, i) ← putUvarint dst (value >>> 7)
        return ((UInt8.ofNat value ||| 0x80) :: dst, i + 1)
      else some (UInt8.ofNat value :: dst, 1)

def getUvarint (src : List UInt8) : Option (Nat × Nat) := (Leb128.decode src).toOption

/-- `k` bytes hold a value of `7 * k` bits. -/
private theorem putUvarint_go (k value : Nat) (dst : List UInt8) (room : k + 1 ≤ dst.length)
    (small : value < 2 ^ (7 * (k + 1))) :
    putUvarint dst value = some (Leb128.encode.go (k + 1) value ++
      dst.drop (Leb128.encode.go (k + 1) value).length, (Leb128.encode.go (k + 1) value).length) := by
  induction k generalizing value dst with
  | zero =>
      cases dst with
      | nil => cases room
      | cons b dst =>
          have single : ¬ value ≥ 0x80 := by
            norm_num at small
            omega
          simp [putUvarint, Leb128.encode.go, single]
  | succ k ih =>
      cases dst with
      | nil => cases room
      | cons b dst =>
          rw [putUvarint, Leb128.encode.go]
          split
          · have byte : UInt8.ofNat value ||| 0x80 = UInt8.ofNat (value ||| 0x80) :=
              (UInt8.ofNat_or value 0x80).symm
            have rest := ih (value >>> 7) dst (Nat.le_of_succ_le_succ room) (by
              rw [Nat.shiftRight_eq_div_pow, Nat.div_lt_iff_lt_mul (by norm_num), ← pow_add]
              exact small)
            rw [rest, byte]
            rfl
          · rfl

/-- Ten bytes are enough for every 64-bit value. -/
theorem putUvarint_room {value : Nat} (small : value < 2 ^ 64) {dst : List UInt8}
    (room : maxVarintLen64 ≤ dst.length) :
    putUvarint dst value = some (Leb128.encode value ++ dst.drop (Leb128.encode value).length,
      (Leb128.encode value).length) :=
  putUvarint_go 9 value dst room (by omega)

theorem readChunkLen_chunkLength (n : Nat) : readChunkLen (UInt8.ofNat n) (UInt8.ofNat (n >>> 8))
    (UInt8.ofNat (n >>> 16)) = n % 2 ^ 24 := Bits.three_bytes n

theorem readChunkLen_lt (b0 b1 b2 : UInt8) : readChunkLen b0 b1 b2 < 2 ^ 24 := by
  have h0 := b0.toNat_lt
  have h1 := b1.toNat_lt
  have h2 := b2.toNat_lt
  rw [readChunkLen, Bits.or_three _ h0 h1]
  omega

/-- Three bytes are the length bytes of the number they hold. -/
theorem chunkLength_readChunkLen (b0 b1 b2 : UInt8) :
    chunkLength (readChunkLen b0 b1 b2) = [b0, b1, b2] := by
  have h0 := b0.toNat_lt
  have h1 := b1.toNat_lt
  have h2 := b2.toNat_lt
  have byte {x : Nat} {b : UInt8} (h : x % 256 = b.toNat) : UInt8.ofNat x = b := by
    apply UInt8.toNat.inj
    rw [UInt8.toNat_ofNat', ← h]
  rw [chunkLength, readChunkLen, Bits.or_three _ h0 h1]
  simp only [Nat.shiftRight_eq_div_pow]
  rw [byte (b := b0) (by omega), byte (b := b1) (by omega), byte (b := b2) (by omega)]

end MinLz.Stream
