import MinLz.Block.LoadStore

/-! # Block format constants and varints -/

namespace MinLz.Block

/-- Maximum uncompressed block size, 8 MiB. -/
def maxBlockSize : Nat := 8 <<< 20

def tagLiteral : Nat := 0
def tagRepeat : Nat := 1 <<< 2
def tagCopy1 : Nat := 1
def tagCopy2 : Nat := 2
def tagCopy3 : Nat := 3 ||| 4
def tagCopy2Fused : Nat := 3

-- true offsets, after adding the bias of their encoding
def maxCopy1Offset : Nat := 1024
def minCopy2Offset : Nat := 64
def maxCopy2Offset : Nat := minCopy2Offset + 65535
def minCopy3Offset : Nat := 65536
def maxCopy3Offset : Nat := (2 <<< 20) + 65535

def copyLitBits : Nat := 2
def maxCopy2Lits : Nat := 1 <<< copyLitBits
def maxCopy3Lits : Nat := (1 <<< copyLitBits) - 1

/-- Longest copy of a fused Copy2; its tag stores `length - 4` in three bits. -/
def copy2LitMaxLen : Nat := 7 + 4

/-- The hot loops keep this many bytes readable past their position. -/
def inputMargin : Nat := 8

def minNonLiteralBlockSize : Nat := 16

theorem maxCopy1Offset_eq : maxCopy1Offset = 1024 := rfl

theorem minCopy2Offset_eq : minCopy2Offset = 64 := rfl

theorem maxCopy2Offset_eq : maxCopy2Offset = 65599 := rfl

theorem minCopy3Offset_eq : minCopy3Offset = 65536 := rfl

theorem maxCopy3Offset_eq : maxCopy3Offset = 2162687 := rfl

theorem copy2LitMaxLen_eq : copy2LitMaxLen = 11 := rfl

def maxEncodedLen (n : Nat) : Option Nat :=
  if n > maxBlockSize then none
  else if n = 0 then some 1
  else some (n + 2)

def putUvarint (v : Nat) : List UInt8 := Leb128.encode v

def getUvarint (src : List UInt8) : Option (Nat × Nat) := (Leb128.decode src).toOption

theorem getUvarint_put {v : Nat} (h : v < 2 ^ 64) (t : List UInt8) :
    getUvarint (putUvarint v ++ t) = some (v, (putUvarint v).length) := by
  simp [getUvarint, putUvarint, Leb128.decode_encode h, Except.toOption]

end MinLz.Block
