import MinLz.Lib.Bytes

/-! # Masked CRC32C

The portable implementation: eight bytes at a time through eight tables, then the
rest byte by byte.
-/

namespace MinLz.Stream.Crc

def poly : UInt32 := 0x82f63b78

/-- A register after eight zero bits. -/
def shiftByte : Nat → UInt32 → UInt32
  | 0, c => c
  | j + 1, c => shiftByte j (if c &&& 1 ≠ 0 then (c >>> 1) ^^^ poly else c >>> 1)

def table (i : UInt32) : UInt32 := shiftByte 8 i

/-- The byte table shifted by `k` further bytes. -/
def sliceTable : Nat → UInt32 → UInt32
  | 0, b => table b
  | k + 1, b =>
      let prev := sliceTable k b
      (prev >>> 8) ^^^ table (prev &&& 0xff)

/-- The bytes that do not fill a chunk. -/
def updateTail (c : UInt32) : List UInt8 → UInt32
  | [] => c
  | b :: rest => updateTail (table ((c ^^^ b.toUInt32) &&& 0xff) ^^^ (c >>> 8)) rest

def le32 (b0 b1 b2 b3 : UInt8) : UInt32 :=
  b0.toUInt32 ||| (b1.toUInt32 <<< 8) ||| (b2.toUInt32 <<< 16) ||| (b3.toUInt32 <<< 24)

def updateChunks (c : UInt32) : List UInt8 → UInt32
  | b0 :: b1 :: b2 :: b3 :: b4 :: b5 :: b6 :: b7 :: rest =>
      let v0 := le32 b0 b1 b2 b3 ^^^ c
      let v1 := le32 b4 b5 b6 b7
      updateChunks
        (sliceTable 7 (v0 &&& 0xff) ^^^ sliceTable 6 ((v0 >>> 8) &&& 0xff) ^^^
          sliceTable 5 ((v0 >>> 16) &&& 0xff) ^^^ sliceTable 4 ((v0 >>> 24) &&& 0xff) ^^^
          sliceTable 3 (v1 &&& 0xff) ^^^ sliceTable 2 ((v1 >>> 8) &&& 0xff) ^^^
          sliceTable 1 ((v1 >>> 16) &&& 0xff) ^^^ sliceTable 0 ((v1 >>> 24) &&& 0xff)) rest
  | rest => updateTail c rest

def crc32cUpdateTable (crc : UInt32) (data : List UInt8) : UInt32 :=
  ~~~updateChunks (~~~crc) data

def crc32c (data : List UInt8) : UInt32 := crc32cUpdateTable 0 data

def maskCrc32c (c : UInt32) : UInt32 := ((c >>> 15) ||| (c <<< 17)) + 0xa282ead8

def maskedCrc32c (data : List UInt8) : UInt32 := maskCrc32c (crc32c data)

/-- `"123456789"` -/
example : crc32c [0x31, 0x32, 0x33, 0x34, 0x35, 0x36, 0x37, 0x38, 0x39] = 0xe3069283 := by
  decide +kernel

end MinLz.Stream.Crc
