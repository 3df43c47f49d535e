import MinLz.Lib.ShiftRegister
import MinLz.Stream.Crc

/-! # The implementations of CRC32C

The checksum is a shift register that takes the data bit by bit. The tables advance it
eight bits and more at once; the hardware takes words, and runs three streams side by
side that are folded into one. All of them give the same checksum, which can be
continued from where it was left.
-/

namespace MinLz.Stream.Crc

open ShiftRegister

/-- The bits of the data, those of a byte from the lowest up. -/
def bitStream (data : List UInt8) : List Bool := data.flatMap fun b => bits 8 b.toBitVec

/-- The register after the data. -/
def register (c : UInt32) (data : List UInt8) : UInt32 :=
  ⟨feed poly.toBitVec c.toBitVec (bitStream data)⟩

/-- CRC32C bit by bit. -/
def crc32cBits (crc : UInt32) (data : List UInt8) : UInt32 := ~~~register (~~~crc) data

/-- `u64::from_le_bytes` -/
def le64 (chunk : List UInt8) : UInt64 := chunk.foldr (fun b v => (v <<< 8) ||| b.toUInt64) 0

def mmCrc32U64 (c v : UInt64) : UInt64 :=
  (UInt32.ofBitVec (feed poly.toBitVec c.toUInt32.toBitVec (bits 64 v.toBitVec))).toUInt64

def mmCrc32U8 (c : UInt32) (v : UInt8) : UInt32 :=
  ⟨feed poly.toBitVec c.toBitVec (bits 8 v.toBitVec)⟩

def crc32cd (c : UInt32) (v : UInt64) : UInt32 :=
  ⟨feed poly.toBitVec c.toBitVec (bits 64 v.toBitVec)⟩

def crc32cb (c : UInt32) (v : UInt8) : UInt32 :=
  ⟨feed poly.toBitVec c.toBitVec (bits 8 v.toBitVec)⟩

/-- The instructions of a processor and the register they work on. -/
structure Hardware (γ : Type) where
  enter : UInt32 → γ
  leave : γ → UInt32
  step64 : γ → UInt64 → γ
  step8 : UInt32 → UInt8 → UInt32

def x8664 : Hardware UInt64 := ⟨UInt32.toUInt64, UInt64.toUInt32, mmCrc32U64, mmCrc32U8⟩

def aarch64 : Hardware UInt32 := ⟨id, id, crc32cd, crc32cb⟩

def strideBytes : Nat := 1024

/-- Zero bytes through the byte table. -/
def zeroBytes : Nat → UInt32 → UInt32
  | 0, c => c
  | j + 1, c => zeroBytes j (table (c &&& 0xff) ^^^ (c >>> 8))

def shiftTable (k b : UInt32) : UInt32 := zeroBytes strideBytes (b <<< (k * 8))

def shiftCrc (crc : UInt32) : UInt32 :=
  shiftTable 0 (crc &&& 0xff) ^^^ shiftTable 1 ((crc >>> 8) &&& 0xff) ^^^
    shiftTable 2 ((crc >>> 16) &&& 0xff) ^^^ shiftTable 3 ((crc >>> 24) &&& 0xff)

section Streams

variable {γ : Type} (hw : Hardware γ)

/-- The word at `i`. -/
def readUnaligned (data : List UInt8) (i : Nat) : UInt64 := le64 ((data.drop i).take 8)

/-- `while i < STRIDE_BYTES` -/
def streams (data : List UInt8) (i : Nat) (c0 c1 c2 : γ) : γ × γ × γ :=
  if i < strideBytes then
    streams data (i + 8) (hw.step64 c0 (readUnaligned data i))
      (hw.step64 c1 (readUnaligned data (strideBytes + i)))
      (hw.step64 c2 (readUnaligned data (2 * strideBytes + i)))
  else (c0, c1, c2)
termination_by strideBytes - i

/-- `while data.len() >= 3 * STRIDE_BYTES` -/
def strides (c : UInt32) (data : List UInt8) : UInt32 × List UInt8 :=
  if 3 * strideBytes ≤ data.length then
    let (c0, c1, c2) := streams hw data 0 (hw.enter c) (hw.enter 0) (hw.enter 0)
    let cAb := shiftCrc (hw.leave c0) ^^^ hw.leave c1
    strides (shiftCrc cAb ^^^ hw.leave c2) (data.drop (3 * strideBytes))
  else (c, data)
termination_by data.length
decreasing_by
  rw [List.length_drop]
  have : 0 < strideBytes := Nat.zero_lt_succ _
  omega

/-- `chunks_exact(8)` and its remainder -/
def words (c : γ) (data : List UInt8) : γ × List UInt8 :=
  if 8 ≤ data.length then words (hw.step64 c (le64 (data.take 8))) (data.drop 8) else (c, data)
termination_by data.length
decreasing_by
  rw [List.length_drop]
  omega

def crc32cHw (crc : UInt32) (data : List UInt8) : UInt32 :=
  let (c, data) := strides hw (~~~crc) data
  let (c, remainder) := words hw (hw.enter c) data
  ~~~remainder.foldl hw.step8 (hw.leave c)

end Streams

def crc32cHwX8664 : UInt32 → List UInt8 → UInt32 := crc32cHw x8664

def crc32cHwAarch64 : UInt32 → List UInt8 → UInt32 := crc32cHw aarch64

/-- What `select_impl` chooses from. -/
inductive Impl where
  | hwX8664
  | hwAarch64
  | updateTable
  deriving DecidableEq, Repr

/-- `dispatch()(crc, data)` -/
def crc32cUpdate : Impl → UInt32 → List UInt8 → UInt32
  | .hwX8664 => crc32cHwX8664
  | .hwAarch64 => crc32cHwAarch64
  | .updateTable => crc32cUpdateTable

theorem bitStream_append (a b : List UInt8) : bitStream (a ++ b) = bitStream a ++ bitStream b :=
  List.flatMap_append

theorem bitStream_length (data : List UInt8) : (bitStream data).length = 8 * data.length := by
  induction data with
  | nil => rfl
  | cons b data ih =>
      rw [show bitStream (b :: data) = bits 8 b.toBitVec ++ bitStream data from rfl,
        List.length_append, bits_length, ih, List.length_cons]
      omega

theorem register_append (c : UInt32) (a b : List UInt8) :
    register c (a ++ b) = register (register c a) b := by
  apply UInt32.toBitVec_inj.mp
  rw [register, bitStream_append, feed_append]
  rfl

/-- The register after `n` zero bits. -/
def zeros (n : Nat) (c : UInt32) : UInt32 := ⟨advance poly.toBitVec n c.toBitVec⟩

theorem zeros_xor (n : Nat) (c d : UInt32) : zeros n (c ^^^ d) = zeros n c ^^^ zeros n d :=
  UInt32.toBitVec_inj.mp (advance_xor poly.toBitVec n c.toBitVec d.toBitVec)

theorem zeros_zeros (m n : Nat) (c : UInt32) : zeros n (zeros m c) = zeros (m + n) c :=
  UInt32.toBitVec_inj.mp (advance_add poly.toBitVec m n c.toBitVec).symm

theorem zeros_zero (n : Nat) : zeros n 0 = 0 :=
  UInt32.toBitVec_inj.mp (advance_zero poly.toBitVec n)

/-- A checksum that was left at `c` is that of the rest alone, plus `c` moved past it. -/
theorem register_eq (c : UInt32) (data : List UInt8) :
    register c data = zeros (8 * data.length) c ^^^ register 0 data := by
  apply UInt32.toBitVec_inj.mp
  rw [← bitStream_length]
  exact feed_eq poly.toBitVec c.toBitVec (bitStream data)

theorem zeros_low (c : UInt32) : zeros 8 c = zeros 8 (c &&& 0xff) ^^^ (c >>> 8) :=
  UInt32.toBitVec_inj.mp (advance_low poly.toBitVec 8 c.toBitVec)

theorem low_bit (c : UInt32) : c &&& 1 ≠ 0 ↔ c.toBitVec.getLsbD 0 = true := by
  rw [Ne, ← UInt32.toBitVec_inj, UInt32.toBitVec_and, show (1 : UInt32).toBitVec = 1#32 from rfl,
    BitVec.and_one_eq_setWidth_ofBool_getLsbD]
  cases c.toBitVec.getLsbD 0 <;> simp

theorem shiftByte_eq (n : Nat) (c : UInt32) : shiftByte n c = zeros n c := by
  induction n generalizing c with
  | zero => rfl
  | succ n ih =>
      rw [shiftByte, ih]
      have pushed : (if c &&& 1 ≠ 0 then (c >>> 1) ^^^ poly else c >>> 1) =
          ⟨push poly.toBitVec c.toBitVec false⟩ := by
        rw [push, Bool.xor_false]
        by_cases out : c &&& 1 ≠ 0
        · rw [if_pos out, if_pos ((low_bit c).mp out)]
          rfl
        · rw [if_neg out, if_neg (out ∘ (low_bit c).mpr)]
          rfl
      rw [pushed]
      rfl

theorem table_eq (c : UInt32) : table c = zeros 8 c := shiftByte_eq 8 c

/-- A step through the byte table. -/
theorem table_step (c : UInt32) : table (c &&& 0xff) ^^^ (c >>> 8) = zeros 8 c := by
  rw [table_eq, ← zeros_low]

theorem sliceTable_eq (k : Nat) (b : UInt32) : sliceTable k b = zeros (8 * (k + 1)) b := by
  induction k with
  | zero => exact table_eq b
  | succ k ih =>
      rw [sliceTable, UInt32.xor_comm, table_step, ih, zeros_zeros]
      rfl

theorem zeroBytes_eq (n : Nat) (c : UInt32) : zeroBytes n c = zeros (8 * n) c := by
  induction n generalizing c with
  | zero => rfl
  | succ n ih =>
      rw [zeroBytes, table_step, ih, zeros_zeros, Nat.mul_succ, Nat.add_comm]

theorem byte_above (b : UInt8) : b.toUInt32 >>> 8 = 0 := by
  apply UInt32.toBitVec_inj.mp
  apply BitVec.eq_of_getLsbD_eq
  intro i _
  simp

/-- A byte through the byte table. -/
theorem table_byte (c : UInt32) (b : UInt8) :
    table ((c ^^^ b.toUInt32) &&& 0xff) ^^^ (c >>> 8) = register c [b] := by
  have moved : (c ^^^ b.toUInt32) >>> 8 = c >>> 8 := by
    rw [UInt32.shiftRight_xor, byte_above, UInt32.xor_zero]
  rw [← moved, table_step]
  apply UInt32.toBitVec_inj.mp
  have taken := advance_bits poly.toBitVec 8 c.toBitVec b.toUInt32.toBitVec
  have above : b.toUInt32.toBitVec >>> 8 = 0#32 := congrArg UInt32.toBitVec (byte_above b)
  have same : bits 8 b.toUInt32.toBitVec = bits 8 b.toBitVec := by
    apply bits_congr
    intro i inside
    have wide : i < 32 := by omega
    simp [inside, wide]
  rw [above, BitVec.xor_zero, same] at taken
  rw [register, show bitStream [b] = bits 8 b.toBitVec from List.append_nil _]
  exact taken

theorem updateTail_eq (c : UInt32) (data : List UInt8) : updateTail c data = register c data := by
  induction data generalizing c with
  | nil => rfl
  | cons b data ih =>
      rw [updateTail, table_byte, ih, ← register_append]
      rfl

theorem bits_le32 (b0 b1 b2 b3 : UInt8) :
    bits 32 (le32 b0 b1 b2 b3).toBitVec = bitStream [b0, b1, b2, b3] := by
  have bytes (v : BitVec 32) : bits 32 v =
      bits 8 v ++ (bits 8 (v >>> 8) ++ (bits 8 (v >>> 16) ++ bits 8 (v >>> 24))) := by
    rw [bits_add 8 24, bits_add 8 16, bits_add 8 8]
    rfl
  have stream : bitStream [b0, b1, b2, b3] = bits 8 b0.toBitVec ++
      (bits 8 b1.toBitVec ++ (bits 8 b2.toBitVec ++ bits 8 b3.toBitVec)) := by
    simp [bitStream]
  rw [bytes, stream]
  congr 1
  · apply bits_congr
    intro i inside
    simp [le32]
    grind
  · congr 1
    · apply bits_congr
      intro i inside
      simp [le32]
      grind
    · congr 1
      all_goals
        apply bits_congr
        intro i inside
        simp [le32]
        grind

/-- Four bytes are taken as a word that is added to the register. -/
theorem zeros_le32 (c : UInt32) (b0 b1 b2 b3 : UInt8) :
    zeros 32 (le32 b0 b1 b2 b3 ^^^ c) = register c [b0, b1, b2, b3] := by
  rw [UInt32.xor_comm]
  apply UInt32.toBitVec_inj.mp
  have taken := advance_bits poly.toBitVec 32 c.toBitVec (le32 b0 b1 b2 b3).toBitVec
  have above : (le32 b0 b1 b2 b3).toBitVec >>> 32 = 0#32 := by
    apply BitVec.eq_of_getLsbD_eq
    intro i _
    simp
  rw [above, BitVec.xor_zero, bits_le32] at taken
  exact taken

theorem zeros_byte (n : Nat) (c : UInt32) :
    zeros (8 + n) c = zeros (8 + n) (c &&& 0xff) ^^^ zeros n (c >>> 8) := by
  rw [← zeros_zeros, zeros_low, zeros_xor, zeros_zeros]

/-- A register is moved past four bytes and more one byte of its own after the other. -/
theorem zeros_bytes (n : Nat) (c : UInt32) :
    zeros (32 + n) c = zeros (32 + n) (c &&& 0xff) ^^^ zeros (24 + n) ((c >>> 8) &&& 0xff) ^^^
      zeros (16 + n) ((c >>> 16) &&& 0xff) ^^^ zeros (8 + n) ((c >>> 24) &&& 0xff) := by
  have second : c >>> 8 >>> 8 = c >>> 16 := by
    apply UInt32.toBitVec_inj.mp
    exact (BitVec.shiftRight_add c.toBitVec 8 8).symm
  have third : c >>> 16 >>> 8 = c >>> 24 := by
    apply UInt32.toBitVec_inj.mp
    exact (BitVec.shiftRight_add c.toBitVec 16 8).symm
  have gone : c >>> 24 >>> 8 = 0 := by
    apply UInt32.toBitVec_inj.mp
    apply BitVec.eq_of_getLsbD_eq
    intro i _
    simp
  have first := zeros_byte (24 + n) c
  have next := zeros_byte (16 + n) (c >>> 8)
  have later := zeros_byte (8 + n) (c >>> 16)
  have last := zeros_byte n (c >>> 24)
  rw [← Nat.add_assoc] at first next later
  rw [first, next, second, later, third, last, gone, zeros_zero, UInt32.xor_zero]
  simp only [UInt32.xor_assoc]

theorem updateChunks_eq (c : UInt32) (data : List UInt8) :
    updateChunks c data = register c data := by
  fun_induction updateChunks c data with
  | case1 c b0 b1 b2 b3 b4 b5 b6 b7 rest v0 v1 ih =>
      rw [ih]
      have split : b0 :: b1 :: b2 :: b3 :: b4 :: b5 :: b6 :: b7 :: rest =
          [b0, b1, b2, b3] ++ ([b4, b5, b6, b7] ++ rest) := rfl
      rw [split, register_append, register_append]
      congr 1
      rw [← zeros_le32 c, ← zeros_le32]
      have high := zeros_bytes 32 v0
      have low := zeros_bytes 0 v1
      have both : zeros 32 (v1 ^^^ zeros 32 v0) = zeros (32 + 32) v0 ^^^ zeros (32 + 0) v1 := by
        rw [zeros_xor, zeros_zeros, UInt32.xor_comm]
      rw [both, high, low]
      simp only [sliceTable_eq, UInt32.xor_assoc]
  | case2 c rest => exact updateTail_eq c rest

theorem crc32cUpdateTable_eq (crc : UInt32) (data : List UInt8) :
    crc32cUpdateTable crc data = crc32cBits crc data :=
  congrArg (~~~·) (updateChunks_eq (~~~crc) data)

theorem zeros_shift (n : Nat) (c : UInt32) :
    zeros n c = zeros n (c &&& 0xff) ^^^ zeros n (((c >>> 8) &&& 0xff) <<< 8) ^^^
      zeros n (((c >>> 16) &&& 0xff) <<< 16) ^^^ zeros n (((c >>> 24) &&& 0xff) <<< 24) := by
  rw [← zeros_xor, ← zeros_xor, ← zeros_xor]
  congr 1
  apply UInt32.toBitVec_inj.mp
  apply BitVec.eq_of_getLsbD_eq
  intro i inside
  have mask (i : Nat) : (255#32).getLsbD i = (decide (i < 32) && decide (i < 8)) := by
    rw [show 255#32 = BitVec.ofNat 32 (2 ^ 8 - 1) from rfl, BitVec.getLsbD_ofNat,
      Nat.testBit_two_pow_sub_one]
  simp [mask]
  grind

theorem shiftTable_eq (k b : UInt32) : shiftTable k b = zeros (8 * strideBytes) (b <<< (k * 8)) :=
  zeroBytes_eq strideBytes _

/-- Folding moves a register past one stream. -/
theorem shiftCrc_eq (c : UInt32) : shiftCrc c = zeros (8 * strideBytes) c := by
  rw [shiftCrc, zeros_shift _ c]
  rw [shiftTable_eq, shiftTable_eq, shiftTable_eq, shiftTable_eq,
    show (0 : UInt32) * 8 = 0 from rfl, show (1 : UInt32) * 8 = 8 from rfl,
    show (2 : UInt32) * 8 = 16 from rfl, show (3 : UInt32) * 8 = 24 from rfl, UInt32.shiftLeft_zero]

/-- A word is taken like its bytes. -/
theorem bits_le64 (chunk : List UInt8) (short : chunk.length ≤ 8) :
    bits (8 * chunk.length) (le64 chunk).toBitVec = bitStream chunk := by
  induction chunk with
  | nil => rfl
  | cons b chunk ih =>
      rw [List.length_cons] at short ⊢
      have low (i : Nat) (above : 8 ≤ i) : b.toUInt64.toBitVec.getLsbD i = false := by
        simp [above]
      have first : bits 8 b.toUInt64.toBitVec = bits 8 b.toBitVec := by
        apply bits_congr
        intro i inside
        have wide : i < 64 := by omega
        simp [inside, wide]
      have split := bits_or_shift (n := 8 * chunk.length) b.toUInt64.toBitVec
        (le64 chunk).toBitVec (by omega) low
      rw [first, ih (by omega)] at split
      rw [show 8 * (chunk.length + 1) = 8 + 8 * chunk.length by omega]
      exact split

/-- The instructions are steps of the register. -/
structure Lawful {γ : Type} (hw : Hardware γ) : Prop where
  entered : ∀ c, hw.leave (hw.enter c) = c
  word : ∀ c chunk, chunk.length = 8 →
    hw.leave (hw.step64 c (le64 chunk)) = register (hw.leave c) chunk
  byte : ∀ c b, hw.step8 c b = register c [b]

theorem feed_le64 (c : UInt32) {chunk : List UInt8} (eight : chunk.length = 8) :
    UInt32.ofBitVec (feed poly.toBitVec c.toBitVec (bits 64 (le64 chunk).toBitVec)) =
      register c chunk := by
  have taken := bits_le64 chunk (Nat.le_of_eq eight)
  rw [eight] at taken
  rw [taken]
  rfl

theorem feed_byte (c : UInt32) (b : UInt8) :
    UInt32.ofBitVec (feed poly.toBitVec c.toBitVec (bits 8 b.toBitVec)) = register c [b] := by
  rw [register, show bitStream [b] = bits 8 b.toBitVec from List.append_nil _]

theorem x8664_lawful : Lawful x8664 where
  entered c := UInt32.toUInt32_toUInt64 c
  word _ _ eight := (UInt32.toUInt32_toUInt64 _).trans (feed_le64 _ eight)
  byte := feed_byte

theorem aarch64_lawful : Lawful aarch64 where
  entered _ := rfl
  word c _ eight := feed_le64 c eight
  byte := feed_byte

section Streams

variable {γ : Type} {hw : Hardware γ}

theorem Lawful.read (law : Lawful hw) (c : γ) (data : List UInt8) (i n : Nat)
    (inside : i + 8 ≤ data.length) :
    register (hw.leave (hw.step64 c (readUnaligned data i))) ((data.drop (i + 8)).take n) =
      register (hw.leave c) ((data.drop i).take (8 + n)) := by
  have eight : ((data.drop i).take 8).length = 8 := by
    rw [List.length_take, List.length_drop]
    omega
  rw [readUnaligned, law.word c _ eight, ← register_append, ← List.drop_drop, ← List.take_add]

/-- Each stream takes its own bytes. -/
theorem Lawful.streams (law : Lawful hw) {data : List UInt8}
    (whole : 3 * strideBytes ≤ data.length) (n i : Nat) (left : i + 8 * n = strideBytes)
    (c0 c1 c2 : γ) :
    ((Crc.streams hw data i c0 c1 c2).map hw.leave (Prod.map hw.leave hw.leave)) =
      (register (hw.leave c0) ((data.drop i).take (8 * n)),
        register (hw.leave c1) ((data.drop (strideBytes + i)).take (8 * n)),
        register (hw.leave c2) ((data.drop (2 * strideBytes + i)).take (8 * n))) := by
  induction n generalizing i c0 c1 c2 with
  | zero =>
      rw [Crc.streams, if_neg (by omega), List.take_zero, List.take_zero, List.take_zero]
      rfl
  | succ n ih =>
      rw [Crc.streams, if_pos (by omega), ih (i + 8) (by omega), ← Nat.add_assoc, ← Nat.add_assoc,
        law.read _ data i _ (by omega), law.read _ data (strideBytes + i) _ (by omega),
        law.read _ data (2 * strideBytes + i) _ (by omega), Nat.mul_succ, Nat.add_comm]

/-- Folding two checksums into the one that follows. -/
theorem register_fold (c : UInt32) (a b rest : List UInt8) (stride : b.length = strideBytes)
    (stride' : rest.length = strideBytes) :
    shiftCrc (shiftCrc (register c a) ^^^ register 0 b) ^^^ register 0 rest =
      register c (a ++ b ++ rest) := by
  have two : shiftCrc (register c a) ^^^ register 0 b = register c (a ++ b) := by
    rw [shiftCrc_eq, ← stride, ← register_eq, ← register_append]
  rw [two, shiftCrc_eq, ← stride', ← register_eq, ← register_append]

theorem Lawful.strides (law : Lawful hw) (c : UInt32) (data : List UInt8) :
    register (Crc.strides hw c data).1 (Crc.strides hw c data).2 = register c data := by
  fun_induction Crc.strides hw c data with
  | case1 c data whole c0 c1 c2 ran cAb ih =>
      have taken := law.streams whole (strideBytes / 8) 0 rfl (hw.enter c) (hw.enter 0) (hw.enter 0)
      rw [ran] at taken
      obtain ⟨first, second, third⟩ : hw.leave c0 = register c (data.take strideBytes) ∧
          hw.leave c1 = register 0 ((data.drop strideBytes).take strideBytes) ∧
          hw.leave c2 = register 0 ((data.drop (2 * strideBytes)).take strideBytes) := by
        simpa only [Prod.map, Prod.mk.injEq, law.entered, List.drop_zero, Nat.add_zero,
          show 8 * (strideBytes / 8) = strideBytes from rfl] using taken
      have pieces : data.take (3 * strideBytes) = data.take strideBytes ++
          (data.drop strideBytes).take strideBytes ++
          (data.drop (2 * strideBytes)).take strideBytes := by
        rw [← List.take_add, ← Nat.two_mul, ← List.take_add, ← Nat.succ_mul]
      have folded : shiftCrc cAb ^^^ hw.leave c2 = register c (data.take (3 * strideBytes)) := by
        rw [pieces, ← register_fold, ← first, ← second, ← third]
        · rw [List.length_take, List.length_drop]
          omega
        · rw [List.length_take, List.length_drop]
          omega
      rw [ih, folded, ← register_append, List.take_append_drop]
  | case2 c data short => rfl

theorem Lawful.remainder (law : Lawful hw) (c : UInt32) (data : List UInt8) :
    data.foldl hw.step8 c = register c data := by
  induction data generalizing c with
  | nil => rfl
  | cons b data ih =>
      rw [List.foldl_cons, ih, law.byte, ← register_append]
      rfl

theorem Lawful.words (law : Lawful hw) (c : γ) (data : List UInt8) :
    (Crc.words hw c data).2.foldl hw.step8 (hw.leave (Crc.words hw c data).1) =
      register (hw.leave c) data := by
  fun_induction Crc.words hw c data with
  | case1 c data long ih =>
      have eight : (data.take 8).length = 8 := List.length_take_of_le long
      rw [ih, law.word _ _ eight, ← register_append, List.take_append_drop]
  | case2 c data short =>
      exact law.remainder (hw.leave c) data

theorem Lawful.crc32cHw (law : Lawful hw) (crc : UInt32) (data : List UInt8) :
    Crc.crc32cHw hw crc data = crc32cBits crc data := by
  show ~~~(Crc.words hw (hw.enter (Crc.strides hw (~~~crc) data).1) _).2.foldl _ _ = _
  rw [law.words, law.entered, law.strides]
  rfl

end Streams

/-- Every implementation computes CRC32C bit by bit, from any checksum to continue, and a
    checksum is continued as if the data had been one piece. -/
theorem crc32cUpdate_correct (impl : Impl) (crc : UInt32) :
    (∀ data, crc32cUpdate impl crc data = crc32cBits crc data) ∧
      ∀ a b, crc32cUpdate impl (crc32cUpdate impl crc a) b = crc32cUpdate impl crc (a ++ b) := by
  have correct (crc : UInt32) (data : List UInt8) :
      crc32cUpdate impl crc data = crc32cBits crc data := by
    cases impl with
    | hwX8664 => exact x8664_lawful.crc32cHw crc data
    | hwAarch64 => exact aarch64_lawful.crc32cHw crc data
    | updateTable => exact crc32cUpdateTable_eq crc data
  refine ⟨correct crc, fun a b => ?_⟩
  rw [correct, correct, correct, crc32cBits, crc32cBits, crc32cBits, UInt32.not_not,
    ← register_append]

end MinLz.Stream.Crc
