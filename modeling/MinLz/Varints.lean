import MinLz.Index.Loaded

/-! # The three varint decoders

Blocks, streams and the index each have a decoder of their own. On every string
of bytes the three do the same, and none of them shifts too far: with checked
shifts they run to the same end.
-/

namespace MinLz

open Machine (Overflow Fits)

/-- The block's `getUvarint` as the machine runs it; `none` is a panic. -/
def Block.runUvarint (m : Overflow) (src : List UInt8) : Option (Option (Nat × Nat)) :=
  (Leb128.scan m.shl src).map Except.toOption

/-- The stream's `getUvarint` as the machine runs it; `none` is a panic. -/
def Stream.runUvarint (m : Overflow) (src : List UInt8) : Option (Option (Nat × Nat)) :=
  (Leb128.scan m.shl src).map Except.toOption

section

variable (m : Overflow)

theorem scan_machine (src : List UInt8) : Leb128.scan m.shl src = some (Leb128.decode src) :=
  Leb128.scan_eq (fun x _ below => Machine.shl_ok m x below) src

theorem Index.readVarint_put {i : Int} (fits : Fits i) (t : List UInt8) :
    Index.readVarint m (Index.putVarint i ++ t) = .ok (i, (Index.putVarint i).length) := by
  have read : Leb128.decode (Index.putVarint i ++ t) =
      .ok (Machine.zigzag i, (Index.putVarint i).length) :=
    Leb128.decode_encode (Machine.zigzag_lt fits) t
  rw [Index.readVarint, Index.readUvarint_eq, read]
  simp only [Except.mapError, Index.ok_bind, Index.pure_ok, Machine.unzigzag_zigzag fits]

/-- What the three decoders do with `src`. -/
structure Alike (src : List UInt8) : Prop where
  block : Block.runUvarint m src = some (Block.getUvarint src)
  stream : Stream.runUvarint m src = some (Stream.getUvarint src)
  same : Stream.getUvarint src = Block.getUvarint src
  index : ∀ r, Index.readUvarint m src = .ok r ↔ Block.getUvarint src = some r
  sound : ∀ f, Index.readUvarint m src ≠ .error (.fault f)
  rejects : Block.getUvarint src = none ↔ Leb128.Rejected src

theorem alike (src : List UInt8) : Alike m src := by
  have errors := Leb128.decode_error_iff src
  constructor
  · rw [Block.runUvarint, scan_machine]
    rfl
  · rw [Stream.runUvarint, scan_machine]
    rfl
  · rfl
  · intro r
    rw [Index.readUvarint_eq, Block.getUvarint]
    cases Leb128.decode src <;> simp [Except.mapError, Except.toOption]
  · intro f
    rw [Index.readUvarint_eq]
    cases Leb128.decode src <;> simp [Except.mapError]
  · rw [← errors, Block.getUvarint]
    cases Leb128.decode src <;> simp [Except.toOption]

/-- Each decoder reads back what its encoder wrote and nothing beyond it, the three
    agree on every string of bytes, and signed varints are read back too. -/
theorem varints_agree :
    (∀ (v : UInt64) (t : List UInt8),
      Block.getUvarint (Block.putUvarint v.toNat ++ t) =
        some (v.toNat, (Block.putUvarint v.toNat).length) ∧
      (∀ dst : List UInt8, Stream.maxVarintLen64 ≤ dst.length → ∃ written : List UInt8,
        Stream.putUvarint dst v.toNat =
          some (written ++ dst.drop written.length, written.length) ∧ written.length ≤ 10 ∧
        Stream.getUvarint (written ++ t) = some (v.toNat, written.length)) ∧
      Index.readUvarint m (Index.putUvarint v.toNat ++ t) =
        .ok (v.toNat, (Index.putUvarint v.toNat).length) ∧
      (Block.putUvarint v.toNat).length ≤ 10 ∧ (Index.putUvarint v.toNat).length ≤ 10) ∧
    (∀ src, Alike m src) ∧
    ∀ (i : Int64) (t : List UInt8), Index.readVarint m (Index.putVarint i.toInt ++ t) =
      .ok (i.toInt, (Index.putVarint i.toInt).length) := by
  refine ⟨?_, alike m, ?_⟩
  · intro v t
    have read := Block.getUvarint_put v.toNat_lt t
    have short := Leb128.length_encode v.toNat
    refine ⟨read, fun dst room => ?_, ((alike m _).index _).mpr read, short, short⟩
    exact ⟨Leb128.encode v.toNat, Stream.putUvarint_room v.toNat_lt room, short, read⟩
  · intro i t
    exact Index.readVarint_put m ⟨i.le_toInt, i.toInt_lt⟩ t

theorem varints_agree_twelve : ∃ written : List UInt8,
    Stream.putUvarint (List.replicate 12 0) 300 =
      some (written ++ (List.replicate 12 0).drop written.length, written.length) ∧
    written.length ≤ 10 ∧ Stream.getUvarint (written ++ [7]) = some (300, written.length) :=
  ((varints_agree .panics).1 300 [7]).2.1 (List.replicate 12 0) (by decide)

end

end MinLz
