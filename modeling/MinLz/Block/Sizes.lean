import MinLz.Block.Written

/-! # Sizes foretold

The matcher of the smallest level weighs its candidates by what they would cost
without emitting them. For copies and repeats the forecast is the true cost. For
literals it is true but at one length: the forecast steps to a four-byte header
at 65565 bytes, the emitter one byte later.
-/

namespace MinLz.Block

/-- Whatever the slice and the position, `emit` takes `k` bytes. -/
def Costs (emit : Slice → Nat → Exec (Slice × Nat)) (k : Nat) : Prop :=
  ∃ bs, bs.length = k ∧ ∀ dst d, Writes (emit dst d) dst d bs

theorem Costs.unique {emit : Slice → Nat → Exec (Slice × Nat)} {k k' : Nat} (h : Costs emit k)
    (h' : Costs emit k') : k = k' := by
  obtain ⟨bs, rfl, writes⟩ := h
  obtain ⟨bs', rfl, writes'⟩ := h'
  let dst : Slice := ⟨bs.length + bs'.length, fun _ => 0⟩
  have run := (writes dst 0).fits (by simp [dst])
  have run' := (writes' dst 0).fits (by simp [dst])
  rw [run] at run'
  simpa using (Prod.mk.inj (Except.ok.inj run')).2

theorem bitLength_extra {v : Nat} (pos : 0 < v) (bound : v < 2 ^ 24) :
    (Nat.log2 v + 1 + 7) / 8 = extraBytes v := by
  have nonzero : v ≠ 0 := Nat.ne_of_gt pos
  have byte := Nat.log2_lt (k := 8) nonzero
  have two := Nat.log2_lt (k := 16) nonzero
  have three := (Nat.log2_lt (k := 24) nonzero).mpr bound
  rw [extraBytes]
  split_ifs <;> omega

theorem emitRepeatSize_eq {length : Nat} (some : 1 ≤ length) :
    emitRepeatSize length = (repeatBytes length).length := by
  rw [length_repeatBytes, emitRepeatSize, repeatExtra, extraBytes]
  simp only
  split_ifs <;> omega

theorem emitCopy2Size_eq (offset : Nat) {length : Nat} (long : 4 ≤ length) :
    emitCopy2Size length = .ok (copy2Bytes offset length).length := by
  obtain ⟨rest, short⟩ := copy_range long
  rw [length_copy2Bytes, emitCopy2Size, sub_ok long, ok_bind, copyExtra, extraBytes, rest]
  simp only [short]
  split_ifs <;> rfl

theorem emitCopySize_eq {offset length : Nat} (long : 4 ≤ length) (bound : length < 2 ^ 24) :
    emitCopySize offset length = .ok (copyBytes offset length).length := by
  rw [emitCopySize, copyBytes, maxCopy2Offset_eq]
  by_cases far : offset > 65536 + 63
  · rw [if_pos far, if_pos far, length_copy3Bytes, copyExtra]
    split
    · rfl
    · next more =>
        rw [bitLength_extra (by omega) (by omega)]
        rfl
  · rw [if_neg far, if_neg far]
    by_cases near : offset ≤ maxCopy1Offset
    · rw [if_pos near, if_pos near]
      have rest (more : 274 ≤ length) : emitRepeatSize (length - 18) =
          (repeatBytes (length - 18)).length := emitRepeatSize_eq (by omega)
      split_ifs with short small middle
      · rw [length_copy1Bytes, if_pos (by omega)]
        rfl
      · omega
      · rw [length_copy1Bytes, if_neg (by omega)]
        rfl
      · rw [List.length_append, ← rest (by omega)]
        rfl
    · rw [if_neg near, if_neg near]
      exact emitCopy2Size_eq offset long

/-- The costs by which the smallest level picks its matches are the true ones. -/
theorem sizes_true (length : Nat) (some : 1 ≤ length) (bound : length ≤ maxBlockSize) :
    Costs (fun dst d => emitRepeat dst d length) (emitRepeatSize length) ∧
    (4 ≤ length → ∀ offset, 1 ≤ offset → offset ≤ maxCopy3Offset →
      ∃ k, emitCopySize offset length = .ok k ∧
        Costs (fun dst d => emitCopy dst d offset length) k) ∧
    (4 ≤ length → ∃ k, emitCopy2Size length = .ok k ∧
      ∀ offset, minCopy2Offset ≤ offset → offset ≤ maxCopy2Offset →
        Costs (fun dst d => encodeCopy2 dst d offset length) k) := by
  have short : length < 2 ^ 24 := Nat.lt_of_le_of_lt bound (by decide)
  refine ⟨?_, ?_, ?_⟩
  · exact ⟨_, (emitRepeatSize_eq some).symm, fun dst d => emitRepeat_writes dst d some⟩
  · intro long offset pos _
    exact ⟨_, emitCopySize_eq long short, _, rfl, fun dst d => emitCopy_writes dst d pos long⟩
  · intro long
    refine ⟨_, emitCopy2Size_eq minCopy2Offset long, ?_⟩
    intro offset far _
    refine ⟨copy2Bytes offset length, ?_, fun dst d => encodeCopy2_writes dst d far long⟩
    rw [length_copy2Bytes, length_copy2Bytes]

/-- A far copy of 320 bytes, the first with two extra length bytes. -/
theorem sizes_true_far :
    emitCopySize 70000 320 = .ok 6 ∧ Costs (fun dst d => emitCopy dst d 70000 320) 6 := by
  obtain ⟨_, copy, _⟩ := sizes_true 320 (by decide) (by decide)
  obtain ⟨k, size, cost⟩ := copy (by decide) 70000 (by decide) (by decide)
  have six : emitCopySize 70000 320 = .ok 6 := by decide
  rw [six] at size
  cases size
  exact ⟨six, cost⟩

/-- `emitLiteral` puts `k` bytes before any literal of `n` bytes. -/
def HeaderSize (n k : Nat) : Prop :=
  ∀ lit : List UInt8, lit.length = n → Costs (fun dst d => emitLiteral dst d lit) (k + n)

theorem headerSize_iff {n : Nat} (some : 1 ≤ n) (short : n < 2 ^ 24 + 30) (k : Nat) :
    HeaderSize n k ↔ k = 1 + literalExtra n := by
  have cost (lit : List UInt8) (size : lit.length = n) :
      Costs (fun dst d => emitLiteral dst d lit) (1 + literalExtra n + n) := by
    refine ⟨literalBytes lit, ?_, fun dst d => emitLiteral_writes dst d (by omega)⟩
    rw [length_literalBytes, if_neg (by omega), size]
  constructor
  · intro header
    have zeros : (List.replicate n (0 : UInt8)).length = n := List.length_replicate
    have same := (header _ zeros).unique (cost _ zeros)
    exact Nat.add_right_cancel same
  · rintro rfl
    exact cost

/-- The forecast for literals is true at every length but one. -/
theorem emitLiteralSizeN_iff {n : Nat} (some : 1 ≤ n) (bound : n ≤ maxBlockSize) :
    HeaderSize n (emitLiteralSizeN n) ↔ n ≠ 65565 := by
  have short : n < 2 ^ 24 + 30 := Nat.lt_of_le_of_lt bound (by decide)
  rw [headerSize_iff some short, emitLiteralSizeN, literalExtra]
  simp only [Nat.shiftLeft_eq]
  split_ifs <;> omega

theorem emitLiteralSizeN_iff_below : HeaderSize 65564 3 := by
  have size : emitLiteralSizeN 65564 = 3 := by decide
  exact size ▸ (emitLiteralSizeN_iff (by decide) (by decide)).mpr (by decide)

/-- 65565 zeros take a header of three bytes, not of four. -/
theorem emitLiteralSizeN_long : emitLiteralSizeN 65565 = 4 ∧
    Costs (fun dst d => emitLiteral dst d (List.replicate 65565 0)) (3 + 65565) ∧
    ¬ HeaderSize 65565 (emitLiteralSizeN 65565) := by
  have header := headerSize_iff (n := 65565) (by decide) (by decide)
  refine ⟨by decide, (header 3).mpr (by decide) _ List.length_replicate, ?_⟩
  rw [header]
  decide

end MinLz.Block
