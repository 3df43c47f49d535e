import MinLz.Block.Emitted
import MinLz.Block.Encoder

/-! # What an encoder has written

`Written` is the part of every encoder's invariant that is about its output; an
emission that fits keeps it. The sizes of the encodings follow, for the encoders'
accounts of the room that is left.
-/

namespace MinLz.Block

open Loop

theorem extraBytes_le (v : Nat) : extraBytes v ≤ 3 ∧ (v < 65536 → extraBytes v ≤ 2) := by
  rw [extraBytes]
  split_ifs <;> omega

theorem length_literalBytes (lit : List UInt8) : (literalBytes lit).length =
    if lit.length = 0 then 0 else 1 + literalExtra lit.length + lit.length := by
  rw [literalBytes]
  split
  · rfl
  · rw [List.length_append, length_runHead]

theorem literalExtra_le (n : Nat) : literalExtra n ≤ 3 ∧ (n ≤ 65565 → literalExtra n ≤ 2) ∧
    (n ≤ 284 → literalExtra n ≤ 1) := by
  rw [literalExtra]
  split_ifs <;> omega

theorem length_literalBytes_le (lit : List UInt8) : (literalBytes lit).length ≤ lit.length + 4 ∧
    (lit.length ≤ 65565 → (literalBytes lit).length ≤ lit.length + 3) ∧
    (lit.length ≤ 284 → (literalBytes lit).length ≤ lit.length + 2) ∧
    (lit.length = 0 → (literalBytes lit).length = 0) := by
  have extra := literalExtra_le lit.length
  rw [length_literalBytes]
  split_ifs <;> omega

theorem length_repeatBytes (length : Nat) :
    (repeatBytes length).length = 1 + repeatExtra length := length_runHead 4 length _

theorem repeatExtra_le (length : Nat) : repeatExtra length ≤ 3 ∧
    (length < 30 → repeatExtra length = 0) ∧ (length < 65566 → repeatExtra length ≤ 2) := by
  have := extraBytes_le (length - 30)
  rw [repeatExtra]
  split_ifs <;> omega

theorem length_repeatBytes_le (length : Nat) : (repeatBytes length).length ≤ 4 ∧
    (length < 30 → (repeatBytes length).length = 1) ∧
    (length < 65566 → (repeatBytes length).length ≤ 3) := by
  have extra := repeatExtra_le length
  rw [length_repeatBytes]
  omega

theorem copyExtra_le (length : Nat) : copyExtra length ≤ 3 := by
  have := extraBytes_le (length - 64)
  rw [copyExtra]
  split_ifs <;> omega

theorem length_copy1Bytes (off length : Nat) :
    (copy1Bytes off length).length = if length < 19 then 2 else 3 := by
  rw [copy1Bytes]
  split_ifs <;> simp

/-- Near copies are shorter than what they copy by two bytes at least. -/
theorem length_copyBytes_le (off length : Nat) (long : 4 ≤ length) :
    (copyBytes off length).length ≤ 7 ∧ (off ≤ 1024 → (copyBytes off length).length + 2 ≤ length ∧
      (length < 512 → (copyBytes off length).length ≤ 5)) := by
  have extra := copyExtra_le length
  have rest := repeatExtra_le (length - 18)
  rw [copyBytes, maxCopy1Offset_eq, maxCopy2Offset_eq]
  split_ifs
  · rw [length_copy3Bytes]
    omega
  · rw [length_copy1Bytes]
    split_ifs <;> omega
  · rw [List.length_append, length_copy1Bytes, length_repeatBytes]
    split_ifs <;> omega
  · rw [length_copy2Bytes]
    omega

theorem length_copyBytes_short {off length : Nat} (near : off ≤ 1024) (short : length < 274) :
    (copyBytes off length).length ≤ 3 := by
  rw [copyBytes, maxCopy1Offset_eq, maxCopy2Offset_eq, if_neg (by omega), if_pos near, if_pos short,
    length_copy1Bytes]
  split_ifs <;> omega

theorem length_fused2Bytes (lits : List UInt8) (off length : Nat) :
    (fused2Bytes lits off length).length = 3 + lits.length := by
  simp [fused2Bytes]
  omega

theorem length_copyLits2Bytes_le (lits : List UInt8) (off : Nat) {length : Nat} (long : 4 ≤ length) :
    (copyLits2Bytes lits off length).length ≤ lits.length + 7 ∧
    (copyLits2Bytes lits off length).length + 1 ≤ lits.length + length ∧
    (length < 512 → (copyLits2Bytes lits off length).length ≤ lits.length + 6) := by
  have rest := repeatExtra_le (length - 11)
  rw [copyLits2Bytes, copy2LitMaxLen_eq]
  split_ifs
  · rw [length_fused2Bytes]
    omega
  · rw [List.length_append, length_fused2Bytes, length_repeatBytes]
    omega

theorem length_copyLits2Bytes_short (lits : List UInt8) (off length : Nat)
    (short : length < 256) : (copyLits2Bytes lits off length).length ≤ lits.length + 5 := by
  have head := length_fused2Bytes lits off
  rw [copyLits2Bytes, copy2LitMaxLen_eq]
  split_ifs
  · rw [head]
    omega
  · rw [List.length_append, head, length_repeatBytes, repeatExtra, extraBytes]
    split_ifs <;> omega

theorem length_copyLits3Bytes_le (lits : List UInt8) (off length : Nat) :
    (copyLits3Bytes lits off length).length ≤ lits.length + 7 := by
  have := copyExtra_le length
  rw [copyLits3Bytes, List.length_append, length_copy3Bytes]
  omega

/-- The first `d` bytes of a slice of `size` encode `src[..nextEmit]`. -/
structure Written (src : Slice) (size : Nat) (dst : Slice) (d nextEmit offset : Nat) : Prop where
  len : dst.len = size
  emitted : Emitted src dst d nextEmit offset
  fits : d ≤ size
  inside : nextEmit ≤ src.len
  pos : 1 ≤ offset

section Emissions

variable {src dst : Slice} {size d e r : Nat}

/-- An emitter that fits and whose encoding advances the decoder. -/
theorem Written.emit {run : Exec (Slice × Nat)} {bs : List UInt8} {e' r' : Nat}
    (w : Written src size dst d e r) (writes : Writes run dst d bs)
    (advances : Advances src bs e r e' r') (fits : d + bs.length ≤ size) (inside : e' ≤ src.len)
    (pos : 1 ≤ r') :
    Returns run (fun (dst', d') => Written src size dst' d' e' r' ∧ d' = d + bs.length) := by
  refine ⟨_, writes.fits (by rw [w.len]; exact fits), ⟨?_, ?_, fits, inside, pos⟩, rfl⟩
  · simp [w.len]
  · exact w.emitted.append advances

theorem Written.literal {j : Nat} (w : Written src size dst d e r) (bound : src.len < 2 ^ 24)
    (forward : e ≤ j) (inside : j ≤ src.len)
    (fits : d + (literalBytes (src.list e (j - e))).length ≤ size) :
    Returns (emitLiteral dst d (src.list e (j - e))) (fun (dst', d') =>
      Written src size dst' d' j r ∧ d' = d + (literalBytes (src.list e (j - e))).length) :=
  w.emit (emitLiteral_writes dst d (by rw [Slice.length_list]; omega))
    (advances_literal forward inside (by omega)) fits inside w.pos

theorem Written.copyRepeat {length : Nat} (w : Written src size dst d e r)
    (bound : src.len < 2 ^ 24) (some : 1 ≤ length) (back : r ≤ e)
    (same : src.Same (e - r) e length) (inside : e + length ≤ src.len)
    (fits : d + (repeatBytes length).length ≤ size) :
    Returns (emitRepeat dst d length) (fun (dst', d') =>
      Written src size dst' d' (e + length) r ∧ d' = d + (repeatBytes length).length) :=
  w.emit (emitRepeat_writes dst d some) (advances_repeat some (by omega) w.pos back same inside)
    fits inside w.pos

theorem Written.copy {off length : Nat} (w : Written src size dst d e r)
    (bound : src.len < 2 ^ 24) (pos : 1 ≤ off) (near : off ≤ maxCopy3Offset) (long : 4 ≤ length)
    (back : off ≤ e) (same : src.Same (e - off) e length) (inside : e + length ≤ src.len)
    (fits : d + (copyBytes off length).length ≤ size) :
    Returns (emitCopy dst d off length) (fun (dst', d') =>
      Written src size dst' d' (e + length) off ∧ d' = d + (copyBytes off length).length) :=
  w.emit (emitCopy_writes dst d pos long)
    (advances_emitCopy pos near long (by omega) back same inside) fits inside pos

section Fused

variable {off length k : Nat} (w : Written src size dst d e r) (bound : src.len < 2 ^ 24)
  (one : 1 ≤ k) (long : 4 ≤ length) (back : off ≤ e + k)
  (same : src.Same (e + k - off) (e + k) length) (inside : e + k + length ≤ src.len)
include w bound one long back same inside

theorem Written.copyLits2 (few : k ≤ 4) (far : minCopy2Offset ≤ off) (near : off ≤ maxCopy2Offset)
    (fits : d + (copyLits2Bytes (src.list e k) off length).length ≤ size) :
    Returns (emitCopyLits2 dst d (src.list e k) off length) (fun (dst', d') =>
      Written src size dst' d' (e + k + length) off ∧
        d' = d + (copyLits2Bytes (src.list e k) off length).length) := by
  rw [minCopy2Offset_eq] at far
  rw [maxCopy2Offset_eq] at near
  exact w.emit (emitCopyLits2_writes dst d far long (by simpa using one) (by simpa using few))
    (advances_emitCopyLits2 one few far near long (by omega) back same inside) fits inside (by omega)

omit one in
theorem Written.copyLits3 (few : k ≤ 3) (far : minCopy3Offset ≤ off) (near : off ≤ maxCopy3Offset)
    (fits : d + (copyLits3Bytes (src.list e k) off length).length ≤ size) :
    Returns (emitCopyLits3 dst d (src.list e k) off length) (fun (dst', d') =>
      Written src size dst' d' (e + k + length) off ∧
        d' = d + (copyLits3Bytes (src.list e k) off length).length) := by
  rw [minCopy3Offset_eq] at far
  exact w.emit (emitCopyLits3_writes dst d far long (by simpa using few))
    (advances_emitCopyLits3 few far near long (by omega) back same inside) fits inside (by omega)

end Fused

end Emissions

/-- The room an encoder is given for a block of `n` bytes. -/
structure Room (n size : Nat) : Prop where
  long : 16 ≤ n
  bound : n ≤ maxBlockSize
  slice : n ≤ size + 3
  short : n < 512 → n ≤ size + 1

theorem Room.lt {n size : Nat} (room : Room n size) : n < 2 ^ 24 :=
  Nat.lt_of_le_of_lt room.bound (by decide)

/-- What an encoder of `src` promises about its slice: it returns 0, or the
    length of a block of `src`. -/
def Encodes (src : Slice) (size : Nat) (r : Exec (Slice × Nat)) : Prop :=
  Returns r (fun (dst, n) => dst.len = size ∧ (n = 0 ∨ n ≤ size ∧
    Token.decode (Slice.ofList (dst.list 0 n)) src.len = some src.toList))

theorem Written.encodes {src dst : Slice} {size d r : Nat} (w : Written src size dst d src.len r) :
    Encodes src size (.ok (dst, d)) :=
  returns_ok ⟨w.len, .inr ⟨w.fits, w.emitted.decode⟩⟩

theorem emitRemainder_ok {src dst : Slice} {size dstLimit d nextEmit offset : Nat}
    (room : Room src.len size) (hd : dstLimit = src.len - src.len / 32 - 6)
    (w : Written src size dst d nextEmit offset) :
    Encodes src size (emitRemainder src dstLimit dst d nextEmit) := by
  have inside := w.inside
  have slice := room.slice
  have short := room.short
  rw [emitRemainder]
  split
  · split
    · exact returns_ok ⟨w.len, .inl rfl⟩
    · next fits =>
        have litSize := length_literalBytes_le (src.list nextEmit (src.len - nextEmit))
        rw [Slice.length_list] at litSize
        rw [range_ok inside le_rfl, ok_bind]
        refine (w.literal room.lt inside le_rfl (by omega)).mono ?_
        rintro ⟨dst', d'⟩ ⟨w', hd'⟩
        exact ⟨w'.len, .inr ⟨w'.fits, w'.emitted.decode⟩⟩
  · obtain rfl : nextEmit = src.len := by omega
    exact w.encodes

end MinLz.Block
