import MinLz.Block.Emit
import MinLz.Block.Extend
import MinLz.Block.Hash

/-! # What the encoders share -/

namespace MinLz.Block

/-- What an encoder's functions leave behind when they end the block: the
    remainder is still to be emitted, or the block is not compressible. -/
inductive Exit (σ : Type) where
  | finish (st : σ)
  | giveUp (dst : Slice)

/-- `close && value as u32 == load32(src, c)` -/
def hit (src : Slice) (close : Bool) (value c : Nat) : Exec Bool := do
  if close then return value % 2 ^ 32 = (← load32 src c) else return false

/-- The literals after the last match. -/
def emitRemainder (src : Slice) (dstLimit : Nat) (dst : Slice) (d nextEmit : Nat) :
    Exec (Slice × Nat) := do
  if nextEmit < src.len then
    if d + src.len - nextEmit > dstLimit then return (dst, 0)
    emitLiteral dst d (← range src nextEmit src.len)
  else return (dst, d)

theorem word_low (b : Slice) (i : Nat) : b.word 8 i % 2 ^ 32 = b.word 4 i := b.word_mod 4 4 i

/-- The four bytes `k` past the loaded word. -/
theorem word_shifted (b : Slice) (i : Nat) {k : Nat} (hk : k ≤ 4) :
    (b.word 8 i >>> (8 * k)) % 2 ^ 32 = b.word 4 (i + k) := by
  have split : 8 = k + (4 + (4 - k)) := by omega
  rw [Nat.shiftRight_eq_div_pow, pow_mul, show (2 : Nat) ^ 8 = 256 from rfl]
  conv_lhs => rw [split]
  rw [Slice.word_div]
  exact b.word_mod 4 (4 - k) (i + k)

section Hits

variable {src : Slice}

theorem hit_eq (close : Bool) (value : Nat) {c : Nat} (inside : c + 4 ≤ src.len) :
    hit src close value c = .ok (close && decide (value % 2 ^ 32 = src.word 4 c)) := by
  rw [hit, load32_ok inside]
  cases close <;> rfl

/-- A hit on the four bytes at `p` is a match there. -/
theorem same_of_hit {close : Bool} {value c p : Nat} (read : value % 2 ^ 32 = src.word 4 p)
    (h : (close && decide (value % 2 ^ 32 = src.word 4 c)) = true) :
    close = true ∧ src.Same c p 4 := by
  simp only [Bool.and_eq_true, decide_eq_true_eq] at h
  exact ⟨h.1, (src.word_eq_iff 4 c p).mp (h.2.symm.trans read)⟩

end Hits

end MinLz.Block
