import Mathlib

/-! # Linear shift registers

A register takes a stream of bits at its low end and is reduced by `poly` when a one
falls out, as in a reflected cyclic redundancy check. All it does is linear for `^^^`:
what it holds after a stream is what it held, advanced by as many zero bits, plus what
the stream alone leaves in an empty register.
-/

namespace ShiftRegister

variable {w : Nat}

/-- Take one bit. -/
def push (poly c : BitVec w) (bit : Bool) : BitVec w :=
  if c.getLsbD 0 ^^ bit then (c >>> 1) ^^^ poly else c >>> 1

/-- Take bits one after the other. -/
def feed (poly c : BitVec w) (stream : List Bool) : BitVec w := stream.foldl (push poly) c

/-- Take `n` zero bits. -/
def advance (poly : BitVec w) : Nat → BitVec w → BitVec w
  | 0, c => c
  | n + 1, c => advance poly n (push poly c false)

/-- The lowest `n` bits, from the lowest up. -/
def bits (n : Nat) (v : BitVec w) : List Bool := (List.range n).map v.getLsbD

section Bits

theorem bits_length (n : Nat) (v : BitVec w) : (bits n v).length = n := by
  rw [bits, List.length_map, List.length_range]

theorem bits_add (m n : Nat) (v : BitVec w) : bits (m + n) v = bits m v ++ bits n (v >>> m) := by
  unfold bits
  rw [List.range_add, List.map_append, List.map_map]
  congr 1
  apply List.map_congr_left
  intro i _
  exact (BitVec.getLsbD_ushiftRight v m i).symm

theorem bits_succ (n : Nat) (v : BitVec w) : bits (n + 1) v = v.getLsbD 0 :: bits n (v >>> 1) := by
  rw [Nat.add_comm]
  exact bits_add 1 n v

/-- Only the bits counted matter, also between words of two widths. -/
theorem bits_congr {w' n : Nat} {u : BitVec w} {v : BitVec w'}
    (same : ∀ i < n, u.getLsbD i = v.getLsbD i) : bits n u = bits n v := by
  apply List.map_congr_left
  intro i inside
  exact same i (List.mem_range.mp inside)

theorem bits_or_shift {m n : Nat} (u v : BitVec w) (fits : m + n ≤ w)
    (low : ∀ i, m ≤ i → u.getLsbD i = false) :
    bits (m + n) ((v <<< m) ||| u) = bits m u ++ bits n v := by
  rw [bits_add]
  congr 1
  · apply bits_congr
    intro i inside
    simp [inside]
  · apply bits_congr
    intro i inside
    have wide : m + i < w := by omega
    rw [BitVec.getLsbD_ushiftRight, BitVec.getLsbD_or, BitVec.getLsbD_shiftLeft,
      low (m + i) (Nat.le_add_right m i), Bool.or_false, Nat.add_sub_cancel_left]
    simp only [wide, Nat.not_lt.mpr (Nat.le_add_right m i), decide_true, decide_false,
      Bool.not_false, Bool.true_and]

end Bits

section Linear

variable (poly : BitVec w)

theorem push_xor (c d : BitVec w) (a b : Bool) :
    push poly (c ^^^ d) (a ^^ b) = push poly c a ^^^ push poly d b := by
  unfold push
  rw [BitVec.getLsbD_xor, BitVec.ushiftRight_xor_distrib]
  have left (x y : BitVec w) : x ^^^ poly ^^^ y = x ^^^ y ^^^ poly := by ac_rfl
  have twice (x y : BitVec w) : x ^^^ poly ^^^ (y ^^^ poly) = x ^^^ y := by
    rw [left, ← BitVec.xor_assoc, BitVec.xor_assoc, BitVec.xor_self, BitVec.xor_zero]
  cases c.getLsbD 0 <;> cases d.getLsbD 0 <;> cases a <;> cases b <;>
    simp [twice, left, BitVec.xor_assoc]

theorem advance_xor (n : Nat) (c d : BitVec w) :
    advance poly n (c ^^^ d) = advance poly n c ^^^ advance poly n d := by
  induction n generalizing c d with
  | zero => rfl
  | succ n ih =>
      have shifted := push_xor poly c d false false
      rw [Bool.xor_false] at shifted
      rw [advance, shifted, ih]
      rfl

theorem advance_add (m n : Nat) (c : BitVec w) :
    advance poly (m + n) c = advance poly n (advance poly m c) := by
  induction m generalizing c with
  | zero => rw [Nat.zero_add]; rfl
  | succ m ih =>
      rw [Nat.succ_add]
      exact ih _

theorem advance_zero (n : Nat) : advance poly n 0#w = 0#w := by
  have doubled := advance_xor poly n 0#w 0#w
  rwa [BitVec.xor_self, BitVec.xor_self] at doubled

theorem feed_append (c : BitVec w) (s t : List Bool) :
    feed poly c (s ++ t) = feed poly (feed poly c s) t := List.foldl_append

/-- What the register held advances, and the stream adds what it leaves in an empty one. -/
theorem feed_eq (c : BitVec w) (stream : List Bool) :
    feed poly c stream = advance poly stream.length c ^^^ feed poly 0#w stream := by
  induction stream generalizing c with
  | nil => exact (BitVec.xor_zero).symm
  | cons b stream ih =>
      have taken := push_xor poly c 0#w false b
      rw [BitVec.xor_zero, Bool.false_xor] at taken
      calc feed poly c (b :: stream)
          = feed poly (push poly c false ^^^ push poly 0#w b) stream := congrArg (feed poly · _) taken
        _ = advance poly stream.length (push poly c false) ^^^
              (advance poly stream.length (push poly 0#w b) ^^^ feed poly 0#w stream) := by
            rw [ih, advance_xor, BitVec.xor_assoc]
        _ = advance poly (b :: stream).length c ^^^ feed poly 0#w (b :: stream) := by
            rw [← ih (push poly 0#w b)]
            rfl

/-- Bits that are added to the register beforehand come out like bits taken on the way. -/
theorem advance_bits (n : Nat) (c v : BitVec w) :
    advance poly n (c ^^^ v) = feed poly c (bits n v) ^^^ (v >>> n) := by
  induction n generalizing c v with
  | zero => rw [BitVec.ushiftRight_zero]; rfl
  | succ n ih =>
      have first : push poly (c ^^^ v) false = push poly c (v.getLsbD 0) ^^^ (v >>> 1) := by
        have split := push_xor poly c v (v.getLsbD 0) (v.getLsbD 0)
        have out : push poly v (v.getLsbD 0) = v >>> 1 := by
          rw [push, Bool.xor_self, if_neg Bool.false_ne_true]
        rwa [Bool.xor_self, out] at split
      rw [advance, first, ih, bits_succ, Nat.add_comm, BitVec.shiftRight_add]
      rfl

/-- The low bits are reduced and the others move down. -/
theorem advance_low (n : Nat) (c : BitVec w) :
    advance poly n c = advance poly n (c &&& BitVec.ofNat w (2 ^ n - 1)) ^^^ (c >>> n) := by
  have mask (i : Nat) :
      (BitVec.ofNat w (2 ^ n - 1)).getLsbD i = (decide (i < w) && decide (i < n)) := by
    rw [BitVec.getLsbD_ofNat, Nat.testBit_two_pow_sub_one]
  have low : bits n (c &&& BitVec.ofNat w (2 ^ n - 1)) = bits n c := by
    apply bits_congr
    intro i inside
    rw [BitVec.getLsbD_and, mask]
    by_cases wide : i < w
    · simp [wide, inside]
    · simp [BitVec.getLsbD_of_ge c i (Nat.le_of_not_lt wide)]
  have gone : (c &&& BitVec.ofNat w (2 ^ n - 1)) >>> n = 0#w := by
    apply BitVec.eq_of_getLsbD_eq
    intro i _
    rw [BitVec.getLsbD_ushiftRight, BitVec.getLsbD_and, mask]
    simp
  have whole := advance_bits poly n 0#w c
  have part := advance_bits poly n 0#w (c &&& BitVec.ofNat w (2 ^ n - 1))
  rw [BitVec.zero_xor] at whole part
  rw [gone, BitVec.xor_zero, low] at part
  rw [whole, part]

end Linear

end ShiftRegister
