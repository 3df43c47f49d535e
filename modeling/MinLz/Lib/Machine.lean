import Mathlib

/-! # 64-bit arithmetic

Signed words are integers and unsigned words natural numbers. An operation that
leaves its range wraps or panics, by how the program was built; `none` is the
panic. Zigzag maps signed words to unsigned ones, small magnitudes first.
-/

namespace Machine

/-- Whether overflow checks are compiled in. -/
inductive Overflow where
  | wraps
  | panics
  deriving DecidableEq, Repr

def maxSigned : Nat := 2 ^ 63 - 1

/-- The integer is a signed 64-bit word. -/
def Fits (x : Int) : Prop := -2 ^ 63 ≤ x ∧ x < 2 ^ 63

instance (x : Int) : Decidable (Fits x) := inferInstanceAs (Decidable (_ ∧ _))

/-- The unsigned word with the bits of `x`. -/
def toWord (x : Int) : Nat := (x % 2 ^ 64).toNat

/-- The signed word with the bits of `w`. -/
def ofWord (w : Nat) : Int := if w % 2 ^ 64 < 2 ^ 63 then w % 2 ^ 64 else w % 2 ^ 64 - 2 ^ 64

def Overflow.unsigned (m : Overflow) (x : Int) : Option Nat :=
  if 0 ≤ x ∧ x < 2 ^ 64 then some x.toNat
  else match m with
    | .wraps => some (toWord x)
    | .panics => none

def Overflow.signed (m : Overflow) (x : Int) : Option Int :=
  if Fits x then some x
  else match m with
    | .wraps => some (ofWord (toWord x))
    | .panics => none

/-- `x << s`; a shift past the width keeps its low bits or panics. -/
def Overflow.shl (m : Overflow) (x s : Nat) : Option Nat :=
  if s < 64 then some ((x <<< s) % 2 ^ 64)
  else match m with
    | .wraps => some ((x <<< (s % 64)) % 2 ^ 64)
    | .panics => none

def checkedAdd (a b : Int) : Option Int := if Fits (a + b) then some (a + b) else none

theorem unsigned_ok (m : Overflow) {x : Nat} (h : x < 2 ^ 64) : m.unsigned x = some x := by
  unfold Overflow.unsigned
  rw [if_pos ⟨Int.natCast_nonneg x, by exact_mod_cast h⟩, Int.toNat_natCast]

/-- A natural number that has not left its range has been reduced to it. -/
theorem unsigned_eq_some {m : Overflow} {x u : Nat} (h : m.unsigned x = some u) :
    u = x % 2 ^ 64 := by
  unfold Overflow.unsigned at h
  split at h
  · cases h
    omega
  · cases m with
    | wraps =>
        cases h
        rw [toWord]
        omega
    | panics => cases h

theorem unsigned_nat (m : Overflow) (x : Nat) :
    m.unsigned x = if x < 2 ^ 64 ∨ m = .wraps then some (x % 2 ^ 64) else none := by
  by_cases small : x < 2 ^ 64
  · rw [unsigned_ok m small, if_pos (.inl small), Nat.mod_eq_of_lt small]
  · have large : ¬((0 : Int) ≤ x ∧ (x : Int) < 2 ^ 64) := by omega
    unfold Overflow.unsigned
    rw [if_neg large]
    cases m with
    | wraps =>
        rw [if_pos (.inr rfl)]
        simp only [toWord]
        congr 1
    | panics => rw [if_neg (by rintro (h | h); exacts [small h, by cases h])]

/-- Adding in two parts comes to the same, also when it leaves the range. -/
theorem unsigned_add_add (m : Overflow) (c a b : Nat) :
    (m.unsigned ((c : Int) + a)).bind (fun n => m.unsigned ((n : Int) + b)) =
      m.unsigned ((c : Int) + (a + b : Nat)) := by
  have cast (x y : Nat) : (x : Int) + y = ((x + y : Nat) : Int) := by push_cast; rfl
  simp only [cast, unsigned_nat]
  cases m with
  | wraps =>
      simp only [or_true, if_true, Option.bind_some, Option.some.injEq]
      omega
  | panics =>
      simp only [reduceCtorEq, or_false]
      by_cases first : c + a < 2 ^ 64
      · rw [if_pos first, Option.bind_some, Nat.mod_eq_of_lt first, Nat.add_assoc]
      · rw [if_neg first, if_neg (by omega), Option.bind_none]

theorem signed_ok (m : Overflow) {x : Int} (h : Fits x) : m.signed x = some x := if_pos h

theorem shl_ok (m : Overflow) (x : Nat) {s : Nat} (h : s < 64) :
    m.shl x s = some ((x <<< s) % 2 ^ 64) := if_pos h

theorem checkedAdd_ok {a b : Int} (h : Fits (a + b)) : checkedAdd a b = some (a + b) := if_pos h

theorem checkedAdd_eq_some {a b c : Int} : checkedAdd a b = some c ↔ Fits (a + b) ∧ a + b = c := by
  rw [checkedAdd]
  split_ifs with h <;> simp [h]

theorem toWord_nonneg {x : Int} (h : 0 ≤ x) (bound : x < 2 ^ 64) : toWord x = x.toNat := by
  rw [toWord, Int.emod_eq_of_lt h bound]

theorem ofWord_toWord {x : Int} (h : Fits x) : ofWord (toWord x) = x := by
  rw [Fits] at h
  rw [ofWord, toWord]
  split_ifs <;> omega

theorem fits_ofWord (w : Nat) : Fits (ofWord w) := by
  rw [ofWord, Fits]
  split_ifs <;> omega

theorem ofWord_small {n : Nat} (h : n ≤ maxSigned) : ofWord n = n := by
  have limit : maxSigned = 2 ^ 63 - 1 := rfl
  rw [ofWord, Nat.mod_eq_of_lt (by omega), if_pos (by omega), Int.emod_eq_of_lt (by omega) (by omega)]

theorem fits_small {n : Nat} (h : n ≤ maxSigned) : Fits n := by
  have limit : maxSigned = 2 ^ 63 - 1 := rfl
  rw [Fits]
  omega

/-- Signed halving rounds towards zero. -/
theorem tdiv_two (c : Int) : 0 ≤ c ∧ c.tdiv 2 = c / 2 ∨ c < 0 ∧ c.tdiv 2 = -(-c / 2) := by
  rcases lt_or_ge c 0 with neg | pos
  · right
    refine ⟨neg, ?_⟩
    rw [← Int.tdiv_eq_ediv_of_nonneg (by omega : 0 ≤ -c), Int.neg_tdiv, neg_neg]
  · left
    exact ⟨pos, Int.tdiv_eq_ediv_of_nonneg pos⟩

/-- `((v as u64) << 1) ^ ((v >> 63) as u64)` -/
def zigzag (v : Int) : Nat := (toWord v <<< 1) % 2 ^ 64 ^^^ toWord (v / 2 ^ 63)

/-- `((u >> 1) as i64) ^ -((u & 1) as i64)` -/
def unzigzag (u : Nat) : Int := ofWord (toWord ↑(u >>> 1) ^^^ toWord (-↑(u &&& 1)))

theorem xor_ones {x : Nat} (h : x < 2 ^ 64) : x ^^^ (2 ^ 64 - 1) = 2 ^ 64 - (x + 1) := by
  apply Nat.eq_of_testBit_eq
  intro i
  rw [Nat.testBit_xor, Nat.testBit_two_pow_sub_succ h, Nat.testBit_two_pow_sub_one]
  by_cases hi : i < 64
  · simp [hi]
  · have high : x.testBit i = false :=
      Nat.testBit_lt_two_pow (lt_of_lt_of_le h (Nat.pow_le_pow_right (by norm_num) (by omega)))
    simp [hi, high]

theorem zigzag_nonneg {v : Int} (pos : 0 ≤ v) (h : Fits v) : zigzag v = 2 * v.toNat := by
  rw [Fits] at h
  have sign : v / 2 ^ 63 = 0 := Int.ediv_eq_zero_of_lt pos h.2
  rw [zigzag, sign, toWord_nonneg pos (by omega), Nat.shiftLeft_eq]
  have zero : toWord 0 = 0 := rfl
  rw [zero, Nat.xor_zero]
  omega

theorem zigzag_neg {v : Int} (neg : v < 0) (h : Fits v) : zigzag v = 2 * (-v).toNat - 1 := by
  rw [Fits] at h
  have sign : v / 2 ^ 63 = -1 := by omega
  have ones : toWord (-1) = 2 ^ 64 - 1 := rfl
  have word : toWord v = 2 ^ 64 - (-v).toNat := by
    rw [toWord]
    omega
  rw [zigzag, sign, ones, xor_ones (Nat.mod_lt _ (by norm_num)), word, Nat.shiftLeft_eq]
  omega

theorem zigzag_lt {v : Int} (h : Fits v) : zigzag v < 2 ^ 64 := by
  have fits := h
  rw [Fits] at fits
  by_cases pos : 0 ≤ v
  · rw [zigzag_nonneg pos h]
    omega
  · rw [zigzag_neg (by omega) h]
    omega

theorem unzigzag_even (n : Nat) (h : n < 2 ^ 63) : unzigzag (2 * n) = n := by
  have half : (2 * n) >>> 1 = n := by
    rw [Nat.shiftRight_one]
    omega
  have bit : 2 * n &&& 1 = 0 := by
    rw [Nat.and_one_is_mod]
    omega
  have zero : toWord (-((0 : Nat) : Int)) = 0 := rfl
  rw [unzigzag, half, bit, zero, Nat.xor_zero]
  apply ofWord_toWord
  rw [Fits]
  omega

theorem unzigzag_odd (n : Nat) (h : n < 2 ^ 63) : unzigzag (2 * n + 1) = -n - 1 := by
  have half : (2 * n + 1) >>> 1 = n := by
    rw [Nat.shiftRight_one]
    omega
  have bit : 2 * n + 1 &&& 1 = 1 := by
    rw [Nat.and_one_is_mod]
    omega
  have ones : toWord (-((1 : Nat) : Int)) = 2 ^ 64 - 1 := rfl
  have word : toWord (n : Int) = n := by
    rw [toWord_nonneg (Int.natCast_nonneg n) (by omega), Int.toNat_natCast]
  rw [unzigzag, half, bit, ones, word, xor_ones (by omega), ofWord]
  rw [if_neg (by omega)]
  omega

theorem unzigzag_zigzag {v : Int} (h : Fits v) : unzigzag (zigzag v) = v := by
  have fits := h
  rw [Fits] at fits
  by_cases pos : 0 ≤ v
  · rw [zigzag_nonneg pos h, unzigzag_even _ (by omega)]
    omega
  · rw [zigzag_neg (by omega) h]
    have odd : 2 * (-v).toNat - 1 = 2 * ((-v).toNat - 1) + 1 := by omega
    rw [odd, unzigzag_odd _ (by omega)]
    omega

theorem fits_unzigzag {u : Nat} (h : u < 2 ^ 64) : Fits (unzigzag u) := by
  rw [Fits]
  rcases Nat.mod_two_eq_zero_or_one u with even | odd
  · have split : u = 2 * (u / 2) := by omega
    rw [split, unzigzag_even _ (by omega)]
    omega
  · have split : u = 2 * (u / 2) + 1 := by omega
    rw [split, unzigzag_odd _ (by omega)]
    omega

end Machine
