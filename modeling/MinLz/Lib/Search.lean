import Mathlib

/-! # Bisection

The partition point of a slice whose elements satisfy a predicate up to some
position and not from there on, by halving the range that is left.
-/

namespace Search

/-- `base` after halving a range of `size` elements down to one. -/
def bisect (holds : Nat → Bool) (base size : Nat) : Nat :=
  if _h : 1 < size then
    let half := size / 2
    let mid := base + half
    bisect holds (if holds mid then mid else base) (size - half)
  else base
termination_by size
decreasing_by omega

/-- The number of positions below `size` before the predicate stops holding. -/
def partitionPoint (holds : Nat → Bool) (size : Nat) : Nat :=
  if size = 0 then 0
  else
    let base := bisect holds 0 size
    if holds base then base + 1 else base

/-- The predicate holds of the first `n` of `size` positions and of no other. -/
structure Partitioned (holds : Nat → Bool) (size n : Nat) : Prop where
  inside : n ≤ size
  below : ∀ i < n, holds i = true
  above : ∀ i, n ≤ i → i < size → holds i = false

variable {holds : Nat → Bool} {total n : Nat}

/-- The position found is the last below `n`, or the first when `n` is 0. -/
theorem bisect_eq (part : Partitioned holds total n) (base size : Nat) (some : 1 ≤ size)
    (inside : base + size ≤ total) (low : base = 0 ∨ base < n) (high : n ≤ base + size) :
    bisect holds base size = n - 1 := by
  induction base, size using bisect.induct holds with
  | case1 base size more half mid ih =>
      rw [bisect, dif_pos more]
      by_cases found : mid < n
      · have hit := part.below mid found
        rw [dif_pos hit] at ih
        simp only [mid, half] at hit ih found ⊢
        rw [if_pos hit]
        exact ih (by omega) (by omega) (by omega) (by omega)
      · have miss := part.above mid (by omega) (by omega)
        rw [dif_neg (by rw [miss]; decide)] at ih
        simp only [mid, half] at miss ih found ⊢
        rw [if_neg (by rw [miss]; decide)]
        exact ih (by omega) (by omega) low (by omega)
  | case2 base size one =>
      rw [bisect, dif_neg one]
      omega

theorem partitionPoint_eq (part : Partitioned holds total n) : partitionPoint holds total = n := by
  have inside := part.inside
  rw [partitionPoint]
  split
  · omega
  · next some =>
      simp only
      rw [bisect_eq part 0 total (by omega) (by omega) (.inl rfl) (by omega)]
      by_cases none : n = 0
      · subst none
        rw [part.above 0 le_rfl (by omega)]
        rfl
      · rw [part.below (n - 1) (by omega), if_pos rfl]
        omega

end Search
