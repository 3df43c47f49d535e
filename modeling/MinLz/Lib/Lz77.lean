import Mathlib

/-! # LZ77 copies

A copy repeats, item by item, what stands `offset` places back in the output so
far; the source may overlap the items being written. The one fact a matcher
needs is `copy_prefix`: where a sequence repeats itself at distance `offset`,
copying extends a prefix of it to a longer prefix.
-/

namespace Lz77

variable {α : Type u}

/-- The first `n` items of a sequence. -/
def initial (x : Nat → α) (n : Nat) : List α := (List.range n).map x

@[simp] theorem length_initial (x : Nat → α) (n : Nat) : (initial x n).length = n := by
  simp [initial]

theorem initial_succ (x : Nat → α) (n : Nat) : initial x (n + 1) = initial x n ++ [x n] := by
  simp [initial, List.range_succ]

theorem initial_congr {x y : Nat → α} {n : Nat} (h : ∀ i < n, x i = y i) :
    initial x n = initial y n :=
  List.map_congr_left (fun i hi => h i (List.mem_range.mp hi))

variable [Inhabited α]

def copy (offset : Nat) : Nat → List α → List α
  | 0, out => out
  | n + 1, out => copy offset n (out ++ [out.getD (out.length - offset) default])

@[simp] theorem length_copy (offset n : Nat) : ∀ out : List α,
    (copy offset n out).length = out.length + n := by
  induction n with
  | zero => intro out; rfl
  | succ n ih => intro out; simp [copy, ih]; omega

/-- A copy in two parts, the second of them with the same offset. -/
theorem copy_add (offset m n : Nat) : ∀ out : List α,
    copy offset n (copy offset m out) = copy offset (m + n) out := by
  induction m with
  | zero => intro out; rw [Nat.zero_add]; rfl
  | succ m ih => intro out; rw [Nat.succ_add]; exact ih _

/-- Copying extends a prefix of a sequence that repeats itself at that distance. -/
theorem copy_prefix (x : Nat → α) {offset : Nat} (n : Nat) : ∀ p, 1 ≤ offset → offset ≤ p →
    (∀ k < n, x (p - offset + k) = x (p + k)) →
    copy offset n (initial x p) = initial x (p + n) := by
  induction n with
  | zero => intro p _ _ _; rfl
  | succ n ih =>
      intro p pos back same
      have head : (initial x p).getD (p - offset) default = x p := by
        have inside : p - offset < p := by omega
        have := same 0 (by omega)
        simpa [initial, inside] using this
      rw [copy, length_initial, head, ← initial_succ, ih (p + 1) pos (by omega), Nat.add_right_comm,
        Nat.add_assoc]
      intro k hk
      have := same (k + 1) (by omega)
      rwa [show p - offset + (k + 1) = p + 1 - offset + k by omega,
        show p + (k + 1) = p + 1 + k by omega] at this

end Lz77
