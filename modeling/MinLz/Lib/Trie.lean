import Mathlib

/-! # Fixed-size arrays as binary tries

An array of `2 ^ depth` cells that starts out constant. A `leaf` is a constant
subarray of any size, so building the initial array costs nothing, and an update
only touches the path to its cell.
-/

inductive Trie (α : Type u) where
  | leaf (a : α)
  | node (even odd : Trie α)

namespace Trie

variable {α : Type u}

def get : Trie α → Nat → α
  | .leaf a, _ => a
  | .node even odd, i => if i % 2 = 0 then even.get (i / 2) else odd.get (i / 2)

def set : Nat → Trie α → Nat → α → Trie α
  | 0, _, _, v => .leaf v
  | d + 1, .leaf a, i, v =>
      if i % 2 = 0 then .node (set d (.leaf a) (i / 2) v) (.leaf a)
      else .node (.leaf a) (set d (.leaf a) (i / 2) v)
  | d + 1, .node even odd, i, v =>
      if i % 2 = 0 then .node (set d even (i / 2) v) odd
      else .node even (set d odd (i / 2) v)

@[simp] theorem get_leaf (a : α) (i : Nat) : (leaf a).get i = a := rfl

theorem get_set (d : Nat) : ∀ (t : Trie α) {i j : Nat} (v : α), i < 2 ^ d → j < 2 ^ d →
    (t.set d i v).get j = if j = i then v else t.get j := by
  induction d with
  | zero =>
      intro t i j v hi hj
      have : j = i := by omega
      simp [set, this]
  | succ d ih =>
      intro t i j v hi hj
      have hi' : i / 2 < 2 ^ d := by omega
      have hj' : j / 2 < 2 ^ d := by omega
      have key : j % 2 = i % 2 → (j / 2 = i / 2 ↔ j = i) := by omega
      cases t with
      | leaf a =>
          simp only [set]
          split <;> simp only [get] <;> split <;> (try rw [ih _ v hi' hj']) <;> grind [get]
      | node even odd =>
          simp only [set]
          split <;> simp only [get] <;> split <;> (try rw [ih _ v hi' hj']) <;> grind [get]

end Trie
