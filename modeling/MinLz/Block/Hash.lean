import MinLz.Block.LoadStore
import MinLz.Lib.Trie

/-! # Hashes and hash tables

`hashN` hashes the lowest `N` bytes of a 64-bit value to `h` bits. The tables
are indexed with a bounds check, so a hash has to stay below its table's size.
-/

namespace MinLz.Block

/-- The multiplication and final shift shared by the 64-bit hashes; `lift` drops
    the bytes above the hashed ones. -/
def hash64 (prime lift u h : Nat) : Nat :=
  ((u <<< lift) % 2 ^ 64 * prime % 2 ^ 64) >>> ((64 - h) &&& 63) % 2 ^ 32

def hash4 (u h : Nat) : Nat := (u % 2 ^ 32 * 2654435761 % 2 ^ 32) >>> ((32 - h) &&& 31)
def hash5 (u h : Nat) : Nat := hash64 889523592379 (64 - 40) u h
def hash6 (u h : Nat) : Nat := hash64 227718039650203 (64 - 48) u h
def hash7 (u h : Nat) : Nat := hash64 58295818150454627 (64 - 56) u h
def hash8 (u h : Nat) : Nat := hash64 0xcf1bbcdcb7a56463 0 u h

theorem shiftRight_lt {x w h : Nat} (hx : x < 2 ^ w) (hh : h ≤ w) : x >>> (w - h) < 2 ^ h := by
  rw [Nat.shiftRight_eq_div_pow]
  apply Nat.div_lt_of_lt_mul
  rwa [← pow_add, Nat.sub_add_cancel hh]

theorem hash64_lt (prime lift u : Nat) {h : Nat} (pos : 0 < h) (hh : h ≤ 64) :
    hash64 prime lift u h < 2 ^ h := by
  have shift : (64 - h) &&& 63 = 64 - h := by
    rw [Bits.and_sixtyThree]
    omega
  rw [hash64, shift]
  apply Nat.lt_of_le_of_lt (Nat.mod_le _ _)
  exact shiftRight_lt (Nat.mod_lt _ (by decide)) hh

theorem hash4_lt (u : Nat) {h : Nat} (pos : 0 < h) (hh : h ≤ 32) : hash4 u h < 2 ^ h := by
  have shift : (32 - h) &&& 31 = 32 - h := by
    rw [Nat.and_two_pow_sub_one_eq_mod (32 - h) 5]
    omega
  rw [hash4, shift]
  exact shiftRight_lt (Nat.mod_lt _ (by decide)) hh

/-- A table of `2 ^ bits` entries. -/
structure Table where
  bits : Nat
  cells : Trie Nat

namespace Table

def zeros (bits : Nat) : Table := ⟨bits, .leaf 0⟩

def get (t : Table) (h : Nat) : Exec Nat :=
  if h < 2 ^ t.bits then .ok (t.cells.get h) else .error (.fault .panic)

def set (t : Table) (h v : Nat) : Exec Table :=
  if h < 2 ^ t.bits then .ok { t with cells := t.cells.set t.bits h v }
  else .error (.fault .panic)

/-- Every entry satisfies `p`; a hash table promises nothing more. -/
def All (p : Nat → Prop) (t : Table) : Prop := ∀ h < 2 ^ t.bits, p (t.cells.get h)

theorem all_zeros {p : Nat → Prop} (zero : p 0) (bits : Nat) : (zeros bits).All p :=
  fun _ _ => zero

theorem All.mono {p q : Nat → Prop} {t : Table} (h : t.All p) (weaker : ∀ v, p v → q v) :
    t.All q := fun i hi => weaker _ (h i hi)

theorem get_ok {t : Table} {h : Nat} (inside : h < 2 ^ t.bits) :
    t.get h = .ok (t.cells.get h) := if_pos inside

/-- An entry that is put in keeps `All`; the table keeps its size. -/
theorem set_ok {p : Nat → Prop} {t : Table} {h v : Nat} (all : t.All p) (inside : h < 2 ^ t.bits)
    (new : p v) : ∃ t' : Table, t.set h v = .ok t' ∧ t'.bits = t.bits ∧ t'.All p := by
  refine ⟨_, if_pos inside, rfl, ?_⟩
  intro i hi
  simp only
  rw [Trie.get_set _ _ _ inside hi]
  split
  · exact new
  · exact all i hi

end Table

end MinLz.Block
