import Mathlib

/-! # Byte slices and little-endian words

A slice is a length and the bytes at its positions. Bytes at or past the length
are never looked at by a checked access, so a slice reads like an array and is
updated like a function.
-/

structure Slice where
  len : Nat
  get : Nat → UInt8

namespace Slice

/-- The bytes at `i .. i + n`, as a list. -/
def list (b : Slice) (i n : Nat) : List UInt8 := (List.range n).map (fun k => b.get (i + k))

def toList (b : Slice) : List UInt8 := b.list 0 b.len

def ofList (l : List UInt8) : Slice := ⟨l.length, fun i => l.getD i 0⟩

/-- The slice with the bytes `bs` written over its content from `i` on. -/
def splice (b : Slice) (i : Nat) (bs : List UInt8) : Slice :=
  ⟨b.len, fun j => if i ≤ j then bs.getD (j - i) (b.get j) else b.get j⟩

/-- The little-endian value of the `k` bytes from `i` on. -/
def word (b : Slice) : Nat → Nat → Nat
  | 0, _ => 0
  | k + 1, i => (b.get i).toNat + 256 * b.word k (i + 1)

/-- The `n` bytes from `i` and from `j` on are the same. -/
def Same (b : Slice) (i j n : Nat) : Prop := ∀ k < n, b.get (i + k) = b.get (j + k)

theorem Same.head {b : Slice} {i j n k : Nat} (h : b.Same i j n) (hk : k ≤ n) : b.Same i j k :=
  fun m hm => h m (by omega)

theorem Same.append {b : Slice} {i j m n : Nat} (h : b.Same i j m)
    (h' : b.Same (i + m) (j + m) n) : b.Same i j (m + n) := by
  intro k hk
  by_cases inside : k < m
  · exact h k inside
  · have := h' (k - m) (by omega)
    rwa [Nat.add_assoc, Nat.add_assoc, Nat.add_sub_cancel' (Nat.not_lt.mp inside)] at this

/-- The bytes from `i` up to `j` repeat those `offset` before them. -/
def Repeats (b : Slice) (offset i j : Nat) : Prop :=
  ∀ p, i ≤ p → p < j → b.get (p - offset) = b.get p

theorem Repeats.join {b : Slice} {offset i j j' k : Nat} (h : b.Repeats offset i j)
    (h' : b.Repeats offset j' k) (meet : j' ≤ j) : b.Repeats offset i k := by
  intro p hi hk
  by_cases first : p < j
  · exact h p hi first
  · exact h' p (by omega) hk

theorem Same.repeats {b : Slice} {i j n offset : Nat} (h : b.Same i j n) (apart : i + offset = j) :
    b.Repeats offset j (j + n) := by
  intro p hj hn
  have := h (p - j) (by omega)
  rwa [show i + (p - j) = p - offset by omega, show j + (p - j) = p by omega] at this

theorem Repeats.same {b : Slice} {offset i j : Nat} (h : b.Repeats offset i j) (le : offset ≤ i) :
    b.Same (i - offset) i (j - i) := by
  intro k hk
  have := h (i + k) (by omega) (by omega)
  rwa [Nat.sub_add_comm le] at this

@[simp] theorem length_list (b : Slice) (i n : Nat) : (b.list i n).length = n := by simp [list]

@[simp] theorem getElem_list (b : Slice) (i n k : Nat) (h : k < (b.list i n).length) :
    (b.list i n)[k] = b.get (i + k) := by simp [list]

theorem list_congr {b c : Slice} {i n : Nat} (h : ∀ k < n, b.get (i + k) = c.get (i + k)) :
    b.list i n = c.list i n :=
  List.map_congr_left (fun k hk => h k (List.mem_range.mp hk))

theorem list_append (b : Slice) (i m n : Nat) :
    b.list i m ++ b.list (i + m) n = b.list i (m + n) := by
  simp [list, List.range_add, Nat.add_assoc]

theorem take_list (b : Slice) (i m n : Nat) (h : m ≤ n) : (b.list i n).take m = b.list i m := by
  apply List.ext_getElem
  · simp; omega
  · intro k h₁ h₂
    simp

@[simp] theorem length_toList (b : Slice) : b.toList.length = b.len := by simp [toList]

@[simp] theorem toList_ofList (l : List UInt8) : (ofList l).toList = l := by
  apply List.ext_getElem
  · simp [toList, ofList]
  · intro k _ h
    simp [toList, ofList, h]

@[simp] theorem len_ofList (l : List UInt8) : (ofList l).len = l.length := rfl

@[simp] theorem len_splice (b : Slice) (i : Nat) (bs : List UInt8) :
    (b.splice i bs).len = b.len := rfl

theorem get_splice_lt (b : Slice) (bs : List UInt8) {i j : Nat} (h : j < i) :
    (b.splice i bs).get j = b.get j := by
  simp [splice, Nat.not_le.mpr h]

theorem get_splice_add (b : Slice) (bs : List UInt8) (i k : Nat) (h : k < bs.length) :
    (b.splice i bs).get (i + k) = bs[k] := by
  simp [splice, h]

/-- Writing at the end of the first `i` bytes appends to them. -/
theorem list_splice (b : Slice) (i n : Nat) (bs : List UInt8) (h : n ≤ bs.length) :
    (b.splice i bs).list 0 (i + n) = b.list 0 i ++ bs.take n := by
  rw [← list_append, Nat.zero_add]
  congr 1
  · exact list_congr (fun k hk => get_splice_lt b bs (by omega))
  · apply List.ext_getElem
    · simp [h]
    · intro k hk _
      have inside : k < bs.length := by simp at hk; omega
      simp [get_splice_add b bs i k inside]

theorem splice_append (b : Slice) (i : Nat) (as bs : List UInt8) :
    (b.splice i as).splice (i + as.length) bs = b.splice i (as ++ bs) := by
  simp only [splice, Slice.mk.injEq, true_and]
  funext j
  simp only [List.getD_eq_getElem?_getD, List.getElem?_append]
  by_cases h : i + as.length ≤ j
  · have h₁ : i ≤ j := by omega
    have h₂ : ¬ j - i < as.length := by omega
    have h₃ : j - (i + as.length) = j - i - as.length := by omega
    simp [h, h₁, h₂, h₃]
  · by_cases hi : i ≤ j
    · have h₂ : j - i < as.length := by omega
      simp [h, hi, h₂]
    · simp [h, hi]

theorem splice_prepend (b : Slice) (i : Nat) (as bs : List UInt8) :
    (b.splice (i + as.length) bs).splice i as = b.splice i (as ++ bs) := by
  simp only [splice, Slice.mk.injEq, true_and]
  funext j
  simp only [List.getD_eq_getElem?_getD, List.getElem?_append]
  by_cases hi : i ≤ j
  · by_cases h : j - i < as.length
    · simp [hi, h]
    · have past : i + as.length ≤ j := by omega
      have gap : j - (i + as.length) = j - i - as.length := by omega
      simp [hi, h, past, gap]
  · have past : ¬ i + as.length ≤ j := by omega
    simp [hi, past]

theorem splice_after {b : Slice} {i j : Nat} {as : List UInt8} (bs : List UInt8)
    (h : j = i + as.length) : (b.splice i as).splice j bs = b.splice i (as ++ bs) := by
  rw [h, splice_append]

theorem splice_before {b : Slice} {i j : Nat} {as : List UInt8} (bs : List UInt8)
    (h : j = i + as.length) : (b.splice j bs).splice i as = b.splice i (as ++ bs) := by
  rw [h, splice_prepend]

theorem splice_nil (b : Slice) (i : Nat) : b.splice i [] = b := by
  simp [splice]

/-- The bytes `bs` stand in the slice from `i` on. -/
def Holds (b : Slice) (i : Nat) (bs : List UInt8) : Prop :=
  ∀ k (h : k < bs.length), b.get (i + k) = bs[k]

theorem holds_list (b : Slice) (i n : Nat) : b.Holds i (b.list i n) := by
  intro k h
  simp

theorem Holds.list_eq {b : Slice} {i : Nat} {bs : List UInt8} (h : b.Holds i bs) :
    b.list i bs.length = bs := by
  apply List.ext_getElem
  · simp
  · intro k _ hk
    simpa using h k hk

theorem holds_append {b : Slice} {i : Nat} {as bs : List UInt8} :
    b.Holds i (as ++ bs) ↔ b.Holds i as ∧ b.Holds (i + as.length) bs := by
  constructor
  · intro h
    refine ⟨fun k hk => ?_, fun k hk => ?_⟩
    · have := h k (by simp; omega)
      rwa [List.getElem_append_left hk] at this
    · have := h (as.length + k) (by simp; omega)
      simpa [List.getElem_append_right, Nat.add_assoc] using this
  · rintro ⟨ha, hb⟩ k hk
    by_cases inside : k < as.length
    · rw [List.getElem_append_left inside]
      exact ha k inside
    · have := hb (k - as.length) (by simp at hk; omega)
      rw [List.getElem_append_right (by omega), ← this]
      congr 1
      omega

theorem holds_cons {b : Slice} {i : Nat} {x : UInt8} {bs : List UInt8} :
    b.Holds i (x :: bs) ↔ b.get i = x ∧ b.Holds (i + 1) bs := by
  have one : b.Holds i [x] ↔ b.get i = x := by
    constructor
    · intro h
      simpa using h 0 (by simp)
    · intro h k hk
      obtain rfl : k = 0 := by simpa using hk
      simpa using h
  simpa [one] using @holds_append b i [x] bs

/-- The low `k` bytes of a value, least significant first. -/
def leBytes : Nat → Nat → List UInt8
  | 0, _ => []
  | k + 1, v => UInt8.ofNat v :: leBytes k (v / 256)

@[simp] theorem length_leBytes (k : Nat) : ∀ v, (leBytes k v).length = k := by
  induction k with
  | zero => intro v; rfl
  | succ k ih => intro v; simp [leBytes, ih]

theorem leBytes_two (v : Nat) : leBytes 2 v = leBytes 1 v ++ leBytes 1 (v >>> 8) := by
  simp [leBytes, Nat.shiftRight_eq_div_pow]

theorem leBytes_three (v : Nat) :
    leBytes 3 v = leBytes 1 v ++ (leBytes 1 (v >>> 8) ++ leBytes 1 (v >>> 16)) := by
  simp [leBytes, Nat.shiftRight_eq_div_pow, Nat.div_div_eq_div_mul]

theorem list_succ (b : Slice) (i n : Nat) : b.list i (n + 1) = b.get i :: b.list (i + 1) n := by
  rw [Nat.add_comm n 1, ← list_append]
  rfl

theorem leBytes_word (b : Slice) (k : Nat) : ∀ i, leBytes k (b.word k i) = b.list i k := by
  induction k with
  | zero => intro i; rfl
  | succ k ih =>
      intro i
      have head : UInt8.ofNat ((b.get i).toNat + 256 * b.word k (i + 1)) = b.get i := by
        apply UInt8.toNat_inj.mp
        have := (b.get i).toNat_lt
        rw [UInt8.toNat_ofNat']
        omega
      have tail : ((b.get i).toNat + 256 * b.word k (i + 1)) / 256 = b.word k (i + 1) := by
        have := (b.get i).toNat_lt
        omega
      rw [list_succ, word, leBytes, head, tail, ih]

theorem word_lt (b : Slice) (k : Nat) : ∀ i, b.word k i < 256 ^ k := by
  induction k with
  | zero => intro i; simp [word]
  | succ k ih =>
      intro i
      have := ih (i + 1)
      have := (b.get i).toNat_lt
      rw [word, pow_succ]
      omega

theorem word_add (b : Slice) (j k : Nat) : ∀ i,
    b.word (j + k) i = b.word j i + 256 ^ j * b.word k (i + j) := by
  induction j with
  | zero => intro i; simp [word]
  | succ j ih =>
      intro i
      rw [Nat.add_right_comm, word, word, ih, pow_succ, Nat.add_right_comm i 1 j]
      simp only [Nat.add_assoc]
      ring

theorem word_mod (b : Slice) (j k i : Nat) : b.word (j + k) i % 256 ^ j = b.word j i := by
  rw [word_add, Nat.add_mul_mod_self_left, Nat.mod_eq_of_lt (word_lt b j i)]

theorem word_div (b : Slice) (j k i : Nat) : b.word (j + k) i / 256 ^ j = b.word k (i + j) := by
  rw [word_add, Nat.add_mul_div_left _ _ (by positivity), Nat.div_eq_of_lt (word_lt b j i),
    Nat.zero_add]

theorem word_congr {b c : Slice} {k : Nat} : ∀ {i : Nat},
    (∀ j < k, b.get (i + j) = c.get (i + j)) → b.word k i = c.word k i := by
  induction k with
  | zero => intro i _; rfl
  | succ k ih =>
      intro i h
      have head := h 0 (by omega)
      have tail : b.word k (i + 1) = c.word k (i + 1) := ih (fun j hj => by
        simpa only [Nat.add_assoc, Nat.add_comm 1] using h (j + 1) (by omega))
      simp only [Nat.add_zero] at head
      simp only [word, head, tail]

theorem word_eq_iff (b : Slice) (k : Nat) : ∀ i j, b.word k i = b.word k j ↔ b.Same i j k := by
  induction k with
  | zero => intro i j; simp [word, Same]
  | succ k ih =>
      intro i j
      have hi := (b.get i).toNat_lt
      have hj := (b.get j).toNat_lt
      have split : b.word (k + 1) i = b.word (k + 1) j ↔
          (b.get i).toNat = (b.get j).toNat ∧ b.word k (i + 1) = b.word k (j + 1) := by
        simp only [word]
        omega
      rw [split, UInt8.toNat_inj, ih]
      constructor
      · rintro ⟨head, tail⟩ m hm
        cases m with
        | zero => exact head
        | succ m => simpa only [Nat.add_assoc, Nat.add_comm 1] using tail m (by omega)
      · intro same
        refine ⟨same 0 (by omega), fun m hm => ?_⟩
        simpa only [Nat.add_assoc, Nat.add_comm 1] using same (m + 1) (by omega)

theorem Holds.word {b : Slice} {k : Nat} : ∀ {i v : Nat}, b.Holds i (leBytes k v) →
    b.word k i = v % 256 ^ k := by
  induction k with
  | zero => intro i v _; simp [Slice.word, Nat.mod_one]
  | succ k ih =>
      intro i v h
      obtain ⟨head, tail⟩ := holds_cons.mp h
      have split := Nat.mod_mul (a := 256) (b := 256 ^ k) (x := v)
      rw [Slice.word, head, ih tail, UInt8.toNat_ofNat', pow_succ' 256, split]

end Slice

/-- Trailing zero bits of a 64-bit value; 64 for zero. -/
def trailingZeros (x : Nat) : Nat := go 64 x
where
  go : Nat → Nat → Nat
  | 0, _ => 0
  | k + 1, x => if x % 2 = 1 then 0 else 1 + go k (x / 2)

namespace TrailingZeros

theorem byte_zero (n x : Nat) (h : x % 256 = 0) :
    trailingZeros.go (8 + n) x = 8 + trailingZeros.go n (x / 256) := by
  rw [Nat.add_comm 8 n]
  simp only [trailingZeros.go]
  have h₀ : ¬ x % 2 = 1 := by omega
  have h₁ : ¬ x / 2 % 2 = 1 := by omega
  have h₂ : ¬ x / 2 / 2 % 2 = 1 := by omega
  have h₃ : ¬ x / 2 / 2 / 2 % 2 = 1 := by omega
  have h₄ : ¬ x / 2 / 2 / 2 / 2 % 2 = 1 := by omega
  have h₅ : ¬ x / 2 / 2 / 2 / 2 / 2 % 2 = 1 := by omega
  have h₆ : ¬ x / 2 / 2 / 2 / 2 / 2 / 2 % 2 = 1 := by omega
  have h₇ : ¬ x / 2 / 2 / 2 / 2 / 2 / 2 / 2 % 2 = 1 := by omega
  have h₈ : x / 2 / 2 / 2 / 2 / 2 / 2 / 2 / 2 = x / 256 := by omega
  simp only [h₀, h₁, h₂, h₃, h₄, h₅, h₆, h₇, h₈, if_false]
  omega

theorem byte_nonzero : ∀ n x m, x % 2 ^ m ≠ 0 → trailingZeros.go (m + n) x < m := by
  intro n x m
  induction m generalizing x with
  | zero => intro h; simp [Nat.mod_one] at h
  | succ m ih =>
      intro h
      rw [Nat.add_right_comm]
      simp only [trailingZeros.go]
      split
      · omega
      · have : x / 2 % 2 ^ m ≠ 0 := by
          rw [pow_succ'] at h
          have e := Nat.mod_mul (a := 2) (b := 2 ^ m) (x := x)
          omega
        have := ih (x / 2) this
        omega

end TrailingZeros

namespace Slice

private theorem xor_low (a c x y : Nat) (ha : a < 256) (hc : c < 256) :
    ((a + 256 * x) ^^^ (c + 256 * y)) % 256 = a ^^^ c := by
  have h := Nat.xor_mod_two_pow (a := a + 256 * x) (b := c + 256 * y) (n := 8)
  norm_num at h
  rwa [Nat.mod_eq_of_lt ha, Nat.mod_eq_of_lt hc] at h

private theorem xor_high (a c x y : Nat) (ha : a < 256) (hc : c < 256) :
    ((a + 256 * x) ^^^ (c + 256 * y)) / 256 = x ^^^ y := by
  have h := Nat.xor_div_two_pow (a := a + 256 * x) (b := c + 256 * y) (n := 8)
  norm_num at h
  rwa [Nat.add_mul_div_left _ _ (by decide), Nat.add_mul_div_left _ _ (by decide),
    Nat.div_eq_of_lt ha, Nat.div_eq_of_lt hc, Nat.zero_add, Nat.zero_add] at h

/-- Counting the trailing zero bits of the difference finds the first byte that
    differs. -/
theorem xor_first_difference (b : Slice) (k : Nat) : ∀ i j n, 8 * k ≤ n →
    b.word k i ^^^ b.word k j ≠ 0 →
    let q := trailingZeros.go n (b.word k i ^^^ b.word k j) >>> 3
    q < k ∧ b.Same i j q ∧ b.get (i + q) ≠ b.get (j + q) := by
  induction k with
  | zero => intro i j n _ h; simp [word] at h
  | succ k ih =>
      intro i j n hn h
      obtain ⟨n, rfl⟩ : ∃ m, n = 8 + m := ⟨n - 8, by omega⟩
      have hi := (b.get i).toNat_lt
      have hj := (b.get j).toNat_lt
      have low := xor_low _ _ (b.word k (i + 1)) (b.word k (j + 1)) hi hj
      have high := xor_high _ _ (b.word k (i + 1)) (b.word k (j + 1)) hi hj
      simp only [word] at h ⊢
      by_cases same : b.get i = b.get j
      · rw [same, Nat.xor_self] at low
        rw [same] at h high ⊢
        have rest : b.word k (i + 1) ^^^ b.word k (j + 1) ≠ 0 := by
          rw [← high]
          omega
        obtain ⟨hq, hsame, hdiff⟩ := ih (i + 1) (j + 1) n (by omega) rest
        rw [TrailingZeros.byte_zero _ _ low, high]
        have shift : (8 + trailingZeros.go n (b.word k (i + 1) ^^^ b.word k (j + 1))) >>> 3 =
            trailingZeros.go n (b.word k (i + 1) ^^^ b.word k (j + 1)) >>> 3 + 1 := by
          simp only [Nat.shiftRight_eq_div_pow]
          omega
        rw [shift]
        refine ⟨by omega, ?_, ?_⟩
        · intro m hm
          cases m with
          | zero => exact same
          | succ m => simpa only [Nat.add_assoc, Nat.add_comm 1] using hsame m (by omega)
        · simpa only [Nat.add_assoc, Nat.add_comm 1] using hdiff
      · have zero : trailingZeros.go (8 + n) (((b.get i).toNat + 256 * b.word k (i + 1)) ^^^
            ((b.get j).toNat + 256 * b.word k (j + 1))) >>> 3 = 0 := by
          have nonzero : (((b.get i).toNat + 256 * b.word k (i + 1)) ^^^
              ((b.get j).toNat + 256 * b.word k (j + 1))) % 2 ^ 8 ≠ 0 := by
            rw [show (2 : Nat) ^ 8 = 256 from rfl, low, Ne, Nat.xor_eq_zero_iff]
            exact fun e => same (UInt8.toNat_inj.mp e)
          have := TrailingZeros.byte_nonzero n _ 8 nonzero
          rw [Nat.shiftRight_eq_div_pow]
          omega
        rw [zero]
        exact ⟨by omega, fun m hm => absurd hm (by omega), same⟩

end Slice

namespace Bits

theorem and_three (v : Nat) : v &&& 3 = v % 4 := Nat.and_two_pow_sub_one_eq_mod v 2

theorem and_seven (v : Nat) : v &&& 7 = v % 8 := Nat.and_two_pow_sub_one_eq_mod v 3

theorem and_fifteen (v : Nat) : v &&& 15 = v % 16 := Nat.and_two_pow_sub_one_eq_mod v 4

theorem and_sixtyThree (v : Nat) : v &&& 63 = v % 64 := Nat.and_two_pow_sub_one_eq_mod v 6

theorem and_ffff (v : Nat) : v &&& 65535 = v % 65536 := Nat.and_two_pow_sub_one_eq_mod v 16

theorem and_four_eq_zero (v : Nat) : v &&& 4 = 0 ↔ v / 4 % 2 = 0 := by
  have h := Nat.and_two_pow v 2
  rw [Nat.testBit_eq_decide_div_mod_eq] at h
  cases Nat.mod_two_eq_zero_or_one (v / 4) with
  | inl even => simp_all
  | inr odd => simp_all

/-- A mask of `w` bits above the lowest `k` picks out the field there. -/
theorem and_mask_shiftRight (v k w : Nat) :
    (v &&& (2 ^ w - 1) <<< k) >>> k = v >>> k % 2 ^ w := by
  rw [Nat.shiftRight_and_distrib, Nat.shiftLeft_shiftRight, Nat.and_two_pow_sub_one_eq_mod]

theorem or_shiftLeft (k : Nat) {a : Nat} (b : Nat) (h : a < 2 ^ k) :
    a ||| b <<< k = a + b * 2 ^ k := by
  rw [Nat.lor_comm, Nat.shiftLeft_eq, Nat.mul_comm b, ← Nat.two_pow_add_eq_or_of_lt h, Nat.add_comm]

theorem shiftLeft_or (k a : Nat) {b : Nat} (h : b < 2 ^ k) : a <<< k ||| b = a * 2 ^ k + b := by
  rw [Nat.shiftLeft_eq, Nat.mul_comm a, Nat.two_pow_add_eq_or_of_lt h]

/-- Three little-endian bytes, put together again. -/
theorem or_three {a b : Nat} (c : Nat) (ha : a < 256) (hb : b < 256) :
    a ||| b <<< 8 ||| c <<< 16 = a + 256 * b + 65536 * c := by
  rw [or_shiftLeft 8 b (by omega), or_shiftLeft 16 c (by omega)]
  omega

theorem three_bytes (n : Nat) : (UInt8.ofNat n).toNat ||| (UInt8.ofNat (n >>> 8)).toNat <<< 8 |||
    (UInt8.ofNat (n >>> 16)).toNat <<< 16 = n % 2 ^ 24 := by
  simp only [UInt8.toNat_ofNat', Nat.shiftRight_eq_div_pow]
  rw [or_three _ (Nat.mod_lt _ (by norm_num)) (Nat.mod_lt _ (by norm_num))]
  omega

end Bits
