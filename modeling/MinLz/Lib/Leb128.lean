import Mathlib

/-! # Unsigned LEB128

Seven value bits a byte, low bits first, the top bit set on every byte but the
last. Values are 64-bit, so an encoding has at most ten bytes and the tenth holds
a single bit.
-/

namespace Leb128

def maxLength : Nat := 10

inductive Failure where
  | truncated
  | overflow
  deriving DecidableEq, Repr

/-- The bytes of `v`; a 64-bit value is finished within ten bytes. -/
def encode (v : Nat) : List UInt8 := go maxLength v
where
  go : Nat → Nat → List UInt8
  | 0, _ => []
  | k + 1, v =>
      if v ≥ 0x80 then UInt8.ofNat (v ||| 0x80) :: go k (v >>> 7) else [UInt8.ofNat v]

/-- The value at the head of `src` and the number of bytes it takes. -/
def decode (src : List UInt8) : Except Failure (Nat × Nat) := go 0 0 0 src
where
  go (i x s : Nat) : List UInt8 → Except Failure (Nat × Nat)
  | [] => .error .truncated
  | b :: rest =>
      if i = maxLength then .error .overflow
      else if b.toNat < 0x80 then
        if i = maxLength - 1 ∧ b.toNat > 1 then .error .overflow
        else .ok (x ||| (b.toNat <<< s) % 2 ^ 64, i + 1)
      else go (i + 1) (x ||| ((b.toNat &&& 0x7f) <<< s) % 2 ^ 64) (s + 7) rest

/-- `decode` with the shift of the machine it runs on; `none` when that fails. -/
def scan (shl : Nat → Nat → Option Nat) (src : List UInt8) : Option (Except Failure (Nat × Nat)) :=
  go 0 0 0 src
where
  go (i x s : Nat) : List UInt8 → Option (Except Failure (Nat × Nat))
  | [] => some (.error .truncated)
  | b :: rest => do
      if i = maxLength then return .error .overflow
      if b.toNat < 0x80 then
        if i = maxLength - 1 ∧ b.toNat > 1 then return .error .overflow
        return .ok (x ||| (← shl b.toNat s), i + 1)
      go (i + 1) (x ||| (← shl (b.toNat &&& 0x7f) s)) (s + 7) rest

/-- Shifts by 64 and more are never asked for: `scan` needs the smaller ones only. -/
theorem scan_eq {shl : Nat → Nat → Option Nat}
    (below : ∀ x s, s < 64 → shl x s = some ((x <<< s) % 2 ^ 64)) (src : List UInt8) :
    scan shl src = some (decode src) := by
  have go (src : List UInt8) : ∀ i x, i ≤ maxLength →
      scan.go shl i x (7 * i) src = some (decode.go i x (7 * i) src) := by
    induction src with
    | nil => intro i x _; rfl
    | cons b rest ih =>
        intro i x le
        rw [scan.go, decode.go]
        by_cases last : i = maxLength
        · rw [if_pos last, if_pos last]
          rfl
        · have room : 7 * i < 64 := by
            simp only [maxLength] at le last
            omega
          rw [if_neg last, if_neg last, below _ _ room, below _ _ room]
          split_ifs
          · rfl
          · rfl
          · exact ih (i + 1) _ (by omega)
  exact go src 0 0 (Nat.zero_le _)

theorem or_high (v : Nat) : (UInt8.ofNat (v ||| 0x80)).toNat = v % 128 + 128 := by
  have h : (v ||| 0x80) % 2 ^ 8 = v % 128 + 128 := by
    rw [Nat.or_mod_two_pow]
    have low : v % 2 ^ 8 = 2 ^ 7 * (v / 128 % 2) + v % 128 := by omega
    rcases Nat.mod_two_eq_zero_or_one (v / 128) with e | e
    · rw [low, e, Nat.mul_zero, Nat.zero_add, Nat.or_comm]
      exact (Nat.two_pow_add_eq_or_of_lt (i := 7) (b := v % 128) (by omega) 1).symm.trans
        (by omega)
    · have split := Nat.two_pow_add_eq_or_of_lt (i := 7) (b := v % 128) (by omega) 1
      rw [low, e, split, Nat.or_comm, ← Nat.or_assoc]
      simp only [Nat.mul_one, Nat.reducePow, Nat.reduceMod, Nat.or_self] at split ⊢
      omega
  rw [UInt8.toNat_ofNat']
  exact h

theorem and_low (b : Nat) : b &&& 0x7f = b % 128 := Nat.and_two_pow_sub_one_eq_mod b 7

/-- Adding the next group of bits above the ones already read. -/
theorem or_group {x s g : Nat} (hx : x < 2 ^ s) (hg : x + 2 ^ s * g < 2 ^ 64) :
    x ||| (g <<< s) % 2 ^ 64 = x + 2 ^ s * g := by
  have shifted : g <<< s = 2 ^ s * g := by rw [Nat.shiftLeft_eq, Nat.mul_comm]
  rw [shifted, Nat.mod_eq_of_lt (by omega), Nat.or_comm, ← Nat.two_pow_add_eq_or_of_lt hx,
    Nat.add_comm]

private theorem decode_go (t : List UInt8) (k : Nat) : ∀ v i x, i + k = maxLength →
    x < 2 ^ (7 * i) → x + 2 ^ (7 * i) * v < 2 ^ 64 → v < 2 ^ (64 - 7 * i) → (0 < i → 0 < v) →
    decode.go i x (7 * i) (encode.go k v ++ t) =
      .ok (x + 2 ^ (7 * i) * v, i + (encode.go k v).length) := by
  induction k with
  | zero =>
      intro v i x hi _ _ small more
      simp only [maxLength] at hi
      obtain rfl : i = 10 := by omega
      norm_num at small more
      omega
  | succ k ih =>
      intro v i x hi hx hv small _
      have more : i ≠ maxLength := by omega
      simp only [encode.go]
      split
      · next big =>
          have byte := or_high v
          have room : i < 9 := by
            simp only [maxLength] at hi
            by_contra h
            obtain rfl : i = 9 := by omega
            norm_num at small
            omega
          have split : v = v % 128 + 128 * (v / 128) := by omega
          have pow : 2 ^ (7 * (i + 1)) = 2 ^ (7 * i) * 128 := by
            rw [Nat.mul_add, pow_add]
            norm_num
          have value : x + 2 ^ (7 * i) * v =
              x + 2 ^ (7 * i) * (v % 128) + 2 ^ (7 * (i + 1)) * (v / 128) := by
            rw [pow]
            calc x + 2 ^ (7 * i) * v = x + 2 ^ (7 * i) * (v % 128 + 128 * (v / 128)) := by
                  rw [← split]
              _ = _ := by ring
          have tail := ih (v >>> 7) (i + 1) (x + 2 ^ (7 * i) * (v % 128)) (by omega)
            (by
              rw [pow]
              have : 2 ^ (7 * i) * (v % 128) ≤ 2 ^ (7 * i) * 127 :=
                Nat.mul_le_mul_left _ (by omega)
              omega)
            (by
              rw [Nat.shiftRight_eq_div_pow, show (2 : Nat) ^ 7 = 128 from rfl, ← value]
              exact hv)
            (by
              rw [Nat.shiftRight_eq_div_pow, Nat.div_lt_iff_lt_mul (by norm_num), ← pow_add,
                show 64 - 7 * (i + 1) + 7 = 64 - 7 * i by omega]
              exact small)
            (fun _ => by
              rw [Nat.shiftRight_eq_div_pow]
              omega)
          have group : x ||| (v % 128) <<< (7 * i) % 2 ^ 64 = x + 2 ^ (7 * i) * (v % 128) :=
            or_group hx (by rw [value] at hv; omega)
          simp only [List.cons_append, decode.go, if_neg more, byte, and_low]
          rw [if_neg (by omega), show (v % 128 + 128) % 128 = v % 128 by omega, group,
            show 7 * i + 7 = 7 * (i + 1) by omega, tail, Nat.shiftRight_eq_div_pow,
            show (2 : Nat) ^ 7 = 128 from rfl, ← value, List.length_cons]
          congr 2
          omega
      · next last =>
          have byte : (UInt8.ofNat v).toNat = v := by
            rw [UInt8.toNat_ofNat']
            omega
          simp only [List.cons_append, List.nil_append, decode.go, if_neg more, byte,
            List.length_singleton]
          rw [if_pos (by omega), if_neg, or_group hx hv]
          rintro ⟨nine, above⟩
          simp only [maxLength] at nine
          obtain rfl : i = 9 := by omega
          norm_num at small
          omega

/-- Decoding inverts encoding and leaves what follows alone. -/
theorem decode_encode {v : Nat} (h : v < 2 ^ 64) (t : List UInt8) :
    decode (encode v ++ t) = .ok (v, (encode v).length) := by
  simpa [decode, encode] using
    decode_go t maxLength v 0 0 rfl (by norm_num) (by omega) (by omega) (by omega)

private theorem length_go (k v : Nat) : (encode.go k v).length ≤ k := by
  induction k generalizing v with
  | zero => simp [encode.go]
  | succ k ih =>
      simp only [encode.go]
      split
      · simpa using ih (v >>> 7)
      · simp

theorem length_encode (v : Nat) : (encode v).length ≤ 10 := length_go maxLength v

theorem encode_pos (v : Nat) : 0 < (encode v).length := by
  simp only [encode, encode.go, maxLength]
  split <;> simp

/-- A value below `2 ^ (7 * n)` takes at most `n` bytes. -/
theorem length_encode_le {v n : Nat} (pos : 0 < n) (h : v < 2 ^ (7 * n)) :
    (encode v).length ≤ n := by
  have go : ∀ k n v, 0 < n → v < 2 ^ (7 * n) → (encode.go k v).length ≤ n := by
    intro k
    induction k with
    | zero => intro n v _ _; simp [encode.go]
    | succ k ih =>
        intro n v pos h
        simp only [encode.go]
        split
        · next big =>
            obtain ⟨n, rfl⟩ : ∃ m, n = m + 1 := ⟨n - 1, by omega⟩
            have below : v >>> 7 < 2 ^ (7 * n) := by
              rw [Nat.shiftRight_eq_div_pow, Nat.div_lt_iff_lt_mul (by norm_num), ← pow_add]
              exact h
            by_cases zero : n = 0
            · subst zero
              norm_num at h
              omega
            · have := ih n (v >>> 7) (by omega) below
              simp only [List.length_cons]
              omega
        · rw [List.length_singleton]
          omega
  exact go maxLength n v pos h

private theorem go_high (k v : Nat) {i : Nat} {x : UInt8} (at_i : (encode.go k v)[i]? = some x)
    (inner : i + 1 < (encode.go k v).length) : 128 ≤ x.toNat := by
  induction k generalizing v i with
  | zero => simp [encode.go] at at_i
  | succ k ih =>
      simp only [encode.go] at at_i inner
      split at at_i
      · next big =>
          rw [if_pos big, List.length_cons] at inner
          cases i with
          | zero =>
              obtain rfl := Option.some.inj at_i
              rw [or_high]
              omega
          | succ i => exact ih (v >>> 7) at_i (by omega)
      · next small =>
          rw [if_neg small, List.length_singleton] at inner
          omega

/-- Every byte but the last has its top bit set. -/
theorem encode_high (v : Nat) {i : Nat} {x : UInt8} (at_i : (encode v)[i]? = some x)
    (inner : i + 1 < (encode v).length) : 128 ≤ x.toNat := go_high maxLength v at_i inner

/-- The first byte holds the low bits. -/
theorem encode_head (v : Nat) {x : UInt8} (first : (encode v)[0]? = some x) :
    x.toNat % 128 = v % 128 := by
  simp only [encode, encode.go, maxLength] at first
  split at first
  · obtain rfl := Option.some.inj first
    rw [or_high]
    omega
  · obtain rfl := Option.some.inj first
    rw [UInt8.toNat_ofNat']
    omega

theorem encode_single (v : Nat) {x : UInt8} (first : (encode v)[0]? = some x)
    (single : (encode v).length = 1) : x.toNat = v := by
  simp only [encode, encode.go, maxLength] at first single
  split at first
  · next big =>
      rw [if_pos big, List.length_cons] at single
      split at single
      · rw [List.length_cons] at single
        omega
      · rw [List.length_singleton] at single
        omega
  · obtain rfl := Option.some.inj first
    rw [UInt8.toNat_ofNat']
    omega

/-- A byte without the top bit, behind the first byte of an encoding, is its last
    byte or lies beyond it. -/
theorem encode_past (v : Nat) {t : List UInt8} {i : Nat} {x : UInt8}
    (at_i : (encode v ++ t)[i]? = some x) (low : x.toNat < 128) :
    (encode v).length = i + 1 ∧ (encode v)[i]? = some x ∨
      (encode v).length ≤ i ∧ t[i - (encode v).length]? = some x := by
  rcases Nat.lt_or_ge i (encode v).length with inside | beyond
  · left
    rw [List.getElem?_append_left inside] at at_i
    refine ⟨?_, at_i⟩
    by_contra more
    have := encode_high v at_i (by omega)
    omega
  · right
    rw [List.getElem?_append_right beyond] at at_i
    exact ⟨beyond, at_i⟩

private theorem decode_go_ok (l : List UInt8) : ∀ i x s v n, i ≤ maxLength → x < 2 ^ 64 →
    decode.go i x s l = .ok (v, n) → i < n ∧ n ≤ i + l.length ∧ n ≤ maxLength ∧ v < 2 ^ 64 := by
  induction l with
  | nil => intro i x s v n _ _ h; simp [decode.go] at h
  | cons b rest ih =>
      intro i x s v n hi hx h
      simp only [decode.go] at h
      split at h
      · simp at h
      · next more =>
          simp only [maxLength] at more hi
          split at h
          · split at h
            · simp at h
            · simp only [Except.ok.injEq, Prod.mk.injEq] at h
              obtain ⟨rfl, rfl⟩ := h
              refine ⟨by omega, by simp, by simp only [maxLength]; omega, ?_⟩
              exact Nat.or_lt_two_pow hx (Nat.mod_lt _ (by norm_num))
          · have := ih (i + 1) _ (s + 7) v n (by simp only [maxLength]; omega)
              (Nat.or_lt_two_pow hx (Nat.mod_lt _ (by norm_num))) h
            simp only [List.length_cons]
            omega

/-- What decodes is a 64-bit value read from a nonempty prefix of at most ten
    bytes. -/
theorem decode_ok {l : List UInt8} {v n : Nat} (h : decode l = .ok (v, n)) :
    0 < n ∧ n ≤ l.length ∧ n ≤ 10 ∧ v < 2 ^ 64 := by
  have := decode_go_ok l 0 0 0 v n (Nat.zero_le _) (by norm_num) h
  simpa [maxLength] using this

/-- No byte ends the value within ten, or the tenth does and has more than the
    one bit that is left. -/
def Rejected (src : List UInt8) : Prop :=
  (∀ b ∈ src.take 10, 128 ≤ b.toNat) ∨
    ∃ b, src[9]? = some b ∧ 1 < b.toNat ∧ ∀ c ∈ src.take 9, 128 ≤ c.toNat

private theorem decode_go_error (l : List UInt8) : ∀ k i x s, i + k = maxLength →
    ((∃ f, decode.go i x s l = .error f) ↔ (∀ b ∈ l.take k, 128 ≤ b.toNat) ∨
      ∃ j, j + 1 = k ∧ ∃ b, l[j]? = some b ∧ 1 < b.toNat ∧ ∀ c ∈ l.take j, 128 ≤ c.toNat) := by
  induction l with
  | nil =>
      intro k i x s _
      simp [decode.go]
  | cons b rest ih =>
      intro k i x s whole
      rw [decode.go]
      cases k with
      | zero => simp [show i = maxLength by omega]
      | succ j =>
          rw [if_neg (by omega)]
          by_cases final : b.toNat < 128
          · have first : ¬ ∀ c ∈ (b :: rest).take (j + 1), 128 ≤ c.toNat := by
              intro high
              have := high b (by simp)
              omega
            rw [if_pos final]
            cases j with
            | zero =>
                have tenth : i = maxLength - 1 := by omega
                by_cases above : 1 < b.toNat
                · simp [tenth, above]
                · simp [tenth, above, show ¬ 128 ≤ b.toNat by omega]
            | succ j =>
                have early : ¬ (i = maxLength - 1 ∧ b.toNat > 1) := by omega
                simp [early, final]
          · have step := ih j (i + 1) (x ||| ((b.toNat &&& 0x7f) <<< s) % 2 ^ 64) (s + 7) (by omega)
            have high : 128 ≤ b.toNat := by omega
            rw [if_neg final, step]
            cases j with
            | zero => simp [high]
            | succ j => simp [high]

theorem decode_error_iff (src : List UInt8) : (∃ f, decode src = .error f) ↔ Rejected src := by
  rw [decode, decode_go_error src 10 0 0 0 rfl, Rejected]
  simp

end Leb128
