import MinLz.Block.LoadStore

/-! # Extending a match

The loops that the encoders share. Each keeps the two ranges equal, and the
forward ones stop at a byte that differs or close to the end of the source.
-/

namespace MinLz.Block

/-- `&src[i..j]` -/
def range (src : Slice) (i j : Nat) : Exec (List UInt8) :=
  if i ≤ j ∧ j ≤ src.len then .ok (src.list i (j - i)) else .error (.fault .panic)

/-- `while base > next_emit && i > 0 && src[i - 1] == src[base - 1]`, both going back. -/
def extendBack (src : Slice) (nextEmit i base : Nat) : Exec (Nat × Nat) :=
  loop (fun (i, base) => do
    if base > nextEmit ∧ i > 0 then
      if (← index src (i - 1)) = (← index src (base - 1)) then return .next (i - 1, base - 1)
      else return .done (i, base)
    else return .done (i, base)) (base + 1) (i, base)

/-- `while s + 8 <= src.len()`, by words; `s` where the match ends. -/
def extendWords (src : Slice) (s cand : Nat) : Exec Nat :=
  loop (fun (s, cand) => do
    if s + 8 ≤ src.len then
      let diff := (← load64 src s) ^^^ (← load64 src cand)
      if diff ≠ 0 then return .done (s + trailingZeros diff >>> 3)
      else return .next (s + 8, cand + 8)
    else return .done s) (src.len + 1) (s, cand)

/-- `while s < src.len()`, by words and, in the last seven bytes, byte by byte. -/
def extendAll (src : Slice) (s cand : Nat) : Exec Nat :=
  loop (fun (s, cand) => do
    if s < src.len then
      if src.len - s < 8 then
        if (← index src s) = (← index src cand) then return .next (s + 1, cand + 1)
        else return .done s
      else
        let diff := (← load64 src s) ^^^ (← load64 src cand)
        if diff ≠ 0 then return .done (s + trailingZeros diff >>> 3)
        else return .next (s + 8, cand + 8)
    else return .done s) (src.len + 1) (s, cand)

theorem range_ok {src : Slice} {i j : Nat} (forward : i ≤ j) (inside : j ≤ src.len) :
    range src i j = .ok (src.list i (j - i)) := if_pos ⟨forward, inside⟩

variable {src : Slice}

/-- Both positions go back by the same distance, over bytes that agree. -/
theorem extendBack_ok (src : Slice) (nextEmit i base : Nat) (back : i ≤ base)
    (inside : base ≤ src.len) :
    ∃ i' base', extendBack src nextEmit i base = .ok (i', base') ∧ i' + base = i + base' ∧
      base' ≤ base ∧ (nextEmit ≤ base → nextEmit ≤ base') ∧
      src.Repeats (base - i) base' base := by
  unfold extendBack loop
  apply Loop.run_rule
    (fun (r : Nat × Nat) => r.1 + base = i + r.2 ∧ r.2 ≤ base ∧ (nextEmit ≤ base → nextEmit ≤ r.2) ∧
      src.Repeats (base - i) r.2 base)
    (fun r => r.2)
    (fun (r : Exec (Nat × Nat)) => ∃ i' base', r = .ok (i', base') ∧ i' + base = i + base' ∧
      base' ≤ base ∧ (nextEmit ≤ base → nextEmit ≤ base') ∧ src.Repeats (base - i) base' base)
  · rintro ⟨i', base'⟩ ⟨apart, le, low, same⟩
    simp only at apart le low same ⊢
    split
    · next more =>
        rw [index_ok (by omega), index_ok (by omega)]
        simp only [ok_bind]
        split
        · next eq =>
            refine ⟨⟨by simp only; omega, by simp only; omega, by simp only; omega, ?_⟩,
              by simp only; omega⟩
            intro p hp hb
            by_cases first : p = base' - 1
            · rw [first, ← eq]
              congr 1
              omega
            · exact same p (by simp only at hp; omega) hb
        · exact ⟨i', base', rfl, apart, le, low, same⟩
    · exact ⟨i', base', rfl, apart, le, low, same⟩
  · exact ⟨rfl, le_rfl, id, fun p hp hb => absurd hb (Nat.not_lt.mpr hp)⟩
  · omega

/-- The end of a forward extension from `s`: the ranges agree up to it, and
    either differ there or leave fewer than `slack` bytes. -/
structure Extended (src : Slice) (slack s cand s' : Nat) : Prop where
  forward : s ≤ s'
  inside : s' ≤ src.len
  same : src.Same cand s (s' - s)
  maximal : src.len < s' + slack ∨ src.get (cand + (s' - s)) ≠ src.get s'

theorem Extended.repeats {slack s cand s' offset : Nat} (ext : Extended src slack s cand s')
    (apart : cand + offset = s) : src.Repeats offset s s' := by
  have forward := ext.forward
  have := ext.same.repeats apart
  rwa [Nat.add_sub_cancel' forward] at this

/-- A match of four bytes at `s` with those at `c`, extended back to `base` and forward to
    `s'`. It gets past the four bytes, or close to the end. -/
structure Extends (src : Slice) (slack c s i base s' : Nat) : Prop where
  apart : base - i = s - c
  back : i < base
  le : base ≤ s
  forward : base + 4 ≤ s'
  inside : s' ≤ src.len
  repeats : src.Repeats (base - i) base s'
  past : s + 4 ≤ s' ∨ src.len < s' + slack

theorem Extended.around {slack c s i base s' : Nat} (earlier : c < s) (same : src.Same c s 4)
    (apart : i + s = c + base) (le : base ≤ s) (matched : src.Repeats (s - c) base s)
    (ext : Extended src slack (base + 4) (i + 4) s') : Extends src slack c s i base s' := by
  have forward := ext.forward
  have offset_eq : base - i = s - c := by omega
  have found : src.Repeats (base - i) base (s + 4) := by
    rw [offset_eq]
    exact matched.join (same.repeats (by omega)) le_rfl
  refine ⟨offset_eq, by omega, le, forward, ext.inside,
    found.join (ext.repeats (by omega)) (by omega), ?_⟩
  rcases ext.maximal with close | differ
  · exact .inr close
  · left
    by_contra short
    apply differ
    have := found s' (by omega) (by omega)
    rw [← this]
    congr 1
    omega

/-- One word further: a word that agrees extends the match, one that does not
    shows where it ends. -/
theorem extend_word (slack : Nat) {s cand k : Nat} (same : src.Same cand s k)
    (room : s + k + 8 ≤ src.len) :
    (src.word 8 (s + k) ^^^ src.word 8 (cand + k) = 0 → src.Same cand s (k + 8)) ∧
    (src.word 8 (s + k) ^^^ src.word 8 (cand + k) ≠ 0 → Extended src slack s cand
      (s + k + trailingZeros (src.word 8 (s + k) ^^^ src.word 8 (cand + k)) >>> 3)) := by
  constructor
  · intro zero
    have eq : src.word 8 (cand + k) = src.word 8 (s + k) := (Nat.xor_eq_zero_iff.mp zero).symm
    exact same.append ((src.word_eq_iff 8 _ _).mp eq)
  · intro diff
    obtain ⟨short, more, differ⟩ := src.xor_first_difference 8 (s + k) (cand + k) 64 le_rfl diff
    rw [trailingZeros]
    generalize trailingZeros.go 64 (src.word 8 (s + k) ^^^ src.word 8 (cand + k)) >>> 3 = q at *
    have len : s + k + q - s = k + q := by omega
    refine ⟨by omega, by omega, ?_, .inr ?_⟩
    · rw [len]
      exact same.append (fun m hm => (more m hm).symm)
    · rw [len, ← Nat.add_assoc]
      exact fun h => differ h.symm

theorem extendWords_ok (src : Slice) (s cand : Nat) (back : cand ≤ s) (inside : s ≤ src.len) :
    ∃ s', extendWords src s cand = .ok s' ∧ Extended src 8 s cand s' := by
  unfold extendWords loop
  apply Loop.run_rule
    (fun (r : Nat × Nat) => ∃ k, r = (s + k, cand + k) ∧ s + k ≤ src.len ∧ src.Same cand s k)
    (fun r => src.len - r.1)
    (fun (r : Exec Nat) => ∃ s', r = .ok s' ∧ Extended src 8 s cand s')
  · rintro _ ⟨k, rfl, hk, same⟩
    simp only
    split
    · next room =>
        obtain ⟨agree, differ⟩ := extend_word 8 same room
        rw [load64_ok room, load64_ok (by omega)]
        simp only [ok_bind]
        split
        · next diff => exact ⟨_, rfl, differ diff⟩
        · next zero =>
            exact ⟨⟨k + 8, rfl, by omega, agree (Classical.not_not.mp zero)⟩, by simp only; omega⟩
    · next stop =>
        refine ⟨s + k, rfl, by omega, hk, ?_, .inl (by omega)⟩
        rwa [Nat.add_sub_cancel_left]
  · exact ⟨0, rfl, inside, fun k hk => absurd hk (Nat.not_lt_zero k)⟩
  · simp only
    omega

theorem extendAll_ok (src : Slice) (s cand : Nat) (back : cand ≤ s) (inside : s ≤ src.len) :
    ∃ s', extendAll src s cand = .ok s' ∧ Extended src 1 s cand s' := by
  unfold extendAll loop
  apply Loop.run_rule
    (fun (r : Nat × Nat) => ∃ k, r = (s + k, cand + k) ∧ s + k ≤ src.len ∧ src.Same cand s k)
    (fun r => src.len - r.1)
    (fun (r : Exec Nat) => ∃ s', r = .ok s' ∧ Extended src 1 s cand s')
  · rintro _ ⟨k, rfl, hk, same⟩
    simp only
    split
    · next more =>
        split
        · next tail =>
            rw [index_ok more, index_ok (by omega)]
            simp only [ok_bind]
            split
            · next eq =>
                refine ⟨⟨k + 1, rfl, by omega, same.append ?_⟩, by simp only; omega⟩
                intro m hm
                obtain rfl : m = 0 := by omega
                exact eq.symm
            · next differ =>
                refine ⟨s + k, rfl, by omega, hk, ?_, .inr ?_⟩
                · rwa [Nat.add_sub_cancel_left]
                · rw [Nat.add_sub_cancel_left]
                  exact fun h => differ h.symm
        · next long =>
            obtain ⟨agree, differ⟩ := extend_word 1 same (by omega)
            rw [load64_ok (by omega), load64_ok (by omega)]
            simp only [ok_bind]
            split
            · next diff => exact ⟨_, rfl, differ diff⟩
            · next zero =>
                exact ⟨⟨k + 8, rfl, by omega, agree (Classical.not_not.mp zero)⟩,
                  by simp only; omega⟩
    · next stop =>
        refine ⟨s + k, rfl, by omega, hk, ?_, .inl (by omega)⟩
        rwa [Nat.add_sub_cancel_left]
  · exact ⟨0, rfl, inside, fun k hk => absurd hk (Nat.not_lt_zero k)⟩
  · simp only
    omega

end MinLz.Block
