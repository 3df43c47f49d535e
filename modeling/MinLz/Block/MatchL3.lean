import MinLz.Block.EncodeL3
import MinLz.Block.Sizes

/-! # The candidates of the smallest encoder

A search weighs up to twenty candidates. Each is checked against the source before
it is weighed, so whichever of them wins is a match: nothing has to be known of the
entries that they come from.
-/

namespace MinLz.Block.L3

open Loop

/-- A match that can be emitted when `nextEmit` is the next position to be emitted
    and `r` is the last offset. -/
structure Genuine (src : Slice) (nextEmit r : Nat) (m : Match) : Prop where
  order : nextEmit ≤ m.s
  earlier : m.offset < m.s
  inside : m.s + m.length ≤ src.len
  same : src.Same m.offset m.s m.length
  copy : m.isRep = false → 4 ≤ m.length ∧ m.s - m.offset ≤ maxCopy3Offset
  again : m.isRep = true → m.s - m.offset = r

/-- The best of the candidates so far, one at least if `some`. -/
structure Weighed (src : Slice) (nextEmit r : Nat) (some : Prop) (m : Match) : Prop where
  genuine : m.length ≠ 0 → Genuine src nextEmit r m
  found : some → m.length ≠ 0

variable {src : Slice} {nextEmit r : Nat} {some : Prop}

theorem weighed_none : Weighed src nextEmit r False {} := ⟨fun h => absurd rfl h, False.elim⟩

/-- A position that is no match. -/
theorem weighed_miss (offset s : Nat) : Weighed src nextEmit r False { offset, s } :=
  ⟨fun h => absurd rfl h, False.elim⟩

theorem Weighed.some_of {m : Match} (h : Weighed src nextEmit r some m) (pos : 0 < m.length) :
    Weighed src nextEmit r True m := ⟨h.genuine, fun _ => Nat.ne_of_gt pos⟩

theorem bestOf_cases (a b : Match) :
    bestOf a b = a ∧ (b.length ≠ 0 → a.length ≠ 0) ∨ bestOf a b = b ∧ b.length ≠ 0 := by
  unfold bestOf
  grind

theorem Weighed.bestOf {a b : Match} (ha : Weighed src nextEmit r some a)
    (hb : Weighed src nextEmit r False b) : Weighed src nextEmit r some (bestOf a b) := by
  rcases bestOf_cases a b with ⟨same, _⟩ | ⟨same, found⟩ <;> rw [same]
  · exact ha
  · exact ⟨hb.genuine, fun _ => found⟩

section Candidates

variable (bound : src.len < 2 ^ 24)
include bound

theorem score_ok {m : Match} (order : nextEmit ≤ m.s) (earlier : m.offset < m.s)
    (inside : m.s + m.length ≤ src.len) (long : m.isRep = false → 4 ≤ m.length) :
    Returns (score m nextEmit) (fun _ => True) := by
  rw [score, sub_ok order, ok_bind]
  simp only
  cases rep : m.isRep with
  | true => exact returns_ok trivial
  | false =>
      simp only [Bool.false_eq_true, if_false]
      rw [if_neg (by omega), emitCopySize_eq (long rep) (by omega)]
      exact returns_ok trivial

/-- The agreement of the first `k` bytes is extended both ways. -/
theorem extendMatch_ok {offset s k : Nat} (isRep : Bool) (order : nextEmit ≤ s) (earlier : offset < s)
    (inside : s + k ≤ src.len) (same : src.Same offset s k) :
    Returns (extendMatch src nextEmit offset s k isRep) (fun m => m.isRep = isRep ∧
      k ≤ m.length ∧ nextEmit ≤ m.s ∧ m.offset < m.s ∧ m.s - m.offset = s - offset ∧
      m.s + m.length ≤ src.len ∧ src.Same m.offset m.s m.length) := by
  obtain ⟨ahead, runAhead, ext⟩ := extendAll_ok src (s + k) (offset + k) (by omega) inside
  obtain ⟨i, base, runBack, apart, le, kept, before⟩ := extendBack_ok src nextEmit offset s
    earlier.le (by omega)
  have forward := ext.forward
  have kept := kept order
  rw [extendMatch, runAhead, ok_bind, runBack, ok_bind]
  have repeats : src.Repeats (s - offset) base ahead :=
    (before.join (same.repeats (by omega)) le_rfl).join (ext.repeats (by omega)) (by omega)
  have all := repeats.same (by omega)
  rw [show base - (s - offset) = i by omega] at all
  exact returns_ok ⟨rfl, by simp only; omega, kept, by simp only; omega, by simp only; omega,
    by simp only; have := ext.inside; omega, all⟩

omit bound in
theorem findNextRep_ok (sLimit : Nat) (m : Match) :
    Returns (findNextRep src sLimit m) (fun m' => ∃ b, m' = { m with nextRep := b }) := by
  rw [findNextRep]
  simp only
  split_ifs with more inside
  · rw [load32_ok inside.1, ok_bind, load32_ok inside.2]
    exact returns_ok ⟨_, rfl⟩
  · exact returns_ok ⟨_, rfl⟩
  · exact returns_ok ⟨_, rfl⟩

/-- Whatever entry is tried, what is found there is a match. -/
theorem matchAt_ok (sLimit offset : Nat) {s first : Nat} (best : Match) (order : nextEmit ≤ s)
    (room : s + 8 ≤ src.len) (read : first % 2 ^ 32 = src.word 4 s) :
    Returns (matchAt src nextEmit sLimit offset s first best) (Weighed src nextEmit r False) := by
  rw [matchAt]
  split_ifs with refused
  · exact returns_ok (weighed_miss offset s)
  · rw [load32_ok (by omega), ok_bind, read]
    split_ifs with differ
    · exact returns_ok (weighed_miss offset s)
    · have same := (src.word_eq_iff 4 offset s).mp (not_not.mp differ)
      refine (extendMatch_ok bound false order (by omega) (by omega) same).bind ?_
      rintro m ⟨rep, long, order', earlier, apart, inside, matched⟩
      refine (score_ok bound order' earlier inside fun _ => long).bind fun value _ => ?_
      refine (findNextRep_ok sLimit _).mono ?_
      rintro _ ⟨next, rfl⟩
      refine ⟨fun kept => ?_, False.elim⟩
      simp only at kept ⊢
      split_ifs at kept ⊢ with low
      · exact absurd rfl kept
      · exact ⟨order', earlier, inside, matched, fun _ => ⟨long, by simp only; omega⟩,
          fun again => absurd (again.symm.trans rep) (by decide)⟩

omit bound in
theorem checkMask_eq (x : Nat) : x &&& checkMask = x % 2 ^ 24 := Nat.and_two_pow_sub_one_eq_mod x 24

/-- Three bytes are enough for a repeat of the last offset. -/
theorem matchAtRepeat_ok (sLimit : Nat) {s first : Nat} (best : Match) (order : nextEmit ≤ s)
    (back : r ≤ s) (room : s + 4 ≤ src.len) (read : first % 2 ^ 32 = src.word 4 s) :
    Returns (matchAtRepeat src nextEmit sLimit (s - r) s first best)
      (Weighed src nextEmit r False) := by
  rw [matchAtRepeat]
  split_ifs with refused past
  · exact returns_ok (weighed_miss _ s)
  · exact returns_ok (weighed_miss _ s)
  · rw [load32_ok (by omega), ok_bind, read]
    split_ifs with differ
    · exact returns_ok (weighed_miss _ s)
    · have low (i : Nat) : src.word 4 i &&& checkMask = src.word 3 i := by
        rw [checkMask_eq]
        exact src.word_mod 3 1 i
      have same : src.Same (s - r) s 3 := by
        rw [low, low] at differ
        exact (src.word_eq_iff 3 _ s).mp (not_not.mp differ)
      refine (extendMatch_ok bound true order (by omega) (by omega) same).bind ?_
      rintro m ⟨rep, long, order', earlier, apart, inside, matched⟩
      refine (findNextRep_ok sLimit m).bind ?_
      rintro _ ⟨next, rfl⟩
      refine (score_ok bound order' earlier inside fun copy =>
        absurd (copy.symm.trans rep) (by decide)).bind fun value _ => ?_
      refine returns_ok ⟨fun _ => ?_, False.elim⟩
      exact ⟨order', earlier, inside, matched, fun copy => absurd (copy.symm.trans rep) (by decide),
        fun _ => by simp only; omega⟩

section Tries

variable (sLimit : Nat) {s first : Nat} {best : Match} (order : nextEmit ≤ s)
  (room : s + 8 ≤ src.len) (read : first % 2 ^ 32 = src.word 4 s)
  (weighed : Weighed src nextEmit r some best)
include order room read weighed

theorem tryEntry_ok (entry : Nat) : Returns (tryEntry src nextEmit sLimit entry s first best)
    (Weighed src nextEmit r some) := by
  rw [tryEntry]
  refine (matchAt_ok (r := r) bound sLimit _ best order room read).bind fun cur hc => ?_
  refine (matchAt_ok (r := r) bound sLimit _ _ order room read).bind fun prev hp => ?_
  exact returns_ok ((weighed.bestOf hc).bestOf hp)

theorem tryBack_ok (position backL : Nat) :
    Returns (tryBack src nextEmit sLimit position backL s first best)
      (Weighed src nextEmit r some) := by
  rw [tryBack]
  split_ifs
  · refine (matchAt_ok (r := r) bound sLimit _ best order room read).bind fun m hm => ?_
    exact returns_ok (weighed.bestOf hm)
  · exact returns_ok weighed

end Tries

theorem tryRepeat_ok (sLimit : Nat) {s first : Nat} {best : Match} (order : nextEmit ≤ s)
    (back : r ≤ s) (room : s + 4 ≤ src.len) (read : first % 2 ^ 32 = src.word 4 s)
    (weighed : Weighed src nextEmit r some best) :
    Returns (tryRepeat src nextEmit sLimit r s first best) (Weighed src nextEmit r some) := by
  rw [tryRepeat, sub_ok back, ok_bind]
  refine (matchAtRepeat_ok bound sLimit best order back room read).bind fun m hm => ?_
  exact returns_ok (weighed.bestOf hm)

end Candidates

end MinLz.Block.L3
