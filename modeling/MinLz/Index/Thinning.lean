import MinLz.Block.Format
import MinLz.Index.Loaded

/-! # Thinning keeps the entries apart

`add` leaves out entries that are close together, `reduceLight` doubles what
close means, and `reduce` drops all but every k-th entry. Each keeps a
subsequence that starts with the first entry, `estBlockUncomp` apart. The
spacing bounds the estimate, so none of its arithmetic overflows.
-/

namespace MinLz.Index

open Machine (Overflow maxSigned)
open Loop

/-- Any two entries are at least `est` apart. -/
abbrev Spaced (est : Nat) (offsets : List OffsetPair) : Prop :=
  offsets.Pairwise fun a b => a.uncompressed + est ≤ b.uncompressed

theorem spaced_bound {est bound : Nat} {p : OffsetPair} {rest : List OffsetPair}
    (spaced : Spaced est (p :: rest)) (below : ∀ q ∈ p :: rest, q.uncompressed ≤ bound) :
    p.uncompressed + rest.length * est ≤ bound := by
  induction rest generalizing p with
  | nil =>
      have := below p List.mem_cons_self
      simpa using this
  | cons q rest ih =>
      have apart := List.rel_of_pairwise_cons spaced List.mem_cons_self
      have tail := ih spaced.of_cons (fun r hr => below r (List.mem_cons_of_mem p hr))
      rw [List.length_cons, Nat.add_mul, Nat.one_mul]
      omega

/-- Entries apart from each other leave no room for many of them. -/
theorem length_mul_le {est : Nat} (bound : Nat) {offsets : List OffsetPair} (spaced : Spaced est offsets)
    (below : ∀ q ∈ offsets, q.uncompressed ≤ bound) : (offsets.length - 1) * est ≤ bound := by
  cases offsets with
  | nil => simp
  | cons p rest =>
      have := spaced_bound spaced below
      rw [List.length_cons, Nat.add_sub_cancel]
      omega

theorem word_ok (m : Overflow) {x : Nat} (h : x < 2 ^ 64) : word (m.unsigned x) = .ok x := by
  rw [Machine.unsigned_ok m h]
  rfl

section Light

variable (m : Overflow)

theorem thinFrom_ok (est : Nat) {base : OffsetPair} {l : List OffsetPair}
    (sorted : (base :: l).Pairwise fun a b => a.uncompressed ≤ b.uncompressed)
    (bounded : Bounded l) :
    Returns (thinFrom m est base l) (fun kept => kept.Sublist l ∧ Spaced est (base :: kept)) := by
  induction l generalizing base with
  | nil => exact returns_ok ⟨List.Sublist.refl _, List.pairwise_singleton _ _⟩
  | cons p rest ih =>
      have le : base.uncompressed ≤ p.uncompressed :=
        List.rel_of_pairwise_cons sorted List.mem_cons_self
      have small := (bounded p List.mem_cons_self).2
      have bounded' : Bounded rest := fun q hq => bounded q (List.mem_cons_of_mem p hq)
      have gap : ((p.uncompressed : Int) - base.uncompressed) =
          ((p.uncompressed - base.uncompressed : Nat) : Int) := by omega
      rw [thinFrom, gap, word_ok m (by rw [maxSigned_eq] at small; omega), ok_bind]
      split
      · have skip : (base :: rest).Sublist (base :: p :: rest) :=
          (List.sublist_cons_self p rest).cons_cons base
        refine (ih (sorted.sublist skip) bounded').mono fun kept h => ?_
        exact ⟨h.1.cons p, h.2⟩
      · next far =>
          refine (ih sorted.of_cons bounded').bind fun kept h => ?_
          refine returns_ok ⟨h.1.cons_cons p, List.Pairwise.cons ?_ h.2⟩
          intro q hq
          cases hq with
          | head => omega
          | tail _ hq =>
              have := List.rel_of_pairwise_cons h.2 hq
              omega

theorem spaced_sorted {est : Nat} {offsets : List OffsetPair} (spaced : Spaced est offsets) :
    offsets.Pairwise fun a b => a.uncompressed ≤ b.uncompressed :=
  spaced.imp fun h => by omega

theorem reduceLight_ok {self : Index} (est : self.estBlockUncomp < 2 ^ 63)
    (spaced : Spaced self.estBlockUncomp self.offsets) (bounded : Bounded self.offsets) :
    Returns (reduceLight m self) (fun r => r.offsets.Sublist self.offsets ∧
      r.offsets.head? = self.offsets.head? ∧ Spaced r.estBlockUncomp r.offsets ∧
      r.estBlockUncomp = self.estBlockUncomp * 2) := by
  have cast : ((self.estBlockUncomp : Int) * 2) = ((self.estBlockUncomp * 2 : Nat) : Int) := by
    push_cast
    rfl
  rw [reduceLight, cast, word_ok m (by omega), ok_bind]
  cases e : self.offsets with
  | nil => exact returns_ok ⟨List.Sublist.refl _, rfl, List.Pairwise.nil, rfl⟩
  | cons base rest =>
      rw [e] at spaced bounded
      obtain ⟨kept, run, sublist, apart⟩ := thinFrom_ok m (self.estBlockUncomp * 2)
        (spaced_sorted spaced) (fun q hq => bounded q (List.mem_cons_of_mem base hq))
      simp only [thin, run, ok_bind]
      exact returns_ok ⟨sublist.cons_cons base, rfl, apart, rfl⟩

end Light

section Every

variable (removeN : Nat)

theorem takeEvery_sublist (skip : Nat) (l : List OffsetPair) :
    (takeEvery removeN skip l).Sublist (l.drop skip) := by
  induction l generalizing skip with
  | nil => simp [takeEvery]
  | cons p rest ih =>
      cases skip with
      | zero => exact ((ih removeN).trans (List.drop_sublist removeN rest)).cons_cons p
      | succ skip => exact ih skip

theorem head_takeEvery (l : List OffsetPair) : (takeEvery removeN 0 l).head? = l.head? := by
  cases l with
  | nil => rfl
  | cons p rest => rfl

theorem length_takeEvery (l : List OffsetPair) {skip : Nat} (le : skip ≤ removeN) :
    (takeEvery removeN skip l).length = (l.length + removeN - skip) / (removeN + 1) := by
  induction l generalizing skip with
  | nil =>
      rw [takeEvery, List.length_nil, Nat.zero_add, Nat.div_eq_of_lt (by omega)]
  | cons p rest ih =>
      cases skip with
      | zero =>
          have size : rest.length + 1 + removeN = rest.length + (removeN + 1) := by omega
          rw [takeEvery, List.length_cons, ih le_rfl, List.length_cons, Nat.sub_zero, size,
            Nat.add_div_right _ (Nat.succ_pos removeN), Nat.add_sub_cancel]
      | succ skip =>
          have size : rest.length + 1 + removeN - (skip + 1) = rest.length + removeN - skip := by
            omega
          rw [takeEvery, ih (by omega), List.length_cons, size]

theorem spaced_drop {est : Nat} {p q : OffsetPair} {rest : List OffsetPair}
    (spaced : Spaced est (p :: rest)) (hq : q ∈ rest.drop removeN) :
    p.uncompressed + est * (removeN + 1) ≤ q.uncompressed := by
  induction removeN generalizing p rest with
  | zero =>
      have := List.rel_of_pairwise_cons spaced hq
      omega
  | succ k ih =>
      cases rest with
      | nil => simp at hq
      | cons r rest =>
          have apart := List.rel_of_pairwise_cons spaced List.mem_cons_self
          have tail := ih spaced.of_cons hq
          rw [Nat.mul_add est (k + 1), Nat.mul_one]
          omega

theorem takeEvery_spaced {est : Nat} {l : List OffsetPair} (spaced : Spaced est l) (skip : Nat) :
    Spaced (est * (removeN + 1)) (takeEvery removeN skip l) := by
  induction l generalizing skip with
  | nil => exact List.Pairwise.nil
  | cons p rest ih =>
      cases skip with
      | zero =>
          refine List.Pairwise.cons ?_ (ih spaced.of_cons removeN)
          intro q hq
          exact spaced_drop removeN spaced ((takeEvery_sublist removeN removeN rest).mem hq)
      | succ skip => exact ih spaced.of_cons skip

end Every

section Reduce

variable (m : Overflow)

theorem removeCount_ok {est len : Nat} (many : maxIndexEntries ≤ len)
    (bound : (len - 1) * est ≤ maxSigned) :
    Returns (removeCount m est len) (fun removeN =>
      (len + 1) / maxIndexEntries ≤ removeN ∧ removeN + 2 ≤ len) := by
  rw [maxIndexEntries_eq] at many ⊢
  rw [removeCount, maxIndexEntries_eq]
  apply returns_run (fun removeN => (len + 1) / 65536 ≤ removeN ∧ removeN + 2 ≤ len)
    (fun removeN => len - removeN) _ ⟨le_rfl, by omega⟩ (by omega)
  rintro removeN ⟨low, high⟩
  have product : est * (removeN + 1) ≤ (len - 1) * est := by
    rw [Nat.mul_comm est]
    exact Nat.mul_le_mul_right est (by omega)
  have cast : ((est : Int) * (removeN + 1)) = ((est * (removeN + 1) : Nat) : Int) := by
    push_cast
    rfl
  rw [maxSigned_eq] at bound
  rw [cast, word_ok m (by omega), ok_bind]
  split
  · next more =>
      have room : (removeN + 1) * 1001 ≤ len :=
        (Nat.mul_comm _ _).le.trans ((Nat.le_div_iff_mul_le (Nat.succ_pos _)).mp more.2)
      exact returns_ok ⟨⟨by omega, by omega⟩, by simp only; omega⟩
  · exact returns_ok ⟨low, high⟩

theorem length_takeEvery_le {removeN : Nat} {l : List OffsetPair}
    (low : (l.length + 1) / maxIndexEntries ≤ removeN) :
    (takeEvery removeN 0 l).length ≤ maxIndexEntries := by
  rw [length_takeEvery removeN _ (Nat.zero_le removeN)]
  rw [maxIndexEntries_eq] at low ⊢
  have share : l.length + 1 < 65536 * (removeN + 1) := by omega
  exact Nat.le_of_lt_succ (Nat.div_lt_of_lt_mul (by omega))

theorem removeCount_ge (est len : Nat) : Effects.Exits (removeCount m est len)
    (fun n => (len + 1) / maxIndexEntries ≤ n) (fun _ => True) := by
  have low : (len + 1) / maxIndexEntries ≤ len := by
    rw [maxIndexEntries_eq]
    omega
  rw [removeCount]
  generalize (len + 1) / maxIndexEntries = first at low ⊢
  have bound : len - first < len + 1 := by omega
  generalize len + 1 = fuel at bound ⊢
  refine Effects.exits_run (fun (n : Nat) => first ≤ n ∧ n ≤ len) (fun n => len - n) ?_
    ⟨le_rfl, low⟩ bound
  intro n within
  have least := within.1
  cases word (m.unsigned (est * (n + 1))) with
  | error e => exact Effects.exits_error trivial
  | ok spaced =>
      rw [ok_bind]
      split
      · next more =>
          have room : (n + 1) * 1001 ≤ len :=
            (Nat.mul_comm _ _).le.trans ((Nat.le_div_iff_mul_le (Nat.succ_pos _)).mp more.2)
          exact Effects.exits_ok ⟨⟨by omega, by omega⟩, by simp only; omega⟩
      · exact Effects.exits_ok least

/-- Whatever the entries are, no more of them are stored than can be loaded. -/
theorem reduce_few {self r : Index} (run : reduce m self = .ok r) :
    r.offsets.length ≤ maxIndexEntries := by
  rw [reduce] at run
  split at run
  · next few =>
      cases run
      exact few.le
  · obtain ⟨removeN, count, run⟩ := Effects.bind_eq_ok run
    obtain ⟨grown, _, run⟩ := Effects.bind_eq_ok run
    obtain ⟨est, _, run⟩ := Effects.bind_eq_ok run
    cases run
    exact length_takeEvery_le ((removeCount_ge m _ _).ok count)

/-- What `reduce` leaves of entries that are apart. -/
structure Reduced (whole r : Index) : Prop where
  sublist : r.offsets.Sublist whole.offsets
  first : r.offsets.head? = whole.offsets.head?
  spaced : Spaced r.estBlockUncomp r.offsets
  grown : whole.estBlockUncomp ≤ r.estBlockUncomp
  few : r.offsets.length ≤ maxIndexEntries
  est : r.estBlockUncomp = whole.estBlockUncomp ∨
    r.estBlockUncomp ≤ (whole.offsets.length - 1) * whole.estBlockUncomp

theorem reduce_ok {self : Index} (spaced : Spaced self.estBlockUncomp self.offsets)
    (bounded : Bounded self.offsets) : Returns (reduce m self) (Reduced self) := by
  have bound := length_mul_le maxSigned spaced (fun q hq => (bounded q hq).2)
  rw [reduce]
  split
  · next few => exact returns_ok ⟨List.Sublist.refl _, rfl, spaced, le_rfl, few.le, .inl rfl⟩
  · next many =>
      refine (removeCount_ok m (Nat.not_lt.mp many) bound).bind ?_
      rintro removeN ⟨low, high⟩
      generalize est_eq : self.estBlockUncomp = est at *
      generalize len_eq : self.offsets.length = len at *
      have product : est * (removeN + 1) ≤ (len - 1) * est := by
        rw [Nat.mul_comm est]
        exact Nat.mul_le_mul_right est (by omega)
      have sum : est + est * removeN = est * (removeN + 1) := by ring
      have limit := maxSigned_eq
      have cast : ((est : Int) * removeN) = ((est * removeN : Nat) : Int) := by
        push_cast
        rfl
      have cast' : ((est : Int) + (est * removeN : Nat)) = ((est + est * removeN : Nat) : Int) := by
        push_cast
        rfl
      rw [cast, word_ok m (by omega), ok_bind, cast', word_ok m (by omega), ok_bind, sum]
      refine returns_ok ⟨?_, head_takeEvery removeN _, takeEvery_spaced removeN spaced 0,
        est_eq ▸ Nat.le_mul_of_pos_right est (Nat.succ_pos removeN), ?_,
        .inr (len_eq ▸ est_eq ▸ product)⟩
      · exact takeEvery_sublist removeN 0 self.offsets
      · exact length_takeEvery_le (len_eq ▸ low)

end Reduce

section Add

variable (m : Overflow)

theorem pairwise_concat {α : Type} {R : α → α → Prop} {l : List α} {x : α}
    (trans : ∀ a b c, R a b → R b c → R a c) (h : l.Pairwise R)
    (last : ∀ a, l.getLast? = some a → R a x) : (l ++ [x]).Pairwise R := by
  rw [List.pairwise_append]
  refine ⟨h, List.pairwise_singleton _ _, ?_⟩
  intro a ha b hb
  obtain rfl := List.mem_singleton.mp hb
  rcases List.eq_nil_or_concat l with rfl | ⟨init, z, rfl⟩
  · exact absurd ha List.not_mem_nil
  · rw [List.concat_eq_append] at *
    have final := last z (by rw [List.getLast?_append, List.getLast?_singleton]; rfl)
    rcases List.mem_append.mp ha with inner | outer
    · exact trans a z b ((List.pairwise_append.mp h).2.2 a inner z (List.mem_singleton_self z)) final
    · obtain rfl := List.mem_singleton.mp outer
      exact final

/-- An index after a sequence of calls to `add`. -/
structure Thinned (calls : List OffsetPair) (r : Index) : Prop where
  sublist : r.offsets.Sublist calls
  first : r.offsets.head? = calls.head?
  spaced : Spaced r.estBlockUncomp r.offsets
  rising : r.offsets.Pairwise fun a b => a.compressed ≤ b.compressed
  bounded : Bounded r.offsets
  pos : 1 ≤ r.estBlockUncomp
  small : r.estBlockUncomp ≤ 2 ^ 48

variable {m} {calls : List OffsetPair} {self : Index} {p : OffsetPair}

theorem Thinned.push (inv : Thinned calls self)
    (bound : p.compressed ≤ maxSigned ∧ p.uncompressed ≤ maxSigned)
    (far : ∀ latest, self.offsets.getLast? = some latest →
      latest.uncompressed + self.estBlockUncomp ≤ p.uncompressed)
    (rise : ∀ latest, self.offsets.getLast? = some latest → latest.compressed ≤ p.compressed) :
    Thinned (calls ++ [p]) { self with offsets := self.offsets ++ [p] } where
  sublist := inv.sublist.append (List.Sublist.refl [p])
  first := by
    have first := inv.first
    cases e : calls with
    | nil =>
        rw [e] at first
        simp only [List.head?_eq_none_iff.mp first]
    | cons c rest =>
        rw [e] at first
        rw [List.head?_append, first]
        rfl
  spaced := pairwise_concat (fun a b c _ _ => by omega) inv.spaced far
  rising := pairwise_concat (fun a b c _ _ => by omega) inv.rising rise
  bounded := by
    intro q hq
    rcases List.mem_append.mp hq with old | new
    · exact inv.bounded q old
    · obtain rfl := List.mem_singleton.mp new
      exact bound
  pos := inv.pos
  small := inv.small

theorem Thinned.reduceLight (inv : Thinned calls self) (many : maxIndexEntries < self.offsets.length) :
    Returns (reduceLight m self) (Thinned calls) := by
  have bound := length_mul_le maxSigned inv.spaced (fun q hq => (inv.bounded q hq).2)
  have share : 65536 * self.estBlockUncomp ≤ (self.offsets.length - 1) * self.estBlockUncomp := by
    rw [maxIndexEntries_eq] at many
    exact Nat.mul_le_mul_right _ (by omega)
  have pos := inv.pos
  rw [maxSigned_eq] at bound
  refine (reduceLight_ok m (by omega) inv.spaced inv.bounded).mono ?_
  rintro r ⟨sublist, first, spaced, est⟩
  exact ⟨sublist.trans inv.sublist, first.trans inv.first, spaced, inv.rising.sublist sublist,
    fun q hq => inv.bounded q (sublist.mem hq), by omega, by omega⟩

/-- A call either returns with the index as it should be or is refused, which
    calls with rising offsets in range never are. -/
theorem add_cases (m : Overflow) (inv : Thinned calls self) (p : OffsetPair) :
    Returns (add m self p.compressed p.uncompressed) (Thinned (calls ++ [p])) ∨
    (∃ e, add m self p.compressed p.uncompressed = .error (.error e)) ∧
      (p.compressed ≤ maxSigned ∧ p.uncompressed ≤ maxSigned →
        ∃ latest ∈ self.offsets, p.compressed < latest.compressed) := by
  rw [add]
  split
  · next past => exact .inr ⟨⟨_, rfl⟩, fun bound => absurd past (by omega)⟩
  · next inside =>
      have bound : p.compressed ≤ maxSigned ∧ p.uncompressed ≤ maxSigned := by omega
      simp only
      split
      · next close =>
          left
          refine returns_ok ⟨inv.sublist.trans (List.sublist_append_left calls [p]), ?_, inv.spaced,
            inv.rising, inv.bounded, inv.pos, inv.small⟩
          obtain ⟨latest, last, _⟩ := Option.any_eq_true _ _ |>.mp close
          have first := inv.first
          cases e : calls with
          | nil =>
              rw [e] at first
              rw [List.head?_eq_none_iff.mp first] at last
              exact absurd last (by simp)
          | cons c rest =>
              rw [e] at first
              rw [first]
              rfl
      · next far =>
          split
          · next falls =>
              obtain ⟨latest, last, less⟩ := Option.any_eq_true _ _ |>.mp falls
              exact .inr ⟨⟨_, rfl⟩, fun _ => ⟨latest, List.mem_of_getLast? last,
                of_decide_eq_true less⟩⟩
          · next rises =>
              left
              have pushed := inv.push bound
                (fun latest last => by
                  rw [last, Option.any_some, decide_eq_true_eq] at far
                  have := inv.pos
                  omega)
                (fun latest last => by
                  rw [last, Option.any_some, decide_eq_true_eq] at rises
                  omega)
              split
              · next many => exact pushed.reduceLight many
              · exact returns_ok pushed

theorem addAll_ok (m : Overflow) (more : List OffsetPair) (inv : Thinned calls self)
    (bounded : Bounded more) (rising : (calls ++ more).Pairwise fun a b => a.compressed ≤ b.compressed) :
    Returns (addAll m self more) (Thinned (calls ++ more)) := by
  induction more generalizing calls self with
  | nil =>
      rw [List.append_nil]
      exact returns_ok inv
  | cons p rest ih =>
      have split : calls ++ p :: rest = calls ++ [p] ++ rest := by simp
      rw [split] at rising ⊢
      rcases add_cases m inv p with returned | ⟨_, refused⟩
      · exact returned.bind fun next h => ih h
          (fun q hq => bounded q (List.mem_cons_of_mem p hq)) rising
      · exfalso
        obtain ⟨latest, stored, less⟩ := refused (bounded p List.mem_cons_self)
        have le := (List.pairwise_append.mp (List.pairwise_append.mp rising).1).2.2 latest
          (inv.sublist.mem stored) p (List.mem_singleton_self p)
        omega

theorem addAll_inv (m : Overflow) {more : List OffsetPair} {r : Index} (inv : Thinned calls self)
    (run : addAll m self more = .ok r) : Thinned (calls ++ more) r := by
  induction more generalizing calls self with
  | nil =>
      cases run
      rwa [List.append_nil]
  | cons p rest ih =>
      have split : calls ++ p :: rest = calls ++ [p] ++ rest := by simp
      rw [split]
      rcases add_cases m inv p with ⟨next, returned, h⟩ | ⟨⟨e, failed⟩, _⟩
      · rw [addAll, returned, ok_bind] at run
        exact ih h run
      · rw [addAll, failed] at run
        cases run

theorem growBlock_bounds (mb : Nat) (pos : 1 ≤ mb) (small : mb ≤ Block.maxBlockSize) :
    minIndexDist ≤ growBlock mb ∧ growBlock mb ≤ Block.maxBlockSize := by
  induction mb using growBlock.induct with
  | case1 mb less ih =>
      rw [growBlock, dif_pos less]
      refine ih (by omega) ?_
      have limit : minIndexDist * 2 ≤ Block.maxBlockSize := by decide
      omega
  | case2 mb enough =>
      rw [growBlock, dif_neg enough]
      exact ⟨by omega, small⟩

theorem growBlock_large {mb : Nat} (h : minIndexDist ≤ mb) : growBlock mb = mb := by
  rw [growBlock, dif_neg (by omega)]

/-- A block that is as large as the least spacing is the spacing. -/
theorem reset_large {maxBlock : Nat} (h : minIndexDist ≤ maxBlock) :
    reset maxBlock = { estBlockUncomp := maxBlock } := by
  have dist := minIndexDist_eq
  rw [reset, Nat.max_eq_left (by omega), growBlock_large h]

theorem thinned_reset {maxBlock : Nat} (small : maxBlock ≤ Block.maxBlockSize) :
    Thinned [] (reset maxBlock) := by
  have least : 1 ≤ Block.maxBlockSize := by decide
  have bounds := growBlock_bounds (max maxBlock 1) (by omega) (by omega)
  have cap : Block.maxBlockSize ≤ 2 ^ 48 := by decide
  rw [minIndexDist_eq] at bounds
  exact ⟨List.Sublist.refl _, rfl, List.Pairwise.nil, List.Pairwise.nil,
    fun q hq => absurd hq List.not_mem_nil, by simp only [reset]; omega,
    by simp only [reset]; omega⟩

end Add

end MinLz.Index
