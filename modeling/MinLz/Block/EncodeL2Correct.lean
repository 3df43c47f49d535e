import MinLz.Block.EncodeL2
import MinLz.Block.Written

/-! # The balanced encoder is correct

Every emission is preceded by a check of its literals against the limit, and the
limit leaves room for what the check does not count: the header of the literals
and the copy. Nothing has to be accounted for from one emission to the next.
-/

namespace MinLz.Block.L2

open Loop

/-- Room for an encoding that adds little to its literals. -/
theorem fits_of_checked {n size d k E : Nat} (room : Room n size) (checked : d + k ≤ n - n / 32 - 6)
    (hE : E ≤ k + 11 ∧ (n < 256 → E ≤ k + 5)) : d + E ≤ size := by
  have long := room.long
  have slice := room.slice
  have short := room.short
  omega

/-- What a variant has to provide for blocks of `n` bytes. -/
structure Lawful (v : Variant) (n : Nat) : Prop where
  entry : ∀ s < n, v.entry s = s
  nearer : ∀ c p, c ≤ p → p < n → v.nearer c p = true → p + 1 - c ≤ maxCopy3Offset
  near : ∀ c p, c < p → p < n → v.near c p = true → p - c ≤ maxCopy3Offset
  far : ∀ offset ≤ n, v.far offset = decide (offset > maxCopy2Offset)

section Body

variable {v : Variant} {src : Slice} {size low : Nat}

/-- The tables of a state have the variant's sizes, and entries that satisfy `p`. -/
structure Indexed (v : Variant) (p : Nat → Prop) (st : State) : Prop where
  longBits : st.long.bits = v.longBits
  shortBits : st.short.bits = v.shortBits
  long : st.long.All p
  short : st.short.All p

theorem Indexed.mono {p q : Nat → Prop} {st : State} (h : Indexed v p st)
    (weaker : ∀ c, p c → q c) : Indexed v q st :=
  ⟨h.longBits, h.shortBits, h.long.mono weaker, h.short.mono weaker⟩

/-- Ready to search at `s`, not before `low`. -/
structure Searching (v : Variant) (src : Slice) (size low : Nat) (st : State) : Prop where
  since : low ≤ st.s
  written : Written src size st.dst st.d st.nextEmit st.offset
  indexed : Indexed v (· < st.s) st
  order : st.nextEmit ≤ st.s
  back : st.offset ≤ st.s
  room : st.s + 8 ≤ src.len
  cv : st.cv = src.word 8 st.s

/-- Four bytes at `s` match those at `candidate`; passed over, the search goes on after `nextS`. -/
structure Found (v : Variant) (src : Slice) (size low : Nat) (st : State) (candidate nextS : Nat) :
    Prop where
  since : low ≤ st.s
  written : Written src size st.dst st.d st.nextEmit st.offset
  indexed : Indexed v (fun c => c ≤ st.s + 1 ∧ c ≤ nextS) st
  order : st.nextEmit ≤ st.s
  back : st.offset ≤ st.s
  next : st.s ≤ nextS
  room : nextS + 8 ≤ src.len
  earlier : candidate < st.s
  near : st.s - candidate ≤ maxCopy3Offset
  same : src.Same candidate st.s 4

def ExitOk (src : Slice) (size : Nat) : Exit State → Prop
  | .finish st => Written src size st.dst st.d st.nextEmit st.offset
  | .giveUp dst => dst.len = size

def SearchOk (v : Variant) (src : Slice) (size low : Nat) : Search → Prop
  | .found st candidate nextS => Found v src size low st candidate nextS
  | .exit e => ExitOk src size e

/-- Entering positions changes nothing but the tables. -/
def Reindexed (v : Variant) (p : Nat → Prop) (st st' : State) : Prop :=
  Indexed v p st' ∧ ∃ long short, st' = { st with long, short }

theorem indexPair_ok {p : Nat → Prop} {st : State} {i : Nat} (entry : ∀ s < src.len, v.entry s = s)
    (indexed : Indexed v p st) (inside : i + 8 ≤ src.len) (first : p i) (second : p (i + 1)) :
    Returns (indexPair v src st i) (Reindexed v p st) := by
  obtain ⟨longBits, shortBits, long, short⟩ := indexed
  have longHash (u : Nat) : v.longHash u < 2 ^ st.long.bits := by rw [longBits]; exact v.longHash_lt u
  have shortHash (u : Nat) : hash4 u v.shortBits < 2 ^ st.short.bits := by
    rw [shortBits]
    exact v.shortHash_lt u
  rw [indexPair, load64_ok inside, ok_bind, entry _ (by omega), entry _ (by omega)]
  obtain ⟨l, setL, bitsL, allL⟩ := Table.set_ok long (longHash (src.word 8 i)) first
  obtain ⟨t, setS, bitsS, allS⟩ := Table.set_ok short (shortHash (src.word 8 i >>> 8)) second
  rw [setL, ok_bind, setS, ok_bind]
  exact returns_ok ⟨⟨bitsL.trans longBits, bitsS.trans shortBits, allL, allS⟩, _, _, rfl⟩

theorem indexLong_ok {p : Nat → Prop} {st : State} {i : Nat} (entry : ∀ s < src.len, v.entry s = s)
    (indexed : Indexed v p st) (inside : i + 8 ≤ src.len) (new : p i) :
    Returns (indexLong v src st i) (Reindexed v p st) := by
  obtain ⟨longBits, shortBits, long, short⟩ := indexed
  rw [indexLong, load64_ok inside, ok_bind, entry _ (by omega)]
  obtain ⟨l, set, bits, all⟩ := Table.set_ok long (h := v.longHash (src.word 8 i))
    (by rw [longBits]; exact v.longHash_lt _) new
  rw [set, ok_bind]
  exact returns_ok ⟨⟨bits.trans longBits, shortBits, all, short⟩, _, _, rfl⟩

theorem Reindexed.trans {p : Nat → Prop} {st st' st'' : State} (h : Reindexed v p st st')
    (h' : Reindexed v p st' st'') : Reindexed v p st st'' := by
  obtain ⟨_, _, _, rfl⟩ := h
  obtain ⟨indexed, _, _, rfl⟩ := h'
  exact ⟨indexed, _, _, rfl⟩

section Indexing

variable (st : State) (entry : ∀ s < src.len, v.entry s = s) (indexed : Indexed v (· < st.s) st)
  (inside : st.s + 8 ≤ src.len)
include entry indexed inside

theorem indexRepeat_ok (base : Nat) :
    Returns (indexRepeat v src st base) (Reindexed v (· < st.s) st) := by
  unfold indexRepeat loop
  apply returns_run (fun (r : State × Nat × Nat) => Reindexed v (· < st.s) st r.1 ∧ r.2.2 ≤ st.s - 2)
    (fun r => r.2.2 - r.2.1) _ ⟨⟨indexed, _, _, rfl⟩, le_rfl⟩ (by simp only; omega)
  rintro ⟨st', idx0, idx1⟩ ⟨same, last⟩
  simp only at same last ⊢
  split
  · next more =>
      refine (indexPair_ok entry same.1 (by omega) (by omega) (by omega)).bind fun st₁ h₁ => ?_
      refine (indexPair_ok entry h₁.1 (by omega) (by omega) (by omega)).bind fun st₂ h₂ => ?_
      exact returns_ok ⟨⟨(same.trans h₁).trans h₂, by simp only; omega⟩, by simp only; omega⟩
  · exact returns_ok same

theorem indexMatch_ok {base : Nat} (long : base + 4 ≤ st.s) :
    Returns (indexMatch v src st base) (Reindexed v (· < st.s) st) := by
  rw [indexMatch, sub_ok (by omega)]
  simp only [ok_bind]
  refine (indexPair_ok entry indexed (by omega) (by omega) (by omega)).bind fun st₁ h₁ => ?_
  refine (indexPair_ok entry h₁.1 (by omega) (by omega) (by omega)).bind fun st₂ h₂ => ?_
  have half : (base + 1 + 1 + (st.s - 2 - 1) + 1) >>> 1 = (base + st.s) / 2 := by
    rw [Nat.shiftRight_one]
    omega
  rw [half]
  unfold loop
  apply returns_run (fun (r : State × Nat × Nat) => Reindexed v (· < st.s) st r.1 ∧ r.2.1 ≤ r.2.2)
    (fun r => st.s - r.2.2) _ ⟨h₁.trans h₂, by simp only; omega⟩ (by simp only; omega)
  rintro ⟨st', idx0, idx2⟩ ⟨same, order⟩
  simp only at same order ⊢
  split
  · next more =>
      refine (indexLong_ok entry same.1 (by omega) (by omega)).bind fun st₃ h₃ => ?_
      refine (indexLong_ok entry h₃.1 (by omega) (by omega)).bind fun st₄ h₄ => ?_
      exact returns_ok ⟨⟨(same.trans h₃).trans h₄, by simp only; omega⟩, by simp only; omega⟩
  · exact returns_ok same

end Indexing

theorem repeatMask_eq (x : Nat) : (x &&& repeatMask) >>> 8 = x >>> 8 % 2 ^ 32 :=
  Bits.and_mask_shiftRight x 8 32

theorem repeatHit_ok (st : State) (back : st.offset ≤ st.s) (inside : st.s + 8 ≤ src.len)
    (cv : st.cv = src.word 8 st.s) : Returns (repeatHit src st) (fun r => r = true →
      src.Same (st.s + 1 - st.offset) (st.s + 1) 4) := by
  rw [repeatHit]
  split
  · rw [sub_ok back, ok_bind, load64_ok (by omega), ok_bind]
    refine returns_ok fun hit => ?_
    have eq := congrArg (· >>> 8) (of_decide_eq_true hit)
    simp only [repeatMask_eq, cv] at eq
    have here := word_shifted src st.s (k := 1) (by omega)
    have there := word_shifted src (st.s - st.offset) (k := 1) (by omega)
    rw [mul_one] at here there
    rw [← Nat.sub_add_comm back] at there
    exact (src.word_eq_iff 4 _ _).mp (by rw [← here, ← there, eq])
  · exact returns_ok fun hit => by cases hit

variable {sLimit dstLimit : Nat}

theorem emitRepeatMatch_ok (st : State) (entry : ∀ s < src.len, v.entry s = s)
    (room : Room src.len size) (hs : sLimit = src.len - 8)
    (hd : dstLimit = src.len - src.len / 32 - 6)
    (w : Written src size st.dst st.d st.nextEmit st.offset)
    (indexed : Indexed v (· < st.s + 1) st) (order : st.nextEmit ≤ st.s) (back : st.offset ≤ st.s)
    (inside : st.s + 8 ≤ src.len) (since : low ≤ st.s)
    (same : src.Same (st.s + 1 - st.offset) (st.s + 1) 4) :
    Returns (emitRepeatMatch v src sLimit dstLimit st)
      (Pass (Searching v src size low) (fun st => src.len - st.s) (SearchOk v src size low) st) := by
  have pos := w.pos
  obtain ⟨i, base, run, apart, le, kept, matched⟩ := extendBack_ok src st.nextEmit
    (st.s + 1 - st.offset) (st.s + 1) (by omega) (by omega)
  have kept := kept (by omega)
  rw [emitRepeatMatch, sub_ok (by omega)]
  simp only [ok_bind, run, sub_ok kept]
  split
  · exact returns_ok w.len
  · next fits =>
      obtain ⟨s', run', ext⟩ := extendAll_ok src (st.s + 4 + 1) (st.s - st.offset + 4 + 1)
        (by omega) (by omega)
      have forward := ext.forward
      have last := ext.inside
      have repeats : src.Repeats st.offset base s' := by
        rw [show st.s + 1 - (st.s + 1 - st.offset) = st.offset by omega] at matched
        exact (matched.join (same.repeats (by omega)) le_rfl).join (ext.repeats (by omega)) (by omega)
      have litSize := length_literalBytes_le (src.list st.nextEmit (base - st.nextEmit))
      have repSize := length_repeatBytes_le (s' - base)
      rw [Slice.length_list] at litSize
      have account := fits_of_checked room (d := st.d) (k := base - st.nextEmit) (by omega)
        (E := (literalBytes (src.list st.nextEmit (base - st.nextEmit))).length +
          (repeatBytes (s' - base)).length) (by omega)
      rw [range_ok kept (by omega)]
      simp only [ok_bind]
      refine (w.literal room.lt kept (by omega) (by omega)).bind ?_
      rintro ⟨dst, d⟩ ⟨w', hd'⟩
      simp only [sub_ok back, run', ok_bind]
      rw [sub_ok (by omega)]
      simp only [ok_bind]
      refine (w'.copyRepeat room.lt (by omega) (by omega) (repeats.same (by omega)) (by omega)
        (by omega)).bind ?_
      rintro ⟨dst', d''⟩ ⟨w'', hd''⟩
      rw [Nat.add_sub_cancel' (by omega)] at w''
      simp only
      split
      · exact returns_ok w''
      · next more =>
          have later : Indexed v (· < s') st := indexed.mono (fun c hc => by omega)
          refine (indexRepeat_ok { st with dst := dst', d := d'', s := s', nextEmit := s' }
            entry ⟨later.1, later.2, later.3, later.4⟩ (by simp only; omega) base).bind ?_
          rintro _ ⟨again, long, short, rfl⟩
          simp only
          rw [load64_ok (by omega)]
          exact returns_ok ⟨⟨by simp only; omega, w'', ⟨again.1, again.2, again.3, again.4⟩, le_rfl,
            by simp only; omega, by simp only; omega, rfl⟩, by simp only; omega⟩

/-- Both tables have an entry for `s`, and nothing else has changed since the search began. -/
structure Entered (v : Variant) (src : Slice) (size low : Nat) (st : State) : Prop where
  since : low ≤ st.s
  written : Written src size st.dst st.d st.nextEmit st.offset
  indexed : Indexed v (· < st.s + 1) st
  order : st.nextEmit ≤ st.s
  back : st.offset ≤ st.s
  cv : st.cv = src.word 8 st.s

section Candidates

variable {st : State} {nextS : Nat} (h : Entered v src size low st) (next : st.s + 1 ≤ nextS)
  (room : nextS + 8 ≤ src.len)
include h

theorem Entered.agree {i : Nat} (low : st.cv % 2 ^ 32 = src.word 8 i % 2 ^ 32) :
    src.Same i st.s 4 := by
  rw [h.cv, word_low, word_low] at low
  exact (src.word_eq_iff 4 _ _).mp low.symm

include next room

/-- A candidate for `s` itself is found with both tables as they are. -/
theorem Entered.found {candidate : Nat} (earlier : candidate < st.s)
    (near : st.s - candidate ≤ maxCopy3Offset) (same : src.Same candidate st.s 4) :
    Found v src size low st candidate nextS :=
  ⟨h.since, h.written, h.indexed.mono (fun c hc => by omega), h.order, h.back, by omega, room,
    earlier, near, same⟩

/-- With a short candidate for `s`, one for the position after it is looked up, which comes
    first if it is near enough. -/
theorem Entered.second (lawful : Lawful v src.len) {candS : Nat} (earlier : candS < st.s)
    (near : st.s - candS ≤ maxCopy3Offset) (same : src.Same candS st.s 4) :
    Returns (do
      let hashL2 := v.longHash (st.cv >>> 8)
      let candL2 ← st.long.get hashL2
      let long ← st.long.set hashL2 (v.entry (st.s + 1))
      let st := { st with long }
      if ← hit src (v.nearer candL2 st.s) (st.cv >>> 8) candL2 then
        return .done (.found { st with s := st.s + 1 } candL2 nextS)
      return .done (.found st candS nextS))
      (Pass (Searching v src size low) (fun st => src.len - st.s) (SearchOk v src size low) st) := by
  have ⟨since, w, ⟨bitsL, bitsS, allL, allS⟩, order, back, cv⟩ := h
  have longHash (u : Nat) : v.longHash u < 2 ^ st.long.bits := by
    rw [bitsL]
    exact v.longHash_lt u
  have cand2_lt : st.long.cells.get (v.longHash (st.cv >>> 8)) < st.s + 1 := allL _ (longHash _)
  obtain ⟨l, set, bits, all⟩ := Table.set_ok (v := st.s + 1)
    (allL.mono (q := fun c => c ≤ st.s + 1 ∧ c ≤ nextS) (fun c hc => by omega))
    (longHash (st.cv >>> 8)) (by omega)
  have short := allS.mono (q := fun c => c ≤ st.s + 1 ∧ c ≤ nextS) (fun c hc => by omega)
  have read : (st.cv >>> 8) % 2 ^ 32 = src.word 4 (st.s + 1) := by
    rw [cv]
    exact word_shifted src st.s (k := 1) (by omega)
  simp only
  rw [Table.get_ok (longHash _), ok_bind, lawful.entry _ (by omega), set, ok_bind,
    hit_eq _ _ (by omega), ok_bind]
  split
  · next third =>
      obtain ⟨close, same⟩ := same_of_hit read third
      have near := lawful.nearer _ st.s (by omega) (by omega) close
      exact returns_ok ⟨by simp only; omega, w, ⟨bits.trans bitsL, bitsS,
        all.mono (fun c hc => by simp only; omega), short.mono (fun c hc => by simp only; omega)⟩,
        by simp only; omega, by simp only; omega, by simp only; omega, room, by simp only; omega,
        near, same⟩
  · exact returns_ok ⟨since, w, ⟨bits.trans bitsL, bitsS, all, short⟩, order, back,
      by simp only; omega, room, earlier, near, same⟩

/-- Without a candidate the search goes on at `nextS`. -/
theorem Entered.goesOn : Pass (Searching v src size low) (fun st => src.len - st.s)
    (SearchOk v src size low) st (.next { st with cv := src.word 8 nextS, s := nextS }) := by
  have ⟨since, w, indexed, order, back, cv⟩ := h
  have later : Indexed v (· < nextS) st := indexed.mono (fun c hc => by omega)
  exact ⟨⟨by simp only; omega, w, ⟨later.1, later.2, later.3, later.4⟩, by simp only; omega,
    by simp only; omega, room, rfl⟩, by simp only; omega⟩

end Candidates

theorem searchStep_ok {st : State} (lawful : Lawful v src.len) (room : Room src.len size)
    (hs : sLimit = src.len - 8) (hd : dstLimit = src.len - src.len / 32 - 6)
    (inv : Searching v src size low st) :
    Returns (searchStep v src sLimit dstLimit st)
      (Pass (Searching v src size low) (fun st => src.len - st.s) (SearchOk v src size low) st) := by
  obtain ⟨since, w, ⟨longBits, shortBits, belowL, belowS⟩, order, back, inside, cv⟩ := inv
  have longHash (u : Nat) : v.longHash u < 2 ^ st.long.bits := by rw [longBits]; exact v.longHash_lt u
  have shortHash (u : Nat) : hash4 u v.shortBits < 2 ^ st.short.bits := by
    rw [shortBits]
    exact v.shortHash_lt u
  rw [searchStep, sub_ok order]
  simp only [ok_bind]
  generalize (st.s - st.nextEmit) >>> 7 = skip
  split
  · exact returns_ok w
  · next far =>
      have candL_lt : st.long.cells.get (v.longHash st.cv) < st.s := belowL _ (longHash _)
      have candS_lt : st.short.cells.get (hash4 st.cv v.shortBits) < st.s := belowS _ (shortHash _)
      rw [Table.get_ok (longHash _), ok_bind, Table.get_ok (shortHash _), ok_bind,
        lawful.entry _ (by omega)]
      obtain ⟨l, setL, bitsL, allL⟩ := Table.set_ok (v := st.s)
        (belowL.mono (q := (· < st.s + 1)) (fun c hc => by omega)) (longHash st.cv) (by omega)
      obtain ⟨t, setS, bitsS, allS⟩ := Table.set_ok (v := st.s)
        (belowS.mono (q := (· < st.s + 1)) (fun c hc => by omega)) (shortHash st.cv) (by omega)
      rw [setL, ok_bind, setS, ok_bind]
      generalize st.long.cells.get (v.longHash st.cv) = candL at *
      generalize st.short.cells.get (hash4 st.cv v.shortBits) = candS at *
      have entered : Entered v src size low { st with long := l, short := t } :=
        ⟨since, w, ⟨bitsL.trans longBits, bitsS.trans shortBits, allL, allS⟩, order, back, cv⟩
      have next : st.s + 1 ≤ st.s + skip + 1 := by omega
      have ahead : st.s + skip + 1 + 8 ≤ src.len := by omega
      rw [load64_ok (by omega), ok_bind, load64_ok (by omega), ok_bind]
      split
      · next whole =>
          have near := lawful.nearer _ _ candL_lt.le (by omega) whole.1
          exact returns_ok (entered.found next ahead candL_lt (by simp only; omega)
            (entered.agree (by rw [whole.2])))
      · refine (repeatHit_ok { st with long := l, short := t } back inside cv).bind ?_
        intro again matched
        split
        · next hit =>
            exact emitRepeatMatch_ok { st with long := l, short := t } lawful.entry room hs hd
              w entered.indexed order back inside since (matched hit)
        · split
          · next first =>
              exact returns_ok (entered.found next ahead candL_lt
                (lawful.near candL st.s candL_lt (by omega) first.1) (entered.agree first.2))
          · split
            · next second =>
                exact entered.second next ahead lawful candS_lt
                  (lawful.near candS st.s candS_lt (by omega) second.1) (entered.agree second.2)
            · rw [load64_ok ahead]
              exact returns_ok (entered.goesOn next ahead)

/-- A match of `length` bytes at the distance `off`, after `k` literals from `e` on, which have
    been checked against the limit. -/
structure Checked (src : Slice) (size : Nat) (dst : Slice) (d e r k off length : Nat) : Prop where
  written : Written src size dst d e r
  checked : d + k ≤ src.len - src.len / 32 - 6
  pos : 1 ≤ off
  near : off ≤ maxCopy3Offset
  long : 4 ≤ length
  back : off ≤ e + k
  same : src.Same (e + k - off) (e + k) length
  inside : e + k + length ≤ src.len

section Emission

variable {dst : Slice} {d e r k off length : Nat} (room : Room src.len size)
  (h : Checked src size dst d e r k off length)
include room h

theorem Checked.fits {E : Nat} (most : E ≤ k + 11 ∧ (src.len < 256 → E ≤ k + 5)) : d + E ≤ size :=
  fits_of_checked room h.checked most

omit room in
/-- A copy takes seven bytes at most, and three in a short block. -/
theorem Checked.length_copy :
    (copyBytes off length).length ≤ 7 ∧ (src.len < 256 → (copyBytes off length).length ≤ 3) := by
  have back := h.back
  have inside := h.inside
  exact ⟨(length_copyBytes_le off length h.long).1,
    fun small => length_copyBytes_short (by omega) (by omega)⟩

/-- The literals and the copy, one after the other. -/
theorem Checked.separate : Returns (do
      let (dst, d) ← emitLiteral dst d (src.list e k)
      emitCopy dst d off length)
    (fun (dst', d') => Written src size dst' d' (e + k + length) off) := by
  have bound := room.lt
  have inside := h.inside
  have litSize := length_literalBytes_le (src.list e k)
  have copySize := h.length_copy
  rw [Slice.length_list] at litSize
  have account := h.fits room
    (E := (literalBytes (src.list e k)).length + (copyBytes off length).length) (by omega)
  have literal := h.written.literal (j := e + k) bound (by omega) (by omega)
  rw [Nat.add_sub_cancel_left] at literal
  refine (literal (by omega)).bind ?_
  rintro ⟨dst, d⟩ ⟨w, hd⟩
  exact (w.copy bound h.pos h.near h.long h.back h.same inside (by omega)).mono fun _ h => h.1

theorem Checked.alone (none : k = 0) : Returns (emitCopy dst d off length)
    (fun (dst', d') => Written src size dst' d' (e + k + length) off) := by
  subst none
  have copySize := h.length_copy
  have account := h.fits room (E := (copyBytes off length).length) (by omega)
  exact (h.written.copy room.lt h.pos h.near h.long h.back h.same h.inside (by omega)).mono
    fun _ h => h.1

/-- Up to three literals are fused to a far copy. -/
theorem Checked.fusedFar (few : k ≤ 3) (far : maxCopy2Offset < off) :
    Returns (emitCopyLits3 dst d (src.list e k) off length)
      (fun (dst', d') => Written src size dst' d' (e + k + length) off) := by
  have back := h.back
  have inside := h.inside
  have sizes := length_copyLits3Bytes_le (src.list e k) off length
  rw [Slice.length_list] at sizes
  rw [maxCopy2Offset_eq] at far
  have account := h.fits room (E := (copyLits3Bytes (src.list e k) off length).length) (by omega)
  exact (h.written.copyLits3 room.lt h.long back h.same inside few
    (by rw [minCopy3Offset_eq]; omega) h.near (by omega)).mono fun _ h => h.1

/-- Up to four literals are fused to a copy that is neither far nor very close. -/
theorem Checked.fused (some : 1 ≤ k) (few : k ≤ 4) (far : 64 ≤ off) (close : off ≤ maxCopy2Offset) :
    Returns (emitCopyLits2 dst d (src.list e k) off length)
      (fun (dst', d') => Written src size dst' d' (e + k + length) off) := by
  have inside := h.inside
  have sizes := (length_copyLits2Bytes_le (src.list e k) off h.long).1
  have short : src.len < 256 → _ := fun small =>
    length_copyLits2Bytes_short (src.list e k) off length (by omega)
  rw [Slice.length_list] at sizes short
  have account := h.fits room (E := (copyLits2Bytes (src.list e k) off length).length) (by omega)
  exact (h.written.copyLits2 room.lt some h.long h.back h.same inside few
    (by rw [minCopy2Offset_eq]; exact far) close (by omega)).mono fun _ h => h.1

/-- The emission of a match whose literals have been checked. -/
theorem emitMatch_ok (lawful : Lawful v src.len) :
    Returns (emitMatch v dst d (src.list e k) off length) (fun (dst', d') =>
      Written src size dst' d' (e + k + length) off) := by
  have back := h.back
  have inside := h.inside
  have nonempty : src.list e k = [] ↔ k = 0 := by
    rw [← List.length_eq_zero_iff, Slice.length_list]
  rw [emitMatch]
  simp only [nonempty]
  split
  · next none => exact h.alone room none
  · next some =>
      rw [lawful.far off (by omega)]
      simp only [decide_eq_true_eq, Slice.length_list]
      split
      · next far =>
          split
          · exact h.separate room
          · next few => exact h.fusedFar room (Nat.not_lt.mp few) far
      · next close =>
          split
          · exact h.separate room
          · next fused =>
              rw [not_or, maxCopy2Lits] at fused
              exact h.fused room (by omega) (Nat.not_lt.mp fused.1) (Nat.not_lt.mp fused.2)
                (Nat.not_lt.mp close)

end Emission

theorem Found.extends {st : State} {candidate nextS : Nat}
    (inv : Found v src size low st candidate nextS) :
    ∃ i base s', extendBack src st.nextEmit candidate st.s = .ok (i, base) ∧
      extendAll src (base + 4) (i + 4) = .ok s' ∧ st.nextEmit ≤ base ∧ st.s + 4 ≤ s' ∧
      Extends src 1 candidate st.s i base s' := by
  have next := inv.next
  have room := inv.room
  have earlier := inv.earlier
  obtain ⟨i, base, run, apart, le, kept, matched⟩ := extendBack_ok src st.nextEmit
    candidate st.s (by omega) (by omega)
  obtain ⟨s', run', ext⟩ := extendAll_ok src (base + 4) (i + 4) (by omega) (by omega)
  have around := ext.around earlier inv.same apart le matched
  have last := around.inside
  have past := around.past
  exact ⟨i, base, s', run, run', kept inv.order, by omega, around⟩

theorem matchStep_ok {st : State} {candidate nextS : Nat} (lawful : Lawful v src.len)
    (room : Room src.len size) (hs : sLimit = src.len - 8)
    (hd : dstLimit = src.len - src.len / 32 - 6) (inv : Found v src size low st candidate nextS) :
    Returns (matchStep v src sLimit dstLimit st candidate nextS) (fun
      | .next st' => Searching v src size (low + 1) st'
      | .done e => ExitOk src size e) := by
  obtain ⟨i, base, s', run, run', kept, past, apart, before, le, forward, last, repeats, _⟩ :=
    inv.extends
  obtain ⟨since, w, indexed, order, back, next, inside, earlier, near, same⟩ := inv
  rw [matchStep, run]
  simp only [ok_bind]
  rw [sub_ok kept, ok_bind]
  split
  · exact returns_ok w.len
  · next checked =>
      rw [sub_ok before.le, ok_bind, run', ok_bind, sub_ok (by omega), ok_bind]
      split
      · split
        · exact returns_ok w
        · next more =>
            rw [load64_ok (by omega)]
            exact returns_ok ⟨by simp only; omega, w, ⟨indexed.1, indexed.2,
              indexed.3.mono (fun c hc => by simp only; omega),
              indexed.4.mono (fun c hc => by simp only; omega)⟩, by simp only; omega,
              by simp only; omega, by simp only; omega, rfl⟩
      · rw [range_ok kept (by omega), ok_bind]
        have meet : st.nextEmit + (base - st.nextEmit) = base := by omega
        have upTo : base + (s' - base) = s' := by omega
        have emits : Checked src size st.dst st.d st.nextEmit st.offset (base - st.nextEmit)
            (base - i) (s' - base) :=
          ⟨w, by omega, by omega, by omega, by omega, by omega,
            by rw [meet]; exact repeats.same (by omega), by omega⟩
        refine (emitMatch_ok room emits lawful).bind ?_
        rintro ⟨dst, d⟩ w'
        rw [meet, upTo] at w'
        simp only
        split
        · exact returns_ok w'
        · next more =>
            split
            · exact returns_ok w'.len
            · have later : Indexed v (· < s') st := indexed.mono (fun c hc => by omega)
              refine (indexMatch_ok { st with dst, d, s := s', offset := base - i, nextEmit := s' }
                lawful.entry ⟨later.1, later.2, later.3, later.4⟩ (by simp only; omega)
                (by simp only; omega)).bind ?_
              rintro _ ⟨again, long, short, rfl⟩
              simp only
              rw [load64_ok (by omega)]
              exact returns_ok ⟨by simp only; omega, w', ⟨again.1, again.2, again.3, again.4⟩, le_rfl,
                by simp only; omega, by simp only; omega, rfl⟩

theorem outerStep_ok {st : State} (lawful : Lawful v src.len) (room : Room src.len size)
    (hs : sLimit = src.len - 8) (hd : dstLimit = src.len - src.len / 32 - 6)
    (inv : Searching v src size low st) :
    Returns (outerStep v src sLimit dstLimit st)
      (Pass (Searching v src size low) (fun st => src.len - st.s) (ExitOk src size) st) := by
  rw [outerStep]
  have here : Searching v src size st.s st := { inv with since := le_rfl }
  refine (returns_run _ _ (fun _ => searchStep_ok lawful room hs hd) here (by omega)).bind ?_
  rintro (⟨found, candidate, nextS⟩ | e) result
  · refine (matchStep_ok lawful room hs hd result).mono ?_
    rintro (again | e) ok
    · have later : st.s < again.s := ok.since
      have inside := ok.room
      have since := inv.since
      exact ⟨{ ok with since := by omega }, by simp only; omega⟩
    · exact ok
  · exact returns_ok result

end Body

theorem encodeBetterInner_ok {v : Variant} {src dst : Slice} {size : Nat}
    (lawful : Lawful v src.len) (room : Room src.len size) (len : dst.len = size) :
    Encodes src size (encodeBetterInner v dst src) := by
  have long := room.long
  have shift : src.len >>> 5 = src.len / 32 := Nat.shiftRight_eq_div_pow _ _
  rw [encodeBetterInner, inputMargin, sub_ok (by omega), ok_bind, shift, sub_ok (by omega), ok_bind,
    sub_ok (by omega), ok_bind, load64_ok (by omega), ok_bind]
  have start : Searching v src size 0
      ⟨dst, 0, Table.zeros v.longBits, Table.zeros v.shortBits, 1, src.word 8 1, 0, 1⟩ := {
    since := Nat.zero_le _
    written := ⟨len, emitted_start src dst, Nat.zero_le _, Nat.zero_le _, le_rfl⟩
    indexed := ⟨rfl, rfl, Table.all_zeros (by simp only; omega) _,
      Table.all_zeros (by simp only; omega) _⟩
    order := Nat.zero_le _
    back := le_rfl
    room := by simp only; omega
    cv := rfl }
  refine (returns_run _ _ (fun _ => outerStep_ok lawful room rfl rfl) start (by omega)).bind ?_
  rintro (st | dst') result
  · exact emitRemainder_ok room rfl result
  · exact returns_ok ⟨result, .inl rfl⟩

theorem lawful_big {n : Nat} (bound : n ≤ maxBlockSize) : Lawful big n where
  entry s hs := Nat.mod_eq_of_lt (lt_of_lt_of_le hs (bound.trans (by decide)))
  nearer c p _ _ h := by
    have h : (c : Int) > minSrcPos p := of_decide_eq_true h
    rw [minSrcPos] at h
    omega
  near c p _ _ h := by
    have h : (c : Int) ≥ minSrcPos p := of_decide_eq_true h
    rw [minSrcPos] at h
    omega
  far _ _ := rfl

theorem lawful_small {n : Nat} (bound : n ≤ 65536) : Lawful small n where
  entry s hs := Nat.mod_eq_of_lt (lt_of_lt_of_le hs bound)
  nearer c p _ hp _ := by
    rw [maxCopy3Offset_eq]
    omega
  near c p _ hp _ := by
    rw [maxCopy3Offset_eq]
    omega
  far offset inside := by
    rw [maxCopy2Offset_eq]
    exact (decide_eq_false (by omega)).symm

theorem encodeBlock_ok {src dst : Slice} {size : Nat} (room : Room src.len size)
    (len : dst.len = size) : Encodes src size (encodeBlock dst src) := by
  rw [encodeBlock]
  split_ifs with tiny small
  · exact returns_ok ⟨len, .inl rfl⟩
  · exact encodeBetterInner_ok (lawful_small small) room len
  · exact encodeBetterInner_ok (lawful_big room.bound) room len

end MinLz.Block.L2
