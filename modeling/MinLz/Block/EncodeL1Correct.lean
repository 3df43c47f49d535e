import MinLz.Block.EncodeL1
import MinLz.Block.Written

/-! # The fastest encoder is correct

A hash table only ever offers positions before the one being searched, the match
that is found there is verified against the source, and `Written` carries it
into the output. The accounts of the room left differ by size: from 512 bytes
on, the slack of a thirty-second of the source covers every emission made
without a check; below that, no emission but one outgrows what it encodes.
-/

namespace MinLz.Block.L1

open Loop

/-- The output `d` for the source up to `e`; a long block is `slack` past its limit at most. -/
def Budget (n d e slack : Nat) : Prop :=
  if n < 512 then d ≤ e + (if e < 286 then 0 else 1) ∧ d + 1 ≤ n
  else d + n / 32 + 6 ≤ n + slack

section Accounts

variable {n size d e base s : Nat} (room : Room n size) (budget : Budget n d e 8)
  (forward : e ≤ base) (long : base + 4 ≤ s) (inside : s ≤ n) (early : base + 10 ≤ n)
include room budget forward long inside early

/-- Literals within the limit and a repeat. -/
theorem Budget.literal_repeat {L R : Nat} (checked : d + (base - e) ≤ n - n / 32 - 6)
    (hL : L ≤ base - e + 4 ∧ (base - e ≤ 65565 → L ≤ base - e + 3) ∧
      (base - e ≤ 284 → L ≤ base - e + 2) ∧ (base - e = 0 → L = 0))
    (hR : R ≤ 4 ∧ (s - base < 30 → R = 1) ∧ (s - base < 65566 → R ≤ 3)) :
    d + L + R ≤ size ∧ Budget n (d + L + R) s 8 := by
  have slice := room.slice
  have short := room.short
  simp only [Budget] at budget ⊢
  split_ifs at budget ⊢ <;> omega

/-- Literals within the limit and a copy. -/
theorem Budget.literal_copy {L C : Nat} (checked : d + (base - e) ≤ n - n / 32 - 6) (off : Nat)
    (near : off ≤ base)
    (hL : L ≤ base - e + 4 ∧ (base - e ≤ 65565 → L ≤ base - e + 3) ∧
      (base - e ≤ 284 → L ≤ base - e + 2) ∧ (base - e = 0 → L = 0))
    (hC : C ≤ 7 ∧ (off ≤ 1024 → C + 2 ≤ s - base ∧ (s - base < 512 → C ≤ 5))) :
    d + L + C ≤ size ∧ Budget n (d + L + C) s 19 := by
  have slice := room.slice
  have short := room.short
  simp only [Budget] at budget ⊢
  split_ifs at budget ⊢ <;> omega

end Accounts

/-- A copy alone, or with literals fused to it. -/
theorem Budget.fused {n size d e base s C : Nat} (room : Room n size) (budget : Budget n d e 8)
    (forward : e ≤ base) (long : base + 4 ≤ s) (early : base + 9 ≤ n)
    (hC : C ≤ 11 ∧ (n < 512 → C ≤ s - e ∧ C ≤ base - e + 6)) :
    d + C ≤ size ∧ Budget n (d + C) s 19 := by
  have slice := room.slice
  have short := room.short
  simp only [Budget] at budget ⊢
  split_ifs at budget ⊢ <;> omega

/-- What a variant has to provide for blocks of `n` bytes. -/
structure Lawful (v : Variant) (n : Nat) : Prop where
  entry : ∀ s < n, v.entry s = s
  near : ∀ c p, c < p → p ≤ n → v.near c p = true → p - c ≤ maxCopy3Offset
  few : v.maxFused ≤ 4
  fused : ∀ dst d lits offset length, offset ≤ n → v.emitFused dst d lits offset length =
    if offset ≤ maxCopy2Offset then emitCopyLits2 dst d lits offset length
    else emitCopyLits3 dst d lits offset length
  far : maxCopy2Offset < n → v.maxFused ≤ 3

section Body

variable {v : Variant} {src : Slice} {size low : Nat}

/-- Ready to search at `s`, not before `low`. -/
structure Searching (v : Variant) (src : Slice) (size low : Nat) (st : State) : Prop where
  since : low ≤ st.s
  written : Written src size st.dst st.d st.nextEmit st.offset
  bits : st.table.bits = v.tableBits
  below : st.table.All (· < st.s)
  order : st.nextEmit ≤ st.s
  back : st.offset ≤ st.s
  room : st.s + 8 ≤ src.len
  cv : st.cv = src.word 8 st.s
  budget : Budget src.len st.d st.nextEmit 8

/-- Four bytes at `s` match those at `candidate`. -/
structure Found (v : Variant) (src : Slice) (size low : Nat) (st : State) (candidate : Nat) :
    Prop where
  since : low ≤ st.s
  written : Written src size st.dst st.d st.nextEmit st.offset
  bits : st.table.bits = v.tableBits
  below : st.table.All (fun c => c ≤ st.s + 2 ∧ c + 10 ≤ src.len)
  order : st.nextEmit ≤ st.s
  room : st.s + 10 ≤ src.len
  budget : Budget src.len st.d st.nextEmit 8
  earlier : candidate < st.s
  near : st.s - candidate ≤ maxCopy3Offset
  same : src.Same candidate st.s 4

/-- A match has been emitted up to `s`. -/
structure Matched (v : Variant) (src : Slice) (size low : Nat) (st : State) : Prop where
  since : low < st.s
  written : Written src size st.dst st.d st.s st.offset
  bits : st.table.bits = v.tableBits
  below : st.table.All (· < st.s)
  start : 2 ≤ st.s
  back : st.offset ≤ st.s
  budget : Budget src.len st.d st.s 19

def ExitOk (src : Slice) (size : Nat) : Exit State → Prop
  | .finish st => Written src size st.dst st.d st.nextEmit st.offset
  | .giveUp dst => dst.len = size

def SearchOk (v : Variant) (src : Slice) (size low : Nat) : Search → Prop
  | .found st candidate => Found v src size low st candidate
  | .exit e => ExitOk src size e

theorem repeatPosition_eq {s offset : Nat} (back : offset ≤ s) (bound : s < 2 ^ 63) :
    repeatPosition s offset = s - offset + 1 := by
  rw [repeatPosition]
  omega

variable {sLimit dstLimit : Nat}

theorem emitRepeatMatch_ok (st : State) (room : Room src.len size) (hs : sLimit = src.len - 8)
    (hd : dstLimit = src.len - src.len / 32 - 6)
    (w : Written src size st.dst st.d st.nextEmit st.offset)
    (bits : st.table.bits = v.tableBits) (below : st.table.All (· < st.s + 2))
    (order : st.nextEmit ≤ st.s) (back : st.offset ≤ st.s) (inside : st.s + 12 ≤ src.len)
    (budget : Budget src.len st.d st.nextEmit 8) (since : low ≤ st.s)
    (same : src.Same (st.s + 1 - st.offset) (st.s + 1) 4) :
    Returns (emitRepeatMatch src sLimit dstLimit st)
      (Pass (Searching v src size low) (fun st => src.len - st.s) (SearchOk v src size low) st) := by
  have pos := w.pos
  obtain ⟨i, base, run, apart, le, kept, matched⟩ := extendBack_ok src st.nextEmit
    (st.s + 1 - st.offset) (st.s + 1) (by omega) (by omega)
  have kept := kept (by omega)
  rw [emitRepeatMatch, sub_ok (by omega)]
  simp only [ok_bind, run, sub_ok kept]
  split
  · exact returns_ok w.len
  · next fits =>
      obtain ⟨s', run', ext⟩ := extendWords_ok src (st.s + 4 + 1)
        (st.s - st.offset + 4 + 1) (by omega) (by omega)
      have forward := ext.forward
      have last := ext.inside
      have repeats : src.Repeats st.offset base s' := by
        rw [show st.s + 1 - (st.s + 1 - st.offset) = st.offset by omega] at matched
        exact (matched.join (same.repeats (by omega)) le_rfl).join (ext.repeats (by omega)) (by omega)
      have litSize := length_literalBytes_le (src.list st.nextEmit (base - st.nextEmit))
      have repSize := length_repeatBytes_le (s' - base)
      rw [Slice.length_list] at litSize
      obtain ⟨fit, budget'⟩ := budget.literal_repeat room kept (by omega) last (by omega)
        (by omega) litSize repSize
      rw [range_ok kept (by omega)]
      simp only [ok_bind]
      refine (w.literal room.lt kept (by omega) (by omega)).bind ?_
      rintro ⟨dst, d⟩ ⟨w', hd'⟩
      simp only [sub_ok back, run', ok_bind]
      rw [sub_ok (by omega)]
      simp only [ok_bind]
      refine (w'.copyRepeat room.lt (by omega) (by omega) (repeats.same (by omega)) (by omega)
        (by omega)).bind ?_
      rintro ⟨dst', d''⟩ ⟨w'', hd''⟩
      rw [Nat.add_sub_cancel' (by omega)] at w''
      rw [← hd', ← hd''] at budget'
      simp only
      split
      · exact returns_ok w''
      · next more =>
          rw [load64_ok (by omega)]
          exact returns_ok ⟨⟨by simp only; omega, w'', bits,
            below.mono (fun c hc => by simp only; omega), le_rfl,
            by simp only; omega, by simp only; omega, rfl, budget'⟩, by simp only; omega⟩

/-- A candidate for one of the three positions that are looked at, with its four bytes. -/
theorem Searching.found {st : State} (lawful : Lawful v src.len) (inv : Searching v src size low st)
    {k : Nat} (few : k ≤ 2) (far : st.s + 12 ≤ src.len) {t : Table} (bits : t.bits = v.tableBits)
    (below : t.All (· < st.s + 3)) {c : Nat} (earlier : c < st.s + k)
    (close : v.near c (st.s + k) = true) (same : src.Same c (st.s + k) 4) :
    Found v src size low { st with table := t, s := st.s + k } c := by
  obtain ⟨since, w, _, _, order, back, inside, cv, budget⟩ := inv
  exact ⟨by simp only; omega, w, bits, below.mono (fun c hc => by simp only; omega),
    by simp only; omega, by simp only; omega, budget, earlier,
    lawful.near c (st.s + k) earlier (by omega) close, same⟩

/-- Without a candidate the search goes on at `nextS`. -/
theorem Searching.goesOn {st : State} (inv : Searching v src size low st) {nextS : Nat}
    (next : st.s + 3 ≤ nextS) (far : nextS + 8 ≤ src.len) {t : Table} (bits : t.bits = v.tableBits)
    (below : t.All (· < st.s + 3)) :
    Pass (Searching v src size low) (fun st => src.len - st.s) (SearchOk v src size low) st
      (.next { st with table := t, cv := src.word 8 nextS, s := nextS }) := by
  obtain ⟨since, w, _, _, order, back, inside, cv, budget⟩ := inv
  exact ⟨⟨by simp only; omega, w, bits, below.mono (fun c hc => by simp only; omega),
    by simp only; omega, by simp only; omega, far, rfl, budget⟩, by simp only; omega⟩

theorem searchStep_ok {st : State} (lawful : Lawful v src.len) (room : Room src.len size)
    (hs : sLimit = src.len - 8) (hd : dstLimit = src.len - src.len / 32 - 6)
    (inv : Searching v src size low st) :
    Returns (searchStep v src sLimit dstLimit st)
      (Pass (Searching v src size low) (fun st => src.len - st.s) (SearchOk v src size low) st) := by
  have ⟨since, w, bits, below, order, back, inside, cv, budget⟩ := inv
  have bound := room.lt
  have hash (u : Nat) : v.hash u < 2 ^ st.table.bits := by rw [bits]; exact v.hash_lt u
  rw [searchStep, sub_ok order]
  simp only [ok_bind]
  generalize (st.s - st.nextEmit) >>> v.skipLog = skip
  split
  · exact returns_ok w
  · next far =>
      have c0_lt : st.table.cells.get (v.hash st.cv) < st.s := below _ (hash _)
      have c1_lt : st.table.cells.get (v.hash (st.cv >>> 8)) < st.s := below _ (hash _)
      rw [Table.get_ok (hash _), ok_bind, Table.get_ok (hash _), ok_bind, lawful.entry _ (by omega),
        lawful.entry _ (by omega)]
      obtain ⟨t₀, set₀, bits₀, all₀⟩ := Table.set_ok (v := st.s)
        (below.mono (q := (· < st.s + 2)) (fun c hc => by omega)) (hash st.cv) (by omega)
      have hash₀ (u : Nat) : v.hash u < 2 ^ t₀.bits := by rw [bits₀]; exact hash u
      obtain ⟨t₁, set₁, bits₁, all₁⟩ := Table.set_ok (v := st.s + 1) all₀ (hash₀ (st.cv >>> 8))
        (by omega)
      have hash₁ (u : Nat) : v.hash u < 2 ^ t₁.bits := by rw [bits₁]; exact hash₀ u
      rw [set₀, ok_bind, set₁, ok_bind, repeatPosition_eq back (by omega)]
      have cv0 : st.cv % 2 ^ 32 = src.word 4 st.s := by rw [cv]; exact word_low src st.s
      have cv1 : (st.cv >>> 8) % 2 ^ 32 = src.word 4 (st.s + 1) := by
        rw [cv]
        exact word_shifted src st.s (k := 1) (by omega)
      have cv2 : (st.cv >>> 16) % 2 ^ 32 = src.word 4 (st.s + 2) := by
        rw [cv]
        exact word_shifted src st.s (k := 2) (by omega)
      rw [hit_eq _ _ (by omega), ok_bind]
      split
      · next again =>
          have same := (same_of_hit cv1 again).2
          rw [← Nat.sub_add_comm back] at same
          have matched := emitRepeatMatch_ok (v := v) { st with table := t₁ } room hs hd w
            (bits₁.trans (bits₀.trans bits)) all₁ order back (by simp only; omega) budget since same
          exact matched
      · rw [hit_eq _ _ (by omega), ok_bind]
        split
        · next first =>
            obtain ⟨close, same⟩ := same_of_hit cv0 first
            exact returns_ok (inv.found lawful (k := 0) (by omega) (by omega)
              (bits₁.trans (bits₀.trans bits)) (all₁.mono (fun c hc => by omega)) c0_lt close same)
        · have c2_lt : t₁.cells.get (v.hash (st.cv >>> 16)) < st.s + 2 := all₁ _ (hash₁ _)
          rw [Table.get_ok (hash₁ _), ok_bind, lawful.entry _ (by omega)]
          obtain ⟨t₂, set₂, bits₂, all₂⟩ := Table.set_ok (v := st.s + 2)
            (all₁.mono (q := (· < st.s + 3)) (fun c hc => by omega)) (hash₁ (st.cv >>> 16)) (by omega)
          have size₂ : t₂.bits = v.tableBits := bits₂.trans (bits₁.trans (bits₀.trans bits))
          rw [set₂, ok_bind, hit_eq _ _ (by omega), ok_bind]
          split
          · next second =>
              obtain ⟨close, same⟩ := same_of_hit cv1 second
              exact returns_ok (inv.found lawful (k := 1) (by omega) (by omega) size₂ all₂
                (by omega) close same)
          · rw [hit_eq _ _ (by omega), ok_bind]
            split
            · next third =>
                obtain ⟨close, same⟩ := same_of_hit cv2 third
                exact returns_ok (inv.found lawful (k := 2) (by omega) (by omega) size₂ all₂ c2_lt
                  close same)
            · rw [load64_ok (by omega)]
              exact returns_ok (inv.goesOn (by omega) (by omega) size₂ all₂)

/-- Either fused emission, when the variant's limit on the literals allows it. -/
theorem emitFused_ok {dst : Slice} {d e r : Nat} (k off length : Nat) (lawful : Lawful v src.len)
    (w : Written src size dst d e r) (bound : src.len < 2 ^ 24) (one : 1 ≤ k)
    (few : k ≤ v.maxFused) (far : minCopy2Offset ≤ off) (near : off ≤ maxCopy3Offset)
    (long : 4 ≤ length) (back : off ≤ e + k) (same : src.Same (e + k - off) (e + k) length)
    (inside : e + k + length ≤ src.len)
    (account : ∀ C, C ≤ 11 ∧ (src.len < 512 → C ≤ k + length ∧ C ≤ k + 6) → d + C ≤ size ∧
      Budget src.len (d + C) (e + k + length) 19) :
    Returns (v.emitFused dst d (src.list e k) off length) (fun (dst', d') =>
      Written src size dst' d' (e + k + length) off ∧ Budget src.len d' (e + k + length) 19) := by
  have limit := lawful.few
  rw [lawful.fused _ _ _ _ _ (by omega)]
  split
  · next close =>
      have sizes := length_copyLits2Bytes_le (src.list e k) off long
      rw [Slice.length_list] at sizes
      obtain ⟨fits, budget⟩ := account (copyLits2Bytes (src.list e k) off length).length (by omega)
      refine (w.copyLits2 bound one long back same inside (by omega) far close fits).mono ?_
      rintro ⟨dst', d'⟩ ⟨w', hd'⟩
      exact ⟨w', by rw [hd']; exact budget⟩
  · next past =>
      have three := lawful.far (by omega)
      rw [maxCopy2Offset_eq] at past
      have sizes := length_copyLits3Bytes_le (src.list e k) off length
      rw [Slice.length_list] at sizes
      obtain ⟨fits, budget⟩ := account (copyLits3Bytes (src.list e k) off length).length (by omega)
      refine (w.copyLits3 bound long back same inside (by omega) (by rw [minCopy3Offset_eq]; omega)
        near fits).mono ?_
      rintro ⟨dst', d'⟩ ⟨w', hd'⟩
      exact ⟨w', by rw [hd']; exact budget⟩

theorem Found.extends {st : State} {candidate : Nat} (inv : Found v src size low st candidate) :
    ∃ i base s', extendBack src st.nextEmit candidate st.s = .ok (i, base) ∧
      extendWords src (base + 4) (i + 4) = .ok s' ∧ st.nextEmit ≤ base ∧
      Extends src 8 candidate st.s i base s' := by
  have inside := inv.room
  have earlier := inv.earlier
  obtain ⟨i, base, run, apart, le, kept, matched⟩ := extendBack_ok src st.nextEmit
    candidate st.s (by omega) (by omega)
  obtain ⟨s', run', ext⟩ := extendWords_ok src (base + 4) (i + 4) (by omega) (by omega)
  exact ⟨i, base, s', run, run', kept inv.order, ext.around earlier inv.same apart le matched⟩

theorem Found.matched {st : State} {candidate i base s' : Nat}
    (inv : Found v src size low st candidate) (ext : Extends src 8 candidate st.s i base s')
    {dst : Slice} {d : Nat} (w : Written src size dst d s' (base - i))
    (budget : Budget src.len d s' 19) :
    Matched v src size low { st with dst, d, s := s', offset := base - i } := by
  obtain ⟨since, _, bits, below, order, inside, _, earlier, near, _⟩ := inv
  obtain ⟨apart, _, le, forward, _, _, past⟩ := ext
  exact ⟨by simp only; omega, w, bits, below.mono (fun c hc => by simp only; omega),
    by simp only; omega, by simp only; omega, budget⟩

section Emission

variable {st : State} {candidate i base s' : Nat} (inv : Found v src size low st candidate)
  (room : Room src.len size) (kept : st.nextEmit ≤ base)
  (ext : Extends src 8 candidate st.s i base s')
include inv room kept ext

/-- The literals and the copy, one after the other. -/
theorem Found.separate {dstLimit : Nat} (hd : dstLimit = src.len - src.len / 32 - 6)
    (checked : ¬st.d + (base - st.nextEmit) > dstLimit) :
    Returns (do
      let (dst, d) ← emitLiteral st.dst st.d (src.list st.nextEmit (base - st.nextEmit))
      let (dst, d) ← emitCopy dst d (base - i) (s' - base)
      return some { st with dst, d, s := s', offset := base - i })
      (fun r => ∀ st', r = some st' → Matched v src size low st') := by
  have bound := room.lt
  have inside := inv.room
  have near := inv.near
  have earlier := inv.earlier
  have ⟨apart, back, le, forward, last, repeats, past⟩ := ext
  have litSize := length_literalBytes_le (src.list st.nextEmit (base - st.nextEmit))
  have copySize := length_copyBytes_le (base - i) (s' - base) (by omega)
  rw [Slice.length_list] at litSize
  obtain ⟨fit, budget⟩ := inv.budget.literal_copy room kept (by omega) last (by omega) (by omega)
    (base - i) (by omega) litSize copySize
  refine (inv.written.literal room.lt kept (by omega) (by omega)).bind ?_
  rintro ⟨dst, d⟩ ⟨w, hd'⟩
  refine (w.copy bound (by omega) (by omega) (by omega) (by omega) (repeats.same (by omega))
    (by omega) (by omega)).bind ?_
  rintro ⟨dst', d'⟩ ⟨w', hd''⟩
  rw [show base + (s' - base) = s' by omega] at w'
  rw [← hd', ← hd''] at budget
  refine returns_ok ?_
  rintro _ ⟨⟩
  exact inv.matched ext w' budget

/-- A copy with the literals fused to it. -/
theorem Found.fused (lawful : Lawful v src.len) (lits : st.nextEmit ≠ base)
    (few : base - st.nextEmit ≤ v.maxFused) (far : minCopy2Offset ≤ base - i) :
    Returns (do
      let (dst, d) ← v.emitFused st.dst st.d (src.list st.nextEmit (base - st.nextEmit)) (base - i)
        (s' - base)
      return some { st with dst, d, s := s', offset := base - i })
      (fun r => ∀ st', r = some st' → Matched v src size low st') := by
  have inside := inv.room
  have near := inv.near
  have ⟨apart, back, le, forward, last, repeats, past⟩ := ext
  have meet : st.nextEmit + (base - st.nextEmit) = base := by omega
  have upTo : base + (s' - base) = s' := by omega
  have emitted := emitFused_ok (base - st.nextEmit) (base - i) (s' - base) lawful inv.written
    room.lt (by omega) few far (by omega) (by omega) (by omega)
    (by rw [meet]; exact repeats.same (by omega)) (by omega) (fun C hC => by
      rw [meet, upTo]
      exact inv.budget.fused room kept (by omega) (by omega) (by omega))
  refine emitted.bind ?_
  rintro ⟨dst, d⟩ ⟨w, budget⟩
  rw [meet, upTo] at w budget
  refine returns_ok ?_
  rintro _ ⟨⟩
  exact inv.matched ext w budget

/-- A copy without literals. -/
theorem Found.alone (here : st.nextEmit = base) :
    Returns (do
      let (dst, d) ← emitCopy st.dst st.d (base - i) (s' - base)
      return some { st with dst, d, s := s', offset := base - i })
      (fun r => ∀ st', r = some st' → Matched v src size low st') := by
  have inside := inv.room
  have near := inv.near
  have w := inv.written
  have ⟨apart, back, le, forward, last, repeats, past⟩ := ext
  have copySize := length_copyBytes_le (base - i) (s' - base) (by omega)
  obtain ⟨fit, budget⟩ := inv.budget.fused room kept (s := s') (by omega) (by omega)
    (C := (copyBytes (base - i) (s' - base)).length) (by omega)
  rw [here] at w
  refine (w.copy room.lt (by omega) (by omega) (by omega) (by omega) (repeats.same (by omega))
    (by omega) fit).bind ?_
  rintro ⟨dst, d⟩ ⟨w', hd'⟩
  rw [show base + (s' - base) = s' by omega] at w'
  rw [← hd'] at budget
  refine returns_ok ?_
  rintro _ ⟨⟩
  exact inv.matched ext w' budget

end Emission

theorem emitMatch_ok {st : State} {candidate : Nat} (lawful : Lawful v src.len)
    (room : Room src.len size) (hd : dstLimit = src.len - src.len / 32 - 6)
    (inv : Found v src size low st candidate) :
    Returns (emitMatch v src dstLimit st candidate) (fun r => ∀ st', r = some st' →
      Matched v src size low st') := by
  obtain ⟨i, base, s', run, run', kept, ext⟩ := inv.extends
  have inside := inv.room
  have back := ext.back
  have le := ext.le
  have forward := ext.forward
  rw [emitMatch, run]
  simp only [ok_bind]
  rw [sub_ok back.le]
  simp only [ok_bind, run']
  rw [sub_ok (by omega)]
  simp only [ok_bind]
  split
  · next lits =>
      rw [sub_ok kept]
      simp only [ok_bind]
      split
      · split
        · exact returns_ok (fun _ h => by cases h)
        · next fits =>
            rw [range_ok kept (by omega), ok_bind]
            exact inv.separate room kept ext hd fits
      · next fused =>
          rw [range_ok kept (by omega), ok_bind]
          exact inv.fused room kept ext lawful lits (by omega) (by omega)
  · next none => exact inv.alone room kept ext (Classical.not_not.mp none)

def ImmediateOk (v : Variant) (src : Slice) (size low : Nat) : State ⊕ Exit State → Prop
  | .inl st => Searching v src size (low + 1) st
  | .inr e => ExitOk src size e

theorem immediateStep_ok {st : State} (lawful : Lawful v src.len) (room : Room src.len size)
    (hs : sLimit = src.len - 8) (hd : dstLimit = src.len - src.len / 32 - 6)
    (inv : Matched v src size low st) :
    Returns (immediateStep v src sLimit dstLimit st)
      (Pass (Matched v src size low) (fun st => src.len - st.s) (ImmediateOk v src size low) st) := by
  obtain ⟨since, w, bits, below, start, back, budget⟩ := inv
  have long := room.long
  have hash (u : Nat) : v.hash u < 2 ^ st.table.bits := by rw [bits]; exact v.hash_lt u
  rw [immediateStep]
  dsimp only
  split
  · exact returns_ok w
  · next more =>
      rw [sub_ok start, ok_bind, load64_ok (by omega), ok_bind]
      split
      · exact returns_ok w.len
      · next fits =>
          have tight : Budget src.len st.d st.s 8 := by
            rw [Budget] at budget ⊢
            split_ifs at budget ⊢ <;> omega
          have cand_lt : st.table.cells.get (v.hash (src.word 8 (st.s - 2) >>> 16)) < st.s :=
            below _ (hash _)
          rw [Table.get_ok (hash _), ok_bind, lawful.entry _ (by omega), lawful.entry _ (by omega)]
          obtain ⟨t₀, set₀, bits₀, all₀⟩ := Table.set_ok (v := st.s - 2)
            (below.mono (q := (· < st.s + 1)) (fun c hc => by omega))
            (hash (src.word 8 (st.s - 2))) (by omega)
          have hash₀ (u : Nat) : v.hash u < 2 ^ t₀.bits := by rw [bits₀]; exact hash u
          obtain ⟨t₁, set₁, bits₁, all₁⟩ := Table.set_ok (v := st.s) all₀
            (hash₀ (src.word 8 (st.s - 2) >>> 16)) (by omega)
          have read : (src.word 8 (st.s - 2) >>> 16) % 2 ^ 32 = src.word 4 st.s := by
            have := word_shifted src (st.s - 2) (k := 2) (by omega)
            rwa [Nat.sub_add_cancel start] at this
          rw [set₀, ok_bind, set₁, ok_bind, hit_eq _ _ (by omega), ok_bind]
          split
          · rw [load64_ok (by omega)]
            exact returns_ok ⟨by simp only; omega, w, bits₁.trans (bits₀.trans bits), all₁,
              by simp only; omega, by simp only; omega, by simp only; omega, rfl, tight⟩
          · next found =>
              obtain ⟨close, same⟩ := same_of_hit read (by simpa using found)
              have near := lawful.near _ st.s cand_lt (by omega) close
              generalize st.table.cells.get (v.hash (src.word 8 (st.s - 2) >>> 16)) = cand at *
              obtain ⟨s', run', ext⟩ := extendWords_ok src (st.s + 4) (cand + 4)
                (by omega) (by omega)
              have forward := ext.forward
              have last := ext.inside
              have repeats : src.Repeats (st.s - cand) st.s s' :=
                (same.repeats (by omega)).join (ext.repeats (by omega)) le_rfl
              have copySize := length_copyBytes_le (st.s - cand) (s' - st.s) (by omega)
              obtain ⟨fit, budget'⟩ := tight.fused room le_rfl (s := s') (by omega) (by omega)
                (C := (copyBytes (st.s - cand) (s' - st.s)).length) (by omega)
              rw [sub_ok (by omega), ok_bind, run', ok_bind, sub_ok (by omega), ok_bind]
              refine (w.copy room.lt (by omega) near (by omega) (by omega) (repeats.same (by omega))
                (by omega) fit).bind ?_
              rintro ⟨dst, d⟩ ⟨w', hd'⟩
              rw [Nat.add_sub_cancel' (by omega)] at w'
              rw [← hd'] at budget'
              exact returns_ok ⟨⟨by simp only; omega, w', bits₁.trans (bits₀.trans bits),
                all₁.mono (fun c hc => by simp only; omega), by simp only; omega,
                by simp only; omega, budget'⟩, by simp only; omega⟩

theorem outerStep_ok {st : State} (lawful : Lawful v src.len) (room : Room src.len size)
    (hs : sLimit = src.len - 8) (hd : dstLimit = src.len - src.len / 32 - 6)
    (inv : Searching v src size low st) :
    Returns (outerStep v src sLimit dstLimit st)
      (Pass (Searching v src size low) (fun st => src.len - st.s) (ExitOk src size) st) := by
  rw [outerStep]
  have here : Searching v src size st.s st := { inv with since := le_rfl }
  refine (returns_run _ _ (fun _ => searchStep_ok lawful room hs hd) here (by omega)).bind ?_
  rintro (⟨found, candidate⟩ | e) result
  · refine (emitMatch_ok lawful room hd result).bind ?_
    rintro (_ | next) matched
    · exact returns_ok result.written.len
    · refine (returns_run _ _ (fun _ => immediateStep_ok lawful room hs hd) (matched next rfl)
        (by omega)).bind ?_
      rintro (again | e) immediate
      · have later : st.s < again.s := immediate.since
        have inside := immediate.room
        have since := inv.since
        exact returns_ok ⟨{ immediate with since := by omega }, by simp only; omega⟩
      · exact returns_ok immediate
  · exact returns_ok result

end Body

theorem encodeBlockWith_ok {v : Variant} {src dst : Slice} {size : Nat} (lawful : Lawful v src.len)
    (room : Room src.len size) (len : dst.len = size) :
    Encodes src size (encodeBlockWith v dst src) := by
  have long := room.long
  have shift : src.len >>> 5 = src.len / 32 := Nat.shiftRight_eq_div_pow _ _
  rw [encodeBlockWith, inputMargin, sub_ok (by omega), ok_bind, shift, sub_ok (by omega), ok_bind,
    sub_ok (by omega), ok_bind, load64_ok (by omega), ok_bind]
  have start : Searching v src size 0
      ⟨dst, 0, Table.zeros v.tableBits, 1, src.word 8 1, 0, 1⟩ := {
    since := Nat.zero_le _
    written := ⟨len, emitted_start src dst, Nat.zero_le _, Nat.zero_le _, le_rfl⟩
    bits := rfl
    below := Table.all_zeros (by simp only; omega) _
    order := Nat.zero_le _
    back := le_rfl
    room := by simp only; omega
    cv := rfl
    budget := by
      simp only [Budget]
      split_ifs <;> omega }
  refine (returns_run _ _ (fun _ => outerStep_ok lawful room rfl rfl) start (by omega)).bind ?_
  rintro (st | dst') result
  · exact emitRemainder_ok room rfl result
  · exact returns_ok ⟨result, .inl rfl⟩

theorem lawful_big {n : Nat} (bound : n ≤ maxBlockSize) : Lawful big n where
  entry s hs := Nat.mod_eq_of_lt (lt_of_lt_of_le hs (bound.trans (by decide)))
  near c p _ _ h := by
    simp only [big, decide_eq_true_eq] at h
    omega
  few := by decide
  fused _ _ _ _ _ _ := rfl
  far _ := le_rfl

theorem lawful_small {n bits : Nat} (pos : 0 < bits) (le : bits ≤ 64) (bound : n ≤ 65536) :
    Lawful (small bits pos le) n where
  entry s hs := Nat.mod_eq_of_lt (lt_of_lt_of_le hs bound)
  near c p _ hp _ := by
    rw [maxCopy3Offset_eq]
    omega
  few := le_rfl
  fused _ _ _ offset _ hoff := by
    rw [if_pos (by rw [maxCopy2Offset_eq]; omega)]
    rfl
  far h := by
    rw [maxCopy2Offset_eq] at h
    omega

theorem encodeBlock_ok {src dst : Slice} {size : Nat} (room : Room src.len size)
    (len : dst.len = size) : Encodes src size (encodeBlock dst src) := by
  rw [encodeBlock]
  split_ifs with tiny short small
  · exact returns_ok ⟨len, .inl rfl⟩
  · exact encodeBlockWith_ok (lawful_small _ _ (by rw [smallTableMaxLen] at short; omega)) room len
  · exact encodeBlockWith_ok (lawful_small _ _ small) room len
  · exact encodeBlockWith_ok (lawful_big room.bound) room len

end MinLz.Block.L1
