import MinLz.Block.Decode

/-! # The decoder follows the format

Both loops read the same header, make the same moves as seen through the bytes
below `d`, and refuse the same tokens. What the fast loop writes past `d` is
never part of that view, so it cannot matter; the one check the tail loop does
not share, four bytes of room for fused literals, fails only where the copy
behind them would not fit either.
-/

namespace MinLz.Block.Decode

theorem le16_ok {src : Slice} {i : Nat} (h : i + 2 ≤ src.len) : le16 src i = .ok (src.word 2 i) := by
  have low := (src.get i).toNat_lt
  simp only [le16, index_ok (show i < src.len by omega), index_ok (show i + 1 < src.len by omega),
    ok_bind, pure, Except.pure, Slice.word, Bits.or_shiftLeft 8 _ low]
  congr 1
  omega

theorem le24_ok {src : Slice} {i : Nat} (h : i + 3 ≤ src.len) : le24 src i = .ok (src.word 3 i) := by
  have low := (src.get i).toNat_lt
  have mid := (src.get (i + 1)).toNat_lt
  simp only [le24, index_ok (show i < src.len by omega), index_ok (show i + 1 < src.len by omega),
    index_ok (show i + 2 < src.len by omega), ok_bind, pure, Except.pure, Slice.word,
    Nat.add_assoc, Nat.reduceAdd, Bits.or_shiftLeft 8 _ low]
  rw [Bits.or_shiftLeft 16 _ (by omega)]
  congr 1
  omega

theorem le32_ok {src : Slice} {i : Nat} (h : i + 4 ≤ src.len) : le32 src i = .ok (src.word 4 i) := by
  have low := (src.get i).toNat_lt
  have mid := (src.get (i + 1)).toNat_lt
  have high := (src.get (i + 2)).toNat_lt
  simp only [le32, index_ok (show i < src.len by omega), index_ok (show i + 1 < src.len by omega),
    index_ok (show i + 2 < src.len by omega), index_ok (show i + 3 < src.len by omega), ok_bind,
    pure, Except.pure, Slice.word, Nat.add_assoc, Nat.reduceAdd, Bits.or_shiftLeft 8 _ low]
  rw [Bits.or_shiftLeft 16 _ (by omega), Bits.or_shiftLeft 24 _ (by omega)]
  congr 1
  omega

/-- A header of the format, or the tail loop's refusal of a truncated one. -/
def refuse : Option Header → Exec Header
  | none => corrupt "truncated input"
  | some h => .ok h

theorem truncated_ok {src : Slice} {s : Nat} (h : s ≤ src.len) : truncated src s = .ok () :=
  if_neg (Nat.not_lt.mpr h)

theorem truncated_past {src : Slice} {s : Nat} (h : src.len < s) :
    truncated src s = corrupt "truncated input" := if_pos h

theorem fastLength_eq (src : Slice) (h : Header) {x limit base : Nat} (hx : x ≤ limit + 3)
    (hs : 1 ≤ h.s) (room : h.s + 3 ≤ src.len) :
    (do
      let (length, s) ← fastLength src h.s x limit h.length base
      return { h with length := length, s := s }) =
    refuse (Token.withLength src h (x - limit) base) := by
  obtain small | ⟨k, rfl, one, three⟩ : x ≤ limit ∨ ∃ k, x = limit + k ∧ 1 ≤ k ∧ k ≤ 3 :=
    (Nat.lt_or_ge limit x).symm.imp_right (fun h => ⟨x - limit, by omega, by omega, by omega⟩)
  · simp [fastLength, small, Token.withLength, Nat.sub_eq_zero_of_le small,
      show h.s ≤ src.len by omega, refuse, pure, Except.pure]
  · rw [Nat.add_sub_cancel_left, Token.withLength, if_pos (by omega), if_neg (by omega)]
    obtain rfl | rfl | rfl : k = 1 ∨ k = 2 ∨ k = 3 := by omega
    · simp [fastLength, load_ok (show h.s + 1 ≤ src.len by omega), refuse, pure, Except.pure]
    · simp [fastLength, load_ok (show h.s + 2 ≤ src.len by omega), refuse, pure, Except.pure]
    · have shift : src.word 4 (h.s - 1) >>> 8 = src.word 3 h.s := by
        have := src.word_div 1 3 (h.s - 1)
        rwa [Nat.sub_add_cancel hs, pow_one, ← Nat.shiftRight_eq_div_pow _ 8] at this
      simp [fastLength, load_ok (show h.s - 1 + 4 ≤ src.len by omega), shift, refuse, pure,
        Except.pure]

theorem tailLength_eq (src : Slice) (h : Header) {x limit base : Nat} (hx : x ≤ limit + 3)
    (hs : h.s ≤ src.len) :
    (do
      let (length, s) ← tailLength src h.s x limit h.length base
      return { h with length := length, s := s }) =
    refuse (Token.withLength src h (x - limit) base) := by
  obtain small | ⟨k, rfl, one, three⟩ : x ≤ limit ∨ ∃ k, x = limit + k ∧ 1 ≤ k ∧ k ≤ 3 :=
    (Nat.lt_or_ge limit x).symm.imp_right (fun h => ⟨x - limit, by omega, by omega, by omega⟩)
  · simp [tailLength, small, Token.withLength, Nat.sub_eq_zero_of_le small, hs, refuse, pure,
      Except.pure]
  · have past : ¬ limit + k ≤ limit := by omega
    rw [Nat.add_sub_cancel_left, Token.withLength]
    by_cases inside : h.s + k ≤ src.len
    · rw [if_pos inside, if_neg (by omega)]
      obtain rfl | rfl | rfl : k = 1 ∨ k = 2 ∨ k = 3 := by omega
      · simp [tailLength, truncated_ok inside, index_ok (show h.s < src.len by omega), refuse, pure,
          Except.pure, Slice.word]
      · simp [tailLength, truncated_ok inside, le16_ok inside, refuse, pure, Except.pure]
      · simp [tailLength, truncated_ok inside, le24_ok inside, refuse, pure, Except.pure]
    · rw [if_neg inside]
      obtain rfl | rfl | rfl : k = 1 ∨ k = 2 ∨ k = 3 := by omega
      all_goals
        simp [tailLength, truncated_past (Nat.lt_of_not_le inside), refuse, corrupt]

theorem tailHeader_eq {src : Slice} {s : Nat} (offset : Nat) (h : s < src.len) :
    tailHeader src s offset = refuse (Token.header src s offset) := by
  have byte := (src.get s).toNat_lt
  have two := src.word_mod 1 1 s
  have value := src.word_lt 4 s
  simp only [tailHeader, index_ok h, ok_bind, Bits.and_three, Bits.and_fifteen, Bits.and_seven,
    Bits.and_sixtyThree, Bits.and_ffff, Bits.and_four_eq_zero, Nat.shiftRight_eq_div_pow,
    Nat.reducePow]
  split
  · next kind =>
      rw [Token.header_run offset kind]
      exact tailLength_eq src ⟨_, 0, _, offset, s + 1⟩ (by omega) h
  · next kind =>
      rw [Token.header_copy1 offset kind]
      by_cases inside : s + 2 ≤ src.len
      · rw [truncated_ok inside, le16_ok inside]
        have field : (src.get s).toNat / 4 % 16 = src.word 2 s / 4 % 16 := by
          simp only [Slice.word]
          omega
        have small : src.word 2 s / 4 % 16 < 16 := Nat.mod_lt _ (by decide)
        simp only [ok_bind, field]
        split
        · next full =>
            simp only [Token.withLength, full]
            by_cases room : s + 3 ≤ src.len
            · simp [truncated_ok room, index_ok (show s + 2 < src.len by omega),
                show s + 2 < src.len from room, refuse, Slice.word, pure, Except.pure]
            · simp [truncated_past (Nat.lt_of_not_le room), show ¬ s + 2 < src.len from room, refuse,
                corrupt]
        · next short =>
            have none : src.word 2 s / 4 % 16 / 15 = 0 := by omega
            simp [Token.withLength, none, inside, refuse, pure, Except.pure]
      · rw [truncated_past (by omega), Token.withLength, if_neg (by simp only; omega)]
        rfl
  · next kind =>
      rw [Token.header_copy2 offset kind]
      by_cases inside : s + 3 ≤ src.len
      · rw [truncated_ok inside, le16_ok (by omega)]
        exact tailLength_eq src ⟨false, 0, _, _, s + 3⟩ (by omega) inside
      · rw [truncated_past (by omega), Token.withLength, if_neg (by simp only; omega)]
        rfl
  · next not0 not1 not2 =>
      have kind : (src.get s).toNat % 4 = 3 := by grind
      by_cases inside : s + 4 ≤ src.len
      · rw [truncated_ok inside, le32_ok inside]
        simp only [ok_bind]
        split
        · next short => rw [Token.header_fused2 offset kind inside short]; rfl
        · next long =>
            rw [Token.header_copy3 offset kind inside (by omega)]
            exact tailLength_eq src ⟨false, _, _, _, s + 4⟩ (by omega) inside
      · rw [truncated_past (by omega), Token.header_truncated offset kind (by omega)]
        rfl

theorem fastHeader_eq {src : Slice} {s : Nat} (offset : Nat) (room : s + 16 ≤ src.len) :
    fastHeader src s offset = refuse (Token.header src s offset) := by
  have byte := (src.get s).toNat_lt
  have value := src.word_lt 4 s
  have tag : src.word 1 s = (src.get s).toNat := by simp [Slice.word]
  simp only [fastHeader, load_ok (show s + 1 ≤ src.len by omega), tag, ok_bind, Bits.and_three,
    Bits.and_fifteen, Bits.and_seven, Bits.and_sixtyThree, Bits.and_ffff, Bits.and_four_eq_zero,
    Nat.shiftRight_eq_div_pow, Nat.reducePow]
  split
  · next kind =>
      rw [Token.header_run offset kind]
      exact fastLength_eq src ⟨_, 0, _, offset, s + 1⟩ (by omega) (by simp) (by simp only; omega)
  · next kind =>
      rw [Token.header_copy1 offset kind, load_ok (by omega), Token.withLength]
      have small : src.word 2 s / 4 % 16 < 16 := Nat.mod_lt _ (by decide)
      simp only [ok_bind]
      split
      · next full =>
          simp [full, load_ok (show s + 2 + 1 ≤ src.len by omega), show s + 2 < src.len by omega,
            refuse, pure, Except.pure]
      · next short =>
          have none : src.word 2 s / 4 % 16 / 15 = 0 := by omega
          simp [none, show s + 2 ≤ src.len by omega, refuse, pure, Except.pure]
  · next kind =>
      rw [Token.header_copy2 offset kind, load_ok (by omega)]
      exact fastLength_eq src ⟨false, 0, _, _, s + 3⟩ (by omega) (by simp) (by simp only; omega)
  · next not0 not1 not2 =>
      have kind : (src.get s).toNat % 4 = 3 := by grind
      rw [load_ok (by omega)]
      simp only [ok_bind]
      split
      · next short => rw [Token.header_fused2 offset kind (by omega) short]; rfl
      · next long =>
          rw [Token.header_copy3 offset kind (by omega) (by omega)]
          exact fastLength_eq src ⟨false, _, _, _, s + 4⟩ (by omega) (by simp) (by simp only; omega)

theorem copied {dst dst' : Slice} {d offset n : Nat} (pos : 1 ≤ offset) (back : offset ≤ d)
    (below : ∀ i < d, dst'.get i = dst.get i)
    (same : ∀ k < n, dst'.get (d - offset + k) = dst'.get (d + k)) :
    dst'.list 0 (d + n) = Lz77.copy offset n (dst.list 0 d) := by
  have prefix_eq : dst.list 0 d = Lz77.initial dst'.get d := by
    rw [Lz77.initial_congr below]
    simp [Slice.list, Lz77.initial]
  rw [prefix_eq, Lz77.copy_prefix dst'.get n d pos back same]
  simp [Slice.list, Lz77.initial]

/-- The format's view of a decoder state: only the bytes below `d` count. -/
def State.view (st : State) : Token.State := ⟨st.s, st.dst.list 0 st.d, st.offset⟩

structure Ready (src : Slice) (dlen : Nat) (st : State) : Prop where
  len : st.dst.len = dlen + overshootPad
  d : st.d ≤ dlen
  s : st.s ≤ src.len
  offset : 1 ≤ st.offset

/-- A run that does what the format's step does, and refuses when that does. -/
def Follows (src : Slice) (dlen : Nat) (r : Exec State) : Option Token.State → Prop
  | none => ∃ e, r = .error (.error e)
  | some t => ∃ st, r = .ok st ∧ st.view = t ∧ Ready src dlen st

theorem Ready.room {src : Slice} {dlen : Nat} {st : State} (ready : Ready src dlen st) {n : Nat}
    (h : st.d + n ≤ dlen) : st.d + n ≤ st.dst.len ∧ st.d + 16 ≤ st.dst.len := by
  have hd := ready.d
  rw [ready.len, overshootPad]
  omega

theorem literalFits_ok {src : Slice} {dlen d s : Nat} (length : Nat) (hd : d ≤ dlen)
    (hs : s ≤ src.len) : literalFits src dlen d s length =
      .ok (decide (d + length ≤ dlen ∧ s + length ≤ src.len)) := by
  simp only [literalFits, sub_ok hd, sub_ok hs, ok_bind]
  split
  · next long =>
      have : ¬ d + length ≤ dlen := by omega
      simp [this, pure, Except.pure]
  · next fits =>
      have : d + length ≤ dlen := by omega
      simp only [this, true_and, pure, Except.pure]
      congr 2
      apply propext
      omega

section Moves

variable {src : Slice} {dlen : Nat} {st : State} (ready : Ready src dlen st)
include ready

theorem literalRun_follows {move : Slice → Nat → Slice → Nat → Nat → Exec Slice} {length : Nat}
    (moves : st.s + length ≤ src.len → st.d + length ≤ dlen →
      ∃ dst', move src st.s st.dst st.d length = .ok dst' ∧ dst'.len = st.dst.len ∧
        dst'.list 0 (st.d + length) = st.dst.list 0 st.d ++ src.list st.s length) :
    Follows src dlen (literalRun move src dlen st length)
      (if st.d + length ≤ dlen ∧ st.s + length ≤ src.len then
        some ⟨st.s + length, st.dst.list 0 st.d ++ src.list st.s length, st.offset⟩
      else none) := by
  simp only [literalRun, literalFits_ok length ready.d ready.s, ok_bind]
  by_cases fits : st.d + length ≤ dlen ∧ st.s + length ≤ src.len
  · obtain ⟨dst', run, len, out⟩ := moves fits.2 fits.1
    simp only [fits, run]
    exact ⟨_, rfl, by simp [State.view, out],
      ⟨by simp [len, ready.len], fits.1, fits.2, ready.offset⟩⟩
  · simp only [fits]
    exact ⟨_, rfl⟩

theorem docopy_follows {move : Slice → Nat → Nat → Nat → Exec Slice} {length : Nat}
    (reason : String)
    (moves : st.offset ≤ st.d → st.d + length ≤ dlen →
      ∃ dst', move st.dst st.d st.offset length = .ok dst' ∧ dst'.len = st.dst.len ∧
        dst'.list 0 (st.d + length) = Lz77.copy st.offset length (st.dst.list 0 st.d)) :
    Follows src dlen (docopy reason move dlen st length)
      (if st.offset ≤ st.d ∧ st.d + length ≤ dlen then
        some ⟨st.s, Lz77.copy st.offset length (st.dst.list 0 st.d), st.offset⟩
      else none) := by
  have hd := ready.d
  simp only [docopy, sub_ok hd, ok_bind]
  by_cases near : st.offset ≤ st.d
  · by_cases fits : st.d + length ≤ dlen
    · obtain ⟨dst', run, len, out⟩ := moves near fits
      simp only [near, fits, run, Nat.not_lt.mpr near, show ¬ length > dlen - st.d by omega]
      exact ⟨_, rfl, by simp [State.view, out],
        ⟨by simp [len, ready.len], fits, ready.s, ready.offset⟩⟩
    · have past : length > dlen - st.d := by omega
      simp only [fits, and_false, if_false, Nat.not_lt.mpr near, past, if_true]
      exact ⟨_, rfl⟩
  · simp only [near, false_and, if_false, Nat.lt_of_not_le near, if_true]
    exact ⟨_, rfl⟩

theorem copyLiteral_ok {length : Nat} (inside : st.s + length ≤ src.len)
    (fits : st.d + length ≤ dlen) :
    ∃ dst', copyLiteral src st.s st.dst st.d length = .ok dst' ∧ dst'.len = st.dst.len ∧
      dst'.list 0 (st.d + length) = st.dst.list 0 st.d ++ src.list st.s length := by
  have room := (ready.room fits).1
  refine ⟨st.dst.splice st.d (src.list st.s length), ?_, rfl, ?_⟩
  · rw [copyLiteral, read, if_pos inside]
    exact store_ok (by simpa using room)
  · rw [Slice.list_splice _ _ _ _ (by simp), Slice.take_list _ _ _ _ le_rfl]

theorem copyShortLiteral_ok {length : Nat} (inside : st.s + length ≤ src.len)
    (fits : st.d + length ≤ dlen) :
    ∃ dst', copyShortLiteral src st.s st.dst st.d length = .ok dst' ∧ dst'.len = st.dst.len ∧
      dst'.list 0 (st.d + length) = st.dst.list 0 st.d ++ src.list st.s length := by
  obtain ⟨_, pad⟩ := ready.room fits
  simp only [copyShortLiteral]
  split
  · next short =>
      refine ⟨st.dst.splice st.d (src.list st.s 16), ?_, rfl, ?_⟩
      · rw [read, if_pos short.2]
        exact store_ok (by simpa using pad)
      · rw [Slice.list_splice _ _ _ _ (by simpa using short.1), Slice.take_list _ _ _ _ short.1]
  · exact copyLiteral_ok ready inside fits

theorem forwardCopy_ok {length : Nat} (near : st.offset ≤ st.d) (fits : st.d + length ≤ dlen) :
    ∃ dst', forwardCopy st.dst st.d st.offset length = .ok dst' ∧ dst'.len = st.dst.len ∧
      dst'.list 0 (st.d + length) = Lz77.copy st.offset length (st.dst.list 0 st.d) := by
  have room := (ready.room fits).1
  unfold forwardCopy loop
  apply Loop.run_rule
    (fun (r : Slice × Nat) => r.2 ≤ length ∧ r.1.len = st.dst.len ∧
      (∀ i < st.d, r.1.get i = st.dst.get i) ∧
      ∀ k < r.2, r.1.get (st.d - st.offset + k) = r.1.get (st.d + k))
    (fun r => length - r.2)
    (fun (r : Exec Slice) => ∃ dst', r = .ok dst' ∧ dst'.len = st.dst.len ∧
      dst'.list 0 (st.d + length) = Lz77.copy st.offset length (st.dst.list 0 st.d))
  · rintro ⟨cur, i⟩ ⟨hi, hlen, below, same⟩
    simp only at hi hlen below same
    simp only
    split
    · next more =>
        have pos := ready.offset
        rw [sub_ok near]
        simp only [ok_bind]
        rw [readBack, if_pos (by omega)]
        simp only [ok_bind]
        rw [store_ok (by simp; omega)]
        refine ⟨⟨by simp only; omega, hlen, ?_, ?_⟩, by simp only; omega⟩
        · intro j hj
          simp only
          rw [Slice.get_splice_lt _ _ (by omega), below j hj]
        · intro k hk
          simp only at hk ⊢
          rw [Slice.get_splice_lt _ _ (by omega)]
          obtain earlier | rfl : k < i ∨ k = i := by omega
          · rw [Slice.get_splice_lt _ _ (by omega), same k earlier]
          · have last := Slice.get_splice_add cur (cur.list (st.d - st.offset + k) 1) (st.d + k) 0
              (by simp)
            simpa using last.symm
    · next stop =>
        obtain rfl : i = length := by omega
        exact ⟨cur, rfl, hlen, copied ready.offset near below same⟩
  · simp
  · simp

omit ready in
/-- Bytes that stand wholly below `d` are copied by one move. -/
theorem copied_splice {dst : Slice} {d offset length n : Nat} (pos : 1 ≤ offset)
    (near : offset ≤ d) (long : length ≤ n) (disjoint : length ≤ offset) :
    (dst.splice d (dst.list (d - offset) n)).list 0 (d + length) =
      Lz77.copy offset length (dst.list 0 d) := by
  apply copied pos near
  · intro i hi
    exact Slice.get_splice_lt _ _ hi
  · intro k hk
    rw [Slice.get_splice_lt _ _ (by omega), Slice.get_splice_add _ _ _ _ (by simp; omega)]
    simp

theorem tailCopy_ok (length : Nat) (near : st.offset ≤ st.d) (fits : st.d + length ≤ dlen) :
    ∃ dst', tailCopy st.dst st.d st.offset length = .ok dst' ∧ dst'.len = st.dst.len ∧
      dst'.list 0 (st.d + length) = Lz77.copy st.offset length (st.dst.list 0 st.d) := by
  have room := (ready.room fits).1
  simp only [tailCopy]
  split
  · next disjoint =>
      refine ⟨st.dst.splice st.d (st.dst.list (st.d - st.offset) length), ?_, rfl,
        copied_splice ready.offset near le_rfl (by omega)⟩
      rw [sub_ok near]
      simp only [ok_bind]
      rw [readBack, if_pos (by omega)]
      exact store_ok (by simpa using room)
  · exact forwardCopy_ok ready near fits

theorem fastCopy_ok (length : Nat) (near : st.offset ≤ st.d) (fits : st.d + length ≤ dlen) :
    ∃ dst', fastCopy st.dst st.d st.offset length = .ok dst' ∧ dst'.len = st.dst.len ∧
      dst'.list 0 (st.d + length) = Lz77.copy st.offset length (st.dst.list 0 st.d) := by
  by_cases short : st.offset > length ∧ length ≤ 16 ∧ st.offset ≥ 16
  · refine ⟨st.dst.splice st.d (st.dst.list (st.d - st.offset) 16), ?_, rfl,
      copied_splice ready.offset near short.2.1 (by omega)⟩
    rw [fastCopy, if_pos short.1, if_pos short.2, sub_ok near]
    simp only [ok_bind]
    rw [readBack, if_pos (by omega)]
    exact store_ok (by simpa using (ready.room fits).2)
  · have same : fastCopy st.dst st.d st.offset length = tailCopy st.dst st.d st.offset length := by
      simp only [fastCopy, tailCopy]
      split
      · next disjoint => rw [if_neg (fun h => short ⟨disjoint, h⟩)]
      · rfl
    rw [same]
    exact tailCopy_ok ready _ near fits

/-- Fused literals are either out, or refused by a loop that would otherwise
    refuse the copy. -/
theorem tailFused_follows (lits : Nat) :
    Follows src dlen (tailFused src dlen st lits)
      (if st.d + lits ≤ dlen ∧ st.s + lits ≤ src.len then
        some ⟨st.s + lits, st.dst.list 0 st.d ++ src.list st.s lits, st.offset⟩
      else none) := by
  have hd := ready.d
  have hs := ready.s
  simp only [tailFused, sub_ok hd, ok_bind]
  by_cases fused : lits > 0
  · rw [if_pos fused]
    by_cases room : st.d + lits ≤ dlen
    · rw [if_neg (by omega)]
      by_cases inside : st.s + lits ≤ src.len
      · obtain ⟨dst', run, len, out⟩ := copyLiteral_ok ready inside room
        rw [if_neg (by omega), if_pos ⟨room, inside⟩, run]
        exact ⟨_, rfl, by simp [State.view, out],
          ⟨by simp [len, ready.len], room, inside, ready.offset⟩⟩
      · simp only [inside, and_false, if_false, Nat.lt_of_not_le inside, if_true]
        exact ⟨_, rfl⟩
    · have past : lits > dlen - st.d := by omega
      simp only [room, false_and, if_false, past, if_true]
      exact ⟨_, rfl⟩
  · obtain rfl : lits = 0 := by omega
    rw [if_neg fused, if_pos ⟨hd, hs⟩]
    exact ⟨st, rfl, by simp [State.view, Slice.list], ready⟩

theorem fastFused_follows {lits : Nat} (few : lits ≤ 4) (inside : st.s + 4 ≤ src.len)
    (room : 0 < lits → st.d + 4 ≤ dlen) :
    Follows src dlen (fastFused src dlen st lits)
      (some ⟨st.s + lits, st.dst.list 0 st.d ++ src.list st.s lits, st.offset⟩) := by
  have hd := ready.d
  have pad := (ready.room (n := 0) hd).2
  by_cases fused : lits > 0
  · have := room fused
    simp only [fastFused, fused, if_true, sub_ok hd, ok_bind, load32_ok inside, store32]
    rw [if_neg (by omega), store_ok (by simp; omega)]
    refine ⟨_, rfl, ?_,
      ⟨by simp [ready.len], by simp only; omega, by simp only; omega, ready.offset⟩⟩
    simp only [State.view, Slice.leBytes_word]
    rw [Slice.list_splice _ _ _ _ (by simpa using few), Slice.take_list _ _ _ _ few]
  · obtain rfl : lits = 0 := by omega
    exact ⟨st, rfl, by simp [State.view, Slice.list], ready⟩

end Moves

/-- A step that takes the fused literals first and then copies. -/
theorem fused_follows {src : Slice} {dlen : Nat} {r : Exec State} {t : Token.State} {length : Nat}
    {move : Slice → Nat → Nat → Nat → Exec Slice} (reason : String)
    (fused : Follows src dlen r (some t))
    (moves : ∀ st, Ready src dlen st → st.offset ≤ st.d → st.d + length ≤ dlen →
      ∃ dst', move st.dst st.d st.offset length = .ok dst' ∧ dst'.len = st.dst.len ∧
        dst'.list 0 (st.d + length) = Lz77.copy st.offset length (st.dst.list 0 st.d)) :
    Follows src dlen (r >>= fun st => docopy reason move dlen st length)
      (if t.offset ≤ t.out.length ∧ t.out.length + length ≤ dlen then
        some ⟨t.s, Lz77.copy t.offset length t.out, t.offset⟩
      else none) := by
  obtain ⟨st, rfl, rfl, ready⟩ := fused
  simpa [State.view] using docopy_follows ready reason (moves st ready)

theorem fastToken_follows {src : Slice} {dlen : Nat} {st : State} (ready : Ready src dlen st)
    (room : st.s + 16 ≤ src.len) :
    Follows src dlen (fastToken src dlen st) (Token.step src dlen st.view) := by
  simp only [fastToken, fastHeader_eq st.offset room, Token.step, State.view]
  cases e : Token.header src st.s st.offset with
  | none => exact ⟨_, rfl⟩
  | some h =>
      obtain ⟨_, inside, short, pos, few, long⟩ := Token.header_bounds e
      have next : Ready src dlen { st with s := h.s, offset := h.offset } :=
        ⟨ready.len, ready.d, inside, pos ready.offset⟩
      simp only [refuse, ok_bind, Slice.length_list]
      by_cases lit : h.literal = true
      · simp only [lit, if_true]
        exact literalRun_follows next (copyShortLiteral_ok next)
      · simp only [lit]
        by_cases enough : 0 < h.lits → st.d + 4 ≤ dlen
        · have fused := fastFused_follows next few (by simp only; omega) enough
          have copy := fused_follows "match copy out of bounds" fused
            (fun st ready => fastCopy_ok ready h.length)
          simpa [show h.s + h.lits ≤ src.len by omega, pos ready.offset] using copy
        · obtain ⟨fused, full⟩ := Classical.not_imp.mp enough
          have := long fused
          have hd := ready.d
          have past : ¬ st.d + h.lits + h.length ≤ dlen := by omega
          have tight : dlen - st.d < 4 := by omega
          simp only [fastFused, gt_iff_lt, fused, sub_ok hd, tight, ok_bind, if_true]
          simp only [List.length_append, Slice.length_list, past, and_false, if_false]
          exact ⟨_, rfl⟩

theorem tailToken_follows {src : Slice} {dlen : Nat} {st : State} (ready : Ready src dlen st)
    (more : st.s < src.len) :
    Follows src dlen (tailToken src dlen st) (Token.step src dlen st.view) := by
  simp only [tailToken, tailHeader_eq st.offset more, Token.step, State.view]
  cases e : Token.header src st.s st.offset with
  | none => exact ⟨_, rfl⟩
  | some h =>
      obtain ⟨_, inside, _, pos, _⟩ := Token.header_bounds e
      have next : Ready src dlen { st with s := h.s, offset := h.offset } :=
        ⟨ready.len, ready.d, inside, pos ready.offset⟩
      simp only [refuse, ok_bind, Slice.length_list]
      by_cases lit : h.literal = true
      · simp only [lit, if_true]
        exact literalRun_follows next (copyLiteral_ok next)
      · simp only [lit]
        have fused := tailFused_follows next h.lits
        simp only at fused
        by_cases fits : st.d + h.lits ≤ dlen ∧ h.s + h.lits ≤ src.len
        · rw [if_pos fits] at fused
          have copy := fused_follows "match offset out of bounds" fused
            (fun st ready => tailCopy_ok ready h.length)
          obtain ⟨st', run, view, ready'⟩ := fused
          have nonzero : st'.offset ≠ 0 := Nat.ne_of_gt ready'.offset
          rw [run] at copy ⊢
          simpa [nonzero, fits.2, pos ready.offset] using copy
        · rw [if_neg fits] at fused
          obtain ⟨e, run⟩ := fused
          have none : ¬ (h.s + h.lits ≤ src.len ∧ 1 ≤ h.offset ∧ h.offset ≤ st.d + h.lits ∧
              st.d + h.lits + h.length ≤ dlen) := by omega
          simp only [run, List.length_append, Slice.length_list, none, if_false]
          exact ⟨e, rfl⟩

/-- The format's output from the view of a state. -/
def outputFrom (src : Slice) (dlen : Nat) (st : State) : Option (List UInt8) :=
  Token.decodeFrom src dlen st.view

/-- A loop of such tokens either fails where the block is malformed or stops in a
    state with the same output still ahead. -/
theorem loop_follows {src : Slice} {dlen : Nat} {token : State → Exec State} {more : State → Prop}
    [DecidablePred more]
    (follows : ∀ st, Ready src dlen st → more st →
      st.s < src.len ∧ Follows src dlen (token st) (Token.step src dlen st.view))
    {start : State} (ready : Ready src dlen start) :
    (∃ e, loop (fun st => do if more st then return .next (← token st) else return .done st)
      (src.len + 1) start = .error (.error e) ∧ outputFrom src dlen start = none) ∨
    ∃ st, loop (fun st => do if more st then return .next (← token st) else return .done st)
      (src.len + 1) start = .ok st ∧ Ready src dlen st ∧ ¬ more st ∧
      outputFrom src dlen st = outputFrom src dlen start := by
  apply Loop.run_rule
    (fun st => Ready src dlen st ∧ outputFrom src dlen st = outputFrom src dlen start)
    (fun st => src.len - st.s)
    (fun (r : Exec State) => (∃ e, r = .error (.error e) ∧ outputFrom src dlen start = none) ∨
      ∃ st, r = .ok st ∧ Ready src dlen st ∧ ¬ more st ∧
        outputFrom src dlen st = outputFrom src dlen start)
  · rintro st ⟨ready, same⟩
    by_cases go : more st
    · obtain ⟨inside, token⟩ := follows st ready go
      simp only [go, if_true]
      cases e : Token.step src dlen st.view with
      | none =>
          obtain ⟨err, run⟩ := e ▸ token
          rw [run]
          exact .inl ⟨err, rfl, same ▸ Token.decodeFrom_stuck inside e⟩
      | some t =>
          obtain ⟨st', run, rfl, ready'⟩ := e ▸ token
          have forward : st.s < st'.s := (Token.step_bounds e).1
          rw [run]
          refine ⟨⟨ready', ?_⟩, Nat.sub_lt_sub_left inside forward⟩
          rw [← same]
          exact (Token.decodeFrom_step inside e).symm
    · simp only [go, if_false]
      exact .inr ⟨st, rfl, ready, go, same⟩
  · exact ⟨ready, rfl⟩
  · omega

/-- What a run leaves behind when `out` is the output of the block. -/
def Yields (dlen : Nat) (r : Exec Slice) : Option (List UInt8) → Prop
  | none => ∃ e, r = .error (.error e)
  | some l => ∃ dst, r = .ok dst ∧ dst.list 0 dlen = l

theorem tailLoop_yields {src : Slice} {dlen : Nat} {st : State} (ready : Ready src dlen st) :
    Yields dlen (tailLoop src dlen st) (outputFrom src dlen st) := by
  have tokens := loop_follows (fun _ ready more => ⟨more, tailToken_follows ready more⟩) ready
  unfold tailLoop tailStep
  rcases tokens with ⟨e, run, none⟩ | ⟨last, run, ready', stop, same⟩
  · rw [run, none]
    exact ⟨e, rfl⟩
  · have ended : outputFrom src dlen last =
        if (last.dst.list 0 last.d).length = dlen then some (last.dst.list 0 last.d) else none :=
      Token.decodeFrom_end (Nat.not_lt.mp stop)
    rw [run, ← same, ended]
    simp only [Slice.length_list, ok_bind]
    by_cases full : last.d = dlen
    · subst full
      simp only [ne_eq, not_true, if_false, if_true]
      exact ⟨last.dst, rfl, rfl⟩
    · simp only [ne_eq, full, not_false_eq_true, if_true, if_false]
      exact ⟨_, rfl⟩

theorem ready_initial (src : Slice) (mem : Nat → UInt8) (dlen : Nat) :
    Ready src dlen (initial mem dlen) := ⟨rfl, Nat.zero_le _, Nat.zero_le _, le_rfl⟩

theorem plainDecode_yields (src : Slice) (dlen : Nat) (mem : Nat → UInt8) :
    Yields dlen (plainDecode mem dlen src) (Token.decode src dlen) :=
  tailLoop_yields (ready_initial src mem dlen)

theorem minlzDecode_yields (src : Slice) (dlen : Nat) (mem : Nat → UInt8) :
    Yields dlen (minlzDecode mem dlen src) (Token.decode src dlen) := by
  have start := ready_initial src mem dlen
  unfold minlzDecode fastStep
  by_cases long : src.len ≥ 16
  · have tokens := loop_follows (fun st ready (more : st.s ≤ src.len - 16) =>
      ⟨by omega, fastToken_follows ready (by omega)⟩) start
    simp only [long, if_true]
    rcases tokens with ⟨e, run, none⟩ | ⟨last, run, ready, _, same⟩
    · have none : Token.decode src dlen = .none := none
      rw [run, none]
      exact ⟨e, rfl⟩
    · have same : outputFrom src dlen last = Token.decode src dlen := same
      rw [run, ← same]
      exact tailLoop_yields ready
  · simp only [long, if_false]
    exact tailLoop_yields start

/-- The fast loop and the overshooting moves change nothing: both decoders
    accept the same blocks and write the same bytes, neither makes a bad access,
    and what the destination held before does not matter. -/
theorem minlzDecode_agrees (src : Slice) (dlen : Nat) (mem mem' : Nat → UInt8) :
    (∀ f, minlzDecode mem dlen src ≠ .error (.fault f)) ∧
    ((∃ dst, minlzDecode mem dlen src = .ok dst) ↔ ∃ dst, plainDecode mem' dlen src = .ok dst) ∧
    (∀ dst dst', minlzDecode mem dlen src = .ok dst → plainDecode mem' dlen src = .ok dst' →
      dst.list 0 dlen = dst'.list 0 dlen) ∧
    ((∃ dst, minlzDecode mem dlen src = .ok dst) ↔ ∃ dst, minlzDecode mem' dlen src = .ok dst) ∧
    ∀ dst dst', minlzDecode mem dlen src = .ok dst → minlzDecode mem' dlen src = .ok dst' →
      dst.list 0 dlen = dst'.list 0 dlen := by
  have fast := minlzDecode_yields src dlen mem
  have fast' := minlzDecode_yields src dlen mem'
  have plain := plainDecode_yields src dlen mem'
  cases out : Token.decode src dlen with
  | none =>
      rw [out] at fast fast' plain
      obtain ⟨e, run⟩ := fast
      obtain ⟨e', run'⟩ := fast'
      obtain ⟨e'', run''⟩ := plain
      simp [run, run', run'']
  | some l =>
      rw [out] at fast fast' plain
      obtain ⟨dst, run, same⟩ := fast
      obtain ⟨dst', run', same'⟩ := fast'
      obtain ⟨dst'', run'', same''⟩ := plain
      simp [run, run', run'', same, same', same'']

end MinLz.Block.Decode
