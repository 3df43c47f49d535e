import MinLz.Block.MatchL3
import MinLz.Block.Written
import MinLz.Lib.Effects

/-! # The smallest encoder is correct

Every match that wins a search is one of the source. An emission moves `nextEmit`
forward, and without one `s` moves forward, so a run ends although a cut match
takes `s` back. The limit is checked before the header of the literals and the copy
are stored, so the encoder needs a slice of six bytes more than its source. In a
shorter one it may run over the end; until then what it writes is right.
-/

namespace MinLz.Block.L3

open Loop Effects

/-- The only failure: a store past the end of a slice with less than six bytes to spare. -/
def Overrun (n size : Nat) (e : Stop) : Prop := size < n + 6 ∧ PastEnd e

/-- An emitter writes what it has to, or runs over the end. -/
theorem exits_of_writes {run : Exec (Slice × Nat)} {dst : Slice} {d n size : Nat} {bs : List UInt8}
    {Q : Slice × Nat → Prop} (writes : Writes run dst d bs) (len : dst.len = size)
    (budget : d + bs.length ≤ n + 6) (ok : d + bs.length ≤ size → Returns run Q) :
    Exits run Q (Overrun n size) := by
  by_cases fits : d + bs.length ≤ size
  · exact Exits.of_returns (ok fits)
  · obtain ⟨e, rfl, past⟩ := writes.past (by omega)
    exact exits_error ⟨by omega, past⟩

/-- Ready to search at `s`. -/
structure Ready (src : Slice) (st : State) : Prop where
  longBits : st.long.bits = lTableBits
  shortBits : st.short.bits = sTableBits
  order : st.nextEmit ≤ st.s
  room : st.s + 10 ≤ src.len
  cv : st.cv = src.word 8 st.s
  pos : 1 ≤ st.offset

variable {src : Slice} {st : State}

theorem short_ok {t : Table} (bits : t.bits = sTableBits) (u : Nat) :
    t.get (hash4 u sTableBits) = .ok (t.cells.get (hash4 u sTableBits)) := by
  apply Table.get_ok
  rw [bits]
  exact hash4_lt u (by decide) (by decide)

theorem long_ok {t : Table} (bits : t.bits = lTableBits) (u : Nat) :
    t.get (hash8 u lTableBits) = .ok (t.cells.get (hash8 u lTableBits)) := by
  apply Table.get_ok
  rw [bits]
  exact hash64_lt _ _ u (by decide) (by decide)

section Search

variable {some : Prop} {best : Match} (bound : src.len < 2 ^ 24) (sLimit : Nat) (ready : Ready src st)
include bound ready

theorem lookAhead_ok (weighed : Weighed src st.nextEmit st.offset some best) :
    Returns (lookAhead src sLimit st best) (Weighed src st.nextEmit st.offset some) := by
  have order := ready.order
  have room := ready.room
  rw [lookAhead]
  simp only
  rw [if_pos (by omega), short_ok ready.shortBits, ok_bind, load64_ok (by omega), ok_bind,
    long_ok ready.longBits, ok_bind]
  refine (tryEntry_ok bound sLimit (by omega) (by omega) (word_low _ _) weighed _).bind fun b₁ h₁ => ?_
  refine (tryEntry_ok bound sLimit (by omega) (by omega) (word_low _ _) h₁ _).bind fun b₂ h₂ => ?_
  rw [if_pos (by omega), load64_ok (by omega), ok_bind, long_ok ready.longBits, ok_bind]
  have rest {b₃ : Match} (h₃ : Weighed src st.nextEmit st.offset some b₃) : Returns (do
      let nextShort2 ← st.short.get (hash4 (src.word 8 (st.s + 2)) sTableBits)
      let best ← tryEntry src st.nextEmit sLimit nextShort2 (st.s + 2) (src.word 8 (st.s + 2)) b₃
      tryEntry src st.nextEmit sLimit (st.long.cells.get (hash8 (src.word 8 (st.s + 2)) lTableBits))
        (st.s + 2) (src.word 8 (st.s + 2)) best) (Weighed src st.nextEmit st.offset some) := by
    rw [short_ok ready.shortBits, ok_bind]
    refine (tryEntry_ok bound sLimit (by omega) (by omega) (word_low _ _) h₃ _).bind fun b₄ h₄ => ?_
    exact tryEntry_ok bound sLimit (by omega) (by omega) (word_low _ _) h₄ _
  split_ifs with back
  · exact (tryRepeat_ok bound sLimit (by omega) back.2 (by omega) (word_low _ _) h₂).bind
      fun b₃ h₃ => rest h₃
  · rw [pure_bind]
    exact rest h₂

theorem lookNearEnd_ok (weighed : Weighed src st.nextEmit st.offset True best) :
    Returns (lookNearEnd src sLimit st best) (Weighed src st.nextEmit st.offset True) := by
  have found := weighed.found trivial
  have order := (weighed.genuine found).order
  rw [lookNearEnd, sub_ok (by omega), ok_bind]
  simp only
  split_ifs with worth inside
  · rw [load64_ok inside.1, ok_bind, load64_ok inside.2, ok_bind, long_ok ready.longBits, ok_bind]
    have back {b : Match} (position : Nat) (h : Weighed src st.nextEmit st.offset True b) :=
      tryBack_ok bound sLimit (by omega : st.nextEmit ≤ best.s + 1) inside.1
        (word_low src (best.s + 1)) h position (best.length - 2)
    refine (back _ weighed).bind fun b₁ h₁ => (back _ h₁).bind fun b₂ h₂ => ?_
    rw [short_ok ready.shortBits, ok_bind]
    exact (back _ h₂).bind fun b₃ h₃ => back _ h₃
  · exact returns_ok weighed
  · exact returns_ok weighed

theorem bestAt_ok (candL candS : Nat) : Returns (bestAt src sLimit st candL candS)
    (Weighed src st.nextEmit st.offset False) := by
  have order := ready.order
  have room := ready.room
  have read : st.cv % 2 ^ 32 = src.word 4 st.s := by
    rw [ready.cv]
    exact word_low src st.s
  have read' : (st.cv >>> 8) % 2 ^ 32 = src.word 4 (st.s + 1) := by
    rw [ready.cv]
    exact word_shifted src st.s (k := 1) (by omega)
  have looked {b : Match} (h : Weighed src st.nextEmit st.offset False b) :
      Returns (if b.length > 0 then do
        let best ← lookAhead src sLimit st b
        lookNearEnd src sLimit st best
      else return b) (Weighed src st.nextEmit st.offset False) := by
    split_ifs with some
    · refine (lookAhead_ok bound sLimit ready (h.some_of some)).bind fun b₁ h₁ => ?_
      refine (lookNearEnd_ok bound sLimit ready h₁).mono fun b₂ h₂ => ?_
      exact ⟨h₂.genuine, False.elim⟩
    · exact returns_ok h
  have repeated {b : Match} (h : Weighed src st.nextEmit st.offset False b)
      {k : Match → Exec Match} (after : ∀ {b}, Weighed src st.nextEmit st.offset False b →
        Returns (k b) (Weighed src st.nextEmit st.offset False)) :
      Returns (if st.offset > 0 ∧ st.s ≥ st.offset then do
        let best ← tryRepeat src st.nextEmit sLimit st.offset st.s st.cv b
        if st.s + 1 ≥ st.offset ∧ st.s < sLimit then do
          let best ← tryRepeat src st.nextEmit sLimit st.offset (st.s + 1) (st.cv >>> 8) best
          k best
        else k best
      else k b) (Weighed src st.nextEmit st.offset False) := by
    split
    · next back =>
        refine (tryRepeat_ok bound sLimit order back.2 (by omega) read h).bind fun b₁ h₁ => ?_
        split
        · next ahead =>
            exact (tryRepeat_ok bound sLimit (by omega) ahead.1 (by omega) read' h₁).bind
              fun b₂ h₂ => after h₂
        · exact after h₁
    · exact after h
  rw [bestAt]
  simp only [pure_bind]
  split
  · refine (tryEntry_ok bound sLimit order (by omega) read
      (weighed_none (r := st.offset)) _).bind fun b₁ h₁ => ?_
    exact (tryEntry_ok bound sLimit order (by omega) read h₁ _).bind fun b₂ h₂ => repeated h₂ looked
  · exact repeated weighed_none looked

end Search

/-- A state that differs from `st` in its tables, and is further on. -/
structure Onward (st st' : State) : Prop where
  nextEmit : st'.nextEmit = st.nextEmit
  offset : st'.offset = st.offset
  since : st.s ≤ st'.s

theorem Onward.refl (st : State) : Onward st st := ⟨rfl, rfl, le_rfl⟩

/-- The outcome of a search that began in `st`. -/
def SearchOk (src : Slice) (st : State) : State × Option Match → Prop
  | (st', none) => Onward st st'
  | (st', .some best) => Onward st st' ∧ Ready src st' ∧
      Genuine src st.nextEmit st.offset best ∧ best.length ≠ 0

theorem enter_ok {tableL tableS : Table} (longBits : tableL.bits = lTableBits)
    (shortBits : tableS.bits = sTableBits) (u v v' : Nat) : ∃ long short : Table,
    tableL.set (hash8 u lTableBits) v = .ok long ∧ tableS.set (hash4 u sTableBits) v' = .ok short ∧
    long.bits = lTableBits ∧ short.bits = sTableBits := by
  have trivially (t : Table) : t.All fun _ => True := fun _ _ => trivial
  obtain ⟨long, setL, bitsL, _⟩ := Table.set_ok (trivially tableL) (h := hash8 u lTableBits)
    (v := v) (by
      rw [longBits]
      exact hash64_lt _ _ _ (by decide) (by decide)) trivial
  obtain ⟨short, setS, bitsS, _⟩ := Table.set_ok (trivially tableS) (h := hash4 u sTableBits)
    (v := v') (by
      rw [shortBits]
      exact hash4_lt _ (by decide) (by decide)) trivial
  exact ⟨long, short, setL, setS, bitsL.trans longBits, bitsS.trans shortBits⟩

theorem searchStep_ok (bound : src.len < 2 ^ 24) {sLimit : Nat} (hs : sLimit = src.len - 10)
    {st₀ : State} (onward : Onward st₀ st) (ready : Ready src st) :
    Returns (searchStep src sLimit st) (Pass (fun st' => Onward st₀ st' ∧ Ready src st')
      (fun st' => src.len - st'.s) (SearchOk src st₀) st) := by
  have room := ready.room
  have order := ready.order
  have since := onward.since
  rw [searchStep, sub_ok order, ok_bind]
  simp only
  generalize hn : (if (st.s - st.nextEmit) >>> 8 + 1 > maxSkip then st.s + maxSkip
    else st.s + (st.s - st.nextEmit) >>> 8 + 1) = nextS
  have further : st.s < nextS := by
    rw [← hn, maxSkip]
    split_ifs <;> omega
  split_ifs with ends
  · exact returns_ok onward
  · rw [long_ok ready.longBits, ok_bind, short_ok ready.shortBits, ok_bind]
    refine (bestAt_ok bound sLimit ready _ _).bind fun best weighed => ?_
    obtain ⟨long, short, setL, setS, bitsL, bitsS⟩ := enter_ok ready.longBits ready.shortBits st.cv
      (packEntry st.s (st.long.cells.get (hash8 st.cv lTableBits)))
      (packEntry st.s (st.short.cells.get (hash4 st.cv sTableBits)))
    rw [setL, ok_bind, setS, ok_bind]
    split_ifs with some
    · have found : best.length ≠ 0 := Nat.ne_of_gt some
      have genuine := weighed.genuine found
      rw [onward.nextEmit, onward.offset] at genuine
      exact returns_ok ⟨⟨onward.nextEmit, onward.offset, since⟩,
        ⟨bitsL, bitsS, order, room, ready.cv, ready.pos⟩, genuine, found⟩
    · rw [load64_ok (by omega)]
      refine returns_ok ⟨⟨⟨onward.nextEmit, onward.offset, by simp only; omega⟩,
        bitsL, bitsS, by simp only; omega, by simp only; omega, rfl, ready.pos⟩,
        by simp only; omega⟩

/-- What a turn of the outer loop comes to. -/
def TurnOk (src : Slice) (st : State) (d : Nat) : Turn → Prop
  | .exhausted st' => Onward st st'
  | .overLimit => True
  | .pass st' => Onward st st' ∧ Ready src st' ∧ st.s < st'.s
  | .emit st' best lits offset => Onward st st' ∧ Ready src st' ∧
      Genuine src st.nextEmit st.offset best ∧ best.length ≠ 0 ∧
      lits = src.list st.nextEmit (best.s - st.nextEmit) ∧ offset = best.s - best.offset ∧
      d + (best.s - st.nextEmit) ≤ src.len - 5

theorem turn_ok (bound : src.len < 2 ^ 24) {sLimit dstLimit : Nat} (hs : sLimit = src.len - 10)
    (hd : dstLimit = src.len - 5) (ready : Ready src st) (d : Nat) :
    Returns (turn src sLimit dstLimit st d) (TurnOk src st d) := by
  rw [turn]
  refine (returns_run _ _ (fun s h => searchStep_ok bound hs h.1 h.2)
    ⟨Onward.refl st, ready⟩ (by omega)).bind ?_
  rintro ⟨st', _ | best⟩ result
  · exact returns_ok result
  · obtain ⟨onward, ready', genuine, found⟩ := result
    have order := genuine.order
    have earlier := genuine.earlier
    have inside := genuine.inside
    have since := onward.since
    have same : st'.nextEmit = st.nextEmit := onward.nextEmit
    simp only
    rw [sub_ok (by omega), ok_bind]
    split
    · exact returns_ok trivial
    · next checked =>
        rw [range_ok (by omega) (by omega), ok_bind, sub_ok earlier.le, ok_bind]
        split
        · split
          · exact returns_ok ⟨onward.nextEmit, onward.offset, by simp only; omega⟩
          · next more =>
              have order' := ready'.order
              rw [load64_ok (by omega)]
              exact returns_ok ⟨⟨onward.nextEmit, onward.offset, by simp only; omega⟩,
                ⟨ready'.longBits, ready'.shortBits, by simp only; omega, by simp only; omega, rfl,
                  ready'.pos⟩, by simp only; omega⟩
        · exact returns_ok ⟨onward, ready', genuine, found, by rw [same], rfl, by omega⟩

def copyOr2Bytes (offset length : Nat) : List UInt8 :=
  if length > 18 ∧ length ≤ 64 ∧ offset ≥ 64 ∧ offset ≤ maxCopy2Offset then copy2Bytes offset length
  else copyBytes offset length

/-- The encoding of a match and of the literals before it. -/
def bestBytes (best : Match) (lits : List UInt8) (offset : Nat) : List UInt8 :=
  if best.isRep then literalBytes lits ++ repeatBytes best.length
  else if lits = [] then copyOr2Bytes offset best.length
  else if offset ≤ maxCopy2Offset then
    if mustSplit lits.length offset best.length then
      literalBytes lits ++ copyOr2Bytes offset best.length
    else copyLits2Bytes lits offset (min best.length 11)
  else if lits.length > maxCopy3Lits then literalBytes lits ++ copyBytes offset best.length
  else copyLits3Bytes lits offset best.length

theorem emitCopyOr2_writes (dst : Slice) (d : Nat) {offset length : Nat} (pos : 1 ≤ offset)
    (long : 4 ≤ length) :
    Writes (emitCopyOr2 dst d offset length) dst d (copyOr2Bytes offset length) := by
  rw [emitCopyOr2, copyOr2Bytes]
  split
  · next middle =>
      have far : minCopy2Offset ≤ offset := by
        rw [minCopy2Offset_eq]
        exact middle.2.2.1
      exact (encodeCopy2_writes dst d far long).sliced
  · exact emitCopy_writes dst d pos long

theorem length_copyOr2Bytes_le (offset : Nat) {length : Nat} (long : 4 ≤ length) :
    (copyOr2Bytes offset length).length ≤ 7 := by
  rw [copyOr2Bytes]
  split
  · next middle =>
      rw [length_copy2Bytes, copyExtra, if_pos middle.2.1]
      omega
  · exact (length_copyBytes_le offset length long).1

theorem means_copyOr2 (r : Nat) {offset length : Nat} (pos : 1 ≤ offset)
    (near : offset ≤ maxCopy3Offset) (long : 4 ≤ length) (short : length < 2 ^ 24) :
    Means (copyOr2Bytes offset length) [] r offset length := by
  rw [copyOr2Bytes, maxCopy2Offset_eq]
  split
  · next middle => exact means_copy2 r long middle.2.2.1 middle.2.2.2 short
  · exact means_emitCopy r long pos near short

section Best

variable {best : Match} {e r : Nat} (genuine : Genuine src e r best) (found : best.length ≠ 0)
  (lits : List UInt8)
include genuine found

/-- A match is emitted as its encoding, wherever that goes. -/
theorem emitBest_writes (dst : Slice) (d : Nat) (short : lits.length < 2 ^ 24) :
    Writes (emitBest dst d best lits (best.s - best.offset)) dst d
      (bestBytes best lits (best.s - best.offset)) := by
  have earlier := genuine.earlier
  have pos : 1 ≤ best.s - best.offset := by omega
  have literal : Writes (emitLiteral dst d lits) dst d (literalBytes lits) :=
    emitLiteral_writes dst d (by omega)
  rw [emitBest, bestBytes]
  cases rep : best.isRep with
  | true =>
      simp only [if_true]
      exact literal.append (f := fun r => emitRepeat r.1 r.2 best.length)
        (emitRepeat_writes _ _ (by omega))
  | false =>
      have long := (genuine.copy rep).1
      generalize best.s - best.offset = off at *
      simp only [Bool.false_eq_true, if_false]
      split
      · exact emitCopyOr2_writes dst d pos long
      · next some =>
          have one : 1 ≤ lits.length := List.length_pos_iff.mpr some
          split
          · next close =>
              split
              · exact literal.append (f := fun r => emitCopyOr2 r.1 r.2 off best.length)
                  (emitCopyOr2_writes _ _ pos long)
              · next fused =>
                  have fused := of_decide_eq_false (Bool.eq_false_of_not_eq_true fused)
                  rw [not_or, not_or, maxCopy2Lits] at fused
                  have far : minCopy2Offset ≤ off := by
                    rw [minCopy2Offset_eq]
                    exact Nat.not_lt.mp fused.2.1
                  exact emitCopyLits2_writes dst d far (by omega) one (Nat.not_lt.mp fused.1)
          · next distant =>
              rw [maxCopy2Offset_eq] at distant
              have far : minCopy3Offset ≤ off := by
                rw [minCopy3Offset_eq]
                omega
              split
              · exact literal.append (f := fun r => emitCopy r.1 r.2 off best.length)
                  (emitCopy_writes _ _ pos long)
              · next few => exact emitCopyLits3_writes dst d far long (Nat.not_lt.mp few)

/-- What is emitted is the literals and as much of the match as is taken. -/
theorem means_best (short : lits.length + best.length < 2 ^ 24) :
    Means (bestBytes best lits (best.s - best.offset)) lits r (best.s - best.offset)
      (takenLength best lits.length (best.s - best.offset)) := by
  have earlier := genuine.earlier
  have pos : 1 ≤ best.s - best.offset := by omega
  rw [bestBytes, takenLength]
  cases rep : best.isRep with
  | true =>
      rw [genuine.again rep]
      simp only [if_true, Bool.not_true, Bool.false_eq_true, false_and, if_false]
      exact (means_repeat r (by omega) (by omega)).after (by omega)
  | false =>
      obtain ⟨long, near⟩ := genuine.copy rep
      generalize best.s - best.offset = off at *
      have copy : Means (copyOr2Bytes off best.length) [] r off best.length :=
        means_copyOr2 r pos near long (by omega)
      have empty : lits = [] ↔ lits.length = 0 := List.length_eq_zero_iff.symm
      simp only [Bool.false_eq_true, if_false, Bool.not_false, true_and]
      by_cases none : lits = []
      · rw [if_pos none, if_neg fun h => h.1 (empty.mp none), none]
        exact copy
      · rw [if_neg none]
        by_cases close : off ≤ maxCopy2Offset
        · rw [if_pos close]
          cases apart : mustSplit lits.length off best.length with
          | true =>
              rw [if_pos rfl, if_neg (by simp)]
              exact copy.after (by omega)
          | false =>
              have fused := of_decide_eq_false apart
              rw [not_or, not_or, maxCopy2Lits] at fused
              rw [maxCopy2Offset_eq] at close
              rw [if_neg Bool.false_ne_true, if_pos ⟨fun h => none (empty.mpr h), by
                rw [maxCopy2Offset_eq]; exact close, by simp⟩]
              exact means_emitCopyLits2 r (by omega) (List.length_pos_iff.mpr none)
                (Nat.not_lt.mp fused.1) (Nat.not_lt.mp fused.2.1) close (by omega)
        · have whole : ¬(lits.length ≠ 0 ∧ off ≤ maxCopy2Offset ∧
              (!mustSplit lits.length off best.length) = true) := fun h => close h.2.1
          rw [if_neg close, if_neg whole]
          rw [maxCopy2Offset_eq] at close
          by_cases many : lits.length > maxCopy3Lits
          · rw [if_pos many]
            exact (means_emitCopy r long pos near (by omega)).after (by omega)
          · rw [if_neg many]
            exact means_copyLits3 r long (Nat.not_lt.mp many) (by omega) near (by omega)

omit found in
theorem length_bestBytes_le :
    (bestBytes best lits (best.s - best.offset)).length ≤ lits.length + 11 := by
  have litSize := (length_literalBytes_le lits).1
  have repSize := (length_repeatBytes_le best.length).1
  rw [bestBytes]
  cases rep : best.isRep with
  | true =>
      simp only [if_true, List.length_append]
      omega
  | false =>
      have long := (genuine.copy rep).1
      generalize best.s - best.offset = off at *
      have copySize := (length_copyBytes_le off best.length long).1
      have copy2Size := length_copyOr2Bytes_le off long
      have lits2Size := (length_copyLits2Bytes_le lits off
        (show 4 ≤ min best.length 11 by omega)).1
      have lits3Size := length_copyLits3Bytes_le lits off best.length
      simp only [Bool.false_eq_true, if_false]
      split_ifs <;> (try rw [List.length_append]) <;> omega

end Best

/-- A match is emitted as far as it is taken, after the literals before it. -/
theorem emitBest_ok {best : Match} {dst : Slice} {size d e r k : Nat} (bound : src.len < 2 ^ 24)
    (long : 16 ≤ src.len) (w : Written src size dst d e r) (genuine : Genuine src e r best)
    (found : best.length ≠ 0) (meet : best.s = e + k) (checked : d + k ≤ src.len - 5) :
    Exits (emitBest dst d best (src.list e k) (best.s - best.offset)) (fun (dst', d') =>
      Written src size dst' d' (best.s + takenLength best k (best.s - best.offset))
        (best.s - best.offset)) (Overrun src.len size) := by
  have earlier := genuine.earlier
  have inside := genuine.inside
  have same := genuine.same
  have back : best.s - best.offset ≤ best.s := Nat.sub_le _ _
  have pos : 1 ≤ best.s - best.offset := by omega
  have taken : takenLength best k (best.s - best.offset) ≤ best.length := by
    rw [takenLength]
    split_ifs <;> omega
  have total := length_bestBytes_le genuine (src.list e k)
  have writes := emitBest_writes genuine found (src.list e k) dst d
    (by rw [Slice.length_list]; omega)
  have means := means_best genuine found (src.list e k)
    (by rw [Slice.length_list]; omega)
  rw [Slice.length_list] at total means
  rw [show best.offset = best.s - (best.s - best.offset) by omega] at same
  generalize best.s - best.offset = off at *
  rw [meet] at *
  have advances := means.advances (by omega) back (same.head taken) (by omega)
  exact exits_of_writes writes w.len (by omega) fun fits =>
    (w.emit writes advances fits (by omega) (by omega)).mono fun _ h => h.1

theorem fillTables_ok (st : State) (longBits : st.long.bits = lTableBits)
    (shortBits : st.short.bits = sTableBits)
    (room : st.s + 8 ≤ src.len) (i : Nat) : Returns (fillTables src st i) (fun st' =>
      st'.long.bits = lTableBits ∧ st'.short.bits = sTableBits ∧
        ∃ long short, st' = { st with long, short }) := by
  unfold fillTables loop
  apply returns_run (fun (r : State × Nat) => r.1.long.bits = lTableBits ∧
      r.1.short.bits = sTableBits ∧ ∃ long short, r.1 = { st with long, short })
    (fun r => st.s - r.2) _ ⟨longBits, shortBits, _, _, rfl⟩ (by simp only; omega)
  rintro ⟨st', i⟩ ⟨longBits', shortBits', long, short, rfl⟩
  simp only at longBits' shortBits' ⊢
  split
  · next more =>
      obtain ⟨long', short', setL, setS, bitsL, bitsS⟩ := enter_ok
        longBits' shortBits' (src.word 8 i)
        (packEntry i (long.cells.get (hash8 (src.word 8 i) lTableBits)))
        (packEntry i (short.cells.get (hash4 (src.word 8 i) sTableBits)))
      rw [load64_ok (by omega), ok_bind, long_ok longBits', ok_bind, setL, ok_bind,
        short_ok shortBits', ok_bind, setS]
      exact returns_ok ⟨⟨bitsL, bitsS, long', short', rfl⟩, by simp only; omega⟩
  · exact returns_ok ⟨longBits', shortBits', long, short, rfl⟩

theorem resume_ok (ready : Ready src st) {s offset : Nat} (room : s + 10 ≤ src.len)
    (pos : 1 ≤ offset) : Returns (resume src st s offset) (fun st' => Ready src st' ∧
      st'.nextEmit = s ∧ st'.offset = offset) := by
  rw [resume]
  refine (fillTables_ok { st with s, nextEmit := s, offset } ready.longBits ready.shortBits
    (by simp only; omega) (st.s + 1)).bind ?_
  rintro _ ⟨bitsL, bitsS, long, short, rfl⟩
  simp only
  rw [load64_ok (by omega)]
  exact returns_ok ⟨⟨bitsL, bitsS, le_rfl, room, rfl, pos⟩, rfl, rfl⟩

/-- What is left of a block: first of what is emitted, then of what is searched. -/
def left (n nextEmit s : Nat) : Nat := (n - nextEmit) * (n + 1) + (n - s)

/-- An emission makes up for any step back. -/
theorem left_lt {n e e' : Nat} (s s' : Nat) (forward : e < e') (inside : e' ≤ n) :
    left n e' s' < left n e s := by
  have one : n - e' + 1 ≤ n - e := by omega
  have scaled := Nat.mul_le_mul_right (n + 1) one
  rw [Nat.add_mul, Nat.one_mul] at scaled
  rw [left, left]
  omega

/-- The state in which a run begins. -/
def first (src : Slice) : State :=
  ⟨Table.zeros lTableBits, Table.zeros sTableBits, 1, src.word 8 1, 0, 1⟩

theorem ready_first (long : 16 ≤ src.len) : Ready src (first src) :=
  ⟨rfl, rfl, Nat.zero_le _, show 1 + 10 ≤ src.len by omega, rfl, le_rfl⟩

/-- What follows the loop: the literals after the last match. -/
def conclude (src : Slice) : Exit (State × Slice × Nat) → Exec (Slice × Nat)
  | .giveUp dst => .ok (dst, 0)
  | .finish (st, dst, d) =>
      if st.nextEmit < src.len then
        if d + (src.len - st.nextEmit) + emitLiteralSizeN (src.len - st.nextEmit) > src.len - 5 then
          .ok (dst, 0)
        else range src st.nextEmit src.len >>= emitLiteral dst d
      else .ok (dst, d)

theorem inner_eq (dst : Slice) (long : 16 ≤ src.len) : inner dst src =
    run (.fault .unfinished) (outerStep src (src.len - 10) (src.len - 5))
      ((src.len + 1) * (src.len + 1))
      (first src, dst, 0) >>=
      conclude src := by
  rw [inner, sub_ok (by rw [inputMarginL3]; omega), ok_bind, sub_ok (by omega), ok_bind, start,
    load64_ok (by omega)]
  simp only [ok_bind, pure_ok]
  rw [loop]
  rfl

section Run

variable {size : Nat} (bound : src.len < 2 ^ 24) (long : 16 ≤ src.len)

/-- Ready to search, with all before `nextEmit` written. -/
def Turning (src : Slice) (size : Nat) (r : State × Slice × Nat) : Prop :=
  Ready src r.1 ∧ Written src size r.2.1 r.2.2 r.1.nextEmit r.1.offset

def ExitOk (src : Slice) (size : Nat) : Exit (State × Slice × Nat) → Prop
  | .finish (st, dst, d) => Written src size dst d st.nextEmit st.offset
  | .giveUp dst => dst.len = size

include bound long

theorem outerStep_ok {sLimit dstLimit : Nat} (hs : sLimit = src.len - 10)
    (hd : dstLimit = src.len - 5) {r : State × Slice × Nat} (turning : Turning src size r) :
    Exits (outerStep src sLimit dstLimit r) (Pass (Turning src size)
      (fun r => left src.len r.1.nextEmit r.1.s) (ExitOk src size) r) (Overrun src.len size) := by
  obtain ⟨st, dst, d⟩ := r
  obtain ⟨ready, w⟩ := turning
  simp only at ready w
  rw [outerStep]
  refine (Exits.of_returns (turn_ok bound hs hd ready d)).bind ?_
  rintro (st' | _ | st' | ⟨st', best, lits, offset⟩) result
  · have onward : Onward st st' := result
    refine exits_ok (show Written src size dst d st'.nextEmit st'.offset from ?_)
    rw [onward.nextEmit, onward.offset]
    exact w
  · exact exits_ok w.len
  · obtain ⟨onward, ready', further⟩ := result
    have room := ready'.room
    refine exits_ok ⟨⟨ready', ?_⟩, ?_⟩
    · simp only
      rw [onward.nextEmit, onward.offset]
      exact w
    · simp only
      rw [left, left, onward.nextEmit]
      omega
  · obtain ⟨onward, ready', genuine, found, rfl, rfl, checked⟩ := result
    have order := genuine.order
    have inside := genuine.inside
    have earlier := genuine.earlier
    have meet : best.s = st.nextEmit + (best.s - st.nextEmit) := by omega
    simp only [Slice.length_list]
    refine (emitBest_ok bound long w genuine found meet checked).bind ?_
    rintro ⟨dst', d'⟩ w'
    have forward : st.nextEmit < best.s +
        takenLength best (best.s - st.nextEmit) (best.s - best.offset) := by
      have taken : 0 < takenLength best (best.s - st.nextEmit) (best.s - best.offset) := by
        rw [takenLength]
        split_ifs <;> omega
      omega
    simp only
    split
    · exact exits_ok w'
    · next more =>
        split
        · exact exits_ok w'.len
        · refine (Exits.of_returns (resume_ok ready' (by omega) (by omega))).bind ?_
          rintro st'' ⟨ready'', next, last⟩
          refine exits_ok ⟨⟨ready'', by simp only; rw [next, last]; exact w'⟩, ?_⟩
          simp only
          rw [next]
          exact left_lt _ _ forward w'.inside

/-- A run stops with a block of `src`, or with none. -/
theorem inner_ok {dst : Slice} (len : dst.len = size) :
    Exits (inner dst src) (fun (dst, n) => dst.len = size ∧ (n = 0 ∨ n ≤ size ∧
      Token.decode (Slice.ofList (dst.list 0 n)) src.len = some src.toList))
      (Overrun src.len size) := by
  rw [inner_eq dst long]
  have turning : Turning src size (first src, dst, 0) :=
    ⟨ready_first long, ⟨len, emitted_start src dst, Nat.zero_le _, Nat.zero_le _, le_rfl⟩⟩
  have enough : left src.len 0 1 < (src.len + 1) * (src.len + 1) := by
    rw [left, Nat.sub_zero, Nat.add_mul src.len 1]
    omega
  refine (exits_run _ _ (fun _ => outerStep_ok bound long rfl rfl) turning enough).bind ?_
  rintro (⟨st, dst', d⟩ | dst') result
  · have w : Written src size dst' d st.nextEmit st.offset := result
    rw [conclude]
    split
    · next rest =>
        split
        · exact exits_ok ⟨w.len, .inl rfl⟩
        · next fits =>
            have litSize := length_literalBytes_le (src.list st.nextEmit (src.len - st.nextEmit))
            rw [Slice.length_list] at litSize
            rw [range_ok w.inside le_rfl, ok_bind]
            refine exits_of_writes (emitLiteral_writes dst' d (by rw [Slice.length_list]; omega)) w.len
              (by omega) fun fits => (w.literal bound w.inside le_rfl fits).mono ?_
            rintro ⟨dst'', d'⟩ ⟨w', _⟩
            exact ⟨w'.len, .inr ⟨w'.fits, w'.emitted.decode⟩⟩
    · have all : st.nextEmit = src.len := by
        have := w.inside
        omega
      rw [all] at w
      exact exits_ok ⟨w.len, .inr ⟨w.fits, w.emitted.decode⟩⟩
  · exact exits_ok ⟨result, .inl rfl⟩

end Run

theorem encodeBlock_ok {src dst : Slice} (bound : src.len ≤ maxBlockSize) :
    Exits (encodeBlock dst src) (fun (dst', n) => dst'.len = dst.len ∧ (n = 0 ∨ n ≤ dst.len ∧
      Token.decode (Slice.ofList (dst'.list 0 n)) src.len = some src.toList))
      (Overrun src.len dst.len) := by
  rw [encodeBlock]
  split
  · exact exits_ok ⟨rfl, .inl rfl⟩
  · next long => exact inner_ok (Nat.lt_of_le_of_lt bound (by decide)) (Nat.not_lt.mp long) rfl

end MinLz.Block.L3
