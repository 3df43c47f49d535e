import MinLz.Block.DecodeFormat
import MinLz.Block.Emitted

/-! # The token law

Whatever an emitter is asked for, its bytes make the decoder do exactly that:
append the literals, then the copy. The law is stated of the decoder's own loops,
from any of their states; how the emitters split a long copy into two tokens does
not show in it.
-/

namespace MinLz.Block

/-- What the emitters can be asked for. -/
inductive Request where
  | literal (lit : List UInt8)
  | copyRepeat (length : Nat)
  | copy (offset length : Nat)
  | copy2 (offset length : Nat)
  | copy3 (offset length : Nat)
  | copyLits2 (lits : List UInt8) (offset length : Nat)
  | copyLits3 (lits : List UInt8) (offset length : Nat)

namespace Request

def emit (dst : Slice) (d : Nat) : Request → Exec (Slice × Nat)
  | literal lit => emitLiteral dst d lit
  | copyRepeat length => emitRepeat dst d length
  | copy offset length => emitCopy dst d offset length
  | copy2 offset length => encodeCopy2 dst d offset length
  | copy3 offset length => encodeCopy3 dst d offset length 0
  | copyLits2 lits offset length => emitCopyLits2 dst d lits offset length
  | copyLits3 lits offset length => emitCopyLits3 dst d lits offset length

/-- The ranges the emitters are documented for. -/
def InRange : Request → Prop
  | literal lit => 1 ≤ lit.length ∧ lit.length ≤ 2 ^ 24 - 1 + 30
  | copyRepeat length => 1 ≤ length ∧ length ≤ maxBlockSize
  | copy offset length =>
    1 ≤ offset ∧ offset ≤ maxCopy3Offset ∧ 4 ≤ length ∧ length ≤ maxBlockSize
  | copy2 offset length =>
    minCopy2Offset ≤ offset ∧ offset ≤ maxCopy2Offset ∧ 4 ≤ length ∧ length ≤ maxBlockSize
  | copy3 offset length =>
    minCopy3Offset ≤ offset ∧ offset ≤ maxCopy3Offset ∧ 4 ≤ length ∧ length ≤ maxBlockSize
  | copyLits2 lits offset length =>
    (1 ≤ lits.length ∧ lits.length ≤ maxCopy2Lits) ∧
      minCopy2Offset ≤ offset ∧ offset ≤ maxCopy2Offset ∧ 4 ≤ length ∧ length ≤ maxBlockSize
  | copyLits3 lits offset length =>
    (1 ≤ lits.length ∧ lits.length ≤ maxCopy3Lits) ∧
      minCopy3Offset ≤ offset ∧ offset ≤ maxCopy3Offset ∧ 4 ≤ length ∧ length ≤ maxBlockSize

def lits : Request → List UInt8
  | literal lit => lit
  | copyLits2 lits _ _ => lits
  | copyLits3 lits _ _ => lits
  | copyRepeat _ | copy _ _ | copy2 _ _ | copy3 _ _ => []

/-- How many bytes are copied; none after plain literals. -/
def length : Request → Nat
  | literal _ => 0
  | copyRepeat length => length
  | copy _ length | copy2 _ length | copy3 _ length => length
  | copyLits2 _ _ length | copyLits3 _ _ length => length

/-- The last offset afterwards, when it was `r` before. -/
def offset (r : Nat) : Request → Nat
  | literal _ => r
  | copyRepeat _ => r
  | copy offset _ | copy2 offset _ | copy3 offset _ => offset
  | copyLits2 _ offset _ | copyLits3 _ offset _ => offset

def bytes : Request → List UInt8
  | literal lit => literalBytes lit
  | copyRepeat length => repeatBytes length
  | copy offset length => copyBytes offset length
  | copy2 offset length => copy2Bytes offset length
  | copy3 offset length => copy3Bytes offset length 0
  | copyLits2 lits offset length => copyLits2Bytes lits offset length
  | copyLits3 lits offset length => copyLits3Bytes lits offset length

theorem short_of_block {n : Nat} (bound : n ≤ maxBlockSize) : n < 2 ^ 24 :=
  Nat.lt_of_le_of_lt bound (by decide)

theorem emit_writes {q : Request} (ok : q.InRange) (dst : Slice) (d : Nat) :
    Writes (q.emit dst d) dst d q.bytes := by
  cases q with
  | literal lit => exact emitLiteral_writes dst d (by have := ok.2; omega)
  | copyRepeat length => exact emitRepeat_writes dst d ok.1
  | copy offset length =>
      obtain ⟨pos, _, long, _⟩ := ok
      exact emitCopy_writes dst d pos long
  | copy2 offset length =>
      obtain ⟨far, _, long, _⟩ := ok
      exact encodeCopy2_writes dst d far long
  | copy3 offset length =>
      obtain ⟨far, _, long, _⟩ := ok
      exact encodeCopy3_writes dst d far long (Nat.zero_le _)
  | copyLits2 lits offset length =>
      obtain ⟨⟨one, few⟩, far, _, long, _⟩ := ok
      exact emitCopyLits2_writes dst d far long one few
  | copyLits3 lits offset length =>
      obtain ⟨⟨_, few⟩, far, _, long, _⟩ := ok
      exact emitCopyLits3_writes dst d far long few

theorem bytes_mean {q : Request} (ok : q.InRange) (r : Nat) :
    Means q.bytes q.lits r (q.offset r) q.length := by
  cases q with
  | literal lit => exact means_literal r (by have := ok.2; omega)
  | copyRepeat length => exact means_repeat r ok.1 (short_of_block ok.2)
  | copy offset length =>
      obtain ⟨pos, near, long, bound⟩ := ok
      exact means_emitCopy r long pos near (short_of_block bound)
  | copy2 offset length =>
      obtain ⟨far, near, long, bound⟩ := ok
      exact means_copy2 r long far near (short_of_block bound)
  | copy3 offset length =>
      obtain ⟨far, near, long, bound⟩ := ok
      exact means_copy3 r long far near (short_of_block bound)
  | copyLits2 lits offset length =>
      obtain ⟨⟨one, few⟩, far, near, long, bound⟩ := ok
      exact means_emitCopyLits2 r long one few far near (short_of_block bound)
  | copyLits3 lits offset length =>
      obtain ⟨⟨_, few⟩, far, near, long, bound⟩ := ok
      exact means_copyLits3 r long few far near (short_of_block bound)

theorem offset_pos {q : Request} (ok : q.InRange) {r : Nat} (pos : 1 ≤ r) : 1 ≤ q.offset r := by
  cases q with
  | literal | copyRepeat => exact pos
  | copy => exact ok.1
  | copy2 => exact Nat.le_trans (by decide) ok.1
  | copy3 => exact Nat.le_trans (by decide) ok.1
  | copyLits2 => exact Nat.le_trans (by decide) ok.2.1
  | copyLits3 => exact Nat.le_trans (by decide) ok.2.1

end Request

namespace Decode

/-- The two loops of the decoder, from any of its states. -/
def loops (src : Slice) (dlen : Nat) (st : State) : Exec State := do
  let st ← if src.len ≥ 16 then loop (fastStep src dlen) (src.len + 1) st else pure st
  loop (tailStep src dlen) (src.len + 1) st

section Steps

variable {src : Slice} {dlen : Nat} {st : State} {t : Token.State}

/-- A loop goes where the steps of the format go, when these take the whole block. -/
theorem loop_steps {token : State → Exec State} {more : State → Prop} [DecidablePred more]
    (follows : ∀ st, Ready src dlen st → more st →
      st.s < src.len ∧ Follows src dlen (token st) (Token.step src dlen st.view))
    (ready : Ready src dlen st) (steps : Token.Steps src dlen st.view t) (whole : t.s = src.len) :
    ∃ last, loop (fun st => do if more st then return .next (← token st) else return .done st)
      (src.len + 1) st = .ok last ∧ Ready src dlen last ∧ ¬ more last ∧
      Token.Steps src dlen last.view t := by
  apply Loop.run_rule (fun st => Ready src dlen st ∧ Token.Steps src dlen st.view t)
    (fun st => src.len - st.s)
    (fun (r : Exec State) => ∃ last, r = .ok last ∧ Ready src dlen last ∧ ¬ more last ∧
      Token.Steps src dlen last.view t)
  · rintro st ⟨ready, steps⟩
    by_cases go : more st
    · obtain ⟨inside, runs⟩ := follows st ready go
      obtain rfl | ⟨next, step, rest⟩ := Relation.ReflTransGen.cases_head steps
      · exact absurd whole (Nat.ne_of_lt inside)
      · rw [step] at runs
        obtain ⟨st', run, rfl, ready'⟩ := runs
        have forward : st.s < st'.s := (Token.step_bounds step).1
        simp only [go, if_true, run]
        exact ⟨⟨ready', rest⟩, Nat.sub_lt_sub_left inside forward⟩
    · simp only [go, if_false]
      exact ⟨st, rfl, ready, go, steps⟩
  · exact ⟨ready, steps⟩
  · omega

/-- A run that ends in a state seen as `t`. -/
def Reaches (r : Exec State) (t : Token.State) : Prop := ∃ st, r = .ok st ∧ st.view = t

variable (ready : Ready src dlen st) (steps : Token.Steps src dlen st.view t)
  (whole : t.s = src.len)
include ready steps whole

theorem tail_reaches : Reaches (loop (tailStep src dlen) (src.len + 1) st) t := by
  obtain ⟨last, run, _, stop, rest⟩ :=
    loop_steps (fun _ ready more => ⟨more, tailToken_follows ready more⟩) ready steps whole
  refine ⟨last, run, ?_⟩
  obtain same | ⟨next, step, _⟩ := Relation.ReflTransGen.cases_head rest
  · exact same
  · obtain ⟨forward, inside⟩ := Token.step_bounds step
    exact absurd (Nat.lt_of_lt_of_le forward inside) stop

theorem loops_reach : Reaches (loops src dlen st) t := by
  unfold loops
  by_cases long : src.len ≥ 16
  · obtain ⟨last, run, ready', _, rest⟩ :=
      loop_steps (fun st ready (more : st.s ≤ src.len - 16) =>
        ⟨by omega, fastToken_follows ready (by omega)⟩) ready steps whole
    simp only [long, if_true]
    unfold fastStep
    rw [run]
    exact tail_reaches ready' rest whole
  · simp only [long, if_false]
    exact tail_reaches ready steps whole

end Steps

end Decode

open Decode in
/-- The token law: an emitter stores as many bytes as it says, and a decoder that
    has just these before it appends the literals and the copy, takes all of
    them, and keeps the offset of the copy; with its fast loop or without. -/
theorem token_law {q : Request} (ok : q.InRange) : ∃ bs,
    (∀ dst d, Writes (q.emit dst d) dst d bs) ∧
    ∀ {src : Slice} {dlen : Nat} {st : State}, Ready src dlen st → src.Holds st.s bs →
      src.len = st.s + bs.length →
      (0 < q.length → q.offset st.offset ≤ st.d + q.lits.length) →
      st.d + q.lits.length + q.length ≤ dlen →
      let after : Token.State := ⟨src.len,
        Lz77.copy (q.offset st.offset) q.length (st.dst.list 0 st.d ++ q.lits), q.offset st.offset⟩
      Reaches (loops src dlen st) after ∧
        Reaches (loop (tailStep src dlen) (src.len + 1) st) after := by
  refine ⟨q.bytes, q.emit_writes ok, ?_⟩
  intro src dlen st ready holds whole back fits
  have pos := q.offset_pos ok ready.offset
  have size : (st.dst.list 0 st.d).length = st.d := Slice.length_list _ _ _
  have steps := q.bytes_mean ok st.offset src dlen st.s (st.dst.list 0 st.d) holds whole.ge
    (fun some => ⟨pos, by rw [size]; exact back some⟩) (by rw [size]; exact fits)
  rw [← whole] at steps
  exact ⟨loops_reach ready steps rfl, tail_reaches ready steps rfl⟩

open Decode in
/-- Thirty bytes again from two back, in a decoder that has put out four. -/
theorem token_law_repeat : ∃ bs,
    Writes (emitRepeat ⟨9, fun _ => 0⟩ 5 30) ⟨9, fun _ => 0⟩ 5 bs ∧
    Reaches (loops (Slice.ofList bs) 34 ⟨⟨34 + overshootPad, fun _ => 7⟩, 4, 0, 2⟩)
      ⟨bs.length, List.replicate 34 7, 2⟩ := by
  obtain ⟨bs, writes, decodes⟩ := token_law (q := .copyRepeat 30) ⟨by decide, by decide⟩
  refine ⟨bs, writes _ _, ?_⟩
  have ready : Ready (Slice.ofList bs) 34 ⟨⟨34 + overshootPad, fun _ => 7⟩, 4, 0, 2⟩ :=
    ⟨rfl, by decide, Nat.zero_le _, by decide⟩
  have holds : (Slice.ofList bs).Holds 0 bs := by
    have := Slice.holds_list (Slice.ofList bs) 0 bs.length
    rwa [show (Slice.ofList bs).list 0 bs.length = bs from Slice.toList_ofList bs] at this
  exact (decodes ready holds (Nat.zero_add _).symm (by decide) (by decide)).1

end MinLz.Block
