import MinLz.Stream.Frames

/-! # How writes are split does not show

What a writer has been given since it last wrote out its buffer is cut into blocks of
`blockSize` bytes and a last shorter one, whichever writes have brought it and whether
they went through the buffer or past it. `feed` says what a write comes to: the buffer
and the new bytes give whole blocks, which are put out, and a rest, which is buffered.
-/

namespace MinLz.Stream

open Machine (Overflow)
open Effects

variable {σ : Type}

/-- The data cut into blocks of `n` bytes and a last shorter one. -/
def blocks (n : Nat) (data : List UInt8) : List (List UInt8) :=
  if _h : 0 < n ∧ data ≠ [] then data.take n :: blocks n (data.drop n) else []
termination_by data.length
decreasing_by
  have := List.length_pos_iff.mpr _h.2
  rw [List.length_drop]
  omega

theorem blocks_nil (n : Nat) : blocks n [] = [] := by
  rw [blocks, dif_neg (by simp)]

theorem blocks_cons {n : Nat} (pos : 0 < n) {data : List UInt8} (some : data ≠ []) :
    blocks n data = data.take n :: blocks n (data.drop n) := by
  rw [blocks, dif_pos ⟨pos, some⟩]

theorem blocks_append {n : Nat} (pos : 0 < n) {a : List UInt8} (b : List UInt8)
    (whole : a.length % n = 0) : blocks n (a ++ b) = blocks n a ++ blocks n b := by
  induction size : a.length using Nat.strong_induction_on generalizing a with
  | _ k ih =>
      cases a with
      | nil => rw [List.nil_append, blocks_nil, List.nil_append]
      | cons x xs =>
          have some : x :: xs ≠ [] := List.cons_ne_nil _ _
          have long : n ≤ (x :: xs).length :=
            Nat.le_of_dvd (by simp) (Nat.dvd_of_mod_eq_zero whole)
          have rest : ((x :: xs).drop n).length % n = 0 := by
            rw [List.length_drop]
            exact (Nat.sub_mod_eq_zero_of_mod_eq (by rw [whole, Nat.mod_self]))
          rw [blocks_cons pos some, blocks_cons pos (by simp), List.take_append_of_le_length long,
            List.drop_append_of_le_length long,
            ih _ (by rw [List.length_drop]; omega) rest rfl, List.cons_append]

/-- How many of `n` bytes fill whole blocks of `size`. -/
def wholeLen (size n : Nat) : Nat := n - n % size

theorem wholeLen_mod (size n : Nat) : wholeLen size n % size = 0 :=
  Nat.sub_mod_eq_zero_of_mod_eq (Nat.mod_mod _ _).symm

section Emission

variable (m : Overflow) (sink : Sink σ)

/-- Put out these blocks. -/
def emitBlocks : List (List UInt8) → Emit σ Unit
  | [] => return ()
  | block :: rest => do
      emitBlock m sink block
      countAccepted m block.length
      emitBlocks rest

/-- Put out the data, with the header of the stream before it if it has not been written. -/
def put (data : List UInt8) : Emit σ Unit := do
  if data = [] then return ()
  ensureHeader m sink
  emitBlocks m sink (blocks (← get).blockSize data)

/-- Put out the whole blocks of what is buffered and the new bytes, and buffer the rest. -/
def feed (p : List UInt8) : Emit σ Unit := do
  let self ← get
  let all := self.ibuf ++ p
  let n := wholeLen self.blockSize all.length
  modify fun self => { self with ibuf := [] }
  put m sink (all.take n)
  modify fun self => { self with ibuf := all.drop n }

theorem emitBlocks_append (a b : List (List UInt8)) :
    emitBlocks m sink (a ++ b) = emitBlocks m sink a >>= fun _ => emitBlocks m sink b := by
  induction a with
  | nil => rfl
  | cons block rest ih =>
      rw [List.cons_append, emitBlocks, emitBlocks, ih]
      simp only [bind_assoc]

theorem emitBlocks_emission (bs : List (List UInt8)) : Emission (emitBlocks m sink bs) := by
  induction bs with
  | nil => exact moves_pure emits_flow _
  | cons block rest ih =>
      refine (emitBlock_emission m sink _).bind emits_flow fun _ => ?_
      exact (countAccepted_emission m _).bind emits_flow fun _ => ih

theorem put_emission (data : List UInt8) : Emission (put m sink data) := by
  refine moves_ite (moves_pure emits_flow _) ?_
  refine (ensureHeader_emission m sink).bind emits_flow fun _ => ?_
  exact (moves_get emits_flow).bind emits_flow fun _ => emitBlocks_emission m sink _

theorem feed_optional (p : List UInt8) : Optional (feed m sink p) := by
  have buffers (f : Writer σ → List UInt8) :
      Optional (modify fun self => { self with ibuf := f self } : Emit σ PUnit) :=
    moves_modify fun s => ⟨rfl, rfl, rfl, rfl, rfl, rfl, rfl⟩
  refine (moves_get sameOptions_flow).bind sameOptions_flow fun self => ?_
  refine (buffers fun _ => []).bind sameOptions_flow fun _ => ?_
  refine (Emission.optional (put_emission m sink _)).bind sameOptions_flow fun _ => ?_
  exact buffers fun _ => _

theorem writeBlock_loop {s : Writer σ} (pos : 0 < s.blockSize) {data : List UInt8} {fuel : Nat}
    (enough : data.length < fuel) :
    runM (.fault .unfinished) (writeBlock m sink) fuel data s =
      emitBlocks m sink (blocks s.blockSize data) s := by
  induction fuel generalizing data s with
  | zero => omega
  | succ fuel ih =>
      rw [runM]
      by_cases none : data = []
      · subst none
        rw [blocks_nil]
        rfl
      · have some := List.length_pos_iff.mpr none
        have first : data.take (min data.length s.blockSize) = data.take s.blockSize :=
          List.take_eq_take_iff.mpr (by omega)
        have last : data.drop (min data.length s.blockSize) = data.drop s.blockSize := by
          rcases Nat.le_total data.length s.blockSize with short | long
          · rw [Nat.min_eq_left short, List.drop_length, List.drop_eq_nil_of_le short]
          · rw [Nat.min_eq_right long]
        have size : (data.take s.blockSize).length = min data.length s.blockSize := by
          rw [List.length_take, Nat.min_comm]
        have pass : writeBlock m sink data s = (do
            emitBlock m sink (data.take s.blockSize)
            countAccepted m (min data.length s.blockSize)
            return Loop.Iter.next (data.drop s.blockSize) : Emit σ _) s := by
          rw [writeBlock, if_neg none, ← first, ← last]
          rfl
        rw [blocks_cons pos none, emitBlocks, size, bind_congr_left pass]
        simp only [bind_assoc, pure_bind]
        refine bind_congr_run fun _ s1 emitted => bind_congr_run fun _ s2 counted => ?_
        have same := ((emitBlock_emission m sink _).run s).ok emitted
        have same' := ((countAccepted_emission m _).run s1).ok counted
        have kept : s2.blockSize = s.blockSize := same'.options.blockSize.trans same.options.blockSize
        rw [ih (kept ▸ pos) (by rw [List.length_drop]; omega), kept]

/-- Writing blocks is putting out the data, after the header. -/
theorem writeBlocks_eq {s : Writer σ} (pos : 0 < s.blockSize) {data : List UInt8}
    (some : data ≠ []) : writeBlocks m sink data s = put m sink data s := by
  rw [writeBlocks, put, if_neg some]
  refine bind_congr_run fun _ s1 header => ?_
  have kept := (((ensureHeader_emission m sink).run s).ok header).options.blockSize
  exact (writeBlock_loop m sink (kept ▸ pos) (Nat.lt_succ_self _)).trans rfl

theorem ensureHeader_done {s : Writer σ} (done : s.wroteHeader = true) :
    ensureHeader m sink s = .ok () s := by
  refine (get_bind _ _).trans ?_
  rw [if_neg (by rw [done]; decide)]
  rfl

theorem ensureHeader_writes {s s1 : Writer σ} (run : ensureHeader m sink s = .ok () s1) :
    s1.wroteHeader = true := by
  cases done : s.wroteHeader with
  | true =>
      cases (ensureHeader_done m sink done).symm.trans run
      exact done
  | false =>
      have run : (do
          writeAllTracked m sink (makeStreamHeader s.blockSize)
          modify fun self => { self with wroteHeader := true } : Emit σ Unit) s = .ok () s1 := by
        rw [← run]
        refine Eq.symm ((get_bind _ _).trans ?_)
        rw [if_pos done]
      obtain ⟨_, s2, _, set⟩ := run_bind_ok run
      cases set
      rfl

theorem put_nil (s : Writer σ) : put m sink [] s = .ok () s := rfl

theorem put_append {s : Writer σ} (pos : 0 < s.blockSize) {a : List UInt8} (b : List UInt8)
    (whole : a.length % s.blockSize = 0) :
    put m sink (a ++ b) s = (put m sink a >>= fun _ => put m sink b) s := by
  by_cases none : a = []
  · subst none
    rw [List.nil_append]
    exact (bind_ok (f := fun _ => put m sink b) (put_nil m sink s)).symm
  · rw [put, put, if_neg none, if_neg (by simp [none]), bind_assoc]
    refine bind_congr_run fun _ s1 header => ?_
    have same := ((ensureHeader_emission m sink).run s).ok header
    have size : s1.blockSize = s.blockSize := same.options.blockSize
    rw [get_bind, bind_assoc, get_bind, size, blocks_append pos b whole, emitBlocks_append]
    refine bind_congr_run fun _ s2 emitted => ?_
    have same' := ((emitBlocks_emission m sink _).run s1).ok emitted
    have size' : s2.blockSize = s.blockSize := same'.options.blockSize.trans size
    by_cases last : b = []
    · rw [last, blocks_nil]
      rfl
    · rw [put, if_neg last]
      refine Eq.symm ((bind_ok (ensureHeader_done m sink ?_)).trans ?_)
      · exact same'.header (ensureHeader_writes m sink header)
      · rw [get_bind, size']

theorem buffers_run (buf : List UInt8) (s : Writer σ) :
    (modify fun self => { self with ibuf := buf } : Emit σ PUnit) s =
      .ok ⟨⟩ { s with ibuf := buf } := rfl

theorem feed_run (p : List UInt8) (s : Writer σ) :
    feed m sink p s = (put m sink ((s.ibuf ++ p).take (wholeLen s.blockSize (s.ibuf ++ p).length)) >>=
      fun _ => modify fun self => { self with
        ibuf := (s.ibuf ++ p).drop (wholeLen s.blockSize (s.ibuf ++ p).length) })
      { s with ibuf := [] } := rfl

theorem feed_append {s : Writer σ} (pos : 0 < s.blockSize) (a b : List UInt8) :
    (feed m sink a >>= fun _ => feed m sink b) s = feed m sink (a ++ b) s := by
  set all := s.ibuf ++ a with buffered
  set n := wholeLen s.blockSize all.length with whole
  have within : n ≤ all.length := Nat.sub_le _ _
  set rest := all.drop n ++ b with left
  set k := wholeLen s.blockSize rest.length with whole'
  have split : all ++ b = all.take n ++ rest := by
    rw [left, ← List.append_assoc, List.take_append_drop]
  have size : (all.take n).length = n := List.length_take_of_le within
  have aligned : n % s.blockSize = 0 := wholeLen_mod _ _
  have total : wholeLen s.blockSize (all ++ b).length = n + k := by
    rw [split, List.length_append, size, whole', wholeLen, wholeLen, Nat.add_mod, aligned,
      Nat.zero_add, Nat.mod_mod]
    have := Nat.mod_le rest.length s.blockSize
    omega
  have taken : (all ++ b).take (n + k) = all.take n ++ rest.take k := by
    rw [split, List.take_append, size, List.take_of_length_le (by omega), Nat.add_sub_cancel_left]
  have dropped : (all ++ b).drop (n + k) = rest.drop k := by
    rw [split, List.drop_append, size, List.drop_eq_nil_of_le (by omega), List.nil_append,
      Nat.add_sub_cancel_left]
  rw [feed_run m sink (a ++ b), ← List.append_assoc, ← buffered, total, taken, dropped]
  rw [bind_congr_left (put_append m sink (s := { s with ibuf := [] }) pos (rest.take k) ?_)]
  · refine (bind_congr_left (feed_run m sink a s)).trans ?_
    rw [bind_assoc, bind_assoc]
    refine bind_congr_run fun _ s1 emitted => ?_
    have same := ((put_emission m sink _).run _).ok emitted
    have blockSize : s1.blockSize = s.blockSize := same.options.blockSize
    have empty : ({ s1 with ibuf := [] } : Writer σ) = s1 := by
      have none : s1.ibuf = [] := same.ibuf
      rw [← none]
    refine (bind_ok (buffers_run (all.drop n) s1)).trans ?_
    refine (feed_run m sink b _).trans ?_
    show (put m sink (rest.take (wholeLen s1.blockSize rest.length)) >>= fun _ =>
      modify fun self => { self with ibuf := rest.drop (wholeLen s1.blockSize rest.length) })
        { s1 with ibuf := [] } = _
    rw [empty, blockSize]
  · rw [size]
    exact aligned

theorem feed_short {s : Writer σ} {p : List UInt8} (short : (s.ibuf ++ p).length < s.blockSize) :
    feed m sink p s = .ok () { s with ibuf := s.ibuf ++ p } := by
  rw [feed_run, wholeLen, Nat.mod_eq_of_lt short, Nat.sub_self, List.take_zero, List.drop_zero]
  refine (bind_ok (put_nil m sink _)).trans ?_
  rfl

theorem feed_nil {s : Writer σ} (room : s.ibuf.length < s.blockSize) :
    feed m sink [] s = .ok () s := by
  have idle := feed_short m sink (s := s) (p := []) (by rwa [List.append_nil])
  rwa [List.append_nil] at idle

theorem feed_whole {s : Writer σ} (pos : 0 < s.blockSize) {p : List UInt8}
    (some : s.ibuf ++ p ≠ []) (whole : (s.ibuf ++ p).length % s.blockSize = 0) :
    feed m sink p s = writeBlocks m sink (s.ibuf ++ p) { s with ibuf := [] } := by
  rw [feed_run, wholeLen, whole, Nat.sub_zero, List.take_length, List.drop_length]
  rw [writeBlocks_eq m sink (s := { s with ibuf := [] }) pos some]
  cases run : put m sink (s.ibuf ++ p) { s with ibuf := [] } with
  | error e s1 => exact bind_error run
  | ok _ s1 =>
      have none : s1.ibuf = [] := (((put_emission m sink _).run _).ok run).ibuf
      refine (bind_ok run).trans ?_
      show EStateM.Result.ok () { s1 with ibuf := [] } = _
      rw [← none]

/-- A writer that takes input into its buffer. -/
structure Ready (s : Writer σ) : Prop where
  err : s.err = none
  buffers : s.flushOnWrite = false
  room : s.ibuf.length < s.blockSize
  small : s.blockSize < 2 ^ 64

/-- A pass of `write` feeds a part of its input. -/
theorem writeStep_feeds {s : Writer σ} (h : Ready s) {p : List UInt8} (some : p ≠ []) (k : Nat) :
    ∃ a b, p = a ++ b ∧ a ≠ [] ∧ writeStep m sink (p, k) s =
      (feed m sink a >>= fun _ => return .next (b, k + a.length)) s := by
  have length := List.length_pos_iff.mpr some
  have room := h.room
  have small := h.small
  have cast : (s.blockSize : Int) - s.ibuf.length = ((s.blockSize - s.ibuf.length : Nat) : Int) := by
    omega
  have free : (word (m.unsigned ((s.blockSize : Int) - s.ibuf.length)) : Except (Stop IoError) Nat) =
      .ok (s.blockSize - s.ibuf.length) := by
    rw [cast, Machine.unsigned_ok m (by omega)]
    rfl
  by_cases direct : s.ibuf = [] ∧ p.length ≥ s.blockSize
  · set n := p.length - p.length % s.blockSize with whole
    have rest := Nat.mod_lt p.length (show 0 < s.blockSize by omega)
    have size : (p.take n).length = n := List.length_take_of_le (by omega)
    have taken : p.take n ≠ [] := List.length_pos_iff.mp (by omega)
    refine ⟨p.take n, p.drop n, (List.take_append_drop n p).symm, taken, ?_⟩
    have fed := feed_whole m sink (s := s) (p := p.take n) (by omega)
      (by rwa [direct.1, List.nil_append])
      (by rw [direct.1, List.nil_append, size]; exact wholeLen_mod _ _)
    have same : ({ s with ibuf := [] } : Writer σ) = s := by rw [← direct.1]
    rw [direct.1, List.nil_append, same] at fed
    rw [writeStep]
    simp only [if_neg some]
    refine (get_bind _ _).trans ((bind_ok (lift_ok free)).trans ?_)
    rw [if_pos direct, size]
    exact (bind_congr_left fed).symm
  · set n := min p.length (s.blockSize - s.ibuf.length) with taken
    have size : (p.take n).length = n := List.length_take_of_le (Nat.min_le_left _ _)
    have front : p.take n ≠ [] := List.length_pos_iff.mp (by omega)
    refine ⟨p.take n, p.drop n, (List.take_append_drop n p).symm, front, ?_⟩
    rw [writeStep]
    simp only [if_neg some]
    refine (get_bind _ _).trans ((bind_ok (lift_ok free)).trans ?_)
    rw [if_neg direct, size, ← taken]
    have buffered : (modify fun self => { self with ibuf := self.ibuf ++ p.take n } : Emit σ PUnit) s =
        .ok ⟨⟩ { s with ibuf := s.ibuf ++ p.take n } := rfl
    refine (bind_ok buffered).trans ((get_bind _ _).trans ?_)
    have within : (s.ibuf ++ p.take n).length ≤ s.blockSize := by
      rw [List.length_append, size]
      omega
    by_cases full : (s.ibuf ++ p.take n).length = s.blockSize
    · rw [if_pos full]
      have fed := feed_whole m sink (s := s) (p := p.take n) (by omega) (by simp [front])
        (by rw [full, Nat.mod_self])
      refine (bind_congr_left (fed.trans ?_)).symm
      rw [flushIbuf]
      refine Eq.symm ((get_bind _ _).trans ?_)
      rw [if_neg (by simp [front])]
      rfl
    · rw [if_neg full]
      have fed := feed_short m sink (s := s) (p := p.take n) (by omega)
      refine Eq.symm ((bind_ok fed).trans ?_)
      rfl

theorem Ready.feed {s s1 : Writer σ} (h : Ready s) {p : List UInt8}
    (run : Stream.feed m sink p s = .ok () s1) : Ready s1 := by
  rw [feed_run] at run
  obtain ⟨_, s2, emitted, set⟩ := run_bind_ok run
  have same := ((put_emission m sink _).run _).ok emitted
  have blockSize : s2.blockSize = s.blockSize := same.options.blockSize
  cases set
  refine ⟨same.err.trans h.err, same.options.flushOnWrite.trans h.buffers, ?_, ?_⟩
  · have rest := Nat.mod_lt (s.ibuf ++ p).length (Nat.zero_lt_of_lt h.room)
    have most := Nat.mod_le (s.ibuf ++ p).length s.blockSize
    show ((s.ibuf ++ p).drop _).length < s2.blockSize
    rw [List.length_drop, wholeLen, blockSize]
    omega
  · exact blockSize ▸ h.small

theorem writeStep_loop {s : Writer σ} (h : Ready s) {p : List UInt8} {fuel k : Nat}
    (enough : p.length < fuel) :
    runM (.fault .unfinished) (writeStep m sink) fuel (p, k) s =
      (Stream.feed m sink p >>= fun _ => return k + p.length) s := by
  induction fuel generalizing p k s with
  | zero => omega
  | succ fuel ih =>
      rw [runM]
      by_cases none : p = []
      · subst none
        refine Eq.symm ((bind_ok (feed_nil m sink h.room)).trans ?_)
        rfl
      · obtain ⟨a, b, rfl, front, pass⟩ := writeStep_feeds m sink h none k
        have front := List.length_pos_iff.mpr front
        rw [List.length_append] at enough
        rw [bind_congr_left pass, bind_assoc]
        rw [← bind_congr_left (feed_append m sink (Nat.zero_lt_of_lt h.room) a b), bind_assoc]
        refine bind_congr_run fun _ s1 fed => ?_
        rw [pure_bind]
        simp only
        rw [ih (h.feed m sink fed) (by omega), List.length_append, Nat.add_assoc]

/-- A write feeds the writer its input. -/
theorem write_feeds {s : Writer σ} (h : Ready s) (p : List UInt8) :
    write m sink p s = (Stream.feed m sink p >>= fun _ => return p.length) s := by
  have check : checkWriter s = .ok () s := by
    refine (get_bind _ _).trans ?_
    rw [h.err]
    rfl
  refine (bind_ok check).trans ?_
  by_cases none : p = []
  · subst none
    refine Eq.symm ((bind_ok (feed_nil m sink h.room)).trans ?_)
    rfl
  · rw [if_neg none]
    refine (get_bind _ _).trans ?_
    rw [h.buffers, if_neg Bool.false_ne_true, writeStep_loop m sink h (Nat.lt_succ_self _),
      Nat.zero_add]

end Emission

/-- The call is an `add_user_chunk` with arguments that it does not take. -/
def WriterCall.Refused : WriterCall → Prop
  | .write _ => False
  | .flush => False
  | .addUserChunk id data =>
      ¬(minUserSkippableChunk ≤ id ∧ id ≤ maxUserNonSkippableChunk) ∨
        data.length > maxUserChunkSize

instance decidableRefused : (call : WriterCall) → Decidable call.Refused
  | .write _ => inferInstanceAs (Decidable False)
  | .flush => inferInstanceAs (Decidable False)
  | .addUserChunk _ _ => inferInstanceAs (Decidable (_ ∨ _))

/-- What is written before the first flush or user chunk, and these with what is written
    after each. -/
def segments : List WriterCall → List UInt8 × List (WriterCall × List UInt8)
  | [] => ([], [])
  | .write p :: calls => (p ++ (segments calls).1, (segments calls).2)
  | call :: calls =>
      if call.Refused then segments calls
      else ([], (call, (segments calls).1) :: (segments calls).2)

section Runs

variable (m : Overflow) (sink : Sink σ)

/-- The calls in turn up to one that fails, past those that are refused. -/
def runWrites : List WriterCall → Emit σ Unit
  | [] => return ()
  | call :: calls => do
      if ¬call.Refused then call.run m sink
      runWrites calls

/-- The data put out between calls that find the buffer empty. -/
def runPuts : List UInt8 × List (WriterCall × List UInt8) → Emit σ Unit
  | (data, []) => put m sink data
  | (data, (call, next) :: rest) => do
      put m sink data
      call.run m sink
      runPuts (next, rest)

/-- The same with what is left of the data in the buffer. -/
def runFeeds : List UInt8 × List (WriterCall × List UInt8) → Emit σ Unit
  | (data, []) => feed m sink data
  | (data, (call, next) :: rest) => do
      feed m sink data
      call.run m sink
      runFeeds (next, rest)

theorem runFeeds_append {s : Writer σ} (pos : 0 < s.blockSize) (p data : List UInt8)
    (rest : List (WriterCall × List UInt8)) :
    (feed m sink p >>= fun _ => runFeeds m sink (data, rest)) s =
      runFeeds m sink (p ++ data, rest) s := by
  cases rest with
  | nil =>
      rw [runFeeds, runFeeds]
      exact feed_append m sink pos p data
  | cons next rest =>
      rw [runFeeds, runFeeds, ← bind_congr_left (feed_append m sink pos p data), bind_assoc]

/-- The buffer is empty and the writer otherwise as before. -/
def Emptied (s s' : Writer σ) : Prop := s'.ibuf = [] ∧ s'.err = s.err ∧ SameOptions s s'

theorem Emptied.emits {s s1 s2 : Writer σ} (h : Emptied s s1) (emits : Emits s1 s2) :
    Emptied s s2 :=
  ⟨emits.ibuf.trans h.1, emits.err.trans h.2.1, h.2.2.trans emits.options⟩

theorem Emptied.ready {s s' : Writer σ} (h : Emptied s s') (ready : Ready s) : Ready s' := by
  refine ⟨h.2.1.trans ready.err, h.2.2.flushOnWrite.trans ready.buffers, ?_, ?_⟩
  · rw [h.1, h.2.2.blockSize]
    exact Nat.zero_lt_of_lt ready.room
  · exact h.2.2.blockSize ▸ ready.small

theorem flushIbuf_empties (s : Writer σ) :
    Runs (flushIbuf m sink) s (fun _ s' => Emptied s s') fun _ _ => True := by
  refine Runs.step rfl ?_
  simp only
  split
  · next none => exact runs_pure ⟨none, rfl, sameOptions_refl s⟩
  · refine Runs.step rfl (((writeBlocks_emission m sink _).run _).mono ?_ fun _ _ _ => trivial)
    exact fun _ _ h => ⟨h.ibuf, h.err, ⟨h.options.blockSize, h.options.level,
      h.options.uncompressed, h.options.padding, h.options.flushOnWrite, h.options.appendIndex,
      h.options.indexed⟩⟩

/-- A call that writes the buffer out before what it is for. -/
def WriterCall.Flushes : WriterCall → Prop
  | .write _ => False
  | .flush => True
  | .addUserChunk id data => ¬WriterCall.Refused (.addUserChunk id data)

/-- What such a call does after that. -/
def WriterCall.after : WriterCall → Emit σ Unit
  | .write _ => return ()
  | .flush => flushSink sink
  | .addUserChunk id data => do
      ensureHeader m sink
      writeAllTracked m sink (id :: chunkLength data.length)
      writeAllTracked m sink data

theorem WriterCall.after_emission (call : WriterCall) : Emission (call.after m sink) := by
  cases call with
  | write p => exact moves_pure emits_flow _
  | flush => exact flushSink_emission sink
  | addUserChunk id data =>
      exact (ensureHeader_emission m sink).bind emits_flow fun _ =>
        (writeAllTracked_emission m sink _).bind emits_flow fun _ =>
          writeAllTracked_emission m sink _

theorem checkWriter_clear {s : Writer σ} (clear : s.err = none) : checkWriter s = .ok () s := by
  refine (get_bind _ _).trans ?_
  rw [clear]
  rfl

theorem WriterCall.Flushes.run {call : WriterCall} (h : call.Flushes) {s : Writer σ}
    (clear : s.err = none) :
    call.run m sink s = (flushIbuf m sink >>= fun _ => call.after m sink) s := by
  cases call with
  | write p => exact h.elim
  | flush => exact bind_ok (checkWriter_clear clear)
  | addUserChunk id data =>
      obtain ⟨inside, small⟩ := not_or.mp h
      show Stream.addUserChunk m sink id data s = _
      rw [Stream.addUserChunk, if_neg inside, if_neg small]
      exact bind_ok (checkWriter_clear clear)

theorem WriterCall.Flushes.empties {call : WriterCall} (h : call.Flushes) {s s' : Writer σ}
    (clear : s.err = none) (run : call.run m sink s = .ok () s') : Emptied s s' := by
  rw [h.run m sink clear] at run
  obtain ⟨_, s1, flushed, run⟩ := run_bind_ok run
  exact ((flushIbuf_empties m sink s).ok flushed).emits (((call.after_emission m sink).run s1).ok run)

theorem Ready.call {s s' : Writer σ} (h : Ready s) {call : WriterCall} (taken : ¬call.Refused)
    (run : call.run m sink s = .ok () s') : Ready s' := by
  cases call with
  | write p =>
      obtain ⟨n, s1, wrote, run⟩ := run_bind_ok run
      cases run
      rw [write_feeds m sink h] at wrote
      obtain ⟨_, s2, fed, wrote⟩ := run_bind_ok wrote
      cases wrote
      exact h.feed m sink fed
  | flush =>
      have flushes : WriterCall.Flushes .flush := trivial
      exact (flushes.empties m sink h.err run).ready h
  | addUserChunk id data =>
      have flushes : WriterCall.Flushes (.addUserChunk id data) := taken
      exact (flushes.empties m sink h.err run).ready h

theorem runWrites_feeds {s : Writer σ} (h : Ready s) (calls : List WriterCall) :
    runWrites m sink calls s = runFeeds m sink (segments calls) s := by
  induction calls generalizing s with
  | nil =>
      rw [segments, runFeeds]
      exact (feed_nil m sink h.room).symm
  | cons call calls ih =>
      have barrier (other : segments (call :: calls) =
          if call.Refused then segments calls
          else ([], (call, (segments calls).1) :: (segments calls).2)) :
          runWrites m sink (call :: calls) s = runFeeds m sink (segments (call :: calls)) s := by
        rw [other, runWrites]
        by_cases refused : call.Refused
        · rw [if_neg (not_not.mpr refused), if_pos refused]
          exact ih h
        · rw [if_pos refused, if_neg refused, runFeeds]
          refine Eq.symm ((bind_ok (feed_nil m sink h.room)).trans ?_)
          exact bind_congr_run fun _ s1 ran => (ih (h.call m sink refused ran)).symm
      cases call with
      | write p =>
          have taken : (write m sink p >>= fun _ => pure () : Emit σ Unit) s = feed m sink p s := by
            rw [bind_congr_left (write_feeds m sink h p), bind_assoc]
            simp only [pure_bind, bind_pure_unit]
          rw [runWrites, if_pos (show ¬WriterCall.Refused (.write p) from id), segments,
            ← runFeeds_append m sink (Nat.zero_lt_of_lt h.room)]
          refine (bind_congr_left taken).trans ?_
          exact bind_congr_run fun _ s1 fed => ih (h.feed m sink fed)
      | flush => exact barrier rfl
      | addUserChunk id data => exact barrier rfl

/-- What is fed and then flushed is put out. -/
theorem feed_flushIbuf {s : Writer σ} (pos : 0 < s.blockSize) (empty : s.ibuf = [])
    (data : List UInt8) :
    (feed m sink data >>= fun _ => flushIbuf m sink) s = put m sink data s := by
  set n := wholeLen s.blockSize data.length with whole
  have same : ({ s with ibuf := [] } : Writer σ) = s := by rw [← empty]
  have size : (data.take n).length = n := List.length_take_of_le (Nat.sub_le _ _)
  have fed := feed_run m sink data s
  rw [empty, List.nil_append, ← whole, same] at fed
  have split := put_append m sink (s := s) pos (a := data.take n) (data.drop n)
    (by rw [size]; exact wholeLen_mod _ _)
  rw [List.take_append_drop] at split
  rw [split, bind_congr_left fed, bind_assoc]
  refine bind_congr_run fun _ s1 emitted => ?_
  have emits := ((put_emission m sink _).run s).ok emitted
  have same1 : ({ s1 with ibuf := [] } : Writer σ) = s1 := by rw [← emits.ibuf.trans empty]
  refine (bind_ok (buffers_run (data.drop n) s1)).trans ((get_bind _ _).trans ?_)
  by_cases last : data.drop n = []
  · simp only [last]
    rw [same1]
    rfl
  · simp only [if_neg last]
    refine (bind_ok (buffers_run [] { s1 with ibuf := data.drop n })).trans ?_
    rw [same1]
    exact writeBlocks_eq m sink (emits.options.blockSize ▸ pos) last

/-- Before what writes the buffer out first, feeding is putting out. -/
theorem feed_before {α : Type} {x : Emit σ α} {after : Emit σ α} {s : Writer σ} (h : Ready s)
    (empty : s.ibuf = [])
    (flushes : ∀ t, t.err = none → SameOptions s t →
      x t = (flushIbuf m sink >>= fun _ => after) t) (data : List UInt8) :
    (feed m sink data >>= fun _ => x) s = (put m sink data >>= fun _ => x) s := by
  have pos := Nat.zero_lt_of_lt h.room
  have left : (feed m sink data >>= fun _ => x) s =
      (feed m sink data >>= fun _ => flushIbuf m sink >>= fun _ => after) s := by
    refine bind_congr_run fun _ s1 fed => flushes s1 (h.feed m sink fed).err ?_
    exact ((feed_optional m sink data).run s).ok fed
  have right : (put m sink data >>= fun _ => x) s = (put m sink data >>= fun _ => after) s := by
    refine bind_congr_run fun _ s1 emitted => ?_
    have emits := ((put_emission m sink _).run s).ok emitted
    rw [flushes s1 (emits.err.trans h.err) emits.options]
    refine bind_ok (a := ()) ((get_bind _ _).trans ?_)
    rw [emits.ibuf.trans empty]
    rfl
  rw [left, right, ← bind_assoc, bind_congr_left (feed_flushIbuf m sink pos empty data)]

theorem segments_flush (calls : List WriterCall) :
    ∀ next ∈ (segments calls).2, next.1.Flushes := by
  induction calls with
  | nil => exact fun _ none => absurd none List.not_mem_nil
  | cons call calls ih =>
      cases call with
      | write p => exact ih
      | flush =>
          have taken : ¬WriterCall.Refused .flush := id
          show ∀ next ∈ (if WriterCall.Refused .flush then _ else _ : _ × List _).2, _
          rw [if_neg taken]
          exact List.forall_mem_cons.mpr ⟨trivial, ih⟩
      | addUserChunk id data =>
          show ∀ next ∈ (if WriterCall.Refused (.addUserChunk id data) then _ else _ : _ × List _).2, _
          split
          · exact ih
          · next taken => exact List.forall_mem_cons.mpr ⟨taken, ih⟩

theorem runFeeds_puts {α : Type} {x after : Emit σ α} {s : Writer σ} (h : Ready s)
    (empty : s.ibuf = [])
    (flushes : ∀ t, t.err = none → SameOptions s t →
      x t = (flushIbuf m sink >>= fun _ => after) t) (data : List UInt8)
    {rest : List (WriterCall × List UInt8)} (calls : ∀ next ∈ rest, next.1.Flushes) :
    (runFeeds m sink (data, rest) >>= fun _ => x) s =
      (runPuts m sink (data, rest) >>= fun _ => x) s := by
  induction rest generalizing data s with
  | nil =>
      rw [runFeeds, runPuts]
      exact feed_before m sink h empty flushes data
  | cons next rest ih =>
      obtain ⟨call, next⟩ := next
      rw [List.forall_mem_cons] at calls
      rw [runFeeds, runPuts, bind_assoc, bind_assoc, bind_assoc, bind_assoc]
      have runs (t : Writer σ) (clear : t.err = none) :
          (call.run m sink >>= fun _ => runFeeds m sink (next, rest) >>= fun _ => x) t =
            (flushIbuf m sink >>= fun _ => call.after m sink >>= fun _ =>
              runFeeds m sink (next, rest) >>= fun _ => x) t := by
        rw [bind_congr_left (calls.1.run m sink clear), bind_assoc]
      rw [feed_before m sink h empty (fun t clear _ => runs t clear) data]
      refine bind_congr_run fun _ s1 emitted => bind_congr_run fun _ s2 ran => ?_
      have emits := ((put_emission m sink _).run s).ok emitted
      have clear : s1.err = none := emits.err.trans h.err
      have emptied := calls.1.empties m sink clear ran
      have same : SameOptions s s2 := emits.options.trans emptied.2.2
      have ready : Ready s2 := by
        refine ⟨emptied.2.1.trans clear, same.flushOnWrite.trans h.buffers, ?_, ?_⟩
        · rw [emptied.1, same.blockSize]
          exact Nat.zero_lt_of_lt h.room
        · exact same.blockSize ▸ h.small
      exact ih ready emptied.1 (fun t clear later => flushes t clear (same.trans later)) next calls.2

theorem finish_flushes {s t : Writer σ} (clear : t.err = none) (same : SameOptions s t) :
    finish m sink t = (flushIbuf m sink >>= fun _ => do
      ensureHeader m sink
      emitEof m sink
      let indexBytes ← buildIndexBytes m s.appendIndex
      emitPadding m sink
      putIndex sink indexBytes
      flushSink sink
      return (← get).w) t := by
  refine (bind_ok (checkWriter_clear clear)).trans ((get_bind _ _).trans ?_)
  rw [same.appendIndex, closeInner]
  simp only [bind_assoc, pure_bind]

theorem build_ready {b : WriterBuilder} (buffers : b.flushOnWrite = false) {w : σ} {s : Writer σ}
    (built : b.build w = .ok s) : Ready s ∧ s.ibuf = [] := by
  have some : 0 < minBlockSize := by decide
  have cap : Block.maxBlockSize < 2 ^ 64 := by decide
  rw [WriterBuilder.build] at built
  split at built
  · cases built
  · next valid =>
      split at built
      · cases built
      · cases built
        have pos : 0 < b.blockSize := by omega
        have small : b.blockSize < 2 ^ 64 := by omega
        exact ⟨⟨rfl, buffers, pos, small⟩, rfl⟩

/-- Calls that bring the same bytes between the same flushes and user chunks leave the same
    in the sink: each run of bytes is cut into blocks and a last shorter one. This holds for
    any sink, also one that fails. -/
theorem splitting_invisible {b : WriterBuilder} (buffers : b.flushOnWrite = false) {w : σ}
    {s : Writer σ} (built : b.build w = .ok s) {calls calls' : List WriterCall}
    (same : segments calls = segments calls') :
    (runWrites m sink calls >>= fun _ => finish m sink) s =
        (runWrites m sink calls' >>= fun _ => finish m sink) s ∧
      (runWrites m sink calls >>= fun _ => finish m sink) s =
        (runPuts m sink (segments calls) >>= fun _ => finish m sink) s := by
  obtain ⟨ready, empty⟩ := build_ready buffers built
  refine ⟨bind_congr_left ?_, (bind_congr_left (runWrites_feeds m sink ready calls)).trans ?_⟩
  · rw [runWrites_feeds m sink ready, runWrites_feeds m sink ready, same]
  · exact runFeeds_puts m sink ready empty (fun _ clear same => finish_flushes m sink clear same) _
      (segments_flush calls)

end Runs

/-- The first write is longer than a block and goes past the buffer. -/
def longFirst : List WriterCall :=
  [.write (List.replicate 5000 7), .write (List.replicate 4000 8), .flush, .write [3, 4, 5]]

/-- The same bytes, where the second write fills up a block. -/
def shortFirst : List WriterCall :=
  [.write (List.replicate 3000 7), .write (List.replicate 2000 7 ++ List.replicate 4000 8), .flush,
    .write [3], .write [4, 5]]

theorem splitting_invisible_blocks :
    (runWrites .panics Sink.vec longFirst >>= fun _ => finish .panics Sink.vec)
        (newWriter [] { blockSize := 4096 }) =
      (runWrites .panics Sink.vec shortFirst >>= fun _ => finish .panics Sink.vec)
        (newWriter [] { blockSize := 4096 }) ∧
    (runWrites .panics Sink.vec longFirst >>= fun _ => finish .panics Sink.vec)
        (newWriter [] { blockSize := 4096 }) =
      (runPuts .panics Sink.vec
          (List.replicate 5000 7 ++ List.replicate 4000 8, [(.flush, [3, 4, 5])]) >>= fun _ =>
        finish .panics Sink.vec) (newWriter [] { blockSize := 4096 }) := by
  have two (p q : List UInt8) : segments [.write p, .write q, .flush, .write [3, 4, 5]] =
      (p ++ q, [(.flush, [3, 4, 5])]) := by simp [segments, WriterCall.Refused]
  have three (p q r : List UInt8) :
      segments [.write p, .write (q ++ r), .flush, .write [3], .write [4, 5]] =
        (p ++ q ++ r, [(.flush, [3, 4, 5])]) := by simp [segments, WriterCall.Refused]
  have joined : List.replicate 3000 (7 : UInt8) ++ List.replicate 2000 7 = List.replicate 5000 7 :=
    List.replicate_append_replicate
  have long := two (List.replicate 5000 7) (List.replicate 4000 8)
  have short := three (List.replicate 3000 7) (List.replicate 2000 7) (List.replicate 4000 8)
  rw [joined] at short
  have cuts := splitting_invisible .panics Sink.vec (b := { blockSize := 4096 }) rfl (w := []) rfl
    (long.trans short.symm)
  rwa [long] at cuts

end MinLz.Stream
