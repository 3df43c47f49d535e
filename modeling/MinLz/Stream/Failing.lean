import MinLz.Stream.Frames

/-! # A sink that fails

The calls that a writer makes on its sink are logged. Until one of them fails, the writer
goes through the same states as one whose sink takes everything. From then on it keeps
the error, and each call returns it and leaves the sink alone.
-/

namespace MinLz.Stream

open Machine (Overflow)
open Effects

variable {σ : Type}

/-- A sink with the calls of `write_all` on it, and whether they succeeded. -/
structure Logged (σ : Type) where
  w : σ
  calls : List (List UInt8 × Bool) := []

/-- The sink with a log. -/
def Sink.logged (sink : Sink σ) : Sink (Logged σ) where
  writeAll p l :=
    match sink.writeAll p l.w with
    | (.ok (), w) => (.ok (), ⟨w, l.calls ++ [(p, true)]⟩)
    | (.error e, w) => (.error e, ⟨w, l.calls ++ [(p, false)]⟩)
  flush l :=
    match sink.flush l.w with
    | (result, w) => (result, { l with w })

/-- The bytes that the sink has taken. -/
def Logged.taken (l : Logged σ) : List UInt8 := (l.calls.filter Prod.snd).flatMap Prod.fst

/-- A call of `write_all` has failed. -/
def Logged.Failed (l : Logged σ) : Prop := ∃ p, (p, false) ∈ l.calls

/-- A failed call has been the last. -/
def Logged.Stops (l : Logged σ) : Prop :=
  ∀ before p after, l.calls = before ++ (p, false) :: after → after = []

/-- The writer as it is when its sink is a vector. -/
def Writer.onVec (s : Writer (Logged σ)) : Writer (List UInt8) where
  w := s.w.taken
  ibuf := s.ibuf
  blockSize := s.blockSize
  level := s.level
  uncompressed := s.uncompressed
  padding := s.padding
  flushOnWrite := s.flushOnWrite
  appendIndex := s.appendIndex
  index := s.index
  wroteHeader := s.wroteHeader
  uncompWritten := s.uncompWritten
  compWritten := s.compWritten
  err := s.err

/-- No call has failed. -/
structure Intact (s : Writer (Logged σ)) : Prop where
  err : s.err = none
  fine : ¬s.w.Failed

/-- A call has failed, and the writer has stopped with an error that stays. -/
structure Broken (s : Writer (Logged σ)) : Prop where
  err : s.err ≠ none
  stops : s.w.Stops

/-- On a vector the run is the same, until a call on the sink fails. -/
abbrev OnVec {α : Type} (x : Emit (Logged σ) α) (y : Emit (List UInt8) α)
    (s : Writer (Logged σ)) : Prop :=
  Mirrors Writer.onVec Intact Broken x y s

theorem stops_failed {l : Logged σ} (fine : ¬l.Failed) (w : σ) (p : List UInt8) :
    Logged.Stops ⟨w, l.calls ++ [(p, false)]⟩ := by
  intro before q after split
  rcases List.eq_nil_or_concat after with none | ⟨front, last, rfl⟩
  · exact none
  · rw [List.concat_eq_append, ← List.cons_append, ← List.append_assoc] at split
    have earlier := (List.append_inj' split rfl).1
    exact absurd ⟨q, by rw [earlier]; simp⟩ fine

theorem taken_snoc (w : σ) (calls : List (List UInt8 × Bool)) (p : List UInt8) :
    Logged.taken ⟨w, calls ++ [(p, true)]⟩ = Logged.taken ⟨w, calls⟩ ++ p := by
  simp [Logged.taken]

section Emissions

variable (m : Overflow) (sink : Sink σ) {s : Writer (Logged σ)}

theorem putRaw_onVec (h : Intact s) (p : List UInt8) :
    OnVec (putRaw sink.logged p) (putRaw Sink.vec p) s := by
  rcases result : sink.writeAll p s.w.w with ⟨e | _, w⟩
  · have run : putRaw sink.logged p s = .error (.error e)
        { s with w := ⟨w, s.w.calls ++ [(p, false)]⟩, err := some e } := by
      simp only [putRaw, Sink.logged, result]
    exact mirrors_broken run ⟨Option.some_ne_none _, stops_failed h.2 w p⟩
  · have run : putRaw sink.logged p s = .ok ()
        { s with w := ⟨w, s.w.calls ++ [(p, true)]⟩ } := by
      simp only [putRaw, Sink.logged, result]
    refine mirrors_ok run ?_ ⟨h.1, ?_⟩
    · rw [putRaw_vec, Writer.onVec, Writer.onVec, taken_snoc]
      rfl
    · rintro ⟨q, mem⟩
      rcases List.mem_append.mp mem with mem | mem
      · exact h.2 ⟨q, mem⟩
      · cases List.mem_singleton.mp mem

theorem countWritten_onVec (h : Intact s) (n : Nat) :
    OnVec (countWritten m n) (countWritten m n) s := by
  refine Mirrors.step rfl rfl ?_
  rw [show s.onVec.compWritten = s.compWritten from rfl]
  refine (mirrors_lift _ h).bind fun total s' h => ?_
  exact mirrors_modify rfl ⟨h.err, h.fine⟩

theorem countAccepted_onVec (h : Intact s) (n : Nat) :
    OnVec (countAccepted m n) (countAccepted m n) s := by
  refine Mirrors.step rfl rfl ?_
  rw [show s.onVec.uncompWritten = s.uncompWritten from rfl]
  refine (mirrors_lift _ h).bind fun total s' h => ?_
  exact mirrors_modify rfl ⟨h.err, h.fine⟩

theorem writeAllTracked_onVec (h : Intact s) (p : List UInt8) :
    OnVec (writeAllTracked m sink.logged p) (writeAllTracked m Sink.vec p) s :=
  (putRaw_onVec sink h p).bind fun _ _ inside => countWritten_onVec m inside _

theorem ensureHeader_onVec (h : Intact s) :
    OnVec (ensureHeader m sink.logged) (ensureHeader m Sink.vec) s := by
  refine Mirrors.step rfl rfl ?_
  by_cases first : s.wroteHeader = false
  · have first' : s.onVec.wroteHeader = false := first
    rw [if_pos first, if_pos first']
    refine (writeAllTracked_onVec m sink h _).bind fun _ s' h => ?_
    exact mirrors_modify rfl ⟨h.err, h.fine⟩
  · have first' : ¬s.onVec.wroteHeader = false := first
    rw [if_neg first, if_neg first']
    exact mirrors_pure () h

theorem addToIndex_onVec (h : Intact s) : OnVec (addToIndex m) (addToIndex m) s := by
  refine Mirrors.step rfl rfl ?_
  have same : s.onVec.index = s.index := rfl
  cases known : s.index with
  | none =>
      rw [known] at same
      simp only [same]
      exact mirrors_pure () h
  | some idx =>
      rw [known] at same
      simp only [same]
      refine (mirrors_lift _ h).bind fun idx' s' h => ?_
      exact mirrors_modify rfl ⟨h.err, h.fine⟩

theorem emitBlock_onVec (h : Intact s) (block : List UInt8) :
    OnVec (emitBlock m sink.logged block) (emitBlock m Sink.vec block) s := by
  refine (addToIndex_onVec m h).bind fun _ s1 h => Mirrors.step rfl rfl ?_
  have same : encodeBody s1.onVec block = encodeBody s1 block := rfl
  rw [same]
  refine (mirrors_lift _ h).bind fun body s2 h => ?_
  cases body with
  | some body =>
      exact (writeAllTracked_onVec m sink h _).bind fun _ _ h => writeAllTracked_onVec m sink h _
  | none =>
      exact (writeAllTracked_onVec m sink h _).bind fun _ _ h => writeAllTracked_onVec m sink h _

theorem writeBlocks_onVec (h : Intact s) (data : List UInt8) :
    OnVec (writeBlocks m sink.logged data) (writeBlocks m Sink.vec data) s := by
  refine (ensureHeader_onVec m sink h).bind fun _ s1 h => ?_
  refine mirrors_runM (fun rest s h => ?_) _ _ h
  rw [writeBlock, writeBlock]
  split
  · exact mirrors_pure _ h
  · refine Mirrors.step rfl rfl ?_
    refine (emitBlock_onVec m sink h _).bind fun _ _ h => ?_
    exact (countAccepted_onVec m h _).bind fun _ _ h => mirrors_pure _ h

theorem flushIbuf_onVec (h : Intact s) :
    OnVec (flushIbuf m sink.logged) (flushIbuf m Sink.vec) s := by
  refine Mirrors.step rfl rfl ?_
  have same : s.onVec.ibuf = s.ibuf := rfl
  simp only [same]
  split
  · exact mirrors_pure () h
  · have emptied : Intact { s with ibuf := [] } := ⟨h.err, h.fine⟩
    exact Mirrors.bind (mirrors_modify rfl emptied) fun _ _ h => writeBlocks_onVec m sink h _

theorem emitEof_onVec (h : Intact s) : OnVec (emitEof m sink.logged) (emitEof m Sink.vec) s := by
  refine Mirrors.step rfl rfl ?_
  rw [show s.onVec.uncompWritten = s.uncompWritten from rfl]
  exact (mirrors_lift _ h).bind fun _ _ h => writeAllTracked_onVec m sink h _

theorem putZeros_onVec (h : Intact s) (n : Nat) :
    OnVec (putZeros m sink.logged n) (putZeros m Sink.vec n) s := by
  refine mirrors_runM (fun remaining s h => ?_) _ _ h
  split
  · exact (writeAllTracked_onVec m sink h _).bind fun _ _ h => mirrors_pure _ h
  · exact mirrors_pure _ h

theorem emitPadding_onVec (h : Intact s) :
    OnVec (emitPadding m sink.logged) (emitPadding m Sink.vec) s := by
  refine Mirrors.step rfl rfl ?_
  have padding : s.onVec.padding = s.padding := rfl
  have written : s.onVec.compWritten = s.compWritten := rfl
  simp only [padding, written]
  split
  · exact mirrors_pure () h
  · exact (writeAllTracked_onVec m sink h _).bind fun _ _ h => putZeros_onVec m sink h _

theorem checkWriter_onVec (h : Intact s) : OnVec (checkWriter) (checkWriter) s := by
  refine Mirrors.step rfl rfl ?_
  have clear : s.onVec.err = none := h.1
  rw [h.1, clear]
  exact mirrors_pure () h

theorem buildIndexBytes_onVec (h : Intact s) (buildIndex : Bool) :
    OnVec (buildIndexBytes m buildIndex) (buildIndexBytes m buildIndex) s := by
  refine Mirrors.step rfl rfl ?_
  split
  · exact mirrors_pure _ h
  · have same : s.onVec.index = s.index := rfl
    cases known : s.index with
    | none =>
        rw [known] at same
        simp only [same]
        exact mirrors_error rfl rfl h
    | some idx =>
        rw [known] at same
        simp only [same]
        have padding : s.onVec.padding = s.padding := rfl
        have appends : s.onVec.appendIndex = s.appendIndex := rfl
        rw [padding, appends]
        refine (mirrors_lift _ h).bind fun r s1 h => ?_
        have built : Intact { s1 with index := some r.1 } := ⟨h.err, h.fine⟩
        refine Mirrors.bind (mirrors_modify rfl built) fun _ s2 h => ?_
        split
        · exact (countWritten_onVec m h _).bind fun _ _ h => mirrors_pure _ h
        · exact mirrors_pure _ h

theorem putIndex_onVec (h : Intact s) (indexBytes : List UInt8) :
    OnVec (putIndex sink.logged indexBytes) (putIndex Sink.vec indexBytes) s := by
  refine Mirrors.step rfl rfl ?_
  have same : s.onVec.appendIndex = s.appendIndex := rfl
  rw [same]
  split
  · exact putRaw_onVec sink h _
  · exact mirrors_pure () h

end Emissions

section Calls

variable (m : Overflow) (sink : Sink σ) {s : Writer (Logged σ)}

theorem writeStep_onVec (h : Intact s) (t : List UInt8 × Nat) :
    OnVec (writeStep m sink.logged t) (writeStep m Sink.vec t) s := by
  rw [writeStep, writeStep]
  simp only
  split
  · exact mirrors_pure _ h
  · refine Mirrors.step rfl rfl ?_
    rw [show s.onVec.blockSize = s.blockSize from rfl, show s.onVec.ibuf = s.ibuf from rfl]
    refine (mirrors_lift _ h).bind fun free s1 h => ?_
    split
    · exact (writeBlocks_onVec m sink h _).bind fun _ _ h => mirrors_pure _ h
    · have buffered : Intact { s1 with ibuf := s1.ibuf ++ t.1.take (min t.1.length free) } :=
        ⟨h.err, h.fine⟩
      refine Mirrors.bind (mirrors_modify rfl buffered) fun _ s2 h => Mirrors.step rfl rfl ?_
      rw [show s2.onVec.ibuf = s2.ibuf from rfl]
      split
      · exact (flushIbuf_onVec m sink h).bind fun _ _ h => mirrors_pure _ h
      · exact mirrors_pure _ h

theorem write_onVec (h : Intact s) (p : List UInt8) :
    OnVec (write m sink.logged p) (write m Sink.vec p) s := by
  refine (checkWriter_onVec h).bind fun _ s1 h => ?_
  split
  · exact mirrors_pure _ h
  · refine Mirrors.step rfl rfl ?_
    rw [show s1.onVec.flushOnWrite = s1.flushOnWrite from rfl]
    split
    · exact (writeBlocks_onVec m sink h _).bind fun _ _ h => mirrors_pure _ h
    · exact mirrors_runM (fun t s h => writeStep_onVec m sink h t) _ _ h

theorem addUserChunk_onVec (h : Intact s) (id : UInt8) (data : List UInt8) :
    OnVec (addUserChunk m sink.logged id data) (addUserChunk m Sink.vec id data) s := by
  rw [addUserChunk, addUserChunk]
  split
  · exact mirrors_lift _ h
  · split
    · exact mirrors_lift _ h
    · refine (checkWriter_onVec h).bind fun _ _ h => ?_
      refine (flushIbuf_onVec m sink h).bind fun _ _ h => ?_
      refine (ensureHeader_onVec m sink h).bind fun _ _ h => ?_
      exact (writeAllTracked_onVec m sink h _).bind fun _ _ h => writeAllTracked_onVec m sink h _

/-- Flushing the sink is no call of `write_all`, and its error does not stay. -/
theorem flushSink_onVec (h : Intact s) :
    Runs (flushSink sink.logged) s
      (fun _ s' => flushSink Sink.vec s.onVec = .ok () s'.onVec ∧ Intact s')
      (fun e s' => (∃ r, e = .error r) ∧ flushSink Sink.vec s.onVec = .ok () s'.onVec ∧
        Intact s') := by
  rcases result : sink.flush s.w.w with ⟨e | _, w⟩
  · have run : flushSink sink.logged s = .error (.error e) { s with w := { s.w with w } } := by
      simp only [flushSink, Sink.logged, result]
    exact runs_error run ⟨⟨e, rfl⟩, rfl, h.err, h.fine⟩
  · have run : flushSink sink.logged s = .ok () { s with w := { s.w with w } } := by
      simp only [flushSink, Sink.logged, result]
    exact runs_ok run ⟨rfl, h.err, h.fine⟩

theorem flushFront_onVec (h : Intact s) :
    OnVec (do checkWriter; flushIbuf m sink.logged) (do checkWriter; flushIbuf m Sink.vec) s :=
  (checkWriter_onVec h).bind fun _ _ h => flushIbuf_onVec m sink h

/-- On a vector a call leads to the same state, if none on the sink fails. -/
theorem call_onVec (h : Intact s) (call : WriterCall) :
    Runs (call.run m sink.logged) s
      (fun _ s' => call.run m Sink.vec s.onVec = .ok () s'.onVec ∧ Intact s')
      (fun e s' => Broken s' ∨ Intact s' ∧ (call.run m Sink.vec s.onVec = .ok () s'.onVec ∨
        call.run m Sink.vec s.onVec = .error e s'.onVec)) := by
  have mirrored (mirrors : OnVec (call.run m sink.logged) (call.run m Sink.vec) s) :
      Runs (call.run m sink.logged) s
        (fun _ s' => call.run m Sink.vec s.onVec = .ok () s'.onVec ∧ Intact s')
        (fun e s' => Broken s' ∨ Intact s' ∧ (call.run m Sink.vec s.onVec = .ok () s'.onVec ∨
          call.run m Sink.vec s.onVec = .error e s'.onVec)) := by
    cases run : call.run m sink.logged s with
    | ok _ s' => exact runs_ok run (mirrors.ok run)
    | error e s' =>
        exact runs_error run ((mirrors.error run).imp id fun h => ⟨h.2, .inr h.1⟩)
  cases call with
  | write p =>
      exact mirrored ((write_onVec m sink h p).bind fun _ _ h => mirrors_pure _ h)
  | addUserChunk id data => exact mirrored (addUserChunk_onVec m sink h id data)
  | flush =>
      show Runs (flush m sink.logged) s _ _
      have front := flushFront_onVec m sink h
      have whole (τ : Type) (sink : Sink τ) : flush m sink =
          (do checkWriter; flushIbuf m sink) >>= fun _ => flushSink sink := by
        rw [flush, bind_assoc]
      rw [whole]
      cases run : (do checkWriter; flushIbuf m sink.logged : Emit (Logged σ) Unit) s with
      | error e s1 =>
          refine runs_error (bind_error run) ((front.error run).imp id fun h => ⟨h.2, .inr ?_⟩)
          show flush m Sink.vec s.onVec = _
          rw [whole]
          exact bind_error h.1
      | ok _ s1 =>
          obtain ⟨other, inside⟩ := front.ok run
          refine Runs.step run ((flushSink_onVec sink inside).mono ?_ ?_)
          · rintro _ s' ⟨flushed, inside⟩
            refine ⟨?_, inside⟩
            show flush m Sink.vec s.onVec = _
            rw [whole]
            exact (bind_ok other).trans flushed
          · rintro e s' ⟨_, flushed, inside⟩
            refine .inr ⟨inside, .inl ?_⟩
            show flush m Sink.vec s.onVec = _
            rw [whole]
            exact (bind_ok other).trans flushed

/-- All of `finish` but flushing the sink. -/
def finishFront {τ : Type} (sink : Sink τ) : Emit τ Unit := do
  checkWriter
  let self ← get
  flushIbuf m sink
  ensureHeader m sink
  emitEof m sink
  let indexBytes ← buildIndexBytes m self.appendIndex
  emitPadding m sink
  putIndex sink indexBytes

theorem finish_eq {τ : Type} (sink : Sink τ) : finish m sink = (do
    finishFront m sink
    flushSink sink
    return (← get).w) := by
  rw [finish, finishFront]
  simp only [closeInner, bind_assoc, pure_bind]

theorem finishFront_onVec (h : Intact s) :
    OnVec (finishFront m sink.logged) (finishFront m Sink.vec) s := by
  refine (checkWriter_onVec h).bind fun _ s1 h => Mirrors.step rfl rfl ?_
  rw [show s1.onVec.appendIndex = s1.appendIndex from rfl]
  refine (flushIbuf_onVec m sink h).bind fun _ _ h => ?_
  refine (ensureHeader_onVec m sink h).bind fun _ _ h => ?_
  refine (emitEof_onVec m sink h).bind fun _ _ h => ?_
  refine (buildIndexBytes_onVec m h _).bind fun indexBytes _ h => ?_
  refine (emitPadding_onVec m sink h).bind fun _ _ h => ?_
  exact putIndex_onVec sink h _

theorem Intact.stops (h : Intact s) : s.w.Stops := by
  intro before p after split
  exact absurd ⟨p, by rw [split]; simp⟩ h.fine

theorem finish_onVec (h : Intact s) :
    Runs (finish m sink.logged) s
      (fun l s' => finish m Sink.vec s.onVec = .ok l.taken s'.onVec ∧ ¬l.Failed)
      (fun _ s' => s'.w.Stops) := by
  rw [finish_eq]
  have front := finishFront_onVec m sink h
  cases run : finishFront m sink.logged s with
  | error e s1 =>
      exact runs_error (bind_error run) ((front.error run).elim Broken.stops fun h => h.2.stops)
  | ok _ s1 =>
      obtain ⟨other, inside⟩ := front.ok run
      refine Runs.step run (((flushSink_onVec sink inside).mono (fun _ _ h => h) ?_).bind ?_)
      · exact fun _ _ h => h.2.2.stops
      · rintro _ s2 ⟨flushed, inside⟩
        refine Runs.step rfl (runs_pure ⟨?_, inside.fine⟩)
        rw [finish_eq]
        exact (bind_ok other).trans (bind_ok flushed)

theorem checkWriter_stops {τ : Type} {s : Writer τ} {e : IoError} (failed : s.err = some e) :
    checkWriter s = .error (.error e) s := by
  refine (get_bind _ _).trans ?_
  rw [failed]
  rfl

theorem broken_call {τ : Type} (sink : Sink τ) {s : Writer τ} (failed : s.err ≠ none)
    (call : WriterCall) : ∃ e, call.run m sink s = .error (.error e) s := by
  obtain ⟨e, known⟩ := Option.ne_none_iff_exists'.mp failed
  have stopped := checkWriter_stops known
  cases call with
  | write p => exact ⟨e, bind_error (bind_error stopped)⟩
  | flush => exact ⟨e, bind_error stopped⟩
  | addUserChunk id data =>
      show ∃ e, addUserChunk m sink id data s = _
      rw [addUserChunk]
      split
      · exact ⟨_, lift_error rfl⟩
      · split
        · exact ⟨_, lift_error rfl⟩
        · exact ⟨e, bind_error stopped⟩

theorem broken_close {τ : Type} (sink : Sink τ) {s : Writer τ} (failed : s.err ≠ none) :
    (∃ e, finish m sink s = .error (.error e) s) ∧
      ∃ e, closeIndex m sink s = .error (.error e) s := by
  obtain ⟨e, known⟩ := Option.ne_none_iff_exists'.mp failed
  have stopped := checkWriter_stops known
  exact ⟨⟨e, bind_error stopped⟩, e, bind_error stopped⟩

end Calls

/-- The calls lead from one writer to the other, whether they fail or not. -/
inductive Calls {τ : Type} (m : Overflow) (sink : Sink τ) :
    Writer τ → List WriterCall → Writer τ → Prop where
  | refl (s : Writer τ) : Calls m sink s [] s
  | returned {s s1 s2 : Writer τ} {call : WriterCall} {calls : List WriterCall}
      (run : call.run m sink s = .ok () s1) (rest : Calls m sink s1 calls s2) :
      Calls m sink s (call :: calls) s2
  | failed {s s1 s2 : Writer τ} {call : WriterCall} {calls : List WriterCall} {e : IoError}
      (run : call.run m sink s = .error (.error e) s1) (rest : Calls m sink s1 calls s2) :
      Calls m sink s (call :: calls) s2

section Runs

variable (m : Overflow) (sink : Sink σ)

theorem Calls.broken {τ : Type} {sink : Sink τ} {s s1 : Writer τ} {calls : List WriterCall}
    (h : Calls m sink s calls s1) (failed : s.err ≠ none) : s1 = s := by
  induction h with
  | refl => rfl
  | returned run =>
      obtain ⟨e, stopped⟩ := broken_call m sink failed _
      cases run.symm.trans stopped
  | failed run _ ih =>
      obtain ⟨e, stopped⟩ := broken_call m sink failed _
      cases run.symm.trans stopped
      exact ih failed

theorem Calls.onVec {s s1 : Writer (Logged σ)} {calls : List WriterCall}
    (h : Calls m sink.logged s calls s1) (intact : Intact s) :
    Broken s1 ∨ Intact s1 ∧ Calls m Sink.vec s.onVec calls s1.onVec := by
  induction h with
  | refl => exact .inr ⟨intact, .refl _⟩
  | returned run _ ih =>
      obtain ⟨other, inside⟩ := (call_onVec m sink intact _).ok run
      exact (ih inside).imp id fun h => ⟨h.1, .returned other h.2⟩
  | failed run rest ih =>
      rcases (call_onVec m sink intact _).error run with broken | ⟨inside, other | other⟩
      · rw [rest.broken m broken.err]
        exact .inl broken
      · exact (ih inside).imp id fun h => ⟨h.1, .returned other h.2⟩
      · exact (ih inside).imp id fun h => ⟨h.1, .failed other h.2⟩

theorem built_onVec {b : WriterBuilder} {w : σ} {s : Writer (Logged σ)}
    (built : b.build ⟨w, []⟩ = .ok s) : Intact s ∧ b.build [] = .ok s.onVec := by
  unfold WriterBuilder.build at built ⊢
  split at built
  · cases built
  · next sized =>
      rw [if_neg sized]
      split at built
      · cases built
      · next padded =>
          rw [if_neg padded]
          cases built
          refine ⟨⟨rfl, ?_⟩, rfl⟩
          rintro ⟨p, mem⟩
          exact absurd mem List.not_mem_nil

/-- After a call of `write_all` that failed nothing more is written: each later call and
    closing the writer fail and leave the sink as it is. So `finish` succeeds only if no call
    failed, and then the sink has taken what a vector takes. -/
theorem write_failure_stays {b : WriterBuilder} {w : σ} {s s1 : Writer (Logged σ)}
    (built : b.build ⟨w, []⟩ = .ok s) {calls : List WriterCall}
    (called : Calls m sink.logged s calls s1) :
    s1.w.Stops ∧
      (s1.w.Failed →
        (∀ call, ∃ e, WriterCall.run m sink.logged call s1 = .error (.error e) s1) ∧
          (∃ e, finish m sink.logged s1 = .error (.error e) s1) ∧
          ∃ e, closeIndex m sink.logged s1 = .error (.error e) s1) ∧
      (∀ e s2, finish m sink.logged s1 = .error e s2 → s2.w.Stops) ∧
      ∀ l s2, finish m sink.logged s1 = .ok l s2 →
        ¬l.Failed ∧ ∃ t t1 t2, b.build [] = .ok t ∧ Calls m Sink.vec t calls t1 ∧
          finish m Sink.vec t1 = .ok l.taken t2 := by
  obtain ⟨intact, fresh⟩ := built_onVec built
  rcases called.onVec m sink intact with broken | ⟨inside, other⟩
  · obtain ⟨⟨e, finished⟩, closed⟩ := broken_close m sink.logged broken.err
    refine ⟨broken.stops, fun _ => ⟨broken_call m _ broken.err, ⟨e, finished⟩, closed⟩, ?_, ?_⟩
    · intro e' s2 run
      cases finished.symm.trans run
      exact broken.stops
    · intro l s2 run
      cases finished.symm.trans run
  · have closing := finish_onVec m sink inside
    refine ⟨inside.stops, fun failed => absurd failed inside.fine, ?_, ?_⟩
    · exact fun e s2 run => closing.error run
    · intro l s2 run
      obtain ⟨finished, fine⟩ := closing.ok run
      exact ⟨fine, s.onVec, s1.onVec, _, fresh, other, finished⟩

end Runs

/-- A sink with room for some bytes. -/
def Sink.room : Sink Nat where
  writeAll p n :=
    if p.length ≤ n then (.ok (), n - p.length)
    else (.error ⟨.writeZero, "failed to write whole buffer"⟩, n)
  flush n := (.ok (), n)

/-- There is room for the header of the stream, but not for the first chunk. -/
theorem write_failure_stays_room :
    ∃ s : Writer (Logged Nat),
      Calls .panics Sink.room.logged (newWriter ⟨12, []⟩ { flushOnWrite := true })
        [.write [7], .flush] s ∧ s.w.Failed ∧
      ∀ call, ∃ e, WriterCall.run .panics Sink.room.logged call s = .error (.error e) s := by
  obtain ⟨s, called, failed⟩ : ∃ s : Writer (Logged Nat),
      Calls .panics Sink.room.logged (newWriter ⟨12, []⟩ { flushOnWrite := true })
        [.write [7], .flush] s ∧ s.w.Failed := by
    refine ⟨_, .failed rfl (.failed rfl (.refl _)), [1, 5, 0, 0, 70, 248, 247, 17], ?_⟩
    decide +kernel
  exact ⟨s, called, failed, ((write_failure_stays .panics Sink.room
    (b := { flushOnWrite := true }) rfl called).2.1 failed).1⟩

end MinLz.Stream
