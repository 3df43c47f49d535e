import MinLz.Stream.Failing
import MinLz.Stream.MtOutput
import MinLz.Stream.MtProgress
import MinLz.Stream.RoundTrip

/-! # Whole sessions of the multi-threaded writer

The calls on the caller's thread and `finish`, and what the writer thread does at the end,
come to what the single-threaded writer does. The writer thread always encodes the index
when it has one, and the single-threaded writer only when it is to be appended.
-/

namespace MinLz.Stream

open Block (maxBlockSize)
open Machine (Overflow)
open Effects
open Pipeline

/-- The same call on the other writer. -/
def WriterCall.mt : WriterCall → MtCall
  | .write p => .write p
  | .flush => .flush
  | .addUserChunk id data => .addUserChunk id data

/-- The calls that are refused return errors, and no others. -/
def Answers (calls : List WriterCall) (results : List (Except IoError Unit)) : Prop :=
  List.Forall₂ (fun call result => if call.Refused then ∃ e, result = .error e
    else result = .ok ()) calls results

/-- The part of `close_inner` that does not depend on the index. -/
def closeFront {σ : Type} (m : Overflow) (sink : Sink σ) : Emit σ Unit := do
  flushIbuf m sink
  ensureHeader m sink
  emitEof m sink

/-- The rest of `close_inner`. -/
def closeTail {σ : Type} (m : Overflow) (sink : Sink σ) (buildIndex : Bool) :
    Emit σ (List UInt8) := do
  let indexBytes ← buildIndexBytes m buildIndex
  emitPadding m sink
  putIndex sink indexBytes
  flushSink sink
  return indexBytes

/-- The calls, and the end of the stream up to the index. -/
def sessionFront {σ : Type} (m : Overflow) (sink : Sink σ) (calls : List WriterCall) :
    Emit σ Unit := do
  runWrites m sink calls
  checkWriter
  closeFront m sink

theorem closeInner_eq {σ : Type} (m : Overflow) (sink : Sink σ) (buildIndex : Bool) :
    closeInner m sink buildIndex = closeFront m sink >>= fun _ => closeTail m sink buildIndex := by
  simp only [closeInner, closeFront, closeTail, bind_assoc]

section Calls

variable {m : Overflow} {b : MtWriterBuilder} {t : MtWriter} {g : Drain (List UInt8)}
  {s : Writer (List UInt8)}

/-- A call that is not refused does what the call of the single-threaded writer does. -/
theorem Abreast.attempt (h : Abreast b t g s) {call : WriterCall} (taken : ¬call.Refused) :
    AsAlone m b (attempt (call.mt.run m))
      (call.run m Sink.vec >>= fun _ => pure (.ok ())) t g s := by
  have twin : AsAlone m b (call.mt.run m) (call.run m Sink.vec) t g s := by
    cases call with
    | write p => exact (h.write p).bind fun _ t1 g1 s1 h => twins_pure () h
    | flush => exact h.flush
    | addUserChunk id data => exact h.addUserChunk taken
  refine twin.caught (c := fun _ => .ok ()) attempt_bind (fun _ _ => rfl) ?_
  rintro f t' g' e s' ⟨p, rfl⟩
  rfl

theorem attempt_refused (m : Overflow) {call : WriterCall} (refused : call.Refused) :
    ∃ e : IoError, ∀ t, attempt (call.mt.run m) t = .done (.ok (.error e), t) := by
  cases call with
  | write p => exact refused.elim
  | flush => exact refused.elim
  | addUserChunk id data =>
      by_cases outside : ¬(minUserSkippableChunk ≤ id ∧ id ≤ maxUserNonSkippableChunk)
      · refine ⟨⟨.invalidInput, "user-chunk id 0x" ++ hex id ++ " out of range"⟩, fun t => ?_⟩
        rw [attempt_bind]
        have run : (WriterCall.addUserChunk id data).mt.run m t = .done
            (.error (.error ⟨.invalidInput, "user-chunk id 0x" ++ hex id ++ " out of range"⟩),
              t) := by
          show MtWriter.addUserChunk m id data t = _
          unfold MtWriter.addUserChunk
          rw [if_pos outside]
          rfl
        rw [run]
        rfl
      · refine ⟨⟨.invalidInput, "user-chunk exceeds maximum size"⟩, fun t => ?_⟩
        rw [attempt_bind]
        have run : (WriterCall.addUserChunk id data).mt.run m t =
            .done (.error (.error ⟨.invalidInput, "user-chunk exceeds maximum size"⟩), t) := by
          show MtWriter.addUserChunk m id data t = _
          unfold MtWriter.addUserChunk
          rw [if_neg outside, if_pos (refused.resolve_left outside)]
          rfl
        rw [run]
        rfl

/-- The calls in turn, with answers that do not depend on how the threads run. -/
theorem attempts_alone (m : Overflow) (b : MtWriterBuilder) (calls : List WriterCall) :
    ∃ results, Answers calls results ∧ ∀ acc t g s, Abreast b t g s →
      AsAlone m b (List.mapM.loop (fun call => Stream.attempt (MtCall.run m call))
          (calls.map WriterCall.mt) acc)
        (runWrites m Sink.vec calls >>= fun _ => pure (acc.reverse ++ results)) t g s := by
  induction calls with
  | nil =>
      refine ⟨[], .nil, fun acc t g s h => ?_⟩
      rw [List.append_nil]
      exact twins_pure _ h
  | cons call calls ih =>
      obtain ⟨results, answers, rest⟩ := ih
      by_cases refused : call.Refused
      · obtain ⟨e, run⟩ := attempt_refused m refused
        refine ⟨.error e :: results, .cons ?_ answers, fun acc t g s h => ?_⟩
        · rw [if_pos refused]
          exact ⟨e, rfl⟩
        · have next := rest (.error e :: acc) t g s h
          rw [List.reverse_cons, List.append_assoc] at next
          rw [runWrites, if_neg (not_not_intro refused)]
          exact Twins.left (run t) next
      · refine ⟨.ok () :: results, .cons ?_ answers, fun acc t g s h => ?_⟩
        · rw [if_neg refused]
        · rw [runWrites, if_pos refused]
          have first := h.attempt (m := m) refused
          have both := first.bind
            (f := fun r => List.mapM.loop (fun call => Stream.attempt (MtCall.run m call))
              (calls.map WriterCall.mt) (r :: acc))
            (u := fun r => runWrites m Sink.vec calls >>= fun _ =>
              pure ((r :: acc).reverse ++ results)) fun r t1 g1 s1 h => rest (r :: acc) t1 g1 s1 h
          simp only [bind_assoc, pure_bind, List.reverse_cons, List.append_assoc] at both ⊢
          exact both

/-- The chunk that ends the stream is ordered as raw bytes. -/
theorem Abreast.submitEof (h : Abreast b t g s) :
    AsAlone m b (do
        let tmp ← ofExcept (eofBytes (← get).uncompWritten)
        MtWriter.submitRaw tmp) (emitEof m Sink.vec) t g s := by
  have total : s.uncompWritten = t.uncompWritten := by rw [h.same]; rfl
  unfold emitEof
  refine Twins.get (Twins.right rfl ?_)
  rw [total]
  cases put : putUvarint (List.replicate maxVarintLen64 0) t.uncompWritten with
  | none =>
      have panics : eofBytes t.uncompWritten = .error (.fault .panic) := by
        rw [eofBytes, put]
        rfl
      rw [panics]
      refine twins_fail (f := .fault .panic) (u := t) rfl ?_
      exact runs_error (bind_error rfl) ⟨_, rfl⟩
  | some tmp =>
      have made : eofBytes t.uncompWritten =
          .ok ([chunkTypeEof, UInt8.ofNat tmp.2, 0, 0] ++ tmp.1.take tmp.2) := by
        rw [eofBytes, put]
        rfl
      rw [made]
      refine Twins.left rfl (Twins.right rfl ?_)
      exact h.submitRaw (writeAllTracked_putsOut _)

/-- The caller's thread orders what the calls of the single-threaded writer and the end of
    its stream put out. -/
theorem session_alone (m : Overflow) (b : MtWriterBuilder) (calls : List WriterCall) :
    ∃ results, Answers calls results ∧ ∀ t g s, Abreast b t g s →
      AsAlone m b (mtSession m (calls.map WriterCall.mt))
        (sessionFront m Sink.vec calls >>= fun _ => pure results) t g s := by
  obtain ⟨results, answers, attempts⟩ := attempts_alone m b calls
  refine ⟨results, answers, fun t g s h => ?_⟩
  have first := attempts [] t g s h
  rw [List.reverse_nil, List.nil_append] at first
  have closes {t : MtWriter} {g : Drain (List UInt8)} {s : Writer (List UInt8)}
      (h : Abreast b t g s) : AsAlone m b (MtWriter.closing m) (do
        checkWriter
        closeFront m Sink.vec) t g s := by
    unfold MtWriter.closing closeFront
    refine checkErr_quiet.before fun _ t1 same => ?_
    subst same
    refine Twins.right h.calm (h.flushIbuf.bind fun _ t1 g1 s1 h => ?_)
    exact h.ensureHeader.bind fun _ t2 g2 s2 h => h.submitEof
  have both := first.bind
    (f := fun results => MtWriter.closing m >>= fun _ => pure results)
    (u := fun results => (do
      checkWriter
      closeFront m Sink.vec) >>= fun _ => pure results)
    fun results t1 g1 s1 h => (closes h).bind fun _ t2 g2 s2 h => twins_pure results h
  rw [sessionFront]
  simp only [bind_assoc, pure_bind] at both ⊢
  exact both

end Calls

section Closing

variable {m : Overflow} {b : MtWriterBuilder} {t : MtWriter} {g : Drain (List UInt8)}

/-- Both succeed or both fail, and the single-threaded writer stays where the threads are. -/
inductive Together {α β : Type} (b : MtWriterBuilder) (t : MtWriter) (R : α → β → Prop)
    (x : Put (List UInt8) α) (y : Emit (List UInt8) β) (g : Drain (List UInt8)) : Prop where
  | ok {a : α} {c : β} {g' : Drain (List UInt8)} (left : x g = .ok a g')
      (right : y (alone b t g) = .ok c (alone b t g')) (h : R a c)
  | error {e e' : Stop IoError} {g' : Drain (List UInt8)} {s' : Writer (List UInt8)}
      (left : x g = .error e g') (right : y (alone b t g) = .error e' s')

theorem Together.bind {α β κ υ : Type} {R : α → β → Prop} {Q : κ → υ → Prop}
    {x : Put (List UInt8) α} {y : Emit (List UInt8) β} {f : α → Put (List UInt8) κ}
    {f' : β → Emit (List UInt8) υ} (h : Together b t R x y g)
    (next : ∀ a c g', R a c → Together b t Q (f a) (f' c) g') :
    Together b t Q (x >>= f) (y >>= f') g := by
  cases h with
  | error left right => exact .error (bind_error left) (bind_error right)
  | ok left right related =>
      cases next _ _ _ related with
      | ok left' right' related' =>
          exact .ok ((bind_ok left).trans left') ((bind_ok right).trans right') related'
      | error left' right' =>
          exact .error ((bind_ok left).trans left') ((bind_ok right).trans right')

theorem together_get {α β : Type} {R : α → β → Prop} {f : Drain (List UInt8) → Put (List UInt8) α}
    {f' : Writer (List UInt8) → Emit (List UInt8) β} (h : Together b t R (f g) (f' (alone b t g)) g) :
    Together b t R (get >>= f) (get >>= f') g := by
  cases h with
  | ok left right related => exact .ok left right related
  | error left right => exact .error left right

theorem together_lift {α : Type} (r : Except (Stop IoError) α) :
    Together b t Eq (liftM r) (liftM r) g := by
  cases r with
  | ok a => exact Together.ok rfl rfl rfl
  | error e => exact Together.error rfl rfl

theorem together_pure {α β : Type} {R : α → β → Prop} {a : α} {c : β} (h : R a c) :
    Together b t R (pure a) (pure c) g := Together.ok rfl rfl h

theorem together_countWritten (n : Nat) :
    Together b t (fun _ _ => True) (drainCount m n) (countWritten m n) g := by
  have same : (alone b t g).compWritten = g.compWritten := rfl
  cases counted : m.unsigned (g.compWritten + n) with
  | some total =>
      have left : drainCount m n g = .ok () { g with compWritten := total } := drainCount_ok counted
      rw [← same] at counted
      have right : countWritten m n (alone b t g) =
        .ok () (alone b t { g with compWritten := total }) := countWritten_ok counted
      exact .ok left right trivial
  | none =>
      have left : drainCount m n g = .error (.fault .panic) g := drainCount_error counted
      rw [← same] at counted
      have right : countWritten m n (alone b t g) = .error (.fault .panic) (alone b t g) :=
        countWritten_error counted
      exact Together.error left right

/-- What the writer thread does with the index of the stream. -/
theorem together_index (even : g.uncompWritten = t.uncompWritten) :
    Together b t (fun left right => left = if b.appendIndex then right else [])
      (drainIndexBytes m b.padding b.appendIndex) (buildIndexBytes m g.index.isSome) g := by
  unfold drainIndexBytes buildIndexBytes
  refine together_get ?_
  have same : (alone b t g).index = g.index := rfl
  have count : (alone b t g).uncompWritten = g.uncompWritten := even.symm
  have appends : (alone b t g).appendIndex = b.appendIndex := rfl
  have padding : (alone b t g).padding = b.padding := rfl
  have written : (alone b t g).compWritten = g.compWritten := rfl
  rw [same, count, appends, padding, written]
  cases g.index with
  | none => exact together_pure (by split <;> rfl)
  | some idx =>
      simp only [Option.isSome_some, Bool.not_true, Bool.false_eq_true, if_false]
      refine (together_lift _).bind ?_
      rintro ⟨idx', bytes⟩ _ g1 rfl
      have noted : Together b t (fun _ _ => True)
          (modify fun self => { self with index := some idx' } : Put (List UInt8) PUnit)
          (modify fun self => { self with index := some idx' } : Emit (List UInt8) PUnit) g1 :=
        Together.ok rfl rfl trivial
      refine noted.bind fun _ _ g2 _ => ?_
      cases b.appendIndex with
      | false => exact together_pure rfl
      | true =>
          rw [if_pos rfl, if_pos rfl]
          exact (together_countWritten _).bind fun _ _ _ _ => together_pure (if_pos rfl).symm

theorem drainZeros_vec (n : Nat) :
    drainZeros Sink.vec n g = .ok () { g with w := g.w ++ List.replicate n 0 } := by
  have runs : Runs (drainZeros Sink.vec n) g
      (fun _ g' => g' = { g with w := g.w ++ List.replicate n 0 }) fun _ _ => False := by
    refine runs_runM
      (fun k g' => k ≤ n ∧ g' = { g with w := g.w ++ List.replicate (n - k) 0 })
      (fun k _ => k) ?_ ⟨le_rfl, ?_⟩ (Nat.lt_succ_self _)
    · rintro k _ ⟨within, rfl⟩
      split
      · next more =>
          refine Runs.step (drainRaw_vec _) (runs_pure ⟨⟨by omega, ?_⟩, by simp only; omega⟩)
          simp only [List.append_assoc, List.replicate_append_replicate]
          congr 3
          omega
      · next done =>
          rw [Nat.eq_zero_of_not_pos done, Nat.sub_zero]
          exact runs_pure rfl
    · rw [Nat.sub_self, List.replicate_zero, List.append_nil]
  cases run : drainZeros Sink.vec n g with
  | ok _ g' => rw [runs.ok run]
  | error e g' => exact (runs.error run).elim

theorem putZeros_putsOut {s : Writer (List UInt8)} (counted : s.compWritten < 2 ^ 64) (n : Nat) :
    PutsOut m (putZeros m Sink.vec n) (List.replicate n 0) s := by
  unfold putZeros
  have enough : n < n + 1 := Nat.lt_succ_self n
  revert enough
  generalize n + 1 = fuel
  intro enough
  induction fuel generalizing n s with
  | zero => exact absurd enough (Nat.not_lt_zero n)
  | succ fuel ih =>
      rw [runM]
      by_cases more : n > 0
      · rw [if_pos more]
        simp only [bind_assoc, pure_bind]
        have split : List.replicate n (0 : UInt8) =
            List.replicate (min n 4096) 0 ++ List.replicate (n - min n 4096) 0 := by
          rw [List.replicate_append_replicate, Nat.add_sub_cancel' (Nat.min_le_left _ _)]
        rw [split]
        refine (writeAllTracked_putsOut _).bind fun total count => ih ?_ _ (by omega)
        rw [Machine.unsigned_eq_some count]
        exact Nat.mod_lt _ (by norm_num)
      · obtain rfl : n = 0 := Nat.eq_zero_of_not_pos more
        rw [if_neg more]
        refine .counted (Machine.unsigned_ok m counted) ?_
        rw [List.replicate_zero, List.append_nil]
        rfl

theorem putPadding_putsOut {s : Writer (List UInt8)} (n : Nat) :
    PutsOut m (putPadding m Sink.vec n)
      (chunkTypePadding :: chunkLength n ++ List.replicate n 0) s := by
  refine (writeAllTracked_putsOut _).bind fun total count => putZeros_putsOut ?_ n
  rw [Machine.unsigned_eq_some count]
  exact Nat.mod_lt _ (by norm_num)

/-- The padding, which the writer thread counts when it has been written. -/
theorem together_padding : Together b t (fun _ _ => True)
    (if b.padding > 1 then emitMtPadding m Sink.vec b.padding else pure ()) (emitPadding m Sink.vec)
    g := by
  unfold emitPadding emitMtPadding
  by_cases few : b.padding > 1
  · rw [if_pos few]
    refine together_get ?_
    have padding : (alone b t g).padding = b.padding := rfl
    have written : (alone b t g).compWritten = g.compWritten := rfl
    simp only [padding, written]
    set leftover := g.compWritten % b.padding with spare
    set toAdd := padTo b.padding (b.padding - leftover) with added
    by_cases none : leftover = 0
    · rw [if_pos none, if_pos (.inr (.inl none))]
      exact together_pure trivial
    · rw [if_neg none]
      by_cases long : toAdd > maxBlockSize + chunkHeaderSize
      · rw [if_pos long, if_pos (.inr (.inr long))]
        exact together_pure trivial
      · rw [if_neg long, if_neg (by omega)]
        have room : 4 ≤ toAdd := (padTo_bounds (by omega : 0 < b.padding) _).1
        set n := toAdd - chunkHeaderSize with body
        set header := chunkTypePadding :: chunkLength n with first
        have length : (header ++ List.replicate n 0).length = toAdd := by
          rw [List.length_append, List.length_replicate]
          show 4 + (toAdd - 4) = toAdd
          omega
        have thread : (do
            drainRaw Sink.vec header
            drainZeros Sink.vec n
            drainCount m toAdd : Put (List UInt8) Unit) g =
            drainCount m toAdd { g with w := g.w ++ (header ++ List.replicate n 0) } := by
          rw [bind_ok (drainRaw_vec header), bind_ok (drainZeros_vec n), List.append_assoc]
        cases putPadding_putsOut (m := m) (s := alone b t g) n with
        | @counted total count run =>
            rw [length] at count
            exact .ok (thread.trans (drainCount_ok count)) run trivial
        | overflow count run =>
            rw [length] at count
            exact .error (thread.trans (drainCount_error count)) run
  · rw [if_neg few]
    refine .ok (c := ()) rfl ?_ trivial
    have small : (alone b t g).padding < 2 := by
      show b.padding < 2
      omega
    exact (get_bind _ _).trans (by rw [if_pos (.inl small)]; rfl)

/-- A step that is made or not before what comes next. -/
theorem ite_bind_unit {p : Prop} [Decidable p] (x : Put (List UInt8) Unit)
    (next : Put (List UInt8) Unit) :
    (if p then x >>= fun _ => next else next) = (if p then x else pure ()) >>= fun _ => next := by
  split <;> rfl

/-- What the writer thread does at the end is the rest of `close_inner`. -/
theorem together_end (even : g.uncompWritten = t.uncompWritten) :
    Together b t (fun _ _ => True) (drainEnd m Sink.vec b.padding b.appendIndex)
      (closeTail m Sink.vec g.index.isSome) g := by
  unfold drainEnd closeTail
  refine (together_index even).bind ?_
  intro idxBytes bytes g1 same
  simp only [ite_bind_unit]
  refine together_padding.bind fun _ _ g2 _ => ?_
  have appends : (alone b t g2).appendIndex = b.appendIndex := rfl
  cases idxBytes with
  | nil =>
      have put : putIndex Sink.vec bytes (alone b t g2) = .ok () (alone b t g2) := by
        refine (get_bind _ _).trans ?_
        rw [appends, if_neg]
        · rfl
        · rintro ⟨wanted, more⟩
          rw [if_pos wanted] at same
          exact more same.symm
      exact .ok rfl (bind_ok put) trivial
  | cons byte rest =>
      have wanted : b.appendIndex = true := by
        by_contra other
        rw [if_neg other] at same
        cases same
      rw [if_pos wanted] at same
      subst same
      have put : putIndex Sink.vec (byte :: rest) (alone b t g2) =
          .ok () (alone b t { g2 with w := g2.w ++ byte :: rest }) := by
        refine (get_bind _ _).trans ?_
        rw [appends, if_pos ⟨wanted, List.cons_ne_nil _ _⟩]
        exact putRaw_vec (byte :: rest)
      exact .ok (bind_ok (drainRaw_vec (byte :: rest))) (bind_ok put) trivial

end Closing

section Unbuilt

variable {m : Overflow} {s s1 s2 : Writer (List UInt8)}

/-- The padding does not depend on the index. -/
theorem emitPadding_index (index : Option Index)
    (run : emitPadding m Sink.vec { s with index } = .ok () s2) :
    emitPadding m Sink.vec s = .ok () { s2 with index := s.index } := by
  have unfolds (s : Writer (List UInt8)) : emitPadding m Sink.vec s =
      (if s.padding < 2 ∨ s.compWritten % s.padding = 0 ∨
          padTo s.padding (s.padding - s.compWritten % s.padding) > maxBlockSize + chunkHeaderSize
        then pure () else putPadding m Sink.vec
          (padTo s.padding (s.padding - s.compWritten % s.padding) - chunkHeaderSize) :
        Emit (List UInt8) Unit) s := rfl
  rw [unfolds] at run ⊢
  simp only at run
  set n := padTo s.padding (s.padding - s.compWritten % s.padding) - chunkHeaderSize with body
  split at run
  · next none =>
      cases run
      rw [if_pos none]
      rfl
  · next some =>
      rw [if_neg some]
      cases putPadding_putsOut (m := m) (s := { s with index }) n with
      | overflow count puts => cases puts.symm.trans run
      | counted count puts =>
          cases puts.symm.trans run
          cases putPadding_putsOut (m := m) (s := s) n with
          | overflow count' _ => cases count.symm.trans count'
          | counted count' puts' =>
              cases count.symm.trans count'
              exact puts'

theorem buildIndexBytes_unwanted (unwanted : s.appendIndex = false) (buildIndex : Bool) :
    Runs (buildIndexBytes m buildIndex) s (fun _ s' => ∃ index, s' = { s with index })
      fun _ _ => True := by
  refine Runs.step rfl ?_
  split
  · exact runs_pure ⟨s.index, rfl⟩
  · split
    · exact runs_error rfl trivial
    · refine (runs_lift (Q := fun _ s' => s' = s) ?_).bind ?_
      · generalize ofIndex _ = r
        cases r with
        | ok a => exact exits_ok rfl
        | error e => exact exits_error trivial
      · rintro ⟨idx, bytes⟩ _ rfl
        refine Runs.step rfl ?_
        simp only [unwanted, Bool.false_eq_true, if_false]
        exact runs_pure ⟨some idx, rfl⟩

/-- An index that is built and not appended leaves no trace in the stream. -/
theorem closeTail_unbuilt (unwanted : s.appendIndex = false) {bytes : List UInt8}
    (run : closeTail m Sink.vec true s = .ok bytes s2) :
    ∃ s3, closeTail m Sink.vec false s = .ok [] s3 ∧ s3.w = s2.w := by
  obtain ⟨bytes', s1, built, rest⟩ := run_bind_ok run
  obtain ⟨_, s4, padded, last⟩ := run_bind_ok rest
  obtain ⟨index, rfl⟩ := (buildIndexBytes_unwanted unwanted true).ok built
  have pads := emitPadding_index index padded
  have kept : s4.appendIndex = false :=
    (((emitPadding_emission m Sink.vec).run _).ok padded).options.appendIndex.trans unwanted
  have nothing {s : Writer (List UInt8)} (unwanted : s.appendIndex = false) (bytes : List UInt8) :
      (do
        putIndex Sink.vec bytes
        flushSink Sink.vec
        return bytes) s = .ok bytes s := by
    refine (bind_ok (?_ : putIndex Sink.vec bytes s = .ok () s)).trans rfl
    refine (get_bind _ _).trans ?_
    rw [if_neg (fun both => Bool.false_ne_true (unwanted.symm.trans both.1))]
    rfl
  cases (nothing kept bytes').symm.trans last
  refine ⟨{ s2 with index := s.index }, ?_, rfl⟩
  refine (bind_ok (rfl : buildIndexBytes m false s = .ok [] s)).trans ((bind_ok pads).trans ?_)
  exact nothing (s := { s2 with index := s.index }) kept []

theorem runWrites_optional {σ : Type} (m : Overflow) (sink : Sink σ) (calls : List WriterCall) :
    Optional (runWrites m sink calls) := by
  induction calls with
  | nil => exact moves_pure sameOptions_flow _
  | cons call calls ih =>
      rw [runWrites]
      split
      · exact (call.optional m sink).bind sameOptions_flow fun _ => ih
      · exact ih

/-- The calls and `finish`, cut before the index. -/
theorem session_split (m : Overflow) {calls : List WriterCall} {s0 : Writer (List UInt8)}
    {stream : List UInt8} :
    session m calls s0 = .ok stream s2 ↔ ∃ bytes s1, sessionFront m Sink.vec calls s0 = .ok () s1 ∧
      closeTail m Sink.vec s0.appendIndex s1 = .ok bytes s2 ∧ s2.w = stream := by
  have same : session m calls s0 = (do
      sessionFront m Sink.vec calls
      let _ ← closeTail m Sink.vec s0.appendIndex
      return (← get).w : Emit (List UInt8) (List UInt8)) s0 := by
    simp only [session, sessionFront, finish, closeInner_eq, bind_assoc]
    refine bind_congr_run fun _ s1 ran => bind_congr_run fun _ s3 checked => ?_
    have options : SameOptions s0 s3 := by
      have calls := ((runWrites_optional m Sink.vec calls).run s0).ok ran
      exact calls.trans ((checkWriter_emission.run s1).ok checked).options
    rw [get_bind, options.appendIndex]
  rw [same]
  constructor
  · intro run
    obtain ⟨_, s1, front, run⟩ := run_bind_ok run
    obtain ⟨bytes, s3, tail, run⟩ := run_bind_ok run
    cases run
    exact ⟨bytes, s1, front, tail, rfl⟩
  · rintro ⟨bytes, s1, front, tail, rfl⟩
    exact (bind_ok front).trans ((bind_ok tail).trans rfl)

end Unbuilt

section Sessions

variable {b : MtWriterBuilder} {self : MtWriter}

theorem build_abreast (built : b.build = .ok self) :
    Abreast b self (newDrain b []) (newWriter [] b.shared) ∧
      b.shared.build ([] : List UInt8) = .ok (newWriter [] b.shared) := by
  unfold MtWriterBuilder.build at built
  split at built
  · cases built
  · next sized =>
      split at built
      · cases built
      · next padded =>
          split at built
          · cases built
          · next some =>
              cases built
              refine ⟨⟨rfl, rfl, Nat.pos_of_ne_zero some⟩, ?_⟩
              exact (if_neg sized).trans (if_neg padded)

/-- The writer thread closes as the single-threaded writer does that builds its index. -/
theorem close_alone {m : Overflow} {t : MtWriter} {g : Drain (List UInt8)}
    {s : Writer (List UInt8)} (h : Abreast b t g s) {stream : List UInt8} :
    (mtStages m Sink.vec b).close g = .ok stream ↔
      ∃ bytes s2, closeTail m Sink.vec g.index.isSome s = .ok bytes s2 ∧ s2.w = stream := by
  obtain ⟨rfl, even, _⟩ := h
  show (drained (drainEnd m Sink.vec b.padding b.appendIndex) g).map Drain.w = _ ↔ _
  cases together_end (m := m) (b := b) even with
  | ok left right _ =>
      rw [drained, left]
      constructor
      · intro closed
        cases closed
        exact ⟨_, _, right, rfl⟩
      · rintro ⟨bytes, s2, closed, rfl⟩
        cases right.symm.trans closed
        rfl
  | error left right =>
      rw [drained, left]
      constructor
      · intro closed
        cases closed
      · rintro ⟨bytes, s2, closed, _⟩
        cases right.symm.trans closed

theorem sessionFront_index (m : Overflow) {calls : List WriterCall} {s : Writer (List UInt8)}
    (front : sessionFront m Sink.vec calls (newWriter [] b.shared) = .ok () s) :
    s.index.isSome = (b.generateIndex || b.appendIndex) ∧ s.appendIndex = b.appendIndex := by
  obtain ⟨_, s1, ran, rest⟩ := run_bind_ok front
  obtain ⟨_, s2, checked, rest⟩ := run_bind_ok rest
  obtain ⟨_, s3, flushed, rest⟩ := run_bind_ok rest
  obtain ⟨_, s4, begun, ended⟩ := run_bind_ok rest
  have options := (((((runWrites_optional m Sink.vec calls).run _).ok ran).trans
    ((checkWriter_emission.run _).ok checked).options).trans
    (((flushIbuf_optional m Sink.vec).run _).ok flushed)).trans
    ((((ensureHeader_emission m Sink.vec).run _).ok begun).options.trans
      (((emitEof_emission m Sink.vec).run _).ok ended).options)
  refine ⟨options.indexed.trans ?_, options.appendIndex⟩
  show (if (b.generateIndex || b.appendIndex) = true then some (Index.reset b.blockSize)
    else none).isSome = _
  cases b.generateIndex || b.appendIndex <;> rfl

/-- The index of a stream that is not too long can be built. -/
theorem closeTail_builds (m : Overflow) {b : WriterBuilder} {s s1 : Writer (List UInt8)}
    (built : b.build [] = .ok s) {calls : List WriterCall} (codec : Contract b.level)
    (small : cost (calls.flatMap WriterCall.items) < 2 ^ 59) (generated : b.generateIndex = true)
    (front : sessionFront m Sink.vec calls s = .ok () s1) :
    ∃ bytes s2, closeTail m Sink.vec true s1 = .ok bytes s2 := by
  obtain ⟨empty, pos, padded⟩ := build_takes built
  have taken := empty.runWrites m pos calls
  rw [List.nil_append] at taken
  have runs : Runs (sessionFront m Sink.vec calls >>= fun _ => closeTail m Sink.vec true) s
      (fun _ _ => True) fun _ _ => Excess b (calls.flatMap WriterCall.items) := by
    rw [sessionFront]
    simp only [bind_assoc]
    refine taken.bind fun _ s' taken => Runs.step (checkWriter_clear taken.err) ?_
    rw [← closeInner_eq]
    exact (taken.closeInner m pos padded (fun _ => by rw [generated, Bool.true_or])
      fun _ => rfl).mono (fun _ _ _ => trivial) fun _ _ excess => excess
  cases tail : closeTail m Sink.vec true s1 with
  | ok bytes s2 => exact ⟨bytes, s2, rfl⟩
  | error e s2 =>
      have past := runs.error ((bind_ok front).trans tail) codec
      rw [WriterBuilder.streamLimit] at past
      split at past <;> omega

/-- When the caller's thread has succeeded and the writer thread can do with its items, the
    single-threaded writer has succeeded too. -/
theorem led_session (m : Overflow) (built : b.build = .ok self) (calls : List WriterCall)
    {items : List OrderItem} {answered : List (Except IoError Unit)} {self' : MtWriter}
    {g1 : Drain (List UInt8)} {stream : List UInt8}
    (leads : (mtSession m (calls.map WriterCall.mt) self).Leads items (.done (.ok answered, self')))
    (eaten : (mtStages m Sink.vec b).eatAll (newDrain b []) items = .ok g1)
    (closed : (mtStages m Sink.vec b).close g1 = .ok stream) :
    Answers calls answered ∧ ∃ w', session m calls (newWriter [] b.shared) = .ok stream w' := by
  obtain ⟨abreast, _⟩ := build_abreast built
  obtain ⟨results, answers, twin⟩ := session_alone m b calls
  have known : (newWriter ([] : List UInt8) b.shared).appendIndex = b.appendIndex := rfl
  obtain ⟨s1, ran, related⟩ := (twin _ _ _ abreast).led leads eaten
  obtain ⟨_, s1', front, same⟩ := run_bind_ok ran
  cases same
  refine ⟨answers, ?_⟩
  obtain ⟨bytes, s2, tail, rfl⟩ := (close_alone related).mp closed
  have index : s1.index = g1.index := by rw [related.same]; rfl
  obtain ⟨indexed, appends⟩ := sessionFront_index m front
  rw [← index, indexed] at tail
  by_cases wanted : b.appendIndex = true
  · rw [wanted, Bool.or_true] at tail
    exact ⟨s2, (session_split m).mpr ⟨bytes, s1, front, by rwa [known, wanted], rfl⟩⟩
  · rw [Bool.not_eq_true] at wanted
    rw [wanted, Bool.or_false] at tail
    cases generated : b.generateIndex with
    | false =>
        rw [generated] at tail
        exact ⟨s2, (session_split m).mpr ⟨bytes, s1, front, by rwa [known, wanted], rfl⟩⟩
    | true =>
        rw [generated] at tail
        obtain ⟨s3, tail', same⟩ := closeTail_unbuilt (appends.trans wanted) tail
        exact ⟨s3, (session_split m).mpr ⟨[], s1, front, by rwa [known, wanted], same⟩⟩

theorem mtFinish_ok {σ α : Type} {submitted : Except (Stop IoError) α × MtWriter}
    {result : Except (Stop IoError) σ} {w : σ} (finished : mtFinish submitted result = .ok w) :
    (∃ a, submitted.1 = .ok a) ∧ result = .ok w := by
  unfold mtFinish at finished
  split at finished
  · cases finished
  · next a _ answered =>
      cases finished
      exact ⟨⟨a, answered⟩, rfl⟩
  · cases finished
  · cases finished

/-- However the threads take turns, `finish` gives the stream of the single-threaded writer
    for the same calls, and only the calls that are refused have failed. It can fail where
    the other does not when it builds an index that is not appended. -/
theorem written_together (m : Overflow) (built : b.build = .ok self) (calls : List WriterCall)
    {s : State OrderItem ReadyItem (Drain (List UInt8)) (List UInt8) (Stop IoError) _}
    {submitted : Except (Stop IoError) (List (Except IoError Unit)) × MtWriter}
    {result : Except (Stop IoError) (List UInt8)}
    (run : Run (mtStages m Sink.vec b) (b.concurrency + 1)
      (start (mtSession m (calls.map WriterCall.mt) self) (newDrain b [])) s)
    (ended : Ended s submitted result) :
    (∀ stream, mtFinish submitted result = .ok stream →
      (∃ results, submitted.1 = .ok results ∧ Answers calls results) ∧
      ∃ w', session m calls (newWriter [] b.shared) = .ok stream w') ∧
    ∀ stream w', session m calls (newWriter [] b.shared) = .ok stream w' →
      (b.generateIndex = true → b.appendIndex = true ∨
        Contract b.level ∧ cost (calls.flatMap WriterCall.items) < 2 ^ 59) →
      mtFinish submitted result = .ok stream := by
  obtain ⟨outcome, self'⟩ := submitted
  constructor
  · intro stream finished
    obtain ⟨⟨answered, same⟩, rfl⟩ := mtFinish_ok finished
    obtain rfl : outcome = .ok answered := same
    obtain ⟨items, g1, leads, eaten, closed⟩ := ended_ok run ended
    obtain ⟨answers, w', ran⟩ := led_session m built calls leads eaten closed
    exact ⟨⟨answered, rfl, answers⟩, w', ran⟩
  · intro stream w' ran indexes
    obtain ⟨abreast, built'⟩ := build_abreast built
    obtain ⟨results, answers, twin⟩ := session_alone m b calls
    have twin := twin _ _ _ abreast
    have known : (newWriter ([] : List UInt8) b.shared).appendIndex = b.appendIndex := rfl
    obtain ⟨bytes, s1, front, tail, rfl⟩ := (session_split m).mp ran
    obtain ⟨indexed, appends⟩ := sessionFront_index m front
    rw [known] at tail
    have closes : ∃ bytes s2,
        closeTail m Sink.vec (b.generateIndex || b.appendIndex) s1 = .ok bytes s2 ∧ s2.w = w'.w := by
      by_cases wanted : b.appendIndex = true
      · rw [wanted] at tail
        exact ⟨bytes, w', by rwa [wanted, Bool.or_true], rfl⟩
      · have unwanted := Bool.not_eq_true _ ▸ wanted
        rw [unwanted] at tail
        rw [unwanted, Bool.or_false]
        cases generated : b.generateIndex with
        | false => exact ⟨bytes, w', tail, rfl⟩
        | true =>
            obtain ⟨codec, small⟩ := (indexes generated).resolve_left wanted
            obtain ⟨bytes', s2, built⟩ := closeTail_builds m built' codec small generated front
            obtain ⟨s3, tail', same⟩ := closeTail_unbuilt (appends.trans unwanted) built
            cases tail'.symm.trans tail
            exact ⟨bytes', s2, built, same.symm⟩
    have ready : (sessionFront m Sink.vec calls >>= fun _ => pure results)
        (newWriter [] b.shared) = .ok results s1 := (bind_ok front).trans rfl
    have success := twin.succeeds ready (D := fun d => d = w'.w) (fun t' g' related => ?_) run ended
    · obtain ⟨rfl, _, rfl, rfl⟩ := success
      rfl
    · have index : s1.index = g'.index := by rw [related.same]; rfl
      rw [← indexed, index] at closes
      exact ⟨_, (close_alone related).mpr closes, rfl⟩

/-- Two workers, a refused call, and an index at the end. -/
theorem written_together_few : ∃ stream w',
    session .panics [.write [1, 2, 3], .addUserChunk 0 [], .flush, .write [4]]
      (newWriter [] { level := .fastest, appendIndex := true }) = .ok stream w' ∧
    MtProduces .panics Sink.vec { level := .fastest, appendIndex := true, concurrency := 2 } []
      ([.write [1, 2, 3], .addUserChunk 0 [], .flush, .write [4]].map WriterCall.mt)
      (.ok stream) := by
  have done : ((session .panics [.write [1, 2, 3], .addUserChunk 0 [], .flush, .write [4]]).run'
      (newWriter [] { level := .fastest, appendIndex := true })).isSome = true := by
    decide +kernel
  obtain ⟨stream, result⟩ := Option.isSome_iff_exists.mp done
  obtain ⟨w', ran⟩ := ok_of_run' result
  obtain ⟨_, tended⟩ := session_tended .panics Sink.vec
    (b := { level := .fastest, appendIndex := true, concurrency := 2 }) rfl []
    ([.write [1, 2, 3], .addUserChunk 0 [], .flush, .write [4]].map WriterCall.mt) (.refl _)
  obtain ⟨t, submitted, result, run, ended⟩ := tended.ends (Nat.succ_pos _)
  have finished := (written_together .panics rfl _ run ended).2 stream w' ran fun _ => .inl rfl
  exact ⟨stream, w', ran, finished ▸ .finished rfl run ended⟩

end Sessions

section Logging

variable {σ : Type} {m : Overflow} {sink : Sink σ} {b : MtWriterBuilder} {g g' : Drain (Logged σ)}

/-- The writer thread as it is when its sink is a vector. -/
def Drain.onVec (g : Drain (Logged σ)) : Drain (List UInt8) where
  w := g.w.taken
  compWritten := g.compWritten
  uncompWritten := g.uncompWritten
  index := g.index

/-- No call on the sink has failed. -/
structure Unfailed (g : Drain (Logged σ)) : Prop where
  fine : ¬g.w.Failed

/-- On a vector the step is the same, unless a call on the sink fails. -/
abbrev DrainsOnVec {α : Type} (x : Put (Logged σ) α) (y : Put (List UInt8) α)
    (g : Drain (Logged σ)) : Prop :=
  Mirrors Drain.onVec Unfailed (fun _ => True) x y g

theorem drainRaw_onVec (h : Unfailed g) (p : List UInt8) :
    DrainsOnVec (drainRaw sink.logged p) (drainRaw Sink.vec p) g := by
  rcases result : sink.writeAll p g.w.w with ⟨e | _, w⟩
  · have run : drainRaw sink.logged p g = .error (.error e)
        { g with w := ⟨w, g.w.calls ++ [(p, false)]⟩ } := by
      simp only [drainRaw, Sink.logged, result]
    exact mirrors_broken run trivial
  · have run : drainRaw sink.logged p g = .ok () { g with w := ⟨w, g.w.calls ++ [(p, true)]⟩ } := by
      simp only [drainRaw, Sink.logged, result]
    refine mirrors_ok run ?_ ⟨?_⟩
    · rw [drainRaw_vec, Drain.onVec, Drain.onVec, taken_snoc]
      rfl
    · rintro ⟨q, mem⟩
      rcases List.mem_append.mp mem with mem | mem
      · exact h.fine ⟨q, mem⟩
      · cases List.mem_singleton.mp mem

theorem drainCount_onVec (h : Unfailed g) (n : Nat) :
    DrainsOnVec (drainCount m n) (drainCount m n) g := by
  refine Mirrors.step rfl rfl ?_
  rw [show g.onVec.compWritten = g.compWritten from rfl]
  exact (mirrors_lift _ h).bind fun total g1 h => mirrors_modify rfl ⟨h.fine⟩

theorem drainIndex_onVec (h : Unfailed g) : DrainsOnVec (drainIndex m) (drainIndex m) g := by
  refine Mirrors.step rfl rfl ?_
  have same : g.onVec.index = g.index := rfl
  cases known : g.index with
  | none =>
      rw [known] at same
      simp only [same]
      exact mirrors_pure () h
  | some idx =>
      rw [known] at same
      simp only [same]
      exact (mirrors_lift _ h).bind fun idx' g1 h => mirrors_modify rfl ⟨h.fine⟩

theorem drainItem_onVec (h : Unfailed g) (item : ReadyItem) :
    DrainsOnVec (drainItem m sink.logged item) (drainItem m Sink.vec item) g := by
  cases item with
  | raw bytes => exact (drainRaw_onVec h bytes).bind fun _ _ h => drainCount_onVec h _
  | marker message => exact mirrors_error rfl rfl h
  | block out =>
      refine (drainIndex_onVec h).bind fun _ _ h => ?_
      refine (drainRaw_onVec h out.hdr).bind fun _ _ h => ?_
      refine (drainRaw_onVec h out.body).bind fun _ _ h => ?_
      refine (drainCount_onVec h _).bind fun _ g1 h => ?_
      refine Mirrors.step rfl rfl ?_
      rw [show g1.onVec.uncompWritten = g1.uncompWritten from rfl]
      exact (mirrors_lift _ h).bind fun total g2 h => mirrors_modify rfl ⟨h.fine⟩

theorem drainIndexBytes_onVec (h : Unfailed g) (padding : Nat) (appendIndex : Bool) :
    DrainsOnVec (drainIndexBytes m padding appendIndex) (drainIndexBytes m padding appendIndex)
      g := by
  refine Mirrors.step rfl rfl ?_
  have same : g.onVec.index = g.index := rfl
  cases known : g.index with
  | none =>
      rw [known] at same
      simp only [same]
      exact mirrors_pure _ h
  | some idx =>
      rw [known] at same
      simp only [same]
      refine (mirrors_lift _ h).bind fun r g1 h => ?_
      refine Mirrors.bind (mirrors_modify rfl ⟨h.fine⟩) fun _ g2 h => ?_
      split
      · exact (drainCount_onVec h _).bind fun _ _ h => mirrors_pure _ h
      · exact mirrors_pure _ h

theorem drainZeros_onVec (h : Unfailed g) (n : Nat) :
    DrainsOnVec (drainZeros sink.logged n) (drainZeros Sink.vec n) g := by
  refine mirrors_runM (fun remaining g h => ?_) _ _ h
  split
  · exact (drainRaw_onVec h _).bind fun _ _ h => mirrors_pure _ h
  · exact mirrors_pure _ h

theorem emitMtPadding_onVec (h : Unfailed g) (multiple : Nat) :
    DrainsOnVec (emitMtPadding m sink.logged multiple) (emitMtPadding m Sink.vec multiple) g := by
  refine Mirrors.step rfl rfl ?_
  rw [show g.onVec.compWritten = g.compWritten from rfl]
  simp only
  split
  · exact mirrors_pure () h
  · split
    · exact mirrors_pure () h
    · refine (drainRaw_onVec h _).bind fun _ _ h => ?_
      exact (drainZeros_onVec h _).bind fun _ _ h => drainCount_onVec h _

/-- The last thing that the writer thread does with its sink. -/
def drainFlush {σ : Type} (sink : Sink σ) : Put σ Unit := fun s =>
  match sink.flush s.w with
  | (.ok (), w) => .ok () { s with w }
  | (.error e, w) => .error (.error e) { s with w }

theorem drainFlush_onVec (h : Unfailed g) :
    DrainsOnVec (drainFlush sink.logged) (drainFlush Sink.vec) g := by
  rcases result : sink.flush g.w.w with ⟨e | _, w⟩
  · have run : drainFlush sink.logged g = .error (.error e) { g with w := { g.w with w } } := by
      simp only [drainFlush, Sink.logged, result]
    exact mirrors_broken run trivial
  · have run : drainFlush sink.logged g = .ok () { g with w := { g.w with w } } := by
      simp only [drainFlush, Sink.logged, result]
    exact mirrors_ok run rfl ⟨h.fine⟩

theorem drainEnd_onVec (h : Unfailed g) (padding : Nat) (appendIndex : Bool) :
    DrainsOnVec (drainEnd m sink.logged padding appendIndex)
      (drainEnd m Sink.vec padding appendIndex) g := by
  refine (drainIndexBytes_onVec h padding appendIndex).bind fun idxBytes g1 h => ?_
  by_cases padded : padding > 1
  · simp only [if_pos padded]
    refine (emitMtPadding_onVec h padding).bind fun _ g2 h => ?_
    cases idxBytes with
    | nil => exact drainFlush_onVec h
    | cons byte rest => exact (drainRaw_onVec h _).bind fun _ _ h => drainFlush_onVec h
  · simp only [if_neg padded]
    cases idxBytes with
    | nil => exact drainFlush_onVec h
    | cons byte rest => exact (drainRaw_onVec h _).bind fun _ _ h => drainFlush_onVec h

theorem drained_onVec {x : Put (Logged σ) Unit} {y : Put (List UInt8) Unit}
    (same : DrainsOnVec x y g) (run : drained x g = .ok g') :
    drained y g.onVec = .ok g'.onVec ∧ Unfailed g' := by
  unfold drained at run
  cases ran : x g with
  | error e g1 =>
      rw [ran] at run
      cases run
  | ok a g1 =>
      rw [ran] at run
      cases run
      obtain ⟨other, h⟩ := same.ok ran
      rw [drained, other]
      exact ⟨rfl, h⟩

theorem eatAll_onVec (items : List OrderItem) (h : Unfailed g)
    (eaten : (mtStages m sink.logged b).eatAll g items = .ok g') :
    (mtStages m Sink.vec b).eatAll g.onVec items = .ok g'.onVec ∧ Unfailed g' := by
  induction items generalizing g with
  | nil =>
      cases eaten
      exact ⟨rfl, h⟩
  | cons item items ih =>
      have same : (mtStages m sink.logged b).result item = (mtStages m Sink.vec b).result item := rfl
      rw [Stages.eatAll, same] at eaten
      rw [Stages.eatAll]
      cases made : (mtStages m Sink.vec b).result item with
      | none =>
          rw [made] at eaten
          cases eaten
      | some r =>
          rw [made] at eaten
          have eaten : drained (drainItem m sink.logged r) g >>= (fun g =>
              (mtStages m sink.logged b).eatAll g items) = .ok g' := eaten
          cases run : drained (drainItem m sink.logged r) g with
          | error e =>
              rw [run] at eaten
              cases eaten
          | ok g1 =>
              rw [run] at eaten
              obtain ⟨other, h⟩ := drained_onVec (drainItem_onVec h r) run
              obtain ⟨rest, h⟩ := ih h eaten
              refine ⟨?_, h⟩
              show drained (drainItem m Sink.vec r) g.onVec >>= _ = _
              rw [other]
              exact rest

theorem close_onVec (h : Unfailed g) {l : Logged σ}
    (closed : (mtStages m sink.logged b).close g = .ok l) :
    (mtStages m Sink.vec b).close g.onVec = .ok l.taken ∧ ¬l.Failed := by
  have closed : (drained (drainEnd m sink.logged b.padding b.appendIndex) g).map Drain.w = .ok l :=
    closed
  cases run : drained (drainEnd m sink.logged b.padding b.appendIndex) g with
  | error e =>
      rw [run] at closed
      cases closed
  | ok g' =>
      rw [run] at closed
      cases closed
      obtain ⟨other, h⟩ := drained_onVec (drainEnd_onVec h _ _) run
      refine ⟨?_, h.fine⟩
      show (drained (drainEnd m Sink.vec b.padding b.appendIndex) g.onVec).map Drain.w = _
      rw [other]
      rfl

/-- However the threads take turns and whichever calls on the sink fail: when `finish`
    succeeds, the sink has accepted every call, and has been given the whole stream of the
    single-threaded writer. -/
theorem written_whole (m : Overflow) (sink : Sink σ) {self : MtWriter} (built : b.build = .ok self)
    (w : σ) (calls : List WriterCall)
    {s : State OrderItem ReadyItem (Drain (Logged σ)) (Logged σ) (Stop IoError) _}
    {submitted : Except (Stop IoError) (List (Except IoError Unit)) × MtWriter}
    {result : Except (Stop IoError) (Logged σ)}
    (run : Run (mtStages m sink.logged b) (b.concurrency + 1)
      (start (mtSession m (calls.map WriterCall.mt) self) (newDrain b ⟨w, []⟩)) s)
    (ended : Ended s submitted result) {l : Logged σ}
    (finished : mtFinish submitted result = .ok l) :
    ¬l.Failed ∧ (∃ results, submitted.1 = .ok results ∧ Answers calls results) ∧
      ∃ w', session m calls (newWriter [] b.shared) = .ok l.taken w' := by
  obtain ⟨outcome, self'⟩ := submitted
  obtain ⟨⟨answered, same⟩, rfl⟩ := mtFinish_ok finished
  obtain rfl : outcome = .ok answered := same
  obtain ⟨items, g1, leads, eaten, closed⟩ := ended_ok run ended
  have start : Unfailed (newDrain b (⟨w, []⟩ : Logged σ)) := ⟨fun ⟨_, mem⟩ => by cases mem⟩
  obtain ⟨eaten, fine⟩ := eatAll_onVec items start eaten
  obtain ⟨closed, fine⟩ := close_onVec fine closed
  obtain ⟨answers, w', ran⟩ := led_session m built calls leads eaten closed
  exact ⟨fine, ⟨answered, rfl, answers⟩, w', ran⟩

/-- A sink with room for the stream. -/
theorem written_whole_room : ∃ l w',
    MtProduces .panics Sink.room.logged { level := .fastest, concurrency := 2 } ⟨100, []⟩
      ([.write [1, 2, 3], .addUserChunk 0x80 [7], .write [4]].map WriterCall.mt) (.ok l) ∧
    ¬l.Failed ∧
    session .panics [.write [1, 2, 3], .addUserChunk 0x80 [7], .write [4]]
      (newWriter [] { level := .fastest }) = .ok l.taken w' := by
  have returns : ((played (mtStages .panics Sink.room.logged { level := .fastest, concurrency := 2 })
      3 (List.replicate 30 [Actor.handler, .worker 0, .worker 1, .consumer]).flatten
      (start (mtSession .panics
        ([.write [1, 2, 3], .addUserChunk 0x80 [7], .write [4]].map WriterCall.mt)
        (newMtWriter { level := .fastest, concurrency := 2 }))
        (newDrain { level := .fastest, concurrency := 2 } ⟨100, []⟩))).outcome 2).any
        (fun r => (mtFinish r.1 r.2).isOk) = true := by
    decide +kernel
  obtain ⟨⟨submitted, result⟩, known, fine⟩ := (Option.any_eq_true _ _).mp returns
  obtain ⟨s, run, ended⟩ := session_played .panics Sink.room.logged
    (b := { level := .fastest, concurrency := 2 }) rfl ⟨100, []⟩ _ _ known
  cases finished : mtFinish submitted result with
  | error e =>
      rw [finished] at fine
      cases fine
  | ok l =>
      obtain ⟨whole, -, w', ran⟩ := written_whole .panics Sink.room
        (b := { level := .fastest, concurrency := 2 }) rfl 100 _ run ended finished
      exact ⟨l, w', finished ▸ .finished rfl run ended, whole, ran⟩

end Logging

end MinLz.Stream
