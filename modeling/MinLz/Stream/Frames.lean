import MinLz.Stream.Produced

/-! # What a writer leaves alone

No call changes the options of a writer, whether it fails or not. What puts chunks out
also leaves the input buffer and the error alone when it does not fail.
-/

namespace MinLz.Stream

open Machine (Overflow)
open Effects

variable {σ : Type}

structure SameOptions (s s' : Writer σ) : Prop where
  blockSize : s'.blockSize = s.blockSize
  level : s'.level = s.level
  uncompressed : s'.uncompressed = s.uncompressed
  padding : s'.padding = s.padding
  flushOnWrite : s'.flushOnWrite = s.flushOnWrite
  appendIndex : s'.appendIndex = s.appendIndex
  indexed : s'.index.isSome = s.index.isSome

theorem sameOptions_refl (s : Writer σ) : SameOptions s s := ⟨rfl, rfl, rfl, rfl, rfl, rfl, rfl⟩

theorem SameOptions.trans {s t u : Writer σ} (h : SameOptions s t) (h' : SameOptions t u) :
    SameOptions s u :=
  ⟨h'.blockSize.trans h.blockSize, h'.level.trans h.level, h'.uncompressed.trans h.uncompressed,
    h'.padding.trans h.padding, h'.flushOnWrite.trans h.flushOnWrite,
    h'.appendIndex.trans h.appendIndex, h'.indexed.trans h.indexed⟩

theorem sameOptions_flow : Flow (SameOptions (σ := σ)) SameOptions :=
  ⟨sameOptions_refl, .trans, sameOptions_refl, .trans⟩

/-- Chunks have been put out. -/
structure Emits (s s' : Writer σ) : Prop where
  options : SameOptions s s'
  ibuf : s'.ibuf = s.ibuf
  err : s'.err = s.err
  header : s.wroteHeader = true → s'.wroteHeader = true

theorem emits_refl (s : Writer σ) : Emits s s := ⟨sameOptions_refl s, rfl, rfl, id⟩

theorem Emits.trans {s t u : Writer σ} (h : Emits s t) (h' : Emits t u) : Emits s u :=
  ⟨h.options.trans h'.options, h'.ibuf.trans h.ibuf, h'.err.trans h.err, h'.header ∘ h.header⟩

theorem emits_flow : Flow (Emits (σ := σ)) SameOptions :=
  ⟨emits_refl, .trans, sameOptions_refl, fun h h' => h.options.trans h'⟩

/-- What only puts out chunks. -/
abbrev Emission {α : Type} (x : Emit σ α) : Prop := Moves Emits SameOptions x

section Emissions

variable (m : Overflow) (sink : Sink σ)

theorem putRaw_emission (p : List UInt8) : Emission (putRaw sink p) := by
  refine moves_of fun s => ?_
  rcases result : sink.writeAll p s.w with ⟨e | _, w⟩
  · have run : putRaw sink p s = .error (.error e) { s with w, err := some e } := by
      simp only [putRaw, result]
    exact runs_error run ⟨rfl, rfl, rfl, rfl, rfl, rfl, rfl⟩
  · have run : putRaw sink p s = .ok () { s with w } := by
      simp only [putRaw, result]
    exact runs_ok run ⟨⟨rfl, rfl, rfl, rfl, rfl, rfl, rfl⟩, rfl, rfl, id⟩

theorem countWritten_emission (n : Nat) : Emission (σ := σ) (countWritten m n) := by
  refine (moves_get emits_flow).bind emits_flow fun self => ?_
  refine (moves_lift emits_flow _).bind emits_flow fun total => ?_
  exact moves_modify fun s => ⟨⟨rfl, rfl, rfl, rfl, rfl, rfl, rfl⟩, rfl, rfl, id⟩

theorem countAccepted_emission (n : Nat) : Emission (σ := σ) (countAccepted m n) := by
  refine (moves_get emits_flow).bind emits_flow fun self => ?_
  refine (moves_lift emits_flow _).bind emits_flow fun total => ?_
  exact moves_modify fun s => ⟨⟨rfl, rfl, rfl, rfl, rfl, rfl, rfl⟩, rfl, rfl, id⟩

theorem writeAllTracked_emission (p : List UInt8) : Emission (writeAllTracked m sink p) :=
  (putRaw_emission sink p).bind emits_flow fun _ => countWritten_emission m _

theorem ensureHeader_emission : Emission (ensureHeader m sink) := by
  refine (moves_get emits_flow).bind emits_flow fun self => moves_ite ?_ (moves_pure emits_flow _)
  refine (writeAllTracked_emission m sink _).bind emits_flow fun _ => ?_
  exact moves_modify fun s => ⟨⟨rfl, rfl, rfl, rfl, rfl, rfl, rfl⟩, rfl, rfl, fun _ => rfl⟩

theorem addToIndex_emission : Emission (σ := σ) (addToIndex m) := by
  refine moves_of fun s => ?_
  refine Runs.step rfl ?_
  cases known : s.index with
  | none => exact runs_pure (emits_refl s)
  | some idx =>
      simp only
      cases ofIndex (Index.add m idx s.compWritten s.uncompWritten) with
      | error e => exact runs_error (bind_error rfl) (sameOptions_refl s)
      | ok idx' =>
          refine Runs.step rfl (runs_ok rfl ⟨⟨rfl, rfl, rfl, rfl, rfl, rfl, ?_⟩, rfl, rfl, id⟩)
          rw [known]
          rfl

theorem emitBlock_emission (block : List UInt8) : Emission (emitBlock m sink block) := by
  refine (addToIndex_emission m).bind emits_flow fun _ => ?_
  refine (moves_get emits_flow).bind emits_flow fun self => ?_
  refine (moves_lift emits_flow _).bind emits_flow fun body => ?_
  cases body with
  | some body =>
      exact (writeAllTracked_emission m sink _).bind emits_flow fun _ =>
        writeAllTracked_emission m sink _
  | none =>
      exact (writeAllTracked_emission m sink _).bind emits_flow fun _ =>
        writeAllTracked_emission m sink _

theorem writeBlocks_emission (data : List UInt8) : Emission (writeBlocks m sink data) := by
  refine (ensureHeader_emission m sink).bind emits_flow fun _ => ?_
  refine moves_runM emits_flow (fun rest => ?_) _ _
  refine moves_ite (moves_pure emits_flow _) ?_
  refine (moves_get emits_flow).bind emits_flow fun self => ?_
  refine (emitBlock_emission m sink _).bind emits_flow fun _ => ?_
  exact (countAccepted_emission m _).bind emits_flow fun _ => moves_pure emits_flow _

theorem emitEof_emission : Emission (emitEof m sink) := by
  refine (moves_get emits_flow).bind emits_flow fun self => ?_
  exact (moves_lift emits_flow _).bind emits_flow fun _ => writeAllTracked_emission m sink _

theorem putZeros_emission (n : Nat) : Emission (putZeros m sink n) := by
  refine moves_runM emits_flow (fun remaining => ?_) _ _
  refine moves_ite ?_ (moves_pure emits_flow _)
  exact (writeAllTracked_emission m sink _).bind emits_flow fun _ => moves_pure emits_flow _

theorem emitPadding_emission : Emission (emitPadding m sink) := by
  refine (moves_get emits_flow).bind emits_flow fun self => ?_
  refine moves_ite (moves_pure emits_flow _) ?_
  exact (writeAllTracked_emission m sink _).bind emits_flow fun _ => putZeros_emission m sink _

theorem checkWriter_emission : Emission (σ := σ) checkWriter := by
  refine (moves_get emits_flow).bind emits_flow fun self => ?_
  cases self.err with
  | some e => exact moves_throw emits_flow _
  | none => exact moves_pure emits_flow _

theorem flushSink_emission : Emission (flushSink sink) := by
  refine moves_of fun s => ?_
  rcases result : sink.flush s.w with ⟨e | _, w⟩
  · have run : flushSink sink s = .error (.error e) { s with w } := by
      simp only [flushSink, result]
    exact runs_error run ⟨rfl, rfl, rfl, rfl, rfl, rfl, rfl⟩
  · have run : flushSink sink s = .ok () { s with w } := by
      simp only [flushSink, result]
    exact runs_ok run ⟨⟨rfl, rfl, rfl, rfl, rfl, rfl, rfl⟩, rfl, rfl, id⟩

theorem buildIndexBytes_emission (buildIndex : Bool) :
    Emission (σ := σ) (buildIndexBytes m buildIndex) := by
  refine moves_of fun s => ?_
  refine Runs.step rfl ?_
  split
  · exact runs_pure (emits_refl s)
  · cases known : s.index with
    | none => exact runs_error rfl (sameOptions_refl s)
    | some idx =>
        simp only
        cases ofIndex (Index.appendTo m idx [] (some s.uncompWritten)
            (if s.padding ≤ 1 then some s.compWritten else none)) with
        | error e => exact runs_error (bind_error rfl) (sameOptions_refl s)
        | ok r =>
            have first : Emits s { s with index := some r.1 } := by
              refine ⟨⟨rfl, rfl, rfl, rfl, rfl, rfl, ?_⟩, rfl, rfl, id⟩
              rw [known]
              rfl
            have rest : Emission (do
                if s.appendIndex then countWritten m r.2.length
                return r.2 : Emit σ (List UInt8)) := by
              refine moves_ite ?_ (moves_pure emits_flow _)
              exact (countWritten_emission m _).bind emits_flow fun _ => moves_pure emits_flow _
            refine Runs.step rfl (Runs.step rfl ((rest.run _).mono ?_ ?_))
            · exact fun _ _ h => first.trans h
            · exact fun _ _ h => first.options.trans h

theorem putIndex_emission (indexBytes : List UInt8) : Emission (putIndex sink indexBytes) :=
  (moves_get emits_flow).bind emits_flow fun _ =>
    moves_ite (putRaw_emission sink _) (moves_pure emits_flow _)

end Emissions

/-- What leaves the options alone. -/
abbrev Optional {α : Type} (x : Emit σ α) : Prop := Moves SameOptions SameOptions x

theorem Emission.optional {α : Type} {x : Emit σ α} (h : Emission x) : Optional x :=
  moves_of fun s => (h.run s).mono (fun _ _ h => h.options) fun _ _ h => h

section Calls

variable (m : Overflow) (sink : Sink σ)

theorem flushIbuf_optional : Optional (flushIbuf m sink) := by
  refine (moves_get sameOptions_flow).bind sameOptions_flow fun self => ?_
  refine moves_ite (moves_pure sameOptions_flow _) ?_
  refine (moves_modify fun s => ⟨rfl, rfl, rfl, rfl, rfl, rfl, rfl⟩).bind sameOptions_flow fun _ => ?_
  exact (writeBlocks_emission m sink _).optional

theorem closeInner_optional (buildIndex : Bool) : Optional (closeInner m sink buildIndex) := by
  refine (flushIbuf_optional m sink).bind sameOptions_flow fun _ => ?_
  refine Emission.optional ?_
  refine (ensureHeader_emission m sink).bind emits_flow fun _ => ?_
  refine (emitEof_emission m sink).bind emits_flow fun _ => ?_
  refine (buildIndexBytes_emission m _).bind emits_flow fun indexBytes => ?_
  refine (emitPadding_emission m sink).bind emits_flow fun _ => ?_
  refine (putIndex_emission sink _).bind emits_flow fun _ => ?_
  exact (flushSink_emission sink).bind emits_flow fun _ => moves_pure emits_flow _

theorem addUserChunk_optional (id : UInt8) (data : List UInt8) :
    Optional (addUserChunk m sink id data) := by
  refine moves_ite (moves_lift sameOptions_flow _) (moves_ite (moves_lift sameOptions_flow _) ?_)
  refine (Emission.optional checkWriter_emission).bind sameOptions_flow fun _ => ?_
  refine (flushIbuf_optional m sink).bind sameOptions_flow fun _ => Emission.optional ?_
  refine (ensureHeader_emission m sink).bind emits_flow fun _ => ?_
  exact (writeAllTracked_emission m sink _).bind emits_flow fun _ => writeAllTracked_emission m sink _

theorem closeIndex_optional : Optional (closeIndex m sink) := by
  refine (Emission.optional checkWriter_emission).bind sameOptions_flow fun _ => ?_
  refine (moves_get sameOptions_flow).bind sameOptions_flow fun _ => ?_
  exact moves_ite (moves_lift sameOptions_flow _) (closeInner_optional m sink _)

theorem writeStep_optional (t : List UInt8 × Nat) : Optional (writeStep m sink t) := by
  refine moves_ite (moves_pure sameOptions_flow _) ?_
  refine (moves_get sameOptions_flow).bind sameOptions_flow fun self => ?_
  refine (moves_lift sameOptions_flow _).bind sameOptions_flow fun free => moves_ite ?_ ?_
  · exact (writeBlocks_emission m sink _).optional.bind sameOptions_flow fun _ =>
      moves_pure sameOptions_flow _
  · refine (moves_modify fun s => ⟨rfl, rfl, rfl, rfl, rfl, rfl, rfl⟩).bind sameOptions_flow
      fun _ => (moves_get sameOptions_flow).bind sameOptions_flow fun _ => ?_
    refine moves_ite ?_ (moves_pure sameOptions_flow _)
    exact (flushIbuf_optional m sink).bind sameOptions_flow fun _ => moves_pure sameOptions_flow _

theorem write_optional (p : List UInt8) : Optional (write m sink p) := by
  refine (Emission.optional checkWriter_emission).bind sameOptions_flow fun _ => ?_
  refine moves_ite (moves_pure sameOptions_flow _) ?_
  refine (moves_get sameOptions_flow).bind sameOptions_flow fun self => moves_ite ?_ ?_
  · exact (writeBlocks_emission m sink _).optional.bind sameOptions_flow fun _ =>
      moves_pure sameOptions_flow _
  · exact moves_runM sameOptions_flow (writeStep_optional m sink) _ _

theorem flush_optional : Optional (flush m sink) := by
  refine (Emission.optional checkWriter_emission).bind sameOptions_flow fun _ => ?_
  exact (flushIbuf_optional m sink).bind sameOptions_flow fun _ => (flushSink_emission sink).optional

theorem WriterCall.optional (call : WriterCall) : Optional (call.run m sink) := by
  cases call with
  | write p =>
      exact (write_optional m sink p).bind sameOptions_flow fun _ => moves_pure sameOptions_flow _
  | flush => exact flush_optional m sink
  | addUserChunk id data => exact addUserChunk_optional m sink id data

/-- The writer after a call, whether it has failed or not. -/
def LeftBy {α : Type} (x : Emit σ α) (s s' : Writer σ) : Prop :=
  (∃ a, x s = .ok a s') ∨ ∃ e, x s = .error e s'

/-- A writer that has been used: calls have been made on it, whether they failed or not. -/
inductive Used (b : WriterBuilder) : Writer σ → Prop where
  | built (w : σ) : Used b (newWriter w b)
  | called {s s' : Writer σ} {call : WriterCall} (before : Used b s)
      (run : LeftBy (call.run m sink) s s') : Used b s'
  | closed {s s' : Writer σ} (before : Used b s)
      (run : LeftBy (closeIndex m sink) s s') : Used b s'
  | reset {s : Writer σ} (before : Used b s) (w : σ) : Used b (resetWriter s w)

variable {m sink}

theorem Optional.leaves {α : Type} {x : Emit σ α} (h : Optional x) {s s' : Writer σ}
    (run : LeftBy x s s') : SameOptions s s' := by
  rcases run with ⟨a, returned⟩ | ⟨e, failed⟩
  · exact (h.run s).ok returned
  · exact (h.run s).error failed

theorem Used.options {b : WriterBuilder} {s : Writer σ} (h : Used m sink b s) (w : σ) :
    SameOptions (newWriter w b) s := by
  induction h with
  | built => exact ⟨rfl, rfl, rfl, rfl, rfl, rfl, rfl⟩
  | called _ run ih => exact ih.trans ((WriterCall.optional m sink _).leaves run)
  | closed _ run ih => exact ih.trans ((closeIndex_optional m sink).leaves run)
  | reset _ _ ih =>
      refine ih.trans ⟨rfl, rfl, rfl, rfl, rfl, rfl, ?_⟩
      exact Option.isSome_map

/-- Nothing is left in a writer of what it was used for before a reset. -/
theorem resetWriter_fresh {b : WriterBuilder} {s : Writer σ} (h : Used m sink b s) (w : σ) :
    resetWriter s w = newWriter w b := by
  obtain ⟨blockSize, level, uncompressed, padding, flushOnWrite, appendIndex, indexed⟩ := h.options w
  have index : (s.index.map fun _ => Index.reset s.blockSize) = (newWriter w b).index := by
    rw [blockSize]
    cases known : s.index with
    | none =>
        rw [known] at indexed
        exact (Option.isNone_iff_eq_none.mp (Option.isSome_eq_false_iff.mp indexed.symm)).symm
    | some _ =>
        rw [known] at indexed
        rw [newWriter] at indexed ⊢
        split at indexed
        · next wanted => exact (if_pos wanted).symm
        · cases indexed
  rw [resetWriter, index, blockSize, level, uncompressed, padding, flushOnWrite, appendIndex]
  rfl

end Calls

end MinLz.Stream
