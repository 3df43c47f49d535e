import MinLz.Lib.Progress
import MinLz.Stream.MtReader
import MinLz.Stream.MtWriter

/-! # Every session of the multi-threaded writer ends, and every concurrent decode

The caller's thread hands every block that it orders to a worker, or drops the sender of
its result. Thus there is no deadlock: a block that the writer thread waits for is on its
way, and full queues are drained.
-/

namespace MinLz.Stream

open Machine (Overflow)
open Pipeline

variable {n : Nat}

/-- An item that is its own result. -/
def OrderItem.direct : OrderItem → Bool
  | .raw _ => true
  | .block _ => false

/-- A part of the caller's thread that hands each block to one of `n` workers. -/
abbrev Hands {α : Type} (n : Nat) (owed : Bool) (x : Submit α) : Prop :=
  Minds n OrderItem.direct (fun t => t.workers = n) owed x

theorem checkErr_hands : Hands n false MtWriter.checkErr := by
  refine minds_check fun e => ?_
  cases e with
  | none => exact minds_pure rfl
  | some e => exact minds_throw e

theorem collectPipelineError_minds {α : Type} {A : Bool → α → Prop} :
    Minds n OrderItem.direct (fun t => t.workers = n) false
      (MtWriter.collectPipelineError : Submit α) A := by
  refine minds_check fun e => ?_
  cases e with
  | none => exact minds_throw _
  | some e => exact minds_throw e

theorem submitRaw_hands (bytes : List UInt8) : Hands n false (MtWriter.submitRaw bytes) :=
  minds_order (minds_pure (A := Paid) rfl) collectPipelineError_minds

theorem sendBlockFallback_hands (pos : 0 < n) (idx : Nat) :
    Hands n true (MtWriter.sendBlockFallback idx 1) := by
  refine minds_get ?_
  rintro t0 rfl
  refine minds_loop_owed (fun v => t0.workers - v.2) ?_ (by simp only; omega)
  rintro ⟨idx, tried⟩
  refine minds_offer (Nat.mod_lt idx pos) ?_ ?_ collectPipelineError_minds
  · exact minds_modify (fun _ h => by exact h) (minds_pure (by rfl))
  · simp only
    split
    · exact minds_hand (Nat.mod_lt idx pos) (minds_pure rfl) collectPipelineError_minds
    · exact minds_pure ⟨rfl, by omega⟩

theorem ofExcept_hands {α : Type} (r : Except (Stop IoError) α) :
    Hands n false (ofExcept r : Submit α) := by
  cases r with
  | ok a => exact minds_pure rfl
  | error e => exact minds_throw e

section Calls

variable (m : Overflow)

theorem submitBlock_hands (pos : 0 < n) (block : List UInt8) :
    Hands n false (MtWriter.submitBlock m block) := by
  refine minds_get fun t0 _ => (ofExcept_hands _).then fun total => ?_
  refine minds_modify (fun _ h => by exact h) (minds_get ?_)
  rintro t1 rfl
  refine minds_order ?_ collectPipelineError_minds
  refine minds_modify (fun _ h => by exact h) ?_
  exact minds_offer (Nat.mod_lt _ pos) (minds_pure rfl) (sendBlockFallback_hands pos _)
    collectPipelineError_minds

theorem ensureHeader_hands : Hands n false MtWriter.ensureHeader := by
  refine minds_get fun t0 h => ?_
  split
  · exact minds_pure rfl
  · exact minds_set (by exact h) (submitRaw_hands _)

theorem writeBlocks_hands (pos : 0 < n) (data : List UInt8) :
    Hands n false (MtWriter.writeBlocks m data) := by
  refine ensureHeader_hands.then fun _ => minds_loop (fun data => ?_) _ _
  split
  · exact minds_pure rfl
  · refine checkErr_hands.then fun _ => minds_get fun t0 _ => ?_
    exact (submitBlock_hands m pos _).then fun _ => minds_pure rfl

theorem flushIbuf_hands (pos : 0 < n) : Hands n false (MtWriter.flushIbuf m) := by
  refine minds_get fun t0 _ => ?_
  simp only
  split
  · exact minds_pure rfl
  · exact minds_modify (fun _ h => by exact h) (writeBlocks_hands m pos _)

theorem write_hands (pos : 0 < n) (p : List UInt8) : Hands n false (MtWriter.write m p) := by
  refine checkErr_hands.then fun _ => ?_
  split
  · exact minds_pure rfl
  · refine minds_loop ?_ _ _
    rintro ⟨p, written⟩
    simp only
    split
    · exact minds_pure rfl
    · refine minds_get fun t0 _ => (ofExcept_hands _).then fun free => ?_
      split
      · exact (writeBlocks_hands m pos _).then fun _ => minds_pure rfl
      · refine minds_modify (fun _ h => by exact h) (minds_get fun t1 _ => ?_)
        split
        · exact (flushIbuf_hands m pos).then fun _ => minds_pure rfl
        · exact minds_pure rfl

theorem addUserChunk_hands (pos : 0 < n) (id : UInt8) (data : List UInt8) :
    Hands n false (MtWriter.addUserChunk m id data) := by
  unfold MtWriter.addUserChunk
  by_cases outside : ¬(minUserSkippableChunk ≤ id ∧ id ≤ maxUserNonSkippableChunk)
  · rw [if_pos outside]
    exact fun _ start => .done ⟨start, rfl⟩
  · rw [if_neg outside]
    by_cases long : data.length > maxUserChunkSize
    · rw [if_pos long]
      exact fun _ start => .done ⟨start, rfl⟩
    · rw [if_neg long]
      refine checkErr_hands.then fun _ => (flushIbuf_hands m pos).then fun _ => ?_
      exact ensureHeader_hands.then fun _ => submitRaw_hands _

theorem MtCall.hands (pos : 0 < n) (call : MtCall) : Hands n false (call.run m) := by
  cases call with
  | write p => exact (write_hands m pos p).then fun _ => minds_pure rfl
  | flush => exact checkErr_hands.then fun _ => flushIbuf_hands m pos
  | addUserChunk id data => exact addUserChunk_hands m pos id data
  | encodeBuffer buf => exact (flushIbuf_hands m pos).then fun _ => writeBlocks_hands m pos buf

/-- The caller goes on after an error, unless it is a panic. -/
theorem attempt_bind {x : Submit Unit} {t : MtWriter} :
    attempt x t = (x t).bind fun r => .done (match r with
      | (.ok (), s) => (.ok (.ok ()), s)
      | (.error (.error e), s) => (.ok (.error e), s)
      | (.error (.fault f), s) => (.error (.fault f), s)) := by
  show Prog.bind (x t) _ = Prog.bind (x t) _
  congr 1
  funext r
  obtain ⟨_ | _, s⟩ := r
  · rename_i e
    cases e <;> rfl
  · rfl

theorem attempt_hands {x : Submit Unit} (h : Hands n false x) : Hands n false (attempt x) := by
  intro t start
  rw [attempt_bind]
  refine (h t start).bind ?_
  rintro owed ⟨_ | _, t'⟩ ⟨kept, settled⟩
  · rename_i e
    cases e with
    | error e => exact .done ⟨kept, settled⟩
    | fault f => exact .done ⟨kept, settled⟩
  · exact .done ⟨kept, settled⟩

theorem mtSession_hands (pos : 0 < n) (calls : List MtCall) :
    Hands n false (mtSession m calls) := by
  have attempts (calls : List MtCall) : ∀ acc, Hands n false
      (List.mapM.loop (fun call => Stream.attempt (MtCall.run m call)) calls acc) := by
    induction calls with
    | nil => exact fun acc => minds_pure rfl
    | cons call calls ih => exact fun acc => (attempt_hands (call.hands m pos)).then fun r => ih _
  refine (attempts calls []).then fun results => ?_
  have closes : Hands n false (MtWriter.closing m) := by
    refine checkErr_hands.then fun _ => (flushIbuf_hands m pos).then fun _ => ?_
    refine ensureHeader_hands.then fun _ => minds_get fun t _ => ?_
    exact (ofExcept_hands _).then fun _ => submitRaw_hands _
  exact closes.then fun _ => minds_pure rfl

end Calls

/-- In whatever state a run is, each block that waits for its result has a worker. -/
theorem session_tended {σ : Type} (m : Overflow) (sink : Sink σ) {b : MtWriterBuilder}
    {self : MtWriter} (built : b.build = .ok self) (w : σ) (calls : List MtCall)
    {s : State OrderItem ReadyItem (Drain σ) σ (Stop IoError) _}
    (run : Run (mtStages m sink b) (b.concurrency + 1)
      (start (mtSession m calls self) (newDrain b w)) s) :
    ∃ owed, Tended (mtStages m sink b) b.concurrency owed s := by
  have made : self.workers = b.concurrency ∧ b.concurrency ≠ 0 := by
    unfold MtWriterBuilder.build at built
    split at built
    · cases built
    · split at built
      · cases built
      · split at built
        · cases built
        · next some =>
            cases built
            exact ⟨rfl, some⟩
  have diligent := mtSession_hands m (Nat.pos_of_ne_zero made.2) calls self made.1
  have paid : Diligent b.concurrency (mtStages m sink b).direct Paid false
      (mtSession m calls self) := by
    refine diligent.mono ?_
    rintro owed ⟨_ | _, _⟩ ⟨_, settled⟩ <;> exact settled
  exact (tended_start paid (newDrain b w)).run run

/-- Whatever the calls are, there is no deadlock, the threads cannot go on forever, and from
    wherever they are they come to an end; then `finish` returns. -/
theorem session_ends {σ : Type} (m : Overflow) (sink : Sink σ) {b : MtWriterBuilder}
    {self : MtWriter} (built : b.build = .ok self) (w : σ) (calls : List MtCall)
    {s : State OrderItem ReadyItem (Drain σ) σ (Stop IoError) _}
    (run : Run (mtStages m sink b) (b.concurrency + 1)
      (start (mtSession m calls self) (newDrain b w)) s) :
    ((∀ a, act (mtStages m sink b) (b.concurrency + 1) a s = none) →
      ∃ submitted result, Ended s submitted result) ∧
    Acc (Next (mtStages m sink b) (b.concurrency + 1)) s ∧
    ∃ t submitted result, Run (mtStages m sink b) (b.concurrency + 1) s t ∧
      Ended t submitted result := by
  obtain ⟨owed, tended⟩ := session_tended m sink built w calls run
  exact ⟨tended.goesOn (Nat.succ_pos _), tended.acc, tended.ends (Nat.succ_pos _)⟩

/-- The whole run in which the threads act in this order. -/
theorem session_played {σ : Type} (m : Overflow) (sink : Sink σ) {b : MtWriterBuilder}
    {self : MtWriter} (built : b.build = .ok self) (w : σ) (calls : List MtCall)
    (turns : List Actor) {submitted : Except (Stop IoError) (List (Except IoError Unit)) × MtWriter}
    {result : Except (Stop IoError) σ}
    (known : (played (mtStages m sink b) (b.concurrency + 1) turns
      (start (mtSession m calls self) (newDrain b w))).outcome b.concurrency =
        some (submitted, result)) :
    ∃ s, Run (mtStages m sink b) (b.concurrency + 1)
      (start (mtSession m calls self) (newDrain b w)) s ∧ Ended s submitted result := by
  have run : Run (mtStages m sink b) (b.concurrency + 1)
      (start (mtSession m calls self) (newDrain b w)) _ := run_played turns _
  obtain ⟨_, tended⟩ := session_tended m sink built w calls run
  exact ⟨_, run, tended.outcome known⟩

/-- Two workers, and calls that the writer refuses among the others. -/
theorem session_ends_few : ∃ result,
    MtProduces .panics Sink.vec { concurrency := 2, blockSize := 4096 } []
      [.addUserChunk 0 [], .write [1, 2, 3], .flush, .encodeBuffer [4]] result := by
  obtain ⟨-, -, t, submitted, result, run, ended⟩ := session_ends .panics Sink.vec
    (b := { concurrency := 2, blockSize := 4096 }) rfl []
    [.addUserChunk 0 [], .write [1, 2, 3], .flush, .encodeBuffer [4]] (.refl _)
  exact ⟨_, .finished rfl run ended⟩

section Decoding

variable {σ τ : Type}

/-- A part of the dispatcher that hands each job to one of `n` workers, and supplies what it
    has decoded itself. -/
abbrev Hurries {α : Type} (n : Nat) (owed : Bool) (x : Dispatching σ α) : Prop :=
  Minds n (fun _ => false) (fun t => t.threads = n) owed x

theorem onSource_hurries {α : Type} (x : Action σ α) : Hurries n false (onSource x) := by
  intro t start
  rw [onSource]
  simp only [Thread.lift]
  cases x t.reader with
  | ok a reader => exact .done ⟨start, rfl⟩
  | error e reader => exact .done ⟨start, rfl⟩

theorem checkPipeline_hurries : Hurries n false (checkPipeline : Dispatching σ Unit) := by
  refine minds_check fun e => ?_
  cases e with
  | none => exact minds_pure rfl
  | some e => exact minds_throw e

theorem submitCompressed_hurries (pos : 0 < n) (job : DecodeJob) :
    Hurries n false (submitCompressed job : Dispatching σ Unit) := by
  refine minds_get ?_
  rintro t0 rfl
  refine minds_order ?_ (minds_throw _)
  refine minds_loop_owed (fun tried => t0.threads - tried) ?_ (by omega)
  intro tried
  refine minds_get fun t1 same => minds_modify (fun _ h => by exact h) ?_
  refine minds_offer (Nat.mod_lt _ pos) (minds_pure (by rfl)) ?_ (minds_throw _)
  simp only
  split
  · exact minds_hand (Nat.mod_lt _ pos) (minds_pure rfl) (minds_throw _)
  · exact minds_pure ⟨rfl, by omega⟩

theorem dispatchChunk_hurries (pos : 0 < n) (kind : UInt8) (chunkLen : Nat) :
    Hurries n false (dispatchChunk kind chunkLen : Dispatching σ Unit) := by
  rw [dispatchChunk]
  split
  · refine (onSource_hurries _).then fun x => minds_modify (fun _ h => by exact h) ?_
    exact submitCompressed_hurries pos x.1
  · split
    · refine (onSource_hurries _).then fun body => minds_modify (fun _ h => by exact h) ?_
      exact minds_order (minds_supply (A := Paid) rfl) (minds_throw _)
    · split
      · exact minds_get fun t _ => onSource_hurries _
      · split
        · refine (onSource_hurries _).then fun _ => ?_
          exact minds_modify (fun _ h => by exact h) (minds_pure rfl)
        · split
          · exact minds_throw _
          · exact onSource_hurries _

theorem dispatchLoop_hurries (pos : 0 < n) :
    Hurries n false (dispatchLoop : Dispatching σ Unit) := by
  refine minds_get fun t _ => minds_loop (fun _ => ?_) _ _
  refine checkPipeline_hurries.then fun _ => minds_get fun t _ => ?_
  refine (onSource_hurries _).then fun hdr => ?_
  cases hdr with
  | none => exact minds_pure rfl
  | some hdr =>
      refine (onSource_hurries _).then fun _ => ?_
      exact (dispatchChunk_hurries pos _ _).then fun _ => minds_pure rfl

theorem decode_tended (m : Overflow) (sink : Sink τ) (mem : Nat → UInt8) (self : Reader σ) (w : τ)
    (pos : 0 < n)
    {s : State DecodeItem (Except Error (List UInt8)) (ConcurrentDecode τ) (ConcurrentDecode τ)
      (Stop IoError) _}
    (run : Run (decodeStages m sink mem) (n + 1)
      (start (dispatchLoop (dispatcher self n)) { writer := w }) s) :
    ∃ owed, Tended (decodeStages m sink mem) n owed s := by
  have paid : Diligent n (decodeStages m sink mem).direct Paid false
      (dispatchLoop (dispatcher self n)) := by
    refine (dispatchLoop_hurries pos (dispatcher self n) rfl).mono ?_
    rintro owed ⟨_ | _, _⟩ ⟨_, settled⟩ <;> exact settled
  exact (tended_start paid { writer := w }).run run

/-- Whatever is decoded into whatever sink, there is no deadlock, the threads cannot go on
    forever, and from wherever they are they come to an end. -/
theorem decode_ends (m : Overflow) (sink : Sink τ) (mem : Nat → UInt8) (self : Reader σ) (w : τ)
    (pos : 0 < n)
    {s : State DecodeItem (Except Error (List UInt8)) (ConcurrentDecode τ) (ConcurrentDecode τ)
      (Stop IoError) _}
    (run : Run (decodeStages m sink mem) (n + 1)
      (start (dispatchLoop (dispatcher self n)) { writer := w }) s) :
    ((∀ a, act (decodeStages m sink mem) (n + 1) a s = none) →
      ∃ dispatched result, Ended s dispatched result) ∧
    Acc (Next (decodeStages m sink mem) (n + 1)) s ∧
    ∃ t dispatched result, Run (decodeStages m sink mem) (n + 1) s t ∧
      Ended t dispatched result := by
  obtain ⟨owed, tended⟩ := decode_tended m sink mem self w pos run
  exact ⟨tended.goesOn (Nat.succ_pos _), tended.acc, tended.ends (Nat.succ_pos _)⟩

/-- Two compressed blocks, each of thirty-two equal bytes. -/
def twoCompressed : List UInt8 :=
  let chunk := [chunkTypeMinlzCompressedData, 11, 0, 0, 243, 201, 145, 208, 32, 0, 9, 228, 8, 9, 9]
  makeStreamHeader (2 <<< 20) ++ chunk ++ chunk ++ [chunkTypeEof, 1, 0, 0, 64]

/-- Both blocks are with the workers; one has been decoded, and the consumer waits for the
    other. -/
theorem decode_ends_blocks : ∃ s,
    Run (decodeStages .panics Sink.vec (fun _ => 0)) 3
      (start (dispatchLoop (dispatcher (withBuilder {} twoCompressed ()) 2)) { writer := [] }) s ∧
    s.sent.length = 2 ∧ s.taken = 1 ∧ (s.workers 0).work = .making 0 ∧ (s.workers 1).work = .free ∧
    Acc (Next (decodeStages .panics Sink.vec (fun _ => 0)) 3) s ∧
    ∃ t dispatched result, Run (decodeStages .panics Sink.vec (fun _ => 0)) 3 s t ∧
      Ended t dispatched result := by
  have run : Run (decodeStages .panics Sink.vec (fun _ => 0)) 3 _ _ := run_played
    (List.replicate 8 .handler ++ [.worker 0, .worker 1, .consumer, .worker 1])
    (start (dispatchLoop (dispatcher (withBuilder {} twoCompressed ()) 2)) { writer := [] })
  obtain ⟨-, acc, ends⟩ := decode_ends (n := 2) .panics Sink.vec (fun _ => 0)
    (withBuilder {} twoCompressed ()) [] (by decide) run
  exact ⟨_, run, by decide +kernel, by decide +kernel, by decide +kernel, by decide +kernel, acc, ends⟩

end Decoding

end MinLz.Stream
