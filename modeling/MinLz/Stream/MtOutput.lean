import MinLz.Lib.Sequential
import MinLz.Stream.MtWriter
import MinLz.Stream.Splitting

/-! # What the multi-threaded writer writes

The caller's thread and the writer thread together are in the state of a single-threaded
writer. Each call on the caller's thread orders what the call of the single-threaded
writer puts out, so that the bytes are the same however the threads take turns.
-/

namespace MinLz.Stream

open Machine (Overflow)
open Effects
open Pipeline

/-- The options that both writers have. -/
def MtWriterBuilder.shared (b : MtWriterBuilder) : WriterBuilder where
  blockSize := b.blockSize
  level := b.level
  uncompressed := b.uncompressed
  padding := b.padding
  generateIndex := b.generateIndex
  appendIndex := b.appendIndex

/-- The single-threaded writer that is where the two threads are. -/
def alone (b : MtWriterBuilder) (t : MtWriter) (g : Drain (List UInt8)) : Writer (List UInt8) where
  w := g.w
  ibuf := t.ibuf
  blockSize := t.blockSize
  level := t.level
  uncompressed := t.uncompressed
  padding := b.padding
  flushOnWrite := false
  appendIndex := b.appendIndex
  index := g.index
  wroteHeader := t.wroteHeader
  uncompWritten := t.uncompWritten
  compWritten := g.compWritten

/-- The writer thread has done all that the caller's thread has ordered. -/
structure Abreast (b : MtWriterBuilder) (t : MtWriter) (g : Drain (List UInt8))
    (s : Writer (List UInt8)) : Prop where
  same : s = alone b t g
  total : g.uncompWritten = t.uncompWritten
  workers : 0 < t.workers

/-- The call has panicked. -/
def Panics (f : Stop IoError) (_ : MtWriter) (_ : Drain (List UInt8)) (_ : Stop IoError)
    (_ : Writer (List UInt8)) : Prop := ∃ p, f = .fault p

/-- A call on the caller's thread that does what the call of the single-threaded writer does. -/
abbrev AsAlone {α : Type} (m : Overflow) (b : MtWriterBuilder) (x : Submit α)
    (y : Emit (List UInt8) α) (t : MtWriter) (g : Drain (List UInt8)) (s : Writer (List UInt8)) :
    Prop :=
  Twins (mtStages m Sink.vec b) (Abreast b) Panics x y t g s

section Counting

variable {m : Overflow} {n total : Nat}

theorem countWritten_ok {s : Writer (List UInt8)}
    (counted : m.unsigned (s.compWritten + n) = some total) :
    countWritten m n s = .ok () { s with compWritten := total } := by
  unfold countWritten
  rw [get_bind, counted]
  rfl

theorem countWritten_error {s : Writer (List UInt8)}
    (counted : m.unsigned (s.compWritten + n) = none) :
    countWritten m n s = .error (.fault .panic) s := by
  unfold countWritten
  rw [get_bind, counted]
  rfl

theorem countAccepted_ok {s : Writer (List UInt8)}
    (counted : m.unsigned (s.uncompWritten + n) = some total) :
    countAccepted m n s = .ok () { s with uncompWritten := total } := by
  unfold countAccepted
  rw [get_bind, counted]
  rfl

theorem countAccepted_error {s : Writer (List UInt8)}
    (counted : m.unsigned (s.uncompWritten + n) = none) :
    countAccepted m n s = .error (.fault .panic) s := by
  unfold countAccepted
  rw [get_bind, counted]
  rfl

theorem drainRaw_vec {g : Drain (List UInt8)} (p : List UInt8) :
    drainRaw Sink.vec p g = .ok () { g with w := g.w ++ p } := rfl

theorem drainCount_ok {g : Drain (List UInt8)}
    (counted : m.unsigned (g.compWritten + n) = some total) :
    drainCount m n g = .ok () { g with compWritten := total } := by
  unfold drainCount
  rw [get_bind, counted]
  rfl

theorem drainCount_error {g : Drain (List UInt8)}
    (counted : m.unsigned (g.compWritten + n) = none) :
    drainCount m n g = .error (.fault .panic) g := by
  unfold drainCount
  rw [get_bind, counted]
  rfl

end Counting

/-- The bytes are put out, in any number of pieces, and counted. -/
inductive PutsOut (m : Overflow) (y : Emit (List UInt8) Unit) (p : List UInt8)
    (s : Writer (List UInt8)) : Prop where
  | counted {total : Nat} (count : m.unsigned (s.compWritten + p.length) = some total)
      (run : y s = .ok () { s with w := s.w ++ p, compWritten := total })
  | overflow {s' : Writer (List UInt8)} (count : m.unsigned (s.compWritten + p.length) = none)
      (run : y s = .error (.fault .panic) s')

section Pieces

variable {m : Overflow} {s : Writer (List UInt8)}

theorem writeAllTracked_putsOut (p : List UInt8) :
    PutsOut m (writeAllTracked m Sink.vec p) p s := by
  cases count : m.unsigned (s.compWritten + p.length) with
  | some total => exact .counted count ((bind_ok (putRaw_vec p)).trans (countWritten_ok count))
  | none => exact .overflow count ((bind_ok (putRaw_vec p)).trans (countWritten_error count))

/-- Two pieces are counted as one. -/
theorem PutsOut.bind {y : Emit (List UInt8) Unit} {y' : Unit → Emit (List UInt8) Unit}
    {p q : List UInt8} (h : PutsOut m y p s)
    (next : ∀ total, m.unsigned (s.compWritten + p.length) = some total →
      PutsOut m (y' ()) q { s with w := s.w ++ p, compWritten := total }) :
    PutsOut m (y >>= y') (p ++ q) s := by
  have twice := Machine.unsigned_add_add m s.compWritten p.length q.length
  have length : (p ++ q).length = p.length + q.length := List.length_append
  rw [← length] at twice
  cases h with
  | overflow count run =>
      rw [count, Option.bind_none] at twice
      exact .overflow twice.symm (bind_error run)
  | @counted n count run =>
      rw [count, Option.bind_some] at twice
      cases next n count with
      | counted count' run' =>
          refine .counted (twice.symm.trans count') ((bind_ok run).trans ?_)
          rw [← List.append_assoc]
          exact run'
      | overflow count' run' => exact .overflow (twice.symm.trans count') ((bind_ok run).trans run')

end Pieces

section Items

variable (m : Overflow) (b : MtWriterBuilder) {g : Drain (List UInt8)}

theorem eatAll_single (item : OrderItem) :
    (mtStages m Sink.vec b).eatAll g [item] =
      match (mtStages m Sink.vec b).result item with
      | none => .error (mtStages m Sink.vec b).lost
      | some r => drained (drainItem m Sink.vec r) g := by
  rw [Stages.eatAll]
  cases (mtStages m Sink.vec b).result item with
  | none => rfl
  | some r => exact bind_pure (drained (drainItem m Sink.vec r) g)

theorem eatAll_raw {p : List UInt8} {total : Nat}
    (counted : m.unsigned (g.compWritten + p.length) = some total) :
    (mtStages m Sink.vec b).eatAll g [.raw p] =
      .ok { g with w := g.w ++ p, compWritten := total } := by
  rw [eatAll_single]
  show drained (drainItem m Sink.vec (.raw p)) g = _
  have run : drainItem m Sink.vec (.raw p) g =
      .ok () { g with w := g.w ++ p, compWritten := total } :=
    (bind_ok (drainRaw_vec p)).trans (drainCount_ok counted)
  rw [drained, run]

theorem eatAll_raw_error {p : List UInt8}
    (counted : m.unsigned (g.compWritten + p.length) = none) (g' : Drain (List UInt8)) :
    (mtStages m Sink.vec b).eatAll g [.raw p] ≠ .ok g' := by
  rw [eatAll_single]
  show drained (drainItem m Sink.vec (.raw p)) g ≠ _
  have run : drainItem m Sink.vec (.raw p) g = .error (.fault .panic) { g with w := g.w ++ p } :=
    (bind_ok (drainRaw_vec p)).trans (drainCount_error counted)
  rw [drained, run]
  exact fun h => by cases h

end Items

section Calls

variable {m : Overflow} {b : MtWriterBuilder} {t : MtWriter} {g : Drain (List UInt8)}
  {s : Writer (List UInt8)}

/-- Bytes are put out in one piece by one, and in any number of pieces by the other. -/
theorem orders_raw {α : Type} (same : s.compWritten = g.compWritten) {p : List UInt8}
    {y : Emit (List UInt8) Unit} {f : Bool → Submit α} {f' : Unit → Emit (List UInt8) α}
    (puts : PutsOut m y p s)
    (next : ∀ total, AsAlone m b (f true) (f' ()) t { g with w := g.w ++ p, compWritten := total }
      { s with w := s.w ++ p, compWritten := total }) :
    AsAlone m b (Thread.order (.raw p) >>= f) (y >>= f') t g s := by
  cases puts with
  | counted count run =>
      rw [same] at count
      refine Twins.order (fun _ s1 other => ?_) fun e s1 other => ?_
      · cases run.symm.trans other
        exact ⟨_, eatAll_raw m b count, next _⟩
      · cases run.symm.trans other
  | overflow count run =>
      rw [same] at count
      refine Twins.order (fun _ s1 other => ?_) fun e s1 other => ?_
      · cases run.symm.trans other
      · exact eatAll_raw_error m b count

theorem Abreast.written (h : Abreast b t g s) : s.compWritten = g.compWritten := by
  rw [h.same]
  rfl

/-- Both have put out the same bytes. -/
theorem Abreast.put (h : Abreast b t g s) (p : List UInt8) (total : Nat) :
    Abreast b t { g with w := g.w ++ p, compWritten := total }
      { s with w := s.w ++ p, compWritten := total } := by
  refine ⟨?_, h.total, h.workers⟩
  rw [h.same]
  rfl

theorem Abreast.submitRaw (h : Abreast b t g s) {p : List UInt8} {y : Emit (List UInt8) Unit}
    (puts : PutsOut m y p s) :
    AsAlone m b (MtWriter.submitRaw p) y t g s := by
  unfold MtWriter.submitRaw
  rw [← bind_pure y]
  exact orders_raw h.written puts fun total => twins_pure () (h.put p total)

/-- The chunk of a block whose body has been kept or not. -/
def outputOf (block : List UInt8) : Option (List UInt8) → WorkerOutput
  | some body => ⟨dataHeader chunkTypeMinlzCompressedData body.length block, body, block.length⟩
  | none => ⟨dataHeader chunkTypeUncompressedData block.length block, block, block.length⟩

theorem work_of_body {block : List UInt8} {kept : Option (List UInt8)}
    (encodes : encodeBody s block = .ok kept) :
    BlockJob.work ⟨block, s.level, s.uncompressed⟩ = some (.block (outputOf block kept)) := by
  unfold encodeBody at encodes
  unfold BlockJob.work BlockJob.output
  simp only
  split at encodes
  · next stored =>
      cases encodes
      rw [if_pos stored]
      rfl
  · next coded =>
      rw [if_neg coded]
      cases call : Block.appendEncodedChunkBody s.level [] (Slice.ofList block) with
      | error e =>
          rw [call] at encodes
          cases e <;> cases encodes
      | ok r =>
          rw [call] at encodes
          obtain ⟨obuf, _ | _⟩ := r <;> (cases encodes; rfl)

theorem work_not_raw (job : BlockJob) (bytes : List UInt8) : job.work ≠ some (.raw bytes) := by
  unfold BlockJob.work
  split <;> exact fun h => by cases h

theorem work_of_failure {block : List UInt8} {e : Stop IoError}
    (fails : encodeBody s block = .error e) :
    BlockJob.work ⟨block, s.level, s.uncompressed⟩ = none ∨
      ∃ message, BlockJob.work ⟨block, s.level, s.uncompressed⟩ = some (.marker message) := by
  unfold encodeBody at fails
  unfold BlockJob.work BlockJob.output
  simp only
  split at fails
  · cases fails
  · next coded =>
      rw [if_neg coded]
      cases call : Block.appendEncodedChunkBody s.level [] (Slice.ofList block) with
      | error e =>
          cases e with
          | fault f => exact .inl rfl
          | error e => exact .inr ⟨_, rfl⟩
      | ok r =>
          rw [call] at fails
          obtain ⟨obuf, _ | _⟩ := r <;> cases fails

theorem addToIndex_alone (m : Overflow) (b : MtWriterBuilder) (t : MtWriter)
    (g : Drain (List UInt8)) (even : g.uncompWritten = t.uncompWritten) :
    (∃ idx, addToIndex m (alone b t g) = .ok () (alone b t { g with index := idx }) ∧
      drainIndex m g = .ok () { g with index := idx }) ∨
    ∃ e, addToIndex m (alone b t g) = .error e (alone b t g) ∧ drainIndex m g = .error e g := by
  obtain ⟨w, written, accepted, index⟩ := g
  obtain rfl : accepted = t.uncompWritten := even
  cases index with
  | none => exact .inl ⟨none, rfl, rfl⟩
  | some idx =>
      unfold addToIndex drainIndex
      rw [get_bind, get_bind]
      simp only [alone]
      cases ofIndex (Index.add m idx written t.uncompWritten) with
      | ok idx' => exact .inl ⟨some idx', rfl, rfl⟩
      | error e => exact .inr ⟨e, rfl, rfl⟩

theorem drainItem_puts {out : WorkerOutput} {g g0 : Drain (List UInt8)}
    (noted : drainIndex m g = .ok () g0) :
    drainItem m Sink.vec (.block out) g =
      (do
        drainCount m (out.hdr.length + out.body.length)
        let total ← show Except (Stop IoError) Nat from
          word (m.unsigned ((← get).uncompWritten + out.uncompLen))
        modify fun self => { self with uncompWritten := total } : Put (List UInt8) Unit)
        { g0 with w := g0.w ++ out.hdr ++ out.body } := by
  refine (bind_ok noted).trans ((bind_ok (drainRaw_vec out.hdr)).trans ?_)
  exact bind_ok (drainRaw_vec (g := { g0 with w := g0.w ++ out.hdr }) out.body)

/-- The writer thread puts a block out after it has noted where that is. -/
theorem drainItem_block {out : WorkerOutput} {g g0 : Drain (List UInt8)}
    (noted : drainIndex m g = .ok () g0) {n total : Nat}
    (written : m.unsigned (g0.compWritten + (out.hdr.length + out.body.length : Nat)) = some n)
    (counted : m.unsigned (g0.uncompWritten + out.uncompLen) = some total) :
    drainItem m Sink.vec (.block out) g = .ok () { g0 with
      w := g0.w ++ (out.hdr ++ out.body), compWritten := n, uncompWritten := total } := by
  set g1 : Drain (List UInt8) := { g0 with w := g0.w ++ out.hdr ++ out.body } with put
  have count : drainCount m (out.hdr.length + out.body.length) g1 =
      .ok () { g1 with compWritten := n } := drainCount_ok written
  have lifted : (word (m.unsigned (({ g1 with compWritten := n } : Drain (List UInt8)).uncompWritten +
      out.uncompLen)) : Except (Stop IoError) Nat) = .ok total := by
    rw [show ({ g1 with compWritten := n } : Drain (List UInt8)).uncompWritten = g0.uncompWritten
      from rfl, counted]
    rfl
  rw [drainItem_puts noted, bind_ok count, get_bind, bind_ok (lift_ok lifted), ← List.append_assoc]
  rfl

theorem drainItem_block_error {out : WorkerOutput} {g g0 : Drain (List UInt8)}
    (noted : drainIndex m g = .ok () g0)
    (written : m.unsigned (g0.compWritten + (out.hdr.length + out.body.length : Nat)) = none) :
    ∃ s', drainItem m Sink.vec (.block out) g = .error (.fault .panic) s' := by
  set g1 : Drain (List UInt8) := { g0 with w := g0.w ++ out.hdr ++ out.body } with put
  have count : drainCount m (out.hdr.length + out.body.length) g1 = .error (.fault .panic) g1 :=
    drainCount_error written
  exact ⟨g1, (drainItem_puts noted).trans (bind_error count)⟩

/-- The writer thread takes no block that cannot be encoded. -/
theorem failure_not_eaten {b : MtWriterBuilder} {t : MtWriter} {g0 : Drain (List UInt8)}
    {block : List UInt8} {e : Stop IoError} (encodes : encodeBody (alone b t g0) block = .error e)
    (g g' : Drain (List UInt8)) :
    (mtStages m Sink.vec b).eatAll g [.block ⟨block, t.level, t.uncompressed⟩] ≠ .ok g' := by
  rw [eatAll_single, show (mtStages m Sink.vec b).result (.block ⟨block, t.level, t.uncompressed⟩) =
    BlockJob.work ⟨block, t.level, t.uncompressed⟩ from rfl]
  rcases work_of_failure encodes with panics | ⟨message, marked⟩
  · rw [show BlockJob.work ⟨block, t.level, t.uncompressed⟩ = none from panics]
    exact fun h => by cases h
  · rw [show BlockJob.work ⟨block, t.level, t.uncompressed⟩ = some (.marker message) from marked]
    exact fun h => by cases h

/-- Nor one whose place it cannot note. -/
theorem unnoted_not_eaten {g : Drain (List UInt8)} {e : Stop IoError}
    (noted : drainIndex m g = .error e g) (b : MtWriterBuilder) (job : BlockJob)
    (g' : Drain (List UInt8)) : (mtStages m Sink.vec b).eatAll g [.block job] ≠ .ok g' := by
  rw [eatAll_single, show (mtStages m Sink.vec b).result (.block job) = job.work from rfl]
  split
  · exact fun h => by cases h
  · next r worked =>
      cases r with
      | block out =>
          have failed : drainItem m Sink.vec (.block out) g = .error e g := bind_error noted
          rw [drained, failed]
          exact fun h => by cases h
      | marker message => exact fun h => by cases h
      | raw bytes => exact absurd worked (work_not_raw _ bytes)

/-- What the single-threaded writer does with a block, the writer thread does with its item. -/
theorem emitBlock_eaten (b : MtWriterBuilder) (t : MtWriter) (g : Drain (List UInt8))
    (block : List UInt8) (even : g.uncompWritten = t.uncompWritten) :
    (∃ g1, emitBlock m Sink.vec block (alone b t g) = .ok () (alone b t g1) ∧
      ∀ total, m.unsigned (t.uncompWritten + block.length) = some total →
        (mtStages m Sink.vec b).eatAll g [.block ⟨block, t.level, t.uncompressed⟩] =
          .ok { g1 with uncompWritten := total }) ∨
    (∃ e s1, emitBlock m Sink.vec block (alone b t g) = .error e s1) ∧
      ∀ g', (mtStages m Sink.vec b).eatAll g [.block ⟨block, t.level, t.uncompressed⟩] ≠
        .ok g' := by
  rcases addToIndex_alone m b t g even with ⟨idx, added, noted⟩ | ⟨e, added, noted⟩
  · set g0 : Drain (List UInt8) := { g with index := idx } with known
    cases encodes : encodeBody (alone b t g0) block with
    | error e =>
        refine .inr ⟨⟨e, alone b t g0, ?_⟩, failure_not_eaten encodes g⟩
        exact (bind_ok added).trans ((get_bind _ _).trans (bind_error (lift_error encodes)))
    | ok kept =>
        have worked : (mtStages m Sink.vec b).result (.block ⟨block, t.level, t.uncompressed⟩) =
          some (.block (outputOf block kept)) := work_of_body encodes
        rw [eatAll_single, worked]
        set out := outputOf block kept with made
        have emits : emitBlock m Sink.vec block (alone b t g) =
            (do writeAllTracked m Sink.vec out.hdr; writeAllTracked m Sink.vec out.body)
              (alone b t g0) := by
          refine (bind_ok added).trans ((get_bind _ _).trans ((bind_ok (lift_ok encodes)).trans ?_))
          cases kept <;> rfl
        rw [emits]
        simp only
        have puts : PutsOut m (do
            writeAllTracked m Sink.vec out.hdr
            writeAllTracked m Sink.vec out.body) (out.hdr ++ out.body) (alone b t g0) :=
          (writeAllTracked_putsOut _).bind fun _ _ => writeAllTracked_putsOut _
        cases puts with
        | @counted n written run =>
          rw [List.length_append] at written
          refine .inl ⟨{ g0 with w := g0.w ++ (out.hdr ++ out.body), compWritten := n }, run,
            fun total counted => ?_⟩
          have same : out.uncompLen = block.length := by
            rw [made]
            cases kept <;> rfl
          have sum : m.unsigned (g0.uncompWritten + out.uncompLen) = some total := by
            rw [same, show g0.uncompWritten = t.uncompWritten from even]
            exact counted
          rw [drained, drainItem_block noted written sum]
        | overflow written run =>
          rw [List.length_append] at written
          refine .inr ⟨⟨_, _, run⟩, fun g' => ?_⟩
          obtain ⟨g2, failed⟩ := drainItem_block_error noted written
          rw [drained, failed]
          exact fun h => by cases h
  · exact .inr ⟨⟨e, _, bind_error added⟩, unnoted_not_eaten noted b _⟩

/-- Which worker is next makes no difference. -/
theorem Abreast.turn (h : Abreast b t g s) (nextWorker : Nat) :
    Abreast b { t with nextWorker } g s := ⟨h.same, h.total, h.workers⟩

/-- One worker is tried after the other, and the last one is waited for. -/
theorem Abreast.sendBlockFallback (h : Abreast b t g s) (idx : Nat) :
    Quiet (MtWriter.sendBlockFallback idx 1) t fun _ t1 => Abreast b t1 g s := by
  refine quiet_get (quiet_loop (fun v t1 => t1 = t ∧ v.2 ≤ t.workers)
    (fun v => t.workers - v.2) ?_ ⟨rfl, h.workers⟩ (by omega))
  rintro ⟨idx, tried⟩ _ ⟨rfl, within⟩
  refine quiet_offer (quiet_modify (quiet_pure (h.turn _))) ?_
  simp only
  split
  · exact quiet_hand (quiet_pure h)
  · exact quiet_pure ⟨⟨rfl, by simp only; omega⟩, by simp only; omega⟩

theorem Abreast.submitBlock (h : Abreast b t g s) (block : List UInt8) :
    AsAlone m b (MtWriter.submitBlock m block)
      (do emitBlock m Sink.vec block; countAccepted m block.length) t g s := by
  obtain ⟨rfl, even, workers⟩ := h
  unfold MtWriter.submitBlock
  cases counted : m.unsigned (t.uncompWritten + block.length) with
  | none =>
      refine Twins.get (twins_fail (f := .fault .panic) (u := t) ?_ ?_)
      · simp only [counted]
        rfl
      · rcases emitBlock_eaten (m := m) b t g block even with
          ⟨g1, run, _⟩ | ⟨⟨e, s1, run⟩, _⟩
        · have failed : countAccepted m block.length (alone b t g1) =
            .error (.fault .panic) (alone b t g1) := countAccepted_error counted
          exact runs_error ((bind_ok run).trans failed) ⟨_, rfl⟩
        · exact runs_error (bind_error run) ⟨_, rfl⟩
  | some total =>
      refine Twins.get (Twins.left (k := total) (u := t) ?_ (Twins.modify (Twins.get ?_)))
      · simp only [counted]
        rfl
      · have both (g1 : Drain (List UInt8))
            (emits : emitBlock m Sink.vec block (alone b t g) = .ok () (alone b t g1)) :
            (do emitBlock m Sink.vec block; countAccepted m block.length) (alone b t g) =
              .ok () (alone b { t with uncompWritten := total } g1) := by
          rw [bind_ok emits]
          exact countAccepted_ok counted
        refine Twins.order_last (fun _ s1 run => ?_) fun e s1 run => ?_
        · rcases emitBlock_eaten (m := m) b t g block even with
            ⟨g1, emits, eaten⟩ | ⟨⟨e, s1, fails⟩, _⟩
          · cases (both g1 emits).symm.trans run
            have after (nextWorker : Nat) : Abreast b
                { t with uncompWritten := total, nextWorker } { g1 with uncompWritten := total }
                (alone b { t with uncompWritten := total } g1) := ⟨rfl, rfl, workers⟩
            refine ⟨_, eaten total counted, Quiet.ends ?_ fun _ _ h => ⟨rfl, h⟩⟩
            exact quiet_modify (quiet_offer (quiet_pure (after _))
              ((after _).sendBlockFallback _))
          · cases (bind_error fails).symm.trans run
        · rcases emitBlock_eaten (m := m) b t g block even with
            ⟨g1, emits, _⟩ | ⟨_, spoiled⟩
          · cases (both g1 emits).symm.trans run
          · exact spoiled

theorem Abreast.ensureHeader (h : Abreast b t g s) :
    AsAlone m b MtWriter.ensureHeader (Stream.ensureHeader m Sink.vec) t g s := by
  obtain ⟨rfl, even, workers⟩ := h
  unfold MtWriter.ensureHeader Stream.ensureHeader
  refine Twins.get (Twins.right rfl ?_)
  cases header : t.wroteHeader with
  | true =>
      have begun : (alone b t g).wroteHeader = true := header
      simp only [begun, if_true, Bool.true_eq_false, if_false]
      exact twins_pure () ⟨rfl, even, workers⟩
  | false =>
      have fresh : (alone b t g).wroteHeader = false := header
      simp only [fresh, if_true, Bool.false_eq_true, if_false]
      refine Twins.set ?_
      unfold MtWriter.submitRaw
      rw [show (alone b t g).blockSize = t.blockSize from rfl]
      refine orders_raw rfl (writeAllTracked_putsOut _) fun total => ?_
      exact twins_done rfl rfl ⟨rfl, even, workers⟩

theorem checkErr_quiet : Quiet MtWriter.checkErr t fun _ t1 => t = t1 :=
  quiet_check (quiet_pure rfl)

theorem Abreast.writeBlocks (h : Abreast b t g s) (data : List UInt8) :
    AsAlone m b (MtWriter.writeBlocks m data) (Stream.writeBlocks m Sink.vec data) t g s := by
  unfold MtWriter.writeBlocks Stream.writeBlocks
  refine h.ensureHeader.bind fun _ t1 g1 s1 h => ?_
  refine twins_loop (fun t g s h => ⟨_, rfl⟩) (fun data t g s h => ?_) _ _ h
  unfold writeBlock
  split
  · exact twins_pure _ h
  · refine checkErr_quiet.before fun _ t1 same => ?_
    subst same
    refine Twins.get (Twins.right rfl ?_)
    have size : s.blockSize = t.blockSize := by rw [h.same]; rfl
    rw [size, ← bind_assoc]
    set n := min data.length t.blockSize with taken
    have length : (data.take n).length = n := by
      rw [List.length_take]
      omega
    have twin := h.submitBlock (m := m) (data.take n)
    rw [length] at twin
    exact twin.bind fun _ t1 g1 s1 h => twins_pure _ h

theorem Abreast.flushIbuf (h : Abreast b t g s) :
    AsAlone m b (MtWriter.flushIbuf m) (Stream.flushIbuf m Sink.vec) t g s := by
  unfold MtWriter.flushIbuf Stream.flushIbuf
  refine Twins.get (Twins.right rfl ?_)
  have same : s.ibuf = t.ibuf := by rw [h.same]; rfl
  rw [same]
  simp only
  split
  · exact twins_pure () h
  · refine Twins.modify (Twins.right rfl ?_)
    have emptied : Abreast b { t with ibuf := [] } g { s with ibuf := [] } :=
      ⟨by rw [h.same]; rfl, h.total, h.workers⟩
    exact emptied.writeBlocks t.ibuf

theorem Abreast.calm (h : Abreast b t g s) : checkWriter s = .ok () s := by
  refine (get_bind _ _).trans ?_
  rw [h.same]
  rfl

theorem Abreast.addUserChunk (h : Abreast b t g s) {id : UInt8} {data : List UInt8}
    (taken : ¬(WriterCall.addUserChunk id data).Refused) :
    AsAlone m b (MtWriter.addUserChunk m id data) (Stream.addUserChunk m Sink.vec id data) t g s := by
  obtain ⟨known, fits⟩ := not_or.mp taken
  unfold MtWriter.addUserChunk Stream.addUserChunk
  rw [if_neg known, if_neg known, if_neg fits, if_neg fits]
  refine checkErr_quiet.before fun _ t1 same => ?_
  subst same
  refine Twins.right h.calm ?_
  refine h.flushIbuf.bind fun _ t1 g1 s1 h => ?_
  refine h.ensureHeader.bind fun _ t2 g2 s2 h => ?_
  exact h.submitRaw ((writeAllTracked_putsOut _).bind fun _ _ => writeAllTracked_putsOut _)

theorem Abreast.write (h : Abreast b t g s) (p : List UInt8) :
    AsAlone m b (MtWriter.write m p) (Stream.write m Sink.vec p) t g s := by
  unfold MtWriter.write Stream.write
  refine checkErr_quiet.before fun _ t1 same => ?_
  subst same
  refine Twins.right h.calm ?_
  split
  · exact twins_pure _ h
  · refine Twins.right rfl ?_
    have direct : s.flushOnWrite = false := by rw [h.same]; rfl
    simp only [direct, Bool.false_eq_true, if_false]
    refine twins_loop (fun t g s h => ⟨_, rfl⟩) (fun v t g s h => ?_) _ _ h
    unfold writeStep
    simp only
    split
    · exact twins_pure _ h
    · refine Twins.get (Twins.right rfl ?_)
      have size : s.blockSize = t.blockSize := by rw [h.same]; rfl
      have same : s.ibuf = t.ibuf := by rw [h.same]; rfl
      simp only [size, same]
      cases free : m.unsigned (t.blockSize - t.ibuf.length) with
      | none =>
          refine twins_fail (f := .fault .panic) (u := t) rfl ?_
          exact runs_error (bind_error rfl) ⟨_, rfl⟩
      | some n =>
          refine Twins.left (k := n) (u := t) rfl (Twins.right (k := n) (u := s) rfl ?_)
          split
          · exact (h.writeBlocks _).bind fun _ _ _ _ h => twins_pure _ h
          · set piece := v.1.take (min v.1.length n) with taken
            have buffered : Abreast b { t with ibuf := t.ibuf ++ piece } g
                { s with ibuf := s.ibuf ++ piece } :=
              ⟨by rw [h.same]; rfl, h.total, h.workers⟩
            refine Twins.modify (Twins.right rfl (Twins.get (Twins.right rfl ?_)))
            simp only [same]
            split
            · rw [same] at buffered
              exact buffered.flushIbuf.bind fun _ _ _ _ h => twins_pure _ h
            · rw [same] at buffered
              exact twins_pure _ buffered

theorem Abreast.flush (h : Abreast b t g s) :
    AsAlone m b (MtWriter.flush m) (Stream.flush m Sink.vec) t g s := by
  unfold MtWriter.flush Stream.flush
  refine checkErr_quiet.before fun _ t1 same => ?_
  subst same
  refine Twins.right h.calm ?_
  have unchanged : flushSink Sink.vec = (pure () : Emit (List UInt8) Unit) := rfl
  rw [unchanged, bind_pure_unit]
  exact h.flushIbuf

end Calls

end MinLz.Stream
