import MinLz.Stream.Failing
import MinLz.Stream.MtGather
import MinLz.Stream.MtProgress

/-! # Concurrent decoding is reading to the end

Whatever the threads do, decoding succeeds exactly when reading the stream to its end does,
and puts out the same bytes. A decode that starts between two blocks counts from there, and
does not get past an end that states the length of its stream.
-/

namespace MinLz.Stream

open Block (maxBlockSize)
open Machine (Overflow)
open Effects Loop
open Pipeline

variable {σ : Type}

/-- The reader without its block, at the start of the count. -/
def Reader.rebased (self : Reader σ) : Reader σ :=
  { self with decoded := [], decodedPos := 0, blockStart := 0 }

section Runs

variable {m : Overflow} {mem mem' : Nat → UInt8} {self : Reader σ} {w : List UInt8}
  {threads : Nat} {ahead : List (Option UInt8)}
  {result : Except (Stop IoError) (ConcurrentDecode (List UInt8))}

theorem Live.rebased (live : Live self ahead) :
    Live self.rebased (content self.ignoreCrc self.r) :=
  ⟨live.err, le_rfl, Nat.zero_le _, live.limit, live.user, rfl⟩

theorem mayDecode_ok (may : mayDecode self threads = .ok ()) :
    0 < threads ∧ ¬self.decodedPos < self.decoded.length ∧ self.err = none := by
  rw [mayDecode] at may
  split at may
  · cases may
  · next some =>
      split at may
      · cases may
      · next all =>
          split at may
          · cases may
          · next clear => exact ⟨Nat.pos_of_ne_zero some, all, clear⟩

theorem decodeResult_ok {τ : Type} {dispatched : Except (Stop IoError) Unit × Dispatcher σ}
    {result : Except (Stop IoError) (ConcurrentDecode τ)} {out : ConcurrentDecode τ}
    (finished : decodeResult dispatched result = .ok out) :
    dispatched.1 = .ok () ∧ result = .ok out := by
  unfold decodeResult at finished
  split at finished
  · cases finished
  · next answered =>
      cases finished
      exact ⟨answered, rfl⟩
  · cases finished
  · cases finished

theorem start_inStep (may : mayDecode self threads = .ok ()) (live : Live self ahead)
    (w : List UInt8) :
    InStep (dispatcher self threads) { writer := w } (self.rebased, { writer := w }) :=
  ⟨rfl, rfl, rfl, live.limit, live.user, rfl, Nat.two_pow_pos _, (mayDecode_ok may).1⟩

/-- When the dispatcher has succeeded and the writer thread can do with its items, what is put
    out was in front of the reader. -/
theorem led_rest (mem' : Nat → UInt8) (may : mayDecode self threads = .ok ()) (live : Live self ahead)
    {items : List DecodeItem} {t : Dispatcher σ} {out : ConcurrentDecode (List UInt8)}
    (leads : (dispatchLoop (dispatcher self threads)).Leads items (.done (.ok (), t)))
    (eaten : (decodeStages m Sink.vec mem).eatAll { writer := w } items = .ok out) :
    ∃ payload, Rest mem' self.rebased payload ∧ out.writer = w ++ payload ∧
      out.bytesWritten = payload.length % 2 ^ 64 := by
  have drained : Drained self.rebased := rfl
  have tracks := dispatchLoop_tracks m mem mem' (start_inStep may live w)
  obtain ⟨⟨s', out'⟩, ran, related⟩ := tracks.led leads eaten
  obtain ⟨payload, rest, writer, count⟩ := gather_rest drained live.rebased ran
  obtain rfl : out = out' := related.out
  refine ⟨payload, rest, writer, ?_⟩
  rw [count (Nat.two_pow_pos _), Nat.zero_add]

/-- What is decoded is what a reader without a block has in front of it. -/
theorem concurrent_rest (mem' : Nat → UInt8) (may : mayDecode self threads = .ok ())
    (live : Live self ahead)
    (decoded : DecodeConcurrent m Sink.vec mem self w threads result) :
    (∀ out, result = .ok out → ∃ payload, Rest mem' self.rebased payload ∧
      out.writer = w ++ payload ∧ out.bytesWritten = payload.length % 2 ^ 64) ∧
    ∀ payload, Rest mem' self.rebased payload → payload.length < 2 ^ 64 →
      result = .ok ⟨payload.length, w ++ payload⟩ := by
  cases decoded with
  | refused refused => cases may.symm.trans refused
  | @ended s dispatched result _ run ended =>
      obtain ⟨dispatched, t'⟩ := dispatched
      constructor
      · intro out finished
        obtain ⟨answered, rfl⟩ := decodeResult_ok finished
        obtain rfl : dispatched = .ok () := answered
        obtain ⟨items, g', leads, eaten, closed⟩ := ended_ok run ended
        cases closed
        exact led_rest mem' may live leads eaten
      · intro payload rest small
        have drained : Drained self.rebased := rfl
        obtain ⟨s', ran⟩ := rest.gather (m := m) drained live.rebased
          { writer := w } (by rwa [Nat.zero_add]) (Nat.lt_succ_self _)
        have tracks := dispatchLoop_tracks m mem mem' (start_inStep may live w)
        have success := tracks.succeeds ran
          (D := fun d => d = ⟨payload.length, w ++ payload⟩)
          (fun t' g' related => ⟨g', rfl, related.out.trans (by rw [Nat.zero_add])⟩) run ended
        obtain ⟨rfl, d, rfl, rfl⟩ := success
        rfl

/-- A reader that has just been built may decode. -/
theorem build_mayDecode {b : ReaderBuilder σ} {data : List UInt8} {world : σ}
    (built : b.build data world = .ok self) (some : 0 < threads) :
    mayDecode self threads = .ok () ∧ self.rebased = self := by
  rw [ReaderBuilder.build] at built
  split at built
  · cases built
  · cases built
    rw [mayDecode, if_neg (Nat.pos_iff_ne_zero.mp some)]
    exact ⟨rfl, rfl⟩

/-- Decoding with any number of threads, in whatever order they act, is reading to the end. -/
theorem decoded_together (m : Overflow) {b : ReaderBuilder σ} {data : List UInt8} {world : σ}
    (built : b.build data world = .ok self) (some : 0 < threads)
    (decoded : DecodeConcurrent m Sink.vec mem self w threads result) :
    (∀ out, result = .ok out → ∃ payload, DecodesTo m mem' self payload ∧
      out.writer = w ++ payload ∧ out.bytesWritten = payload.length % 2 ^ 64) ∧
    ∀ payload, DecodesTo m mem' self payload → payload.length < 2 ^ 64 →
      result = .ok ⟨payload.length, w ++ payload⟩ := by
  have live := live_build built
  obtain ⟨may, fresh⟩ := build_mayDecode built some
  obtain ⟨sound, complete⟩ := concurrent_rest mem' may live decoded
  rw [fresh] at sound complete
  constructor
  · intro out finished
    obtain ⟨payload, rest, written⟩ := sound out finished
    exact ⟨payload, (decodesTo_iff live).mpr rest, written⟩
  · exact fun payload reads => complete payload ((decodesTo_iff live).mp reads)

/-- Two compressed blocks, and two workers. -/
theorem decoded_together_twice :
    DecodeConcurrent .panics Sink.vec (fun _ => 0) (withBuilder {} twoCompressed ()) [7] 2
      (.ok ⟨64, 7 :: List.replicate 64 9⟩) := by
  obtain ⟨_, tended⟩ := decode_tended (n := 2) .panics Sink.vec (fun _ => 0)
    (withBuilder {} twoCompressed ()) [7] (by decide) (.refl _)
  obtain ⟨t, dispatched, result, run, ended⟩ := tended.ends (Nat.succ_pos 2)
  have decoded : DecodeConcurrent .panics Sink.vec (fun _ => 0) (withBuilder {} twoCompressed ())
      [7] 2 (decodeResult dispatched result) := .ended rfl run ended
  have blocks : outcomes .panics (fun _ => 0) [50, 50, 50] (withBuilder {} twoCompressed ()) =
      [.ok (List.replicate 32 9), .ok (List.replicate 32 9), .ok []] := by decide +kernel
  have whole := (decoded_together (b := {}) .panics rfl (by decide) decoded).2 _
    (decodesTo_of_outcomes [50, 50] [List.replicate 32 9, List.replicate 32 9] blocks rfl
      (by decide) (by decide))
    (by decide)
  rw [whole] at decoded
  exact decoded

end Runs

section Logging

variable {τ : Type} {m : Overflow} {sink : Sink τ} {mem mem' : Nat → UInt8} {self : Reader σ}
  {threads : Nat} {g g' : ConcurrentDecode (Logged τ)}

/-- What the writer thread has when its sink is a vector. -/
def ConcurrentDecode.onVec (g : ConcurrentDecode (Logged τ)) : ConcurrentDecode (List UInt8) where
  bytesWritten := g.bytesWritten
  writer := g.writer.taken

theorem writeDecoded_took {buf : List UInt8} {w : Logged τ}
    (took : sink.logged.writeAll buf g.writer = (.ok (), w)) :
    writeDecoded m sink.logged (.ok buf) g =
      word (m.unsigned ((g.bytesWritten + buf.length : Nat) : Int)) >>= fun n => .ok ⟨n, w⟩ := by
  rw [Nat.cast_add]
  simp only [writeDecoded, took]
  rfl

theorem writeDecoded_onVec {r : Except Error (List UInt8)} (fine : ¬g.writer.Failed)
    (wrote : writeDecoded m sink.logged r g = .ok g') :
    writeDecoded m Sink.vec r g.onVec = .ok g'.onVec ∧ ¬g'.writer.Failed := by
  cases r with
  | error e => cases wrote
  | ok buf =>
      rcases result : sink.writeAll buf g.writer.w with ⟨e | _, w⟩
      · simp only [writeDecoded, Sink.logged, result] at wrote
        obtain ⟨_, _, wrote⟩ := bind_eq_ok wrote
        cases wrote
      · have took : sink.logged.writeAll buf g.writer =
            (.ok (), ⟨w, g.writer.calls ++ [(buf, true)]⟩) := by
          simp only [Sink.logged, result]
        rw [writeDecoded_took took] at wrote
        obtain ⟨n, count, wrote⟩ := bind_eq_ok wrote
        cases wrote
        constructor
        · have same : g.onVec.bytesWritten = g.bytesWritten := rfl
          rw [writeDecoded_vec, same, count]
          simp only [ConcurrentDecode.onVec, taken_snoc]
          rfl
        · rintro ⟨q, mem⟩
          rcases List.mem_append.mp mem with mem | mem
          · exact fine ⟨q, mem⟩
          · cases List.mem_singleton.mp mem

/-- When the writer thread can do with the items, it can do with them on a vector. -/
theorem eatDecoded_onVec (items : List DecodeItem) (fine : ¬g.writer.Failed)
    (eaten : (decodeStages m sink.logged mem).eatAll g items = .ok g') :
    (decodeStages m Sink.vec mem).eatAll g.onVec items = .ok g'.onVec ∧ ¬g'.writer.Failed := by
  induction items generalizing g with
  | nil =>
      cases eaten
      exact ⟨rfl, fine⟩
  | cons item items ih =>
      rw [← List.singleton_append, eatAll_append] at eaten
      obtain ⟨g1, first, rest⟩ := bind_eq_ok eaten
      obtain ⟨r, made, wrote⟩ := eatAll_one.mp first
      obtain ⟨other, fine⟩ := writeDecoded_onVec (r := r) fine wrote
      obtain ⟨tail, fine⟩ := ih fine rest
      refine ⟨?_, fine⟩
      rw [← List.singleton_append, eatAll_append,
        show (decodeStages m Sink.vec mem).eatAll g.onVec [item] = .ok g1.onVec from
          eatAll_one.mpr ⟨r, made, other⟩]
      exact tail

/-- However the threads take turns and whichever calls on the sink fail: when decoding
    succeeds, the sink has accepted every call, and has been given all that reading the
    stream to its end hands out. -/
theorem decoded_whole (m : Overflow) (sink : Sink τ) {b : ReaderBuilder σ} {data : List UInt8}
    {world : σ} (built : b.build data world = .ok self) (some : 0 < threads) {w : τ}
    {out : ConcurrentDecode (Logged τ)}
    (decoded : DecodeConcurrent m sink.logged mem self ⟨w, []⟩ threads (.ok out)) :
    ¬out.writer.Failed ∧ DecodesTo m mem' self out.writer.taken ∧
      out.bytesWritten = out.writer.taken.length % 2 ^ 64 := by
  have live := live_build built
  obtain ⟨may, fresh⟩ := build_mayDecode built some
  generalize known : (Except.ok out : Except (Stop IoError) _) = result at decoded
  cases decoded with
  | refused refused => cases may.symm.trans refused
  | @ended s dispatched result _ run ended =>
      obtain ⟨dispatched, t⟩ := dispatched
      obtain ⟨answered, rfl⟩ := decodeResult_ok known.symm
      obtain rfl : dispatched = .ok () := answered
      obtain ⟨items, g', leads, eaten, closed⟩ := ended_ok run ended
      obtain ⟨eaten, fine⟩ := eatDecoded_onVec items (fun ⟨_, mem⟩ => by cases mem) eaten
      obtain ⟨payload, rest, writer, count⟩ := led_rest mem' may live leads eaten
      rw [fresh] at rest
      have closed : flushDecoded sink.logged g' = .ok out := closed
      rcases flushed : sink.flush g'.writer.w with ⟨e | _, w'⟩
      · simp only [flushDecoded, Sink.logged, flushed] at closed
        cases closed
      · simp only [flushDecoded, Sink.logged, flushed] at closed
        cases closed
        obtain rfl : g'.writer.taken = payload := writer
        exact ⟨fine, (decodesTo_iff live).mpr rest, count⟩

/-- A sink with room for the bytes. -/
theorem decoded_whole_room : ∃ out : ConcurrentDecode (Logged Nat),
    DecodeConcurrent .panics Sink.room.logged (fun _ => 0) (withBuilder {} twoCompressed ())
      ⟨100, []⟩ 2 (.ok out) ∧
    ¬out.writer.Failed ∧
    DecodesTo .panics (fun _ => 0) (withBuilder {} twoCompressed ()) out.writer.taken := by
  have returns : ((played (decodeStages .panics Sink.room.logged (fun _ => 0)) 3
      (List.replicate 30 [Actor.handler, .worker 0, .worker 1, .consumer]).flatten
      (start (dispatchLoop (dispatcher (withBuilder {} twoCompressed ()) 2))
        { writer := (⟨100, []⟩ : Logged Nat) })).outcome 2).any
        (fun r => (decodeResult r.1 r.2).isOk) = true := by
    decide +kernel
  obtain ⟨⟨dispatched, result⟩, known, fine⟩ := (Option.any_eq_true _ _).mp returns
  have run : Run (decodeStages .panics Sink.room.logged (fun _ => 0)) 3 _ _ := run_played
    (List.replicate 30 [Actor.handler, .worker 0, .worker 1, .consumer]).flatten
    (start (dispatchLoop (dispatcher (withBuilder {} twoCompressed ()) 2))
      { writer := (⟨100, []⟩ : Logged Nat) })
  obtain ⟨_, tended⟩ := decode_tended (n := 2) .panics Sink.room.logged (fun _ => 0)
    (withBuilder {} twoCompressed ()) ⟨100, []⟩ (by decide) run
  cases finished : decodeResult dispatched result with
  | error e =>
      rw [finished] at fine
      cases fine
  | ok out =>
      have decoded : DecodeConcurrent .panics Sink.room.logged (fun _ => 0)
          (withBuilder {} twoCompressed ()) ⟨100, []⟩ 2 (.ok out) :=
        finished ▸ .ended rfl run (tended.outcome known)
      obtain ⟨whole, reads, -⟩ := decoded_whole (b := {}) .panics Sink.room rfl (by decide) decoded
      exact ⟨out, decoded, whole, reads⟩

end Logging

/-- The stream at hand ends with its length, before another begins. -/
def StatesLength (data : List UInt8) : Prop :=
  ∃ before total after, chunks data = before ++ ⟨chunkTypeEof, total⟩ :: after ∧ total ≠ [] ∧
    ∀ c ∈ before, c.kind ≠ chunkTypeEof ∧ c.kind ≠ chunkTypeStreamIdentifier

/-- Two readers at the end of a block, of which the second has not counted all bytes. -/
structure Miscounts (s t : Reader σ) : Prop where
  same : t = s.holding t
  strict : s.ignoreStreamId = false
  left : Drained s
  right : Drained t
  missed : t.blockEnd ≠ s.blockEnd

section Miscounts

variable {mem : Nat → UInt8} {s t s' t' : Reader σ} {kind b0 b1 b2 : UInt8} {body : List UInt8}

theorem Miscounts.headed (h : Miscounts s t) (kind : UInt8) (body : List UInt8) :
    Miscounts (s.headed kind body) (t.headed kind body) := by
  refine ⟨?_, h.strict, h.left, h.right, h.missed⟩
  conv_lhs => rw [h.same]
  rfl

/-- A chunk within the stream leaves the two apart. -/
theorem Miscounts.step (h : Miscounts s t) (head : s.r = kind :: b0 :: b1 :: b2 :: body)
    (inside : kind ≠ chunkTypeEof ∧ kind ≠ chunkTypeStreamIdentifier)
    (run : readChunk mem (s.headed kind body) kind (readChunkLen b0 b1 b2) = .ok ((), s'))
    (run' : readChunk mem (t.headed kind body) kind (readChunkLen b0 b1 b2) = .ok ((), t')) :
    Miscounts s'.drain t'.drain := by
  have again := h.headed kind body
  have head' : t.r = kind :: b0 :: b1 :: b2 :: body := (congrArg Reader.r h.same).trans head
  by_cases data : HasBlock kind
  · obtain ⟨c, rest, next, rfl, first⟩ := readChunk_cases mem head run
    obtain ⟨c', rest', next', _, second⟩ := readChunk_cases mem head' run'
    have sameCrc : t.ignoreCrc = s.ignoreCrc := (congrArg Reader.ignoreCrc h.same :)
    rw [head', ← head] at next'
    cases next.symm.trans next'
    obtain ⟨out, accepted, _, rfl⟩ := first.resolve_right fun h => h.1 (Chunk.isData_of_hasBlock data)
    obtain ⟨out', accepted', _, rfl⟩ :=
      second.resolve_right fun h => h.1 (Chunk.isData_of_hasBlock data)
    rw [sameCrc] at accepted'
    cases accepted.symm.trans accepted'
    refine ⟨?_, h.strict, rfl, rfl, fun same => again.missed (UInt64.add_left_inj _ |>.mp same)⟩
    rw [Reader.loaded]
    conv_lhs => rw [again.same]
    rfl
  · rw [readChunk, if_neg data, otherChunk, if_neg inside.1, if_neg inside.2] at run run'
    by_cases low : kind ≤ maxNonSkippableChunk
    · rw [if_pos low] at run
      cases run
    · rw [if_neg low] at run run'
      obtain ⟨s1, skips, run⟩ := bind_eq_ok run
      cases run
      obtain ⟨t1, skips', run'⟩ := bind_eq_ok run'
      cases run'
      rw [again.same, skippableChunk_holding, skips] at skips'
      cases skips'
      have drained : Drained s' :=
        otherChunk_drained data
          (by rw [otherChunk, if_neg inside.1, if_neg inside.2, if_neg low, skips])
          again.left
      obtain ⟨same, strict⟩ := skippableChunk_keeps skips
      rw [drained.drain_eq]
      exact ⟨rfl, strict.trans h.strict, drained, rfl, fun equal => again.missed (equal.trans same)⟩

/-- The end of a stream that states its length stops one of the two. -/
theorem Miscounts.stops (h : Miscounts s t) {len : Nat}
    (stated : len ≠ 0) (run : eofChunk s len = .ok s') : eofChunk t len ≠ .ok t' := by
  have counted {u u' : Reader σ} (checks : u.ignoreStreamId = false)
      (run : eofChunk u len = .ok u') :
      ∃ n, getUvarint (u.r.take len) = some (u.blockEnd.toNat, n) := by
    obtain ⟨_, _, run⟩ := bind_eq_ok run
    obtain ⟨⟨c, rest⟩, took, run⟩ := bind_eq_ok run
    obtain ⟨_, total, run⟩ := bind_eq_ok run
    rw [takeBody] at took
    split at took
    · cases took
      have total : checkTotal u (u.r.take len) = .ok () := by
        simp only [ne_eq, stated, not_false_eq_true, if_true] at total
        exact total
      rw [checkTotal, checks, if_neg Bool.false_ne_true] at total
      split at total
      · cases total
      · next want n known =>
          obtain ⟨_, _, total⟩ := bind_eq_ok total
          rw [not_not.mp (of_reject total)] at known
          exact ⟨n, known⟩
    · cases took
  intro run'
  obtain ⟨_, known⟩ := counted h.strict run
  obtain ⟨_, known'⟩ := counted ((congrArg Reader.ignoreStreamId h.same).trans h.strict) run'
  have source : t.r = s.r := (congrArg Reader.r h.same :)
  rw [source, known] at known'
  exact h.missed (UInt64.toNat_inj.mp (Prod.mk.inj (Option.some.inj known')).1.symm)

/-- The next chunk of a reader that reads on. -/
theorem Rest.takes {left : List UInt8} {c : Chunk} {cs : List Chunk} (rest : Rest mem s left)
    (drained : Drained s) (ahead : chunks s.r = c :: cs) : ∃ b0 b1 b2 body s' left',
      s.r = c.kind :: b0 :: b1 :: b2 :: body ∧ readChunkLen b0 b1 b2 = c.body.length ∧
      readChunk mem (s.headed c.kind body) c.kind (readChunkLen b0 b1 b2) = .ok ((), s') ∧
      chunks s'.r = cs ∧ Rest mem s'.drain left' := by
  cases rest with
  | ended _ run =>
      obtain ⟨empty, _⟩ := nextRead_none mem run
      rw [empty, chunks_end rfl] at ahead
      cases ahead
  | block unread => exact absurd unread drained.not_unread
  | @chunk _ s' left _ run rest =>
      have turn := turn_nextChunk (dispatch_read_ends mem) (readChunk_exits mem) s
      rw [show nextChunk _ _ _ s = _ from run] at turn
      cases turn with
      | @took kind b0 b1 b2 body _ _ head reads _ =>
          obtain ⟨c', tail, next, rfl, outcome⟩ := readChunk_cases mem head reads
          have after : s'.r = tail := by
            rcases outcome with ⟨_, _, _, rfl⟩ | ⟨_, passes⟩
            · rfl
            · exact passes.r
          rw [chunks_next next] at ahead
          cases ahead
          have length : readChunkLen b0 b1 b2 = c.body.length := by
            rw [head, Chunk.next] at next
            split at next
            · next enough =>
                have body := congrArg Chunk.body (Prod.mk.inj (Option.some.inj next)).1
                rw [← body, List.length_take, Nat.min_eq_left enough]
            · cases next
          exact ⟨b0, b1, b2, body, s', _, head, length, reads, congrArg chunks after,
            rest.at_hand.2⟩

/-- Both cannot read on to the end. -/
theorem Miscounts.apart (h : Miscounts s t)
    (states : StatesLength s.r) {left left' : List UInt8} (rest : Rest mem s left)
    (rest' : Rest mem t left') : False := by
  obtain ⟨before, total, after, split, stated, inside⟩ := states
  have source {s t : Reader σ} (h : Miscounts s t) : t.r = s.r := (congrArg Reader.r h.same :)
  induction before generalizing s t left left' with
  | nil =>
      have ends {u u' : Reader σ} {body : List UInt8} {len : Nat}
          (run : readChunk mem (u.headed chunkTypeEof body) chunkTypeEof len = .ok ((), u')) :
          eofChunk (u.headed chunkTypeEof body) len = .ok u' := by
        rw [readChunk, if_neg (by decide), otherChunk, if_pos rfl] at run
        obtain ⟨_, run, same⟩ := bind_eq_ok run
        cases same
        exact run
      obtain ⟨b0, b1, b2, body, s', _, head, length, run, _⟩ := rest.takes h.left split
      obtain ⟨c0, c1, c2, body', t', _, head', length', run', _⟩ :=
        rest'.takes h.right (source h ▸ split)
      have more : total.length ≠ 0 := fun none => stated (List.eq_nil_of_length_eq_zero none)
      rw [source h, head] at head'
      cases head'
      refine (h.headed chunkTypeEof body).stops (length ▸ more) (ends run) (ends run')
  | cons c before ih =>
      obtain ⟨b0, b1, b2, body, s', _, head, length, run, ahead, rest⟩ := rest.takes h.left split
      obtain ⟨c0, c1, c2, body', t', _, head', length', run', ahead', rest'⟩ :=
        rest'.takes h.right (source h ▸ split)
      rw [source h, head] at head'
      cases head'
      have within := inside c List.mem_cons_self
      exact ih (h.step head within run run') rest rest' ahead fun c mem =>
        inside c (List.mem_cons_of_mem _ mem)

end Miscounts

section Resumed

variable {m : Overflow} {mem mem' : Nat → UInt8} {b : ReaderBuilder σ} {data : List UInt8}
  {world : σ} {self : Reader σ} {w left : List UInt8} {threads : Nat}
  {result : Except (Stop IoError) (ConcurrentDecode (List UInt8))}

/-- A reader within a stream that states its length, of which it has handed out some bytes,
    does not decode the rest with threads. Within a block it says why. -/
theorem resumed_fails (reached : Reached m mem b data world self) (valid : DecodesTo m mem self left)
    (states : StatesLength self.r) (strict : self.ignoreStreamId = false)
    (consumed : self.currentOffset ≠ 0)
    (decoded : DecodeConcurrent m Sink.vec mem' self w threads result) :
    ∃ e, result = .error e ∧ (0 < threads → self.decodedPos < self.decoded.length →
      e = .error ⟨.invalidInput, "decode_concurrent called after Read"⟩) := by
  obtain ⟨_, live⟩ := reached.live
  cases may : mayDecode self threads with
  | error e =>
      cases decoded with
      | ended may' => cases may.symm.trans may'
      | @refused e' refused =>
          refine ⟨e', rfl, fun some unread => ?_⟩
          rw [mayDecode, if_neg (Nat.pos_iff_ne_zero.mp some), if_pos unread] at refused
          exact (Except.error.inj refused).symm
  | ok _ =>
      obtain ⟨_, all, _⟩ := mayDecode_ok may
      obtain ⟨sound, _⟩ := concurrent_rest mem may live decoded
      cases result with
      | error e => exact ⟨e, rfl, fun _ unread => absurd unread all⟩
      | ok out =>
          obtain ⟨payload, rest, _⟩ := sound out rfl
          have drained : Drained self := Nat.le_antisymm live.pos (Nat.not_lt.mp all)
          have apart : Miscounts self self.rebased := by
            refine ⟨rfl, strict, drained, rfl, fun same => consumed ?_⟩
            rw [Reader.currentOffset, drained]
            exact same.symm
          exact (apart.apart states ((decodesTo_iff live).mp valid) rest).elim

/-- A stream of two blocks of two bytes. -/
def twoBlocks : List UInt8 := twoBytes ++ twoBytes.drop 10 ++ [chunkTypeEof, 1, 0, 0, 4]

/-- Between the two blocks nothing is unread, and decoding starts and fails. -/
theorem resumed_fails_between : ∃ self e,
    read .panics (fun _ => 0) 2 (withBuilder {} twoBlocks ()) = .ok [42, 43] self ∧
    mayDecode self 2 = .ok () ∧
    DecodeConcurrent .panics Sink.vec (fun _ => 0) self [] 2 (.error e) := by
  have front : (do
      let bytes ← read .panics (fun _ => 0) 2
      let self ← get
      return (bytes, self.r, [self.decodedPos, self.decoded.length, self.currentOffset.toNat],
        [self.err.isSome, self.ignoreStreamId]) :
      Action Unit (List UInt8 × List UInt8 × List Nat × List Bool)).run'
        (withBuilder {} twoBlocks ()) =
      some ([42, 43], twoBlocks.drop 20, [2, 2, 2], [false, false]) := by decide +kernel
  obtain ⟨_, front⟩ := ok_of_run' front
  obtain ⟨bytes, self, run, front⟩ := run_bind_ok front
  obtain ⟨_, _, got, front⟩ := run_bind_ok front
  cases got
  have known := (EStateM.Result.ok.inj front).1
  simp only [Prod.mk.injEq, List.cons.injEq, and_true] at known
  obtain ⟨rfl, source, ⟨pos, length, offset⟩, clear, strict⟩ := known
  have clear : self.err = none := by
    cases err : self.err with
    | none => rfl
    | some e =>
        rw [err] at clear
        cases clear
  have may : mayDecode self 2 = .ok () := by
    rw [mayDecode, if_neg (by decide), if_neg (by omega), clear]
  have behind : outcomes .panics (fun _ => 0) [2, 2] self = [[42, 43]].map .ok ++ [.ok []] := by
    have all : outcomes .panics (fun _ => 0) [2, 2, 2] (withBuilder {} twoBlocks ()) =
        [[42, 43], [42, 43]].map .ok ++ [.ok []] := by decide +kernel
    rw [outcomes, run] at all
    exact (List.cons.inj all).2
  have states : StatesLength self.r := by
    refine ⟨[⟨chunkTypeUncompressedData, twoBytes.drop 14⟩], [4], [], ?_, by decide, by decide⟩
    rw [source, chunks_next (rfl : Chunk.next _ = some (_, _)),
      chunks_next (rfl : Chunk.next _ = some (_, _)), chunks_end rfl]
    rfl
  obtain ⟨_, tended⟩ := decode_tended (n := 2) .panics Sink.vec (fun _ => 0) self []
    (by decide) (.refl _)
  obtain ⟨t, dispatched, result, ran, ended⟩ := tended.ends (Nat.succ_pos 2)
  have decoded : DecodeConcurrent .panics Sink.vec (fun _ => 0) self [] 2
      (decodeResult dispatched result) := .ended may ran ended
  have first : Call.run .panics (fun _ => 0) (.read 2) (withBuilder {} twoBlocks ()) =
      .ok [42, 43] self := run
  have built : ({} : ReaderBuilder Unit).build twoBlocks () = .ok (withBuilder {} twoBlocks ()) :=
    rfl
  obtain ⟨e, failed, -⟩ := resumed_fails (.step (.built built) first)
    (decodesTo_of_outcomes [2] [[42, 43]] behind rfl (by decide) (by decide))
    states strict (fun none => by rw [none] at offset; cases offset) decoded
  exact ⟨self, e, run, may, failed ▸ decoded⟩

end Resumed

end MinLz.Stream
