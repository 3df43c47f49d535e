import MinLz.Lib.Sequential
import MinLz.Stream.MtReader
import MinLz.Stream.ToEnd

/-! # The threads of a decode and one reader

The dispatcher, a worker and the writer thread do together with a chunk what a reader does
with it. They are compared with a reader that gathers its blocks; the reader of the
dispatcher is the same up to the block, which the dispatcher has none of.
-/

namespace MinLz.Stream

open Block (maxBlockSize)
open Machine (Overflow)
open Effects Loop
open Pipeline

variable {σ : Type}

/-- The reader with the block of another at hand. -/
def Reader.holding (self other : Reader σ) : Reader σ :=
  { self with
    decoded := other.decoded, decodedPos := other.decodedPos, blockStart := other.blockStart }

/-- The job of a chunk. -/
def Reader.jobOf (self : Reader σ) (c : Chunk) : DecodeJob :=
  ⟨c.kind, c.body.drop checksumSize, c.checksum, self.ignoreCrc, self.maxBlock⟩

/-- A compressed chunk as the dispatcher reads it, with its decoded length. -/
def frameJob (self : Reader σ) (kind : UInt8) (len : Nat) : Exec (Nat × Chunk × List UInt8) := do
  reject (len > maxBufSize self) .corrupt
  let (c, rest) ← takeBody kind len self.r
  let dlen ← ofBlock (Block.decodedLenChunkBody (c.body.drop checksumSize))
  return (dlen, c, rest)

theorem readJob_ends (kind : UInt8) (len : Nat) (s : Reader σ) :
    Ends (readJob kind len) s (frameJob s kind len >>= fun (dlen, c, rest) =>
      .ok ((s.jobOf c, dlen), { s with r := rest })) := by
  rw [readJob, frameJob]
  simp only [bind_assoc, pure_bind]
  refine Ends.step rfl (Ends.lift fun _ _ => Ends.via (readExact_ends kind len s) ?_)
  rintro ⟨c, rest⟩ took
  obtain ⟨rfl, _⟩ := takeBody_ok took
  exact Ends.lift fun dlen _ => Ends.step rfl (ends_ok rfl)

theorem unpackUncompressed_checked (kind : UInt8) (body : List UInt8) :
    unpackUncompressed false ⟨kind, body⟩ = verifyCrc (body.drop checksumSize) (readU32Le body) >>=
      fun _ => .ok (body.drop checksumSize) := by
  rw [unpackUncompressed, if_neg Bool.false_ne_true]
  rfl

/-- A stored chunk as the dispatcher reads it. -/
def frameStored (self : Reader σ) (len : Nat) : Exec (List UInt8 × List UInt8) := do
  reject (len > maxBufSize self) .corrupt
  reject (len - checksumSize > self.maxBlock) .tooLarge
  let (c, rest) ← takeBody chunkTypeUncompressedData len self.r
  let out ← unpackUncompressed self.ignoreCrc c
  return (out, rest)

theorem readStored_ends {len : Nat} (long : ¬len < checksumSize) (s : Reader σ) :
    Ends (readStored len) s (frameStored s len >>= fun (out, rest) =>
      .ok (out, { s with r := rest })) := by
  rw [frameStored]
  simp only [bind_assoc, pure_bind]
  rw [readStored]
  refine Ends.step rfl (Ends.lift fun _ _ => Ends.lift fun _ _ => ?_)
  by_cases enough : len ≤ s.r.length
  · have first : readExactOrCorrupt checksumSize s =
        .ok (s.r.take checksumSize) { s with r := s.r.drop checksumSize } := if_pos (by omega)
    have second : readExactOrCorrupt (len - checksumSize) { s with r := s.r.drop checksumSize } =
        .ok ((s.r.take len).drop checksumSize) { s with r := s.r.drop len } := by
      rw [readExactOrCorrupt, if_pos (by simp only [List.length_drop]; omega), List.drop_drop,
        ← List.drop_take, Nat.add_sub_cancel' (by omega)]
    refine Ends.step first (Ends.step second ?_)
    rw [takeBody, if_pos enough, readU32Le_take le_rfl, ← readU32Le_take (Nat.not_lt.mp long)]
    show Ends _ _
      (unpackUncompressed s.ignoreCrc ⟨chunkTypeUncompressedData, s.r.take len⟩ >>= _)
    cases s.ignoreCrc with
    | true => exact ends_ok rfl
    | false =>
        rw [Bool.not_false, if_pos rfl, unpackUncompressed_checked, bind_assoc]
        exact Ends.lift fun _ _ => ends_ok rfl
  · rw [takeBody, if_neg enough]
    by_cases some : checksumSize ≤ s.r.length
    · have first : readExactOrCorrupt checksumSize s =
          .ok (s.r.take checksumSize) { s with r := s.r.drop checksumSize } := if_pos some
      refine Ends.step first (ends_error (bind_error (if_neg ?_)))
      simp only [List.length_drop]
      omega
    · exact ends_error (bind_error (if_neg some))

theorem checkEmitted_eq (s o : Reader σ) (tmp : List UInt8) :
    checkEmitted (s.holding o) s.blockEnd tmp = checkTotal s tmp := by
  rw [checkEmitted, checkTotal, show (s.holding o).ignoreStreamId = s.ignoreStreamId from rfl]
  split
  · rfl
  · cases getUvarint tmp with
    | none => rfl
    | some x =>
        obtain ⟨want, n⟩ := x
        by_cases whole : n = tmp.length
        · simp only [reject, whole, ne_eq, not_true_eq_false, false_or]
          rfl
        · simp only [reject, whole, ne_eq, not_false_eq_true, true_or]
          rfl

theorem readEof_ends (len : Nat) (s o : Reader σ) :
    Ends (readEof s.blockEnd len) (s.holding o)
      (eofChunk s len >>= fun s' => .ok ((), s'.holding o)) := by
  rw [readEof, eofChunk]
  simp only [bind_assoc, pure_bind]
  refine Ends.lift fun _ _ => ?_
  by_cases none : len = 0
  · subst none
    exact ends_ok rfl
  · rw [if_pos (Nat.pos_of_ne_zero none)]
    refine Ends.via (readExact_ends chunkTypeEof len (s.holding o)) ?_
    rintro ⟨c, rest⟩ _
    refine Ends.step rfl ?_
    simp only [ne_eq, none, not_false_eq_true, if_true]
    rw [← checkEmitted_eq s o c.body]
    exact Ends.lift fun _ _ => ends_ok rfl

theorem readMagic_ends (len : Nat) (s o : Reader σ) :
    Ends (readMagic len) (s.holding o)
      (identifierChunk s len >>= fun s' => .ok ((), s'.holding o)) := by
  rw [readMagic, identifierChunk]
  simp only [bind_assoc, pure_bind]
  refine Ends.lift fun _ _ =>
    Ends.via (readExact_ends chunkTypeStreamIdentifier _ (s.holding o)) ?_
  rintro ⟨c, rest⟩ _
  exact Ends.lift fun newMax _ => Ends.step rfl (Ends.lift fun _ _ => ends_ok rfl)

theorem requireHeader_eq (kind : UInt8) (body : List UInt8) (s : Reader σ) :
    requireHeader kind { s with r := body } =
      if Misplaced s kind then .error (.error Error.corrupt.toIo) { s with r := body }
      else .ok () (s.headed kind body) := by
  refine (get_bind _ _).trans ?_
  cases known : s.headerRead with
  | true => simp [Misplaced, Reader.headed, known]; rfl
  | false =>
      rw [if_pos rfl]
      by_cases identifier : kind = chunkTypeStreamIdentifier
      · simp [Misplaced, Reader.headed, identifier]; rfl
      · by_cases required : kind ≤ maxNonSkippableChunk ∧ kind ≠ chunkTypeEof
        · rw [if_neg identifier, if_pos required, if_pos ⟨known, identifier, required⟩]
          rfl
        · rw [if_neg identifier, if_neg required, if_neg fun h => required h.2.2, Reader.headed,
            known, Bool.false_or, beq_eq_false_iff_ne.mpr identifier]
          rfl

section Gathering

variable (m : Overflow) (mem : Nat → UInt8)

/-- A reader and what has been put out of it. -/
abbrev Gathering (σ α : Type) :=
  EStateM (Stop IoError) (Reader σ × ConcurrentDecode (List UInt8)) α

/-- An action of the reader. -/
def fromReader {α : Type} (x : Action σ α) : Gathering σ α := fun (s, out) =>
  match x s with
  | .ok a s => .ok a (s, out)
  | .error e s => .error e (s, out)

/-- Put out the block at hand. -/
def gatherBlock : Gathering σ Unit := do
  let (s, out) ← get
  let out ← writeDecoded m Sink.vec (.ok (s.decoded.drop s.decodedPos)) out
  set (s.drain, out)

/-- Read the next chunk and put out its block. -/
def gatherStep (_ : Unit) : Gathering σ (Iter Unit Unit) := do
  match ← fromReader (nextRead mem) with
  | none => return .done ()
  | some () =>
      gatherBlock m
      return .next ()

/-- Read up to the end of the source, and put out the blocks. -/
def gather (n : Nat) : Gathering σ Unit :=
  runM (.fault .unfinished) (gatherStep m mem) n ()

variable {m mem} {s s' : Reader σ} {out out' : ConcurrentDecode (List UInt8)}
  {left buf : List UInt8} {ahead : List (Option UInt8)}

theorem writeDecoded_vec (m : Overflow) (buf : List UInt8) (out : ConcurrentDecode (List UInt8)) :
    writeDecoded m Sink.vec (.ok buf) out =
      word (m.unsigned ((out.bytesWritten + buf.length : Nat) : Int)) >>= fun n =>
        .ok ⟨n, out.writer ++ buf⟩ := by
  rw [Nat.cast_add]
  rfl

theorem writeDecoded_small (m : Overflow)
    (small : out.bytesWritten + buf.length < 2 ^ 64) :
    writeDecoded m Sink.vec (.ok buf) out =
      .ok ⟨out.bytesWritten + buf.length, out.writer ++ buf⟩ := by
  rw [writeDecoded_vec, Machine.unsigned_ok m small]
  rfl

theorem writeDecoded_counts (run : writeDecoded m Sink.vec (.ok buf) out = .ok out') :
    out'.writer = out.writer ++ buf ∧
      out'.bytesWritten = (out.bytesWritten + buf.length) % 2 ^ 64 := by
  rw [writeDecoded_vec, Machine.unsigned_nat] at run
  split at run
  · cases run
    exact ⟨rfl, rfl⟩
  · cases run

theorem fromReader_ok {α : Type} {x : Action σ α} {a : α} (run : x s = .ok a s') :
    fromReader x (s, out) = .ok a (s', out) := by
  rw [fromReader, run]

theorem fromReader_error {α : Type} {x : Action σ α} {e : Stop IoError} (run : x s = .error e s') :
    fromReader x (s, out) = .error e (s', out) := by
  rw [fromReader, run]

theorem gatherBlock_ok
    (wrote : writeDecoded m Sink.vec (.ok (s.decoded.drop s.decodedPos)) out = .ok out') :
    gatherBlock m (s, out) = .ok () (s.drain, out') :=
  (get_bind _ _).trans (bind_ok (lift_ok wrote))

theorem Live.drain (live : Live s ahead) : Live s.drain (ahead.drop s.unread) := by
  have moved := live.move (Nat.le_refl s.unread)
  rwa [Reader.unread, Nat.add_sub_cancel' live.pos] at moved

theorem drained_drain (s : Reader σ) : Drained s.drain := rfl

/-- What gathering puts out was in front of the reader. -/
theorem gather_rest {n : Nat} (drained : Drained s) (live : Live s ahead)
    (run : gather m mem n (s, out) = .ok () (s', out')) :
    ∃ payload, Rest mem s payload ∧ out'.writer = out.writer ++ payload ∧
      (out.bytesWritten < 2 ^ 64 →
        out'.bytesWritten = (out.bytesWritten + payload.length) % 2 ^ 64) := by
  induction n generalizing s out ahead with
  | zero => cases run
  | succ n ih =>
      obtain ⟨k, ⟨s1, out1⟩, pass, rest⟩ := run_bind_ok run
      obtain ⟨got, ⟨s2, out2⟩, took, pass⟩ := run_bind_ok pass
      obtain ⟨next, rfl⟩ : nextRead mem s = .ok got s2 ∧ out2 = out := by
        rw [fromReader] at took
        cases next : nextRead mem s with
        | ok got s3 =>
            rw [next] at took
            cases took
            exact ⟨rfl, rfl⟩
        | error e s3 =>
            rw [next] at took
            cases took
      cases got with
      | none =>
          cases pass
          cases rest
          obtain ⟨_, _, rfl⟩ := nextRead_none mem next
          refine ⟨[], .ended drained next, (List.append_nil _).symm, fun counted => ?_⟩
          exact (Nat.mod_eq_of_lt counted).symm
      | some _ =>
          obtain ⟨_, ⟨s3, out3⟩, put, pass⟩ := run_bind_ok pass
          cases pass
          obtain ⟨_, _, got, put⟩ := run_bind_ok put
          cases got
          obtain ⟨out4, _, wrote, put⟩ := run_bind_ok put
          obtain ⟨put4, rfl⟩ := lift_eq_ok wrote
          clear wrote
          cases put
          have live := ((live.takes mem drained.not_unread).ok next).1
          obtain ⟨writer', count'⟩ := writeDecoded_counts put4
          obtain ⟨payload, left, writer, count⟩ := ih (drained_drain s2) live.drain rest
          refine ⟨s2.decoded.drop s2.decodedPos ++ payload, .chunk drained next ?_, ?_, ?_⟩
          · by_cases unread : s2.decodedPos < s2.decoded.length
            · exact .block unread left
            · have drained : Drained s2 := Nat.le_antisymm live.pos (Nat.not_lt.mp unread)
              rw [List.drop_eq_nil_of_le (Nat.not_lt.mp unread), List.nil_append,
                ← drained.drain_eq]
              exact left
          · rw [writer, writer', List.append_assoc]
          · intro counted
            rw [count (by omega), count', List.length_append]
            omega

/-- What is in front of the reader is gathered. -/
theorem Rest.gather (h : Rest mem s left) (drained : Drained s) (live : Live s ahead)
    (out : ConcurrentDecode (List UInt8))
    (small : out.bytesWritten + left.length < 2 ^ 64) {n : Nat} (enough : s.r.length < n) :
    ∃ s', Stream.gather m mem n (s, out) =
      .ok () (s', ⟨out.bytesWritten + left.length, out.writer ++ left⟩) := by
  induction n generalizing s out left ahead with
  | zero => exact absurd enough (Nat.not_lt_zero _)
  | succ n ih =>
      cases h with
      | ended _ run =>
          have pass : gatherStep m mem () (s, out) = .ok (.done ()) (s, out) :=
            bind_ok (fromReader_ok run)
          refine ⟨s, (bind_ok pass).trans ?_⟩
          rw [List.append_nil]
          rfl
      | @chunk _ s1 _ _ run rest =>
          obtain ⟨live', shorter⟩ := (live.takes mem drained.not_unread).ok run
          obtain ⟨hand, rest⟩ := rest.at_hand
          set block := s1.decoded.drop s1.decodedPos with at_hand
          have total := congrArg List.length hand
          rw [List.length_append] at total
          have wrote : writeDecoded m Sink.vec (.ok block) out =
              .ok ⟨out.bytesWritten + block.length, out.writer ++ block⟩ :=
            writeDecoded_small m (by omega)
          have pass : gatherStep m mem () (s, out) = .ok (.next ())
              (s1.drain, ⟨out.bytesWritten + block.length, out.writer ++ block⟩) :=
            (bind_ok (fromReader_ok run)).trans (bind_ok (gatherBlock_ok wrote))
          obtain ⟨s2, gathered⟩ := ih rest (drained_drain s1) live'.drain
            ⟨out.bytesWritten + block.length, out.writer ++ block⟩ (by simp only; omega)
            (by show s1.r.length < n; omega)
          refine ⟨s2, (bind_ok pass).trans (gathered.trans ?_)⟩
          rw [List.append_assoc, ← hand, Nat.add_assoc, ← total]
      | block unread => exact absurd unread drained.not_unread

end Gathering

section Parts

variable {α : Type} {s s' : Reader σ} {t : Dispatcher σ} {a : α}

theorem onSource_ok {x : Action σ α} (run : x t.reader = .ok a s') :
    onSource x t = .done (.ok a, { t with reader := s' }) := by
  simp only [onSource, Thread.lift, run]

theorem onSource_error {x : Action σ α} {e : Stop IoError} (run : x t.reader = .error e s') :
    onSource x t = .done (.error e, { t with reader := s' }) := by
  simp only [onSource, Thread.lift, run]

theorem raised_ok {x : Handle σ α} (run : x s = .ok a s') : raised x s = .ok a s' := by
  rw [raised, run]

theorem raised_error {x : Handle σ α} {e : Stop Error} (run : x s = .error e s') :
    ∃ f, raised x s = .error f s' := by
  rw [raised, run]
  cases e with
  | error e => exact ⟨_, rfl⟩
  | fault f => exact ⟨_, rfl⟩

end Parts

/-- The same block in decoding by a worker and by a reader. -/
theorem unpackCompressed_same {mem mem' : Nat → UInt8} {ignoreCrc : Bool} {c : Chunk}
    {out : List UInt8} (h : unpackCompressed mem ignoreCrc c = .ok out) :
    unpackCompressed mem' ignoreCrc c = .ok out := by
  obtain ⟨decoded, decodes, h⟩ := bind_eq_ok h
  have here := Block.appendDecodedChunkBody_cases mem [] (c.body.drop checksumSize)
  have there := Block.appendDecodedChunkBody_cases mem' [] (c.body.drop checksumSize)
  cases known : Block.decodedChunk (c.body.drop checksumSize) with
  | none =>
      rw [known] at here
      obtain ⟨e, failed⟩ := here
      cases failed.symm.trans (ofBlock_ok decodes)
  | some out' =>
      rw [known] at here there
      cases here.1.symm.trans (ofBlock_ok decodes)
      rw [unpackCompressed, there.1]
      exact h

/-- A compressed chunk is read by the dispatcher and the worker of its job together. -/
theorem readChunk_coded (mem : Nat → UInt8) {kind : UInt8} {len : Nat} (coded : IsCoded kind)
    (long : ¬len < checksumSize) (s : Reader σ) :
    readChunk mem s kind len = (do
      let (_, c, rest) ← frameJob s kind len
      let out ← (s.jobOf c).output mem
      return ((), s.loaded out rest 0)) := by
  have whole : reject (len < checksumSize) .corrupt = pure () := if_neg long
  rw [readChunk, if_pos (.inl coded), frame, if_pos coded, frameCompressed, frameJob, whole]
  simp only [bind_assoc, pure_bind]
  refine bind_congr fun _ => bind_congr fun x => ?_
  obtain ⟨c, rest⟩ := x
  simp only [unpack, if_pos coded, DecodeJob.output, Reader.jobOf, unpackCompressed, bind_assoc]
  cases ofBlock (Block.decodedLenChunkBody (c.body.drop checksumSize)) with
  | error e => rfl
  | ok dlen => rfl

/-- A stored chunk is read by the dispatcher alone, which may find it too long before. -/
theorem readChunk_stored (mem : Nat → UInt8) {kind : UInt8} {len : Nat}
    (stored : kind = chunkTypeUncompressedData) (long : ¬len < checksumSize) {s : Reader σ}
    (limit : s.maxBlock ≤ maxBlockSize) :
    (∀ block rest, frameStored s len = .ok (block, rest) →
      readChunk mem s kind len = .ok ((), s.loaded block rest 0)) ∧
    ∀ e, frameStored s len = .error e → ∃ e', readChunk mem s kind len = .error e' := by
  have plain : ¬IsCoded kind := fun coded => Chunk.coded_ne coded stored
  have whole : reject (len < checksumSize) .corrupt = pure () := if_neg long
  have chunk : readChunk mem s kind len = (do
      reject (len - checksumSize > s.maxBlock) .tooLarge
      let (c, rest) ← takeBody chunkTypeUncompressedData len s.r
      let block ← unpackUncompressed s.ignoreCrc c
      return ((), s.loaded block rest 0)) := by
    rw [readChunk, if_pos (.inr stored), frame, if_neg plain, frameUncompressed, whole]
    simp only [unpack, if_neg plain, bind_assoc, pure_bind]
  by_cases oversized : len > maxBufSize s
  · have tooLong : reject (len > maxBufSize s) .corrupt = .error (.error .corrupt) :=
      if_pos oversized
    have wide : len - checksumSize > s.maxBlock := by
      by_contra fits
      refine absurd oversized ?_
      rw [maxBufSize, Block.maxEncodedLen, if_neg (by omega)]
      split <;> simp only [Option.getD_some] <;> omega
    have tooLarge : reject (len - checksumSize > s.maxBlock) .tooLarge = .error (.error .tooLarge) :=
      if_pos wide
    rw [frameStored, tooLong, chunk, tooLarge]
    exact ⟨fun _ _ read => (by cases read), fun _ _ => ⟨_, rfl⟩⟩
  · have short : reject (len > maxBufSize s) .corrupt = pure () := if_neg oversized
    have same : readChunk mem s kind len = frameStored s len >>= fun (block, rest) =>
        .ok ((), s.loaded block rest 0) := by
      rw [chunk, frameStored, short]
      simp only [bind_assoc, pure_bind]
      rfl
    rw [same]
    constructor
    · intro block rest read
      rw [read]
      rfl
    · intro e read
      rw [read]
      exact ⟨e, rfl⟩

/-- The decoded block of an item. -/
def DecodeItem.output (mem : Nat → UInt8) : DecodeItem → Exec (List UInt8)
  | .job block => block.output mem
  | .stored body => .ok body

theorem output_same {mem mem' : Nat → UInt8} {s : Reader σ} {c : Chunk} {out : List UInt8}
    (h : (s.jobOf c).output mem = .ok out) : (s.jobOf c).output mem' = .ok out := by
  obtain ⟨dlen, declared, h⟩ := bind_eq_ok h
  obtain ⟨_, fits, h⟩ := bind_eq_ok h
  have there : unpackCompressed mem' s.ignoreCrc c = .ok out := unpackCompressed_same h
  rw [DecodeJob.output, declared]
  exact (congrArg (· >>= fun _ => unpackCompressed mem' s.ignoreCrc c) fits).trans there

theorem eaten_iff {m : Overflow} {mem : Nat → UInt8} {g g' : ConcurrentDecode (List UInt8)}
    {item : DecodeItem} :
    (decodeStages m Sink.vec mem).eatAll g [item] = .ok g' ↔
      ∃ out, item.output mem = .ok out ∧ writeDecoded m Sink.vec (.ok out) g = .ok g' := by
  rw [eatAll_one]
  cases item with
  | stored body =>
      constructor
      · rintro ⟨_, made, ate⟩
        cases made
        exact ⟨body, rfl, ate⟩
      · rintro ⟨_, made, ate⟩
        cases made
        exact ⟨.ok body, rfl, ate⟩
  | job job =>
      constructor
      · rintro ⟨b, made, ate⟩
        have made : job.work mem = some b := made
        rw [DecodeJob.work] at made
        split at made
        · next out outputs =>
            cases made
            exact ⟨out, outputs, ate⟩
        · cases made
          cases ate
        · cases made
      · rintro ⟨out, outputs, ate⟩
        refine ⟨.ok out, ?_, ate⟩
        show job.work mem = _
        rw [DecodeJob.work, show job.output mem = .ok out from outputs]

/-- The dispatcher and the writer thread are where the reader that gathers is. -/
structure InStep (t : Dispatcher σ) (g : ConcurrentDecode (List UInt8))
    (p : Reader σ × ConcurrentDecode (List UInt8)) : Prop where
  reader : t.reader = p.1.holding t.reader
  emitted : t.uncompEmitted = p.1.blockEnd
  drained : Drained p.1
  limit : p.1.maxBlock ≤ maxBlockSize
  user : p.1.maxBlockUser ≤ maxBlockSize
  out : g = p.2
  counted : g.bytesWritten < 2 ^ 64
  manned : 0 < t.threads

section Chunks

variable {m : Overflow} {mem mem' : Nat → UInt8} {s s' : Reader σ} {kind : UInt8} {len : Nat}
  {t : Dispatcher σ} {g out : ConcurrentDecode (List UInt8)}

/-- The threads do what the reader that gathers does, from there on. -/
abbrev Tracks {α : Type} (m : Overflow) (mem : Nat → UInt8) (x : Dispatching σ α)
    (y : Gathering σ α) (t : Dispatcher σ) (g : ConcurrentDecode (List UInt8))
    (p : Reader σ × ConcurrentDecode (List UInt8)) : Prop :=
  Twins (decodeStages m Sink.vec mem) InStep (fun _ _ _ _ _ => True) x y t g p

/-- Handle a chunk whose header has been read, and put out its block. -/
def gatherBody (m : Overflow) (mem : Nat → UInt8) (kind : UInt8) (len : Nat) :
    Gathering σ Unit := do
  fromReader (sticky
    (dispatch (handleCompressedChunk mem kind len) (handleUncompressedChunk len) () kind len))
  gatherBlock m

theorem gatherBody_ok (run : readChunk mem s kind len = .ok ((), s')) :
    gatherBody m mem kind len (s, out) = gatherBlock m (s', out) := by
  have chunk := dispatch_read_ends mem kind len s
  rw [run] at chunk
  exact bind_ok (fromReader_ok (sticky_ok chunk.run_ok))

theorem gatherBody_error (m : Overflow) (out : ConcurrentDecode (List UInt8)) {e : Stop Error}
    (run : readChunk mem s kind len = .error e) :
    ∃ f p, gatherBody m mem kind len (s, out) = .error f p := by
  have chunk := dispatch_read_ends mem kind len s
  obtain ⟨e, rfl⟩ := (readChunk_exits mem s kind len).error run
  rw [run] at chunk
  obtain ⟨s', failed⟩ := chunk.run_error
  exact ⟨_, _, bind_error (fromReader_error (sticky_error failed))⟩

theorem gatherBlock_put {p : Reader σ × ConcurrentDecode (List UInt8)}
    (run : gatherBlock m (s, out) = .ok () p) : ∃ out',
      writeDecoded m Sink.vec (.ok (s.decoded.drop s.decodedPos)) out = .ok out' ∧
        p = (s.drain, out') := by
  obtain ⟨_, _, got, run⟩ := run_bind_ok run
  cases got
  obtain ⟨out', _, wrote, run⟩ := run_bind_ok run
  obtain ⟨put, rfl⟩ := lift_eq_ok wrote
  clear wrote
  cases run
  exact ⟨out', put, rfl⟩

/-- Where the handler fails the reader has to. -/
theorem tracks_refused {α : Type} {x : Dispatching σ α} {y : Gathering σ α} {f e : Stop IoError}
    {t' : Dispatcher σ} {p p' : Reader σ × ConcurrentDecode (List UInt8)}
    (left : x t = .done (.error f, t')) (right : y p = .error e p') : Tracks m mem x y t g p :=
  twins_fail left (runs_error right trivial)

/-- A chunk that the dispatcher cannot read is refused by the reader. -/
theorem tracks_unread {β : Type} {x : Handle σ β} {f : β → Dispatching σ Unit} {e e' : Stop Error}
    (failed : Ends x t.reader (.error e)) (refused : readChunk mem' s kind len = .error e') :
    Tracks m mem (onSource (raised x) >>= f) (gatherBody m mem' kind len) t g (s, g) := by
  obtain ⟨_, failed⟩ := failed.run_error
  obtain ⟨_, failed⟩ := raised_error failed
  obtain ⟨_, _, right⟩ := gatherBody_error m g refused
  exact tracks_refused (thread_fails (onSource_error failed)) right

/-- A data chunk is ordered, and the writer thread puts out its block. -/
theorem tracks_data (item : DecodeItem) {rest : List UInt8} {f : Bool → Dispatching σ Unit}
    (chunk : readChunk mem' s kind len =
      item.output mem' >>= fun block => .ok ((), s.loaded block rest 0))
    (same : ∀ block, item.output mem' = .ok block ↔ item.output mem = .ok block)
    (limit : s.maxBlock ≤ maxBlockSize) (user : s.maxBlockUser ≤ maxBlockSize)
    (later : ∀ block, item.output mem = .ok block → Quiet (f true) t fun _ t' =>
      t'.reader = Reader.holding { s with r := rest } t'.reader ∧
        t'.uncompEmitted = s.blockEnd + block.length.toUInt64 ∧ 0 < t'.threads) :
    Tracks m mem (Thread.order item >>= f) (gatherBody m mem' kind len) t out (s, out) := by
  refine Twins.ordered ?_ ?_
  · rintro ⟨⟩ p run
    cases made : item.output mem' with
    | error e =>
        rw [made] at chunk
        obtain ⟨_, _, failed⟩ := gatherBody_error m out chunk
        cases failed.symm.trans run
    | ok block =>
        rw [made] at chunk
        rw [gatherBody_ok chunk] at run
        obtain ⟨out', put, rfl⟩ := gatherBlock_put run
        have ours := (same block).mp made
        refine ⟨out', eaten_iff.mpr ⟨block, ours, put⟩, ?_⟩
        have small : out'.bytesWritten < 2 ^ 64 := by
          rw [(writeDecoded_counts put).2]
          exact Nat.mod_lt _ (by decide)
        refine (later block ours).mono fun _ t' h => ⟨rfl, ?_⟩
        exact ⟨h.1, h.2.1, rfl, limit, user, rfl, small, h.2.2⟩
  · intro e p run out' eaten
    obtain ⟨block, ours, put⟩ := eaten_iff.mp eaten
    rw [(same block).mpr ours] at chunk
    rw [gatherBody_ok chunk] at run
    cases (gatherBlock_ok (s := s.loaded block rest 0) put).symm.trans run

/-- The workers are tried one after the other, and nothing else changes. -/
theorem submit_tracks (job : DecodeJob) {rest : List UInt8}
    (chunk : readChunk mem' s kind len =
      job.output mem' >>= fun block => .ok ((), s.loaded block rest 0))
    (same : ∀ block, job.output mem' = .ok block ↔ job.output mem = .ok block)
    (limit : s.maxBlock ≤ maxBlockSize) (user : s.maxBlockUser ≤ maxBlockSize)
    (reader : t.reader = Reader.holding { s with r := rest } t.reader)
    (emitted : ∀ block, job.output mem = .ok block →
      t.uncompEmitted = s.blockEnd + block.length.toUInt64) (manned : 0 < t.threads) :
    Tracks m mem (submitCompressed job) (gatherBody m mem' kind len) t out (s, out) := by
  refine Twins.get (tracks_data (.job job) chunk same limit user fun block ours => ?_)
  rw [if_pos rfl]
  refine quiet_loop
    (fun tried t' => tried < t.threads ∧ t'.reader = t.reader ∧
      t'.uncompEmitted = t.uncompEmitted ∧ t'.threads = t.threads)
    (fun tried => t.threads - tried) ?_ ⟨manned, rfl, rfl, rfl⟩ (Nat.lt_succ_self _)
  rintro tried t1 ⟨more, same, total, threads⟩
  have done : t1.reader = Reader.holding { s with r := rest } t1.reader ∧
      t1.uncompEmitted = s.blockEnd + block.length.toUInt64 ∧ 0 < t1.threads := by
    rw [same, total, threads]
    exact ⟨reader, emitted block ours, manned⟩
  refine quiet_get (quiet_modify (quiet_offer (quiet_pure done) ?_))
  simp only
  split
  · exact quiet_hand (quiet_pure done)
  · refine quiet_pure ⟨⟨?_, same, total, threads⟩, ?_⟩ <;> omega

theorem output_length {c : Chunk} {block : List UInt8} {dlen : Nat} {rest : List UInt8}
    (framed : frameJob s kind len = .ok (dlen, c, rest))
    (outputs : (s.jobOf c).output mem = .ok block) : dlen = block.length := by
  obtain ⟨_, _, framed⟩ := bind_eq_ok framed
  obtain ⟨x, took, framed⟩ := bind_eq_ok framed
  obtain ⟨dlen, declared, framed⟩ := bind_eq_ok framed
  cases framed
  obtain ⟨_, _, outputs⟩ := bind_eq_ok outputs
  obtain ⟨_, _, outputs⟩ := bind_eq_ok outputs
  have outputs : unpackCompressed mem s.ignoreCrc x.1 = .ok block := outputs
  obtain ⟨decoded, decodes, outputs⟩ := bind_eq_ok outputs
  have cases := Block.appendDecodedChunkBody_cases mem [] (x.1.body.drop checksumSize)
  cases known : Block.decodedChunk (x.1.body.drop checksumSize) with
  | none =>
      rw [known] at cases
      obtain ⟨e, failed⟩ := cases
      cases failed.symm.trans (ofBlock_ok decodes)
  | some out' =>
      rw [known] at cases
      cases cases.1.symm.trans (ofBlock_ok decodes)
      cases cases.2.symm.trans (ofBlock_ok declared)
      split at outputs
      · cases outputs
        rfl
      · obtain ⟨_, _, outputs⟩ := bind_eq_ok outputs
        obtain ⟨_, _, outputs⟩ := bind_eq_ok outputs
        cases outputs
        rfl

theorem dispatchCompressed_tracks (coded : IsCoded kind) (long : ¬len < checksumSize)
    (h : InStep t g (s, out)) :
    Tracks m mem (dispatchCompressed kind len) (gatherBody m mem' kind len) t g (s, out) := by
  obtain ⟨reader, emitted, _, limit, user, rfl, _, manned⟩ := h
  have chunk := readChunk_coded mem' coded long s
  have front : Ends (readJob kind len) t.reader (frameJob s kind len >>= fun (dlen, c, rest) =>
      .ok ((s.jobOf c, dlen), Reader.holding { s with r := rest } t.reader)) := by
    rw [reader]
    exact readJob_ends kind len (s.holding t.reader)
  cases framed : frameJob s kind len with
  | error e =>
      rw [framed] at front chunk
      exact tracks_unread front chunk
  | ok x =>
      obtain ⟨dlen, c, rest⟩ := x
      rw [framed] at front chunk
      refine Twins.left (onSource_ok (raised_ok front.run_ok)) (Twins.modify ?_)
      refine submit_tracks (s.jobOf c) chunk (fun _ => ⟨output_same, output_same⟩)
        limit user rfl (fun block ours => ?_) manned
      rw [← output_length framed ours, ← emitted]

theorem dispatchStored_tracks (stored : kind = chunkTypeUncompressedData)
    (long : ¬len < checksumSize) (h : InStep t g (s, out)) :
    Tracks m mem (dispatchStored len) (gatherBody m mem' kind len) t g (s, out) := by
  obtain ⟨reader, emitted, _, limit, user, rfl, _, manned⟩ := h
  have front : Ends (readStored len) t.reader (frameStored s len >>= fun (block, rest) =>
      .ok (block, Reader.holding { s with r := rest } t.reader)) := by
    rw [reader]
    exact readStored_ends long (s.holding t.reader)
  obtain ⟨accepted, refused⟩ := readChunk_stored mem' stored long limit
  cases framed : frameStored s len with
  | error e =>
      rw [framed] at front
      obtain ⟨_, chunk⟩ := refused e framed
      exact tracks_unread front chunk
  | ok x =>
      obtain ⟨block, rest⟩ := x
      rw [framed] at front
      have chunk : readChunk mem' s kind len = .ok ((), s.loaded block rest 0) :=
        accepted block rest framed
      refine Twins.left (onSource_ok (raised_ok front.run_ok)) (Twins.modify ?_)
      refine tracks_data (.stored block) chunk (fun _ => Iff.rfl) limit user fun block' ours => ?_
      cases ours
      rw [if_pos rfl]
      refine quiet_supply ⟨rfl, ?_, manned⟩
      simp only [emitted]

/-- A chunk without a block puts out nothing. -/
theorem gatherBlock_drained (drained : Drained s) (counted : out.bytesWritten < 2 ^ 64) :
    gatherBlock m (s, out) = .ok () (s, out) := by
  have put : writeDecoded m Sink.vec (.ok []) out = .ok out := by
    rw [writeDecoded_small m (by rwa [List.length_nil]), List.append_nil]
    rfl
  rw [← List.drop_eq_nil_of_le (Nat.le_of_eq drained.symm)] at put
  rw [gatherBlock_ok put, drained.drain_eq]

theorem holding_again (s o : Reader σ) : s.holding (s.holding o) = s.holding o := rfl

/-- A chunk without a block, which only the dispatcher handles. -/
theorem tracks_bare {x : Dispatching σ Unit} {o : Exec (Reader σ)} (none : ¬HasBlock kind)
    (h : InStep t g (s, out)) (other : otherChunk s kind len = o)
    (fails : ∀ e, o = .error e → ∃ f t', x t = .done (.error f, t'))
    (passes : ∀ s', o = .ok s' → x t = .done (.ok (), { t with
      reader := s'.holding t.reader, uncompEmitted := s'.blockEnd })) :
    Tracks m mem x (gatherBody m mem' kind len) t g (s, out) := by
  have chunk : readChunk mem' s kind len = o >>= fun s' => .ok ((), s') := by
    rw [readChunk, if_neg none, other]
    rfl
  cases o with
  | error e =>
      obtain ⟨_, _, left⟩ := fails e rfl
      obtain ⟨_, _, right⟩ := gatherBody_error m out chunk
      exact tracks_refused left right
  | ok s' =>
      obtain ⟨_, _, _, _, kept⟩ := otherChunk_ok none other
      have drained := otherChunk_drained none other h.drained
      have counted : out.bytesWritten < 2 ^ 64 := (congrArg _ h.out).symm.trans_lt h.counted
      refine twins_done (passes s' rfl)
        ((gatherBody_ok chunk).trans (gatherBlock_drained drained counted)) ?_
      refine ⟨(holding_again s' _).symm, rfl, drained, ?_, ?_, h.out, h.counted, h.manned⟩
      · rcases kept.block with ⟨_, _, limit⟩ | ⟨_, _, limit⟩
        · exact limit ▸ h.limit
        · exact limit.trans h.user
      · exact kept.maxBlockUser ▸ h.user

/-- A handler of the dispatcher's own whose result is known. -/
theorem onSource_ends {x : Handle σ Unit} {o : Exec (Reader σ)}
    (h : Ends x t.reader (o >>= fun s' => .ok ((), s'.holding t.reader))) :
    (∀ e, o = .error e → ∃ f t', onSource (raised x) t = .done (.error f, t')) ∧
      ∀ s', o = .ok s' →
        onSource (raised x) t = .done (.ok (), { t with reader := s'.holding t.reader }) := by
  constructor
  · rintro e rfl
    obtain ⟨_, failed⟩ := h.run_error
    obtain ⟨_, failed⟩ := raised_error failed
    exact ⟨_, _, onSource_error failed⟩
  · rintro s' rfl
    exact onSource_ok (raised_ok h.run_ok)

theorem calledChunk_holding (s o : Reader σ) (cb : UserChunkCb σ) (kind : UInt8) (len : Nat) :
    calledChunk (s.holding o) cb kind len = (·.holding o) <$> calledChunk s cb kind len := by
  have source : (s.holding o).r = s.r := rfl
  have world : (s.holding o).world = s.world := rfl
  rw [calledChunk, calledChunk, source, world]
  cases takeBody kind len s.r with
  | error e => rfl
  | ok x =>
      simp only
      rcases cb kind x.1.body s.world with ⟨_ | _, world⟩ <;> rfl

theorem skippableChunk_holding (s o : Reader σ) (kind : UInt8) (len : Nat) :
    skippableChunk (s.holding o) kind len = (·.holding o) <$> skippableChunk s kind len := by
  have same : callbackFor (s.holding o) kind = callbackFor s kind := rfl
  rw [skippableChunk, skippableChunk, same]
  cases callbackFor s kind with
  | some cb => exact calledChunk_holding s o cb kind len
  | none =>
      simp only [map_bind, map_pure]
      rfl

theorem skippableChunk_keeps (h : skippableChunk s kind len = .ok s') :
    s'.blockEnd = s.blockEnd ∧ s'.ignoreStreamId = s.ignoreStreamId := by
  rw [skippableChunk] at h
  split at h
  · rw [calledChunk] at h
    split at h
    · cases h
    · split at h
      · cases h
        exact ⟨rfl, rfl⟩
      · cases h
  · obtain ⟨_, _, h⟩ := bind_eq_ok h
    obtain ⟨_, _, h⟩ := bind_eq_ok h
    cases h
    exact ⟨rfl, rfl⟩

/-- A data chunk without a checksum is refused. -/
theorem readChunk_short (data : HasBlock kind) (short : len < checksumSize) :
    ∃ e, readChunk mem s kind len = .error e := by
  have refused : reject (len < checksumSize) .corrupt = .error (.error .corrupt) := if_pos short
  refine ⟨.error .corrupt, ?_⟩
  rw [readChunk, if_pos data, frame]
  split
  · rw [frameCompressed, refused]
    rfl
  · rw [frameUncompressed, refused]
    rfl

/-- The end of a stream is checked against what the dispatcher has counted. -/
theorem dispatchEof_tracks (h : InStep t g (s, out)) :
    Tracks m mem (do onSource (raised (readEof (← get).uncompEmitted len)))
      (gatherBody m mem' chunkTypeEof len) t g (s, out) := by
  refine Twins.get ?_
  have ends : Ends (readEof t.uncompEmitted len) t.reader
      (eofChunk s len >>= fun s' => .ok ((), s'.holding t.reader)) := by
    rw [h.emitted, h.reader]
    exact readEof_ends len s t.reader
  have known := onSource_ends ends
  refine tracks_bare (by decide) h (by rw [otherChunk, if_pos rfl]) known.1 fun s' ok => ?_
  have same : t.uncompEmitted = s'.blockEnd := by
    obtain ⟨_, _, ok⟩ := bind_eq_ok ok
    obtain ⟨_, _, ok⟩ := bind_eq_ok ok
    obtain ⟨_, _, ok⟩ := bind_eq_ok ok
    cases ok
    exact h.emitted
  rw [← same]
  exact known.2 s' ok

theorem dispatchStreamIdentifier_tracks (h : InStep t g (s, out)) :
    Tracks m mem (dispatchStreamIdentifier len)
      (gatherBody m mem' chunkTypeStreamIdentifier len) t g (s, out) := by
  have ends : Ends (readMagic len) t.reader
      (identifierChunk s len >>= fun s' => .ok ((), s'.holding t.reader)) := by
    rw [h.reader]
    exact readMagic_ends len s t.reader
  have known := onSource_ends ends
  refine tracks_bare (by decide) h (by rw [otherChunk, if_neg (by decide), if_pos rfl])
    (fun e failed => ?_) fun s' ok => ?_
  · obtain ⟨f, t', failed⟩ := known.1 e failed
    exact ⟨f, t', thread_fails failed⟩
  · refine (thread_goes (known.2 s' ok)).trans ?_
    obtain ⟨_, _, ok⟩ := bind_eq_ok ok
    obtain ⟨_, _, ok⟩ := bind_eq_ok ok
    obtain ⟨_, _, ok⟩ := bind_eq_ok ok
    obtain ⟨_, _, ok⟩ := bind_eq_ok ok
    cases ok
    rfl

/-- A chunk that may be skipped, or has a callback. -/
theorem dispatchSkippable_tracks (data : ¬HasBlock kind) (eof : kind ≠ chunkTypeEof)
    (identifier : kind ≠ chunkTypeStreamIdentifier) (high : ¬kind ≤ maxNonSkippableChunk)
    (h : InStep t g (s, out)) :
    Tracks m mem (onSource (raised (handleSkippableDispatch kind len)))
      (gatherBody m mem' kind len) t g (s, out) := by
  have ends : Ends (handleSkippableDispatch kind len) t.reader
      (skippableChunk s kind len >>= fun s' => .ok ((), s'.holding t.reader)) := by
    have ends := handleSkippable_ends kind len (s.holding t.reader)
    rw [skippableChunk_holding, bind_map_left] at ends
    rw [h.reader]
    exact ends
  have known := onSource_ends ends
  refine tracks_bare data h (by rw [otherChunk, if_neg eof, if_neg identifier, if_neg high])
    known.1 fun s' ok => ?_
  have same : t.uncompEmitted = s'.blockEnd :=
    h.emitted.trans (skippableChunk_keeps ok).1.symm
  rw [← same]
  exact known.2 s' ok

/-- Any chunk. The dispatcher takes a data chunk without a checksum for an unknown one. -/
theorem dispatchChunk_tracks (h : InStep t g (s, out)) :
    Tracks m mem (dispatchChunk kind len) (gatherBody m mem' kind len) t g (s, out) := by
  have size : checksumSize = 4 := rfl
  rw [dispatchChunk]
  by_cases data : HasBlock kind
  · by_cases long : len < checksumSize
    · have low : kind ≠ chunkTypeEof ∧ kind ≠ chunkTypeStreamIdentifier ∧
          kind ≤ maxNonSkippableChunk := by
        rcases data with (rfl | rfl) | rfl <;> decide
      obtain ⟨_, refused⟩ := readChunk_short (s := s) data long
      obtain ⟨_, _, right⟩ := gatherBody_error m out refused
      rw [if_neg fun h => by omega, if_neg fun h => by omega, if_neg low.1, if_neg low.2.1,
        if_pos low.2.2]
      exact tracks_refused rfl right
    · by_cases coded : IsCoded kind
      · rw [if_pos ⟨coded, Nat.not_lt.mp long⟩]
        exact dispatchCompressed_tracks coded long h
      · have stored := data.resolve_left coded
        rw [if_neg fun h => coded h.1, if_pos ⟨stored, Nat.not_lt.mp long⟩]
        exact dispatchStored_tracks stored long h
  · rw [if_neg fun h => data (.inl h.1), if_neg fun h => data (.inr h.1)]
    by_cases eof : kind = chunkTypeEof
    · subst eof
      rw [if_pos rfl]
      exact dispatchEof_tracks h
    · rw [if_neg eof]
      by_cases identifier : kind = chunkTypeStreamIdentifier
      · subst identifier
        rw [if_pos rfl]
        exact dispatchStreamIdentifier_tracks h
      · rw [if_neg identifier]
        by_cases low : kind ≤ maxNonSkippableChunk
        · rw [if_pos low]
          refine tracks_bare data h
            (by rw [otherChunk, if_neg eof, if_neg identifier, if_pos low])
            (fun e _ => ⟨_, _, rfl⟩) fun s' ok => ?_
          cases ok
        · rw [if_neg low]
          exact dispatchSkippable_tracks data eof identifier low h

theorem gatherStep_chunk {kind b0 b1 b2 : UInt8} {body : List UInt8}
    (head : s.r = kind :: b0 :: b1 :: b2 :: body) (placed : ¬Misplaced s kind) :
    gatherStep m mem () (s, out) =
      (do
        gatherBody m mem kind (readChunkLen b0 b1 b2)
        return .next () : Gathering σ (Iter Unit Unit)) (s.headed kind body, out) := by
  have next : nextRead mem s = _ := nextChunk_header head
  rw [if_neg placed] at next
  simp only at next
  rw [gatherBody, bind_assoc]
  cases run : sticky (dispatch (handleCompressedChunk mem kind (readChunkLen b0 b1 b2))
      (handleUncompressedChunk (readChunkLen b0 b1 b2)) () kind (readChunkLen b0 b1 b2))
      (s.headed kind body) with
  | ok a s' =>
      rw [map_ok run] at next
      rw [gatherStep, bind_ok (fromReader_ok next), bind_ok (fromReader_ok run)]
  | error e s' =>
      rw [map_error run] at next
      exact (bind_error (fromReader_error next)).trans (bind_error (fromReader_error run)).symm

theorem dispatchStep_tracks (h : InStep t g (s, out)) :
    Tracks m mem (dispatchStep ()) (gatherStep m mem' ()) t g (s, out) := by
  have clear : Quiet (checkPipeline : Dispatching σ Unit) t fun _ t' => t' = t :=
    quiet_check (quiet_pure rfl)
  refine clear.before ?_
  rintro ⟨⟩ t rfl
  refine Twins.get ?_
  have source : t.reader.r = s.r := (congrArg Reader.r h.reader :)
  have inside : t.reader.expectEof = s.expectEof := (congrArg Reader.expectEof h.reader :)
  rcases head : s.r with _ | ⟨kind, _ | ⟨b0, _ | ⟨b1, _ | ⟨b2, body⟩⟩⟩⟩
  case cons.cons.cons.cons =>
    have read : readFullOrEof chunkHeaderSize (!t.reader.expectEof) t.reader =
        .ok (some [kind, b0, b1, b2]) { t.reader with r := body } := by
      rw [readFullOrEof, source, head, if_pos (by simp [chunkHeaderSize])]
      rfl
    refine Twins.left (onSource_ok read) ?_
    have header := requireHeader_eq kind body t.reader
    have placing : Misplaced t.reader kind ↔ Misplaced s kind := by
      rw [h.reader]
      rfl
    by_cases misplaced : Misplaced s kind
    · rw [if_pos (placing.mpr misplaced)] at header
      have right : ∃ e p, gatherStep m mem' () (s, out) = .error e p := by
        have next : nextRead mem' s = _ := nextChunk_header head
        rw [if_pos misplaced] at next
        exact ⟨_, _, bind_error (fromReader_error next)⟩
      obtain ⟨_, _, right⟩ := right
      exact tracks_refused (thread_fails (onSource_error header)) right
    · rw [if_neg fun h => misplaced (placing.mp h)] at header
      refine Twins.left (onSource_ok header) ?_
      refine Twins.same ?_ (gatherStep_chunk head misplaced)
      refine (dispatchChunk_tracks ?_).bind fun _ _ _ _ h => twins_pure _ h
      refine ⟨?_, h.emitted, h.drained, h.limit, h.user, h.out, h.counted, h.manned⟩
      simp only
      conv_lhs => rw [h.reader]
      rfl
  all_goals
    have short : s.r.length < chunkHeaderSize := by rw [head]; simp [chunkHeaderSize]
    have next : nextRead mem' s = _ := nextChunk_short short
    have read : readFullOrEof chunkHeaderSize (!t.reader.expectEof) t.reader =
        if s.r = [] ∧ s.expectEof = false then .ok none t.reader
        else .error (.error Error.corrupt.toIo) { t.reader with r := [] } := by
      rw [readFullOrEof, if_neg (by rw [source]; omega), source]
      simp only [Bool.not_eq_true', inside]
    split at read
    · next ended =>
        rw [if_pos ended] at next
        exact twins_done (thread_goes (onSource_ok read)) (bind_ok (fromReader_ok next)) h
    · next cut =>
        rw [if_neg cut] at next
        exact tracks_refused (thread_fails (onSource_error read))
          (bind_error (fromReader_error next))

theorem dispatchLoop_tracks (m : Overflow) (mem mem' : Nat → UInt8) (h : InStep t g (s, out)) :
    Tracks m mem dispatchLoop (gather m mem' (s.r.length + 1)) t g (s, out) := by
  have source : t.reader.r = s.r := (congrArg Reader.r h.reader :)
  refine Twins.get ?_
  rw [source]
  exact twins_loop (fun _ _ _ _ => trivial) (fun _ _ _ _ h => dispatchStep_tracks h) _ () h

end Chunks

end MinLz.Stream
