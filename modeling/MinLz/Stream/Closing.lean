import MinLz.Stream.Ledger

/-! # How a stream is closed

After the chunk that ends the stream comes at most one padding chunk, and after it the
index. The padding brings the whole to a multiple, the index included, which is counted
before it is written.
-/

namespace MinLz.Stream

open Block (maxBlockSize)
open Machine (Overflow maxSigned)
open Effects Loop
open Index (Thinned)

/-- Whole multiples are added until there is room for a header, and no more. -/
theorem padTo_bounds {p : Nat} (pos : 0 < p) (k : Nat) :
    chunkHeaderSize ≤ padTo p k ∧ padTo p k ≤ max k (p + chunkHeaderSize - 1) ∧
      (padTo p k) % p = k % p := by
  induction k using padTo.induct p with
  | case1 k short ih =>
      rw [padTo, dif_pos short]
      refine ⟨ih.1, ?_, ih.2.2.trans (Nat.add_mod_right k p)⟩
      have := ih.2.1
      omega
  | case2 k done =>
      rw [padTo, dif_neg done]
      refine ⟨?_, le_max_left _ _, rfl⟩
      by_contra short
      exact done ⟨pos, Nat.not_le.mp short⟩

/-- The chunk that pads with `n` zeros. -/
def padding (n : Nat) : Chunk := ⟨chunkTypePadding, List.replicate n 0⟩

/-- The bytes that pad a count of `c` to a multiple of `p`, of which none are needed when
    `p` is less than two. -/
def Pads (p c : Nat) (pad : List UInt8) : Prop :=
  (2 ≤ p → (c + pad.length) % p = 0) ∧
    (pad = [] ∨ 2 ≤ p ∧ ∃ n ≤ maxBlockSize, pad = (padding n).bytes)

/-- What padding adds, and the body of the padding chunk with it, is no more than a chunk
    can hold. -/
theorem padTo_fits {p : Nat} (few : 2 ≤ p) (small : p ≤ maxBlockSize) (c : Nat) :
    ¬padTo p (p - c % p) > maxBlockSize + chunkHeaderSize ∧
      (c + padTo p (p - c % p)) % p = 0 ∧ chunkHeaderSize ≤ padTo p (p - c % p) := by
  have pos : 0 < p := by omega
  have header : chunkHeaderSize = 4 := rfl
  obtain ⟨room, bound, same⟩ := padTo_bounds pos (p - c % p)
  have less := Nat.mod_lt c pos
  refine ⟨by omega, ?_, room⟩
  rw [Nat.add_mod, same, ← Nat.add_mod]
  have whole : c + (p - c % p) = p * (c / p) + p := by
    have split := Nat.div_add_mod c p
    omega
  rw [whole, Nat.add_mod_right, Nat.mul_mod_right]

section Padding

variable (m : Overflow) {s : Writer (List UInt8)} (counted : s.compWritten < 2 ^ 64)

include counted

theorem putting_nil : s.putting [] = s := by
  rw [Writer.putting, List.append_nil, List.length_nil, Nat.add_zero, Nat.mod_eq_of_lt counted]

theorem putZeros_runs (n : Nat) :
    Runs (putZeros m Sink.vec n) s (fun _ s' => s' = s.putting (List.replicate n 0))
      (fun _ _ => 2 ^ 64 ≤ s.compWritten + n) := by
  refine runs_runM (fun k s' => k ≤ n ∧ s' = s.putting (List.replicate (n - k) 0))
    (fun k _ => k) ?_ ⟨le_rfl, ?_⟩ (Nat.lt_succ_self _)
  · rintro k _ ⟨within, rfl⟩
    split
    · next more =>
        have put : (s.putting (List.replicate (n - k) 0)).compWritten =
            (s.compWritten + (n - k)) % 2 ^ 64 := by
          rw [Writer.putting, List.length_replicate]
        refine ((writeAllTracked_runs m _).mono (fun _ _ h => h) fun _ _ past => ?_).bind ?_
        · rw [put, List.length_replicate] at past
          omega
        · rintro _ _ rfl
          refine runs_pure ⟨⟨by omega, ?_⟩, by simp only; omega⟩
          rw [putting_putting, List.replicate_append_replicate]
          congr 2
          omega
    · next done =>
        have zero : k = 0 := by omega
        refine runs_pure ?_
        rw [zero, Nat.sub_zero]
        exact rfl
  · rw [Nat.sub_self, List.replicate_zero, putting_nil counted]

theorem emitPadding_runs (small : s.padding ≤ maxBlockSize) :
    Runs (emitPadding m Sink.vec) s
      (fun _ s' => ∃ pad, Pads s.padding s.compWritten pad ∧ s' = s.putting pad)
      (fun _ _ => 2 ^ 64 ≤ s.compWritten + (maxBlockSize + chunkHeaderSize)) := by
  refine Runs.step rfl ?_
  simp only
  by_cases few : s.padding < 2
  · rw [if_pos (.inl few)]
    exact runs_pure ⟨[], ⟨fun _ => by omega, .inl rfl⟩, (putting_nil counted).symm⟩
  · obtain ⟨fits, whole, room⟩ := padTo_fits (Nat.not_lt.mp few) small s.compWritten
    by_cases none : s.compWritten % s.padding = 0
    · rw [if_pos (.inr (.inl none))]
      exact runs_pure ⟨[], ⟨fun _ => none, .inl rfl⟩, (putting_nil counted).symm⟩
    · rw [if_neg (by tauto)]
      set k := padTo s.padding (s.padding - s.compWritten % s.padding) with added
      have header : chunkHeaderSize = 4 := rfl
      have length : (padding (k - chunkHeaderSize)).bytes.length = k := by
        rw [Chunk.length_bytes, padding, List.length_replicate]
        omega
      refine ((writeAllTracked_runs m _).mono (fun _ _ h => h) fun _ _ past => ?_).bind ?_
      · have head : (chunkTypePadding :: chunkLength (k - chunkHeaderSize)).length = 4 := rfl
        omega
      · rintro _ _ rfl
        have put : (s.putting (chunkTypePadding :: chunkLength (k - chunkHeaderSize))).compWritten =
            (s.compWritten + 4) % 2 ^ 64 := rfl
        refine (putZeros_runs m (by rw [put]; omega) _).mono ?_ fun _ _ past => ?_
        · rintro _ _ rfl
          refine ⟨(padding (k - chunkHeaderSize)).bytes, ⟨fun _ => by rw [length, whole], .inr
            ⟨Nat.not_lt.mp few, k - chunkHeaderSize, by omega, rfl⟩⟩, ?_⟩
          rw [putting_putting, Chunk.bytes, padding, List.length_replicate]
        · omega

end Padding

/-- A chunk that holds the index of the pieces, which are in the first `n` bytes of the
    stream. It loads as long as the stream is not too long. -/
structure Indexing (m : Overflow) (ps : List Piece) (n : Nat) (comp : Option Nat)
    (bytes : List UInt8) : Prop where
  chunk : ∃ payload, bytes = Index.putChunk payload ∧ payload.length + 16 < 2 ^ 24
  total : (payload ps).length ≤ maxSigned
  loads : n < 2 ^ 62 → ∃ self r, Thinned (marks front ps) self ∧ Index.Reduced self r ∧
    ∀ tail start, Index.load m (bytes ++ tail) start =
      .ok tail ⟨some (payload ps).length, comp, r.offsets, r.estBlockUncomp⟩

theorem appendTo_few {m : Overflow} {self r : Index} {out : List UInt8}
    {totalUncomp totalComp : Option Nat}
    (put : Index.appendTo m self [] totalUncomp totalComp = .ok (r, out)) :
    (∀ t ∈ totalUncomp, t ≤ maxSigned) ∧
      ∃ payload, out = Index.putChunk payload ∧ payload.length + 16 < 2 ^ 24 := by
  obtain ⟨uncomp, _, ⟨reduced, run, rfl⟩, payload, stored, rfl⟩ := Index.appendTo_chunk m put
  have few := Index.reduce_few m run
  have length := Index.length_putPayload m stored
  have cap := Index.maxIndexEntries_eq
  simp only at length
  exact ⟨uncomp, payload, rfl, by omega⟩

/-- What has been marked far below the signed range can be stored and loaded. -/
theorem marks_stored (m : Overflow) {ps : List Piece} {self : Index} {n : Nat} {comp : Option Nat}
    (thinned : Thinned (marks front ps) self) (inside : front.compressed + (bytesOf ps).length ≤ n)
    (small : n < 2 ^ 62) (total : (payload ps).length ≤ maxSigned)
    (fits : ∀ t ∈ comp, t ≤ maxSigned) :
    ∃ r bytes, Index.appendTo m self [] (some (payload ps).length) comp = .ok (r, bytes) ∧
      Indexing m ps n comp bytes := by
  obtain ⟨r, reduced, kept, storable⟩ := thinned.reduce (m := m)
  have sublist := kept.sublist.trans thinned.sublist
  have limit := Index.maxSigned_eq
  have apart := Index.length_mul_le (payload ps).length thinned.spaced fun q mem => by
    have within := (mem_marks (thinned.sublist.mem mem)).2.2
    simp only [front, Nat.zero_add] at within
    exact within
  have est : r.estBlockUncomp / 2 ≤ 2 ^ 62 := by
    have start := thinned.small
    rcases kept.est with same | grown <;> omega
  have predictable := Index.predictable_small (Int.natCast_nonneg (r.estBlockUncomp / 2))
    (by exact_mod_cast est) ((marks_rising front ps).sublist sublist)
    (fun p mem => by
      have before := (mem_marks (sublist.mem mem)).2.1
      omega)
  obtain ⟨bytes, put, _, loads⟩ := Index.appendTo_ok m [] total fits reduced (storable predictable)
  obtain ⟨_, chunk⟩ := appendTo_few put
  exact ⟨_, bytes, put, chunk, total, fun _ => ⟨self, r, thinned, kept, loads⟩⟩

section Index

variable (m : Overflow) {ps : List Piece} {t : Writer (List UInt8)}

/-- The total that the index is told of the bytes of the stream. -/
def compTotal (t : Writer (List UInt8)) : Option Nat :=
  if t.padding ≤ 1 then some t.compWritten else none

/-- The writer at the end of its pieces, with what closing relies on. -/
structure AtEnd (ps : List Piece) (t : Writer (List UInt8)) : Prop where
  inside : front.compressed + (bytesOf ps).length ≤ t.w.length
  written : t.compWritten = t.w.length % 2 ^ 64
  accepted : t.uncompWritten = (payload ps).length % 2 ^ 64
  within : t.index.isSome → (payload ps).length ≤ maxSigned + maxBlockSize
  entries : ∀ idx ∈ t.index, t.w.length < 2 ^ 64 → Thinned (marks front ps) idx

/-- Within the range of offsets and of positions the index is stored. -/
theorem AtEnd.stored (h : AtEnd ps t) {idx : Index} (known : t.index = some idx)
    (small : t.w.length < 2 ^ 62) (total : (payload ps).length ≤ maxSigned) :
    ∃ r bytes, Index.appendTo m idx [] (some t.uncompWritten) (compTotal t) = .ok (r, bytes) ∧
      Indexing m ps t.w.length (compTotal t) bytes := by
  have limit := Index.maxSigned_eq
  have written := h.written
  have accepted := h.accepted
  rw [Nat.mod_eq_of_lt (by omega)] at written accepted
  rw [accepted]
  refine marks_stored m (h.entries idx known (by omega)) h.inside small total ?_
  intro x comp
  rw [compTotal] at comp
  split at comp <;> cases comp
  omega

theorem buildIndexBytes_runs (h : AtEnd ps t) {buildIndex : Bool}
    (indexed : buildIndex = true → t.index.isSome) :
    Runs (buildIndexBytes m buildIndex) t
      (fun bytes t' => ∃ idx, t' = { t with
          index := idx
          compWritten := if buildIndex ∧ t.appendIndex then (t.compWritten + bytes.length) % 2 ^ 64
            else t.compWritten } ∧
        (if buildIndex then Indexing m ps t.w.length (compTotal t) bytes else bytes = []))
      (fun _ _ => buildIndex = true ∧ (2 ^ 62 ≤ t.w.length ∨ maxSigned < (payload ps).length)) := by
  have limit := Index.maxSigned_eq
  have cap : maxBlockSize < 2 ^ 24 := by decide
  cases buildIndex with
  | false => exact runs_ok rfl ⟨t.index, rfl, rfl⟩
  | true =>
      obtain ⟨idx, known⟩ := Option.isSome_iff_exists.mp (indexed rfl)
      have within := h.within (by rw [known]; rfl)
      have accepted := h.accepted
      rw [Nat.mod_eq_of_lt (by omega)] at accepted
      refine Runs.step rfl ?_
      rw [known]
      change Runs ((liftM (ofIndex (Index.appendTo m idx [] (some t.uncompWritten) (compTotal t))) :
        Emit (List UInt8) _) >>= _) t _ _
      cases put : Index.appendTo m idx [] (some t.uncompWritten) (compTotal t) with
      | error e =>
          have past : 2 ^ 62 ≤ t.w.length ∨ maxSigned < (payload ps).length := by
            by_contra inside
            obtain ⟨r, bytes, fine, _⟩ := h.stored m known (by omega) (by omega)
            cases put.symm.trans fine
          cases e with
          | fault f => exact runs_error (bind_error rfl) ⟨rfl, past⟩
          | error e => exact runs_error (bind_error rfl) ⟨rfl, past⟩
      | ok r =>
          obtain ⟨r, bytes⟩ := r
          obtain ⟨totals, payload', chunk, short⟩ := appendTo_few put
          have total := totals _ rfl
          have indexing : Indexing m ps t.w.length (compTotal t) bytes := by
            by_cases small : t.w.length < 2 ^ 62
            · obtain ⟨r', bytes', fine, indexing⟩ := h.stored m known small (accepted ▸ total)
              cases put.symm.trans fine
              exact indexing
            · exact ⟨⟨payload', chunk, short⟩, accepted ▸ total, fun less => absurd less small⟩
          refine Runs.step rfl (Runs.step rfl ?_)
          simp only [true_and, if_true]
          cases t.appendIndex with
          | false => exact runs_ok rfl ⟨some r, rfl, indexing⟩
          | true =>
              refine ((countWritten_runs m _).mono (fun _ _ h => h) fun _ _ past => ?_).bind ?_
              · have length := Index.length_putChunk payload'
                rw [chunk] at past
                have written := h.written
                simp only at past
                omega
              · rintro _ _ rfl
                exact runs_pure ⟨some r, rfl, indexing⟩

end Index

/-- The stream up to the chunk that ends it. -/
def ended (b : WriterBuilder) (ps : List Piece) : List UInt8 :=
  makeStreamHeader b.blockSize ++ bytesOf ps ++ eofMarker ((payload ps).length % 2 ^ 64)

/-- The index bytes that come after the padding. -/
def appended (b : WriterBuilder) (bytes : List UInt8) : List UInt8 :=
  if b.appendIndex then bytes else []

/-- A writer with these options has closed the stream of these pieces, and has encoded the
    index if it was to. -/
structure Closed (m : Overflow) (b : WriterBuilder) (ps : List Piece) (buildIndex : Bool)
    (bytes stream : List UInt8) : Prop where
  valid : ∀ p ∈ ps, p.Valid b
  large : b.blockSize ≤ maxBlockSize
  index : if buildIndex then
      Indexing m ps (ended b ps).length
        (if b.padding ≤ 1 then some ((ended b ps).length % 2 ^ 64) else none) bytes
    else bytes = []
  stream : ∃ pad, Pads b.padding (((ended b ps).length + (appended b bytes).length) % 2 ^ 64) pad ∧
    stream = ended b ps ++ pad ++ appended b bytes

theorem eofMarker_length (total : Nat) : (eofMarker total).length ≤ 14 := by
  have short := Leb128.length_encode total
  rw [← bytes_eofOf, Chunk.length_bytes]
  simp only [eofOf]
  omega

section Ending

variable (m : Overflow) {b : WriterBuilder} {s : Writer (List UInt8)} {its : List Item}

theorem emitEof_runs (small : s.uncompWritten < 2 ^ 64) :
    Runs (emitEof m Sink.vec) s (fun _ s' => s' = s.putting (eofMarker s.uncompWritten))
      (fun _ _ => 2 ^ 64 ≤ s.compWritten + (eofMarker s.uncompWritten).length) :=
  (writeAllTracked_runs m _).same (emitEof_eq m Sink.vec small)

theorem putIndex_runs (bytes : List UInt8) :
    Runs (putIndex Sink.vec bytes) s
      (fun _ s' => s'.w = s.w ++ if s.appendIndex then bytes else []) (fun _ _ => False) := by
  refine Runs.step rfl ?_
  by_cases some : s.appendIndex ∧ bytes ≠ []
  · rw [if_pos some]
    exact runs_ok (putRaw_vec _) (by rw [if_pos some.1])
  · rw [if_neg some]
    refine runs_pure ?_
    split
    · next wanted =>
        have none : bytes = [] := by
          by_contra more
          exact some ⟨wanted, more⟩
        rw [none, List.append_nil]
    · rw [List.append_nil]

/-- With a sound codec the stream and its payload are no longer than their items cost. -/
theorem ended_le {ps : List Piece} (valid : ∀ p ∈ ps, p.Valid b) (large : b.blockSize ≤ maxBlockSize)
    (codec : Contract b.level) :
    (ended b ps).length ≤ cost (itemsOf ps) + 14 ∧ (payload ps).length ≤ cost (itemsOf ps) := by
  have lengths := lengths_le valid large codec
  have short := eofMarker_length ((payload ps).length % 2 ^ 64)
  simp only [ended, List.length_append, length_header]
  omega

/-- Padding and an index at the end of a stream leave the range of the counts only if the
    items are too many. -/
theorem Ledger.excess_ended {ps : List Piece} (ledger : Ledger b s ps)
    (past : 2 ^ 64 ≤ (ended b ps).length + 2 ^ 25 + 2 ^ 24 + 4) : Excess b (itemsOf ps) := by
  intro codec
  have most := streamLimit_le b
  have bounds := ended_le ledger.valid ledger.large codec
  omega

/-- The writer after the chunk that ends the stream. -/
structure AfterEof (b : WriterBuilder) (ps : List Piece) (t : Writer (List UInt8)) : Prop where
  sink : t.w = ended b ps
  counted : t.compWritten = (ended b ps).length % 2 ^ 64
  atEnd : AtEnd ps t
  padding : t.padding = b.padding
  appends : t.appendIndex = b.appendIndex

theorem Ledger.emitEof {ps : List Piece} (ledger : Ledger b s ps) (begun : s.wroteHeader = true) :
    Runs (emitEof m Sink.vec) s (fun _ t => AfterEof b ps t ∧ t.index = s.index)
      (fun _ _ => Excess b (itemsOf ps)) := by
  have written := ledger.written
  have length := ledger.length begun
  have short := eofMarker_length ((payload ps).length % 2 ^ 64)
  have whole : s.w ++ eofMarker ((payload ps).length % 2 ^ 64) = ended b ps := by
    rw [ledger.begun begun, ended]
  have size : (ended b ps).length =
      s.w.length + (eofMarker ((payload ps).length % 2 ^ 64)).length := by
    rw [← whole, List.length_append]
  have total : s.uncompWritten < 2 ^ 64 := by
    rw [ledger.accepted]
    exact Nat.mod_lt _ (by norm_num)
  refine (emitEof_runs m total).mono ?_ fun _ _ past => ?_
  · rintro _ _ rfl
    rw [ledger.accepted]
    have counted : (s.compWritten + (eofMarker ((payload ps).length % 2 ^ 64)).length) % 2 ^ 64 =
        (ended b ps).length % 2 ^ 64 := by
      rw [size]
      omega
    have counted' : (s.compWritten + (eofMarker ((payload ps).length % 2 ^ 64)).length) % 2 ^ 64 =
        (s.w ++ eofMarker ((payload ps).length % 2 ^ 64)).length % 2 ^ 64 := by rw [whole, counted]
    refine ⟨⟨whole, counted, ⟨?_, counted', ledger.accepted, ledger.within,
      fun idx entry fits => ledger.entries idx entry ?_⟩, ledger.options.padding,
      ledger.options.appendIndex⟩, rfl⟩
    · simp only [Writer.putting, whole, size, front, chunkHeaderSize, magicBodyLen, magicBody,
        List.length_cons, List.length_nil]
      omega
    · simp only [Writer.putting, whole, size] at fits
      omega
  · rw [ledger.accepted] at past
    exact ledger.excess_ended (by omega)

/-- The index bytes are few, and counted where they are appended. -/
theorem AfterEof.appended {ps : List Piece} {t : Writer (List UInt8)} (h : AfterEof b ps t)
    {buildIndex : Bool} (appends : b.appendIndex = true → buildIndex = true) {bytes : List UInt8}
    (index : if buildIndex then Indexing m ps t.w.length (compTotal t) bytes else bytes = []) :
    (appended b bytes).length < 2 ^ 25 ∧
      (if buildIndex ∧ t.appendIndex then (t.compWritten + bytes.length) % 2 ^ 64
        else t.compWritten) =
      ((ended b ps).length + (appended b bytes).length) % 2 ^ 64 := by
  rw [h.appends, h.counted, Stream.appended]
  cases wanted : b.appendIndex with
  | false => simp
  | true =>
      obtain rfl := appends wanted
      rw [if_pos rfl] at index
      obtain ⟨payload', rfl, fits⟩ := index.chunk
      simp only [and_self, if_true, Index.length_putChunk]
      omega

/-- Padding, and the index behind it. -/
theorem Ledger.emitTail {ps : List Piece} (ledger : Ledger b s ps) (padded : b.padding ≤ maxBlockSize)
    {t : Writer (List UInt8)} {bytes : List UInt8} (sink : t.w = ended b ps)
    (counted : t.compWritten = ((ended b ps).length + (appended b bytes).length) % 2 ^ 64)
    (few : (appended b bytes).length < 2 ^ 25) (padding : t.padding = b.padding)
    (appends : t.appendIndex = b.appendIndex) :
    Runs (do
      emitPadding m Sink.vec
      putIndex Sink.vec bytes
      flushSink Sink.vec
      return bytes) t
      (fun out s' => out = bytes ∧ ∃ pad,
        Pads b.padding (((ended b ps).length + (appended b bytes).length) % 2 ^ 64) pad ∧
        s'.w = ended b ps ++ pad ++ appended b bytes)
      (fun _ _ => Excess b (itemsOf ps)) := by
  have cap : maxBlockSize < 2 ^ 24 := by decide
  have header : chunkHeaderSize = 4 := rfl
  have inside : t.compWritten < 2 ^ 64 := counted ▸ Nat.mod_lt _ (by norm_num)
  refine ((emitPadding_runs m inside (padding.trans_le padded)).mono (fun _ _ h => h)
    fun _ _ past => ?_).bind ?_
  · exact ledger.excess_ended (by omega)
  rintro _ _ ⟨pad, pads, rfl⟩
  refine ((putIndex_runs bytes).mono (fun _ _ h => h) fun _ _ => False.elim).bind ?_
  rintro _ s' put
  refine Runs.step (rfl : flushSink Sink.vec s' = .ok () s') (runs_pure ⟨rfl, pad, ?_, ?_⟩)
  · rwa [padding, counted] at pads
  · rw [put, ← sink]
    show t.w ++ pad ++ (if t.appendIndex then bytes else []) = _
    rw [appends, Stream.appended]

/-- Closing a stream that has begun. -/
theorem Begins.close (h : Begins b s its) (padded : b.padding ≤ maxBlockSize) {buildIndex : Bool}
    (indexed : buildIndex = true → s.index.isSome)
    (appends : b.appendIndex = true → buildIndex = true) :
    Runs (do
      emitEof m Sink.vec
      let indexBytes ← buildIndexBytes m buildIndex
      emitPadding m Sink.vec
      putIndex Sink.vec indexBytes
      flushSink Sink.vec
      return indexBytes) s
      (fun bytes s' => ∃ ps, itemsOf ps = its ∧ Closed m b ps buildIndex bytes s'.w)
      (fun _ _ => Excess b its) := by
  obtain ⟨⟨ps, ledger, rfl⟩, begun⟩ := h
  refine (ledger.emitEof m begun).bind ?_
  rintro _ t ⟨ends, same⟩
  refine ((buildIndexBytes_runs m ends.atEnd (same ▸ indexed)).mono (fun _ _ h => h)
    fun _ _ past codec => ?_).bind ?_
  · have limit := Index.maxSigned_eq
    have bounds := ended_le ledger.valid ledger.large codec
    rw [ends.sink] at past
    rw [WriterBuilder.streamLimit, if_pos (ledger.indexed.symm.trans (indexed past.1))]
    omega
  rintro bytes _ ⟨idx, rfl, index⟩
  obtain ⟨few, counted⟩ := ends.appended m appends index
  refine (ledger.emitTail m padded ?_ counted few ?_ ?_).mono ?_ fun _ _ h => h
  · exact ends.sink
  · exact ends.padding
  · exact ends.appends
  rintro _ s' ⟨rfl, stream⟩
  refine ⟨ps, rfl, ledger.valid, ledger.large, ?_, stream⟩
  rwa [ends.sink, compTotal, ends.padding, ends.counted] at index

theorem Laid.indexed (h : Laid b s its) :
    s.index.isSome = (b.generateIndex || b.appendIndex) := by
  obtain ⟨ps, ledger, _⟩ := h
  exact ledger.indexed

theorem Takes.closeInner (h : Takes b s its) (pos : 0 < b.blockSize)
    (padded : b.padding ≤ maxBlockSize) {buildIndex : Bool}
    (indexed : buildIndex = true → (b.generateIndex || b.appendIndex) = true)
    (appends : b.appendIndex = true → buildIndex = true) :
    Runs (closeInner m Sink.vec buildIndex) s
      (fun bytes s' => ∃ ps, itemsOf ps = its ∧ Closed m b ps buildIndex bytes s'.w)
      (fun _ _ => Excess b its) := by
  refine (h.flushIbuf m pos).bind ?_
  rintro _ s1 ⟨laid, -⟩
  refine (laid.ensureHeader m).bind ?_
  rintro _ s2 ⟨begun, -⟩
  exact begun.close m padded (fun wanted => begun.1.indexed.trans (indexed wanted)) appends

theorem Takes.finish (h : Takes b s its) (pos : 0 < b.blockSize)
    (padded : b.padding ≤ maxBlockSize) :
    Runs (finish m Sink.vec) s
      (fun stream _ => ∃ ps bytes, itemsOf ps = its ∧ Closed m b ps b.appendIndex bytes stream)
      (fun _ _ => Excess b its) := by
  refine Runs.step (checkWriter_clear h.err) (Runs.step rfl ?_)
  have wanted : s.appendIndex = b.appendIndex := by
    obtain ⟨_, ⟨_, ledger, _⟩, _⟩ := h.laid
    exact ledger.options.appendIndex
  rw [wanted]
  refine (h.closeInner m pos padded (fun appends => by rw [appends, Bool.or_true]) id).bind ?_
  rintro bytes s' ⟨ps, same, closed⟩
  exact Runs.step rfl (runs_pure ⟨ps, bytes, same, closed⟩)

end Ending

/-- Calls in turn and the end of the stream. -/
theorem session_runs (m : Overflow) {b : WriterBuilder} {s : Writer (List UInt8)}
    (built : b.build [] = .ok s) (calls : List WriterCall) :
    Runs (runWrites m Sink.vec calls >>= fun _ => finish m Sink.vec) s
      (fun stream _ => ∃ ps bytes, itemsOf ps = calls.flatMap WriterCall.items ∧
        Closed m b ps b.appendIndex bytes stream)
      (fun _ _ => Excess b (calls.flatMap WriterCall.items)) := by
  obtain ⟨empty, pos, padded⟩ := build_takes built
  have taken := empty.runWrites m pos calls
  rw [List.nil_append] at taken
  exact taken.bind fun _ s' taken => taken.finish m pos padded

end MinLz.Stream
