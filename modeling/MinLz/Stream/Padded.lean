import MinLz.Stream.MtSession
import MinLz.Stream.SeekWritten

/-! # How padded streams end

Both writers pad the whole stream, the index that follows the padding included.
-/

namespace MinLz.Stream

open Block (maxBlockSize)
open Machine (Overflow)
open Pipeline

/-- The end of the stream of these items: the padding makes it a multiple of the option,
    in one chunk if at all, and only the index comes after it. -/
structure EndsPadded (m : Overflow) (b : WriterBuilder) (its : List Item) (stream : List UInt8) :
    Prop where
  multiple : stream.length % b.padding = 0
  parts : ∃ ps bytes pad, itemsOf ps = its ∧ stream = ended b ps ++ pad ++ appended b bytes ∧
    (pad = [] ∨ ∃ n ≤ maxBlockSize, pad = (padding n).bytes)
  indexed : b.appendIndex = true → stream.length < 2 ^ 60 → ∃ index : Index,
    index.totalUncompressed = some (bytesIn its).length ∧ index.totalCompressed = none ∧
      Index.loadStream m stream {} = .ok () index

section Ending

variable {m : Overflow} {b : WriterBuilder} {ps : List Piece} {bytes stream : List UInt8}

theorem Closed.endsPadded (h : Closed m b ps b.appendIndex bytes stream) (few : 2 ≤ b.padding)
    (short : stream.length < 2 ^ 64) : EndsPadded m b (itemsOf ps) stream := by
  obtain ⟨pad, ⟨whole, one⟩, rfl⟩ := h.stream
  simp only [List.length_append] at short
  refine ⟨?_, ⟨ps, bytes, pad, rfl, rfl, one.imp id fun h => h.2⟩, fun appends small => ?_⟩
  · have counted : (ended b ps).length + (appended b bytes).length < 2 ^ 64 := by omega
    have multiple := whole few
    rw [Nat.mod_eq_of_lt counted] at multiple
    rw [List.length_append, List.length_append, Nat.add_right_comm]
    exact multiple
  · have indexing := h.index
    rw [if_pos appends, if_neg (by omega)] at indexing
    simp only [List.length_append] at small
    obtain ⟨self, r, _, _, load⟩ := indexing.loads (by omega)
    obtain ⟨body, rfl, fits⟩ := indexing.chunk
    have loads := load [] {}
    rw [List.append_nil] at loads
    have found := Index.loadStream_putChunk m (ended b ps ++ pad) fits loads
    rw [appended, if_pos appends, bytesIn_itemsOf]
    exact ⟨_, rfl, rfl, found⟩

end Ending

/-- What `finish` returns is the stream of the single-threaded writer. -/
theorem produces_session {m : Overflow} {b : MtWriterBuilder} {calls : List WriterCall}
    {stream : List UInt8}
    (produces : MtProduces m Sink.vec b [] (calls.map WriterCall.mt) (.ok stream)) :
    ∃ w', session m calls (newWriter [] b.shared) = .ok stream w' := by
  generalize returned : (Except.ok stream : Except (Stop IoError) (List UInt8)) = r at produces
  cases produces with
  | @finished self s submitted result built run ended =>
      obtain ⟨outcome, self'⟩ := submitted
      obtain ⟨⟨answered, same⟩, rfl⟩ := mtFinish_ok returned.symm
      obtain rfl : outcome = .ok answered := same
      obtain ⟨items, g1, leads, eaten, closed⟩ := ended_ok run ended
      exact (led_session m built calls leads eaten closed).2

/-- The streams of both writers end as padded, however the threads of the one take turns;
    what the padding needs always fits one chunk. -/
theorem streams_padded (m : Overflow) {b : MtWriterBuilder} {self : MtWriter}
    (built : b.build = .ok self) (few : 2 ≤ b.padding) (calls : List WriterCall)
    {stream : List UInt8} (short : stream.length < 2 ^ 64) :
    (∀ w', session m calls (newWriter [] b.shared) = .ok stream w' →
      EndsPadded m b.shared (calls.flatMap WriterCall.items) stream) ∧
    (MtProduces m Sink.vec b [] (calls.map WriterCall.mt) (.ok stream) →
      EndsPadded m b.shared (calls.flatMap WriterCall.items) stream) ∧
    ∀ written, padTo b.padding (b.padding - written % b.padding) ≤ maxBlockSize + chunkHeaderSize := by
  obtain ⟨_, built⟩ := build_abreast built
  have alone (w' : Writer (List UInt8))
      (ran : session m calls (newWriter [] b.shared) = .ok stream w') :
      EndsPadded m b.shared (calls.flatMap WriterCall.items) stream := by
    obtain ⟨ps, bytes, same, closed⟩ := (session_runs m built calls).ok ran
    exact same ▸ closed.endsPadded few short
  refine ⟨alone, fun produces => ?_, fun written => ?_⟩
  · obtain ⟨w', ran⟩ := produces_session produces
    exact alone w' ran
  · obtain ⟨_, _, small⟩ := build_takes built
    exact Nat.not_lt.mp (padTo_fits few small written).1

/-- Two bytes, a user chunk and the index, to a multiple of a thousand. -/
theorem streams_padded_thousand : ∃ stream,
    MtProduces .panics Sink.vec
      { level := .fastest, concurrency := 2, padding := 1000, appendIndex := true } []
      ([.write [1, 2], .addUserChunk 0xc0 [7]].map WriterCall.mt) (.ok stream) ∧
    stream.length % 1000 = 0 ∧
    ∃ index : Index, index.totalUncompressed = some 2 ∧
      Index.loadStream .panics stream {} = .ok () index := by
  have returns : ((played (mtStages .panics Sink.vec
      { level := .fastest, concurrency := 2, padding := 1000, appendIndex := true })
      3 (List.replicate 30 [Actor.handler, .worker 0, .worker 1, .consumer]).flatten
      (start (mtSession .panics ([.write [1, 2], .addUserChunk 0xc0 [7]].map WriterCall.mt)
        (newMtWriter { level := .fastest, concurrency := 2, padding := 1000, appendIndex := true }))
        (newDrain { level := .fastest, concurrency := 2, padding := 1000, appendIndex := true }
          []))).outcome 2).any
        (fun r => (mtFinish r.1 r.2).toOption.any fun stream => stream.length < 2 ^ 60) = true := by
    decide +kernel
  obtain ⟨⟨submitted, result⟩, known, fine⟩ := (Option.any_eq_true _ _).mp returns
  obtain ⟨s, run, ended⟩ := session_played .panics Sink.vec
    (b := { level := .fastest, concurrency := 2, padding := 1000, appendIndex := true }) rfl [] _ _
    known
  cases finished : mtFinish submitted result with
  | error e =>
      rw [finished] at fine
      cases fine
  | ok stream =>
      rw [finished] at fine
      have short : stream.length < 2 ^ 60 := of_decide_eq_true fine
      have small : stream.length < 2 ^ 64 := by omega
      have produces := finished ▸ MtProduces.finished rfl run ended
      obtain ⟨_, padded, _⟩ := streams_padded .panics
        (b := { level := .fastest, concurrency := 2, padding := 1000, appendIndex := true }) rfl
        (by decide) [.write [1, 2], .addUserChunk 0xc0 [7]] small
      have padded := padded produces
      obtain ⟨index, total, _, loaded⟩ := padded.indexed rfl short
      exact ⟨stream, produces, padded.multiple, index, total, loaded⟩

end MinLz.Stream
