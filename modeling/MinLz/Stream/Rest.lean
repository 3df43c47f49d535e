import MinLz.Stream.Skip

/-! # The rest of a stream

A reader that reads on to the end without an error has the rest of a payload in front of
it. Each chunk on the way is a block, passed over, or one that starts or ends a stream.
-/

namespace MinLz.Stream

open Block (maxBlockSize)
open Machine (Overflow)
open Effects Loop

variable {σ : Type} (mem : Nat → UInt8)

/-- Read the next chunk. -/
abbrev nextRead : Action σ (Option Unit) :=
  nextChunk (handleCompressedChunk mem) handleUncompressedChunk ()

/-- Reading on hands out these bytes and then nothing, and never fails. -/
inductive Rest : Reader σ → List UInt8 → Prop where
  | ended {s : Reader σ} (drained : Drained s) (run : nextRead mem s = .ok none s) : Rest s []
  | chunk {s s' : Reader σ} {left : List UInt8} (drained : Drained s)
      (run : nextRead mem s = .ok (some ()) s') (rest : Rest s' left) : Rest s left
  | block {s : Reader σ} {left : List UInt8} (unread : s.decodedPos < s.decoded.length)
      (rest : Rest s.drain left) : Rest s (s.decoded.drop s.decodedPos ++ left)

/-- The source ends only between two streams. -/
theorem nextRead_none {s s' : Reader σ} (run : nextRead mem s = .ok none s') :
    s.r = [] ∧ s.expectEof = false ∧ s' = s := by
  have turn := turn_nextChunk (dispatch_read_ends mem) (readChunk_exits mem) s
  rw [show nextChunk _ _ _ s = _ from run] at turn
  cases turn with
  | ends empty between => exact ⟨empty, between, rfl⟩

section Rest

variable {mem} {s t : Reader σ} {left : List UInt8} {ahead : List (Option UInt8)}

theorem Drained.not_unread (h : Drained s) : ¬s.decodedPos < s.decoded.length := by
  rw [h]
  exact Nat.lt_irrefl _

theorem Drained.drain_eq (h : Drained s) : s.drain = s := by
  rw [Reader.drain, ← h]

/-- Moving within the block at hand. -/
theorem Rest.move (h : Rest mem s left) {n : Nat} (le : n ≤ s.unread) :
    Rest mem { s with decodedPos := s.decodedPos + n } (left.drop n) := by
  cases h with
  | ended drained run =>
      rw [drained.unread, Nat.le_zero] at le
      subst le
      exact .ended drained run
  | chunk drained run rest =>
      rw [drained.unread, Nat.le_zero] at le
      subst le
      exact .chunk drained run rest
  | @block _ left unread rest =>
      rw [Reader.unread] at le
      by_cases all : n = s.decoded.length - s.decodedPos
      · have past : s.decodedPos + n = s.decoded.length := by omega
        rw [List.drop_append, List.drop_eq_nil_of_le (by rw [List.length_drop]; omega),
          List.length_drop, ← all, Nat.sub_self, past]
        exact rest
      · rw [List.drop_append_of_le_length (by rw [List.length_drop]; omega), List.drop_drop]
        exact Rest.block (s := { s with decodedPos := s.decodedPos + n })
          (show s.decodedPos + n < s.decoded.length by omega) rest

/-- What a block has at hand is the front of what is left. -/
theorem Rest.at_hand (h : Rest mem s left) :
    left = s.decoded.drop s.decodedPos ++ left.drop s.unread ∧
      Rest mem s.drain (left.drop s.unread) := by
  cases h with
  | ended drained run =>
      rw [drained.unread, drained.drain_eq, List.drop_eq_nil_of_le (Nat.le_of_eq drained.symm)]
      exact ⟨rfl, .ended drained run⟩
  | chunk drained run rest =>
      rw [drained.unread, drained.drain_eq, List.drop_eq_nil_of_le (Nat.le_of_eq drained.symm)]
      exact ⟨rfl, .chunk drained run rest⟩
  | @block _ left unread rest =>
      have length : (s.decoded.drop s.decodedPos).length = s.unread := List.length_drop
      rw [List.drop_append_of_le_length (Nat.le_of_eq length.symm), ← length, List.drop_length]
      exact ⟨rfl, rest⟩

theorem Rest.alike (h : Rest mem s left) (alike : Alike s t) : Rest mem t left := by
  induction h generalizing t with
  | ended drained run =>
      cases alike with
      | refl => exact .ended drained run
      | drained _ right same =>
          obtain ⟨t', ran, _⟩ := (alike_takes mem drained right same).ok run
          obtain ⟨_, _, rfl⟩ := nextRead_none mem ran
          exact .ended right ran
  | chunk drained run rest ih =>
      cases alike with
      | refl => exact .chunk drained run rest
      | drained _ right same =>
          obtain ⟨t', ran, alike⟩ := (alike_takes mem drained right same).ok run
          exact .chunk right ran (ih alike)
  | block unread rest =>
      cases alike.unread unread
      exact .block unread rest

/-- What is left is all of the content ahead. -/
theorem Rest.ahead_eq (h : Rest mem s left) (live : Live s ahead) : ahead = left.map some := by
  induction h generalizing ahead with
  | ended drained run => exact ((live.takes mem drained.not_unread).ok run).2
  | chunk drained run _ ih => exact ih ((live.takes mem drained.not_unread).ok run).1
  | @block s left unread rest ih =>
      have moved := live.move (Nat.le_refl s.unread)
      rw [Reader.unread, Nat.add_sub_cancel' live.pos] at moved
      have behind := ih moved
      rw [List.map_append, ← behind, ← live.ahead]
      have length : ((s.decoded.drop s.decodedPos).map some).length =
          s.decoded.length - s.decodedPos := by
        rw [List.length_map, List.length_drop]
      rw [← length, List.drop_left]

/-- A reader that keeps `K` from chunk to chunk, and what it fills its block with. -/
theorem Rest.fill {K : Reader σ → Prop}
    (keeps : ∀ s s', K s → Drained s → nextRead mem s = .ok (some ()) s' → K s')
    (h : Rest mem s left) (kept : K s) (live : Live s ahead) :
    Runs (fillDecoded mem) s
      (fun more s' => K s' ∧ Rest mem s' left ∧ Live s' ahead ∧
        if more then s'.decodedPos < s'.decoded.length
        else left = [] ∧ Drained s' ∧ nextRead mem s' = .ok none s')
      fun _ _ => False := by
  refine (runs_get s).bind ?_
  rintro _ _ ⟨rfl, rfl⟩
  refine runs_runM (fun _ s => K s ∧ Rest mem s left ∧ Live s ahead) (fun _ s => s.r.length) ?_
    ⟨kept, h, live⟩ (Nat.lt_succ_self _)
  rintro _ s ⟨kept, h, live⟩
  refine (runs_get s).bind ?_
  rintro _ _ ⟨rfl, rfl⟩
  split
  · next unread => exact runs_pure ⟨kept, h, live, by rwa [if_pos rfl]⟩
  · next all =>
      cases h with
      | ended drained run =>
          refine Runs.step run (runs_pure ⟨kept, .ended drained run, live, ?_⟩)
          rw [if_neg Bool.false_ne_true]
          exact ⟨rfl, drained, run⟩
      | chunk drained run rest =>
          obtain ⟨live', shorter⟩ := (live.takes mem all).ok run
          exact Runs.step run (runs_pure ⟨⟨keeps _ _ kept drained run, rest, live'⟩, shorter⟩)
      | block unread => exact absurd unread all

end Rest

/-- What a reader without callbacks makes of the next chunk. -/
inductive Took (s : Reader σ) (c : Chunk) (rest : List UInt8) : Reader σ → Prop where
  | block {out : List UInt8} (begun : s.headerRead = true)
      (accepted : c.accepted s.ignoreCrc = some out) (fits : out.length ≤ s.maxBlock) :
      Took s c rest (s.loaded out rest 0)
  | ended (kind : c.kind = chunkTypeEof) :
      Took s c rest { s with r := rest, expectEof := false, headerRead := false }
  | opened {s' : Reader σ} (kind : c.kind = chunkTypeStreamIdentifier)
      (run : identifierChunk (s.headed c.kind (c.body ++ rest)) c.body.length = .ok s') :
      Took s c rest s'
  | passed (bare : ¬c.IsData) (other : c.kind ≠ chunkTypeStreamIdentifier)
      (high : ¬c.kind ≤ maxNonSkippableChunk) :
      Took s c rest { s with r := rest }

theorem headed_other (s : Reader σ) {kind : UInt8} (body : List UInt8)
    (other : kind ≠ chunkTypeStreamIdentifier) : s.headed kind body = { s with r := body } := by
  rw [Reader.headed, beq_eq_false_iff_ne.mpr other, Bool.or_false]

/-- A chunk without data, by its type. -/
theorem otherChunk_took {s s' : Reader σ} {kind b0 b1 b2 : UInt8} {body : List UInt8}
    (head : s.r = kind :: b0 :: b1 :: b2 :: body) (silent : s.callbacks = fun _ => none)
    (none : ¬HasBlock kind)
    (run : otherChunk (s.headed kind body) kind (readChunkLen b0 b1 b2) = .ok s') :
    ∃ c rest, Chunk.next s.r = some (c, rest) ∧ c.kind = kind ∧ Took s c rest s' := by
  obtain ⟨c, rest, took, bare, _⟩ := otherChunk_ok none run
  obtain ⟨rfl, length, split⟩ := takeBody_ok took
  refine ⟨c, rest, head ▸ next_takeBody took, rfl, ?_⟩
  rw [otherChunk] at run
  split at run
  · next eof =>
      obtain ⟨_, _, run⟩ := bind_eq_ok run
      rw [← eof] at run
      obtain ⟨x, took', run⟩ := bind_eq_ok run
      obtain ⟨_, _, run⟩ := bind_eq_ok run
      cases took'.symm.trans took
      cases run
      have other : c.kind ≠ chunkTypeStreamIdentifier := by
        rw [eof]
        decide
      rw [headed_other s body other]
      exact .ended eof
  · split at run
    · next identifier =>
        refine .opened identifier ?_
        rw [length, ← (show body = c.body ++ rest from split)]
        exact run
    · next other =>
        split at run
        · cases run
        · next high =>
          have uncalled : callbackFor (s.headed c.kind body) c.kind = .none := by
            rw [callbackFor]
            split
            · exact congrFun silent _
            · rfl
          rw [skippableChunk, uncalled] at run
          obtain ⟨_, _, run⟩ := bind_eq_ok run
          obtain ⟨x, took', run⟩ := bind_eq_ok run
          cases took'.symm.trans took
          cases run
          rw [headed_other s body other]
          exact .passed bare other high

/-- An identifier with the magic bytes starts a stream and changes nothing else. -/
theorem identifierChunk_opens {s s' : Reader σ} {c : Chunk} {rest : List UInt8}
    (head : s.r = c.body ++ rest) (run : identifierChunk s c.body.length = .ok s') :
    c.body.length = magicBodyLen ∧ magicBody <+: c.body ∧ ∃ n, s' = { s with
      r := rest, maxBlock := n, blockStart := 0, decoded := [], decodedPos := 0
      expectEof := true } := by
  obtain ⟨_, length, run⟩ := bind_eq_ok run
  obtain ⟨x, took, run⟩ := bind_eq_ok run
  obtain ⟨n, sized, run⟩ := bind_eq_ok run
  obtain ⟨_, _, run⟩ := bind_eq_ok run
  cases run
  have long := not_not.mp (of_reject length)
  obtain ⟨_, size, parts⟩ := takeBody_ok took
  obtain ⟨body, tail⟩ := List.append_inj (head.symm.trans parts) (long.trans size.symm)
  obtain ⟨_, magic, _⟩ := bind_eq_ok sized
  have prefixed := not_not.mp (of_reject magic)
  rw [← body] at prefixed
  refine ⟨long, prefixed ▸ List.take_prefix _ _, n, ?_⟩
  rw [← tail]

theorem took_cases {s s' : Reader σ} (silent : s.callbacks = fun _ => none)
    (run : nextRead mem s = .ok (some ()) s') :
    ∃ c rest, Chunk.next s.r = some (c, rest) ∧ Took s c rest s' := by
  have turn := turn_nextChunk (dispatch_read_ends mem) (readChunk_exits mem) s
  rw [show nextChunk _ _ _ s = _ from run] at turn
  cases turn with
  | @took kind b0 b1 b2 body _ _ head accepts placed =>
      by_cases data : HasBlock kind
      · rw [readChunk, if_pos data] at accepts
        obtain ⟨⟨dlen, c, rest⟩, framed, accepts⟩ := bind_eq_ok accepts
        obtain ⟨out, unpacked, accepts⟩ := bind_eq_ok accepts
        cases accepts
        obtain ⟨took, long, length, fits⟩ := frame_ok data framed
        obtain ⟨rfl, _⟩ := takeBody_ok took
        have accepted := unpack_ok mem data long unpacked
        have other : c.kind ≠ chunkTypeStreamIdentifier := by
          rcases data with (same | same) | same <;> rw [same] <;> decide
        have begun : s.headerRead = true := by
          by_contra unread
          refine placed ⟨Bool.eq_false_iff.mpr unread, other, ?_, ?_⟩
          · rcases data with (same | same) | same <;> rw [same] <;> decide
          · rcases data with (same | same) | same <;> rw [same] <;> decide
        refine ⟨c, rest, head ▸ next_takeBody took, ?_⟩
        rw [headed_other s body other]
        refine .block begun accepted ?_
        rw [Chunk.length_block (Option.filter_eq_some_iff.mp accepted).1, length]
        exact fits
      · rw [readChunk, if_neg data] at accepts
        obtain ⟨s1, other, accepts⟩ := bind_eq_ok accepts
        cases accepts
        obtain ⟨c, rest, next, _, took⟩ := otherChunk_took head silent data other
        exact ⟨c, rest, next, took⟩

end MinLz.Stream
