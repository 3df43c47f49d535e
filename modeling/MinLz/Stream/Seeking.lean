import MinLz.Index.Find
import MinLz.Index.Scan
import MinLz.Stream.Readable
import MinLz.Stream.Rest
import MinLz.Stream.Seek

/-! # Seeking in one stream

A seeker over one stream stands before it, inside it or past its end. The entries of its
index are where blocks start, so that a reader placed there is one that has read its way.
Each call does what a cursor over the payload does.
-/

namespace MinLz.Stream

open Block (maxBlockSize)
open Machine (Overflow maxSigned checkedAdd)
open Effects Loop

/-- A default reader that has not failed. -/
structure Plain (s : Reader Unit) : Prop where
  live : ∃ ahead, Live s ahead
  user : s.maxBlockUser = maxBlockSize
  strict : s.ignoreStreamId = false
  checks : s.ignoreCrc = false
  silent : s.callbacks = fun _ => none

/-- A reader at the start of its source, whatever it has read before. -/
structure Before (source : List UInt8) (s : Reader Unit) : Prop where
  plain : Plain s
  r : s.r = source
  flags : s.headerRead = false ∧ s.expectEof = false
  drained : Drained s

/-- The chunks that come next do not start a stream. -/
def Only (s : Reader Unit) : Prop := ∀ c ∈ chunks s.r, c.kind ≠ chunkTypeStreamIdentifier

/-- The source is one stream with this payload; `e` is a reader that has just read its
    identifier. -/
structure OneStream (mem : Nat → UInt8) (source payload : List UInt8) (e : Reader Unit) : Prop where
  opens : ∀ s, Before source s → nextRead mem s = .ok (some ()) e
  plain : Plain e
  begun : e.headerRead = true ∧ e.expectEof = true
  bare : e.decoded = [] ∧ e.decodedPos = 0 ∧ e.blockStart = 0
  only : Only e
  rest : Rest mem e payload
  placed : ∃ n, e.r = source.drop n ∧
    starts {} (chunks source) = starts ⟨n, 0⟩ (chunks e.r)
  small : payload.length ≤ maxSigned

/-- The reader is inside the stream, at `pos` in the payload. -/
structure Inside (mem : Nat → UInt8) (payload : List UInt8) (e : Reader Unit) (pos : Nat)
    (s : Reader Unit) : Prop where
  plain : Plain s
  begun : s.headerRead = true ∧ s.expectEof = true
  limit : s.maxBlock = e.maxBlock
  only : Only s
  block : ∃ u, s.blockStart = u.toUInt64 ∧ pos = u + s.decodedPos ∧
    payload.drop u = s.decoded ++ payload.drop (u + s.decoded.length) ∧
    u + s.decoded.length ≤ payload.length ∧
    Rest mem s.drain (payload.drop (u + s.decoded.length))

/-- The reader is past the end of the stream. -/
structure Past (mem : Nat → UInt8) (payload : List UInt8) (s : Reader Unit) : Prop where
  plain : Plain s
  flags : s.headerRead = false ∧ s.expectEof = false
  drained : Drained s
  only : Only s
  rest : Rest mem s []
  offset : s.currentOffset = payload.length.toUInt64

/-- Where a reader may be that is at `pos` in the payload. -/
inductive Walk (mem : Nat → UInt8) (source payload : List UInt8) (e : Reader Unit) (pos : Nat)
    (s : Reader Unit) : Prop where
  | before (h : Before source s) (start : pos = 0)
  | inside (h : Inside mem payload e pos s)
  | past (h : Past mem payload s) (finish : pos = payload.length)

section OneStream

variable {mem : Nat → UInt8} {source payload : List UInt8} {e s s' : Reader Unit} {pos : Nat}

theorem Plain.within (h : Plain s) : s.decodedPos ≤ s.decoded.length := by
  obtain ⟨_, live⟩ := h.live
  exact live.pos

theorem Plain.small (h : Plain s) : s.decoded.length ≤ maxBlockSize := by
  obtain ⟨_, live⟩ := h.live
  exact live.small

theorem Plain.err (h : Plain s) : s.err = none := by
  obtain ⟨_, live⟩ := h.live
  exact live.err

/-- Moving within the block at hand. -/
theorem Plain.at (h : Plain s) {n : Nat} (le : n ≤ s.decoded.length) :
    Plain { s with decodedPos := n } := by
  obtain ⟨ahead, live⟩ := h.live
  exact ⟨⟨_, live.err, le, live.small, live.limit, live.user, rfl⟩, h.user, h.strict, h.checks,
    h.silent⟩

theorem Plain.takes (h : Plain s) (drained : Drained s)
    (run : nextRead mem s = .ok (some ()) s') :
    (∃ ahead, Live s' ahead) ∧ s'.r.length < s.r.length := by
  obtain ⟨ahead, live⟩ := h.live
  obtain ⟨live', shorter⟩ := (live.takes mem drained.not_unread).ok run
  exact ⟨⟨_, live'⟩, shorter⟩

theorem Only.next {c : Chunk} {rest : List UInt8} (h : Only s)
    (next : Chunk.next s.r = some (c, rest)) :
    c.kind ≠ chunkTypeStreamIdentifier ∧ ∀ d ∈ chunks rest, d.kind ≠ chunkTypeStreamIdentifier := by
  rw [Only, chunks_next next, List.forall_mem_cons] at h
  exact h

/-- After the end of the stream there is nothing left of the payload. -/
theorem Rest.over {left : List UInt8} (h : Rest mem s left) (silent : s.callbacks = fun _ => none)
    (ended : s.headerRead = false) (only : Only s) (drained : Drained s) : left = [] := by
  induction h with
  | ended => rfl
  | @chunk s s' left _ run _ ih =>
      obtain ⟨c, rest, next, took⟩ := took_cases mem silent run
      obtain ⟨other, later⟩ := only.next next
      cases took with
      | block begun => exact absurd (ended.symm.trans begun) Bool.false_ne_true
      | ended => exact ih silent rfl later drained
      | opened kind => exact absurd kind other
      | passed => exact ih silent ended later drained
  | block unread => exact absurd unread drained.not_unread

/-- Reading on is the same from a chunk that has been taken. -/
theorem Rest.taken {left : List UInt8} (h : Rest mem s left) (drained : Drained s)
    (run : nextRead mem s = .ok (some ()) s') : Rest mem s' left := by
  cases h with
  | ended _ none => cases none.symm.trans run
  | chunk _ run' rest =>
      cases run'.symm.trans run
      exact rest
  | block unread => exact absurd unread drained.not_unread

theorem Inside.rest (h : Inside mem payload e pos s) : Rest mem s (payload.drop pos) := by
  obtain ⟨u, _, rfl, split, _, rest⟩ := h.block
  have at_hand : payload.drop (u + s.decodedPos) =
      s.decoded.drop s.decodedPos ++ payload.drop (u + s.decoded.length) := by
    rw [← List.drop_drop, split, List.drop_append_of_le_length h.plain.within]
  by_cases drained : Drained s
  · rw [drained.drain_eq] at rest
    rw [at_hand, drained, List.drop_length]
    exact rest
  · rw [at_hand]
    exact .block (Nat.lt_of_le_of_ne h.plain.within drained) rest

theorem Inside.le (h : Inside mem payload e pos s) : pos ≤ payload.length := by
  obtain ⟨u, _, rfl, _, le, _⟩ := h.block
  exact (Nat.add_le_add_left h.plain.within u).trans le

theorem Inside.offset (h : Inside mem payload e pos s) : s.currentOffset = pos.toUInt64 := by
  obtain ⟨u, start, rfl, _⟩ := h.block
  rw [Reader.currentOffset, start]
  exact (UInt64.ofNat_add _ _).symm

/-- Any other position in the block at hand. -/
theorem Inside.at (h : Inside mem payload e pos s) {u n : Nat} (start : pos = u + s.decodedPos)
    (le : n ≤ s.decoded.length) : Inside mem payload e (u + n) { s with decodedPos := n } := by
  obtain ⟨u', starts, same, split, fits, rest⟩ := h.block
  obtain rfl : u' = u := by omega
  exact ⟨h.plain.at le, h.begun, h.limit, h.only, u', starts, rfl, split, fits, rest⟩

theorem Inside.end_eq (h : Inside mem payload e pos s) (drained : Drained s) :
    s.blockEnd = pos.toUInt64 := by
  rw [← h.offset, Reader.blockEnd, Reader.currentOffset, drained]

/-- A chunk on the way: what it leaves of the payload, and where. -/
theorem Inside.takes (h : Inside mem payload e pos s) (drained : Drained s)
    (run : nextRead mem s = .ok (some ()) s') :
    ∃ c rest, Chunk.next s.r = some (c, rest) ∧ s'.r = rest ∧
      (Inside mem payload e pos s' ∧ s'.decodedPos + c.blockLen = s'.decoded.length ∨
        Past mem payload s' ∧ pos = payload.length) := by
  obtain ⟨c, rest, next, took⟩ := took_cases mem h.plain.silent run
  obtain ⟨other, later⟩ := h.only.next next
  have left := h.rest.taken drained run
  obtain ⟨live, _⟩ := h.plain.takes drained run
  refine ⟨c, rest, next, ?_⟩
  cases took with
  | @block out begun accepted fits =>
      have length := Chunk.length_block (Option.filter_eq_some_iff.mp accepted).1
      obtain ⟨hand, after⟩ := left.at_hand
      have unread : (s.loaded out rest 0).unread = out.length := Nat.sub_zero _
      rw [unread, List.drop_drop] at hand after
      have within := congrArg List.length hand
      have le := h.le
      refine ⟨rfl, .inl ⟨⟨⟨live, h.plain.user, h.plain.strict, h.plain.checks, h.plain.silent⟩, h.begun,
        h.limit, later, pos, h.end_eq drained, rfl, hand, ?_, after⟩, ?_⟩⟩
      · simp only [Reader.loaded, List.length_append, List.length_drop] at within ⊢
        omega
      · rw [← length]
        exact Nat.zero_add _
  | ended kind =>
      refine ⟨rfl, .inr ⟨⟨⟨live, h.plain.user, h.plain.strict, h.plain.checks, h.plain.silent⟩,
        ⟨rfl, rfl⟩, drained, later, ?_, ?_⟩, ?_⟩⟩
      all_goals have none := left.over h.plain.silent rfl later drained
      · rw [none] at left
        exact left
      all_goals
        have le := h.le
        have finish : pos = payload.length := by
          have := List.drop_eq_nil_iff.mp none
          omega
      · rw [← finish]
        exact h.offset
      · exact finish
  | opened kind => exact absurd kind other
  | passed bare =>
      obtain ⟨u, start, at_pos, split, fits, after⟩ := h.block
      have none : c.blockLen = 0 := if_neg bare
      have all : pos = u + s.decoded.length := by rw [at_pos, drained]
      refine ⟨rfl, .inl ⟨⟨⟨live, h.plain.user, h.plain.strict, h.plain.checks, h.plain.silent⟩, h.begun,
        h.limit, later, u, start, at_pos, split, fits, ?_⟩, ?_⟩⟩
      · rw [← all]
        have same : Drained ({ s with r := rest } : Reader Unit) := drained
        rw [same.drain_eq]
        exact left
      · rw [none]
        exact drained

/-- Nothing ahead of a reader means that no chunk ahead holds a byte. -/
theorem Rest.none_starts (h : Rest mem s []) (live : ∃ ahead, Live s ahead) (drained : Drained s)
    (at_ : OffsetPair) : starts at_ (chunks s.r) = [] := by
  obtain ⟨ahead, live⟩ := live
  have none : Stream.content s.ignoreCrc s.r = [] :=
    (live.drained drained.not_unread).trans (h.ahead_eq live)
  refine List.eq_nil_iff_forall_not_mem.mpr fun q mem => ?_
  obtain ⟨before, c, after, split, some, _⟩ := mem_starts mem
  rw [Stream.content, List.flatMap_eq_nil_iff] at none
  have empty := congrArg List.length (none c (split ▸ List.mem_append_right _ List.mem_cons_self))
  rw [Chunk.length_content, List.length_nil] at empty
  omega

/-- Where a block starts that is still to come, a reader gets to on its way. -/
theorem Inside.marks (h : Inside mem payload e pos s) {n : Nat} (placed : s.r = source.drop n)
    {q : OffsetPair} (mark : q ∈ starts ⟨n, pos + s.unread⟩ (chunks s.r)) :
    ∃ t, Inside mem payload e q.uncompressed t ∧ Drained t ∧ t.r = source.drop q.compressed := by
  generalize left_eq : payload.drop pos = left at *
  have rest : Rest mem s left := left_eq ▸ h.rest
  induction rest generalizing pos n with
  | ended drained run =>
      exact absurd ((nextRead_none mem run).2.1.symm.trans h.begun.2) Bool.false_ne_true
  | @chunk s s' left drained run rest ih =>
      obtain ⟨c, after, next, source_eq, cases⟩ := h.takes drained run
      have behind : after = source.drop (n + c.bytes.length) := by
        rw [← List.drop_drop, ← placed, (Chunk.next_some next).1, List.drop_left]
      rw [chunks_next next, starts] at mark
      have later (mark : q ∈ starts ⟨n + c.bytes.length, pos + s.unread + c.blockLen⟩ (chunks after)) :
          ∃ t, Inside mem payload e q.uncompressed t ∧ Drained t ∧
            t.r = source.drop q.compressed := by
        rcases cases with ⟨inside, length⟩ | ⟨past, _⟩
        · have unread : s'.unread = c.blockLen := by
            rw [Reader.unread]
            omega
          refine ih inside (source_eq.trans behind) ?_ left_eq
          rw [unread, source_eq]
          rw [drained.unread] at mark
          exact mark
        · rw [← source_eq, past.rest.none_starts past.plain.live past.drained] at mark
          cases mark
      split at mark
      · exact later mark
      · cases mark with
        | head =>
            rw [drained.unread]
            exact ⟨s, h, drained, placed⟩
        | tail _ mark => exact later mark
  | @block s left unread rest ih =>
      obtain ⟨u, _, start, _⟩ := h.block
      have moved := h.at start (Nat.le_refl s.decoded.length)
      have last : u + s.decoded.length = pos + s.unread := by
        rw [Reader.unread]
        omega
      have drained : Drained s.drain := rfl
      rw [last] at moved
      refine ih moved placed ?_ ?_
      · rw [drained.unread]
        exact mark
      · have length : (s.decoded.drop s.decodedPos).length = s.unread := List.length_drop
        rw [← List.drop_drop, left_eq, ← length, List.drop_left]

theorem OneStream.inside (h : OneStream mem source payload e) : Inside mem payload e 0 e := by
  obtain ⟨decoded, at_zero, start⟩ := h.bare
  refine ⟨h.plain, h.begun, rfl, h.only, 0, start, by rw [at_zero], ?_, ?_, ?_⟩
  · rw [decoded]
    rfl
  · rw [decoded]
    exact Nat.zero_le _
  · have drained : Drained e := by rw [Drained, decoded, at_zero]; rfl
    rw [drained.drain_eq, decoded]
    exact h.rest

/-- Each entry for a block is where a reader gets to on its way. -/
theorem OneStream.marks (h : OneStream mem source payload e) {q : OffsetPair}
    (mark : q ∈ starts {} (chunks source)) :
    ∃ t, Inside mem payload e q.uncompressed t ∧ Drained t ∧ t.r = source.drop q.compressed := by
  obtain ⟨n, placed, same⟩ := h.placed
  obtain ⟨decoded, at_zero, _⟩ := h.bare
  rw [same] at mark
  have unread : e.unread = 0 := by rw [Reader.unread, decoded, at_zero]; rfl
  refine h.inside.marks placed ?_
  rw [unread]
  exact mark

/-- Before the stream, inside it and past its end, one chunk after the other. -/
theorem Walk.takes (one : OneStream mem source payload e) (h : Walk mem source payload e pos s)
    (drained : Drained s) (run : nextRead mem s = .ok (some ()) s') :
    Walk mem source payload e pos s' := by
  cases h with
  | before h start =>
      cases (one.opens s h).symm.trans run
      exact .inside (start ▸ one.inside)
  | inside h =>
      obtain ⟨_, _, _, _, ⟨inside, _⟩ | ⟨past, finish⟩⟩ := h.takes drained run
      · exact .inside inside
      · exact .past past finish
  | past h finish =>
      obtain ⟨c, rest, next, took⟩ := took_cases mem h.plain.silent run
      obtain ⟨other, later⟩ := h.only.next next
      have left := h.rest.taken drained run
      obtain ⟨live, _⟩ := h.plain.takes drained run
      cases took with
      | block begun => exact absurd (h.flags.1.symm.trans begun) Bool.false_ne_true
      | ended kind =>
          exact .past ⟨⟨live, h.plain.user, h.plain.strict, h.plain.checks, h.plain.silent⟩, ⟨rfl, rfl⟩,
            drained, later, left, h.offset⟩ finish
      | opened kind => exact absurd kind other
      | passed =>
          exact .past ⟨⟨live, h.plain.user, h.plain.strict, h.plain.checks, h.plain.silent⟩, h.flags,
            drained, later, left, h.offset⟩ finish

theorem Walk.plain (h : Walk mem source payload e pos s) : Plain s := by
  cases h with
  | before h => exact h.plain
  | inside h => exact h.plain
  | past h => exact h.plain

theorem Walk.rest (one : OneStream mem source payload e) (h : Walk mem source payload e pos s) :
    Rest mem s (payload.drop pos) := by
  cases h with
  | before h start =>
      subst start
      exact .chunk h.drained (one.opens s h) one.rest
  | inside h => exact h.rest
  | past h finish =>
      rw [finish, List.drop_length]
      exact h.rest

theorem Walk.le (h : Walk mem source payload e pos s) : pos ≤ payload.length := by
  cases h with
  | before _ start => exact start ▸ Nat.zero_le _
  | inside h => exact h.le
  | past _ finish => exact Nat.le_of_eq finish

/-- Filling the block ends inside the stream with bytes to read, or past its end. -/
theorem Walk.fill (one : OneStream mem source payload e) (h : Walk mem source payload e pos s) :
    Runs (fillDecoded mem) s
      (fun more s' => if more then Inside mem payload e pos s' ∧ s'.decodedPos < s'.decoded.length
        else Past mem payload s' ∧ pos = payload.length)
      fun _ _ => False := by
  obtain ⟨ahead, live⟩ := h.plain.live
  refine ((h.rest one).fill (fun _ _ h drained run => h.takes one drained run) h live).mono ?_
    fun _ _ h => h
  rintro more s' ⟨walk, _, _, reached⟩
  cases more with
  | true =>
      rw [if_pos rfl] at reached ⊢
      cases walk with
      | before h => exact absurd reached h.drained.not_unread
      | inside h => exact ⟨h, reached⟩
      | past h => exact absurd reached h.drained.not_unread
  | false =>
      rw [if_neg Bool.false_ne_true] at reached ⊢
      obtain ⟨_, _, run⟩ := reached
      cases walk with
      | before h => cases (one.opens s' h).symm.trans run
      | inside h =>
          exact absurd ((nextRead_none mem run).2.1.symm.trans h.begun.2) Bool.false_ne_true
      | past h finish => exact ⟨h, finish⟩

/-- What follows the identifier depends on the source only. -/
theorem Before.opens {s t : Reader Unit} (h : Before source s) (h' : Before source t) {c : Chunk}
    {rest : List UInt8} (next : Chunk.next source = some (c, rest))
    (first : c.kind = chunkTypeStreamIdentifier) (run : nextRead mem s = .ok (some ()) s') :
    nextRead mem t = .ok (some ()) s' ∧
      ∃ n, s' = { s with
        r := rest, maxBlock := n, blockStart := 0, decoded := [], decodedPos := 0
        headerRead := true, expectEof := true } := by
  obtain ⟨c', rest', next', took⟩ := took_cases mem h.plain.silent run
  rw [h.r, next] at next'
  cases next'
  obtain ⟨split, fits⟩ := Chunk.next_some next
  cases took with
  | block begun => exact absurd (h.flags.1.symm.trans begun) Bool.false_ne_true
  | ended kind => exact absurd (first.symm.trans kind) (by decide)
  | passed _ other => exact absurd first other
  | opened kind opens =>
      have same : identifierChunk (t.headed c.kind (c.body ++ rest)) c.body.length = .ok s' := by
        have err := h.plain.err.trans h'.plain.err.symm
        have user := h.plain.user.trans h'.plain.user.symm
        have strict := h.plain.strict.trans h'.plain.strict.symm
        have checks := h.plain.checks.trans h'.plain.checks.symm
        have silent := h.plain.silent.trans h'.plain.silent.symm
        have header := h.flags.1.trans h'.flags.1.symm
        rw [← opens]
        clear h h' opens run
        cases s
        cases t
        simp only at *
        subst user strict checks err silent header
        rfl
      constructor
      · refine nextChunk_takes (dispatch_read_ends mem) (h'.r.trans split) fits
          (fun misplaced => misplaced.2.1 first) ?_
        rw [readChunk, if_neg (by rw [first]; decide), otherChunk, if_neg (by rw [first]; decide),
          if_pos first, same]
        rfl
      · obtain ⟨_, _, n, rfl⟩ := identifierChunk_opens (rfl : _ = c.body ++ rest) opens
        have header : (s.headerRead || c.kind == chunkTypeStreamIdentifier) = true := by
          rw [first, beq_self_eq_true, Bool.or_true]
        simp only [Reader.headed, header]
        exact ⟨n, rfl⟩

/-- A source that begins with its only identifier, and that a default reader reads to its
    end, is one stream. -/
theorem oneStream_of {s : Reader Unit} (h : Before source s) (rest : Rest mem s payload) {c : Chunk}
    {cs : List Chunk} (split : chunks source = c :: cs) (first : c.kind = chunkTypeStreamIdentifier)
    (only : ∀ d ∈ cs, d.kind ≠ chunkTypeStreamIdentifier) (small : payload.length ≤ maxSigned) :
    ∃ e, OneStream mem source payload e := by
  obtain ⟨after, next, behind⟩ : ∃ after, Chunk.next source = some (c, after) ∧ chunks after = cs := by
    cases next : Chunk.next source with
    | none =>
        rw [chunks_end next] at split
        cases split
    | some x =>
        rw [chunks_next next] at split
        cases split
        exact ⟨x.2, rfl, rfl⟩
  cases rest with
  | ended _ run =>
      have empty := (nextRead_none mem run).1
      rw [h.r] at empty
      rw [empty] at next
      cases next
  | block unread => exact absurd unread h.drained.not_unread
  | @chunk _ e _ drained run rest =>
      obtain ⟨_, n, shape⟩ := h.opens h next first run
      obtain ⟨live, _⟩ := h.plain.takes drained run
      have bytes := (Chunk.next_some next).1
      have bare : c.blockLen = 0 := by
        rw [Chunk.blockLen, if_neg]
        rw [Chunk.IsData, first]
        decide
      refine ⟨e, fun t before => (h.opens before next first run).1, ?_, ?_, ?_, ?_, rest, ?_, small⟩
      · rw [shape] at live ⊢
        exact ⟨live, h.plain.user, h.plain.strict, h.plain.checks, h.plain.silent⟩
      · rw [shape]
        exact ⟨rfl, rfl⟩
      · rw [shape]
        exact ⟨rfl, rfl, rfl⟩
      · rw [Only, shape, behind]
        exact only
      · refine ⟨c.bytes.length, ?_, ?_⟩
        · rw [shape, bytes, List.drop_left]
        · rw [split, starts, if_pos bare, bare, shape, behind]
          simp

/-- A drained block can be dropped. -/
theorem Inside.settle (h : Inside mem payload e pos s) (drained : Drained s) :
    Inside mem payload e pos s.settle := by
  obtain ⟨ahead, live⟩ := h.plain.live
  have rest := h.rest.alike (.drained drained rfl (settle_settle s).symm : Alike s s.settle)
  refine ⟨⟨⟨_, live.err, le_rfl, Nat.zero_le _, live.limit, live.user, rfl⟩, h.plain.user,
    h.plain.strict, h.plain.checks, h.plain.silent⟩, h.begun, h.limit, h.only, pos,
    h.end_eq drained, rfl, rfl, h.le, rest⟩

/-- Skipping into or past the next block. -/
theorem Inside.skips (h : Inside mem payload e pos s) (drained : Drained s) {n : Nat} (some : 0 < n)
    (inside : pos + n ≤ payload.length) :
    ∃ left pos' t, nextChunk (skipCompressedOrDecode mem · · n) (skipUncompressedOrDecode · n) n s =
        .ok (.some left) t ∧
      Inside mem payload e pos' t ∧ pos' + left = pos + n ∧ t.r.length < s.r.length := by
  have rest := h.rest
  have more : payload.drop pos ≠ [] := fun none => by
    have := List.drop_eq_nil_iff.mp none
    omega
  obtain ⟨s', run⟩ : ∃ s', nextRead mem s = .ok (.some ()) s' := by
    generalize payload.drop pos = left at rest more
    cases rest with
    | ended => exact absurd rfl more
    | chunk _ run _ => exact ⟨_, run⟩
    | block unread => exact absurd unread drained.not_unread
  obtain ⟨c, after, next, source_eq, cases⟩ := h.takes drained run
  obtain ⟨inside', length⟩ : Inside mem payload e pos s' ∧
      s'.decodedPos + c.blockLen = s'.decoded.length := by
    rcases cases with here | ⟨_, finish⟩
    · exact here
    · omega
  obtain ⟨_, shorter⟩ := h.plain.takes drained run
  obtain ⟨left, t, skipped, landed⟩ := skips_of_takes mem run n
  refine ⟨left, pos + (n - left), t, skipped, ?_⟩
  obtain ⟨u, _, at_pos, _⟩ := inside'.block
  cases landed with
  | @moved j k within =>
      rw [Reader.unread] at within
      have moved := inside'.at at_pos (by omega : s'.decodedPos + j ≤ s'.decoded.length)
      rw [← Nat.add_assoc, ← at_pos] at moved
      rw [Nat.add_sub_cancel]
      exact ⟨moved, by omega, shorter⟩
  | @dropped k =>
      have at_end : u + s'.decoded.length = pos + s'.unread := by
        rw [Reader.unread]
        omega
      have moved := inside'.at at_pos (Nat.le_refl s'.decoded.length)
      rw [at_end] at moved
      rw [Nat.add_sub_cancel]
      exact ⟨moved.settle rfl, by omega, shorter⟩

theorem Inside.skip (m : Overflow) (h : Inside mem payload e pos s) {n : Nat}
    (inside : pos + n ≤ payload.length) :
    Runs (skip m mem n) s (fun _ s' => Inside mem payload e (pos + n) s') fun _ _ => False := by
  refine Runs.step (checkErr_clear h.plain.err) (Runs.step rfl ?_)
  refine runs_runM (fun k s => ∃ at_, Inside mem payload e at_ s ∧ at_ + k = pos + n)
    (fun _ s => s.r.length) ?_ ⟨pos, h, rfl⟩ (Nat.lt_succ_self _)
  rintro k s ⟨at_, h, target⟩
  have avail : available m s = .ok s.unread := available_ok m h.plain.within h.plain.small
  have within := h.plain.within
  obtain ⟨u, _, at_pos, _⟩ := h.block
  by_cases stops : k ≤ s.unread
  · refine runs_ok (skipStep_within m mem avail stops) ?_
    rw [Reader.unread] at stops
    have moved := h.at at_pos (by omega : s.decodedPos + k ≤ s.decoded.length)
    rw [← Nat.add_assoc, ← at_pos, target] at moved
    exact moved
  · rw [Reader.unread] at stops
    have drained := h.at at_pos (Nat.le_refl s.decoded.length)
    obtain ⟨left, at', t, skipped, moved, same, shorter⟩ := drained.skips rfl
      (n := k - s.unread) (by rw [Reader.unread]; omega) (by rw [Reader.unread]; omega)
    refine runs_ok (skipStep_past m mem avail (by rw [Reader.unread]; omega) skipped) ?_
    refine ⟨⟨at', moved, ?_⟩, shorter⟩
    rw [Reader.unread] at same
    omega

end OneStream

end MinLz.Stream
