import MinLz.Stream.Sticky

/-! # The position in the block

A reader's position is within its block and the block within the limits, until a data
chunk is refused after a shorter block has taken the place of the one at hand: the
position is then still that in the old one. The limits hold after that as well.
-/

namespace MinLz.Stream

open Block (maxBlockSize)
open Machine (Overflow)
open Effects Loop

variable {σ : Type} (m : Overflow) (mem : Nat → UInt8)

/-- The block is no larger than the stream, and the user, allow. -/
structure Sized (s : Reader σ) : Prop where
  block : s.decoded.length ≤ s.maxBlock
  limit : s.maxBlock ≤ s.maxBlockUser
  user : s.maxBlockUser ≤ maxBlockSize

def InBlock (s : Reader σ) : Prop := s.decodedPos ≤ s.decoded.length

/-- A data chunk with a block of `dlen` bytes is refused when the block at hand is gone;
    `left` bytes are in its place. -/
inductive Refused (s : Reader σ) : UInt8 → Nat → Nat → Nat → Prop where
  | undecoded {kind : UInt8} {len dlen : Nat} {c : Chunk} {rest : List UInt8} {e : Stop Error}
      (coded : IsCoded kind) (framed : frameCompressed s kind len = .ok (dlen, c, rest))
      (fails : ofBlock (Block.appendDecodedChunkBody mem [] (c.body.drop checksumSize)) = .error e) :
      Refused s kind len dlen 0
  | unverified {kind : UInt8} {len dlen : Nat} {c : Chunk} {rest : List UInt8} {e : Stop Error}
      (coded : IsCoded kind) (framed : frameCompressed s kind len = .ok (dlen, c, rest))
      (fails : unpackCompressed mem s.ignoreCrc c = .error e) : Refused s kind len dlen dlen
  | stored {len : Nat} {e : Stop Error} (long : checksumSize ≤ len)
      (fits : len - checksumSize ≤ s.maxBlock) (some : checksumSize ≤ s.r.length)
      (fails : (do
        let (c, _) ← takeBody chunkTypeUncompressedData len s.r
        unpackUncompressed s.ignoreCrc c) = .error e) :
      Refused s chunkTypeUncompressedData len (len - checksumSize) (len - checksumSize)

/-- The next chunk is refused when a shorter block has taken the place of the one at hand;
    `decodes` says which blocks are decoded at all. -/
def Spoils (s : Reader σ) (decodes : Nat → Prop) : Prop :=
  ∃ kind b0 b1 b2 body dlen left, s.r = kind :: b0 :: b1 :: b2 :: body ∧ ¬Misplaced s kind ∧
    Refused mem (s.headed kind body) kind (readChunkLen b0 b1 b2) dlen left ∧ decodes dlen ∧
    left < s.decoded.length

/-- Reading comes to a chunk that spoils the position. -/
inductive ReadSpoils : Reader σ → Prop where
  | here {s : Reader σ} (drained : ¬s.decodedPos < s.decoded.length)
      (spoils : Spoils mem s fun _ => True) : ReadSpoils s
  | past {s s' : Reader σ} (drained : ¬s.decodedPos < s.decoded.length)
      (took : nextChunk (handleCompressedChunk mem) handleUncompressedChunk () s = .ok (some ()) s')
      (rest : ReadSpoils s') : ReadSpoils s

/-- Skipping `n` bytes comes to one; it decodes the block in which it stops. -/
inductive SkipSpoils : Reader σ → Nat → Prop where
  | here {s : Reader σ} {n : Nat} (past : s.unread < n)
      (spoils : Spoils mem s.drain (n - s.unread < ·)) : SkipSpoils s n
  | past {s s' : Reader σ} {n left : Nat} (past : s.unread < n)
      (took : nextChunk (skipCompressedOrDecode mem · · (n - s.unread))
        (skipUncompressedOrDecode · (n - s.unread)) (n - s.unread) s.drain = .ok (some left) s')
      (rest : SkipSpoils s' left) : SkipSpoils s n

/-- A call comes to a chunk that spoils the position. -/
def Call.Spoils (s : Reader σ) : Call → Prop
  | .read len => s.err = none ∧ 0 < len ∧ ReadSpoils mem s
  | .fillBuf => s.err = none ∧ ReadSpoils mem s
  | .consume _ => False
  | .skip n => s.err = none ∧ SkipSpoils mem s n

/-- A reader that calls have led to, whether they failed or not, and resets, when no call
    has come to a chunk that spoils the position. -/
inductive Unspoilt (b : ReaderBuilder σ) : Reader σ → Prop where
  | built {s : Reader σ} {data : List UInt8} {world : σ} (built : b.build data world = .ok s) :
      Unspoilt b s
  | returned {s s' : Reader σ} {call : Call} {bytes : List UInt8} (before : Unspoilt b s)
      (fine : ¬call.Spoils mem s) (run : call.run m mem s = .ok bytes s') : Unspoilt b s'
  | failed {s s' : Reader σ} {call : Call} {e : IoError} (before : Unspoilt b s)
      (fine : ¬call.Spoils mem s) (run : call.run m mem s = .error (.error e) s') : Unspoilt b s'
  | reset {s : Reader σ} (before : Unspoilt b s) (data : List UInt8) :
      Unspoilt b (Stream.reset s data)

/-- The limits stay, and so does the block, or it is emptied. -/
structure Stays (s s' : Reader σ) : Prop where
  maxBlock : s'.maxBlock = s.maxBlock
  maxBlockUser : s'.maxBlockUser = s.maxBlockUser
  block : s'.decoded = s.decoded ∧ s'.decodedPos = s.decodedPos ∨ s'.decoded = [] ∧ s'.decodedPos = 0

/-- The chunk is refused with another block in place of the one at hand. -/
structure Falls (s : Reader σ) (kind : UInt8) (len : Nat) (decodes : Nat → Prop) (s' : Reader σ) :
    Prop where
  maxBlock : s'.maxBlock = s.maxBlock
  maxBlockUser : s'.maxBlockUser = s.maxBlockUser
  pos : s'.decodedPos = s.decodedPos
  refused : ∃ dlen, Refused mem s kind len dlen s'.decoded.length ∧ decodes dlen

theorem Refused.left_le {s : Reader σ} {kind : UInt8} {len dlen left : Nat}
    (h : Refused mem s kind len dlen left) : left ≤ s.maxBlock := by
  cases h with
  | undecoded => exact Nat.zero_le _
  | unverified coded framed =>
      have framed : frame s kind len = .ok _ := (if_pos coded).trans framed
      exact (frame_ok (.inl coded) framed).2.2.2
  | stored _ fits => exact fits

theorem reject_runs {bad : Prop} [Decidable bad] {e : Error} {s : Reader σ} :
    Runs (liftM (reject bad e) : Handle σ Unit) s (fun _ s' => s = s' ∧ ¬bad)
      fun _ s' => s = s' := by
  refine runs_lift ?_
  unfold reject
  split
  · exact exits_error rfl
  · next fine => exact exits_ok ⟨rfl, fine⟩

theorem readExact_runs (kind : UInt8) (n : Nat) (s : Reader σ) :
    Runs (readExactOrCorrupt n) s
      (fun body s' => ∃ c, takeBody kind n s.r = .ok (c, s'.r) ∧ c.body = body ∧
        s' = { s with r := s'.r })
      (fun _ s' => s' = { s with r := [] }) := by
  by_cases enough : n ≤ s.r.length
  · exact runs_ok (if_pos enough) ⟨_, if_pos enough, rfl, rfl⟩
  · exact runs_error (if_neg enough) rfl

theorem append_length {body out : List UInt8} {dlen : Nat}
    (decodes : ofBlock (Block.appendDecodedChunkBody mem [] body) = .ok out)
    (declares : ofBlock (Block.decodedLenChunkBody body) = .ok dlen) : out.length = dlen := by
  obtain ⟨⟨n, compressed⟩, split, decodes⟩ := bind_eq_ok (ofBlock_ok decodes)
  obtain ⟨block, _, decodes⟩ := bind_eq_ok decodes
  obtain ⟨_, split', declares⟩ := bind_eq_ok (ofBlock_ok declares)
  cases split.symm.trans split'
  cases declares
  cases decodes
  simp

/-- A block that is refused is not decoded, or decoded and at hand. -/
theorem decodeBlock_fails (c : Chunk) {s : Reader σ} (empty : s.decoded = []) :
    Runs (decodeBlock mem c.kind c.checksum (c.body.drop checksumSize)) s (fun _ _ => True)
      (fun _ s' =>
        (∃ e, ofBlock (Block.appendDecodedChunkBody mem [] (c.body.drop checksumSize)) = .error e ∧
          s' = s) ∨
        ∃ out e, ofBlock (Block.appendDecodedChunkBody mem [] (c.body.drop checksumSize)) = .ok out ∧
          unpackCompressed mem s.ignoreCrc c = .error e ∧ s' = { s with decoded := out }) := by
  have ends := decodeBlock_ends mem c empty
  have states : Runs (decodeBlock mem c.kind c.checksum (c.body.drop checksumSize)) s
      (fun _ _ => True)
      (fun _ s' =>
        (∃ e, ofBlock (Block.appendDecodedChunkBody mem [] (c.body.drop checksumSize)) = .error e ∧
          s' = s) ∨
        ∃ out, ofBlock (Block.appendDecodedChunkBody mem [] (c.body.drop checksumSize)) = .ok out ∧
          s' = { s with decoded := out }) := by
    refine Runs.step rfl ?_
    rw [empty]
    cases decodes : ofBlock (Block.appendDecodedChunkBody mem [] (c.body.drop checksumSize)) with
    | error e => exact runs_error (bind_error (lift_error rfl)) (.inl ⟨e, rfl, rfl⟩)
    | ok out =>
        refine Runs.step (lift_ok rfl) (Runs.step rfl (Runs.step rfl ?_))
        split
        · exact runs_pure trivial
        · refine Runs.bind (P := fun _ s' => s' = { s with decoded := out }) (runs_lift ?_) ?_
          · cases toCrc c.kind (c.body.drop checksumSize) out with
            | ok covered => exact exits_ok rfl
            | error e => exact exits_error (.inr ⟨out, rfl, rfl⟩)
          · rintro covered _ rfl
            refine runs_lift ?_
            cases verifyCrc covered c.checksum with
            | ok _ => exact exits_ok trivial
            | error e => exact exits_error (.inr ⟨out, rfl, rfl⟩)
  cases run : decodeBlock mem c.kind c.checksum (c.body.drop checksumSize) s with
  | ok a s' => exact runs_ok run trivial
  | error e s' =>
      refine runs_error run ?_
      rcases states.error run with kept | ⟨out, decodes, state⟩
      · exact .inl kept
      · have fails := ends.error run
        cases unpacks : unpackCompressed mem s.ignoreCrc c with
        | ok _ =>
            rw [unpacks] at fails
            cases fails
        | error e' => exact .inr ⟨out, e', decodes, rfl, state⟩

/-- A refused chunk leaves the block at hand, or another one in its place. -/
def AfterRefusal (s : Reader σ) (kind : UInt8) (len : Nat) (decodes : Nat → Prop)
    (s' : Reader σ) : Prop :=
  Stays s s' ∨ Falls mem s kind len decodes s'

theorem stays_same {s s' : Reader σ} (block : s'.decoded = s.decoded)
    (pos : s'.decodedPos = s.decodedPos) (maxBlock : s'.maxBlock = s.maxBlock)
    (maxBlockUser : s'.maxBlockUser = s.maxBlockUser) : Stays s s' :=
  ⟨maxBlock, maxBlockUser, .inl ⟨block, pos⟩⟩

section Handlers

variable {s : Reader σ} {kind : UInt8} {len : Nat} {decodes : Nat → Prop}

/-- A block that is decoded for a chunk that has been framed. -/
theorem decodeBlock_falls (coded : IsCoded kind) {dlen : Nat} {c : Chunk} {rest : List UInt8}
    (framed : frameCompressed s kind len = .ok (dlen, c, rest)) (wanted : decodes dlen)
    (s1 : Reader σ) (empty : s1.decoded = []) (pos : s1.decodedPos = s.decodedPos)
    (maxBlock : s1.maxBlock = s.maxBlock) (maxBlockUser : s1.maxBlockUser = s.maxBlockUser)
    (checks : s1.ignoreCrc = s.ignoreCrc) :
    Runs (decodeBlock mem kind c.checksum (c.body.drop checksumSize)) s1 (fun _ _ => True)
      (fun _ s' => AfterRefusal mem s kind len decodes s') := by
  have framed' : frame s kind len = .ok (dlen, c, rest) := (if_pos coded).trans framed
  obtain ⟨took, _, _, _⟩ := frame_ok (.inl coded) framed'
  obtain ⟨rfl, _⟩ := takeBody_ok took
  refine (decodeBlock_fails mem c empty).mono (fun _ _ _ => trivial) ?_
  rintro _ s' (⟨e, fails, rfl⟩ | ⟨out, e, decoded, fails, rfl⟩)
  · exact .inr ⟨maxBlock, maxBlockUser, pos, dlen, empty ▸ .undecoded coded framed fails, wanted⟩
  · have declares : ofBlock (Block.decodedLenChunkBody (c.body.drop checksumSize)) = .ok dlen := by
      obtain ⟨_, _, framed⟩ := bind_eq_ok framed
      obtain ⟨_, _, framed⟩ := bind_eq_ok framed
      obtain ⟨⟨c', rest'⟩, _, framed⟩ := bind_eq_ok framed
      obtain ⟨dlen', declares, framed⟩ := bind_eq_ok framed
      obtain ⟨_, _, framed⟩ := bind_eq_ok framed
      cases framed
      exact declares
    have length := append_length mem decoded declares
    rw [checks] at fails
    refine .inr ⟨maxBlock, maxBlockUser, pos, dlen, ?_, wanted⟩
    rw [show ({ s1 with decoded := out } : Reader σ).decoded.length = dlen from length]
    exact .unverified coded framed fails

theorem framed_of {dlen : Nat} {c : Chunk} {rest : List UInt8} (long : ¬len < checksumSize)
    (room : ¬len > maxBufSize s) (took : takeBody kind len s.r = .ok (c, rest))
    (declares : ofBlock (Block.decodedLenChunkBody (c.body.drop checksumSize)) = .ok dlen)
    (fits : ¬dlen > s.maxBlock) : frameCompressed s kind len = .ok (dlen, c, rest) := by
  simp only [frameCompressed, reject, if_neg long, if_neg room, took, declares, if_neg fits, bind,
    Except.bind, pure, Except.pure]

theorem dlen_runs (c : Chunk) {s1 : Reader σ} (kept : Stays s s1) :
    Runs (liftM (ofBlock (Block.decodedLenChunkBody (c.body.drop checksumSize))) : Handle σ Nat) s1
      (fun dlen s' => s1 = s' ∧
        ofBlock (Block.decodedLenChunkBody (c.body.drop checksumSize)) = .ok dlen)
      (fun _ s' => AfterRefusal mem s kind len decodes s') := by
  refine runs_lift ?_
  cases run : ofBlock (Block.decodedLenChunkBody (c.body.drop checksumSize)) with
  | ok dlen => exact exits_ok ⟨rfl, rfl⟩
  | error e => exact exits_error (.inl kept)

/-- A check that refuses a chunk before its block is decoded. -/
theorem reject_falls {bad : Prop} [Decidable bad] {e : Error} {s1 : Reader σ} (kept : Stays s s1) :
    Runs (liftM (reject bad e) : Handle σ Unit) s1 (fun _ s' => s1 = s' ∧ ¬bad)
      (fun _ s' => AfterRefusal mem s kind len decodes s') :=
  reject_runs.mono (fun _ _ h => h) fun _ _ h => .inl (h ▸ kept)

theorem readExact_falls (kind' : UInt8) (n : Nat) {s1 : Reader σ}
    (kept : Stays s { s1 with r := [] }) :
    Runs (readExactOrCorrupt n) s1
      (fun body s' => ∃ c, takeBody kind' n s1.r = .ok (c, s'.r) ∧ c.body = body ∧
        s' = { s1 with r := s'.r })
      (fun _ s' => AfterRefusal mem s kind len decodes s') :=
  (readExact_runs kind' n s1).mono (fun _ _ h => h) fun _ _ h => .inl (h ▸ kept)

theorem handleCompressedChunk_fails (coded : IsCoded kind) :
    Runs (handleCompressedChunk mem kind len) s (fun _ _ => True)
      (fun _ s' => AfterRefusal mem s kind len (fun _ => True) s') := by
  rw [handleCompressedChunk]
  refine Runs.bind (reject_falls mem (stays_same rfl rfl rfl rfl)) ?_
  rintro _ _ ⟨rfl, long⟩
  rw [ensureBuf, bind_assoc]
  refine Runs.step rfl (Runs.step rfl ?_)
  refine Runs.bind (reject_falls mem (stays_same rfl rfl rfl rfl)) ?_
  rintro _ _ ⟨rfl, room⟩
  refine Runs.bind (readExact_falls mem kind len (stays_same rfl rfl rfl rfl)) ?_
  rintro _ s1 ⟨c, took, rfl, state⟩
  have kept : Stays s s1 := state ▸ stays_same rfl rfl rfl rfl
  refine (dlen_runs mem c kept).bind ?_
  rintro dlen _ ⟨rfl, declares⟩
  refine Runs.step rfl (Runs.bind (reject_falls mem kept) ?_)
  rintro _ _ ⟨rfl, fits⟩
  rw [kept.maxBlock] at fits
  have framed : frameCompressed s kind len = .ok (dlen, c, s1.r) :=
    framed_of long room took declares fits
  refine Runs.step rfl ?_
  have pos : s1.decodedPos = s.decodedPos := by rw [state]
  have checks : s1.ignoreCrc = s.ignoreCrc := by rw [state]
  refine Runs.bind (decodeBlock_falls mem coded framed trivial { s1 with decoded := [] } rfl pos
    kept.maxBlock kept.maxBlockUser checks) ?_
  exact fun _ _ _ => runs_ok rfl trivial

theorem skipCompressedOrDecode_fails (coded : IsCoded kind) (n : Nat) :
    Runs (skipCompressedOrDecode mem kind len n) s (fun _ _ => True)
      (fun _ s' => AfterRefusal mem s kind len (n < ·) s') := by
  rw [skipCompressedOrDecode]
  refine Runs.bind (reject_falls mem (stays_same rfl rfl rfl rfl)) ?_
  rintro _ _ ⟨rfl, long⟩
  rw [ensureBuf, bind_assoc]
  refine Runs.step rfl (Runs.bind (reject_falls mem (stays_same rfl rfl rfl rfl)) ?_)
  rintro _ _ ⟨rfl, room⟩
  refine Runs.bind (readExact_falls mem kind len (stays_same rfl rfl rfl rfl)) ?_
  rintro _ s1 ⟨c, took, rfl, state⟩
  have kept : Stays s s1 := state ▸ stays_same rfl rfl rfl rfl
  refine (dlen_runs mem c kept).bind ?_
  rintro dlen _ ⟨rfl, declares⟩
  refine Runs.step rfl (Runs.bind (reject_falls mem kept) ?_)
  rintro _ _ ⟨rfl, fits⟩
  rw [kept.maxBlock] at fits
  have framed := framed_of long room took declares fits
  split
  · next partly =>
      refine Runs.step rfl ?_
      have pos : s1.decodedPos = s.decodedPos := by rw [state]
      have checks : s1.ignoreCrc = s.ignoreCrc := by rw [state]
      refine Runs.bind (decodeBlock_falls mem coded framed partly
        { s1 with decoded := [], blockStart := s1.blockEnd } rfl pos kept.maxBlock
        kept.maxBlockUser checks) ?_
      exact fun _ _ _ => Runs.step rfl (runs_pure trivial)
  · exact Runs.step rfl (runs_pure trivial)

/-- A stored block that is refused once its checksum has been read. -/
theorem readBlock_falls (long : ¬len < checksumSize) (fits : ¬len - checksumSize > s.maxBlock)
    (wanted : decodes (len - checksumSize)) {s1 : Reader σ} (source : s1.r = s.r)
    (kept : Stays s s1) (checks : s1.ignoreCrc = s.ignoreCrc)
    (pos : s1.decodedPos = s.decodedPos) (block : s1.decoded = s.decoded) :
    Runs (do
        let buf ← readExactOrCorrupt checksumSize
        readBlock (readU32Le buf) (len - checksumSize)) s1 (fun _ _ => True)
      (fun _ s' => AfterRefusal mem s chunkTypeUncompressedData len decodes s') := by
  have ends := readBlock_ends long s1
  have states : Runs (do
        let buf ← readExactOrCorrupt checksumSize
        readBlock (readU32Le buf) (len - checksumSize)) s1 (fun _ _ => True)
      (fun _ s' => Stays s s' ∨ checksumSize ≤ s1.r.length ∧ s'.maxBlock = s1.maxBlock ∧
        s'.maxBlockUser = s1.maxBlockUser ∧ s'.decodedPos = s1.decodedPos ∧
        s'.decoded.length = len - checksumSize) := by
    by_cases some : checksumSize ≤ s1.r.length
    · refine Runs.step (if_pos some) ?_
      by_cases enough : len - checksumSize ≤ (s1.r.drop checksumSize).length
      · have length : ((s1.r.drop checksumSize).take (len - checksumSize)).length =
          len - checksumSize := List.length_take_of_le enough
        refine Runs.step (if_pos enough) (Runs.step rfl ?_)
        split
        · exact runs_pure trivial
        · refine Runs.step rfl (runs_lift ?_)
          cases verifyCrc _ _ with
          | ok _ => exact exits_ok trivial
          | error e => exact exits_error (.inr ⟨some, rfl, rfl, rfl, length⟩)
      · refine runs_error (bind_error (if_neg enough)) (.inr ⟨some, rfl, rfl, rfl, ?_⟩)
        rw [List.length_append, List.length_replicate, Nat.add_sub_cancel' (Nat.le_of_not_le enough)]
    · refine runs_error (bind_error (if_neg some)) (.inl ?_)
      exact stays_same block pos kept.maxBlock kept.maxBlockUser
  cases run : (do
      let buf ← readExactOrCorrupt checksumSize
      readBlock (readU32Le buf) (len - checksumSize) : Handle σ Unit) s1 with
  | ok a s' => exact runs_ok run trivial
  | error e s' =>
      refine runs_error run ?_
      rcases states.error run with same | ⟨some, maxBlock, maxBlockUser, pos', left⟩
      · exact .inl same
      · have fails := ends.error run
        rw [source, checks] at fails
        refine .inr ⟨maxBlock.trans kept.maxBlock, maxBlockUser.trans kept.maxBlockUser,
          pos'.trans pos, _, ?_, wanted⟩
        rw [left]
        have fails' : ∃ e, (do
            let (c, _) ← takeBody chunkTypeUncompressedData len s.r
            unpackUncompressed s.ignoreCrc c) = .error e := by
          cases took : takeBody chunkTypeUncompressedData len s.r with
          | error e => exact ⟨e, rfl⟩
          | ok x =>
              rw [took] at fails
              cases unpacks : unpackUncompressed s.ignoreCrc x.1 with
              | error e => exact ⟨e, unpacks⟩
              | ok out =>
                  simp only [bind, Except.bind, unpacks] at fails
                  cases fails
        obtain ⟨e, fails'⟩ := fails'
        exact .stored (by omega) (by omega) (source ▸ some) fails'

theorem handleUncompressedChunk_fails :
    Runs (handleUncompressedChunk len) s (fun _ _ => True)
      (fun _ s' => AfterRefusal mem s chunkTypeUncompressedData len (fun _ => True) s') := by
  rw [handleUncompressedChunk]
  refine Runs.bind (reject_falls mem (stays_same rfl rfl rfl rfl)) ?_
  rintro _ _ ⟨rfl, long⟩
  refine Runs.step rfl (Runs.step rfl ?_)
  refine Runs.bind (reject_falls mem (stays_same rfl rfl rfl rfl)) ?_
  rintro _ _ ⟨rfl, fits⟩
  have fits : ¬len - checksumSize > s.maxBlock := fits
  refine Runs.step (ensureBuf_checksum _) ?_
  rw [← bind_assoc]
  refine Runs.bind (readBlock_falls mem long fits trivial rfl (stays_same rfl rfl rfl rfl) rfl rfl
    rfl) ?_
  exact fun _ _ _ => runs_ok rfl trivial

theorem skipUncompressedOrDecode_fails (n : Nat) :
    Runs (skipUncompressedOrDecode len n) s (fun _ _ => True)
      (fun _ s' => AfterRefusal mem s chunkTypeUncompressedData len (n < ·) s') := by
  rw [skipUncompressedOrDecode]
  refine Runs.bind (reject_falls mem (stays_same rfl rfl rfl rfl)) ?_
  rintro _ _ ⟨rfl, long⟩
  refine Runs.step rfl (Runs.bind (reject_falls mem (stays_same rfl rfl rfl rfl)) ?_)
  rintro _ _ ⟨rfl, fits⟩
  simp only
  split
  · next partly =>
      refine Runs.step rfl (Runs.step (ensureBuf_checksum _) ?_)
      rw [← bind_assoc]
      refine Runs.bind (readBlock_falls mem long fits partly rfl (stays_same rfl rfl rfl rfl) rfl
        rfl rfl) ?_
      exact fun _ _ _ => Runs.step rfl (runs_pure trivial)
  · refine Runs.step rfl ?_
    refine Runs.bind (P := fun _ _ => True) ?_ fun _ _ _ => runs_pure trivial
    by_cases enough : len ≤ s.r.length
    · exact runs_ok ((skipN_eq len _).trans (if_pos enough)) trivial
    · exact runs_error ((skipN_eq len _).trans (if_neg enough)) (.inl ⟨rfl, rfl, .inr ⟨rfl, rfl⟩⟩)

theorem lift_stays {α : Type} (x : Exec α) {s1 : Reader σ} (kept : Stays s s1) :
    Runs (liftM x : Handle σ α) s1 (fun _ s' => s1 = s') (fun _ s' => Stays s s') := by
  refine runs_lift ?_
  cases x with
  | ok a => exact exits_ok rfl
  | error e => exact exits_error kept

theorem readExact_stays (n : Nat) :
    Runs (readExactOrCorrupt n) s (fun _ s' => s' = { s with r := s'.r })
      (fun _ s' => Stays s s') := by
  by_cases enough : n ≤ s.r.length
  · exact runs_ok (if_pos enough) rfl
  · exact runs_error (if_neg enough) (stays_same rfl rfl rfl rfl)

theorem handleEofChunk_fails (len : Nat) :
    Runs (handleEofChunk len) s (fun _ _ => True) (fun _ s' => Stays s s') := by
  rw [handleEofChunk]
  refine (lift_stays _ (stays_same rfl rfl rfl rfl)).bind ?_
  rintro _ _ rfl
  refine Runs.bind (P := fun _ _ => True) ?_ fun _ _ _ => runs_ok rfl trivial
  rw [readTotal]
  split
  · refine (readExact_stays len).bind fun tmp s1 state => Runs.step rfl ?_
    refine (lift_stays _ ?_).mono (fun _ _ _ => trivial) fun _ _ h => h
    rw [state]
    exact stays_same rfl rfl rfl rfl
  · exact runs_pure trivial

theorem handleStreamIdentifier_fails (len : Nat) :
    Runs (handleStreamIdentifier len) s (fun _ _ => True) (fun _ s' => Stays s s') := by
  rw [handleStreamIdentifier]
  refine (lift_stays _ (stays_same rfl rfl rfl rfl)).bind ?_
  rintro _ _ rfl
  refine (readExact_stays _).bind fun tmp s1 state => ?_
  have kept : Stays s s1 := state ▸ stays_same rfl rfl rfl rfl
  refine (lift_stays _ kept).bind ?_
  rintro newMax _ rfl
  refine Runs.step rfl ((lift_stays _ kept).bind ?_)
  rintro _ _ rfl
  exact runs_ok rfl trivial

theorem skipN_fails (len : Nat) :
    Runs (skipN len) s (fun _ _ => True) (fun _ s' => Stays s s') := by
  by_cases enough : len ≤ s.r.length
  · exact runs_ok ((skipN_eq len s).trans (if_pos enough)) trivial
  · exact runs_error ((skipN_eq len s).trans (if_neg enough)) (stays_same rfl rfl rfl rfl)

theorem handleSkippable_fails (kind : UInt8) (len : Nat) :
    Runs (handleSkippable kind len) s (fun _ _ => True) (fun _ s' => Stays s s') := by
  rw [handleSkippable]
  refine Runs.step rfl ?_
  cases callbackFor s kind with
  | none =>
      refine (lift_stays _ (stays_same rfl rfl rfl rfl)).bind ?_
      rintro _ _ rfl
      exact skipN_fails len
  | some cb =>
      by_cases enough : len ≤ s.r.length
      · have read : readExactOrCorrupt len s = .ok (s.r.take len) { s with r := s.r.drop len } :=
          if_pos enough
        rcases answer : cb kind (s.r.take len) s.world with ⟨e | _, world⟩
        · have run : callback cb kind len s =
              .error (.error (.io e)) { s with r := s.r.drop len, world } := by
            simp only [callback, read, answer]
          exact runs_error run (stays_same rfl rfl rfl rfl)
        · have run : callback cb kind len s = .ok () { s with r := s.r.drop len, world } := by
            simp only [callback, read, answer]
          exact runs_ok run trivial
      · have short : readExactOrCorrupt len s = .error (.error .corrupt) { s with r := [] } :=
          if_neg enough
        have run : callback cb kind len s =
            .error (.error (.io Error.corrupt.toIo)) { s with r := [] } := by
          simp only [callback, short]
        exact runs_error run (stays_same rfl rfl rfl rfl)

/-- A chunk without data that is refused leaves the block alone. -/
theorem handleOther_fails (kind : UInt8) (len : Nat) :
    Runs (handleOther kind len) s (fun _ _ => True) (fun _ s' => Stays s s') := by
  rw [handleOther]
  split
  · exact handleEofChunk_fails len
  · split
    · exact handleStreamIdentifier_fails len
    · split
      · exact runs_error rfl (stays_same rfl rfl rfl rfl)
      · exact handleSkippable_fails kind len

theorem dispatch_fails {α : Type} {compressed uncompressed : Handle σ α} {other : α}
    (coded : IsCoded kind → Runs compressed s (fun _ _ => True)
      (fun _ s' => AfterRefusal mem s kind len decodes s'))
    (stored : Runs uncompressed s (fun _ _ => True)
      (fun _ s' => AfterRefusal mem s chunkTypeUncompressedData len decodes s')) :
    Runs (dispatch compressed uncompressed other kind len) s (fun _ _ => True)
      (fun _ s' => AfterRefusal mem s kind len decodes s') := by
  rw [dispatch]
  split
  · next h => exact coded h
  · split
    · next h => exact h ▸ stored
    · refine Runs.bind ((handleOther_fails kind len).mono (fun _ _ h => h) fun _ _ h => .inl h) ?_
      exact fun _ _ _ => runs_pure trivial

end Handlers

theorem Sized.keep {s s' : Reader σ} (h : Sized s) (maxBlock : s'.maxBlock = s.maxBlock)
    (maxBlockUser : s'.maxBlockUser = s.maxBlockUser) (block : s'.decoded.length ≤ s.maxBlock) :
    Sized s' := by
  refine ⟨maxBlock ▸ block, ?_, maxBlockUser ▸ h.user⟩
  rw [maxBlock, maxBlockUser]
  exact h.limit

theorem AfterRefusal.sound {s s' : Reader σ} {kind : UInt8} {len : Nat} {decodes : Nat → Prop}
    (h : AfterRefusal mem s kind len decodes s') (sized : Sized s)
    (pos : s.decodedPos = s.decoded.length)
    (fine : ∀ dlen left, Refused mem s kind len dlen left → decodes dlen →
      s.decoded.length ≤ left) : Sized s' ∧ InBlock s' := by
  rcases h with ⟨maxBlock, maxBlockUser, ⟨same, at_pos⟩ | ⟨empty, zero⟩⟩ |
    ⟨maxBlock, maxBlockUser, at_pos, dlen, refused, wanted⟩
  · refine ⟨sized.keep maxBlock maxBlockUser (same ▸ sized.block), ?_⟩
    rw [InBlock, same, at_pos, pos]
  · refine ⟨sized.keep maxBlock maxBlockUser (empty ▸ Nat.zero_le _), ?_⟩
    rw [InBlock, zero]
    exact Nat.zero_le _
  · refine ⟨sized.keep maxBlock maxBlockUser refused.left_le, ?_⟩
    rw [InBlock, at_pos, pos]
    exact fine dlen _ refused wanted

/-- A chunk that does not spoil the position, after a drained block. -/
theorem nextChunk_fails {α : Type} {compressed : UInt8 → Nat → Handle σ α}
    {uncompressed : Nat → Handle σ α} {other : α} {decodes : Nat → Prop} {s : Reader σ}
    (coded : ∀ (s : Reader σ) kind len, IsCoded kind → Runs (compressed kind len) s
      (fun _ _ => True) (fun _ s' => AfterRefusal mem s kind len decodes s'))
    (stored : ∀ (s : Reader σ) len, Runs (uncompressed len) s (fun _ _ => True)
      (fun _ s' => AfterRefusal mem s chunkTypeUncompressedData len decodes s'))
    (sized : Sized s) (pos : s.decodedPos = s.decoded.length) (fine : ¬Spoils mem s decodes) :
    Runs (nextChunk compressed uncompressed other) s (fun _ _ => True)
      (fun _ s' => Sized s' ∧ InBlock s') := by
  rcases head : s.r with _ | ⟨kind, _ | ⟨b0, _ | ⟨b1, _ | ⟨b2, body⟩⟩⟩⟩
  case cons.cons.cons.cons =>
    have run : nextChunk compressed uncompressed other s = _ := nextChunk_header head
    by_cases misplaced : Misplaced s kind
    · rw [if_pos misplaced] at run
      exact runs_error run ⟨sized.keep rfl rfl sized.block, pos.le⟩
    · rw [if_neg misplaced] at run
      have chunk : Runs (dispatch (compressed kind (readChunkLen b0 b1 b2))
          (uncompressed (readChunkLen b0 b1 b2)) other kind (readChunkLen b0 b1 b2))
          (s.headed kind body) _ _ := dispatch_fails mem (coded _ kind _) (stored _ _)
      have fine' : ∀ dlen left,
          Refused mem (s.headed kind body) kind (readChunkLen b0 b1 b2) dlen left →
          decodes dlen → s.decoded.length ≤ left := by
        intro dlen left refused wanted
        by_contra shorter
        exact fine ⟨kind, b0, b1, b2, body, dlen, left, head, misplaced, refused, wanted, by omega⟩
      have sized' : Sized (s.headed kind body) := sized.keep rfl rfl sized.block
      cases result : dispatch (compressed kind (readChunkLen b0 b1 b2))
          (uncompressed (readChunkLen b0 b1 b2)) other kind (readChunkLen b0 b1 b2)
          (s.headed kind body) with
      | ok a s' => exact runs_ok (run.trans (map_ok (sticky_ok result))) trivial
      | error e s' =>
          have sound := AfterRefusal.sound mem (chunk.error result) sized' pos fine'
          cases e with
          | error e =>
              exact runs_error (run.trans (map_error (sticky_error result)))
                ⟨sound.1.keep rfl rfl sound.1.block, sound.2⟩
          | fault f =>
              have stuck : sticky (dispatch (compressed kind (readChunkLen b0 b1 b2))
                  (uncompressed (readChunkLen b0 b1 b2)) other kind (readChunkLen b0 b1 b2))
                  (s.headed kind body) = .error (.fault f) s' := by
                rw [sticky, result]
              exact runs_error (run.trans (map_error stuck)) sound
  all_goals
    have run : nextChunk compressed uncompressed other s = _ :=
      nextChunk_short (by rw [head]; simp [chunkHeaderSize])
    split at run
    · exact runs_ok run trivial
    · exact runs_error run ⟨sized.keep rfl rfl sized.block, pos.le⟩

theorem Passes.sound {s s' : Reader σ} {kind : UInt8} {rest : List UInt8}
    (h : Passes s kind rest s') (sized : Sized s) (pos : InBlock s) : Sized s' ∧ InBlock s' := by
  rcases h.block with ⟨block, at_pos, maxBlock⟩ | ⟨empty, zero, limit⟩
  · refine ⟨sized.keep maxBlock h.maxBlockUser (block ▸ sized.block), ?_⟩
    rwa [InBlock, block, at_pos]
  · refine ⟨⟨empty ▸ Nat.zero_le _, h.maxBlockUser ▸ limit, h.maxBlockUser ▸ sized.user⟩, ?_⟩
    rw [InBlock, zero]
    exact Nat.zero_le _

theorem sound_takes {s : Reader σ} (sized : Sized s) (pos : s.decodedPos = s.decoded.length)
    (fine : ¬Spoils mem s fun _ => True) :
    Runs (nextChunk (handleCompressedChunk mem) handleUncompressedChunk ()) s
      (fun _ s' => Sized s' ∧ InBlock s') (fun _ s' => Sized s' ∧ InBlock s') := by
  have fails : Runs (nextChunk (handleCompressedChunk mem) handleUncompressedChunk ()) s _ _ :=
    nextChunk_fails mem (fun _ _ _ => handleCompressedChunk_fails mem)
      (fun _ _ => handleUncompressedChunk_fails mem) sized pos fine
  have turn := turn_nextChunk (dispatch_read_ends mem) (readChunk_exits mem) s
  cases run : nextChunk (handleCompressedChunk mem) handleUncompressedChunk () s with
  | error e s' => exact runs_error run (fails.error run)
  | ok got s' =>
      rw [run] at turn
      refine runs_ok run ?_
      cases turn with
      | ends => exact ⟨sized, pos.le⟩
      | took head accepts =>
          obtain ⟨c, rest, _, rfl, cases⟩ := readChunk_cases mem head accepts
          rcases cases with ⟨out, _, fits, rfl⟩ | ⟨_, passes⟩
          · exact ⟨sized.keep rfl rfl fits, Nat.zero_le _⟩
          · exact passes.sound (sized.keep rfl rfl sized.block) pos.le

theorem sound_skips {s : Reader σ} (sized : Sized s) (pos : s.decodedPos = s.decoded.length)
    {n : Nat} (fine : ¬Spoils mem s (n < ·)) :
    Runs (nextChunk (skipCompressedOrDecode mem · · n) (skipUncompressedOrDecode · n) n) s
      (fun _ s' => Sized s' ∧ InBlock s') (fun _ s' => Sized s' ∧ InBlock s') := by
  have fails : Runs (nextChunk (skipCompressedOrDecode mem · · n) (skipUncompressedOrDecode · n) n)
      s _ _ :=
    nextChunk_fails mem (fun _ _ _ coded => skipCompressedOrDecode_fails mem coded n)
      (fun _ _ => skipUncompressedOrDecode_fails mem n) sized pos fine
  have turn : Turn (fun s kind len => skipChunk mem s kind len n) s _ := turn_nextChunk
    (fun kind len s => dispatch_skip_ends mem kind len n s)
    (fun s kind len => skipChunk_exits mem s kind len n) s
  cases run : nextChunk (skipCompressedOrDecode mem · · n) (skipUncompressedOrDecode · n) n s with
  | error e s' => exact runs_error run (fails.error run)
  | ok got s' =>
      rw [run] at turn
      refine runs_ok run ?_
      cases turn with
      | ends => exact ⟨sized, pos.le⟩
      | took head accepts =>
          obtain ⟨c, rest, _, rfl, cases⟩ := skipChunk_cases mem head accepts
          rcases cases with ⟨out, _, fits, inside, _, rfl⟩ | ⟨_, _, rfl⟩ | ⟨_, _, passes⟩
          · exact ⟨sized.keep rfl rfl fits, inside.le⟩
          · exact ⟨sized.keep rfl rfl (Nat.zero_le _), Nat.zero_le _⟩
          · exact passes.sound (sized.keep rfl rfl sized.block) pos.le

/-- The block is within the limits and the position within the block. -/
def Sound (s : Reader σ) : Prop := Sized s ∧ InBlock s

theorem Sound.available {s : Reader σ} (h : Sound s) : available m s = .ok s.unread :=
  available_ok m h.2 (h.1.block.trans (h.1.limit.trans h.1.user))

theorem Sound.live {s : Reader σ} (h : Sound s) (clear : s.err = none) :
    Live s ((s.decoded.drop s.decodedPos).map some ++ content s.ignoreCrc s.r) :=
  ⟨clear, h.2, h.1.block.trans (h.1.limit.trans h.1.user), h.1.limit.trans h.1.user, h.1.user, rfl⟩

theorem Sound.fill {s : Reader σ} (h : Sound s) (fine : ¬ReadSpoils mem s) :
    Runs (fillDecoded mem) s (fun _ s' => Sound s') (fun _ s' => Sound s') := by
  refine Runs.step rfl ?_
  refine runs_loop (fun _ s => Sound s ∧ ¬ReadSpoils mem s) (fun _ _ h => h.1) ?_ ⟨h, fine⟩
  rintro _ s ⟨h, fine⟩
  refine Runs.step rfl ?_
  split
  · exact runs_pure h
  · next drained =>
      have pos : s.decodedPos = s.decoded.length := Nat.le_antisymm h.2 (Nat.not_lt.mp drained)
      have takes := sound_takes mem h.1 pos fun spoils => fine (.here drained spoils)
      refine takes.ran.bind fun got s' after => ?_
      cases got with
      | none => exact runs_pure after.2
      | some _ => exact runs_pure ⟨after.2, fun later => fine (.past drained after.1 later)⟩

theorem Sound.move {s : Reader σ} (h : Sound s) {n : Nat} (within : n ≤ s.unread) :
    Sound { s with decodedPos := s.decodedPos + n } := by
  refine ⟨h.1.keep rfl rfl h.1.block, ?_⟩
  have pos := h.2
  simp only [InBlock, Reader.unread] at pos within ⊢
  omega

theorem Sound.read {s : Reader σ} (h : Sound s) {len : Nat}
    (fine : ¬Call.Spoils mem s (.read len)) :
    Runs (Stream.read m mem len) s (fun _ s' => Sound s') (fun _ s' => Sound s') := by
  cases failed : s.err with
  | some e => exact runs_error (bind_error (checkErr_failed failed)) h
  | none =>
      refine Runs.step (checkErr_clear failed) ?_
      split
      · exact runs_pure h
      · next some =>
          have fine : ¬ReadSpoils mem s := fun spoils =>
            fine ⟨failed, Nat.pos_of_ne_zero some, spoils⟩
          refine (h.fill mem fine).bind fun more s' h => ?_
          cases more with
          | false => exact runs_pure h
          | true =>
              refine Runs.step rfl (Runs.step (lift_ok (h.available m)) (Runs.step rfl ?_))
              exact runs_pure (h.move (Nat.min_le_left _ _))

theorem Sound.fillBuf {s : Reader σ} (h : Sound s) (fine : ¬Call.Spoils mem s .fillBuf) :
    Runs (Stream.fillBuf mem) s (fun _ s' => Sound s') (fun _ s' => Sound s') := by
  cases failed : s.err with
  | some e => exact runs_error (bind_error (checkErr_failed failed)) h
  | none =>
      refine Runs.step (checkErr_clear failed) ?_
      have fine : ¬ReadSpoils mem s := fun spoils => fine ⟨failed, spoils⟩
      refine (h.fill mem fine).bind fun more s' h => ?_
      cases more with
      | false => exact runs_pure h
      | true => exact Runs.step rfl (runs_pure h)

theorem Sound.consume {s : Reader σ} (h : Sound s) (amt : Nat) :
    ∃ s', Stream.consume m amt s = .ok () s' ∧ Sound s' := by
  have pos := h.2
  have small := h.1.block.trans (h.1.limit.trans h.1.user)
  have cap : maxBlockSize < 2 ^ 64 := by decide
  have cast : (s.decodedPos : Int) + (min amt s.unread : Nat) =
      ((s.decodedPos + min amt s.unread : Nat) : Int) := by
    push_cast
    rfl
  have inside : s.decodedPos + min amt s.unread < 2 ^ 64 := by
    rw [InBlock] at pos
    rw [Reader.unread]
    omega
  have word : (word (m.unsigned ((s.decodedPos : Int) + (min amt s.unread : Nat))) :
      Except (Stop IoError) Nat) = .ok (s.decodedPos + min amt s.unread) := by
    rw [cast, Machine.unsigned_ok m inside]
    rfl
  refine ⟨_, ?_, h.move (Nat.min_le_right amt s.unread)⟩
  refine (get_bind _ _).trans ((bind_ok (lift_ok (h.available m))).trans ?_)
  exact bind_ok (lift_ok word)

theorem Sound.skip {s : Reader σ} (h : Sound s) {n : Nat} (fine : ¬Call.Spoils mem s (.skip n)) :
    Runs (Stream.skip m mem n) s (fun _ s' => Sound s') (fun _ s' => Sound s') := by
  cases failed : s.err with
  | some e => exact runs_error (bind_error (checkErr_failed failed)) h
  | none =>
      refine Runs.step (checkErr_clear failed) (Runs.step rfl ?_)
      refine runs_loop (fun k s => Sound s ∧ ¬SkipSpoils mem s k) (fun _ _ h => h.1) ?_
        ⟨h, fun spoils => fine ⟨failed, spoils⟩⟩
      rintro k s ⟨h, fine⟩
      rw [skipStep]
      split
      · exact runs_pure h
      · refine Runs.step rfl (Runs.step (lift_ok (h.available m)) ?_)
        split
        · next within => exact Runs.step rfl (runs_pure (h.move within))
        · next past =>
            have past : s.unread < k := Nat.not_le.mp past
            have skips := sound_skips mem (s := s.drain) (h.1.keep rfl rfl h.1.block) rfl
              fun spoils => fine (.here past spoils)
            refine Runs.step rfl (skips.ran.bind fun got s' after => ?_)
            cases got with
            | none => exact runs_error rfl ⟨after.2.1.keep rfl rfl after.2.1.block, after.2.2⟩
            | some left => exact runs_pure ⟨after.2, fun later => fine (.past past after.1 later)⟩

theorem Sound.run {s : Reader σ} (h : Sound s) {call : Call} (fine : ¬call.Spoils mem s) :
    Runs (call.run m mem) s (fun _ s' => Sound s') (fun _ s' => Sound s') := by
  cases call with
  | read len => exact h.read m mem fine
  | fillBuf => exact h.fillBuf mem fine
  | consume amt =>
      obtain ⟨s', run, sound⟩ := h.consume m amt
      exact Runs.step run (runs_pure sound)
  | skip n => exact (h.skip m mem fine).bind fun _ _ h => runs_pure h

/-- From a reader whose position is in its block no call panics. -/
theorem Sound.no_fault {s : Reader σ} (h : Sound s) (call : Call) :
    Runs (call.run m mem) s (fun _ _ => True) (fun e _ => ∃ r, e = .error r) := by
  cases failed : s.err with
  | none => exact ((h.live failed).run m mem call).mono (fun _ _ _ => trivial) fun _ _ h => h.1
  | some e =>
      have check := checkErr_failed failed
      cases call with
      | read len => exact runs_error (bind_error check) ⟨e, rfl⟩
      | fillBuf => exact runs_error (bind_error check) ⟨e, rfl⟩
      | consume amt =>
          obtain ⟨s', run, _⟩ := h.consume m amt
          exact Runs.step run (runs_pure trivial)
      | skip n => exact runs_error (bind_error (bind_error check)) ⟨e, rfl⟩

theorem sound_built {b : ReaderBuilder σ} {data : List UInt8} {world : σ} {s : Reader σ}
    (built : b.build data world = .ok s) : Sound s := by
  rw [ReaderBuilder.build] at built
  split at built
  · cases built
  · next valid =>
      cases built
      have fits : b.maxBlockSize ≤ maxBlockSize := by omega
      exact ⟨⟨Nat.zero_le _, le_rfl, fits⟩, le_rfl⟩

theorem Unspoilt.sound {b : ReaderBuilder σ} {s : Reader σ} (h : Unspoilt m mem b s) :
    Sound s := by
  induction h with
  | built built => exact sound_built built
  | returned _ fine run sound => exact (sound.run m mem fine).ok run
  | failed _ fine run sound => exact (sound.run m mem fine).error run
  | reset _ data sound => exact ⟨⟨Nat.zero_le _, le_rfl, sound.1.user⟩, le_rfl⟩

/-- While no call comes to a chunk that spoils the position, it is in the block, the block
    is within the limits, and no call panics; this holds after errors and resets too. -/
theorem position_in_block {b : ReaderBuilder σ} {s : Reader σ} (h : Unspoilt m mem b s) :
    s.decodedPos ≤ s.decoded.length ∧ s.decoded.length ≤ s.maxBlock ∧
      s.maxBlock ≤ s.maxBlockUser ∧ s.maxBlockUser ≤ maxBlockSize ∧
      available m s = .ok (s.decoded.length - s.decodedPos) ∧
      ∀ call f s', Call.run m mem call s ≠ .error (.fault f) s' := by
  have sound := h.sound m mem
  refine ⟨sound.2, sound.1.block, sound.1.limit, sound.1.user, sound.available m, ?_⟩
  intro call f s' run
  obtain ⟨r, impossible⟩ := (sound.no_fault m mem call).error run
  cases impossible

theorem readSpoils_inside {s : Reader σ} (inside : s.decodedPos < s.decoded.length) :
    ¬ReadSpoils mem s := by
  intro spoils
  cases spoils with
  | here drained _ => exact drained inside
  | past drained _ _ => exact drained inside

/-- Without a block at hand, reading comes to no chunk that spoils the position. -/
theorem readSpoils_empty {s : Reader σ} (empty : s.decoded = []) : ¬ReadSpoils mem s := by
  intro spoils
  induction spoils with
  | here _ spoils =>
      obtain ⟨_, _, _, _, _, _, _, _, _, _, _, less⟩ := spoils
      rw [empty] at less
      exact Nat.not_lt_zero _ less
  | @past s s' _ took later ih =>
      have turn := turn_nextChunk (dispatch_read_ends mem) (readChunk_exits mem) s
      rw [took] at turn
      cases turn with
      | took head accepts =>
          obtain ⟨_, _, _, rfl, cases⟩ := readChunk_cases mem head accepts
          rcases cases with ⟨out, _, _, rfl⟩ | ⟨_, passes⟩
          · cases out with
            | nil => exact ih rfl
            | cons _ _ => exact readSpoils_inside mem (Nat.succ_pos _) later
          · refine ih ?_
            rcases passes.block with ⟨block, _⟩ | ⟨block, _⟩
            · exact block.trans empty
            · exact block

theorem Unspoilt.call {b : ReaderBuilder σ} {s : Reader σ} (h : Unspoilt m mem b s) (call : Call)
    (fine : ¬call.Spoils mem s) : Unspoilt m mem b (call.after m mem s) := by
  have sound := (h.sound m mem).no_fault m mem call
  cases run : call.run m mem s with
  | ok bytes s' =>
      rw [Call.after, run]
      exact h.returned fine run
  | error e s' =>
      obtain ⟨r, rfl⟩ := sound.error run
      rw [Call.after, run]
      exact h.failed fine run

/-- Two bytes and a block of three bytes with a wrong checksum. -/
def wrongLonger : List UInt8 :=
  twoBytes ++ [chunkTypeUncompressedData, 7, 0, 0, 0, 0, 0, 0, 7, 7, 7]

/-- The two bytes are read one by one. -/
def bothRead : Reader Unit :=
  (Call.read 1).after .panics (fun _ => 0)
    ((Call.read 1).after .panics (fun _ => 0) (withBuilder {} wrongLonger ()))

/-- The next read is refused. -/
def readRefused : Reader Unit := (Call.read 1).after .panics (fun _ => 0) bothRead

/-- Another source, which is read. -/
def readAgain : Reader Unit :=
  (Call.read 5).after .panics (fun _ => 0) (Stream.reset readRefused twoBytes)

theorem bothRead_unspoilt : Unspoilt .panics (fun _ => 0) {} bothRead := by
  have start : Unspoilt .panics (fun _ => 0) {} (withBuilder {} wrongLonger ()) := .built rfl
  have first := start.call .panics (fun _ => 0) (.read 1)
    fun spoils => readSpoils_empty _ rfl spoils.2.2
  exact first.call .panics (fun _ => 0) (.read 1)
    fun spoils => readSpoils_inside _ (by decide +kernel) spoils.2.2

/-- The refused block is longer than the one before, which does not spoil the position. -/
theorem bothRead_fine : ¬ReadSpoils (fun _ => 0) bothRead := by
  have go (s : Reader Unit)
      (source : s.r = [chunkTypeUncompressedData, 7, 0, 0, 0, 0, 0, 0, 7, 7, 7])
      (block : s.decoded.length = 2)
      (fails : EStateM.run' (nextChunk (handleCompressedChunk fun _ => 0)
        handleUncompressedChunk ()) s = none) : ¬ReadSpoils (fun _ => 0) s := by
    intro spoils
    cases spoils with
    | here _ spoils =>
        obtain ⟨kind, b0, b1, b2, body, dlen, left, head, _, refused, _, less⟩ := spoils
        cases head.symm.trans source
        rw [block] at less
        cases refused with
        | undecoded coded => exact absurd coded (by decide)
        | unverified coded => exact absurd coded (by decide)
        | stored => exact absurd less (by decide)
    | past _ took _ =>
        rw [EStateM.run', EStateM.run, took] at fails
        cases fails
  exact go bothRead (by decide +kernel) (by decide +kernel) (by decide +kernel)

/-- Two reads, one that is refused without spoiling the position, a reset and one more. -/
theorem position_in_block_reset :
    readRefused.err = some Error.crc.toIo ∧ readRefused.decodedPos = 2 ∧
      readRefused.decodedPos ≤ readRefused.decoded.length ∧
      readRefused.decoded.length ≤ readRefused.maxBlock ∧
      (∀ call f s', Call.run .panics (fun _ => 0) call readRefused ≠ .error (.fault f) s') ∧
      readAgain.decoded = [42, 43] ∧ readAgain.decodedPos ≤ readAgain.decoded.length ∧
      readAgain.decoded.length ≤ readAgain.maxBlock ∧
      available .panics readAgain = .ok (readAgain.decoded.length - readAgain.decodedPos) ∧
      ∀ call f s', Call.run .panics (fun _ => 0) call readAgain ≠ .error (.fault f) s' := by
  have refused : Unspoilt .panics (fun _ => 0) {} readRefused :=
    bothRead_unspoilt.call .panics (fun _ => 0) (.read 1) fun spoils => bothRead_fine spoils.2.2
  have again : Unspoilt .panics (fun _ => 0) {} readAgain :=
    (refused.reset twoBytes).call .panics (fun _ => 0) (.read 5)
      fun spoils => readSpoils_empty _ rfl spoils.2.2
  obtain ⟨within, limit, _, _, _, live⟩ := position_in_block .panics (fun _ => 0) refused
  obtain ⟨within', limit', _, _, counts, live'⟩ := position_in_block .panics (fun _ => 0) again
  have kept : readRefused.err = some Error.crc.toIo ∧ readRefused.decodedPos = 2 := by decide +kernel
  have read : readAgain.decoded = [42, 43] := by decide +kernel
  exact ⟨kept.1, kept.2, within, limit, live, read, within', limit', counts, live'⟩

/-- The position and the length of the block after each of the calls. -/
def positions : List Call → Reader σ → List (Nat × Nat)
  | [], _ => []
  | call :: calls, s =>
      match call.run m mem s with
      | .ok _ s' => (s'.decodedPos, s'.decoded.length) :: positions calls s'
      | .error (.error _) s' => (s'.decodedPos, s'.decoded.length) :: positions calls s'
      | .error (.fault _) _ => []

/-- Two bytes and a block of one byte with a wrong checksum. -/
def wrongChecksum : List UInt8 := twoBytes ++ [chunkTypeUncompressedData, 5, 0, 0, 0, 0, 0, 0, 7]

/-- The refused block is shorter than the one before, and `consume` panics. -/
theorem position_past_block :
    positions .panics (fun _ => 0) [.read 5, .read 5] (withBuilder {} wrongChecksum ()) =
        [(2, 2), (2, 1)] ∧
      answers .panics (fun _ => 0) [.read 5, .read 5, .consume 0]
          (withBuilder {} wrongChecksum ()) =
        [.ok [42, 43], .error (.error Error.crc.toIo), .error (.fault .panic)] := by
  decide +kernel

end MinLz.Stream
