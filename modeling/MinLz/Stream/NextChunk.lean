import MinLz.Stream.Steps

/-! # One chunk of the stream

A reader reads the header of the next chunk and hands the chunk to its handler. A
handler that fails leaves an error that stays; a header that is cut short leaves the
source at its end. Neither faults.
-/

namespace MinLz.Stream

open Effects

variable {σ : Type} (mem : Nat → UInt8)

/-- An error of the stream, as opposed to a fault. -/
def Refuses (e : Stop Error) : Prop := ∃ r, e = .error r

theorem refuses (r : Error) : Refuses (.error r) := ⟨r, rfl⟩

theorem reject_exits (bad : Prop) [Decidable bad] (e : Error) :
    Exits (reject bad e) (fun _ => True) Refuses := by
  unfold reject
  split
  · exact exits_error (refuses e)
  · exact exits_ok trivial

theorem takeBody_exits (kind : UInt8) (len : Nat) (data : List UInt8) :
    Exits (takeBody kind len data) (fun _ => True) Refuses := by
  unfold takeBody
  split
  · exact exits_ok trivial
  · exact exits_error (refuses _)

theorem ofBlock_exits {α : Type} {x : MinLz.Exec α} {P : α → Prop}
    (h : Exits x P fun e => ∃ r, e = .error r) : Exits (ofBlock x) (fun _ => True) Refuses := by
  cases run : x with
  | ok a => exact exits_ok trivial
  | error e =>
      obtain ⟨r, rfl⟩ := h.error run
      exact exits_error (refuses _)

theorem frame_exits (self : Reader σ) (kind : UInt8) (len : Nat) :
    Exits (frame self kind len) (fun _ => True) Refuses := by
  rw [frame]
  split
  · refine (reject_exits _ _).bind fun _ _ => ?_
    refine (reject_exits _ _).bind fun _ _ => ?_
    refine (takeBody_exits _ _ _).bind fun _ _ => ?_
    refine (ofBlock_exits (P := fun _ => True) ?_).bind fun _ _ => ?_
    · exact (Block.splitChunkBody_refused _).bind fun _ _ => exits_ok trivial
    · exact (reject_exits _ _).bind fun _ _ => exits_ok trivial
  · refine (reject_exits _ _).bind fun _ _ => ?_
    refine (reject_exits _ _).bind fun _ _ => ?_
    exact (takeBody_exits _ _ _).bind fun _ _ => exits_ok trivial

theorem toCrc_exits (kind : UInt8) (body decoded : List UInt8) :
    Exits (toCrc kind body decoded) (fun _ => True) Refuses := by
  unfold toCrc stripDlenVarint
  split
  · split
    · exact exits_ok trivial
    · exact exits_error (refuses _)
  · exact exits_ok trivial

theorem unpack_exits (ignoreCrc : Bool) (kind : UInt8) (c : Chunk) :
    Exits (unpack mem ignoreCrc kind c) (fun _ => True) Refuses := by
  rw [unpack]
  split
  · refine (ofBlock_exits (P := fun _ => True) ?_).bind fun _ _ => ?_
    · have cases := Block.appendDecodedChunkBody_cases mem [] (c.body.drop checksumSize)
      split at cases
      · rw [cases.1]
        exact exits_ok trivial
      · obtain ⟨e, failed⟩ := cases
        rw [failed]
        exact exits_error ⟨e, rfl⟩
    · split
      · exact exits_ok trivial
      · refine (toCrc_exits _ _ _).bind fun _ _ => ?_
        exact (reject_exits _ _).bind fun _ _ => exits_ok trivial
  · rw [unpackUncompressed]
    split
    · exact exits_ok trivial
    · exact (reject_exits _ _).bind fun _ _ => exits_ok trivial

theorem checkTotal_exits (self : Reader σ) (tmp : List UInt8) :
    Exits (checkTotal self tmp) (fun _ => True) Refuses := by
  unfold checkTotal
  split
  · exact exits_ok trivial
  · split
    · exact exits_error (refuses _)
    · exact (reject_exits _ _).bind fun _ _ => reject_exits _ _

theorem identifierBlockSize_exits (tmp : List UInt8) :
    Exits (identifierBlockSize tmp) (fun _ => True) Refuses := by
  refine (reject_exits _ _).bind fun _ _ => ?_
  refine (reject_exits _ _).bind fun _ _ => ?_
  split
  · exact exits_error (refuses _)
  · exact exits_ok trivial

theorem otherChunk_exits (self : Reader σ) (kind : UInt8) (len : Nat) :
    Exits (otherChunk self kind len) (fun _ => True) Refuses := by
  rw [otherChunk]
  split
  · refine (reject_exits _ _).bind fun _ _ => ?_
    refine (takeBody_exits _ _ _).bind fun x _ => ?_
    refine (show Exits _ (fun _ => True) Refuses from ?_).bind fun _ _ => exits_ok trivial
    split
    · exact checkTotal_exits self x.1.body
    · exact exits_ok trivial
  · split
    · refine (reject_exits _ _).bind fun _ _ => ?_
      refine (takeBody_exits _ _ _).bind fun _ _ => ?_
      refine (identifierBlockSize_exits _).bind fun _ _ => ?_
      exact (reject_exits _ _).bind fun _ _ => exits_ok trivial
    · split
      · exact exits_error (refuses _)
      · rw [skippableChunk]
        split
        · rw [calledChunk]
          split
          · exact exits_error (refuses _)
          · split
            · exact exits_ok trivial
            · exact exits_error (refuses _)
        · refine (reject_exits _ _).bind fun _ _ => ?_
          exact (takeBody_exits _ _ _).bind fun _ _ => exits_ok trivial

theorem readChunk_exits (self : Reader σ) (kind : UInt8) (len : Nat) :
    Exits (readChunk mem self kind len) (fun _ => True) Refuses := by
  rw [readChunk]
  split
  · refine (frame_exits self kind len).bind fun _ _ => ?_
    exact (unpack_exits mem _ _ _).bind fun _ _ => exits_ok trivial
  · exact (otherChunk_exits self kind len).bind fun _ _ => exits_ok trivial

theorem skipChunk_exits (self : Reader σ) (kind : UInt8) (len n : Nat) :
    Exits (skipChunk mem self kind len n) (fun _ => True) Refuses := by
  rw [skipChunk]
  split
  · refine (frame_exits self kind len).bind ?_
    rintro ⟨dlen, c, rest⟩ _
    simp only
    split
    · exact (unpack_exits mem _ _ _).bind fun _ _ => exits_ok trivial
    · exact exits_ok trivial
  · exact (otherChunk_exits self kind len).bind fun _ _ => exits_ok trivial

/-- The reader after the header of a chunk that it accepts. -/
def Reader.headed (self : Reader σ) (kind : UInt8) (body : List UInt8) : Reader σ :=
  { self with r := body, headerRead := self.headerRead || kind == chunkTypeStreamIdentifier }

/-- A chunk that comes before the identifier and must not. -/
def Misplaced (self : Reader σ) (kind : UInt8) : Prop :=
  self.headerRead = false ∧ kind ≠ chunkTypeStreamIdentifier ∧
    kind ≤ maxNonSkippableChunk ∧ kind ≠ chunkTypeEof

instance (self : Reader σ) (kind : UInt8) : Decidable (Misplaced self kind) :=
  inferInstanceAs (Decidable (_ ∧ _ ∧ _ ∧ _))

theorem checkHeader_eq (kind : UInt8) (body : List UInt8) (s : Reader σ) :
    checkHeader kind { s with r := body } =
      if Misplaced s kind then
        .error (.error Error.corrupt.toIo)
          { s with r := body, err := some Error.corrupt.toIo }
      else .ok () (s.headed kind body) := by
  refine (get_bind _ _).trans ?_
  cases known : s.headerRead with
  | true => simp [Misplaced, Reader.headed, known]; rfl
  | false =>
      rw [if_pos rfl]
      by_cases identifier : kind = chunkTypeStreamIdentifier
      · simp [Misplaced, Reader.headed, identifier]; rfl
      · by_cases required : kind ≤ maxNonSkippableChunk ∧ kind ≠ chunkTypeEof
        · rw [if_neg identifier, if_pos required, if_pos ⟨known, identifier, required⟩, ← known]
          rfl
        · rw [if_neg identifier, if_neg required, if_neg fun h => required h.2.2, Reader.headed,
            known, Bool.false_or, beq_eq_false_iff_ne.mpr identifier]
          rfl

/-- What is left is not a chunk header, and the source must not end here. -/
def HeaderCut (self : Reader σ) : Prop :=
  self.r.length < chunkHeaderSize ∧ ¬(self.r = [] ∧ self.expectEof = false)

variable {α : Type} {compressed : UInt8 → Nat → Handle σ α} {uncompressed : Nat → Handle σ α}
  {other : α}

theorem nextChunk_short {s : Reader σ} (short : s.r.length < chunkHeaderSize) :
    nextChunk compressed uncompressed other s =
      if s.r = [] ∧ s.expectEof = false then .ok none s
      else .error (.error Error.corrupt.toIo) { s with r := [] } := by
  have head : readFullOrEof chunkHeaderSize (!s.expectEof) s =
      if s.r = [] ∧ s.expectEof = false then .ok none s
      else .error (.error Error.corrupt.toIo) { s with r := [] } := by
    rw [readFullOrEof, if_neg (by omega)]
    simp only [Bool.not_eq_true']
  refine (get_bind _ _).trans ?_
  by_cases ends : s.r = [] ∧ s.expectEof = false
  · rw [if_pos ends] at head ⊢
    exact bind_ok head
  · rw [if_neg ends] at head ⊢
    exact bind_error head

theorem nextChunk_header {s : Reader σ} {kind b0 b1 b2 : UInt8} {body : List UInt8}
    (head : s.r = kind :: b0 :: b1 :: b2 :: body) :
    nextChunk compressed uncompressed other s =
      if Misplaced s kind then
        .error (.error Error.corrupt.toIo)
          { s with r := body, err := some Error.corrupt.toIo }
      else
        let len := readChunkLen b0 b1 b2
        (some <$> sticky (dispatch (compressed kind len) (uncompressed len) other kind len))
          (s.headed kind body) := by
  have read : readFullOrEof chunkHeaderSize (!s.expectEof) s =
      .ok (some [kind, b0, b1, b2]) { s with r := body } := by
    rw [readFullOrEof, head, if_pos (by simp [chunkHeaderSize])]
    rfl
  refine (get_bind _ _).trans ((bind_ok read).trans ?_)
  simp only
  have header := checkHeader_eq kind body s
  by_cases misplaced : Misplaced s kind
  · rw [if_pos misplaced] at header ⊢
    exact bind_error header
  · rw [if_neg misplaced] at header ⊢
    exact bind_ok header

theorem sticky_ok {x : Handle σ α} {s s' : Reader σ} {a : α} (h : x s = .ok a s') :
    sticky x s = .ok a s' := by
  rw [sticky, h]

theorem sticky_error {x : Handle σ α} {s s' : Reader σ} {e : Error}
    (h : x s = .error (.error e) s') :
    sticky x s = .error (.error e.toIo) { s' with err := some e.toIo } := by
  rw [sticky, h]
  rfl

/-- How the next chunk turns out for a reader. -/
inductive Turn (step : Reader σ → UInt8 → Nat → Exec (α × Reader σ)) (s : Reader σ) :
    EStateM.Result (Stop IoError) (Reader σ) (Option α) → Prop where
  /-- the source ends between two streams -/
  | ends (empty : s.r = []) (between : s.expectEof = false) : Turn step s (.ok none s)
  /-- there is no whole header left -/
  | short (cut : HeaderCut s) :
      Turn step s (.error (.error Error.corrupt.toIo) { s with r := [] })
  /-- the chunk is refused, for good -/
  | refused {e : IoError} {s' : Reader σ} (kept : s'.err = some e) : Turn step s (.error (.error e) s')
  | took {kind b0 b1 b2 : UInt8} {body : List UInt8} {a : α} {s' : Reader σ}
      (head : s.r = kind :: b0 :: b1 :: b2 :: body)
      (run : step (s.headed kind body) kind (readChunkLen b0 b1 b2) = .ok (a, s'))
      (placed : ¬Misplaced s kind) : Turn step s (.ok (some a) s')

theorem turn_nextChunk {step : Reader σ → UInt8 → Nat → Exec (α × Reader σ)}
    (ends : ∀ kind len s, Ends (dispatch (compressed kind len) (uncompressed len) other kind len) s
      (step s kind len))
    (exits : ∀ s kind len, Exits (step s kind len) (fun _ => True) Refuses) (s : Reader σ) :
    Turn step s (nextChunk compressed uncompressed other s) := by
  rcases head : s.r with _ | ⟨kind, _ | ⟨b0, _ | ⟨b1, _ | ⟨b2, body⟩⟩⟩⟩
  case cons.cons.cons.cons =>
    rw [nextChunk_header head]
    split
    · exact .refused rfl
    · next placed =>
      have chunk := ends kind (readChunkLen b0 b1 b2) (s.headed kind body)
      cases run : step (s.headed kind body) kind (readChunkLen b0 b1 b2) with
      | ok r =>
          rw [run] at chunk
          simp only
          rw [map_ok (sticky_ok chunk.run_ok)]
          exact .took head run placed
      | error e =>
          obtain ⟨e, rfl⟩ := (exits _ _ _).error run
          rw [run] at chunk
          obtain ⟨s', failed⟩ := chunk.run_error
          simp only
          rw [map_error (sticky_error failed)]
          exact .refused rfl
  all_goals
    have short : s.r.length < chunkHeaderSize := by rw [head]; simp [chunkHeaderSize]
    rw [nextChunk_short short]
    split
    · next ended => exact .ends ended.1 ended.2
    · next cut => exact .short ⟨short, cut⟩

theorem next_takeBody {kind b0 b1 b2 : UInt8} {body rest : List UInt8} {c : Chunk}
    (h : takeBody kind (readChunkLen b0 b1 b2) body = .ok (c, rest)) :
    Chunk.next (kind :: b0 :: b1 :: b2 :: body) = some (c, rest) := by
  rw [takeBody] at h
  rw [Chunk.next]
  split at h
  · next enough =>
      cases h
      rw [if_pos enough]
  · cases h

/-- A chunk without data leaves the block alone, or is an identifier and drops it. -/
structure Passes (old : Reader σ) (kind : UInt8) (rest : List UInt8) (new : Reader σ) : Prop where
  r : new.r = rest
  err : new.err = old.err
  ignoreCrc : new.ignoreCrc = old.ignoreCrc
  maxBlockUser : new.maxBlockUser = old.maxBlockUser
  expectEof : kind ≠ chunkTypeEof →
    new.expectEof = (kind == chunkTypeStreamIdentifier || old.expectEof)
  block : new.decoded = old.decoded ∧ new.decodedPos = old.decodedPos ∧
      new.maxBlock = old.maxBlock ∨
    new.decoded = [] ∧ new.decodedPos = 0 ∧ new.maxBlock ≤ old.maxBlockUser

theorem eofChunk_ok {self self' : Reader σ} {len : Nat} (h : eofChunk self len = .ok self') :
    ∃ c rest, takeBody chunkTypeEof len self.r = .ok (c, rest) ∧
      Passes self chunkTypeEof rest self' := by
  obtain ⟨_, _, h⟩ := bind_eq_ok h
  obtain ⟨⟨c, rest⟩, took, h⟩ := bind_eq_ok h
  obtain ⟨_, _, h⟩ := bind_eq_ok h
  cases h
  exact ⟨c, rest, took, rfl, rfl, rfl, rfl, fun h => absurd rfl h, .inl ⟨rfl, rfl, rfl⟩⟩

theorem identifierChunk_ok {self self' : Reader σ} {len : Nat}
    (h : identifierChunk self len = .ok self') :
    ∃ c rest, takeBody chunkTypeStreamIdentifier len self.r = .ok (c, rest) ∧
      Passes self chunkTypeStreamIdentifier rest self' := by
  obtain ⟨_, length, h⟩ := bind_eq_ok h
  obtain ⟨⟨c, rest⟩, took, h⟩ := bind_eq_ok h
  obtain ⟨newMax, _, h⟩ := bind_eq_ok h
  obtain ⟨_, fits, h⟩ := bind_eq_ok h
  cases h
  rw [← not_not.mp (of_reject length)] at took
  exact ⟨c, rest, took, rfl, rfl, rfl, rfl, fun _ => rfl,
    .inr ⟨rfl, rfl, Nat.not_lt.mp (of_reject fits)⟩⟩

theorem skippableChunk_ok {self self' : Reader σ} {kind : UInt8} {len : Nat}
    (other : kind ≠ chunkTypeStreamIdentifier) (h : skippableChunk self kind len = .ok self') :
    ∃ c rest, takeBody kind len self.r = .ok (c, rest) ∧ Passes self kind rest self' := by
  have same : (kind == chunkTypeStreamIdentifier || self.expectEof) = self.expectEof := by
    rw [beq_eq_false_iff_ne.mpr other, Bool.false_or]
  rw [skippableChunk] at h
  split at h
  · rw [calledChunk] at h
    split at h
    · cases h
    · next c rest took =>
        split at h
        · cases h
          exact ⟨c, rest, took, rfl, rfl, rfl, rfl, fun _ => same.symm, .inl ⟨rfl, rfl, rfl⟩⟩
        · cases h
  · obtain ⟨_, _, h⟩ := bind_eq_ok h
    obtain ⟨⟨c, rest⟩, took, h⟩ := bind_eq_ok h
    cases h
    exact ⟨c, rest, took, rfl, rfl, rfl, rfl, fun _ => same.symm, .inl ⟨rfl, rfl, rfl⟩⟩

theorem otherChunk_ok {self self' : Reader σ} {kind : UInt8} {len : Nat}
    (none : ¬HasBlock kind) (h : otherChunk self kind len = .ok self') :
    ∃ c rest, takeBody kind len self.r = .ok (c, rest) ∧ ¬c.IsData ∧
      Passes self kind rest self' := by
  have data {c : Chunk} {rest : List UInt8} (took : takeBody kind len self.r = .ok (c, rest))
      (old : kind ≠ chunkTypeLegacyCompressedData) : ¬c.IsData := by
    obtain ⟨rfl, _⟩ := takeBody_ok took
    rintro (h | h | h | h)
    · exact old h
    · exact none (.inl (.inl h))
    · exact none (.inl (.inr h))
    · exact none (.inr h)
  rw [otherChunk] at h
  split at h
  · next eof =>
      subst eof
      obtain ⟨c, rest, took, passes⟩ := eofChunk_ok h
      exact ⟨c, rest, took, data took (by decide), passes⟩
  · split at h
    · next identifier =>
        subst identifier
        obtain ⟨c, rest, took, passes⟩ := identifierChunk_ok h
        exact ⟨c, rest, took, data took (by decide), passes⟩
    · next other =>
        split at h
        · cases h
        · next high =>
            obtain ⟨c, rest, took, passes⟩ := skippableChunk_ok other h
            refine ⟨c, rest, took, data took ?_, passes⟩
            rintro rfl
            exact high (by decide)

/-- What a reader does with a chunk that it accepts. -/
theorem readChunk_cases {self s' : Reader σ} {kind b0 b1 b2 : UInt8} {body : List UInt8} {a : Unit}
    (head : self.r = kind :: b0 :: b1 :: b2 :: body)
    (h : readChunk mem (self.headed kind body) kind (readChunkLen b0 b1 b2) = .ok (a, s')) :
    ∃ c rest, Chunk.next self.r = some (c, rest) ∧ c.kind = kind ∧
      ((∃ out, c.accepted self.ignoreCrc = some out ∧ out.length ≤ self.maxBlock ∧
          s' = (self.headed kind body).loaded out rest 0) ∨
        ¬c.IsData ∧ Passes (self.headed kind body) kind rest s') := by
  rw [readChunk] at h
  rw [head]
  split at h
  · next block =>
      obtain ⟨⟨dlen, c, rest⟩, framed, h⟩ := bind_eq_ok h
      obtain ⟨out, unpacked, h⟩ := bind_eq_ok h
      cases h
      obtain ⟨took, long, length, fits⟩ := frame_ok block framed
      obtain ⟨rfl, _⟩ := takeBody_ok took
      have accepted := unpack_ok mem block long unpacked
      refine ⟨c, rest, next_takeBody took, rfl, .inl ⟨out, accepted, ?_, rfl⟩⟩
      rw [Chunk.length_block (Option.filter_eq_some_iff.mp accepted).1, length]
      exact fits
  · next none =>
      obtain ⟨s1, other, h⟩ := bind_eq_ok h
      cases h
      obtain ⟨c, rest, took, data, passes⟩ := otherChunk_ok none other
      exact ⟨c, rest, next_takeBody took, (takeBody_ok took).1, .inr ⟨data, passes⟩⟩

/-- What skipping does with a chunk that it accepts. -/
theorem skipChunk_cases {self s' : Reader σ} {kind b0 b1 b2 : UInt8} {body : List UInt8}
    {n left : Nat} (head : self.r = kind :: b0 :: b1 :: b2 :: body)
    (h : skipChunk mem (self.headed kind body) kind (readChunkLen b0 b1 b2) n = .ok (left, s')) :
    ∃ c rest, Chunk.next self.r = some (c, rest) ∧ c.kind = kind ∧
      ((∃ out, c.accepted self.ignoreCrc = some out ∧ out.length ≤ self.maxBlock ∧
          n < out.length ∧ left = 0 ∧ s' = (self.headed kind body).loaded out rest n) ∨
        (c.blockLen ≤ n ∧ left = n - c.blockLen ∧
          s' = (self.headed kind body).dropped c.blockLen rest) ∨
        ¬c.IsData ∧ left = n ∧ Passes (self.headed kind body) kind rest s') := by
  rw [skipChunk] at h
  rw [head]
  split at h
  · next block =>
      obtain ⟨⟨dlen, c, rest⟩, framed, h⟩ := bind_eq_ok h
      obtain ⟨took, long, rfl, fits⟩ := frame_ok block framed
      obtain ⟨rfl, _⟩ := takeBody_ok took
      refine ⟨c, rest, next_takeBody took, rfl, ?_⟩
      simp only at h
      split at h
      · next partly =>
          obtain ⟨out, unpacked, h⟩ := bind_eq_ok h
          cases h
          have accepted := unpack_ok mem block long unpacked
          have length := Chunk.length_block (Option.filter_eq_some_iff.mp accepted).1
          exact .inl ⟨out, accepted, length ▸ fits, length ▸ partly, rfl, rfl⟩
      · next whole =>
          cases h
          exact .inr (.inl ⟨Nat.not_lt.mp whole, rfl, rfl⟩)
  · next none =>
      obtain ⟨s1, other, h⟩ := bind_eq_ok h
      cases h
      obtain ⟨c, rest, took, data, passes⟩ := otherChunk_ok none other
      exact ⟨c, rest, next_takeBody took, (takeBody_ok took).1, .inr (.inr ⟨data, rfl, passes⟩)⟩

end MinLz.Stream
