import MinLz.Stream.Content
import MinLz.Stream.Reader

/-! # What a chunk does to a reader

Each handler gives its result as a function of what it depends on. For a data chunk that
is `frame`, what is checked before the block is decoded, and `unpack`, the rest. A
handler that fails leaves a state that nothing is said about.
-/

namespace MinLz.Stream

open Effects

variable {σ : Type} (mem : Nat → UInt8)

/-- A chunk with `len` bytes of body off the source. -/
def takeBody (kind : UInt8) (len : Nat) (data : List UInt8) : Exec (Chunk × List UInt8) :=
  if len ≤ data.length then .ok (⟨kind, data.take len⟩, data.drop len)
  else .error (.error .corrupt)

/-- A compressed chunk and its decoded length, before it is decoded. -/
def frameCompressed (self : Reader σ) (kind : UInt8) (len : Nat) :
    Exec (Nat × Chunk × List UInt8) := do
  reject (len < checksumSize) .corrupt
  reject (len > maxBufSize self) .corrupt
  let (c, rest) ← takeBody kind len self.r
  let dlen ← ofBlock (Block.decodedLenChunkBody (c.body.drop checksumSize))
  reject (dlen > self.maxBlock) .tooLarge
  return (dlen, c, rest)

/-- The block of a compressed chunk, checked. -/
def unpackCompressed (ignoreCrc : Bool) (c : Chunk) : Exec (List UInt8) := do
  let out ← ofBlock (Block.appendDecodedChunkBody mem [] (c.body.drop checksumSize))
  if ignoreCrc then return out
  let covered ← toCrc c.kind (c.body.drop checksumSize) out
  verifyCrc covered c.checksum
  return out

def frameUncompressed (self : Reader σ) (len : Nat) : Exec (Nat × Chunk × List UInt8) := do
  reject (len < checksumSize) .corrupt
  reject (len - checksumSize > self.maxBlock) .tooLarge
  let (c, rest) ← takeBody chunkTypeUncompressedData len self.r
  return (len - checksumSize, c, rest)

def unpackUncompressed (ignoreCrc : Bool) (c : Chunk) : Exec (List UInt8) := do
  let out := c.body.drop checksumSize
  if ignoreCrc then return out
  verifyCrc out c.checksum
  return out

/-- The reader with this block at hand. -/
def Reader.loaded (self : Reader σ) (out rest : List UInt8) (pos : Nat) : Reader σ :=
  { self with r := rest, decoded := out, decodedPos := pos, blockStart := self.blockEnd }

/-- The reader past a block of `len` bytes. -/
def Reader.dropped (self : Reader σ) (len : Nat) (rest : List UInt8) : Reader σ :=
  { self with
    r := rest, decoded := [], decodedPos := 0, blockStart := self.blockEnd + len.toUInt64 }

theorem readExact_ends (kind : UInt8) (len : Nat) (s : Reader σ) :
    Ends (readExactOrCorrupt len) s
      (takeBody kind len s.r >>= fun (c, rest) => .ok (c.body, { s with r := rest })) := by
  rw [takeBody]
  split
  · next enough => exact ends_ok (if_pos enough)
  · next short => exact ends_error (if_neg short)

theorem decodeBlock_ends (c : Chunk) {s : Reader σ} (empty : s.decoded = []) :
    Ends (decodeBlock mem c.kind c.checksum (c.body.drop checksumSize)) s
      (unpackCompressed mem s.ignoreCrc c >>= fun out => .ok ((), { s with decoded := out })) := by
  rw [decodeBlock, unpackCompressed]
  refine Ends.step rfl ?_
  rw [empty]
  simp only [bind_assoc]
  refine Ends.lift fun out _ => ?_
  refine Ends.step rfl (Ends.step rfl ?_)
  simp only
  cases s.ignoreCrc with
  | true => exact ends_ok rfl
  | false =>
      rw [if_neg Bool.false_ne_true, if_neg Bool.false_ne_true, bind_assoc]
      refine Ends.lift fun covered _ => ?_
      rw [bind_assoc]
      exact Ends.last fun _ => rfl

theorem takeBody_ok {kind : UInt8} {len : Nat} {data rest : List UInt8} {c : Chunk}
    (h : takeBody kind len data = .ok (c, rest)) :
    c.kind = kind ∧ c.body.length = len ∧ data = c.body ++ rest := by
  rw [takeBody] at h
  split at h
  · next enough =>
      cases h
      exact ⟨rfl, by rw [List.length_take, Nat.min_eq_left enough],
        (List.take_append_drop len data).symm⟩
  · cases h

theorem handleCompressedChunk_ends (kind : UInt8) (len : Nat) (s : Reader σ) :
    Ends (handleCompressedChunk mem kind len) s (do
      let (_, c, rest) ← frameCompressed s kind len
      let out ← unpackCompressed mem s.ignoreCrc c
      return ((), s.loaded out rest 0)) := by
  rw [handleCompressedChunk, frameCompressed]
  simp only [bind_assoc, pure_bind]
  refine Ends.lift fun _ _ => Ends.step rfl ?_
  rw [ensureBuf, bind_assoc]
  refine Ends.step rfl (Ends.lift fun _ _ => ?_)
  refine Ends.via (readExact_ends kind len _) ?_
  rintro ⟨c, rest⟩ took
  obtain ⟨rfl, _⟩ := takeBody_ok took
  refine Ends.lift fun dlen _ => Ends.step rfl (Ends.lift fun _ _ => Ends.step rfl ?_)
  show Ends (decodeBlock mem c.kind c.checksum (c.body.drop checksumSize) >>= _)
    { s with r := rest, decoded := [], blockStart := s.blockEnd } _
  exact Ends.via (decodeBlock_ends mem c rfl) fun out _ => ends_ok rfl

theorem readU32Le_take {n : Nat} (long : checksumSize ≤ n) (data : List UInt8) :
    readU32Le (data.take n) = readU32Le data := by
  apply Slice.word_congr
  intro k hk
  have size : checksumSize = 4 := rfl
  simp only [Slice.ofList, List.getD_eq_getElem?_getD]
  rw [List.getElem?_take_of_lt (by omega)]

/-- Reading a checksum and then a block reads a chunk body. -/
theorem readBlock_ends {len : Nat} (long : ¬len < checksumSize) (s : Reader σ) :
    Ends (readExactOrCorrupt checksumSize >>= fun buf =>
        readBlock (readU32Le buf) (len - checksumSize)) s
      ((do
        let x ← takeBody chunkTypeUncompressedData len s.r
        let out ← unpackUncompressed s.ignoreCrc x.1
        return (x, out)) >>= fun p => .ok ((), { s with decoded := p.2, r := p.1.2 })) := by
  by_cases enough : len ≤ s.r.length
  · have first : readExactOrCorrupt checksumSize s =
        .ok (s.r.take checksumSize) { s with r := s.r.drop checksumSize } := if_pos (by omega)
    refine Ends.step first ?_
    have second : readDecoded (len - checksumSize) { s with r := s.r.drop checksumSize } =
        .ok () { s with
          decoded := (s.r.take len).drop checksumSize, r := s.r.drop len } := by
      rw [readDecoded, if_pos (by simp only [List.length_drop]; omega), List.drop_drop,
        ← List.drop_take, Nat.add_sub_cancel' (by omega)]
    rw [readBlock, readU32Le_take le_rfl, ← readU32Le_take (Nat.not_lt.mp long)]
    refine Ends.step second (Ends.step rfl ?_)
    rw [takeBody, if_pos enough]
    simp only [unpackUncompressed]
    show Ends _ _ (((if s.ignoreCrc then _ else _) >>= _) >>= _)
    cases s.ignoreCrc with
    | true => exact ends_ok rfl
    | false =>
        simp only [bind_assoc]
        rw [if_neg Bool.false_ne_true, if_neg Bool.false_ne_true, bind_assoc]
        exact Ends.step rfl (Ends.last fun _ => rfl)
  · rw [takeBody, if_neg enough]
    by_cases some : checksumSize ≤ s.r.length
    · have first : readExactOrCorrupt checksumSize s =
          .ok (s.r.take checksumSize) { s with r := s.r.drop checksumSize } := if_pos some
      refine Ends.step first ?_
      refine ends_error (bind_error (if_neg ?_))
      simp only [List.length_drop]
      omega
    · exact ends_error (bind_error (if_neg some))

theorem readBlock_via {α : Type} {len : Nat} (long : ¬len < checksumSize) {s : Reader σ}
    {f : Handle σ α} {g : Chunk × List UInt8 → List UInt8 → Exec (α × Reader σ)}
    (next : ∀ x out, Ends f { s with decoded := out, r := x.2 } (g x out)) :
    Ends (do
        let buf ← readExactOrCorrupt checksumSize
        readBlock (readU32Le buf) (len - checksumSize)
        f) s (do
      let x ← takeBody chunkTypeUncompressedData len s.r
      let out ← unpackUncompressed s.ignoreCrc x.1
      g x out) := by
  have whole := Ends.via (f := fun _ => f) (g := fun p => g p.1 p.2) (readBlock_ends long s)
    fun p _ => next p.1 p.2
  simpa only [bind_assoc, pure_bind] using whole

theorem ensureBuf_checksum (s : Reader σ) : ensureBuf checksumSize s = .ok () s := by
  have room : ¬checksumSize > maxBufSize s := by
    rw [maxBufSize]
    omega
  exact lift_ok (if_neg room)

theorem of_reject {bad : Prop} [Decidable bad] {e : Error} {a : Unit}
    (h : reject bad e = .ok a) : ¬bad := by
  intro holds
  rw [reject, if_pos holds] at h
  cases h

theorem handleUncompressedChunk_ends (len : Nat) (s : Reader σ) :
    Ends (handleUncompressedChunk len) s (do
      let (_, c, rest) ← frameUncompressed s len
      let out ← unpackUncompressed s.ignoreCrc c
      return ((), s.loaded out rest 0)) := by
  rw [handleUncompressedChunk, frameUncompressed]
  simp only [bind_assoc, pure_bind]
  refine Ends.lift fun _ long => Ends.step rfl (Ends.step rfl (Ends.lift fun _ _ => ?_))
  refine Ends.step (ensureBuf_checksum _) ?_
  refine readBlock_via (of_reject long) (s := { s with blockStart := s.blockEnd }) ?_
  exact fun x out => ends_ok rfl

/-- Dropping bytes is reading them. -/
theorem skipN_eq (n : Nat) (s : Reader σ) :
    skipN n s = if n ≤ s.r.length then .ok () { s with r := s.r.drop n }
      else .error (.error .corrupt) { s with r := [] } := by
  have go : ∀ k n (s : Reader σ), n < k →
      runM (.fault .unfinished) (fun n => (do
        if n > 0 then
          let take := min n 4096
          let _ ← readExactOrCorrupt take
          return .next (n - take)
        else return .done () : Handle σ (Loop.Iter Nat Unit))) k n s =
      if n ≤ s.r.length then .ok () { s with r := s.r.drop n }
      else .error (.error .corrupt) { s with r := [] } := by
    intro k
    induction k with
    | zero => intro n s h; omega
    | succ k ih =>
        intro n s bound
        rw [runM]
        by_cases some : n > 0
        · rw [if_pos some]
          by_cases enough : min n 4096 ≤ s.r.length
          · have first : readExactOrCorrupt (min n 4096) s = .ok (s.r.take (min n 4096))
                { s with r := s.r.drop (min n 4096) } := if_pos enough
            have pass : (readExactOrCorrupt (min n 4096) >>= fun _ =>
                pure (.next (n - min n 4096) : Loop.Iter Nat Unit)) s =
                .ok (.next (n - min n 4096)) { s with r := s.r.drop (min n 4096) } := bind_ok first
            refine (bind_ok pass).trans ?_
            refine (ih _ _ (by omega)).trans ?_
            simp only [List.length_drop, List.drop_drop]
            rw [Nat.add_sub_cancel' (by omega)]
            by_cases all : n ≤ s.r.length
            · rw [if_pos (by omega), if_pos all]
            · rw [if_neg (by omega), if_neg all]
          · rw [if_neg (by omega)]
            exact bind_error (bind_error (if_neg enough))
        · rw [if_neg some, if_pos (by omega)]
          have none : n = 0 := by omega
          subst none
          rfl
  exact go (n + 1) n s (Nat.lt_succ_self n)

theorem skipCompressedOrDecode_ends (kind : UInt8) (len n : Nat) (s : Reader σ) :
    Ends (skipCompressedOrDecode mem kind len n) s (do
      let (dlen, c, rest) ← frameCompressed s kind len
      if dlen > n then
        let out ← unpackCompressed mem s.ignoreCrc c
        return (0, s.loaded out rest n)
      else return (n - dlen, s.dropped dlen rest)) := by
  rw [skipCompressedOrDecode, frameCompressed]
  simp only [bind_assoc, pure_bind]
  refine Ends.lift fun _ _ => ?_
  rw [ensureBuf, bind_assoc]
  refine Ends.step rfl (Ends.lift fun _ _ => ?_)
  refine Ends.via (readExact_ends kind len _) ?_
  rintro ⟨c, rest⟩ took
  obtain ⟨rfl, _⟩ := takeBody_ok took
  refine Ends.lift fun dlen _ => Ends.step rfl (Ends.lift fun _ _ => ?_)
  by_cases partly : dlen > n
  · rw [if_pos partly, if_pos partly]
    refine Ends.step rfl ?_
    show Ends (decodeBlock mem c.kind c.checksum (c.body.drop checksumSize) >>= _)
      { s with r := rest, decoded := [], blockStart := s.blockEnd } _
    exact Ends.via (decodeBlock_ends mem c rfl) fun out _ => ends_ok rfl
  · rw [if_neg partly, if_neg partly]
    exact ends_ok rfl

theorem skipUncompressedOrDecode_ends (len n : Nat) (s : Reader σ) :
    Ends (skipUncompressedOrDecode len n) s (do
      let (dlen, c, rest) ← frameUncompressed s len
      if dlen > n then
        let out ← unpackUncompressed s.ignoreCrc c
        return (0, s.loaded out rest n)
      else return (n - dlen, s.dropped dlen rest)) := by
  rw [skipUncompressedOrDecode, frameUncompressed]
  simp only [bind_assoc, pure_bind]
  refine Ends.lift fun _ long => Ends.step rfl (Ends.lift fun _ _ => ?_)
  by_cases partly : len - checksumSize > n
  · simp only [if_pos partly]
    refine Ends.step rfl (Ends.step (ensureBuf_checksum _) ?_)
    refine readBlock_via (of_reject long) (s := { s with blockStart := s.blockEnd }) ?_
    exact fun x out => ends_ok rfl
  · simp only [if_neg partly]
    refine Ends.step rfl ?_
    rw [takeBody]
    split
    · next enough => exact Ends.step ((skipN_eq len _).trans (if_pos enough)) (ends_ok rfl)
    · next short => exact ends_error (bind_error ((skipN_eq len _).trans (if_neg short)))

/-- What the end of a stream leaves. -/
def eofChunk (self : Reader σ) (len : Nat) : Exec (Reader σ) := do
  reject (len > maxVarintLen64) .corrupt
  let (c, rest) ← takeBody chunkTypeEof len self.r
  let _ ← show Exec Unit from if len ≠ 0 then checkTotal self c.body else .ok ()
  return { self with r := rest, expectEof := false, headerRead := false }

theorem readTotal_ends (len : Nat) (s : Reader σ) :
    Ends (readTotal len) s ((do
      let (c, rest) ← takeBody chunkTypeEof len s.r
      let _ ← show Exec Unit from if len ≠ 0 then checkTotal s c.body else .ok ()
      return rest) >>= fun rest => .ok ((), { s with r := rest })) := by
  rw [readTotal]
  simp only [bind_assoc, pure_bind]
  by_cases none : len = 0
  · subst none
    exact ends_ok rfl
  · rw [if_pos none]
    refine Ends.via (readExact_ends chunkTypeEof len _) ?_
    rintro ⟨c, rest⟩ took
    refine Ends.step rfl ?_
    simp only [ne_eq, none, not_false_eq_true, if_true]
    exact Ends.last fun _ => rfl

theorem handleEofChunk_ends (len : Nat) (s : Reader σ) :
    Ends (handleEofChunk len) s (eofChunk s len >>= fun s' => .ok ((), s')) := by
  have total := Ends.via (f := fun _ => modify fun self : Reader σ =>
    { self with expectEof := false, headerRead := false })
    (g := fun rest => .ok ((), { s with r := rest, expectEof := false, headerRead := false }))
    (readTotal_ends len s) fun rest _ => ends_ok rfl
  rw [handleEofChunk, eofChunk]
  simp only [bind_assoc, pure_bind] at total ⊢
  exact Ends.lift fun _ _ => total

def identifierChunk (self : Reader σ) (len : Nat) : Exec (Reader σ) := do
  reject (len ≠ magicBodyLen) .corrupt
  let (c, rest) ← takeBody chunkTypeStreamIdentifier magicBodyLen self.r
  let newMax ← identifierBlockSize c.body
  reject (newMax > self.maxBlockUser) .tooLarge
  return { self with
    r := rest, maxBlock := newMax, blockStart := 0, decoded := [], decodedPos := 0
    expectEof := true }

theorem handleStreamIdentifier_ends (len : Nat) (s : Reader σ) :
    Ends (handleStreamIdentifier len) s (identifierChunk s len >>= fun s' => .ok ((), s')) := by
  rw [handleStreamIdentifier, identifierChunk]
  simp only [bind_assoc]
  refine Ends.lift fun _ _ => Ends.via (readExact_ends chunkTypeStreamIdentifier _ _) ?_
  rintro ⟨c, rest⟩ took
  refine Ends.lift fun newMax _ => Ends.step rfl (Ends.lift fun _ _ => ?_)
  exact ends_ok rfl

/-- What a callback leaves. -/
def calledChunk (self : Reader σ) (cb : UserChunkCb σ) (kind : UInt8) (len : Nat) :
    Exec (Reader σ) :=
  match takeBody kind len self.r with
  | .error _ => .error (.error (.io Error.corrupt.toIo))
  | .ok (c, rest) =>
      match cb kind c.body self.world with
      | (.ok (), world) => .ok { self with r := rest, world }
      | (.error e, _) => .error (.error (.io e))

def skippableChunk (self : Reader σ) (kind : UInt8) (len : Nat) : Exec (Reader σ) :=
  match callbackFor self kind with
  | some cb => calledChunk self cb kind len
  | none => do
      reject (minUserNonSkippableChunk ≤ kind ∧ kind ≤ maxUserNonSkippableChunk) .corrupt
      let (_, rest) ← takeBody kind len self.r
      return { self with r := rest }

theorem callback_ends (cb : UserChunkCb σ) (kind : UInt8) (len : Nat) (s : Reader σ) :
    Ends (callback cb kind len) s (calledChunk s cb kind len >>= fun s' => .ok ((), s')) := by
  rw [calledChunk, takeBody]
  by_cases enough : len ≤ s.r.length
  · have took : readExactOrCorrupt len s = .ok (s.r.take len) { s with r := s.r.drop len } :=
      if_pos enough
    rw [if_pos enough]
    simp only
    rcases call : cb kind (s.r.take len) s.world with ⟨_ | _, world⟩
    · exact ends_error (by simp only [callback, took, call]; rfl)
    · exact ends_ok (by simp only [callback, took, call])
  · have short : readExactOrCorrupt len s = .error (.error .corrupt) { s with r := [] } :=
      if_neg enough
    rw [if_neg enough]
    exact ends_error (by simp only [callback, short]; rfl)

theorem handleSkippable_ends (kind : UInt8) (len : Nat) (s : Reader σ) :
    Ends (handleSkippable kind len) s (skippableChunk s kind len >>= fun s' => .ok ((), s')) := by
  rw [handleSkippable, skippableChunk]
  refine Ends.step rfl ?_
  cases callbackFor s kind with
  | some cb => exact callback_ends cb kind len s
  | none =>
      simp only [bind_assoc, pure_bind]
      refine Ends.lift fun _ _ => ?_
      rw [takeBody]
      split
      · next enough => exact ends_ok ((skipN_eq len s).trans (if_pos enough))
      · next short => exact ends_error ((skipN_eq len s).trans (if_neg short))

def otherChunk (self : Reader σ) (kind : UInt8) (len : Nat) : Exec (Reader σ) :=
  if kind = chunkTypeEof then eofChunk self len
  else if kind = chunkTypeStreamIdentifier then identifierChunk self len
  else if kind ≤ maxNonSkippableChunk then .error (.error .unsupported)
  else skippableChunk self kind len

theorem handleOther_ends (kind : UInt8) (len : Nat) (s : Reader σ) :
    Ends (handleOther kind len) s (otherChunk s kind len >>= fun s' => .ok ((), s')) := by
  rw [handleOther, otherChunk]
  split
  · exact handleEofChunk_ends len s
  · split
    · exact handleStreamIdentifier_ends len s
    · split
      · exact ends_error rfl
      · exact handleSkippable_ends kind len s

def frame (self : Reader σ) (kind : UInt8) (len : Nat) : Exec (Nat × Chunk × List UInt8) :=
  if IsCoded kind then frameCompressed self kind len else frameUncompressed self len

def unpack (ignoreCrc : Bool) (kind : UInt8) (c : Chunk) : Exec (List UInt8) :=
  if IsCoded kind then unpackCompressed mem ignoreCrc c else unpackUncompressed ignoreCrc c

/-- The reader after it has read a chunk whose header it has read. -/
def readChunk (self : Reader σ) (kind : UInt8) (len : Nat) : Exec (Unit × Reader σ) :=
  if HasBlock kind then do
    let (_, c, rest) ← frame self kind len
    let out ← unpack mem self.ignoreCrc kind c
    return ((), self.loaded out rest 0)
  else do
    let self ← otherChunk self kind len
    return ((), self)

/-- The same for a chunk of which `n` bytes are to be skipped, with what is left of `n`. -/
def skipChunk (self : Reader σ) (kind : UInt8) (len n : Nat) : Exec (Nat × Reader σ) :=
  if HasBlock kind then do
    let (dlen, c, rest) ← frame self kind len
    if dlen > n then
      let out ← unpack mem self.ignoreCrc kind c
      return (0, self.loaded out rest n)
    else return (n - dlen, self.dropped dlen rest)
  else do
    let self ← otherChunk self kind len
    return (n, self)

theorem ofBlock_ok {α : Type} {x : MinLz.Exec α} {a : α} (h : ofBlock x = .ok a) : x = .ok a := by
  cases x with
  | ok b =>
      cases h
      rfl
  | error e => cases e <;> cases h

theorem frame_ok {self : Reader σ} {kind : UInt8} {len dlen : Nat} {c : Chunk} {rest : List UInt8}
    (block : HasBlock kind) (h : frame self kind len = .ok (dlen, c, rest)) :
    takeBody kind len self.r = .ok (c, rest) ∧ ¬c.body.length < checksumSize ∧
      c.blockLen = dlen ∧ dlen ≤ self.maxBlock := by
  rw [frame] at h
  split at h
  · next coded =>
      obtain ⟨_, long, h⟩ := bind_eq_ok h
      obtain ⟨_, _, h⟩ := bind_eq_ok h
      obtain ⟨⟨c, rest⟩, took, h⟩ := bind_eq_ok h
      obtain ⟨dlen, declares, h⟩ := bind_eq_ok h
      obtain ⟨_, fits, h⟩ := bind_eq_ok h
      cases h
      obtain ⟨rfl, length, _⟩ := takeBody_ok took
      have long := of_reject long
      have fits := of_reject fits
      exact ⟨took, by omega, Chunk.blockLen_coded coded (by omega) (ofBlock_ok declares), by omega⟩
  · next stored =>
      obtain ⟨_, long, h⟩ := bind_eq_ok h
      obtain ⟨_, fits, h⟩ := bind_eq_ok h
      obtain ⟨⟨c, rest⟩, took, h⟩ := bind_eq_ok h
      cases h
      obtain rfl := block.resolve_left stored
      obtain ⟨kind, length, _⟩ := takeBody_ok took
      have long := of_reject long
      have fits := of_reject fits
      refine ⟨took, by omega, ?_, by omega⟩
      rw [Chunk.blockLen_stored kind (by omega), length]

theorem verifyCrc_ok {data : List UInt8} {checksum : Nat} {a : Unit}
    (h : verifyCrc data checksum = .ok a) : (Crc.maskedCrc32c data).toNat = checksum :=
  not_not.mp (of_reject h)

theorem toCrc_ok {c : Chunk} {out covered : List UInt8}
    (h : toCrc c.kind (c.body.drop checksumSize) out = .ok covered) : c.covered out = covered := by
  rw [toCrc] at h
  rw [Chunk.covered]
  split at h
  · next kind =>
      rw [if_pos kind]
      rw [stripDlenVarint] at h
      split at h
      · next v n read =>
          cases h
          simp only [read, Option.elim_some]
      · cases h
  · next kind =>
      cases h
      rw [if_neg kind]

theorem accepted_of {ignoreCrc : Bool} {c : Chunk} {out : List UInt8} (holds : c.block = some out)
    (checked : ignoreCrc = false → (Crc.maskedCrc32c (c.covered out)).toNat = c.checksum) :
    c.accepted ignoreCrc = some out := by
  rw [Chunk.accepted, holds, Option.filter_some, if_pos]
  cases ignoreCrc with
  | true => rfl
  | false => simpa using checked rfl

theorem unpack_ok {ignoreCrc : Bool} {c : Chunk} {out : List UInt8} (block : HasBlock c.kind)
    (long : ¬c.body.length < checksumSize) (h : unpack mem ignoreCrc c.kind c = .ok out) :
    c.accepted ignoreCrc = some out := by
  rw [unpack] at h
  split at h
  · next coded =>
      obtain ⟨out', decodes, h⟩ := bind_eq_ok h
      have cases := Block.appendDecodedChunkBody_cases mem [] (c.body.drop checksumSize)
      rw [ofBlock_ok decodes] at cases
      have holds : c.block = some out' := by
        rw [Chunk.block, if_neg long]
        simp only [if_neg (Chunk.coded_ne coded), if_pos coded]
        cases decoded : Block.decodedChunk (c.body.drop checksumSize) with
        | none =>
            rw [decoded] at cases
            obtain ⟨e, absurd⟩ := cases
            cases absurd
        | some o =>
            rw [decoded] at cases
            obtain ⟨same, _⟩ := cases
            cases same
            rfl
      cases ignoreCrc with
      | true =>
          cases h
          exact accepted_of holds (fun h => absurd h.symm Bool.false_ne_true)
      | false =>
          obtain ⟨covered, covers, h⟩ := bind_eq_ok h
          obtain ⟨_, equal, h⟩ := bind_eq_ok h
          cases h
          refine accepted_of holds fun _ => ?_
          rw [toCrc_ok covers]
          exact verifyCrc_ok equal
  · next stored =>
      have kind := block.resolve_left stored
      have covers (out : List UInt8) : c.covered out = out := by
        rw [Chunk.covered, kind, if_neg (by decide)]
      have holds : c.block = some (c.body.drop checksumSize) := by
        rw [Chunk.block, if_neg long]
        simp only [if_pos kind]
      cases ignoreCrc with
      | true =>
          cases h
          exact accepted_of holds (fun h => absurd h.symm Bool.false_ne_true)
      | false =>
          obtain ⟨_, equal, h⟩ := bind_eq_ok h
          cases h
          exact accepted_of holds fun _ => by
            rw [covers]
            exact verifyCrc_ok equal

theorem dispatch_ends {α : Type} {compressed uncompressed : Handle σ α} {other : α} {kind : UInt8}
    {len : Nat} {s : Reader σ} {o : Exec (α × Reader σ)}
    (coded : IsCoded kind → Ends compressed s o)
    (stored : ¬IsCoded kind → kind = chunkTypeUncompressedData → Ends uncompressed s o)
    (none : ¬HasBlock kind → otherChunk s kind len >>= (fun s' => .ok (other, s')) = o) :
    Ends (dispatch compressed uncompressed other kind len) s o := by
  rw [dispatch]
  split
  · next h => exact coded h
  · next not_coded =>
      split
      · next h => exact stored not_coded h
      · next not_stored =>
          rw [← none (fun h => h.elim not_coded not_stored)]
          exact Ends.via (handleOther_ends kind len s) fun s' _ => ends_ok rfl

theorem dispatch_read_ends (kind : UInt8) (len : Nat) (s : Reader σ) :
    Ends (dispatch (handleCompressedChunk mem kind len) (handleUncompressedChunk len) () kind len) s
      (readChunk mem s kind len) := by
  refine dispatch_ends (fun coded => ?_) (fun not_coded stored => ?_) fun none => ?_
  · rw [readChunk, if_pos (.inl coded)]
    simp only [frame, unpack, if_pos coded]
    exact handleCompressedChunk_ends mem kind len s
  · rw [readChunk, if_pos (.inr stored)]
    simp only [frame, unpack, if_neg not_coded]
    exact handleUncompressedChunk_ends len s
  · rw [readChunk, if_neg none]
    rfl

theorem dispatch_skip_ends (kind : UInt8) (len n : Nat) (s : Reader σ) :
    Ends (dispatch (skipCompressedOrDecode mem kind len n) (skipUncompressedOrDecode len n) n kind
      len) s (skipChunk mem s kind len n) := by
  refine dispatch_ends (fun coded => ?_) (fun not_coded stored => ?_) fun none => ?_
  · rw [skipChunk, if_pos (.inl coded)]
    simp only [frame, unpack, if_pos coded]
    exact skipCompressedOrDecode_ends mem kind len n s
  · rw [skipChunk, if_pos (.inr stored)]
    simp only [frame, unpack, if_neg not_coded]
    exact skipUncompressedOrDecode_ends len n s
  · rw [skipChunk, if_neg none]
    rfl

end MinLz.Stream
