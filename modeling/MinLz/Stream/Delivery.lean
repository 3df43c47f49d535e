import MinLz.Stream.NextChunk

/-! # What a reader delivers

A live reader has the content of its source ahead of it, after the unread bytes of its
block. Each call hands out bytes from the front of what is ahead and moves past some of
it. A call that fails leaves a reader that fails again or has nothing ahead.
-/

namespace MinLz.Stream

open Block (maxBlockSize)
open Machine (Overflow)
open Effects Loop

variable {σ : Type} (m : Overflow) (mem : Nat → UInt8)

/-- The reader has `ahead` still to deliver. -/
structure Live (s : Reader σ) (ahead : List (Option UInt8)) : Prop where
  err : s.err = none
  pos : s.decodedPos ≤ s.decoded.length
  small : s.decoded.length ≤ maxBlockSize
  limit : s.maxBlock ≤ maxBlockSize
  user : s.maxBlockUser ≤ maxBlockSize
  ahead : (s.decoded.drop s.decodedPos).map some ++ content s.ignoreCrc s.r = ahead

/-- An error that stays, or nothing ahead. -/
def Stopped (s : Reader σ) : Prop := s.err ≠ none ∨ Live s []

/-- A call that fails without a fault. -/
def Fails (e : Stop IoError) (s : Reader σ) : Prop := (∃ r, e = .error r) ∧ Stopped s

theorem available_ok {s : Reader σ} (pos : s.decodedPos ≤ s.decoded.length)
    (small : s.decoded.length ≤ maxBlockSize) :
    available m s = .ok (s.decoded.length - s.decodedPos) := by
  have cap : maxBlockSize < 2 ^ 64 := by decide
  have cast : (s.decoded.length : Int) - s.decodedPos =
      ((s.decoded.length - s.decodedPos : Nat) : Int) := by omega
  rw [available, cast, Machine.unsigned_ok m (by omega)]
  rfl

section Live

variable {s : Reader σ} {ahead : List (Option UInt8)}

theorem Live.drained (h : Live s ahead) (all : ¬s.decodedPos < s.decoded.length) :
    content s.ignoreCrc s.r = ahead := by
  have ahead := h.ahead
  rwa [List.drop_eq_nil_of_le (Nat.not_lt.mp all), List.map_nil, List.nil_append] at ahead

/-- Moving within the block. -/
theorem Live.move (h : Live s ahead) {n : Nat} (le : n ≤ s.decoded.length - s.decodedPos) :
    Live { s with decodedPos := s.decodedPos + n } (ahead.drop n) := by
  have pos := h.pos
  refine ⟨h.err, by simp only; omega, h.small, h.limit, h.user, ?_⟩
  rw [← h.ahead,
    List.drop_append_of_le_length (by simp only [List.length_map, List.length_drop]; omega),
    ← List.map_drop, List.drop_drop]

theorem Live.short (h : Live s ahead) (all : ¬s.decodedPos < s.decoded.length) :
    Live { s with r := [] } [] := by
  refine ⟨h.err, h.pos, h.small, h.limit, h.user, ?_⟩
  simp only
  rw [List.drop_eq_nil_of_le (Nat.not_lt.mp all)]
  exact content_end _ rfl

/-- The block of the next chunk, with its first `n` bytes passed. -/
theorem Live.loaded (h : Live s ahead) {kind : UInt8} {body rest out : List UInt8} {n : Nat}
    (le : n ≤ out.length) (fits : out.length ≤ s.maxBlock) :
    Live ((s.headed kind body).loaded out rest n)
      ((out.drop n).map some ++ content s.ignoreCrc rest) :=
  ⟨h.err, le, fits.trans h.limit, h.limit, h.user, rfl⟩

theorem Live.dropped (h : Live s ahead) (kind : UInt8) (body rest : List UInt8) (n : Nat) :
    Live ((s.headed kind body).dropped n rest) (content s.ignoreCrc rest) :=
  ⟨h.err, le_rfl, Nat.zero_le _, h.limit, h.user, rfl⟩

theorem Live.passes (h : Live s ahead) {kind : UInt8} {body rest : List UInt8} {s' : Reader σ}
    (all : ¬s.decodedPos < s.decoded.length) (passes : Passes (s.headed kind body) kind rest s') :
    Live s' (content s.ignoreCrc rest) := by
  have crc : s'.ignoreCrc = s.ignoreCrc := passes.ignoreCrc
  have user : s'.maxBlockUser = s.maxBlockUser := passes.maxBlockUser
  have err : s'.err = s.err := passes.err
  have unread : s'.decoded.drop s'.decodedPos = [] ∧ s'.decodedPos ≤ s'.decoded.length ∧
      s'.decoded.length ≤ maxBlockSize ∧ s'.maxBlock ≤ maxBlockSize := by
    rcases passes.block with ⟨same, pos, limit⟩ | ⟨empty, pos, limit⟩
    · rw [same, pos, limit]
      exact ⟨List.drop_eq_nil_of_le (Nat.not_lt.mp all), h.pos, h.small, h.limit⟩
    · rw [empty, pos]
      exact ⟨rfl, le_rfl, Nat.zero_le _, limit.trans h.user⟩
  refine ⟨err.trans h.err, unread.2.1, unread.2.2.1, unread.2.2.2, user ▸ h.user, ?_⟩
  rw [unread.1, passes.r, crc]
  rfl

theorem accepted_content {ignoreCrc : Bool} {c : Chunk} {out : List UInt8}
    (h : c.accepted ignoreCrc = some out) : c.content ignoreCrc = out.map some := by
  rw [Chunk.content, h]

/-- Reading the chunk after a drained block. -/
theorem Live.takes (h : Live s ahead) (all : ¬s.decodedPos < s.decoded.length) :
    Runs (nextChunk (handleCompressedChunk mem) handleUncompressedChunk ()) s
      (fun got s' => match got with
        | none => s' = s ∧ ahead = []
        | some () => Live s' ahead ∧ s'.r.length < s.r.length)
      Fails := by
  have turn := turn_nextChunk (dispatch_read_ends mem) (readChunk_exits mem) s
  have front := h.drained all
  cases run : nextChunk (handleCompressedChunk mem) handleUncompressedChunk () s with
  | error e s' =>
      rw [run] at turn
      refine runs_error run ?_
      cases turn with
      | short => exact ⟨⟨_, rfl⟩, .inr (h.short all)⟩
      | refused kept => exact ⟨⟨_, rfl⟩, .inl (by rw [kept]; exact Option.some_ne_none _)⟩
  | ok got s' =>
      rw [run] at turn
      refine runs_ok run ?_
      cases turn with
      | ends empty between =>
          rw [empty, content_end _ (by rfl)] at front
          exact ⟨rfl, front.symm⟩
      | took head accepts =>
          obtain ⟨c, rest, next, rfl, cases⟩ := readChunk_cases mem head accepts
          have length := Chunk.length_next next
          rw [content_next next] at front
          rcases cases with ⟨out, accepted, fits, rfl⟩ | ⟨data, passes⟩
          · rw [accepted_content accepted] at front
            exact ⟨front ▸ h.loaded (Nat.zero_le _) fits, by
              simp only [Reader.loaded]
              omega⟩
          · rw [Chunk.content_other _ data, List.nil_append] at front
            exact ⟨front ▸ h.passes all passes, by
              rw [passes.r]
              omega⟩

/-- Skipping into or past the chunk after a drained block. -/
theorem Live.skips (h : Live s ahead) (all : ¬s.decodedPos < s.decoded.length) (n : Nat) :
    Runs (nextChunk (skipCompressedOrDecode mem · · n) (skipUncompressedOrDecode · n) n) s
      (fun got s' => match got with
        | none => s' = s ∧ ahead = []
        | some left => (∃ ahead', Live s' ahead' ∧ ahead'.drop left = ahead.drop n) ∧
            s'.r.length < s.r.length)
      Fails := by
  have turn : Turn (fun s kind len => skipChunk mem s kind len n) s _ := turn_nextChunk
    (fun kind len s => dispatch_skip_ends mem kind len n s)
    (fun s kind len => skipChunk_exits mem s kind len n) s
  have front := h.drained all
  cases run : nextChunk (skipCompressedOrDecode mem · · n) (skipUncompressedOrDecode · n) n s with
  | error e s' =>
      rw [run] at turn
      refine runs_error run ?_
      cases turn with
      | short => exact ⟨⟨_, rfl⟩, .inr (h.short all)⟩
      | refused kept => exact ⟨⟨_, rfl⟩, .inl (by rw [kept]; exact Option.some_ne_none _)⟩
  | ok got s' =>
      rw [run] at turn
      refine runs_ok run ?_
      cases turn with
      | ends empty between =>
          rw [empty, content_end _ (by rfl)] at front
          exact ⟨rfl, front.symm⟩
      | took head accepts =>
          obtain ⟨c, rest, next, rfl, cases⟩ := skipChunk_cases mem head accepts
          have length := Chunk.length_next next
          rw [content_next next] at front
          rcases cases with ⟨out, accepted, fits, inside, rfl, rfl⟩ | ⟨whole, rfl, rfl⟩ |
            ⟨data, rfl, passes⟩
          · refine ⟨⟨_, h.loaded inside.le fits, ?_⟩, by simp only [Reader.loaded]; omega⟩
            rw [← front, accepted_content accepted, List.drop_zero, List.drop_append_of_le_length
              (by rw [List.length_map]; omega), List.map_drop]
          · refine ⟨⟨_, h.dropped _ _ rest _, ?_⟩, by simp only [Reader.dropped]; omega⟩
            have past : (c.content s.ignoreCrc).drop n = [] :=
              List.drop_eq_nil_of_le (by rwa [Chunk.length_content])
            rw [← front, List.drop_append, past, Chunk.length_content, List.nil_append]
          · refine ⟨⟨_, h.passes all passes, ?_⟩, by rw [passes.r]; omega⟩
            rw [← front, Chunk.content_other _ data, List.nil_append]

theorem Live.fill (h : Live s ahead) :
    Runs (fillDecoded mem) s
      (fun more s' => Live s' ahead ∧
        (if more then s'.decodedPos < s'.decoded.length else ahead = [])) Fails := by
  refine (runs_get s).bind ?_
  rintro _ _ ⟨rfl, rfl⟩
  refine runs_runM (fun _ s => Live s ahead) (fun _ s => s.r.length) ?_ h (Nat.lt_succ_self _)
  rintro _ s h
  refine (runs_get s).bind ?_
  rintro _ _ ⟨rfl, rfl⟩
  split
  · next unread => exact runs_pure ⟨h, by rwa [if_pos rfl]⟩
  · next all =>
      refine (h.takes mem all).bind fun got s' taken => ?_
      cases got with
      | none =>
          obtain ⟨rfl, none⟩ := taken
          exact runs_pure ⟨h, by rwa [if_neg Bool.false_ne_true]⟩
      | some _ => exact runs_pure taken

/-- A call that consults the sticky error first does nothing more when there is one. -/
theorem checkErr_live {α : Type} {f : Action σ α} {Q : α → Reader σ → Prop} (h : Live s ahead)
    (next : Runs f s Q Fails) : Runs (checkErr >>= fun _ => f) s Q Fails := by
  refine Runs.step (?_ : checkErr s = .ok () s) next
  refine (get_bind _ _).trans ?_
  rw [h.err]
  rfl

theorem Live.read (h : Live s ahead) (len : Nat) :
    Runs (read m mem len) s
      (fun bs s' => bs.map some <+: ahead ∧ Live s' (ahead.drop bs.length)) Fails := by
  refine checkErr_live h ?_
  split
  · exact runs_pure ⟨List.nil_prefix, h⟩
  · refine (h.fill mem).bind fun more s' filled => ?_
    obtain ⟨h, unread⟩ := filled
    cases more with
    | false => exact runs_pure ⟨List.nil_prefix, h⟩
    | true =>
        refine Runs.step rfl (Runs.step (lift_ok (available_ok m h.pos h.small)) (Runs.step rfl ?_))
        set n := min (s'.decoded.length - s'.decodedPos) len with taken
        have size : ((s'.decoded.drop s'.decodedPos).take n).length = n := by
          rw [List.length_take, List.length_drop]
          omega
        refine runs_pure ⟨?_, ?_⟩
        · rw [← h.ahead]
          exact ((List.take_prefix _ _).map _).trans (List.prefix_append _ _)
        · rw [size]
          exact h.move (Nat.min_le_left _ _)

theorem Live.fillBuf (h : Live s ahead) :
    Runs (fillBuf mem) s (fun bs s' => bs.map some <+: ahead ∧ Live s' ahead) Fails := by
  refine checkErr_live h ?_
  refine (h.fill mem).bind fun more s' filled => ?_
  obtain ⟨h, unread⟩ := filled
  cases more with
  | false => exact runs_pure ⟨List.nil_prefix, h⟩
  | true =>
      refine Runs.step rfl (runs_pure ⟨?_, h⟩)
      rw [← h.ahead]
      exact List.prefix_append _ _

theorem Live.consume (h : Live s ahead) (amt : Nat) :
    Runs (consume m amt) s
      (fun _ s' => Live s' (ahead.drop (min amt (s.decoded.length - s.decodedPos)))) Fails := by
  have cap : maxBlockSize < 2 ^ 64 := by decide
  have pos := h.pos
  have small := h.small
  set n := min amt (s.decoded.length - s.decodedPos) with moved
  have cast : ((s.decodedPos : Int) + n) = ((s.decodedPos + n : Nat) : Int) := by
    push_cast
    rfl
  have word : (word (m.unsigned ((s.decodedPos : Int) + n)) : Except (Stop IoError) Nat) =
      .ok (s.decodedPos + n) := by
    rw [cast, Machine.unsigned_ok m (by omega)]
    rfl
  refine Runs.step rfl (Runs.step (lift_ok (available_ok m pos small)) ?_)
  refine Runs.step (lift_ok word) ?_
  exact runs_ok rfl (h.move (Nat.min_le_right _ _))

theorem Live.skip (h : Live s ahead) (n : Nat) :
    Runs (skip m mem n) s (fun _ s' => Live s' (ahead.drop n)) Fails := by
  refine checkErr_live h ?_
  refine Runs.step rfl ?_
  refine runs_runM (fun k s => ∃ ahead', Live s ahead' ∧ ahead'.drop k = ahead.drop n)
    (fun _ s => s.r.length) ?_ ⟨ahead, h, rfl⟩ (Nat.lt_succ_self _)
  rintro k s ⟨ahead', h, target⟩
  by_cases done : k = 0
  · rw [skipStep, if_pos done]
    rw [done, List.drop_zero] at target
    exact runs_pure (target ▸ h)
  · rw [skipStep, if_neg done]
    refine Runs.step rfl (Runs.step (lift_ok (available_ok m h.pos h.small)) ?_)
    split
    · next within =>
        refine Runs.step rfl (runs_pure ?_)
        rw [← target]
        exact h.move within
    · next past =>
        have drained := h.move (Nat.le_refl (s.decoded.length - s.decodedPos))
        rw [Nat.add_sub_cancel' h.pos] at drained
        refine Runs.step rfl ?_
        refine (drained.skips mem (Nat.lt_irrefl _) _).bind fun got s' taken => ?_
        cases got with
        | none => exact runs_error rfl ⟨⟨_, rfl⟩, .inl (Option.some_ne_none _)⟩
        | some left =>
            obtain ⟨⟨ahead2, h2, rest⟩, less⟩ := taken
            refine runs_pure ⟨⟨ahead2, h2, ?_⟩, less⟩
            rw [rest, List.drop_drop, Nat.add_sub_cancel' (by omega), target]

end Live

inductive Call where
  | read (len : Nat)
  | fillBuf
  | consume (amt : Nat)
  | skip (n : Nat)
  deriving DecidableEq, Repr

/-- The bytes a call hands out. -/
def Call.run : Call → Action σ (List UInt8)
  | .read len => Stream.read m mem len
  | .fillBuf => Stream.fillBuf mem
  | .consume amt => do
      Stream.consume m amt
      return []
  | .skip n => do
      Stream.skip m mem n
      return []

/-- How far a call that hands out `bytes` moves a reader in what is ahead of it. -/
def Call.moved (s : Reader σ) (bytes : List UInt8) : Call → Nat
  | .read _ => bytes.length
  | .fillBuf => 0
  | .consume amt => min amt (s.decoded.length - s.decodedPos)
  | .skip n => n

/-- What a call has handed out and how far it has moved the reader. -/
structure Event where
  call : Call
  bytes : List UInt8
  moved : Nat
  deriving DecidableEq, Repr

/-- The calls in turn, whether they fail or not; a panic ends the run. -/
def runCalls : List Call → Reader σ → List Event
  | [], _ => []
  | call :: calls, s =>
      match call.run m mem s with
      | .ok bytes s' => ⟨call, bytes, call.moved s bytes⟩ :: runCalls calls s'
      | .error (.error _) s' => ⟨call, [], 0⟩ :: runCalls calls s'
      | .error (.fault _) _ => []

/-- How far the calls have moved the reader. -/
def totalMoved (events : List Event) : Nat := (events.map Event.moved).sum

theorem Live.run {s : Reader σ} {ahead : List (Option UInt8)} (h : Live s ahead) (call : Call) :
    Runs (call.run m mem) s
      (fun bytes s' => bytes.map some <+: ahead ∧ Live s' (ahead.drop (call.moved s bytes)))
      Fails := by
  cases call with
  | read len => exact h.read m mem len
  | fillBuf => exact h.fillBuf mem
  | consume amt =>
      exact (h.consume m amt).bind fun _ s' h' => runs_pure ⟨List.nil_prefix, h'⟩
  | skip n => exact (h.skip m mem n).bind fun _ s' h' => runs_pure ⟨List.nil_prefix, h'⟩

theorem checkErr_failed {s : Reader σ} {e : IoError} (failed : s.err = some e) :
    checkErr s = .error (.error e) s := by
  refine (get_bind _ _).trans ?_
  rw [failed]
  rfl

theorem consume_err (amt : Nat) (s : Reader σ) :
    Runs (consume m amt) s (fun _ s' => s'.err = s.err) (fun _ s' => s'.err = s.err) := by
  refine Runs.step rfl ?_
  cases available m s with
  | error e => exact runs_error (bind_error (lift_error rfl)) rfl
  | ok avail =>
      refine Runs.step (lift_ok rfl) ?_
      cases moved : (word (m.unsigned ((s.decodedPos : Int) + (min amt avail : Nat))) :
          Except (Stop IoError) Nat) with
      | error e => exact runs_error (bind_error (lift_error moved)) rfl
      | ok pos => exact Runs.step (lift_ok moved) (runs_ok rfl rfl)

/-- A reader with a sticky error hands out nothing and keeps it. -/
theorem failed_run {s : Reader σ} (failed : s.err ≠ none) (call : Call) :
    Runs (call.run m mem) s (fun bytes s' => bytes = [] ∧ s'.err ≠ none)
      (fun _ s' => s'.err ≠ none) := by
  obtain ⟨e, some⟩ := Option.ne_none_iff_exists'.mp failed
  have check := checkErr_failed some
  cases call with
  | read len => exact runs_error (bind_error check) failed
  | fillBuf => exact runs_error (bind_error check) failed
  | consume amt =>
      refine (Runs.mono (consume_err m amt s) (fun _ _ h => h) (fun _ _ h => h ▸ failed)).bind ?_
      exact fun _ s' kept => runs_pure ⟨rfl, kept ▸ failed⟩
  | skip n => exact runs_error (bind_error (bind_error check)) failed

/-- The reader has `ahead` still to deliver, or delivers nothing more. -/
def Front (s : Reader σ) (ahead : List (Option UInt8)) : Prop := Live s ahead ∨ Stopped s

theorem Front.run {s : Reader σ} {ahead : List (Option UInt8)} (h : Front s ahead) (call : Call) :
    Runs (call.run m mem) s
      (fun bytes s' => bytes.map some <+: ahead ∧ Front s' (ahead.drop (call.moved s bytes)))
      (fun _ s' => Stopped s') := by
  rcases h with live | failed | ended
  · exact (live.run m mem call).mono (fun _ _ h => ⟨h.1, .inl h.2⟩) (fun _ _ h => h.2)
  · refine (failed_run m mem failed call).mono ?_ (fun _ _ h => .inl h)
    rintro _ s' ⟨rfl, kept⟩
    exact ⟨List.nil_prefix, .inr (.inl kept)⟩
  · refine (ended.run m mem call).mono ?_ (fun _ _ h => h.2)
    rintro bytes s' ⟨none, live⟩
    rw [List.prefix_nil, List.map_eq_nil_iff] at none
    subst none
    rw [List.drop_nil] at live
    exact ⟨List.nil_prefix, .inr (.inr live)⟩

theorem Front.events {s : Reader σ} {ahead : List (Option UInt8)} (h : Front s ahead)
    (calls : List Call) {before after : List Event} {event : Event}
    (ran : runCalls m mem calls s = before ++ event :: after) :
    event.bytes.map some <+: ahead.drop (totalMoved before) := by
  induction calls generalizing s ahead before with
  | nil =>
      rw [runCalls] at ran
      exact absurd ran (by simp)
  | cons call calls ih =>
      have step := h.run m mem call
      rw [runCalls] at ran
      cases run : call.run m mem s with
      | ok bytes s' =>
          obtain ⟨handed, front⟩ := step.ok run
          rw [run] at ran
          cases before with
          | nil =>
              obtain ⟨rfl, _⟩ := List.cons.inj ran
              exact handed
          | cons first before =>
              obtain ⟨rfl, tail⟩ := List.cons.inj ran
              have later := ih front tail
              rwa [List.drop_drop] at later
      | error e s' =>
          have stopped := step.error run
          rw [run] at ran
          cases e with
          | fault f => exact absurd ran (by simp)
          | error e =>
              cases before with
              | nil =>
                  obtain ⟨rfl, _⟩ := List.cons.inj ran
                  exact List.nil_prefix
              | cons first before =>
                  obtain ⟨rfl, tail⟩ := List.cons.inj ran
                  have later : event.bytes.map some <+: ahead.drop (totalMoved before) :=
                    ih (.inr stopped) tail
                  simpa [totalMoved] using later

theorem live_build {b : ReaderBuilder σ} {data : List UInt8} {world : σ} {s : Reader σ}
    (built : b.build data world = .ok s) : Live s (content b.ignoreCrc data) := by
  rw [ReaderBuilder.build] at built
  split at built
  · cases built
  · next valid =>
      cases built
      have fits : b.maxBlockSize ≤ maxBlockSize := by omega
      exact ⟨rfl, le_rfl, Nat.zero_le _, fits, fits, rfl⟩

/-- A byte of the content is a byte of a block, at its position. -/
theorem content_byte {ignoreCrc : Bool} {cs : List Chunk} {i : Nat} {byte : UInt8}
    (h : (cs.flatMap (Chunk.content ignoreCrc))[i]? = some (some byte)) :
    ∃ before c after block j, cs = before ++ c :: after ∧ c.accepted ignoreCrc = some block ∧
      i = totalLen before + j ∧ block[j]? = some byte := by
  induction cs generalizing i with
  | nil => simp at h
  | cons c cs ih =>
      rw [List.flatMap_cons, List.getElem?_append, Chunk.length_content] at h
      split at h
      · rw [Chunk.content] at h
        split at h
        · next block accepted =>
            refine ⟨[], c, cs, block, i, rfl, accepted, (Nat.zero_add i).symm, ?_⟩
            simpa using h
        · exact absurd h (by simp [List.getElem?_replicate])
      · obtain ⟨before, d, after, block, j, rfl, accepted, position, value⟩ := ih h
        refine ⟨c :: before, d, after, block, j, rfl, accepted, ?_, value⟩
        simp only [totalLen, List.map_cons, List.sum_cons] at position ⊢
        omega

/-- Whatever is called on a reader that checks, also after an error, the bytes handed out
    are those that the stream has at the reader's position. Each is a byte of a block whose
    chunk has been there in full and whose checksum holds. -/
theorem reader_delivers (b : ReaderBuilder σ) (checks : b.ignoreCrc = false) (data : List UInt8)
    (world : σ) {s : Reader σ} (built : b.build data world = .ok s) (calls : List Call)
    {before after : List Event} {event : Event}
    (ran : runCalls m mem calls s = before ++ event :: after) :
    event.bytes.map some <+: (content false data).drop (totalMoved before) ∧
      ∀ k byte, event.bytes[k]? = some byte →
        ∃ earlier c later block j, chunks data = earlier ++ c :: later ∧ c.Verifies block ∧
          totalMoved before + k = totalLen earlier + j ∧ block[j]? = some byte := by
  have live := live_build built
  rw [checks] at live
  have handed := Front.events m mem (.inl live) calls ran
  refine ⟨handed, fun k byte at_k => ?_⟩
  obtain ⟨tail, split⟩ := handed
  have value : (content false data)[totalMoved before + k]? = some (some byte) := by
    have inside : k < (event.bytes.map some).length := by
      rw [List.length_map]
      exact (List.getElem?_eq_some_iff.mp at_k).1
    rw [← List.getElem?_drop, ← split, List.getElem?_append_left inside, List.getElem?_map, at_k]
    rfl
  obtain ⟨earlier, c, later, block, j, whole, accepted, position, at_j⟩ := content_byte value
  exact ⟨earlier, c, later, block, j, whole, Chunk.accepted_verifies accepted, position, at_j⟩

/-- A stream with two bytes in a stored block, not ended. -/
def twoBytes : List UInt8 :=
  [0xff, 6, 0, 0, 0x4d, 0x69, 0x6e, 0x4c, 0x7a, 2, 1, 6, 0, 0, 246, 5, 74, 39, 42, 43]

/-- The second byte, read after the first has been skipped. -/
theorem reader_delivers_second :
    ∃ earlier c later block j, chunks twoBytes = earlier ++ c :: later ∧ c.Verifies block ∧
      1 + 0 = totalLen earlier + j ∧ block[j]? = some 43 :=
  have ran : runCalls .panics (fun _ => 0) [.skip 1, .read 5] (withBuilder {} twoBytes ()) =
      [⟨.skip 1, [], 1⟩] ++ ⟨.read 5, [43], 1⟩ :: [] := by decide +kernel
  (reader_delivers .panics (fun _ => 0) ({} : ReaderBuilder Unit) rfl twoBytes () rfl _ ran).2
    0 43 rfl

end MinLz.Stream
