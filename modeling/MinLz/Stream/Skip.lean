import MinLz.Stream.Delivery

/-! # Skipping is reading and discarding

A drained block can be dropped: a reader that has skipped it whole then goes on as one
that has read it. `Alike` relates the two, and `Beside` relates a reader that is to read
`n` bytes to one that has skipped part of them. Both take the next chunk alike.
-/

namespace MinLz.Stream

open Block (maxBlockSize)
open Machine (Overflow)
open Effects Loop

variable {σ : Type} (m : Overflow) (mem : Nat → UInt8)

/-- The reader without its block, at the end of it. -/
def Reader.settle (self : Reader σ) : Reader σ :=
  { self with decoded := [], decodedPos := 0, blockStart := self.blockEnd }

def Drained (s : Reader σ) : Prop := s.decodedPos = s.decoded.length

/-- Readers that differ in a drained block only. -/
inductive Alike : Reader σ → Reader σ → Prop where
  | refl (s : Reader σ) : Alike s s
  | drained {s t : Reader σ} (left : Drained s) (right : Drained t)
      (same : s.settle = t.settle) : Alike s t

/-- Readers that have failed in one way or differ in a drained block only. -/
def AlikeOrFailed (s t : Reader σ) : Prop := Alike s t ∨ s.err ≠ none ∧ s.err = t.err

theorem Alike.field {α : Type} {s t : Reader σ} (h : Alike s t) (f : Reader σ → α)
    (keeps : ∀ s, f s.settle = f s) : f s = f t := by
  cases h with
  | refl => rfl
  | drained _ _ same => rw [← keeps s, same, keeps t]

theorem Alike.currentOffset {s t : Reader σ} (h : Alike s t) :
    s.currentOffset = t.currentOffset := by
  cases h with
  | refl => rfl
  | drained left right same =>
      have position := congrArg Reader.blockStart same
      rw [Reader.currentOffset, Reader.currentOffset, left, right]
      exact position

theorem Alike.unread {s t : Reader σ} (h : Alike s t) (unread : s.decodedPos < s.decoded.length) :
    s = t := by
  cases h with
  | refl => rfl
  | drained left => exact absurd unread (by rw [left]; exact Nat.lt_irrefl _)

/-- A step that looks at a block only for its end. -/
def Settles {α : Type} (step : Reader σ → UInt8 → Nat → Exec (α × Reader σ)) : Prop :=
  ∀ kind, (∀ s len, step s.settle kind len = step s kind len) ∨
    ∀ s len, (step s.settle kind len = do
        let (a, s') ← step s kind len
        return (a, s'.settle)) ∧
      ∀ a s', step s kind len = .ok (a, s') → Drained s → Drained s'

theorem blockEnd_settle (s : Reader σ) : s.settle.blockEnd = s.blockEnd := by
  simp [Reader.blockEnd, Reader.settle]

theorem loaded_settle (s : Reader σ) (out rest : List UInt8) (pos : Nat) :
    s.settle.loaded out rest pos = s.loaded out rest pos := by
  rw [Reader.loaded, Reader.loaded, blockEnd_settle]
  rfl

theorem dropped_settle (s : Reader σ) (len : Nat) (rest : List UInt8) :
    s.settle.dropped len rest = s.dropped len rest := by
  rw [Reader.dropped, Reader.dropped, blockEnd_settle]
  rfl

theorem settle_loaded (s : Reader σ) (out rest : List UInt8) (pos : Nat) :
    (s.loaded out rest pos).settle = s.dropped out.length rest := rfl

theorem checkTotal_settle (s : Reader σ) (tmp : List UInt8) :
    checkTotal s.settle tmp = checkTotal s tmp := by
  rw [checkTotal, checkTotal, blockEnd_settle]
  rfl

theorem eofChunk_settle (s : Reader σ) (len : Nat) :
    eofChunk s.settle len = Reader.settle <$> eofChunk s len := by
  simp only [eofChunk, checkTotal_settle, map_bind, map_pure]
  rfl

theorem identifierChunk_settle (s : Reader σ) (len : Nat) :
    identifierChunk s.settle len = Reader.settle <$> identifierChunk s len := by
  simp only [identifierChunk, map_bind, map_pure]
  rfl

theorem calledChunk_settle (s : Reader σ) (cb : UserChunkCb σ) (kind : UInt8) (len : Nat) :
    calledChunk s.settle cb kind len = Reader.settle <$> calledChunk s cb kind len := by
  have source : s.settle.r = s.r := rfl
  have world : s.settle.world = s.world := rfl
  rw [calledChunk, calledChunk, source, world]
  cases takeBody kind len s.r with
  | error e => rfl
  | ok x =>
      simp only
      rcases cb kind x.1.body s.world with ⟨_ | _, world⟩ <;> rfl

theorem skippableChunk_settle (s : Reader σ) (kind : UInt8) (len : Nat) :
    skippableChunk s.settle kind len = Reader.settle <$> skippableChunk s kind len := by
  have same : callbackFor s.settle kind = callbackFor s kind := rfl
  rw [skippableChunk, skippableChunk, same]
  cases callbackFor s kind with
  | some cb => exact calledChunk_settle s cb kind len
  | none =>
      simp only [map_bind, map_pure]
      rfl

/-- A chunk without data looks at a block only for its end. -/
theorem otherChunk_settle (s : Reader σ) (kind : UInt8) (len : Nat) :
    otherChunk s.settle kind len = Reader.settle <$> otherChunk s kind len := by
  rw [otherChunk, otherChunk]
  split
  · exact eofChunk_settle s len
  · split
    · exact identifierChunk_settle s len
    · split
      · rfl
      · exact skippableChunk_settle s kind len

theorem otherChunk_drained {s s' : Reader σ} {kind : UInt8} {len : Nat} (none : ¬HasBlock kind)
    (h : otherChunk s kind len = .ok s') (drained : Drained s) : Drained s' := by
  obtain ⟨c, rest, _, _, passes⟩ := otherChunk_ok none h
  rcases passes.block with ⟨same, pos, _⟩ | ⟨empty, pos, _⟩
  · rw [Drained, same, pos]
    exact drained
  · rw [Drained, empty, pos]
    rfl

theorem readChunk_settles : Settles (σ := σ) (readChunk mem) := by
  intro kind
  by_cases block : HasBlock kind
  · left
    intro s len
    rw [readChunk, readChunk, if_pos block, if_pos block]
    simp only [loaded_settle]
    rfl
  · right
    intro s len
    rw [readChunk, readChunk, if_neg block, if_neg block, otherChunk_settle]
    refine ⟨by cases otherChunk s kind len <;> rfl, fun a s' run drained => ?_⟩
    obtain ⟨s1, other, run⟩ := bind_eq_ok run
    cases run
    exact otherChunk_drained block other drained

theorem alike_step {α : Type} {step : Reader σ → UInt8 → Nat → Exec (α × Reader σ)}
    (settles : Settles step) {s t : Reader σ} (left : Drained s) (right : Drained t)
    (same : s.settle = t.settle) (kind : UInt8) (len : Nat) :
    (∃ e, step s kind len = .error e ∧ step t kind len = .error e) ∨
      ∃ a s' t', step s kind len = .ok (a, s') ∧ step t kind len = .ok (a, t') ∧ Alike s' t' := by
  rcases settles kind with blind | passes
  · have equal : step s kind len = step t kind len := by rw [← blind s, ← blind t, same]
    rw [← equal]
    cases step s kind len with
    | error e => exact .inl ⟨e, rfl, rfl⟩
    | ok r => exact .inr ⟨r.1, r.2, r.2, rfl, rfl, .refl r.2⟩
  · obtain ⟨settled_s, drained_s⟩ := passes s len
    obtain ⟨settled_t, drained_t⟩ := passes t len
    rw [same, settled_t] at settled_s
    cases run_s : step s kind len with
    | error e =>
        rw [run_s] at settled_s
        cases run_t : step t kind len with
        | error f =>
            rw [run_t] at settled_s
            cases settled_s
            exact .inl ⟨e, rfl, rfl⟩
        | ok r =>
            rw [run_t] at settled_s
            cases settled_s
    | ok p =>
        rw [run_s] at settled_s
        cases run_t : step t kind len with
        | error f =>
            rw [run_t] at settled_s
            cases settled_s
        | ok r =>
            rw [run_t] at settled_s
            obtain ⟨value, state⟩ := Prod.mk.inj (Except.ok.inj settled_s)
            refine .inr ⟨p.1, p.2, r.2, rfl, by rw [← value], .drained ?_ ?_ state.symm⟩
            · exact drained_s p.1 p.2 run_s left
            · exact drained_t r.1 r.2 run_t right

/-- Readers that differ in a drained block take the next chunk alike. -/
theorem alike_nextChunk {α : Type} {compressed : UInt8 → Nat → Handle σ α}
    {uncompressed : Nat → Handle σ α} {other : α}
    {step : Reader σ → UInt8 → Nat → Exec (α × Reader σ)}
    (ends : ∀ kind len s, Ends (dispatch (compressed kind len) (uncompressed len) other kind len) s
      (step s kind len))
    (exits : ∀ s kind len, Exits (step s kind len) (fun _ => True) Refuses)
    (settles : Settles step) {s t : Reader σ} (left : Drained s) (right : Drained t)
    (same : s.settle = t.settle) :
    Agree (nextChunk compressed uncompressed other) (nextChunk compressed uncompressed other) s t
      (fun _ => Alike) AlikeOrFailed := by
  have alike : Alike s t := .drained left right same
  have source : s.r = t.r := alike.field Reader.r fun _ => rfl
  have expects : s.expectEof = t.expectEof := alike.field Reader.expectEof fun _ => rfl
  rcases head : s.r with _ | ⟨kind, _ | ⟨b0, _ | ⟨b1, _ | ⟨b2, body⟩⟩⟩⟩
  case cons.cons.cons.cons =>
    have headed : (s.headed kind body).settle = (t.headed kind body).settle :=
      congrArg (Reader.headed · kind body) same
    have misplaced : Misplaced s kind ↔ Misplaced t kind := by
      have known : s.headerRead = t.headerRead := alike.field Reader.headerRead fun _ => rfl
      rw [Misplaced, Misplaced, known]
    have run_s : nextChunk compressed uncompressed other s = _ := nextChunk_header head
    have run_t : nextChunk compressed uncompressed other t = _ :=
      nextChunk_header (source ▸ head)
    have left : Drained (s.headed kind body) := left
    have right : Drained (t.headed kind body) := right
    by_cases early : Misplaced s kind
    · rw [if_pos early] at run_s
      rw [if_pos (misplaced.mp early)] at run_t
      exact agree_error run_s run_t (.inr ⟨Option.some_ne_none _, rfl⟩)
    · rw [if_neg early] at run_s
      rw [if_neg (early ∘ misplaced.mpr)] at run_t
      have chunk_s := ends kind (readChunkLen b0 b1 b2) (s.headed kind body)
      have chunk_t := ends kind (readChunkLen b0 b1 b2) (t.headed kind body)
      rcases alike_step settles left right headed kind (readChunkLen b0 b1 b2) with
        ⟨e, fails_s, fails_t⟩ | ⟨a, s', t', steps_s, steps_t, after⟩
      · obtain ⟨e, rfl⟩ := (exits _ _ _).error fails_s
        rw [fails_s] at chunk_s
        rw [fails_t] at chunk_t
        obtain ⟨s', failed_s⟩ := chunk_s.run_error
        obtain ⟨t', failed_t⟩ := chunk_t.run_error
        exact agree_error (run_s.trans (map_error (sticky_error failed_s)))
          (run_t.trans (map_error (sticky_error failed_t))) (.inr ⟨Option.some_ne_none _, rfl⟩)
      · rw [steps_s] at chunk_s
        rw [steps_t] at chunk_t
        exact agree_ok (run_s.trans (map_ok (sticky_ok chunk_s.run_ok)))
          (run_t.trans (map_ok (sticky_ok chunk_t.run_ok))) after
  all_goals
    have run_s : nextChunk compressed uncompressed other s = _ :=
      nextChunk_short (by rw [head]; simp [chunkHeaderSize])
    have run_t : nextChunk compressed uncompressed other t = _ :=
      nextChunk_short (by rw [← source, head]; simp [chunkHeaderSize])
    have ending : t.r = [] ∧ t.expectEof = false ↔ s.r = [] ∧ s.expectEof = false := by
      rw [source, expects]
    by_cases ended : s.r = [] ∧ s.expectEof = false
    · rw [if_pos ended] at run_s
      rw [if_pos (ending.mpr ended)] at run_t
      exact agree_ok run_s run_t alike
    · rw [if_neg ended] at run_s
      rw [if_neg (ended ∘ ending.mp)] at run_t
      refine agree_error run_s run_t (.inl (.drained left right ?_))
      exact congrArg (fun u : Reader σ => { u with r := [] }) same

theorem alike_takes {s t : Reader σ} (left : Drained s) (right : Drained t)
    (same : s.settle = t.settle) :
    Agree (nextChunk (handleCompressedChunk mem) handleUncompressedChunk ())
      (nextChunk (handleCompressedChunk mem) handleUncompressedChunk ()) s t
      (fun _ => Alike) AlikeOrFailed :=
  alike_nextChunk (dispatch_read_ends mem) (readChunk_exits mem) (readChunk_settles mem) left right
    same

theorem alike_fill {s t : Reader σ} (h : Alike s t) :
    Agree (fillDecoded mem) (fillDecoded mem) s t
      (fun more s' t' => if more then s' = t' else Alike s' t') AlikeOrFailed := by
  have source : s.r = t.r := h.field Reader.r fun _ => rfl
  refine Agree.step rfl rfl ?_
  rw [source]
  refine agree_runM Alike (fun _ _ h => .inl h) ?_ h
  rintro _ s t h
  cases h with
  | refl =>
      refine agree_refl _ _ (fun r s => ?_) fun s => .inl (.refl s)
      cases r with
      | next _ => exact .refl s
      | done more =>
          cases more with
          | true => rfl
          | false => exact .refl s
  | drained left right same =>
      refine Agree.step rfl rfl ?_
      rw [if_neg (by rw [left]; exact Nat.lt_irrefl _), if_neg (by rw [right]; exact Nat.lt_irrefl _)]
      refine (alike_takes mem left right same).bind fun got s' t' h => ?_
      cases got with
      | none => exact agree_ok rfl rfl h
      | some _ => exact agree_ok rfl rfl h

theorem checkErr_clear {s : Reader σ} (clear : s.err = none) : checkErr s = .ok () s := by
  refine (get_bind _ _).trans ?_
  rw [clear]
  rfl

theorem alike_read {s t : Reader σ} (h : AlikeOrFailed s t) (len : Nat) :
    Agree (read m mem len) (read m mem len) s t (fun _ => Alike) AlikeOrFailed := by
  have errs : s.err = t.err := h.elim (·.field Reader.err fun _ => rfl) (·.2)
  cases failed : s.err with
  | some e =>
      exact agree_error (bind_error (checkErr_failed failed))
        (bind_error (checkErr_failed (errs ▸ failed))) h
  | none =>
      have alike : Alike s t := h.resolve_right fun h => h.1 failed
      refine Agree.step (checkErr_clear failed) (checkErr_clear (errs ▸ failed)) ?_
      split
      · exact agree_ok rfl rfl alike
      · refine (alike_fill mem alike).bind fun more s' t' filled => ?_
        cases more with
        | false => exact agree_ok rfl rfl filled
        | true =>
            obtain rfl : s' = t' := filled
            exact agree_refl _ _ (fun _ s => .refl s) fun s => .inl (.refl s)

/-- What reads of these sizes give, whether they fail or not; a panic ends them. -/
def outcomes : List Nat → Reader σ → List (Except (Stop IoError) (List UInt8))
  | [], _ => []
  | len :: lens, s =>
      match read m mem len s with
      | .ok bytes s' => .ok bytes :: outcomes lens s'
      | .error (.error e) s' => .error (.error e) :: outcomes lens s'
      | .error (.fault f) _ => [.error (.fault f)]

theorem alike_outcomes {s t : Reader σ} (h : AlikeOrFailed s t) (lens : List Nat) :
    outcomes m mem lens s = outcomes m mem lens t := by
  induction lens generalizing s t with
  | nil => rfl
  | cons len lens ih =>
      have agree := alike_read m mem h len
      rw [outcomes, outcomes]
      cases run : read m mem len s with
      | ok bytes s' =>
          obtain ⟨t', other, alike⟩ := agree.ok run
          rw [other]
          exact congrArg (_ :: ·) (ih (.inl alike))
      | error e s' =>
          obtain ⟨t', other, alike⟩ := agree.error run
          rw [other]
          cases e with
          | error e => exact congrArg (_ :: ·) (ih alike)
          | fault f => rfl

/-- Unread bytes of the block. -/
def Reader.unread (s : Reader σ) : Nat := s.decoded.length - s.decodedPos

/-- The reader at the end of its block. -/
def Reader.drain (s : Reader σ) : Reader σ := { s with decodedPos := s.decoded.length }

/-- Reading `n` bytes leads from one reader to the other. -/
inductive Delivers : Reader σ → Nat → Reader σ → Prop where
  | within {s : Reader σ} {n : Nat} (within : n ≤ s.unread) :
      Delivers s n { s with decodedPos := s.decodedPos + n }
  | past {s s' s2 : Reader σ} {n : Nat} (past : s.unread < n)
      (took : nextChunk (handleCompressedChunk mem) handleUncompressedChunk () s.drain =
        .ok (some ()) s')
      (rest : Delivers s' (n - s.unread) s2) : Delivers s n s2

/-- Reads that succeed and hand out these bytes. -/
inductive Reads : Reader σ → List UInt8 → Reader σ → Prop where
  | refl (s : Reader σ) : Reads s [] s
  | step {s s1 s2 : Reader σ} {len : Nat} {bytes more : List UInt8}
      (run : read m mem len s = .ok bytes s1) (some : bytes ≠ []) (rest : Reads s1 more s2) :
      Reads s (bytes ++ more) s2

/-- A reader that calls which succeed lead to. -/
inductive Reached (b : ReaderBuilder σ) (data : List UInt8) (world : σ) : Reader σ → Prop where
  | built {s : Reader σ} (built : b.build data world = .ok s) : Reached b data world s
  | step {s s' : Reader σ} {call : Call} {bytes : List UInt8} (before : Reached b data world s)
      (run : call.run m mem s = .ok bytes s') : Reached b data world s'

theorem Reached.live {b : ReaderBuilder σ} {data : List UInt8} {world : σ} {s : Reader σ}
    (h : Reached m mem b data world s) : ∃ ahead, Live s ahead := by
  induction h with
  | built built => exact ⟨_, live_build built⟩
  | step _ run ih =>
      obtain ⟨ahead, live⟩ := ih
      exact ⟨_, ((live.run m mem _).ok run).2⟩

theorem Delivers.append {s s1 s2 : Reader σ} {a b : Nat} (h : Delivers mem s a s1)
    (h2 : Delivers mem s1 b s2) : Delivers mem s (a + b) s2 := by
  induction h with
  | @within s a within =>
      have left : ({ s with decodedPos := s.decodedPos + a } : Reader σ).unread = s.unread - a := by
        simp only [Reader.unread]
        omega
      cases h2 with
      | within within2 =>
          rw [left] at within2
          simp only [Nat.add_assoc]
          exact .within (by omega)
      | past past took rest =>
          rw [left] at past rest
          rw [show b - (s.unread - a) = a + b - s.unread by omega] at rest
          exact .past (by omega) took rest
  | @past s s' s2 n past took rest ih =>
      have more := ih h2
      rw [show n - s.unread + b = n + b - s.unread by omega] at more
      exact .past (by omega) took more

theorem Live.drain_eq {s : Reader σ} {ahead : List (Option UInt8)} (h : Live s ahead)
    (all : ¬s.decodedPos < s.decoded.length) : s.drain = s := by
  have pos := h.pos
  rw [Reader.drain, show s.decoded.length = s.decodedPos by omega]

theorem filled_delivers {s s' : Reader σ} {ahead : List (Option UInt8)} (h : Live s ahead)
    (filled : fillDecoded mem s = .ok true s') {n : Nat} (some : 0 < n) (within : n ≤ s'.unread) :
    Delivers mem s n { s' with decodedPos := s'.decodedPos + n } := by
  have go : ∀ k s ahead, Live s ahead → runM (.fault .unfinished) (fillStep mem) k () s =
      .ok true s' → Delivers mem s n { s' with decodedPos := s'.decodedPos + n } := by
    intro k
    induction k with
    | zero =>
        intro s ahead h run
        cases run
    | succ k ih =>
        intro s ahead h run
        obtain ⟨r, s1, pass, run⟩ := run_bind_ok run
        obtain ⟨_, _, state, pass⟩ := run_bind_ok pass
        cases state
        split at pass
        · cases pass
          cases run
          exact .within within
        · next all =>
            obtain ⟨got, s2, took, pass⟩ := run_bind_ok pass
            have live := (h.takes mem all).ok took
            cases got with
            | none =>
                cases pass
                cases run
            | some _ =>
                cases pass
                have none : s.unread = 0 := by
                  rw [Reader.unread]
                  omega
                refine .past (by omega) ((h.drain_eq all).symm ▸ took) ?_
                rw [none, Nat.sub_zero]
                exact ih s1 _ live.1 run
  exact go _ s ahead h filled

/-- What a read that hands out bytes does. -/
theorem read_ok {s s' : Reader σ} {ahead : List (Option UInt8)} (h : Live s ahead) {len : Nat}
    {bytes : List UInt8} (run : read m mem len s = .ok bytes s') (some : bytes ≠ []) :
    ∃ s1, fillDecoded mem s = .ok true s1 ∧ Live s1 ahead ∧ bytes.length = min s1.unread len ∧
      bytes = (s1.decoded.drop s1.decodedPos).take bytes.length ∧
      s' = { s1 with decodedPos := s1.decodedPos + bytes.length } := by
  obtain ⟨_, s0, checked, run⟩ := run_bind_ok run
  rw [checkErr_clear h.err] at checked
  cases checked
  split at run
  · cases run
    exact absurd rfl some
  · obtain ⟨more, s1, filled, run⟩ := run_bind_ok run
    have live := ((h.fill mem).ok filled).1
    cases more with
    | false =>
        cases run
        exact absurd rfl some
    | true =>
        obtain ⟨_, _, state, run⟩ := run_bind_ok run
        cases state
        obtain ⟨unread, _, value, run⟩ := run_bind_ok run
        obtain ⟨value, rfl⟩ := lift_eq_ok value
        rw [available_ok m live.pos live.small] at value
        cases value
        cases run
        refine ⟨s1, filled, live, ?_, ?_, ?_⟩ <;> simp [Reader.unread]

theorem read_delivers {s s' : Reader σ} {ahead : List (Option UInt8)} (h : Live s ahead)
    {len : Nat} {bytes : List UInt8} (run : read m mem len s = .ok bytes s') (some : bytes ≠ []) :
    Delivers mem s bytes.length s' := by
  obtain ⟨s1, filled, _, length, _, rfl⟩ := read_ok m mem h run some
  exact filled_delivers mem h filled (List.length_pos_iff.mpr some) (by omega)

theorem Reads.delivers {s s2 : Reader σ} {bytes : List UInt8} (h : Reads m mem s bytes s2)
    {ahead : List (Option UInt8)} (live : Live s ahead) : Delivers mem s bytes.length s2 := by
  induction h generalizing ahead with
  | refl s => exact .within (Nat.zero_le _)
  | step run some rest ih =>
      rw [List.length_append]
      exact (read_delivers m mem live run some).append mem (ih ((live.read m mem _).ok run).2)

/-- Fewer bytes can be read as well. -/
theorem read_fewer {s s' : Reader σ} {ahead : List (Option UInt8)} (h : Live s ahead)
    {len n : Nat} {bytes : List UInt8} (run : read m mem len s = .ok bytes s') (some : 0 < n)
    (fewer : n ≤ bytes.length) : ∃ s1, read m mem n s = .ok (bytes.take n) s1 := by
  have nonempty : bytes ≠ [] := List.length_pos_iff.mp (by omega)
  obtain ⟨s1, filled, live, length, taken, _⟩ := read_ok m mem h run nonempty
  refine ⟨{ s1 with decodedPos := s1.decodedPos + n }, ?_⟩
  refine (bind_ok (checkErr_clear h.err)).trans ?_
  rw [if_neg (by omega)]
  refine (bind_ok filled).trans ((get_bind _ _).trans ?_)
  refine (bind_ok (lift_ok (available_ok m live.pos live.small))).trans ?_
  have size : min (s1.decoded.length - s1.decodedPos) n = n := by
    rw [Reader.unread] at length
    omega
  rw [taken, List.take_take, Nat.min_eq_left fewer, size]
  rfl

theorem Reads.take {s s2 : Reader σ} {bytes : List UInt8} (h : Reads m mem s bytes s2)
    {ahead : List (Option UInt8)} (live : Live s ahead) {n : Nat} (fewer : n ≤ bytes.length) :
    ∃ s1, Reads m mem s (bytes.take n) s1 := by
  induction h generalizing ahead n with
  | refl s => exact ⟨s, by rw [List.take_nil]; exact .refl s⟩
  | @step s s1 s2 len bytes more run some rest ih =>
      by_cases none : n = 0
      · exact ⟨s, by rw [none, List.take_zero]; exact .refl s⟩
      · by_cases inside : n ≤ bytes.length
        · obtain ⟨s3, fewer⟩ := read_fewer m mem live run (by omega) inside
          rw [List.take_append_of_le_length inside]
          have taken : bytes.take n ≠ [] := List.length_pos_iff.mp (by
            rw [List.length_take]
            omega)
          rw [← List.append_nil (bytes.take n)]
          exact ⟨s3, .step fewer taken (.refl s3)⟩
        · rw [List.length_append] at fewer
          obtain ⟨s3, tail⟩ := ih ((live.read m mem _).ok run).2 (by omega : n - bytes.length ≤ _)
          rw [List.take_append, List.take_of_length_le (by omega)]
          exact ⟨s3, .step run some tail⟩

/-- What is left to skip is `k` for a reader that is in front of one that is to read `n`
    bytes, and has its block or has dropped it. -/
inductive Beside (r : Reader σ) : Reader σ → Nat → Nat → Prop where
  | moved {j k : Nat} (within : j ≤ r.unread) :
      Beside r { r with decodedPos := r.decodedPos + j } (j + k) k
  | past {t : Reader σ} {k : Nat} (drained : Drained t) (same : t.settle = r.settle) :
      Beside r t (r.unread + k) k

theorem Beside.r {r t : Reader σ} {n k : Nat} (h : Beside r t n k) : t.r = r.r := by
  cases h with
  | moved => rfl
  | past _ same =>
      have source := congrArg Reader.r same
      exact source

theorem Drained.unread {s : Reader σ} (h : Drained s) : s.unread = 0 := by
  rw [Reader.unread, h, Nat.sub_self]

theorem Beside.alike {s r t : Reader σ} {n k : Nat} (h : Beside r t n k) (alike : Alike s r) :
    Beside s t n k := by
  cases alike with
  | refl => exact h
  | drained left right same =>
      cases h with
      | @moved j k within =>
          have none : j = 0 := by
            rw [right.unread] at within
            omega
          subst none
          have past : Beside s r (s.unread + k) k := .past right same.symm
          rw [left.unread] at past
          exact past
      | past drained settled =>
          rw [right.unread, ← left.unread]
          exact .past drained (settled.trans same.symm)

theorem Beside.available {r t : Reader σ} {n k : Nat} {ahead : List (Option UInt8)}
    (h : Beside r t n k) (live : Live r ahead) : available m t = .ok t.unread := by
  cases h with
  | moved within =>
      have moved := live.move within
      exact available_ok m moved.pos moved.small
  | past drained _ =>
      have none : (t.decoded.length : Int) - t.decodedPos = ((0 : Nat) : Int) := by
        rw [drained, sub_self, Nat.cast_zero]
      rw [Stream.available, none, Machine.unsigned_ok m (by decide), drained.unread]
      rfl

theorem dropped_drop (s : Reader σ) (len : Nat) (rest : List UInt8) :
    (s.dropped len rest).settle = s.dropped len rest := by
  simp [Reader.settle, Reader.dropped, Reader.blockEnd]

/-- Where skipping `n` bytes gets with a chunk that reading leads to `r` with: it stops in
    the block or drops it. -/
inductive Landed (r : Reader σ) : Reader σ → Nat → Nat → Prop where
  | moved {j k : Nat} (within : j ≤ r.unread) :
      Landed r { r with decodedPos := r.decodedPos + j } (j + k) k
  | dropped {k : Nat} : Landed r r.settle (r.unread + k) k

theorem settle_settle (s : Reader σ) : s.settle.settle = s.settle := by
  rw [Reader.settle, blockEnd_settle]
  rfl

theorem Landed.beside {r t : Reader σ} {n k : Nat} (h : Landed r t n k) : Beside r t n k := by
  cases h with
  | moved within => exact .moved within
  | dropped => exact .past rfl (settle_settle r)

theorem skipChunk_of_read {s s' : Reader σ} {kind : UInt8} {len : Nat}
    (read : readChunk mem s kind len = .ok ((), s')) (n : Nat) :
    ∃ left t, skipChunk mem s kind len n = .ok (left, t) ∧ Landed s' t n left := by
  rw [readChunk] at read
  rw [skipChunk]
  by_cases block : HasBlock kind
  · rw [if_pos block] at read ⊢
    obtain ⟨⟨dlen, c, rest⟩, framed, read⟩ := bind_eq_ok read
    obtain ⟨out, unpacked, read⟩ := bind_eq_ok read
    cases read
    obtain ⟨took, long, length, _⟩ := frame_ok block framed
    obtain ⟨rfl, _⟩ := takeBody_ok took
    have accepted := unpack_ok mem block long unpacked
    have size : out.length = dlen :=
      (Chunk.length_block (Option.filter_eq_some_iff.mp accepted).1).trans length
    rw [framed]
    by_cases partly : dlen > n
    · refine ⟨0, s.loaded out rest n, ?_, ?_⟩
      · show (if dlen > n then _ else _) = _
        rw [if_pos partly, unpacked]
        rfl
      · have moved := Landed.moved (r := s.loaded out rest 0) (k := 0)
          (show n ≤ (s.loaded out rest 0).unread from by
            simp only [Reader.unread, Reader.loaded]
            omega)
        simpa [Reader.loaded] using moved
    · refine ⟨n - dlen, s.dropped dlen rest, if_neg partly, ?_⟩
      have past : Landed (s.loaded out rest 0) (s.dropped dlen rest)
          ((s.loaded out rest 0).unread + (n - dlen)) (n - dlen) := by
        rw [← size, ← settle_loaded s out rest 0]
        exact .dropped
      have unread : (s.loaded out rest 0).unread = dlen := by
        simp only [Reader.unread, Reader.loaded]
        omega
      rwa [unread, Nat.add_sub_cancel' (by omega)] at past
  · rw [if_neg block] at read ⊢
    obtain ⟨s1, other, read⟩ := bind_eq_ok read
    cases read
    rw [other]
    refine ⟨n, s', rfl, ?_⟩
    have moved := Landed.moved (r := s') (k := n) (Nat.zero_le _)
    rwa [Nat.zero_add] at moved

theorem skips_of_takes {t s' : Reader σ}
    (took : nextChunk (handleCompressedChunk mem) handleUncompressedChunk () t = .ok (some ()) s')
    (n : Nat) :
    ∃ left t', nextChunk (skipCompressedOrDecode mem · · n) (skipUncompressedOrDecode · n) n t =
      .ok (some left) t' ∧ Landed s' t' n left := by
  have turn := turn_nextChunk (dispatch_read_ends mem) (readChunk_exits mem) t
  rw [took] at turn
  cases turn with
  | @took kind b0 b1 b2 body _ _ head run =>
      obtain ⟨left, t', skipped, landed⟩ := skipChunk_of_read mem run n
      have chunk := dispatch_skip_ends mem kind (readChunkLen b0 b1 b2) n (t.headed kind body)
      rw [skipped] at chunk
      refine ⟨left, t', ?_, landed⟩
      rw [nextChunk_header head] at took
      rw [nextChunk_header head]
      by_cases misplaced : Misplaced t kind
      · rw [if_pos misplaced] at took
        cases took
      · rw [if_neg misplaced]
        exact map_ok (sticky_ok chunk.run_ok)

theorem skipStep_within {t : Reader σ} (avail : available m t = .ok t.unread) {k : Nat}
    (within : k ≤ t.unread) :
    skipStep m mem k t = .ok (.done ()) { t with decodedPos := t.decodedPos + k } := by
  rw [skipStep]
  split
  · next none =>
      subst none
      rfl
  · refine (get_bind _ _).trans ((bind_ok (lift_ok avail)).trans ?_)
    rw [if_pos within]
    rfl

theorem skipStep_past {t t' : Reader σ} (avail : available m t = .ok t.unread) {k left : Nat}
    (past : t.unread < k)
    (took : nextChunk (skipCompressedOrDecode mem · · (k - t.unread))
      (skipUncompressedOrDecode · (k - t.unread)) (k - t.unread) t.drain = .ok (some left) t') :
    skipStep m mem k t = .ok (.next left) t' := by
  rw [skipStep, if_neg (by omega)]
  refine (get_bind _ _).trans ((bind_ok (lift_ok avail)).trans ?_)
  rw [if_neg (by omega)]
  exact bind_ok took

theorem Beside.within {r t : Reader σ} {n k : Nat} {ahead : List (Option UInt8)}
    (h : Beside r t n k) (live : Live r ahead) (within : n ≤ r.unread) :
    k ≤ t.unread ∧ Alike { r with decodedPos := r.decodedPos + n }
      { t with decodedPos := t.decodedPos + k } := by
  have pos := live.pos
  cases h with
  | @moved j k _ =>
      refine ⟨by simp only [Reader.unread] at within ⊢; omega, ?_⟩
      simp only [Nat.add_assoc]
      exact .refl _
  | @past t k drained same =>
      obtain rfl : k = 0 := by omega
      refine ⟨Nat.zero_le _, .drained ?_ drained same.symm⟩
      simp only [Drained, Reader.unread]
      omega

theorem Beside.beyond {r t : Reader σ} {n k : Nat} (h : Beside r t n k) (past : r.unread < n) :
    t.unread < k ∧ k - t.unread = n - r.unread ∧ r.drain.settle = t.drain.settle := by
  cases h with
  | moved within =>
      simp only [Reader.unread] at within past ⊢
      exact ⟨by omega, by omega, rfl⟩
  | past drained same =>
      rw [drained.unread]
      exact ⟨by omega, by omega, same.symm⟩

/-- The passes of `skip` follow the chunks that reading takes. -/
theorem Delivers.skips {r s2 : Reader σ} {n : Nat} (h : Delivers mem r n s2) {t : Reader σ}
    {k fuel : Nat} {ahead : List (Option UInt8)} (live : Live r ahead) (beside : Beside r t n k)
    (bound : t.r.length < fuel) :
    ∃ t2, runM (.fault .unfinished) (skipStep m mem) fuel k t = .ok () t2 ∧ Alike s2 t2 := by
  obtain ⟨fuel, rfl⟩ : ∃ f, fuel = f + 1 := ⟨fuel - 1, by omega⟩
  have avail := beside.available m live
  induction h generalizing t k fuel ahead with
  | within within =>
      obtain ⟨inside, alike⟩ := beside.within live within
      exact ⟨_, bind_ok (skipStep_within m mem avail inside), alike⟩
  | @past r s' s2 n past took rest ih =>
      obtain ⟨beyond, left, same⟩ := beside.beyond past
      have drained_r : Drained r.drain := rfl
      have drained_t : Drained t.drain := rfl
      obtain ⟨t0, takes, alike⟩ := (alike_takes mem drained_r drained_t same).ok took
      obtain ⟨k', t', skipped, landed⟩ := skips_of_takes mem takes (k - t.unread)
      have next := landed.beside.alike alike
      have drained := live.move (Nat.le_refl _)
      rw [Nat.add_sub_cancel' live.pos] at drained
      obtain ⟨live', less⟩ := (drained.takes mem (Nat.lt_irrefl _)).ok took
      have source : t.r = r.r := beside.r
      have source' : t'.r = s'.r := next.r
      simp only at less
      have bound' : t'.r.length < fuel := by
        rw [source']
        rw [source] at bound
        omega
      obtain ⟨fuel, rfl⟩ : ∃ f, fuel = f + 1 := ⟨fuel - 1, by omega⟩
      rw [left] at next
      obtain ⟨t2, run, alike2⟩ := ih live' next fuel bound' (next.available m live')
      exact ⟨t2, (bind_ok (skipStep_past m mem avail beyond skipped)).trans run, alike2⟩

/-- Skipping `n` bytes that can be read leaves a reader that is where reading and
    discarding them leads, has made the same callbacks, and goes on to read the same. -/
theorem skip_reads {b : ReaderBuilder σ} {data : List UInt8} {world : σ} {s s1 : Reader σ}
    {bytes : List UInt8} (reached : Reached m mem b data world s)
    (reads : Reads m mem s bytes s1) {n : Nat} (enough : n ≤ bytes.length) :
    ∃ t, skip m mem n s = .ok () t ∧ (∃ s2, Reads m mem s (bytes.take n) s2) ∧
      ∀ discarded s2, Reads m mem s discarded s2 → discarded.length = n →
        t.currentOffset = s2.currentOffset ∧ t.world = s2.world ∧
          ∀ lens, outcomes m mem lens t = outcomes m mem lens s2 := by
  obtain ⟨ahead, live⟩ := reached.live m mem
  have skips {s2 : Reader σ} {discarded : List UInt8} (reads : Reads m mem s discarded s2)
      (length : discarded.length = n) : ∃ t, skip m mem n s = .ok () t ∧ Alike s2 t := by
    have delivers := reads.delivers m mem live
    have start := Beside.moved (r := s) (k := discarded.length) (Nat.zero_le _)
    rw [Nat.zero_add] at start
    obtain ⟨t, run, alike⟩ := delivers.skips m mem live start (Nat.lt_succ_self _)
    refine ⟨t, ?_, alike⟩
    rw [length] at run
    exact (bind_ok (checkErr_clear live.err)).trans ((get_bind _ _).trans run)
  obtain ⟨s3, fewer⟩ := reads.take m mem live enough
  obtain ⟨t, skipped, _⟩ := skips fewer (List.length_take_of_le enough)
  refine ⟨t, skipped, ⟨s3, fewer⟩, fun discarded s2 reads length => ?_⟩
  obtain ⟨t', skipped', alike⟩ := skips reads length
  cases skipped.symm.trans skipped'
  refine ⟨alike.currentOffset.symm, (alike.field Reader.world fun _ => rfl).symm, fun lens => ?_⟩
  exact (alike_outcomes m mem (.inl alike) lens).symm

theorem reads_of_outcomes {lens : List Nat} {blocks : List (List UInt8)} {s : Reader σ}
    (h : outcomes m mem lens s = blocks.map .ok) (some : [] ∉ blocks) :
    ∃ s2, Reads m mem s blocks.flatten s2 := by
  induction lens generalizing blocks s with
  | nil =>
      rw [outcomes, eq_comm, List.map_eq_nil_iff] at h
      exact ⟨s, h ▸ .refl s⟩
  | cons len lens ih =>
      rw [outcomes] at h
      cases blocks with
      | nil =>
          split at h <;> cases h
      | cons block blocks =>
          rw [List.map_cons] at h
          rw [List.mem_cons, not_or] at some
          split at h
          · next bytes s1 run =>
              obtain ⟨same, rest⟩ := List.cons.inj h
              cases same
              obtain ⟨s2, tail⟩ := ih rest some.2
              exact ⟨s2, .step run (Ne.symm some.1) tail⟩
          · cases h
          · cases h

/-- Two streams of two bytes each. -/
def twoStreams : List UInt8 :=
  twoBytes ++ [chunkTypeEof, 1, 0, 0, 2] ++ twoBytes ++ [chunkTypeEof, 1, 0, 0, 2]

/-- Skipping into the second stream. -/
theorem skip_reads_three :
    ∃ t, skip .panics (fun _ => 0) 3 (withBuilder {} twoStreams ()) = .ok () t ∧
      (∃ s2, Reads .panics (fun _ => 0) (withBuilder {} twoStreams ()) [42, 43, 42] s2) ∧
      ∀ discarded s2,
        Reads .panics (fun _ => 0) (withBuilder {} twoStreams ()) discarded s2 →
        discarded.length = 3 →
        t.currentOffset = s2.currentOffset ∧ t.world = s2.world ∧
          ∀ lens, outcomes .panics (fun _ => 0) lens t = outcomes .panics (fun _ => 0) lens s2 := by
  have read : outcomes .panics (fun _ => 0) [5, 5] (withBuilder {} twoStreams ()) =
      [[42, 43], [42, 43]].map .ok := by decide +kernel
  obtain ⟨s1, reads⟩ := reads_of_outcomes .panics (fun _ => 0) read (by decide)
  have built : ({} : ReaderBuilder Unit).build twoStreams () = .ok (withBuilder {} twoStreams ()) :=
    rfl
  exact skip_reads .panics (fun _ => 0) (.built built) reads (by decide)

end MinLz.Stream
