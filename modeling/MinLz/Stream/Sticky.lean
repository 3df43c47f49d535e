import MinLz.Stream.Skip

/-! # Errors that stay

A reader keeps an error and returns it again, unless a chunk header has been cut short.
That error is not kept, and the next call finds the source at its end. So the errors stay
exactly for the readers that do not come to such a header.
-/

namespace MinLz.Stream

open Machine (Overflow)
open Effects

variable {σ : Type} (m : Overflow) (mem : Nat → UInt8)

/-- A call to which a reader with an error has to answer with an error. -/
def Call.Asks : Call → Prop
  | .read len => 0 < len
  | .fillBuf => True
  | .consume _ => False
  | .skip _ => True

/-- What the calls give, whether they fail or not; a panic ends them. -/
def answers : List Call → Reader σ → List (Except (Stop IoError) (List UInt8))
  | [], _ => []
  | call :: calls, s =>
      match call.run m mem s with
      | .ok bytes s' => .ok bytes :: answers calls s'
      | .error (.error e) s' => .error (.error e) :: answers calls s'
      | .error (.fault f) _ => [.error (.fault f)]

/-- What a call leaves of a reader, whether it fails or not. -/
def Call.after (call : Call) (s : Reader σ) : Reader σ :=
  match call.run m mem s with
  | .ok _ s' => s'
  | .error _ s' => s'

/-- Once a call has failed, all later ones do. -/
def ErrorsStay (s : Reader σ) : Prop :=
  ∀ calls, (∀ call ∈ calls, call.Asks) → ∀ before e after,
    answers m mem calls s = before ++ .error (.error e) :: after →
    ∀ answer ∈ after, ∃ e, answer = .error (.error e)

/-- Past chunks that skipping accepts there is a header that is cut short. -/
inductive CutAhead : Reader σ → Prop where
  | here {s : Reader σ} (cut : HeaderCut s) : CutAhead s
  | past {s t : Reader σ} {kind b0 b1 b2 : UInt8} {body : List UInt8} {n left : Nat}
      (head : s.r = kind :: b0 :: b1 :: b2 :: body) (placed : ¬Misplaced s kind)
      (passed : skipChunk mem (s.settle.headed kind body) kind (readChunkLen b0 b1 b2) n =
        .ok (left, t))
      (rest : CutAhead t) : CutAhead s

theorem CutAhead.settle {s t : Reader σ} (h : CutAhead mem s) (same : s.settle = t.settle) :
    CutAhead mem t := by
  have source : s.settle.r = t.settle.r := congrArg Reader.r same
  have expects : s.settle.expectEof = t.settle.expectEof := congrArg Reader.expectEof same
  have known : s.settle.headerRead = t.settle.headerRead := congrArg Reader.headerRead same
  change s.r = t.r at source
  change s.expectEof = t.expectEof at expects
  change s.headerRead = t.headerRead at known
  cases h with
  | here cut =>
      rw [HeaderCut, source, expects] at cut
      exact .here cut
  | past head placed passed rest =>
      rw [Misplaced, known] at placed
      exact .past (source ▸ head) placed (same ▸ passed) rest

theorem skipChunk_settles (n : Nat) :
    Settles fun (s : Reader σ) kind len => skipChunk mem s kind len n := by
  intro kind
  by_cases block : HasBlock kind
  · left
    intro s len
    simp only [skipChunk, if_pos block, loaded_settle, dropped_settle]
    rfl
  · right
    intro s len
    simp only [skipChunk, if_neg block, otherChunk_settle]
    refine ⟨by cases otherChunk s kind len <;> rfl, fun a s' run drained => ?_⟩
    obtain ⟨s1, other, run⟩ := bind_eq_ok run
    cases run
    exact otherChunk_drained block other drained

theorem CutAhead.skipped {s t : Reader σ} {kind b0 b1 b2 : UInt8} {body : List UInt8} {n left : Nat}
    (head : s.r = kind :: b0 :: b1 :: b2 :: body) (placed : ¬Misplaced s kind)
    (passed : skipChunk mem (s.headed kind body) kind (readChunkLen b0 b1 b2) n = .ok (left, t))
    (rest : CutAhead mem t) : CutAhead mem s := by
  rcases skipChunk_settles mem n kind with blind | passes
  · exact .past head placed ((blind _ _).trans passed) rest
  · have settled := (passes (s.headed kind body) (readChunkLen b0 b1 b2)).1
    simp only [passed] at settled
    exact .past head placed settled (rest.settle mem (settle_settle t).symm)

theorem Beside.settle {r t : Reader σ} {n k : Nat} (h : Beside r t n k) : t.settle = r.settle := by
  cases h with
  | moved => rfl
  | past _ same => exact same

/-- A failure leaves an error that stays; a panic ends the run. -/
def Keeps (e : Stop IoError) (s : Reader σ) : Prop := (∃ f, e = .fault f) ∨ s.err ≠ none

theorem keeps_takes {s : Reader σ} (clear : ¬CutAhead mem s) :
    Runs (nextChunk (handleCompressedChunk mem) handleUncompressedChunk ()) s
      (fun _ s' => ¬CutAhead mem s') Keeps := by
  have turn := turn_nextChunk (dispatch_read_ends mem) (readChunk_exits mem) s
  cases run : nextChunk (handleCompressedChunk mem) handleUncompressedChunk () s with
  | error e s' =>
      rw [run] at turn
      refine runs_error run (.inr ?_)
      cases turn with
      | short cut => exact absurd (.here cut) clear
      | refused kept => exact kept ▸ Option.some_ne_none _
  | ok got s' =>
      rw [run] at turn
      refine runs_ok run ?_
      cases turn with
      | ends => exact clear
      | took head accepts placed =>
          obtain ⟨left, t, passed, landed⟩ := skipChunk_of_read mem accepts 0
          intro ahead
          exact clear (.skipped mem head placed passed (ahead.settle mem landed.beside.settle.symm))

theorem keeps_skips {s : Reader σ} (clear : ¬CutAhead mem s) (n : Nat) :
    Runs (nextChunk (skipCompressedOrDecode mem · · n) (skipUncompressedOrDecode · n) n) s
      (fun _ s' => ¬CutAhead mem s') Keeps := by
  have turn : Turn (fun s kind len => skipChunk mem s kind len n) s _ := turn_nextChunk
    (fun kind len s => dispatch_skip_ends mem kind len n s)
    (fun s kind len => skipChunk_exits mem s kind len n) s
  cases run : nextChunk (skipCompressedOrDecode mem · · n) (skipUncompressedOrDecode · n) n s with
  | error e s' =>
      rw [run] at turn
      refine runs_error run (.inr ?_)
      cases turn with
      | short cut => exact absurd (.here cut) clear
      | refused kept => exact kept ▸ Option.some_ne_none _
  | ok got s' =>
      rw [run] at turn
      refine runs_ok run ?_
      cases turn with
      | ends => exact clear
      | took head accepts placed => exact clear ∘ .skipped mem head placed accepts

theorem available_faults {s : Reader σ} {e : Stop IoError} (h : available m s = .error e) :
    ∃ f, e = .fault f := by
  rw [available] at h
  cases run : m.unsigned (s.decoded.length - s.decodedPos) with
  | none =>
      rw [run] at h
      cases h
      exact ⟨_, rfl⟩
  | some n =>
      rw [run] at h
      cases h

theorem available_runs {s : Reader σ} : Runs (liftM (available m s) : Action σ Nat) s
    (fun _ s' => s' = s) Keeps := by
  refine runs_lift ?_
  cases run : available m s with
  | ok a => exact exits_ok rfl
  | error e => exact exits_error (.inl (available_faults m run))

theorem keeps_fill {s : Reader σ} (clear : ¬CutAhead mem s) :
    Runs (fillDecoded mem) s (fun _ s' => ¬CutAhead mem s') Keeps := by
  refine Runs.step rfl ?_
  refine runs_loop (fun _ s => ¬CutAhead mem s) (fun _ _ _ => .inl ⟨_, rfl⟩) ?_ clear
  rintro _ s clear
  refine Runs.step rfl ?_
  split
  · exact runs_pure clear
  · refine (keeps_takes mem clear).bind fun got s' kept => ?_
    cases got with
    | none => exact runs_pure kept
    | some _ => exact runs_pure kept

/-- Errors have stayed so far, or none has been met and none is ahead that does not. -/
def Steady (s : Reader σ) : Prop := s.err ≠ none ∨ ¬CutAhead mem s

theorem keeps_read {s : Reader σ} (clear : ¬CutAhead mem s) (fresh : s.err = none) (len : Nat) :
    Runs (read m mem len) s (fun _ s' => ¬CutAhead mem s') Keeps := by
  refine Runs.step (checkErr_clear fresh) ?_
  split
  · exact runs_pure clear
  · refine (keeps_fill mem clear).bind fun more s' clear => ?_
    cases more with
    | false => exact runs_pure clear
    | true =>
        refine Runs.step rfl ((available_runs m).bind ?_)
        rintro _ _ rfl
        exact Runs.step rfl (runs_pure fun ahead => clear (ahead.settle mem rfl))

theorem keeps_fillBuf {s : Reader σ} (clear : ¬CutAhead mem s) (fresh : s.err = none) :
    Runs (fillBuf mem) s (fun _ s' => ¬CutAhead mem s') Keeps := by
  refine Runs.step (checkErr_clear fresh) ?_
  refine (keeps_fill mem clear).bind fun more s' clear => ?_
  cases more with
  | false => exact runs_pure clear
  | true => exact Runs.step rfl (runs_pure clear)

theorem keeps_skip {s : Reader σ} (clear : ¬CutAhead mem s) (fresh : s.err = none) (n : Nat) :
    Runs (skip m mem n) s (fun _ s' => ¬CutAhead mem s') Keeps := by
  refine Runs.step (checkErr_clear fresh) (Runs.step rfl ?_)
  refine runs_loop (fun _ s => ¬CutAhead mem s) (fun _ _ _ => .inl ⟨_, rfl⟩) ?_ clear
  intro k s clear
  rw [skipStep]
  split
  · exact runs_pure clear
  · refine Runs.step rfl ((available_runs m).bind fun avail s' same => ?_)
    subst same
    split
    · exact Runs.step rfl (runs_pure fun ahead => clear (ahead.settle mem rfl))
    · have drained : ¬CutAhead mem { s' with decodedPos := s'.decoded.length } :=
        fun ahead => clear (ahead.settle mem rfl)
      refine Runs.step rfl ((keeps_skips mem drained _).bind fun got s' kept => ?_)
      cases got with
      | none => exact runs_error rfl (.inr (Option.some_ne_none _))
      | some _ => exact runs_pure kept

theorem failed_ask {s : Reader σ} {e : IoError} (failed : s.err = some e) {call : Call}
    (asks : call.Asks) : call.run m mem s = .error (.error e) s := by
  have check := checkErr_failed failed
  cases call with
  | read len => exact bind_error check
  | fillBuf => exact bind_error check
  | consume amt => exact asks.elim
  | skip n => exact bind_error (bind_error check)

theorem Steady.run {s : Reader σ} (h : Steady mem s) {call : Call} (asks : call.Asks) :
    Runs (call.run m mem) s (fun _ s' => Steady mem s') Keeps := by
  cases failed : s.err with
  | some e =>
      exact runs_error (failed_ask m mem failed asks) (.inr (failed ▸ Option.some_ne_none _))
  | none =>
      have clear : ¬CutAhead mem s := h.resolve_left (· failed)
      cases call with
      | read len =>
          exact (keeps_read m mem clear failed len).mono (fun _ _ h => .inr h) fun _ _ h => h
      | fillBuf =>
          exact (keeps_fillBuf mem clear failed).mono (fun _ _ h => .inr h) fun _ _ h => h
      | consume amt => exact asks.elim
      | skip n => exact (keeps_skip m mem clear failed n).bind fun _ _ h => runs_pure (.inr h)

/-- A reader with a sticky error answers with errors only. -/
theorem answers_failed {s : Reader σ} {e : IoError} (failed : s.err = some e) {calls : List Call}
    (asks : ∀ call ∈ calls, call.Asks) :
    ∀ answer ∈ answers m mem calls s, ∃ e, answer = .error (.error e) := by
  induction calls with
  | nil => exact fun _ none => absurd none List.not_mem_nil
  | cons call calls ih =>
      rw [List.forall_mem_cons] at asks
      rw [answers, failed_ask m mem failed asks.1]
      exact List.forall_mem_cons.mpr ⟨⟨e, rfl⟩, ih asks.2⟩

theorem Steady.stay {s : Reader σ} (h : Steady mem s) : ErrorsStay m mem s := by
  intro calls asks before e after ran
  induction calls generalizing s before with
  | nil => exact absurd ran (by simp [answers])
  | cons call calls ih =>
      rw [answers] at ran
      rw [List.forall_mem_cons] at asks
      have step := h.run m mem asks.1
      cases run : call.run m mem s with
      | ok bytes s' =>
          rw [run] at ran
          cases before with
          | nil => cases (List.cons.inj ran).1
          | cons first before => exact ih (step.ok run) asks.2 before (List.cons.inj ran).2
      | error stop s' =>
          have kept := step.error run
          rw [run] at ran
          cases stop with
          | fault f =>
              cases before with
              | nil => cases (List.cons.inj ran).1
              | cons first before =>
                  exact absurd (List.cons.inj ran).2.symm (List.append_ne_nil_of_right_ne_nil _
                    (List.cons_ne_nil _ _))
          | error e' =>
              have failed : s'.err ≠ none := kept.resolve_left (by rintro ⟨f, h⟩; cases h)
              obtain ⟨e', some⟩ := Option.ne_none_iff_exists'.mp failed
              have later := answers_failed m mem some asks.2
              cases before with
              | nil =>
                  obtain ⟨_, rfl⟩ := List.cons.inj ran
                  exact later
              | cons first before =>
                  have tail := (List.cons.inj ran).2
                  intro answer mem
                  exact later answer (tail ▸ by simp [mem])

/-- What skipping accepts at the end of one block it also accepts when it has farther to go,
    at the end of another. -/
theorem skips_farther {s t : Reader σ} {kind : UInt8} {len n left : Nat}
    (passed : skipChunk mem s.settle kind len n = .ok (left, t)) :
    ∃ d, ∀ u : Reader σ, u.settle = s.settle → Drained u →
      ∀ k, ∃ u', skipChunk mem u kind len (d + k) = .ok (k, u') ∧ Drained u' ∧
        u'.settle = t.settle := by
  by_cases block : HasBlock kind
  · rw [skipChunk, if_pos block] at passed
    obtain ⟨⟨dlen, c, rest⟩, framed, passed⟩ := bind_eq_ok passed
    obtain ⟨took, long, length, _⟩ := frame_ok block framed
    obtain ⟨rfl, _⟩ := takeBody_ok took
    have settled : t.settle = s.dropped dlen rest := by
      simp only at passed
      split at passed
      · obtain ⟨out, unpacked, passed⟩ := bind_eq_ok passed
        cases passed
        have accepted := unpack_ok mem block long unpacked
        have size : out.length = dlen :=
          (Chunk.length_block (Option.filter_eq_some_iff.mp accepted).1).trans length
        rw [settle_loaded, size, dropped_settle]
      · cases passed
        rw [dropped_drop, dropped_settle]
    refine ⟨dlen, fun u same _ k => ⟨u.dropped dlen rest, ?_, rfl, ?_⟩⟩
    · have framed' : frame u.settle c.kind len = .ok (dlen, c, rest) := same ▸ framed
      have framed' : frame u c.kind len = .ok (dlen, c, rest) := framed'
      rw [skipChunk, if_pos block, framed']
      have whole : ¬dlen > dlen + k := by omega
      refine (if_neg whole).trans ?_
      rw [Nat.add_sub_cancel_left]
      rfl
    · rw [dropped_drop, settled, ← dropped_settle u, same, dropped_settle]
  · refine ⟨0, fun u same drained k => ?_⟩
    rw [← same, skipChunk, if_neg block, otherChunk_settle] at passed
    rw [skipChunk, if_neg block, Nat.zero_add]
    cases other : otherChunk u kind len with
    | error e =>
        rw [other] at passed
        cases passed
    | ok u' =>
        rw [other] at passed
        cases passed
        exact ⟨u', rfl, otherChunk_drained block other drained, (settle_settle u').symm⟩

theorem skipStep_cut {t : Reader σ} (avail : available m t = .ok t.unread) {k : Nat}
    (past : t.unread < k) (cut : HeaderCut t.drain) :
    skipStep m mem k t = .error (.error Error.corrupt.toIo) { t.drain with r := [] } := by
  rw [skipStep, if_neg (by omega)]
  refine (get_bind _ _).trans ((bind_ok (lift_ok avail)).trans ?_)
  rw [if_neg (by omega)]
  have failed : nextChunk (skipCompressedOrDecode mem · · (k - t.unread))
      (skipUncompressedOrDecode · (k - t.unread)) (k - t.unread) t.drain = _ :=
    (nextChunk_short cut.1).trans (if_neg cut.2)
  exact (bind_ok rfl).trans (bind_error failed)

/-- Skipping past the chunks comes to the cut header, and its error is not kept. -/
theorem CutAhead.fails {s : Reader σ} (h : CutAhead mem s) :
    ∃ k, 0 < k ∧ ∀ (t : Reader σ) ahead fuel, t.settle = s.settle → Live t ahead →
      t.r.length < fuel →
      ∃ e t', runM (.fault .unfinished) (skipStep m mem) fuel (t.unread + k) t =
        .error (.error e) t' ∧ t'.err = none := by
  induction h with
  | @here s cut =>
      refine ⟨1, Nat.one_pos, fun t ahead fuel same live bound => ?_⟩
      have source : t.settle.r = s.settle.r := congrArg Reader.r same
      have expects : t.settle.expectEof = s.settle.expectEof := congrArg Reader.expectEof same
      have cut' : HeaderCut t.drain := by
        change s.r.length < _ ∧ ¬(s.r = [] ∧ s.expectEof = false) at cut
        change t.r.length < _ ∧ ¬(t.r = [] ∧ t.expectEof = false)
        change t.r = s.r at source
        change t.expectEof = s.expectEof at expects
        rwa [source, expects]
      obtain ⟨fuel, rfl⟩ : ∃ f, fuel = f + 1 := ⟨fuel - 1, by omega⟩
      have avail := available_ok m live.pos live.small
      exact ⟨_, _, bind_error (skipStep_cut m mem avail (Nat.lt_succ_self _) cut'), live.err⟩
  | @past s t1 kind b0 b1 b2 body n left head placed passed rest ih =>
      obtain ⟨k, positive, fails⟩ := ih
      have passed : skipChunk mem (s.headed kind body).settle kind (readChunkLen b0 b1 b2) n =
        .ok (left, t1) := passed
      obtain ⟨d, farther⟩ := skips_farther mem passed
      refine ⟨d + k, by omega, fun t ahead fuel same live bound => ?_⟩
      have head' : t.settle.r = kind :: b0 :: b1 :: b2 :: body := same ▸ head
      have placed' : ¬Misplaced t.settle kind := same ▸ placed
      have headed : (t.drain.headed kind body).settle = (s.headed kind body).settle :=
        congrArg (Reader.headed · kind body) same
      obtain ⟨t', skipped, drained, settled⟩ := farther _ headed rfl k
      have chunk := dispatch_skip_ends mem kind (readChunkLen b0 b1 b2) (d + k)
        (t.drain.headed kind body)
      rw [skipped] at chunk
      have took : nextChunk (skipCompressedOrDecode mem · · (d + k))
          (skipUncompressedOrDecode · (d + k)) (d + k) t.drain = .ok (some k) t' := by
        refine (nextChunk_header (s := t.drain) head').trans ?_
        rw [if_neg (show ¬Misplaced t.drain kind from placed')]
        exact map_ok (sticky_ok chunk.run_ok)
      have moved := live.move (Nat.le_refl (t.decoded.length - t.decodedPos))
      rw [Nat.add_sub_cancel' live.pos] at moved
      obtain ⟨⟨ahead', live', _⟩, less⟩ := (moved.skips mem (Nat.lt_irrefl _) (d + k)).ok took
      have less : t'.r.length < t.r.length := less
      obtain ⟨fuel, rfl⟩ : ∃ f, fuel = f + 1 := ⟨fuel - 1, by omega⟩
      have step := skipStep_past m mem (available_ok m live.pos live.small)
        (show t.unread < t.unread + (d + k) by omega) (by rwa [Nat.add_sub_cancel_left])
      obtain ⟨e, t2, failed, clear⟩ := fails t' ahead' fuel settled live' (by omega)
      rw [drained.unread, Nat.zero_add] at failed
      exact ⟨e, t2, (bind_ok step).trans failed, clear⟩

theorem skip_zero {s : Reader σ} (clear : s.err = none) : skip m mem 0 s = .ok () s := by
  refine (bind_ok (checkErr_clear clear)).trans ((get_bind _ _).trans ?_)
  rfl

/-- Errors stay exactly for the readers that do not come to a cut header, wherever
    successful calls have led them. -/
theorem errors_stay_iff {b : ReaderBuilder σ} {data : List UInt8} {world : σ} {s : Reader σ}
    (reached : Reached m mem b data world s) : ErrorsStay m mem s ↔ ¬CutAhead mem s := by
  refine ⟨fun stay ahead => ?_, fun clear => Steady.stay m mem (.inr clear)⟩
  obtain ⟨_, live⟩ := reached.live m mem
  obtain ⟨k, _, fails⟩ := ahead.fails m mem
  obtain ⟨e, s', failed, clear⟩ := fails s _ _ rfl live (Nat.lt_succ_self _)
  have first : Call.run m mem (.skip (s.unread + k)) s = .error (.error e) s' :=
    bind_error ((bind_ok (checkErr_clear live.err)).trans ((get_bind _ _).trans failed))
  have second : Call.run m mem (.skip 0) s' = .ok [] s' := bind_ok (skip_zero m mem clear)
  have ran : answers m mem [.skip (s.unread + k), .skip 0] s =
      [] ++ .error (.error e) :: [.ok []] := by
    simp only [answers, first, second]
    rfl
  have asks : ∀ call ∈ [Call.skip (s.unread + k), .skip 0], call.Asks := by
    simp [Call.Asks]
  obtain ⟨_, impossible⟩ := stay _ asks _ _ _ ran _ (List.mem_singleton.mpr rfl)
  cases impossible

theorem Reached.answered {b : ReaderBuilder σ} {data : List UInt8} {world : σ} {s : Reader σ}
    (before : Reached m mem b data world s) {call : Call} {bytes : List UInt8}
    (ran : answers m mem [call] s = [.ok bytes]) :
    Reached m mem b data world (call.after m mem s) := by
  cases run : call.run m mem s with
  | ok bytes s' =>
      rw [Call.after, run]
      exact .step before run
  | error e s' =>
      rw [answers, run] at ran
      cases e <;> cases ran

/-- A chunk without a block that is refused is as far as skipping comes. -/
theorem not_cutAhead {s : Reader σ} {kind b0 b1 b2 : UInt8} {body : List UInt8}
    (head : s.r = kind :: b0 :: b1 :: b2 :: body) (other : ¬HasBlock kind)
    (refused : (otherChunk (s.settle.headed kind body) kind (readChunkLen b0 b1 b2)).toOption = none) :
    ¬CutAhead mem s := by
  intro ahead
  cases ahead with
  | here cut =>
      rw [HeaderCut, head] at cut
      exact absurd cut.1 (by simp [chunkHeaderSize])
  | past head' _ passed _ =>
      cases head.symm.trans head'
      rw [skipChunk, if_neg other] at passed
      obtain ⟨t, took, _⟩ := bind_eq_ok passed
      rw [took] at refused
      cases refused

/-- A whole stream of two bytes and one byte more. -/
def strayByte : List UInt8 := twoBytes ++ [chunkTypeEof, 1, 0, 0, 2] ++ [0]

/-- The error for the stray byte is followed by a clean end. -/
theorem error_forgotten :
    ¬ErrorsStay .panics (fun _ => 0) (withBuilder {} strayByte ()) := by
  intro stay
  have ran : answers .panics (fun _ => 0) [.read 5, .read 5, .read 5]
      (withBuilder {} strayByte ()) =
      [.ok [42, 43]] ++ .error (.error Error.corrupt.toIo) :: [.ok []] := by decide +kernel
  have asks : ∀ call ∈ [Call.read 5, .read 5, .read 5], call.Asks := by simp [Call.Asks]
  obtain ⟨_, impossible⟩ := stay _ asks _ _ _ ran _ (List.mem_singleton.mpr rfl)
  cases impossible

/-- A stream of two bytes that claims three, one of them read. -/
def wrongTotal : Reader Unit :=
  (Call.read 1).after .panics (fun _ => 0)
    (withBuilder {} (twoBytes ++ [chunkTypeEof, 1, 0, 0, 3]) ())

theorem errors_stay_iff_total :
    ErrorsStay .panics (fun _ => 0) wrongTotal ∧
      answers .panics (fun _ => 0) [.read 5, .read 5, .fillBuf, .skip 0] wrongTotal =
        .ok [43] :: List.replicate 3 (.error (.error Error.corrupt.toIo)) := by
  have ran : answers .panics (fun _ => 0) [.read 1]
      (withBuilder {} (twoBytes ++ [chunkTypeEof, 1, 0, 0, 3]) ()) = [.ok [42]] := by
    decide +kernel
  have reached : Reached .panics (fun _ => 0) {} (twoBytes ++ [chunkTypeEof, 1, 0, 0, 3]) ()
      wrongTotal := Reached.answered .panics (fun _ => 0) (.built rfl) ran
  have head : wrongTotal.r = chunkTypeEof :: 1 :: 0 :: 0 :: [3] := by decide +kernel
  have clear : ¬CutAhead (fun _ => 0) wrongTotal :=
    not_cutAhead (fun _ => 0) head (by decide) (by decide +kernel)
  exact ⟨(errors_stay_iff .panics (fun _ => 0) reached).mpr clear, by decide +kernel⟩

end MinLz.Stream
