import MinLz.Block.EncodeL3Correct

/-! # The smallest encoder and its slice

The encoder never looks at what it has stored. Its source alone decides which bytes a
run stores and how the run ends; of the slice only the length matters, which has to be
enough for those bytes.
-/

namespace MinLz.Block

/-- From `d` on a run stores `bs`, and what it then comes to is `out` of the slice, or it
    stores past the end of the slice. -/
def Puts {α : Type} (run : Slice → Exec α) (d : Nat) (bs : List UInt8) (out : Slice → Exec α) :
    Prop :=
  ∀ dst, d ≤ dst.len → (d + bs.length ≤ dst.len → run dst = out (dst.splice d bs)) ∧
    (dst.len < d + bs.length → StoresPast (run dst))

section Puts

variable {α β : Type} {run : Slice → Exec α} {out : Slice → Exec α} {d : Nat} {as bs : List UInt8}

theorem puts_nothing (d : Nat) (same : ∀ dst, run dst = out dst) : Puts run d [] out := by
  intro dst inside
  constructor
  · intro _
    rw [same, Slice.splice_nil]
  · intro past
    rw [List.length_nil] at past
    omega

theorem puts_of_writes {emit : Slice → Exec (Slice × Nat)}
    (writes : ∀ dst, Writes (emit dst) dst d bs) :
    Puts emit d bs (fun dst => .ok (dst, d + bs.length)) :=
  fun dst _ => ⟨(writes dst).fits, (writes dst).past⟩

/-- One store after another. -/
theorem Puts.bind {value : Slice → α} {f : α → Exec β} {out : Slice → Exec β}
    (first : Puts run d as (fun dst => .ok (value dst)))
    (next : Puts (fun dst => f (value dst)) (d + as.length) bs out) :
    Puts (fun dst => run dst >>= f) d (as ++ bs) out := by
  intro dst inside
  have assoc : d + (as ++ bs).length = d + as.length + bs.length := by
    rw [List.length_append, Nat.add_assoc]
  rw [assoc]
  by_cases fits : d + as.length ≤ dst.len
  · have later := next (dst.splice d as) (by rw [Slice.len_splice]; exact fits)
    simp only at later ⊢
    rw [(first dst inside).1 fits, ok_bind, ← Slice.splice_append]
    exact later
  · exact ⟨fun whole => by omega, fun _ => ((first dst inside).2 (Nat.lt_of_not_le fits)).bind⟩

/-- A run that stores nothing after the first store. -/
theorem Puts.andThen {value : Slice → α} {f : α → Exec β}
    (first : Puts run d as (fun dst => .ok (value dst))) :
    Puts (fun dst => run dst >>= f) d as (fun dst => f (value dst)) := by
  have rest : Puts (fun dst => f (value dst)) (d + as.length) [] (fun dst => f (value dst)) :=
    puts_nothing _ fun _ => rfl
  have whole := first.bind rest
  rwa [List.append_nil] at whole

end Puts

section Loops

open Loop

variable {σ β : Type} {step : σ → Exec (Iter σ β)} {enter : Slice → σ} {d : Nat}
  {as bs : List UInt8} {stuck : Stop}

/-- What a loop does with the outcome of one pass. -/
def proceed (stuck : Stop) (step : σ → Exec (Iter σ β)) (n : Nat) : Iter σ β → Exec β
  | .next s => run stuck step n s
  | .done b => .ok b

theorem run_succ (n : Nat) (s : σ) :
    run stuck step (n + 1) s = step s >>= proceed stuck step n := by
  rw [run]
  rcases step s with e | s' | b <;> rfl

theorem puts_done (n : Nat) {value : Slice → β}
    (last : Puts (fun dst => step (enter dst)) d bs (fun dst => .ok (.done (value dst)))) :
    Puts (fun dst => run stuck step (n + 1) (enter dst)) d bs (fun dst => .ok (value dst)) := by
  simp only [run_succ]
  exact last.andThen (f := proceed stuck step n)

theorem puts_next (n : Nat) {next : Slice → σ} {out : Slice → Exec β}
    (first : Puts (fun dst => step (enter dst)) d as (fun dst => .ok (.next (next dst))))
    (rest : Puts (fun dst => run stuck step n (next dst)) (d + as.length) bs out) :
    Puts (fun dst => run stuck step (n + 1) (enter dst)) d (as ++ bs) out := by
  simp only [run_succ]
  exact first.bind (f := proceed stuck step n) rest

end Loops

namespace L3

open Loop Effects

variable {src : Slice} {st : State}

/-- What a turn comes to when its bytes are stored. -/
inductive After where
  | finish (st : State)
  | giveUp
  | next (st : State)

def After.iter (dst : Slice) (d : Nat) :
    After → Iter (State × Slice × Nat) (Exit (State × Slice × Nat))
  | .finish st => .done (.finish (st, dst, d))
  | .giveUp => .done (.giveUp dst)
  | .next st => .next (st, dst, d)

def After.Ok (src : Slice) : After → Prop
  | .next st => Ready src st
  | _ => True

/-- What a turn does once its match is emitted: it stores nothing more. -/
def settle (src : Slice) (sLimit dstLimit : Nat) (st : State) (s offset : Nat) (r : Slice × Nat) :
    Exec (Iter (State × Slice × Nat) (Exit (State × Slice × Nat))) :=
  if s ≥ sLimit then .ok (.done (.finish ({ st with s, nextEmit := s, offset }, r.1, r.2)))
  else if r.2 > dstLimit then .ok (.done (.giveUp r.1))
  else resume src st s offset >>= fun st => .ok (.next (st, r.1, r.2))

theorem settle_ok (ready : Ready src st) {sLimit : Nat} (hs : sLimit = src.len - 10)
    (dstLimit s d : Nat) {offset : Nat} (pos : 1 ≤ offset) : ∃ after, After.Ok src after ∧
    ∀ dst, settle src sLimit dstLimit st s offset (dst, d) = .ok (after.iter dst d) := by
  simp only [settle]
  by_cases ends : s ≥ sLimit
  · exact ⟨.finish { st with s, nextEmit := s, offset }, trivial, fun dst => if_pos ends⟩
  · by_cases full : d > dstLimit
    · refine ⟨.giveUp, trivial, fun dst => ?_⟩
      rw [if_neg ends, if_pos full]
      rfl
    · obtain ⟨st', run, ready', _, _⟩ := resume_ok ready (s := s) (by omega) pos
      refine ⟨.next st', ready', fun dst => ?_⟩
      rw [if_neg ends, if_neg full, run]
      rfl

section Run

variable (bound : src.len < 2 ^ 24) {sLimit dstLimit : Nat} (hs : sLimit = src.len - 10)
  (hd : dstLimit = src.len - 5)
include bound hs hd

theorem outerStep_puts (ready : Ready src st) (d : Nat) : ∃ bs after, After.Ok src after ∧
    Puts (fun dst => outerStep src sLimit dstLimit (st, dst, d)) d bs
      (fun dst => .ok (after.iter dst (d + bs.length))) := by
  obtain ⟨t, run, ok⟩ := turn_ok bound hs hd ready d
  cases t with
  | exhausted st' =>
      exact ⟨[], .finish st', trivial, puts_nothing d fun dst => by rw [outerStep, run]; rfl⟩
  | overLimit => exact ⟨[], .giveUp, trivial, puts_nothing d fun dst => by rw [outerStep, run]; rfl⟩
  | pass st' =>
      exact ⟨[], .next st', ok.2.1, puts_nothing d fun dst => by rw [outerStep, run]; rfl⟩
  | emit st' best lits offset =>
      obtain ⟨_, ready', genuine, found, literals, rfl, _⟩ := ok
      have order := genuine.order
      have inside := genuine.inside
      have earlier := genuine.earlier
      have short : lits.length < 2 ^ 24 := by
        rw [literals, Slice.length_list]
        omega
      have emitted := puts_of_writes fun dst => emitBest_writes genuine found lits dst d short
      obtain ⟨after, ok, same⟩ := settle_ok ready' hs dstLimit
        (best.s + takenLength best lits.length (best.s - best.offset))
        (d + (bestBytes best lits (best.s - best.offset)).length)
        (show 1 ≤ best.s - best.offset by omega)
      have step := emitted.andThen (f := settle src sLimit dstLimit st'
        (best.s + takenLength best lits.length (best.s - best.offset)) (best.s - best.offset))
      simp only [same] at step
      refine ⟨bestBytes best lits (best.s - best.offset), after, ok, fun dst inside => ?_⟩
      have shape : outerStep src sLimit dstLimit (st, dst, d) =
          emitBest dst d best lits (best.s - best.offset) >>= settle src sLimit dstLimit st'
            (best.s + takenLength best lits.length (best.s - best.offset))
            (best.s - best.offset) := by
        rw [outerStep, run]
        rfl
      simp only [shape]
      exact step dst inside

/-- A run stores what its source decides on, and ends as its source decides. -/
theorem run_puts (n : Nat) : ∀ st d, Ready src st → ∃ bs, ∃ out : Slice → Exec _,
    Puts (fun dst => run (.fault .unfinished) (outerStep src sLimit dstLimit) n (st, dst, d)) d bs
      out ∧ ((∀ dst, out dst = .error (.fault .unfinished)) ∨
        (∀ dst, out dst = .ok (.giveUp dst)) ∨
        ∃ st', ∀ dst, out dst = .ok (.finish (st', dst, d + bs.length))) := by
  induction n with
  | zero => exact fun st d _ => ⟨[], _, puts_nothing d fun dst => rfl, .inl fun dst => rfl⟩
  | succ n ih =>
      intro st d ready
      obtain ⟨as, after, ok, step⟩ := outerStep_puts bound hs hd ready d
      cases after with
      | finish st' =>
          exact ⟨as, _, puts_done n step, .inr (.inr ⟨st', fun dst => rfl⟩)⟩
      | giveUp => exact ⟨as, _, puts_done n step, .inr (.inl fun dst => rfl)⟩
      | next st' =>
          obtain ⟨bs, out, rest, ends⟩ := ih st' (d + as.length) ok
          refine ⟨as ++ bs, out, puts_next n step rest, ?_⟩
          rw [List.length_append, ← Nat.add_assoc]
          exact ends

end Run

/-- The bytes that the encoder stores, and what it returns: their number or zero. -/
theorem inner_puts (bound : src.len < 2 ^ 24) (long : 16 ≤ src.len) : ∃ bs n,
    (n = 0 ∨ n = bs.length) ∧ Puts (fun dst => inner dst src) 0 bs (fun dst => .ok (dst, n)) := by
  obtain ⟨bs, out, puts, ends⟩ := run_puts bound rfl rfl ((src.len + 1) * (src.len + 1)) _ 0
    (ready_first long)
  rcases ends with stuck | gave | ⟨st, finished⟩
  · -- with room enough the loop is known to end
    let roomy : Slice := ⟨bs.length + src.len + 6, fun _ => 0⟩
    have loops := (puts roomy (Nat.zero_le _)).1 (by simp only [roomy]; omega)
    have failed : inner roomy src = .error (.fault .unfinished) := by
      simp only [stuck] at loops
      rw [inner_eq roomy long, loops]
      rfl
    have short := ((inner_ok bound long rfl).error failed).1
    simp only [roomy] at short
    omega
  · obtain rfl : out = fun dst => .ok (.giveUp dst) := funext gave
    refine ⟨bs, 0, .inl rfl, ?_⟩
    rw [funext fun dst => inner_eq dst long]
    exact puts.andThen (f := conclude src)
  · obtain rfl : out = fun dst => .ok (.finish (st, dst, 0 + bs.length)) := funext finished
    rw [funext fun dst => inner_eq dst long]
    have whole := puts.andThen (f := conclude src)
    by_cases more : st.nextEmit < src.len
    · by_cases full : 0 + bs.length + (src.len - st.nextEmit) +
          emitLiteralSizeN (src.len - st.nextEmit) > src.len - 5
      · simp only [conclude, if_pos more, if_pos full] at whole
        exact ⟨bs, 0, .inl rfl, whole⟩
      · generalize literals : src.list st.nextEmit (src.len - st.nextEmit) = lits
        have short : lits.length < 2 ^ 24 + 30 := by
          rw [← literals, Slice.length_list]
          omega
        have last := puts_of_writes fun dst => emitLiteral_writes dst (0 + bs.length) short
        have same (dst : Slice) : conclude src (.finish (st, dst, 0 + bs.length)) =
            emitLiteral dst (0 + bs.length) lits := by
          rw [conclude, if_pos more, if_neg full, range_ok more.le le_rfl, ok_bind, literals]
        have total : (bs ++ literalBytes lits).length =
            0 + bs.length + (literalBytes lits).length := by
          rw [List.length_append, Nat.zero_add]
        refine ⟨bs ++ literalBytes lits, _, .inr rfl, ?_⟩
        rw [total]
        refine puts.bind ?_
        simp only [same]
        exact last
    · simp only [conclude, if_neg more] at whole
      exact ⟨bs, _, .inr (Nat.zero_add _), whole⟩

end L3

end MinLz.Block
