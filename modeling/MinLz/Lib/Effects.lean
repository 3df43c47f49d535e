import MinLz.Lib.Loop

/-! # Computations that may fail and keep their state

A failing step of a stateful computation leaves the state as it is at that point.
`Runs x s Q E` says how a run ends: with a value and a state that satisfy `Q`, or
with a failure and a state that satisfy `E`. `Exits` is the same without a state.
-/

namespace Effects

variable {ε σ α β : Type}

def Exits (r : Except ε α) (Q : α → Prop) (E : ε → Prop) : Prop :=
  match r with
  | .ok a => Q a
  | .error e => E e

def Runs (x : EStateM ε σ α) (s : σ) (Q : α → σ → Prop) (E : ε → σ → Prop) : Prop :=
  match x s with
  | .ok a s' => Q a s'
  | .error e s' => E e s'

/-- The run gives this value and state, or fails in this way with any state. -/
def Ends (x : EStateM ε σ α) (s : σ) (o : Except ε (α × σ)) : Prop :=
  match o with
  | .ok (a, s') => x s = .ok a s'
  | .error e => ∃ s', x s = .error e s'

/-- Two runs end alike: with one value and states that `R` relates, or with one failure
    and states that `S` relates. -/
def Agree (x y : EStateM ε σ α) (s t : σ) (R : α → σ → σ → Prop) (S : σ → σ → Prop) : Prop :=
  match x s, y t with
  | .ok a s', .ok b t' => a = b ∧ R a s' t'
  | .error e s', .error f t' => e = f ∧ S s' t'
  | _, _ => False

/-- `Loop.run` for a body that also has a state. -/
def runM {τ : Type} (stuck : ε) (body : τ → EStateM ε σ (Loop.Iter τ β)) :
    Nat → τ → EStateM ε σ β
  | 0, _ => throw stuck
  | n + 1, t => do
    match ← body t with
    | .next t' => runM stuck body n t'
    | .done b => return b

instance liftExcept : MonadLift (Except ε) (EStateM ε σ) where
  monadLift x := fun s => match x with
    | .ok a => .ok a s
    | .error e => .error e s

/-- Every run moves the state along `R`, and along `S` if it fails. -/
def Moves (R S : σ → σ → Prop) (x : EStateM ε σ α) : Prop :=
  ∀ s, Runs x s (fun _ s' => R s s') fun _ s' => S s s'

/-- Moves along `R` and then along `S` compose. -/
structure Flow (R S : σ → σ → Prop) : Prop where
  refl : ∀ s, R s s
  trans : ∀ {s t u}, R s t → R t u → R s u
  fails : ∀ s, S s s
  later : ∀ {s t u}, R s t → S t u → S s u

/-- From a state in `I` the run of `y` on its image is that of `x`, which stays in `I`,
    unless `x` breaks down. -/
def Mirrors {τ : Type} (image : σ → τ) (I B : σ → Prop) (x : EStateM ε σ α) (y : EStateM ε τ α)
    (s : σ) : Prop :=
  match x s with
  | .ok a s' => y (image s) = .ok a (image s') ∧ I s'
  | .error e s' => B s' ∨ y (image s) = .error e (image s') ∧ I s'

section Exits

variable {Q P : α → Prop} {E F : ε → Prop}

theorem exits_ok {a : α} (h : Q a) : Exits (.ok a) Q E := h

theorem exits_error {e : ε} (h : E e) : Exits (.error e) Q E := h

theorem Exits.mono {r : Except ε α} (h : Exits r P F) (ok : ∀ a, P a → Q a)
    (error : ∀ e, F e → E e) : Exits r Q E := by
  cases r with
  | ok a => exact ok a h
  | error e => exact error e h

theorem Exits.bind {r : Except ε α} {f : α → Except ε β} {Q : β → Prop} (h : Exits r P E)
    (next : ∀ a, P a → Exits (f a) Q E) : Exits (r >>= f) Q E := by
  cases r with
  | ok a => exact next a h
  | error e => exact h

theorem bind_eq_ok {r : Except ε α} {f : α → Except ε β} {b : β} (h : r >>= f = .ok b) :
    ∃ a, r = .ok a ∧ f a = .ok b := by
  cases r with
  | ok a => exact ⟨a, rfl, h⟩
  | error e => cases h

theorem Exits.of_returns {r : Except ε α} (h : Loop.Returns r Q) : Exits r Q E := by
  obtain ⟨a, rfl, ha⟩ := h
  exact ha

theorem Exits.ok {r : Except ε α} {a : α} (h : Exits r Q E) (run : r = .ok a) : Q a := by
  subst run
  exact h

theorem Exits.error {r : Except ε α} {e : ε} (h : Exits r Q E) (run : r = .error e) : E e := by
  subst run
  exact h

/-- A loop that keeps `inv` and lowers the measure until it ends or fails. -/
theorem exits_run {β σ : Type} {stuck : ε} {step : σ → Except ε (Loop.Iter σ β)} (inv : σ → Prop)
    (measure : σ → Nat) {Q : β → Prop}
    (body : ∀ s, inv s → Exits (step s) (Loop.Pass inv measure Q s) E) {n : Nat} {s : σ}
    (start : inv s) (bound : measure s < n) : Exits (Loop.run stuck step n s) Q E := by
  apply Loop.run_rule inv measure (fun r => Exits r Q E) ?_ n s start bound
  intro s hs
  have pass := body s hs
  cases run : step s with
  | error e => exact pass.error run
  | ok r =>
      have kept := pass.ok run
      cases r with
      | next s' => exact kept
      | done b => exact kept

end Exits

section Runs

variable {Q P : α → σ → Prop} {E F : ε → σ → Prop} {s : σ}

theorem Runs.mono {x : EStateM ε σ α} (h : Runs x s P F) (ok : ∀ a s', P a s' → Q a s')
    (error : ∀ e s', F e s' → E e s') : Runs x s Q E := by
  unfold Runs at h ⊢
  cases run : x s with
  | ok a s' =>
      rw [run] at h
      exact ok a s' h
  | error e s' =>
      rw [run] at h
      exact error e s' h

theorem Runs.bind {x : EStateM ε σ α} {f : α → EStateM ε σ β} {Q : β → σ → Prop}
    (h : Runs x s P E) (next : ∀ a s', P a s' → Runs (f a) s' Q E) : Runs (x >>= f) s Q E := by
  unfold Runs at h
  cases run : x s with
  | ok a s' =>
      rw [run] at h
      have tail := next a s' h
      unfold Runs at tail ⊢
      rwa [show (x >>= f) s = f a s' by simp only [Bind.bind, EStateM.bind, run]]
  | error e s' =>
      rw [run] at h
      unfold Runs
      rwa [show (x >>= f) s = .error e s' by simp only [Bind.bind, EStateM.bind, run]]

theorem Runs.and {x : EStateM ε σ α} (h : Runs x s Q E) (h' : Runs x s P F) :
    Runs x s (fun a s' => Q a s' ∧ P a s') fun e s' => E e s' ∧ F e s' := by
  unfold Runs at h h' ⊢
  cases run : x s with
  | ok a s' =>
      rw [run] at h h'
      exact ⟨h, h'⟩
  | error e s' =>
      rw [run] at h h'
      exact ⟨h, h'⟩

theorem runs_pure {a : α} (h : Q a s) : Runs (pure a) s Q E := h

theorem runs_lift {x : Except ε α} (h : Exits x (fun a => Q a s) (fun e => E e s)) :
    Runs (liftM x : EStateM ε σ α) s Q E := by
  cases x with
  | ok a => exact h
  | error e => exact h

theorem runs_get (s : σ) :
    Runs (get : EStateM ε σ σ) s (fun r s' => s = s' ∧ s = r) E := ⟨rfl, rfl⟩

theorem runs_modify (f : σ → σ) (s : σ) :
    Runs (modify f : EStateM ε σ PUnit) s (fun _ s' => s' = f s) E := rfl

theorem runs_ok {x : EStateM ε σ α} {a : α} {s' : σ} (run : x s = .ok a s') (h : Q a s') :
    Runs x s Q E := by
  unfold Runs
  rwa [run]

theorem runs_error {x : EStateM ε σ α} {e : ε} {s' : σ} (run : x s = .error e s') (h : E e s') :
    Runs x s Q E := by
  unfold Runs
  rwa [run]

/-- A step that cannot fail. -/
theorem Runs.step {x : EStateM ε σ α} {f : α → EStateM ε σ β} {a : α} {s' : σ} {Q : β → σ → Prop}
    (run : x s = .ok a s') (tail : Runs (f a) s' Q E) : Runs (x >>= f) s Q E :=
  (runs_ok (Q := fun b t => b = a ∧ t = s') run ⟨rfl, rfl⟩).bind (by rintro _ _ ⟨rfl, rfl⟩; exact tail)

theorem Runs.ok {x : EStateM ε σ α} {a : α} {s' : σ} (h : Runs x s Q E) (run : x s = .ok a s') :
    Q a s' := by
  unfold Runs at h
  rwa [run] at h

theorem Runs.error {x : EStateM ε σ α} {e : ε} {s' : σ} (h : Runs x s Q E)
    (run : x s = .error e s') : E e s' := by
  unfold Runs at h
  rwa [run] at h

/-- A run that comes to the same as another. -/
theorem Runs.same {x y : EStateM ε σ α} {t : σ} (h : Runs y t Q E) (same : x s = y t) :
    Runs x s Q E := by
  unfold Runs at h ⊢
  rwa [same]

/-- What a run that succeeds gives can be used besides what is known about it. -/
theorem Runs.ran {x : EStateM ε σ α} (h : Runs x s Q E) :
    Runs x s (fun a s' => x s = .ok a s' ∧ Q a s') E := by
  cases run : x s with
  | ok a s' => exact runs_ok run ⟨rfl, h.ok run⟩
  | error e s' => exact runs_error run (h.error run)

/-- A pass through a loop body that keeps `inv` and lowers the measure, or ends in `Q`. -/
def PassM {τ : Type} (inv : τ → σ → Prop) (measure : τ → σ → Nat) (Q : β → σ → Prop) (t : τ)
    (s : σ) : Loop.Iter τ β → σ → Prop
  | .next t', s' => inv t' s' ∧ measure t' s' < measure t s
  | .done b, s' => Q b s'

theorem runs_runM {τ : Type} {stuck : ε} {body : τ → EStateM ε σ (Loop.Iter τ β)}
    (inv : τ → σ → Prop) (measure : τ → σ → Nat) {Q : β → σ → Prop}
    (pass : ∀ t s, inv t s → Runs (body t) s (PassM inv measure Q t s) E) {n : Nat} {t : τ}
    (start : inv t s) (bound : measure t s < n) : Runs (runM stuck body n t) s Q E := by
  induction n generalizing t s with
  | zero => omega
  | succ n ih =>
      refine (pass t s start).bind fun r s' kept => ?_
      cases r with
      | next t' => exact ih kept.1 (lt_of_lt_of_le kept.2 (Nat.le_of_lt_succ bound))
      | done b => exact runs_pure kept

/-- A loop that keeps `inv`, when running out of passes is one more way to fail. -/
theorem runs_loop {τ : Type} {stuck : ε} {body : τ → EStateM ε σ (Loop.Iter τ β)}
    (inv : τ → σ → Prop) {Q : β → σ → Prop} (fails : ∀ t s, inv t s → E stuck s)
    (pass : ∀ t s, inv t s → Runs (body t) s
      (fun r s' => match r with
        | .next t' => inv t' s'
        | .done b => Q b s') E) {n : Nat} {t : τ}
    (start : inv t s) : Runs (runM stuck body n t) s Q E := by
  induction n generalizing t s with
  | zero => exact runs_error rfl (fails t s start)
  | succ n ih =>
      refine (pass t s start).bind fun r s' kept => ?_
      cases r with
      | next t' => exact ih kept
      | done b => exact runs_pure kept

end Runs

section Steps

variable {s s' : σ}

theorem bind_ok {x : EStateM ε σ α} {f : α → EStateM ε σ β} {a : α} (h : x s = .ok a s') :
    (x >>= f) s = f a s' := by
  simp only [Bind.bind, EStateM.bind, h]

theorem bind_error {x : EStateM ε σ α} {f : α → EStateM ε σ β} {e : ε} (h : x s = .error e s') :
    (x >>= f) s = .error e s' := by
  simp only [Bind.bind, EStateM.bind, h]

theorem map_ok {x : EStateM ε σ α} {f : α → β} {a : α} (h : x s = .ok a s') :
    (f <$> x) s = .ok (f a) s' := by
  simp only [Functor.map, EStateM.map, h]

theorem map_error {x : EStateM ε σ α} {f : α → β} {e : ε} (h : x s = .error e s') :
    (f <$> x) s = .error e s' := by
  simp only [Functor.map, EStateM.map, h]

theorem get_bind (f : σ → EStateM ε σ β) (s : σ) : (get >>= f) s = f s s := rfl

theorem run_bind_ok {x : EStateM ε σ α} {f : α → EStateM ε σ β} {b : β}
    (h : (x >>= f) s = .ok b s') : ∃ a s1, x s = .ok a s1 ∧ f a s1 = .ok b s' := by
  cases run : x s with
  | ok a s1 => exact ⟨a, s1, rfl, (bind_ok run).symm.trans h⟩
  | error e s1 =>
      rw [bind_error run] at h
      cases h

/-- What follows only counts where it is reached. -/
theorem bind_congr_run {x : EStateM ε σ α} {f g : α → EStateM ε σ β}
    (h : ∀ a s1, x s = .ok a s1 → f a s1 = g a s1) : (x >>= f) s = (x >>= g) s := by
  cases run : x s with
  | ok a s1 => rw [bind_ok run, bind_ok run, h a s1 run]
  | error e s1 => rw [bind_error run, bind_error run]

theorem bind_congr_left {x y : EStateM ε σ α} {f : α → EStateM ε σ β} {t : σ} (h : x s = y t) :
    (x >>= f) s = (y >>= f) t := by
  simp only [Bind.bind, EStateM.bind, h]

theorem ok_of_run' {x : EStateM ε σ α} {a : α} (h : x.run' s = some a) :
    ∃ s', x s = .ok a s' := by
  rw [EStateM.run'] at h
  split at h
  · next run =>
      cases h
      exact ⟨_, run⟩
  · cases h

theorem lift_ok {x : Except ε α} {a : α} (h : x = .ok a) :
    (liftM x : EStateM ε σ α) s = .ok a s := by
  subst h
  rfl

theorem lift_eq_ok {x : Except ε α} {a : α}
    (h : (liftM x : EStateM ε σ α) s = .ok a s') : x = .ok a ∧ s = s' := by
  cases x with
  | ok b =>
      cases h
      exact ⟨rfl, rfl⟩
  | error e => cases h

theorem lift_error {x : Except ε α} {e : ε} (h : x = .error e) :
    (liftM x : EStateM ε σ α) s = .error e s := by
  subst h
  rfl

end Steps

section Ends

variable {x : EStateM ε σ α} {f : α → EStateM ε σ β} {s : σ}

/-- A step that cannot fail. -/
theorem Ends.step {a : α} {s' : σ} {o : Except ε (β × σ)} (run : x s = .ok a s')
    (tail : Ends (f a) s' o) : Ends (x >>= f) s o := by
  unfold Ends at tail ⊢
  rwa [bind_ok run]

/-- A step that leaves the state alone. -/
theorem Ends.lift {y : Except ε α} {g : α → Except ε (β × σ)}
    (next : ∀ a, y = .ok a → Ends (f a) s (g a)) :
    Ends ((liftM y : EStateM ε σ α) >>= f) s (y >>= g) := by
  cases y with
  | ok a => exact next a rfl
  | error e => exact ⟨s, bind_error (lift_error rfl)⟩

/-- A step whose value and state are functions of what `y` gives. -/
theorem Ends.via {γ : Type} {y : Except ε γ} {value : γ → α} {state : γ → σ}
    {g : γ → Except ε (β × σ)} (h : Ends x s (y >>= fun b => .ok (value b, state b)))
    (next : ∀ b, y = .ok b → Ends (f (value b)) (state b) (g b)) :
    Ends (x >>= f) s (y >>= g) := by
  cases y with
  | ok b => exact Ends.step (show x s = .ok (value b) (state b) from h) (next b rfl)
  | error e =>
      obtain ⟨s', failed⟩ := h
      exact ⟨s', bind_error failed⟩

theorem Ends.last {y : Except ε α} {g : α → Except ε (α × σ)} (last : ∀ a, g a = .ok (a, s)) :
    Ends (liftM y : EStateM ε σ α) s (y >>= g) := by
  cases y with
  | ok a =>
      rw [show (Except.ok a >>= g) = g a from rfl, last a]
      rfl
  | error e => exact ⟨s, rfl⟩

theorem ends_ok {a : α} {s' : σ} (run : x s = .ok a s') : Ends x s (.ok (a, s')) := run

theorem ends_error {e : ε} {s' : σ} (run : x s = .error e s') : Ends x s (.error e) := ⟨s', run⟩

theorem Ends.run_ok {a : α} {s' : σ} (h : Ends x s (.ok (a, s'))) : x s = .ok a s' := h

theorem Ends.run_error {e : ε} (h : Ends x s (.error e)) : ∃ s', x s = .error e s' := h

theorem Ends.error {o : Except ε (α × σ)} {e : ε} {s' : σ} (h : Ends x s o)
    (run : x s = .error e s') : o = .error e := by
  cases o with
  | ok r => cases (show x s = .ok r.1 r.2 from h).symm.trans run
  | error e' =>
      obtain ⟨s1, failed⟩ := h
      cases failed.symm.trans run
      rfl

end Ends

section Agree

variable {x y : EStateM ε σ α} {s t s' t' : σ} {R : α → σ → σ → Prop} {S : σ → σ → Prop}

theorem agree_ok {a : α} (left : x s = .ok a s') (right : y t = .ok a t') (h : R a s' t') :
    Agree x y s t R S := by
  rw [Agree, left, right]
  exact ⟨rfl, h⟩

theorem agree_error {e : ε} (left : x s = .error e s') (right : y t = .error e t') (h : S s' t') :
    Agree x y s t R S := by
  rw [Agree, left, right]
  exact ⟨rfl, h⟩

theorem agree_refl (x : EStateM ε σ α) (s : σ) (ok : ∀ a s, R a s s) (error : ∀ s, S s s) :
    Agree x x s s R S := by
  cases run : x s with
  | ok a s' => exact agree_ok run run (ok a s')
  | error e s' => exact agree_error run run (error s')

theorem Agree.ok {a : α} (h : Agree x y s t R S) (run : x s = .ok a s') :
    ∃ t', y t = .ok a t' ∧ R a s' t' := by
  rw [Agree, run] at h
  cases other : y t with
  | ok b t' =>
      rw [other] at h
      obtain ⟨rfl, related⟩ := h
      exact ⟨t', rfl, related⟩
  | error e t' =>
      rw [other] at h
      exact h.elim

theorem Agree.error {e : ε} (h : Agree x y s t R S) (run : x s = .error e s') :
    ∃ t', y t = .error e t' ∧ S s' t' := by
  rw [Agree, run] at h
  cases other : y t with
  | ok b t' =>
      rw [other] at h
      exact h.elim
  | error f t' =>
      rw [other] at h
      obtain ⟨rfl, related⟩ := h
      exact ⟨t', rfl, related⟩

/-- Steps that cannot fail, and whose values may differ. -/
theorem Agree.step {f g : α → EStateM ε σ β} {a b : α} {R : β → σ → σ → Prop}
    (left : x s = .ok a s') (right : y t = .ok b t') (tail : Agree (f a) (g b) s' t' R S) :
    Agree (x >>= f) (y >>= g) s t R S := by
  rw [Agree] at tail ⊢
  rwa [bind_ok left, bind_ok right]

theorem Agree.bind {f g : α → EStateM ε σ β} {Q : β → σ → σ → Prop} (h : Agree x y s t R S)
    (next : ∀ a s' t', R a s' t' → Agree (f a) (g a) s' t' Q S) :
    Agree (x >>= f) (y >>= g) s t Q S := by
  cases run : x s with
  | ok a s' =>
      obtain ⟨t', other, related⟩ := h.ok run
      exact Agree.step run other (next a s' t' related)
  | error e s' =>
      obtain ⟨t', other, related⟩ := h.error run
      exact agree_error (bind_error run) (bind_error other) related

/-- A loop whose passes agree on the states that `inv` relates. -/
theorem agree_runM {τ : Type} {stuck : ε} {body : τ → EStateM ε σ (Loop.Iter τ β)}
    (inv : σ → σ → Prop) {Q : β → σ → σ → Prop} (fails : ∀ s t, inv s t → S s t)
    (pass : ∀ k s t, inv s t → Agree (body k) (body k) s t
      (fun r s t => match r with
        | .next _ => inv s t
        | .done b => Q b s t) S)
    {n : Nat} {k : τ} (start : inv s t) :
    Agree (runM stuck body n k) (runM stuck body n k) s t Q S := by
  induction n generalizing k s t with
  | zero => exact agree_error rfl rfl (fails s t start)
  | succ n ih =>
      refine (pass k s t start).bind fun r s' t' kept => ?_
      cases r with
      | next k' => exact ih kept
      | done b => exact agree_ok rfl rfl kept

end Agree

section Moves

variable {R S : σ → σ → Prop}

theorem moves_of {x : EStateM ε σ α}
    (h : ∀ s, Runs x s (fun _ s' => R s s') fun _ s' => S s s') : Moves R S x := h

theorem Moves.run {x : EStateM ε σ α} (h : Moves R S x) (s : σ) :
    Runs x s (fun _ s' => R s s') fun _ s' => S s s' := h s

theorem Moves.bind {x : EStateM ε σ α} {f : α → EStateM ε σ β} (flow : Flow R S)
    (h : Moves R S x) (next : ∀ a, Moves R S (f a)) : Moves R S (x >>= f) := by
  intro s
  refine ((h s).mono (fun _ _ h => h) fun _ _ h => h).bind fun a s' moved => ?_
  exact (next a s').mono (fun _ _ h => flow.trans moved h) fun _ _ h => flow.later moved h

theorem moves_pure (flow : Flow R S) (a : α) : Moves R S (pure a : EStateM ε σ α) :=
  fun s => runs_pure (flow.refl s)

theorem moves_get (flow : Flow R S) : Moves R S (get : EStateM ε σ σ) :=
  fun s => runs_ok rfl (flow.refl s)

theorem moves_throw (flow : Flow R S) (e : ε) : Moves R S (throw e : EStateM ε σ α) :=
  fun s => runs_error rfl (flow.fails s)

theorem moves_modify {f : σ → σ} (h : ∀ s, R s (f s)) :
    Moves R S (modify f : EStateM ε σ PUnit) :=
  fun s => runs_ok rfl (h s)

theorem moves_lift (flow : Flow R S) (x : Except ε α) :
    Moves R S (liftM x : EStateM ε σ α) := by
  intro s
  cases x with
  | ok a => exact runs_ok rfl (flow.refl s)
  | error e => exact runs_error rfl (flow.fails s)

theorem moves_ite {c : Prop} [Decidable c] {x y : EStateM ε σ α} (left : Moves R S x)
    (right : Moves R S y) : Moves R S (if c then x else y) := by
  split
  · exact left
  · exact right

theorem moves_runM {τ : Type} {stuck : ε} {body : τ → EStateM ε σ (Loop.Iter τ β)}
    (flow : Flow R S) (pass : ∀ t, Moves R S (body t)) (n : Nat) (t : τ) :
    Moves R S (runM stuck body n t) := by
  induction n generalizing t with
  | zero => exact moves_throw flow stuck
  | succ n ih =>
      refine (pass t).bind flow fun r => ?_
      cases r with
      | next t' => exact ih t'
      | done b => exact moves_pure flow b

end Moves

section Mirrors

variable {τ : Type} {image : σ → τ} {I B : σ → Prop} {x : EStateM ε σ α} {y : EStateM ε τ α}
  {s s' : σ}

theorem mirrors_ok {a : α} (run : x s = .ok a s') (other : y (image s) = .ok a (image s'))
    (h : I s') : Mirrors image I B x y s := by
  rw [Mirrors, run]
  exact ⟨other, h⟩

theorem mirrors_error {e : ε} (run : x s = .error e s')
    (other : y (image s) = .error e (image s')) (h : I s') : Mirrors image I B x y s := by
  rw [Mirrors, run]
  exact .inr ⟨other, h⟩

theorem mirrors_broken {e : ε} (run : x s = .error e s') (h : B s') : Mirrors image I B x y s := by
  rw [Mirrors, run]
  exact .inl h

theorem Mirrors.ok {a : α} (h : Mirrors image I B x y s) (run : x s = .ok a s') :
    y (image s) = .ok a (image s') ∧ I s' := by
  rwa [Mirrors, run] at h

theorem Mirrors.error {e : ε} (h : Mirrors image I B x y s) (run : x s = .error e s') :
    B s' ∨ y (image s) = .error e (image s') ∧ I s' := by
  rwa [Mirrors, run] at h

theorem mirrors_pure (a : α) (h : I s) :
    Mirrors image I B (pure a : EStateM ε σ α) (pure a) s :=
  mirrors_ok rfl rfl h

theorem mirrors_modify {f : σ → σ} {g : τ → τ} (same : g (image s) = image (f s)) (h : I (f s)) :
    Mirrors image I B (modify f : EStateM ε σ PUnit) (modify g) s :=
  mirrors_ok rfl (congrArg (EStateM.Result.ok PUnit.unit) same) h

theorem mirrors_lift (r : Except ε α) (h : I s) :
    Mirrors image I B (liftM r : EStateM ε σ α) (liftM r) s := by
  cases r with
  | ok a => exact mirrors_ok rfl rfl h
  | error e => exact mirrors_error rfl rfl h

theorem Mirrors.bind {f : α → EStateM ε σ β} {g : α → EStateM ε τ β}
    (h : Mirrors image I B x y s) (next : ∀ a s', I s' → Mirrors image I B (f a) (g a) s') :
    Mirrors image I B (x >>= f) (y >>= g) s := by
  cases run : x s with
  | ok a s' =>
      obtain ⟨other, inside⟩ := h.ok run
      have tail := next a s' inside
      rw [Mirrors] at tail ⊢
      rwa [bind_ok run, bind_ok other]
  | error e s' =>
      rcases h.error run with broken | ⟨other, inside⟩
      · exact mirrors_broken (bind_error run) broken
      · exact mirrors_error (bind_error run) (bind_error other) inside

/-- Steps that cannot fail, and whose values may differ. -/
theorem Mirrors.step {f : α → EStateM ε σ β} {γ : Type} {z : EStateM ε τ γ}
    {g : γ → EStateM ε τ β} {a : α} {c : γ} (run : x s = .ok a s')
    (other : z (image s) = .ok c (image s'))
    (tail : Mirrors image I B (f a) (g c) s') : Mirrors image I B (x >>= f) (z >>= g) s := by
  rw [Mirrors] at tail ⊢
  rwa [bind_ok run, bind_ok other]

theorem mirrors_runM {ι : Type} {stuck : ε} {body : ι → EStateM ε σ (Loop.Iter ι β)}
    {body' : ι → EStateM ε τ (Loop.Iter ι β)}
    (pass : ∀ t s, I s → Mirrors image I B (body t) (body' t) s) (n : Nat) (t : ι) (h : I s) :
    Mirrors image I B (runM stuck body n t) (runM stuck body' n t) s := by
  induction n generalizing t s with
  | zero => exact mirrors_error rfl rfl h
  | succ n ih =>
      refine (pass t s h).bind fun r s' inside => ?_
      cases r with
      | next t' => exact ih t' inside
      | done b => exact mirrors_pure b inside

end Mirrors

attribute [irreducible] Exits Runs Ends Agree Moves Mirrors

end Effects
