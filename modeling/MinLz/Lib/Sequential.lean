import MinLz.Lib.Effects
import MinLz.Lib.Pipeline

/-! # Pipelines that do what one thread does

A handler and a consumer do together what a sequential program does by itself. The
handler and the program are compared step by step; the consumer eats what the handler
orders, and fails at the latest when the program fails. The rules follow the two
programs, and at the end every run of the threads has the result of the program.
-/

namespace Pipeline

open Effects

variable {ι β γ δ ε ε' σ τ α κ : Type}

/-- As long as nothing fails the handler and the consumer go with the program, to states
    that `I` relates. When the program fails, the consumer cannot do with the items, or the
    handler fails too, with errors and states that `S` relates. -/
def Twins (stages : Stages ι β γ δ ε) (I : σ → γ → τ → Prop) (S : ε → σ → γ → ε' → τ → Prop)
    (x : Thread ι ε σ α) (y : EStateM ε' τ α) (t : σ) (g : γ) (s : τ) : Prop :=
  ∀ items r t', (x t).Leads items (.done (r, t')) →
    match y s with
    | .ok a s' => r = .ok a ∧ ∃ g', stages.eatAll g items = .ok g' ∧ I t' g' s'
    | .error e s' => (∀ g', stages.eatAll g items ≠ .ok g') ∨
        ∃ f g', r = .error f ∧ stages.eatAll g items = .ok g' ∧ S f t' g' e s'

/-- A part of the handler that orders nothing and does not fail. -/
def Quiet (x : Thread ι ε σ α) (t : σ) (P : α → σ → Prop) : Prop :=
  ∀ items r t', (x t).Leads items (.done (r, t')) → items = [] ∧ ∃ a, r = .ok a ∧ P a t'

theorem thread_goes {x : Thread ι ε σ κ} {f : κ → Thread ι ε σ α} {t u : σ} {k : κ}
    (run : x t = .done (.ok k, u)) : (x >>= f) t = f k u := by
  show Prog.bind (x t) _ = _
  rw [run]
  rfl

theorem thread_fails {x : Thread ι ε σ κ} {f : κ → Thread ι ε σ α} {t u : σ} {e : ε}
    (run : x t = .done (.error e, u)) : (x >>= f) t = .done (.error e, u) := by
  show Prog.bind (x t) _ = _
  rw [run]
  rfl

section Quiet

variable {t : σ} {P : α → σ → Prop}

theorem quiet_pure {a : α} (h : P a t) : Quiet (ι := ι) (ε := ε) (pure a) t P := by
  intro items r t' leads
  cases leads
  exact ⟨rfl, a, rfl, h⟩

theorem Quiet.mono {x : Thread ι ε σ α} {Q : α → σ → Prop} (h : Quiet x t P)
    (weaker : ∀ a t', P a t' → Q a t') : Quiet x t Q := by
  intro items r t' leads
  obtain ⟨none, a, ok, after⟩ := h items r t' leads
  exact ⟨none, a, ok, weaker a t' after⟩

theorem Quiet.bind {x : Thread ι ε σ κ} {f : κ → Thread ι ε σ α} {Q : κ → σ → Prop}
    (h : Quiet x t Q) (next : ∀ k t1, Q k t1 → Quiet (f k) t1 P) : Quiet (x >>= f) t P := by
  intro items r t' leads
  obtain ⟨⟨r1, t1⟩, first, rest, front, back, rfl⟩ := Prog.leads_bind leads
  obtain ⟨rfl, k, rfl, after⟩ := h first r1 t1 front
  exact next k t1 after rest r t' back

theorem quiet_check {f : Option ε → Thread ι ε σ α} (h : Quiet (f none) t P) :
    Quiet (Thread.check >>= f) t P := by
  intro items r t' leads
  cases leads with
  | check rest => exact h items r t' rest

theorem quiet_offer {w : Nat} {f : Offer → Thread ι ε σ α} (taken : Quiet (f .taken) t P)
    (full : Quiet (f .full) t P) : Quiet (Thread.offer w >>= f) t P := by
  intro items r t' leads
  cases leads with
  | taken rest => exact taken items r t' rest
  | full rest => exact full items r t' rest

theorem quiet_hand {w : Nat} {f : Bool → Thread ι ε σ α} (h : Quiet (f true) t P) :
    Quiet (Thread.hand w >>= f) t P := by
  intro items r t' leads
  cases leads with
  | handed rest => exact h items r t' rest

theorem quiet_supply {P : Unit → σ → Prop} (h : P () t) :
    Quiet (ι := ι) (ε := ε) Thread.supply t P := by
  intro items r t' leads
  cases leads with
  | supplied rest => exact quiet_pure h items r t' rest

theorem quiet_get {f : σ → Thread ι ε σ α} (h : Quiet (f t) t P) :
    Quiet ((get : Thread ι ε σ σ) >>= f) t P := h

theorem quiet_modify {change : σ → σ} {f : PUnit → Thread ι ε σ α}
    (h : Quiet (f ⟨⟩) (change t) P) : Quiet ((modify change : Thread ι ε σ PUnit) >>= f) t P := h

/-- A loop that waits, and lowers the measure while it does. -/
theorem quiet_loop {υ : Type} {stuck : ε} {body : υ → Thread ι ε σ (Loop.Iter υ α)}
    (inv : υ → σ → Prop) (measure : υ → Nat)
    (pass : ∀ v t, inv v t → Quiet (body v) t (fun k t1 => match k with
      | .next v' => inv v' t1 ∧ measure v' < measure v
      | .done a => P a t1)) {n : Nat} {v : υ} (start : inv v t) (bound : measure v < n) :
    Quiet (Thread.loop stuck body n v) t P := by
  induction n generalizing v t with
  | zero => exact absurd bound (Nat.not_lt_zero _)
  | succ n ih =>
      refine (pass v t start).bind fun k t1 after => ?_
      cases k with
      | next v' => exact ih after.1 (lt_of_lt_of_le after.2 (Nat.le_of_lt_succ bound))
      | done a => exact quiet_pure after

end Quiet

section Rules

variable {stages : Stages ι β γ δ ε} {I : σ → γ → τ → Prop} {S : ε → σ → γ → ε' → τ → Prop}
  {t : σ} {g : γ} {s : τ}

theorem Twins.ok {x : Thread ι ε σ α} {y : EStateM ε' τ α} (h : Twins stages I S x y t g s) {a : α}
    {s' : τ} (run : y s = .ok a s') {items : List ι} {r : Except ε α} {t' : σ}
    (leads : (x t).Leads items (.done (r, t'))) :
    r = .ok a ∧ ∃ g', stages.eatAll g items = .ok g' ∧ I t' g' s' := by
  have outcome := h items r t' leads
  rwa [run] at outcome

theorem Twins.error {x : Thread ι ε σ α} {y : EStateM ε' τ α} (h : Twins stages I S x y t g s)
    {e : ε'} {s' : τ} (run : y s = .error e s') {items : List ι} {r : Except ε α} {t' : σ}
    (leads : (x t).Leads items (.done (r, t'))) :
    (∀ g', stages.eatAll g items ≠ .ok g') ∨
      ∃ f g', r = .error f ∧ stages.eatAll g items = .ok g' ∧ S f t' g' e s' := by
  have outcome := h items r t' leads
  rwa [run] at outcome

theorem spoiled_append {items more : List ι} (spoiled : ∀ g', stages.eatAll g items ≠ .ok g') :
    ∀ g', stages.eatAll g (items ++ more) ≠ .ok g' := by
  intro g' eaten
  obtain ⟨g1, part⟩ := eatAll_prefix eaten
  exact spoiled g1 part

theorem eatAll_join {items more : List ι} {g1 : γ} (eaten : stages.eatAll g items = .ok g1) :
    stages.eatAll g (items ++ more) = stages.eatAll g1 more := by
  rw [eatAll_append, eaten]
  rfl

theorem twins_done {x : Thread ι ε σ α} {y : EStateM ε' τ α} {a : α} {t' : σ} {s' : τ}
    (left : x t = .done (.ok a, t')) (right : y s = .ok a s') (h : I t' g s') :
    Twins stages I S x y t g s := by
  intro items r t1 leads
  rw [left] at leads
  cases leads
  rw [right]
  exact ⟨rfl, g, rfl, h⟩

theorem twins_pure (a : α) (h : I t g s) :
    Twins stages I S (pure a) (pure a : EStateM ε' τ α) t g s := twins_done rfl rfl h

theorem twins_fail {x : Thread ι ε σ α} {y : EStateM ε' τ α} {f : ε} {u : σ}
    (left : x t = .done (.error f, u))
    (right : Runs y s (fun _ _ => False) fun e s' => S f u g e s') :
    Twins stages I S x y t g s := by
  intro items r t1 leads
  rw [left] at leads
  cases leads
  cases run : y s with
  | ok a s' => exact (right.ok run).elim
  | error e s' => exact .inr ⟨f, g, rfl, rfl, right.error run⟩

/-- What the handler does to its own state only. -/
theorem Twins.left {x : Thread ι ε σ κ} {f : κ → Thread ι ε σ α} {y : EStateM ε' τ α} {k : κ}
    {u : σ} (run : x t = .done (.ok k, u)) (h : Twins stages I S (f k) y u g s) :
    Twins stages I S (x >>= f) y t g s := by
  intro items r t' leads
  rw [thread_goes run] at leads
  exact h items r t' leads

/-- What the handler does without an order. -/
theorem Quiet.before {x : Thread ι ε σ κ} {f : κ → Thread ι ε σ α} {y : EStateM ε' τ α}
    {P : κ → σ → Prop} (quiet : Quiet x t P)
    (next : ∀ k t1, P k t1 → Twins stages I S (f k) y t1 g s) :
    Twins stages I S (x >>= f) y t g s := by
  intro items r t' leads
  obtain ⟨⟨r1, t1⟩, first, rest, front, back, rfl⟩ := Prog.leads_bind leads
  obtain ⟨rfl, k, rfl, h⟩ := quiet first r1 t1 front
  exact next k t1 h rest r t' back

/-- What the handler does after its last order. -/
theorem Quiet.ends {x : Thread ι ε σ α} {a : α} {P : α → σ → Prop} (quiet : Quiet x t P)
    (last : ∀ a' t1, P a' t1 → a' = a ∧ I t1 g s) :
    Twins stages I S x (pure a : EStateM ε' τ α) t g s := by
  intro items r t' leads
  obtain ⟨rfl, a', rfl, h⟩ := quiet items r t' leads
  obtain ⟨rfl, related⟩ := last a' t' h
  exact ⟨rfl, g, rfl, related⟩

/-- What the program does without an order of the handler. -/
theorem Twins.right {x : Thread ι ε σ α} {y : EStateM ε' τ κ} {f : κ → EStateM ε' τ α} {k : κ}
    {u : τ} (run : y s = .ok k u) (h : Twins stages I S x (f k) t g u) :
    Twins stages I S x (y >>= f) t g s := by
  intro items r t' leads
  rw [bind_ok run]
  exact h items r t' leads

theorem Twins.get {f : σ → Thread ι ε σ α} {y : EStateM ε' τ α}
    (h : Twins stages I S (f t) y t g s) :
    Twins stages I S ((get : Thread ι ε σ σ) >>= f) y t g s := h

theorem Twins.modify {change : σ → σ} {f : PUnit → Thread ι ε σ α} {y : EStateM ε' τ α}
    (h : Twins stages I S (f ⟨⟩) y (change t) g s) :
    Twins stages I S ((modify change : Thread ι ε σ PUnit) >>= f) y t g s := h

theorem Twins.set {t1 : σ} {f : PUnit → Thread ι ε σ α} {y : EStateM ε' τ α}
    (h : Twins stages I S (f ⟨⟩) y t1 g s) :
    Twins stages I S ((set t1 : Thread ι ε σ PUnit) >>= f) y t g s := h

/-- The consumer does with the item what the program does next. -/
theorem Twins.order {item : ι} {f : Bool → Thread ι ε σ α} {y : EStateM ε' τ κ}
    {f' : κ → EStateM ε' τ α}
    (ok : ∀ k s1, y s = .ok k s1 → ∃ g1, stages.eatAll g [item] = .ok g1 ∧
      Twins stages I S (f true) (f' k) t g1 s1)
    (error : ∀ e s1, y s = .error e s1 → ∀ g', stages.eatAll g [item] ≠ .ok g') :
    Twins stages I S (Thread.order item >>= f) (y >>= f') t g s := by
  intro items r t' leads
  cases leads with
  | @order _ _ items _ rest =>
      cases run : y s with
      | ok k s1 =>
          obtain ⟨g1, eaten, h⟩ := ok k s1 run
          rw [bind_ok run, ← List.singleton_append, eatAll_join eaten]
          exact h items r t' rest
      | error e s1 =>
          rw [bind_error run]
          exact .inl (spoiled_append (error e s1 run))

theorem Twins.order_last {item : ι} {f : Bool → Thread ι ε σ α} {y : EStateM ε' τ α}
    (ok : ∀ a s1, y s = .ok a s1 → ∃ g1, stages.eatAll g [item] = .ok g1 ∧
      Twins stages I S (f true) (pure a : EStateM ε' τ α) t g1 s1)
    (error : ∀ e s1, y s = .error e s1 → ∀ g', stages.eatAll g [item] ≠ .ok g') :
    Twins stages I S (Thread.order item >>= f) y t g s := by
  rw [← bind_pure y]
  exact Twins.order ok error

/-- The last order, and what the handler still does after it. -/
theorem Twins.ordered {item : ι} {f : Bool → Thread ι ε σ α} {y : EStateM ε' τ α}
    (ok : ∀ a s1, y s = .ok a s1 → ∃ g1, stages.eatAll g [item] = .ok g1 ∧
      Quiet (f true) t fun a' t1 => a' = a ∧ I t1 g1 s1)
    (error : ∀ e s1, y s = .error e s1 → ∀ g', stages.eatAll g [item] ≠ .ok g') :
    Twins stages I S (Thread.order item >>= f) y t g s := by
  refine Twins.order_last (fun a s1 run => ?_) error
  obtain ⟨g1, eaten, quiet⟩ := ok a s1 run
  exact ⟨g1, eaten, quiet.ends fun _ _ h => h⟩

/-- A program that comes to the same as another. -/
theorem Twins.same {x : Thread ι ε σ α} {y y' : EStateM ε' τ α} {s' : τ}
    (h : Twins stages I S x y' t g s') (same : y s = y' s') : Twins stages I S x y t g s := by
  intro items r t' leads
  rw [same]
  exact h items r t' leads

theorem Twins.bind {x : Thread ι ε σ κ} {y : EStateM ε' τ κ} {f : κ → Thread ι ε σ α}
    {u : κ → EStateM ε' τ α} (h : Twins stages I S x y t g s)
    (next : ∀ k t1 g1 s1, I t1 g1 s1 → Twins stages I S (f k) (u k) t1 g1 s1) :
    Twins stages I S (x >>= f) (y >>= u) t g s := by
  intro items r t' leads
  obtain ⟨⟨r1, t1⟩, first, rest, front, back, rfl⟩ := Prog.leads_bind leads
  cases run : y s with
  | ok k s1 =>
      obtain ⟨rfl, g1, eaten, related⟩ := h.ok run front
      rw [bind_ok run, eatAll_join eaten]
      exact next k t1 g1 s1 related rest r t' back
  | error e s1 =>
      rw [bind_error run]
      rcases h.error run front with spoiled | ⟨f, g1, rfl, eaten, failed⟩
      · exact .inl (spoiled_append spoiled)
      · obtain ⟨rfl, same⟩ := Prog.leads_pure back
        cases same
        rw [List.append_nil]
        exact .inr ⟨f, g1, rfl, eaten, failed⟩

/-- What is made of the handler's result when it is there, without an order. -/
theorem Twins.caught {x : Thread ι ε σ α} {y : EStateM ε' τ α} {x' : Thread ι ε σ κ} {c : α → κ}
    {k : Except ε α × σ → Except ε κ × σ} (h : Twins stages I S x y t g s)
    (same : x' t = (x t).bind fun r => .done (k r)) (ok : ∀ a t', k (.ok a, t') = (.ok (c a), t'))
    (error : ∀ f t' g' e s', S f t' g' e s' → k (.error f, t') = (.error f, t')) :
    Twins stages I S x' (y >>= fun a => pure (c a)) t g s := by
  intro items r t' leads
  rw [same] at leads
  obtain ⟨⟨r1, t1⟩, first, rest, front, back, rfl⟩ := Prog.leads_bind leads
  obtain ⟨rfl, made⟩ := Prog.leads_pure back
  rw [List.append_nil]
  cases run : y s with
  | ok a s1 =>
      obtain ⟨rfl, g1, eaten, related⟩ := h.ok run front
      cases (ok a t1).symm.trans made
      rw [bind_ok run]
      exact ⟨rfl, g1, eaten, related⟩
  | error e s1 =>
      rw [bind_error run]
      refine (h.error run front).imp_right ?_
      rintro ⟨f, g1, rfl, eaten, failed⟩
      cases (error f t1 g1 e s1 failed).symm.trans made
      exact ⟨f, g1, rfl, eaten, failed⟩

/-- Loops that go round together. -/
theorem twins_loop {υ : Type} {stuck : ε} {stuck' : ε'} {body : υ → Thread ι ε σ (Loop.Iter υ α)}
    {body' : υ → EStateM ε' τ (Loop.Iter υ α)}
    (stops : ∀ t g s, I t g s → S stuck t g stuck' s)
    (pass : ∀ v t g s, I t g s → Twins stages I S (body v) (body' v) t g s) (n : Nat) (v : υ)
    (h : I t g s) : Twins stages I S (Thread.loop stuck body n v) (runM stuck' body' n v) t g s := by
  induction n generalizing v t g s with
  | zero => exact twins_fail rfl (runs_error rfl (stops t g s h))
  | succ n ih =>
      refine (pass v t g s h).bind fun k t1 g1 s1 h => ?_
      cases k with
      | next v' => exact ih v' h
      | done a => exact twins_pure a h

end Rules

/-- When the handler has succeeded and the consumer can do with its items, the program has
    succeeded. -/
theorem Twins.led {stages : Stages ι β γ δ ε} {I : σ → γ → τ → Prop}
    {S : ε → σ → γ → ε' → τ → Prop} {t t' : σ} {g g' : γ} {s : τ} {x : Thread ι ε σ α}
    {y : EStateM ε' τ α} {a : α} (h : Twins stages I S x y t g s) {items : List ι}
    (leads : (x t).Leads items (.done (.ok a, t'))) (eaten : stages.eatAll g items = .ok g') :
    ∃ s', y s = .ok a s' ∧ I t' g' s' := by
  cases ran : y s with
  | ok a' s' =>
      obtain ⟨same, g1, eaten', related⟩ := h.ok ran leads
      cases same
      cases eaten.symm.trans eaten'
      exact ⟨s', rfl, related⟩
  | error e s' =>
      rcases h.error ran leads with spoiled | ⟨f, _, failed, _⟩
      · exact absurd eaten (spoiled g')
      · cases failed

attribute [irreducible] Quiet Twins

section Runs

variable {stages : Stages ι β γ δ ε} {I : σ → γ → τ → Prop} {S : ε → σ → γ → ε' → τ → Prop}
  {t t' : σ} {g : γ} {s s' : τ} {capacity : Nat} {x : Thread ι ε σ α} {y : EStateM ε' τ α} {a : α}
  {st : State ι β γ δ ε (Except ε α × σ)} {r : Except ε α} {result : Except ε δ}

/-- When the program succeeds and the consumer can close, every run succeeds. -/
theorem Twins.succeeds (h : Twins stages I S x y t g s) (ran : y s = .ok a s') {D : δ → Prop}
    (closes : ∀ t' g', I t' g' s' → ∃ d, stages.close g' = .ok d ∧ D d)
    (run : Run stages capacity (start (x t) g) st) (ended : Ended st (r, t') result) :
    r = .ok a ∧ ∃ d, result = .ok d ∧ D d := by
  have edible : Edible stages g (x t) := by
    rintro items ⟨r, t1⟩ leads
    obtain ⟨_, g', eaten, related⟩ := h.ok ran leads
    obtain ⟨d, closed, _⟩ := closes t1 g' related
    exact ⟨g', d, eaten, closed⟩
  obtain ⟨d, items, g', rfl, leads, eaten, closed⟩ := edible.ended run ended
  obtain ⟨same, g1, eaten', related⟩ := h.ok ran leads
  cases eaten.symm.trans eaten'
  obtain ⟨d', closed', good⟩ := closes t' g' related
  cases closed.symm.trans closed'
  exact ⟨same, d, rfl, good⟩

end Runs

end Pipeline
