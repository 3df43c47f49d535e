import Mathlib

/-! # Bounded loops

A `while` loop whose body may fail is a step function into `Iter`, run with an
explicit bound. The bound is only there to make the loop a structural recursion:
`run_rule` asks for a measure, so a loop proved through it never exhausts it.
-/

namespace Loop

universe u v w

/-- What one pass through a loop body leaves behind. -/
inductive Iter (σ : Type u) (β : Type v) where
  | next (s : σ)
  | done (b : β)

/-- Run `step` until it is done or fails; `stuck` is the failure of a loop that
    has not finished within its bound. -/
def run {ε : Type w} {σ : Type u} {β : Type v} (stuck : ε)
    (step : σ → Except ε (Iter σ β)) : Nat → σ → Except ε β
  | 0, _ => .error stuck
  | n + 1, s =>
    match step s with
    | .error e => .error e
    | .ok (.done b) => .ok b
    | .ok (.next s') => run stuck step n s'

section Rules

variable {ε : Type w} {σ : Type u} {τ : Type u} {β : Type v} {γ : Type v}

/-- One iteration meets its contract: a further state keeps the invariant and
    lowers the measure, a result or a failure satisfies the postcondition. -/
def Meets (inv : σ → Prop) (measure : σ → Nat) (post : Except ε β → Prop) (s : σ) :
    Except ε (Iter σ β) → Prop
  | .error e => post (.error e)
  | .ok (.done b) => post (.ok b)
  | .ok (.next s') => inv s' ∧ measure s' < measure s

theorem run_rule {stuck : ε} {step : σ → Except ε (Iter σ β)} (inv : σ → Prop)
    (measure : σ → Nat) (post : Except ε β → Prop)
    (body : ∀ s, inv s → Meets inv measure post s (step s)) :
    ∀ n s, inv s → measure s < n → post (run stuck step n s) := by
  intro n
  induction n with
  | zero => intro s _ h; omega
  | succ n ih =>
      intro s hs hn
      have hb := body s hs
      simp only [run]
      cases h : step s with
      | error e => simpa only [h, Meets] using hb
      | ok r =>
          cases r with
          | done b => simpa only [h, Meets] using hb
          | next s' =>
              simp only [h, Meets] at hb
              exact ih s' hb.1 (by omega)

/-- The run returns a value, and the value satisfies `Q`. -/
def Returns {α : Type v} (r : Except ε α) (Q : α → Prop) : Prop := ∃ a, r = .ok a ∧ Q a

theorem returns_ok {α : Type v} {a : α} {Q : α → Prop} (h : Q a) :
    Returns (.ok a : Except ε α) Q := ⟨a, rfl, h⟩

theorem Returns.mono {α : Type v} {r : Except ε α} {P Q : α → Prop} (h : Returns r P)
    (weaker : ∀ a, P a → Q a) : Returns r Q := by
  obtain ⟨a, run, ha⟩ := h
  exact ⟨a, run, weaker a ha⟩

theorem Returns.bind {α γ : Type v} {r : Except ε α} {P : α → Prop} {f : α → Except ε γ}
    {Q : γ → Prop} (h : Returns r P) (next : ∀ a, P a → Returns (f a) Q) :
    Returns (r >>= f) Q := by
  obtain ⟨a, rfl, ha⟩ := h
  exact next a ha

/-- A pass through a loop body that keeps `inv` and lowers the measure, or ends in `Q`. -/
def Pass (inv : σ → Prop) (measure : σ → Nat) (Q : β → Prop) (s : σ) : Iter σ β → Prop
  | .next s' => inv s' ∧ measure s' < measure s
  | .done b => Q b

theorem returns_run {stuck : ε} {step : σ → Except ε (Iter σ β)} (inv : σ → Prop)
    (measure : σ → Nat) {Q : β → Prop}
    (body : ∀ s, inv s → Returns (step s) (Pass inv measure Q s)) {n : Nat} {s : σ} (start : inv s)
    (bound : measure s < n) : Returns (run stuck step n s) Q := by
  apply run_rule inv measure (fun r => Returns r Q) ?_ n s start bound
  intro s hs
  obtain ⟨r, step_eq, pass⟩ := body s hs
  rw [step_eq]
  cases r with
  | next s' => exact pass
  | done b => exact ⟨b, rfl, pass⟩

end Rules

end Loop
