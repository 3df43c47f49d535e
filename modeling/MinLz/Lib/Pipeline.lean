import MinLz.Lib.Loop

/-! # An ordered pipeline of threads

A handler gives out items in order, workers make results of them in any order, and a
consumer takes the results in the order of the items. The order queue is bounded, and the
consumer takes an item off it before it waits for the result. A worker has room for one
item besides the one that it works on; one that panics drops the item that it works on
first, and what is in its inbox only when it goes away. The consumer notes its first error
where the handler can see it, and then goes away. A run is a list of threads that act one
after the other; a thread that waits cannot act.
-/

namespace Pipeline

/-- The answer to an item that is offered to a worker. -/
inductive Offer where
  | taken
  | full
  | closed
  deriving DecidableEq, Repr

/-- A program of the handler, by what it does to the pipeline. -/
inductive Prog (ι ε : Type) (ρ : Type) where
  | done (r : ρ)
  /-- look for an error of the consumer -/
  | check (k : Option ε → Prog ι ε ρ)
  /-- put an item in the order queue; the answer says whether there is a consumer -/
  | order (item : ι) (k : Bool → Prog ι ε ρ)
  /-- offer the item ordered last to a worker -/
  | offer (worker : Nat) (k : Offer → Prog ι ε ρ)
  /-- hand the item ordered last to a worker, and wait until it has room -/
  | hand (worker : Nat) (k : Bool → Prog ι ε ρ)
  /-- send the result of the item ordered last, which no worker makes -/
  | supply (k : Prog ι ε ρ)

namespace Prog

variable {ι ε ρ τ : Type}

def bind : Prog ι ε ρ → (ρ → Prog ι ε τ) → Prog ι ε τ
  | .done r, f => f r
  | .check k, f => .check fun e => (k e).bind f
  | .order item k, f => .order item fun b => (k b).bind f
  | .offer w k, f => .offer w fun o => (k o).bind f
  | .hand w k, f => .hand w fun b => (k b).bind f
  | .supply k, f => .supply (k.bind f)

instance monadProg : Monad (Prog ι ε) where
  pure := .done
  bind := bind

/-- One program leads to the other as long as nothing fails, and orders these items. -/
inductive Leads : Prog ι ε ρ → List ι → Prog ι ε ρ → Prop where
  | refl (p : Prog ι ε ρ) : Leads p [] p
  | check {k : Option ε → Prog ι ε ρ} {items : List ι} {q : Prog ι ε ρ}
      (rest : Leads (k none) items q) : Leads (.check k) items q
  | order {item : ι} {k : Bool → Prog ι ε ρ} {items : List ι} {q : Prog ι ε ρ}
      (rest : Leads (k true) items q) : Leads (.order item k) (item :: items) q
  | taken {w : Nat} {k : Offer → Prog ι ε ρ} {items : List ι} {q : Prog ι ε ρ}
      (rest : Leads (k .taken) items q) : Leads (.offer w k) items q
  | full {w : Nat} {k : Offer → Prog ι ε ρ} {items : List ι} {q : Prog ι ε ρ}
      (rest : Leads (k .full) items q) : Leads (.offer w k) items q
  | handed {w : Nat} {k : Bool → Prog ι ε ρ} {items : List ι} {q : Prog ι ε ρ}
      (rest : Leads (k true) items q) : Leads (.hand w k) items q
  | supplied {k : Prog ι ε ρ} {items : List ι} {q : Prog ι ε ρ} (rest : Leads k items q) :
      Leads (.supply k) items q

end Prog

/-- A part of the handler, which may fail and keeps its state then. -/
abbrev Thread (ι ε σ α : Type) := ExceptT ε (StateT σ (Prog ι ε)) α

namespace Thread

variable {ι ε σ : Type}

/-- The error that the consumer has noted. -/
def check : Thread ι ε σ (Option ε) := fun s => .check fun e => .done (.ok e, s)

def order (item : ι) : Thread ι ε σ Bool := fun s => .order item fun b => .done (.ok b, s)

def offer (w : Nat) : Thread ι ε σ Offer := fun s => .offer w fun o => .done (.ok o, s)

def hand (w : Nat) : Thread ι ε σ Bool := fun s => .hand w fun b => .done (.ok b, s)

def supply : Thread ι ε σ Unit := fun s => .supply (.done (.ok (), s))

/-- What does nothing to the pipeline. -/
def lift {α : Type} (x : EStateM ε σ α) : Thread ι ε σ α := fun s =>
  match x s with
  | .ok a s' => .done (.ok a, s')
  | .error e s' => .done (.error e, s')

/-- A loop with a bound. -/
def loop {τ β : Type} (stuck : ε) (body : τ → Thread ι ε σ (Loop.Iter τ β)) :
    Nat → τ → Thread ι ε σ β
  | 0, _ => throw stuck
  | n + 1, t => do
    match ← body t with
    | .next t' => loop stuck body n t'
    | .done b => return b

end Thread

/-- What becomes of the items. -/
structure Stages (ι β γ δ ε : Type) where
  /-- an item that is its own result -/
  direct : ι → Bool
  /-- the result of an item, unless making it panics -/
  result : ι → Option β
  eat : β → γ → Except ε γ
  /-- the error for a result that never comes -/
  lost : ε
  /-- whether the handler can see the error, which it cannot if it is a panic -/
  noted : ε → Bool
  close : γ → Except ε δ

/-- Where a result is. -/
inductive Slot (β : Type) where
  | waiting
  | ready (b : β)
  | lost

/-- What a worker does. -/
inductive Work where
  | free
  /-- it makes the result of the item at this position -/
  | making (j : Nat)
  /-- the item that it worked on is lost, but its inbox is still open -/
  | panicking
  | gone
  deriving DecidableEq, Repr

/-- A worker, with the position of the item in its inbox. -/
structure Worker where
  inbox : Option Nat := none
  work : Work := .free
  deriving DecidableEq, Repr

/-- A worker that does nothing before it gets an item. -/
def Worker.Idle (w : Worker) : Prop := w.inbox = none ∧ (w.work = .free ∨ w.work = .gone)

instance idleDecidable (w : Worker) : Decidable w.Idle :=
  inferInstanceAs (Decidable (_ ∧ (_ ∨ _)))

inductive Consumer (γ δ ε : Type) where
  | running (state : γ)
  /-- the item at this position is off the order queue, and its result may not be there -/
  | holding (state : γ) (j : Nat)
  /-- the error is known, but the order queue still takes items -/
  | failing (e : ε)
  | gone (result : Except ε δ)

inductive Handler (ι ε ρ : Type) where
  | running (p : Prog ι ε ρ)
  /-- all channels are closed -/
  | joining (r : ρ)

structure State (ι β γ δ ε ρ : Type) where
  handler : Handler ι ε ρ
  consumer : Consumer γ δ ε
  /-- the items ordered so far -/
  sent : List ι := []
  /-- the results, by the positions of their items -/
  slots : Nat → Slot β := fun _ => .waiting
  /-- how many items the consumer has taken off the order queue -/
  taken : Nat := 0
  err : Option ε := none
  workers : Nat → Worker := fun _ => {}

/-- The threads. -/
inductive Actor where
  | handler
  | worker (i : Nat)
  | consumer
  deriving DecidableEq, Repr

section Acts

variable {ι β γ δ ε ρ : Type} (stages : Stages ι β γ δ ε) (capacity : Nat)

def State.goOn (s : State ι β γ δ ε ρ) (p : Prog ι ε ρ) : State ι β γ δ ε ρ :=
  { s with handler := .running p }

def State.setWorker (s : State ι β γ δ ε ρ) (i : Nat) (w : Worker) : State ι β γ δ ε ρ :=
  { s with workers := Function.update s.workers i w }

/-- Put the item ordered last into the inbox of a worker. -/
def State.post (s : State ι β γ δ ε ρ) (w : Nat) : State ι β γ δ ε ρ :=
  match s.sent.length with
  | 0 => s
  | j + 1 => s.setWorker w { s.workers w with inbox := some j }

def State.setSlot (s : State ι β γ δ ε ρ) (j : Nat) (slot : Slot β) : State ι β γ δ ε ρ :=
  { s with slots := Function.update s.slots j slot }

/-- The item ordered last is dropped, and its result never comes. -/
def State.forget (s : State ι β γ δ ε ρ) : State ι β γ δ ε ρ :=
  s.setSlot (s.sent.length - 1) .lost

def Consumer.isGone : Consumer γ δ ε → Bool
  | .gone _ => true
  | _ => false

/-- The slot of an item whose result has been made. -/
def Stages.made (item : ι) : Slot β :=
  match stages.result item with
  | some b => .ready b
  | none => .lost

/-- The slot of an item that has just been ordered. -/
def Stages.first (item : ι) : Slot β :=
  if stages.direct item then stages.made item else .waiting

/-- The item ordered last gets its result. -/
def State.supply (s : State ι β γ δ ε ρ) : State ι β γ δ ε ρ :=
  match s.sent.getLast? with
  | none => s
  | some item => s.setSlot (s.sent.length - 1) (stages.made item)

def actHandler (s : State ι β γ δ ε ρ) : Option (State ι β γ δ ε ρ) :=
  match s.handler with
  | .joining _ => none
  | .running (.done r) => some { s with handler := .joining r }
  | .running (.check k) => some (s.goOn (k s.err))
  | .running (.order item k) =>
      if s.consumer.isGone then some (s.goOn (k false))
      else if s.sent.length - s.taken < capacity then
        some (({ s with sent := s.sent ++ [item] }.setSlot s.sent.length
          (stages.first item)).goOn (k true))
      else none
  | .running (.offer w k) =>
      if (s.workers w).work = .gone then some (s.forget.goOn (k .closed))
      else if (s.workers w).inbox = none then some ((s.post w).goOn (k .taken))
      else some (s.goOn (k .full))
  | .running (.hand w k) =>
      if (s.workers w).work = .gone then some (s.forget.goOn (k false))
      else if (s.workers w).inbox = none then some ((s.post w).goOn (k true))
      else none
  | .running (.supply k) => some ((s.supply stages).goOn k)

/-- A worker takes the item in its inbox, makes the result of the one it holds, or goes away
    after a panic. -/
def actWorker (i : Nat) (s : State ι β γ δ ε ρ) : Option (State ι β γ δ ε ρ) :=
  match (s.workers i).work with
  | .free =>
      match (s.workers i).inbox with
      | none => none
      | some j => some (s.setWorker i { work := .making j })
  | .making j =>
      match s.sent[j]?.bind stages.result with
      | some b => some ((s.setSlot j (.ready b)).setWorker i { s.workers i with work := .free })
      | none => some ((s.setSlot j .lost).setWorker i { s.workers i with work := .panicking })
  | .panicking =>
      -- what is in the inbox is dropped with it
      match (s.workers i).inbox with
      | none => some (s.setWorker i { work := .gone })
      | some j => some ((s.setSlot j .lost).setWorker i { work := .gone })
  | .gone => none

/-- The consumer notes its error. -/
def State.fail (s : State ι β γ δ ε ρ) (e : ε) : State ι β γ δ ε ρ :=
  { s with consumer := .failing e, err := if stages.noted e then s.err <|> some e else s.err }

/-- The consumer takes an item off the queue, or eats the one that it holds. -/
def actConsumer (s : State ι β γ δ ε ρ) : Option (State ι β γ δ ε ρ) :=
  match s.consumer with
  | .gone _ => none
  | .failing e => some { s with consumer := .gone (.error e) }
  | .running g =>
      if s.taken < s.sent.length then
        -- there is room in the queue from here on, whether or not the result is there
        some { s with consumer := .holding g s.taken, taken := s.taken + 1 }
      else
        match s.handler with
        | .running _ => none
        | .joining _ =>
            match stages.close g with
            | .ok d => some { s with consumer := .gone (.ok d) }
            | .error e => some (s.fail stages e)
  | .holding g j =>
      match s.slots j with
      | .waiting => none
      | .lost => some (s.fail stages stages.lost)
      | .ready b =>
          match stages.eat b g with
          | .ok g => some { s with consumer := .running g }
          | .error e => some (s.fail stages e)

def act : Actor → State ι β γ δ ε ρ → Option (State ι β γ δ ε ρ)
  | .handler => actHandler stages capacity
  | .worker i => actWorker stages i
  | .consumer => actConsumer stages

/-- Some threads act one after the other. -/
inductive Run : State ι β γ δ ε ρ → State ι β γ δ ε ρ → Prop where
  | refl (s : State ι β γ δ ε ρ) : Run s s
  | step {s s1 s2 : State ι β γ δ ε ρ} {a : Actor} (acts : act stages capacity a s = some s1)
      (rest : Run s1 s2) : Run s s2

/-- All threads have ended, with these results of the handler and the consumer. -/
structure Ended (s : State ι β γ δ ε ρ) (r : ρ) (result : Except ε δ) : Prop where
  handler : s.handler = .joining r
  consumer : s.consumer = .gone result
  workers : ∀ i, (s.workers i).Idle

/-- A pipeline before anything has been done. -/
def start (p : Prog ι ε ρ) (g : γ) : State ι β γ δ ε ρ where
  handler := .running p
  consumer := .running g

end Acts

namespace Prog

variable {ι ε ρ τ : Type}

theorem Leads.trans {p q r : Prog ι ε ρ} {items more : List ι} (h : Leads p items q)
    (h' : Leads q more r) : Leads p (items ++ more) r := by
  induction h with
  | refl => exact h'
  | check _ ih => exact .check (ih h')
  | order _ ih => exact .order (ih h')
  | taken _ ih => exact .taken (ih h')
  | full _ ih => exact .full (ih h')
  | handed _ ih => exact .handed (ih h')
  | supplied _ ih => exact .supplied (ih h')

/-- Without failures every program ends. -/
theorem leads_done (p : Prog ι ε ρ) : ∃ items r, Leads p items (.done r) := by
  induction p with
  | done r => exact ⟨[], r, .refl _⟩
  | check k ih =>
      obtain ⟨items, r, rest⟩ := ih none
      exact ⟨items, r, .check rest⟩
  | order item k ih =>
      obtain ⟨items, r, rest⟩ := ih true
      exact ⟨item :: items, r, .order rest⟩
  | offer w k ih =>
      obtain ⟨items, r, rest⟩ := ih .taken
      exact ⟨items, r, .taken rest⟩
  | hand w k ih =>
      obtain ⟨items, r, rest⟩ := ih true
      exact ⟨items, r, .handed rest⟩
  | supply k ih =>
      obtain ⟨items, r, rest⟩ := ih
      exact ⟨items, r, .supplied rest⟩

/-- A sequence is led through in two parts. -/
theorem leads_bind {p : Prog ι ε ρ} {f : ρ → Prog ι ε τ} {items : List ι} {t : τ}
    (h : Leads (p >>= f) items (.done t)) :
    ∃ r first rest, Leads p first (.done r) ∧ Leads (f r) rest (.done t) ∧
      items = first ++ rest := by
  induction p generalizing items with
  | done r => exact ⟨r, [], items, .refl _, h, rfl⟩
  | check k ih =>
      cases h with
      | check h =>
          obtain ⟨r, first, rest, left, right, rfl⟩ := ih none h
          exact ⟨r, first, rest, .check left, right, rfl⟩
  | order item k ih =>
      cases h with
      | order h =>
          obtain ⟨r, first, rest, left, right, rfl⟩ := ih true h
          exact ⟨r, item :: first, rest, .order left, right, rfl⟩
  | offer w k ih =>
      cases h with
      | taken h =>
          obtain ⟨r, first, rest, left, right, rfl⟩ := ih .taken h
          exact ⟨r, first, rest, .taken left, right, rfl⟩
      | full h =>
          obtain ⟨r, first, rest, left, right, rfl⟩ := ih .full h
          exact ⟨r, first, rest, .full left, right, rfl⟩
  | hand w k ih =>
      cases h with
      | handed h =>
          obtain ⟨r, first, rest, left, right, rfl⟩ := ih true h
          exact ⟨r, first, rest, .handed left, right, rfl⟩
  | supply k ih =>
      cases h with
      | supplied h =>
          obtain ⟨r, first, rest, left, right, rfl⟩ := ih h
          exact ⟨r, first, rest, .supplied left, right, rfl⟩

theorem leads_pure {items : List ι} {r t : ρ} (h : Leads (pure r : Prog ι ε ρ) items (.done t)) :
    items = [] ∧ r = t := by
  cases h
  exact ⟨rfl, rfl⟩

end Prog

section Eating

variable {ι β γ δ ε : Type} (stages : Stages ι β γ δ ε)

/-- All items one after the other, without threads. -/
def Stages.eatAll (g : γ) : List ι → Except ε γ
  | [] => .ok g
  | item :: rest => do
      match stages.result item with
      | none => throw stages.lost
      | some b =>
          let g ← stages.eat b g
          eatAll g rest

variable {stages}

theorem eatAll_append (g : γ) (items more : List ι) :
    stages.eatAll g (items ++ more) = stages.eatAll g items >>= fun g => stages.eatAll g more := by
  induction items generalizing g with
  | nil => rfl
  | cons item items ih =>
      simp only [List.cons_append, Stages.eatAll]
      cases stages.result item with
      | none => rfl
      | some b =>
          simp only
          cases stages.eat b g with
          | error e => rfl
          | ok g' => exact ih g'

theorem eatAll_one {g g' : γ} {item : ι} :
    stages.eatAll g [item] = .ok g' ↔
      ∃ b, stages.result item = some b ∧ stages.eat b g = .ok g' := by
  rw [Stages.eatAll]
  cases made : stages.result item with
  | none =>
      constructor
      · intro h
        cases h
      · rintro ⟨_, same, _⟩
        cases same
  | some b =>
      simp only [Stages.eatAll]
      constructor
      · intro h
        cases ate : stages.eat b g with
        | ok g1 =>
            rw [ate] at h
            exact ⟨b, rfl, ate.trans h⟩
        | error e =>
            rw [ate] at h
            cases h
      · rintro ⟨_, same, ate⟩
        cases same
        rw [ate]
        rfl

theorem eatAll_prefix {g g' : γ} {items more : List ι}
    (h : stages.eatAll g (items ++ more) = .ok g') : ∃ g1, stages.eatAll g items = .ok g1 := by
  rw [eatAll_append] at h
  cases run : stages.eatAll g items with
  | ok g1 => exact ⟨g1, rfl⟩
  | error e =>
      rw [run] at h
      cases h

theorem eatAll_result {g g' : γ} {items : List ι} (h : stages.eatAll g items = .ok g') :
    ∀ item ∈ items, stages.result item ≠ none := by
  intro item mem panicked
  obtain ⟨before, after, rfl⟩ := List.append_of_mem mem
  rw [eatAll_append] at h
  cases run : stages.eatAll g before with
  | error e =>
      rw [run] at h
      cases h
  | ok g1 =>
      rw [run] at h
      simp only [Stages.eatAll, panicked] at h
      cases h

end Eating

section Sound

variable {ι β γ δ ε ρ : Type} {stages : Stages ι β γ δ ε} {capacity : Nat} {g : γ}
  {s s' : State ι β γ δ ε ρ}

/-- A worker has this item. -/
def Worker.Has (w : Worker) (j : Nat) : Prop := w.inbox = some j ∨ w.work = .making j

/-- A worker that makes no more results. -/
def Worker.Dead (w : Worker) : Prop := w.work = .panicking ∨ w.work = .gone

/-- No result will ever come for some item. -/
def Panicked (stages : Stages ι β γ δ ε) (s : State ι β γ δ ε ρ) : Prop :=
  ∃ item ∈ s.sent, stages.result item = none

/-- The consumer cannot do with the items that have been ordered. -/
def Failed (stages : Stages ι β γ δ ε) (g : γ) (s : State ι β γ δ ε ρ) : Prop :=
  (∀ g', stages.eatAll g s.sent ≠ .ok g') ∨
    ∃ r g' e, s.handler = .joining r ∧ stages.eatAll g s.sent = .ok g' ∧ stages.close g' = .error e

def ConsumerSound (stages : Stages ι β γ δ ε) (g : γ) (s : State ι β γ δ ε ρ) : Prop :=
  match s.consumer with
  | .running g' => s.err = none ∧ stages.eatAll g (s.sent.take s.taken) = .ok g'
  | .holding g' j => s.err = none ∧ s.taken = j + 1 ∧ stages.eatAll g (s.sent.take j) = .ok g'
  | .failing _ => Failed stages g s
  | .gone (.error _) => Failed stages g s
  | .gone (.ok d) => s.err = none ∧ ∃ r g', s.handler = .joining r ∧
      stages.eatAll g s.sent = .ok g' ∧ stages.close g' = .ok d

/-- Results are those of their items, and what is missing has a reason. -/
structure Sound (stages : Stages ι β γ δ ε) (g : γ) (s : State ι β γ δ ε ρ) : Prop where
  within : s.taken ≤ s.sent.length
  ready : ∀ j b, s.slots j = .ready b → s.sent[j]?.bind stages.result = some b
  lost : ∀ j, s.slots j = .lost → Panicked stages s
  dead : ∀ w, (s.workers w).Dead → Panicked stages s
  holds : ∀ w j, (s.workers w).Has j → j < s.sent.length
  consumer : ConsumerSound stages g s

theorem Panicked.failed (h : Panicked stages s) : Failed stages g s := by
  obtain ⟨item, mem, panicked⟩ := h
  exact .inl fun g' eaten => eatAll_result eaten item mem panicked

theorem Sound.clear (h : Sound stages g s) (fine : ¬Failed stages g s) : s.err = none := by
  have consumer := h.consumer
  rw [ConsumerSound] at consumer
  split at consumer
  · exact consumer.1
  · exact consumer.1
  · exact absurd consumer fine
  · exact absurd consumer fine
  · exact consumer.1

/-- The consumer goes away early only when it has failed. -/
theorem Sound.present (h : Sound stages g s) (fine : ¬Failed stages g s)
    {p : Prog ι ε ρ} (running : s.handler = .running p) : s.consumer.isGone = false := by
  have consumer := h.consumer
  rw [ConsumerSound] at consumer
  split at consumer
  · next e => rw [e]; rfl
  · next e => rw [e]; rfl
  · next e => rw [e]; rfl
  · exact absurd consumer fine
  · obtain ⟨_, r, _, joining, _⟩ := consumer
    cases running.symm.trans joining

theorem sound_start (p : Prog ι ε ρ) (g : γ) : Sound stages g (start p g) where
  within := Nat.zero_le 0
  ready j b h := by cases h
  lost j h := by cases h
  dead w h := by rcases h with h | h <;> cases h
  holds w j h := by rcases h with h | h <;> cases h
  consumer := ⟨rfl, rfl⟩

section Handler

/-- What only the handler looks at may change. -/
theorem Sound.handled (h : Sound stages g s) {p : Prog ι ε ρ} (running : s.handler = .running p)
    (handler : Handler ι ε ρ) : Sound stages g { s with handler } := by
  refine ⟨h.within, h.ready, h.lost, h.dead, h.holds, ?_⟩
  have failed (h : Failed stages g s) : Failed stages g { s with handler } := by
    rcases h with spoiled | ⟨r, _, _, joining, _⟩
    · exact .inl spoiled
    · cases running.symm.trans joining
  have consumer := h.consumer
  unfold ConsumerSound at consumer ⊢
  split at consumer
  · next e => simp only [e]; exact consumer
  · next e => simp only [e]; exact consumer
  · next e => simp only [e]; exact failed consumer
  · next e => simp only [e]; exact failed consumer
  · obtain ⟨_, r, _, joining, _⟩ := consumer
    cases running.symm.trans joining

theorem Sound.goOn (h : Sound stages g s) {p : Prog ι ε ρ} (running : s.handler = .running p)
    (q : Prog ι ε ρ) : Sound stages g (s.goOn q) := h.handled running _

/-- Workers and slots may change as long as they are right. -/
theorem Sound.reslot (h : Sound stages g s) {slots : Nat → Slot β} {workers : Nat → Worker}
    (ready : ∀ j b, slots j = .ready b → s.sent[j]?.bind stages.result = some b)
    (lost : ∀ j, slots j = .lost → Panicked stages s)
    (dead : ∀ w, (workers w).Dead → Panicked stages s)
    (holds : ∀ w j, (workers w).Has j → j < s.sent.length) :
    Sound stages g { s with slots, workers } :=
  ⟨h.within, ready, lost, dead, holds, h.consumer⟩

theorem Sound.setWorker (h : Sound stages g s) (i : Nat) {w : Worker}
    (dead : w.Dead → Panicked stages s) (holds : ∀ j, w.Has j → j < s.sent.length) :
    Sound stages g (s.setWorker i w) := by
  refine h.reslot h.ready h.lost (fun j gone => ?_) fun j k found => ?_
  · by_cases same : j = i
    · subst same
      rw [Function.update_self] at gone
      exact dead gone
    · rw [Function.update_of_ne same] at gone
      exact h.dead j gone
  · by_cases same : j = i
    · subst same
      rw [Function.update_self] at found
      exact holds k found
    · rw [Function.update_of_ne same] at found
      exact h.holds j k found

theorem post_same (s : State ι β γ δ ε ρ) (w : Nat) :
    (s.post w).sent = s.sent ∧ (s.post w).handler = s.handler := by
  unfold State.post
  split
  · exact ⟨rfl, rfl⟩
  · exact ⟨rfl, rfl⟩

theorem Sound.post (h : Sound stages g s) (w : Nat) : Sound stages g (s.post w) := by
  unfold State.post
  split
  · exact h
  · next j length =>
      refine h.setWorker w (h.dead w) fun k found => ?_
      rcases found with posted | held
      · cases posted
        omega
      · exact h.holds w k (.inr held)

theorem Sound.setSlot (h : Sound stages g s) {j : Nat} {slot : Slot β}
    (ready : ∀ b, slot = .ready b → s.sent[j]?.bind stages.result = some b)
    (lost : slot = .lost → Panicked stages s) : Sound stages g (s.setSlot j slot) := by
  refine h.reslot (fun i b found => ?_) (fun i found => ?_) h.dead h.holds
  · by_cases same : i = j
    · subst same
      rw [Function.update_self] at found
      exact ready b found
    · rw [Function.update_of_ne same] at found
      exact h.ready i b found
  · by_cases same : i = j
    · subst same
      rw [Function.update_self] at found
      exact lost found
    · rw [Function.update_of_ne same] at found
      exact h.lost i found

theorem Stages.made_ready {item : ι} {b : β} (h : stages.made item = .ready b) :
    stages.result item = some b := by
  rw [Stages.made] at h
  split at h
  · next result =>
      cases h
      exact result
  · cases h

theorem Stages.made_lost {item : ι} (h : stages.made item = .lost) :
    stages.result item = none := by
  rw [Stages.made] at h
  split at h
  · cases h
  · next result => exact result

theorem supply_same (s : State ι β γ δ ε ρ) :
    (s.supply stages).sent = s.sent ∧ (s.supply stages).handler = s.handler := by
  unfold State.supply
  split
  · exact ⟨rfl, rfl⟩
  · exact ⟨rfl, rfl⟩

theorem Sound.supply (h : Sound stages g s) : Sound stages g (s.supply stages) := by
  unfold State.supply
  split
  · exact h
  · next item last =>
      rw [List.getLast?_eq_getElem?] at last
      refine h.setSlot (fun b ready => ?_) fun lost => ?_
      · rw [last]
        exact Stages.made_ready ready
      · exact ⟨item, List.mem_of_getElem? last, Stages.made_lost lost⟩

theorem Sound.forget (h : Sound stages g s) (panicked : Panicked stages s) :
    Sound stages g s.forget :=
  h.setSlot (fun _ found => by cases found) fun _ => panicked

theorem Panicked.ordered (h : Panicked stages s) (item : ι) :
    Panicked stages { s with sent := s.sent ++ [item] } := by
  obtain ⟨other, mem, panicked⟩ := h
  exact ⟨other, List.mem_append_left _ mem, panicked⟩

theorem Sound.extend (h : Sound stages g s) {p : Prog ι ε ρ} (running : s.handler = .running p)
    (open_ : s.consumer.isGone = false) (item : ι) :
    Sound stages g { s with sent := s.sent ++ [item] } := by
  have more (h : Failed stages g s) : Failed stages g { s with sent := s.sent ++ [item] } := by
    rcases h with spoiled | ⟨r, _, _, joining, _⟩
    · refine .inl fun g' eaten => ?_
      obtain ⟨g1, part⟩ := eatAll_prefix eaten
      exact spoiled g1 part
    · cases running.symm.trans joining
  refine ⟨?_, fun j b found => ?_, fun j found => (h.lost j found).ordered item,
    fun w dead => (h.dead w dead).ordered item, fun w j found => ?_, ?_⟩
  · rw [List.length_append]
    exact Nat.le_add_right_of_le h.within
  · have known := h.ready j b found
    have inside : j < s.sent.length := by
      by_contra outside
      rw [List.getElem?_eq_none (Nat.le_of_not_lt outside)] at known
      cases known
    rwa [List.getElem?_append_left inside]
  · rw [List.length_append]
    exact Nat.lt_add_right _ (h.holds w j found)
  · have consumer := h.consumer
    unfold ConsumerSound at consumer ⊢
    split at consumer
    · next e =>
        simp only [e]
        rwa [List.take_append_of_le_length h.within]
    · next j e =>
        simp only [e]
        have inside : j ≤ s.sent.length := by
          have within := h.within
          rw [consumer.2.1] at within
          exact (Nat.lt_of_succ_le within).le
        rwa [List.take_append_of_le_length inside]
    · next e => simp only [e]; exact more consumer
    · next e => rw [e] at open_; cases open_
    · next e => rw [e] at open_; cases open_

theorem Sound.order (h : Sound stages g s) {p : Prog ι ε ρ} (running : s.handler = .running p)
    (open_ : s.consumer.isGone = false) (item : ι) :
    Sound stages g ({ s with sent := s.sent ++ [item] }.setSlot s.sent.length
      (stages.first item)) := by
  refine (h.extend running open_ item).setSlot (fun b first => ?_) fun first => ?_
  · rw [List.getElem?_concat_length]
    rw [Stages.first] at first
    split at first
    · exact Stages.made_ready first
    · cases first
  · rw [Stages.first] at first
    split at first
    · exact ⟨item, by simp, Stages.made_lost first⟩
    · cases first

theorem Sound.handler (h : Sound stages g s) (acts : actHandler stages capacity s = some s') :
    Sound stages g s' := by
  unfold actHandler at acts
  split at acts
  · cases acts
  · next r running =>
      cases acts
      exact h.handled running _
  · next running =>
      cases acts
      exact h.goOn running _
  · next item k running =>
      split at acts
      · cases acts
        exact h.goOn running _
      · next open_ =>
          split at acts
          · cases acts
            exact (h.order running (Bool.eq_false_iff.mpr open_) item).goOn running _
          · cases acts
  · next w k running =>
      split at acts
      · next dead =>
          cases acts
          exact (h.forget (h.dead w (.inr dead))).goOn running _
      · split at acts
        · cases acts
          exact (h.post w).goOn ((post_same s w).2.trans running) _
        · cases acts
          exact h.goOn running _
  · next w k running =>
      split at acts
      · next dead =>
          cases acts
          exact (h.forget (h.dead w (.inr dead))).goOn running _
      · split at acts
        · cases acts
          exact (h.post w).goOn ((post_same s w).2.trans running) _
        · cases acts
  · next k running =>
      cases acts
      exact h.supply.goOn ((supply_same s).2.trans running) _

end Handler

theorem Sound.worker (h : Sound stages g s) {i : Nat} (acts : actWorker stages i s = some s') :
    Sound stages g s' := by
  have gone (j : Nat) (has : ({ work := .gone } : Worker).Has j) : j < s.sent.length := by
    rcases has with none | none <;> cases none
  unfold actWorker at acts
  split at acts
  · next free =>
      split at acts
      · cases acts
      · next j posted =>
          cases acts
          refine h.setWorker i (fun dead => ?_) fun k found => ?_
          · rcases dead with other | other <;> cases other
          · rcases found with none | making
            · cases none
            · cases making
              exact h.holds i j (.inl posted)
  · next j making =>
      have inside := h.holds i j (.inr making)
      split at acts
      · next b result =>
          cases acts
          refine (h.setSlot (fun b' same => ?_) fun none => by cases none).setWorker i
            (fun dead => ?_) fun k found => ?_
          · cases same
            exact result
          · rcases dead with other | other <;> cases other
          · rcases found with posted | other
            · exact h.holds i k (.inl posted)
            · cases other
      · next panics =>
          have panicked : Panicked stages s := by
            refine ⟨s.sent[j], List.getElem_mem _, ?_⟩
            rwa [List.getElem?_eq_getElem inside] at panics
          cases acts
          refine (h.setSlot (fun _ same => by cases same) fun _ => panicked).setWorker i
            (fun _ => panicked) fun k found => ?_
          rcases found with posted | other
          · exact h.holds i k (.inl posted)
          · cases other
  · next panicking =>
      have panicked := h.dead i (.inl panicking)
      split at acts
      · cases acts
        exact h.setWorker i (fun _ => panicked) gone
      · cases acts
        exact (h.setSlot (fun _ same => by cases same) fun _ => panicked).setWorker i
          (fun _ => panicked) gone
  · cases acts

theorem Sound.fail (h : Sound stages g s) (failed : Failed stages g s) (e : ε) :
    Sound stages g (s.fail stages e) :=
  ⟨h.within, h.ready, h.lost, h.dead, h.holds, failed⟩

theorem eatAll_step {g' : γ} {n : Nat} (inside : n < s.sent.length)
    (eaten : stages.eatAll g (s.sent.take n) = .ok g') {b : β}
    (ready : s.sent[n]?.bind stages.result = some b) :
    stages.eatAll g (s.sent.take (n + 1)) = stages.eat b g' := by
  rw [List.getElem?_eq_getElem inside] at ready
  rw [List.take_succ_eq_append_getElem inside, eatAll_append, eaten]
  show (match stages.result s.sent[n] with
    | none => throw stages.lost
    | some b => stages.eat b g' >>= fun g => pure g) = _
  rw [show stages.result s.sent[n] = some b from ready]
  exact bind_pure (stages.eat b g')

/-- The consumer takes the next item off the queue. -/
theorem Sound.take (h : Sound stages g s) {g' : γ} (running : s.consumer = .running g')
    (inside : s.taken < s.sent.length) :
    Sound stages g { s with consumer := .holding g' s.taken, taken := s.taken + 1 } := by
  have consumer := h.consumer
  rw [ConsumerSound, running] at consumer
  obtain ⟨clear, eaten⟩ := consumer
  exact ⟨inside, h.ready, h.lost, h.dead, h.holds, clear, rfl, eaten⟩

/-- The consumer eats the item that it holds. -/
theorem Sound.eat (h : Sound stages g s) {g' : γ} {j : Nat} (holding : s.consumer = .holding g' j)
    (acts : actConsumer stages s = some s') : Sound stages g s' := by
  have consumer := h.consumer
  rw [ConsumerSound, holding] at consumer
  obtain ⟨clear, taken, eaten⟩ := consumer
  have inside : j < s.sent.length := by
    have within := h.within
    rwa [taken] at within
  rw [actConsumer, holding] at acts
  simp only at acts
  split at acts
  · cases acts
  · next lost =>
      cases acts
      exact h.fail (h.lost _ lost).failed _
  · next b ready =>
      have step := eatAll_step inside eaten (h.ready _ b ready)
      split at acts
      · next g1 ate =>
          cases acts
          refine ⟨h.within, h.ready, h.lost, h.dead, h.holds, clear, ?_⟩
          show stages.eatAll g (s.sent.take s.taken) = .ok g1
          rw [taken]
          exact step.trans ate
      · next e refused =>
          cases acts
          refine h.fail (.inl fun g1 whole => ?_) _
          rw [← List.take_append_drop (j + 1) s.sent] at whole
          obtain ⟨g2, part⟩ := eatAll_prefix whole
          cases part.symm.trans (step.trans refused)

/-- The consumer has eaten everything, and closes. -/
theorem Sound.close (h : Sound stages g s) {g' : γ} (running : s.consumer = .running g')
    (empty : ¬s.taken < s.sent.length) (acts : actConsumer stages s = some s') :
    Sound stages g s' := by
  have consumer := h.consumer
  rw [ConsumerSound, running] at consumer
  obtain ⟨clear, eaten⟩ := consumer
  have whole : stages.eatAll g s.sent = .ok g' := by
    rwa [List.take_of_length_le (Nat.le_of_not_lt empty)] at eaten
  rw [actConsumer, running] at acts
  simp only [if_neg empty] at acts
  split at acts
  · cases acts
  · next r joining =>
      split at acts
      · next d closed =>
          cases acts
          exact ⟨h.within, h.ready, h.lost, h.dead, h.holds, clear, r, g', joining, whole, closed⟩
      · next e refused =>
          cases acts
          exact h.fail (.inr ⟨r, g', e, joining, whole, refused⟩) e

theorem Sound.consume (h : Sound stages g s) (acts : actConsumer stages s = some s') :
    Sound stages g s' := by
  cases at_ : s.consumer with
  | gone result =>
      rw [actConsumer, at_] at acts
      cases acts
  | failing e =>
      have consumer := h.consumer
      rw [ConsumerSound, at_] at consumer
      rw [actConsumer, at_] at acts
      cases acts
      exact ⟨h.within, h.ready, h.lost, h.dead, h.holds, consumer⟩
  | holding g' j => exact h.eat at_ acts
  | running g' =>
      by_cases inside : s.taken < s.sent.length
      · have takes := h.take at_ inside
        rw [actConsumer, at_] at acts
        simp only [if_pos inside] at acts
        cases acts
        exact takes
      · exact h.close at_ inside acts

theorem Sound.act (h : Sound stages g s) {a : Actor}
    (acts : Pipeline.act stages capacity a s = some s') :
    Sound stages g s' := by
  cases a with
  | handler => exact h.handler acts
  | worker i => exact h.worker acts
  | consumer => exact h.consume acts

theorem Sound.run (h : Sound stages g s) (run : Run stages capacity s s') :
    Sound stages g s' := by
  induction run with
  | refl => exact h
  | step acts _ ih => exact ih (h.act acts)

/-- Where the handler is in its program. -/
def Handler.now : Handler ι ε ρ → Prog ι ε ρ
  | .running p => p
  | .joining r => .done r

theorem worker_same {i : Nat} (acts : actWorker stages i s = some s') :
    s'.sent = s.sent ∧ s'.handler = s.handler := by
  unfold actWorker at acts
  split at acts
  · split at acts
    · cases acts
    · cases acts
      exact ⟨rfl, rfl⟩
  · split at acts
    · cases acts
      exact ⟨rfl, rfl⟩
    · cases acts
      exact ⟨rfl, rfl⟩
  · split at acts
    · cases acts
      exact ⟨rfl, rfl⟩
    · cases acts
      exact ⟨rfl, rfl⟩
  · cases acts

theorem consumer_same (acts : actConsumer stages s = some s') :
    s'.sent = s.sent ∧ s'.handler = s.handler := by
  unfold actConsumer at acts
  split at acts
  · cases acts
  · cases acts
    exact ⟨rfl, rfl⟩
  · split at acts
    · cases acts
      exact ⟨rfl, rfl⟩
    · split at acts
      · cases acts
      · split at acts
        · cases acts
          exact ⟨rfl, rfl⟩
        · cases acts
          exact ⟨rfl, rfl⟩
  · split at acts
    · cases acts
    · cases acts
      exact ⟨rfl, rfl⟩
    · split at acts
      · cases acts
        exact ⟨rfl, rfl⟩
      · cases acts
        exact ⟨rfl, rfl⟩

/-- As long as the consumer can do with the items, the program is led through without
    failures. -/
theorem Sound.leads (h : Sound stages g s) (fine : ¬Failed stages g s) {p : Prog ι ε ρ}
    (before : p.Leads s.sent s.handler.now) {a : Actor}
    (acts : Pipeline.act stages capacity a s = some s') : p.Leads s'.sent s'.handler.now := by
  cases a with
  | worker i =>
      obtain ⟨sent, handler⟩ := worker_same acts
      rwa [sent, handler]
  | consumer =>
      obtain ⟨sent, handler⟩ := consumer_same acts
      rwa [sent, handler]
  | handler =>
      have alive (w : Nat) : (s.workers w).work ≠ .gone := fun dead =>
        fine (h.dead w (.inr dead)).failed
      change actHandler stages capacity s = some s' at acts
      unfold actHandler at acts
      split at acts
      · cases acts
      · next r running =>
          cases acts
          rw [running] at before
          exact before
      · next k running =>
          cases acts
          rw [running] at before
          rw [h.clear fine]
          have step := before.trans (.check (.refl (k none)))
          rwa [List.append_nil] at step
      · next item k running =>
          rw [running] at before
          rw [h.present fine running, if_neg Bool.false_ne_true] at acts
          split at acts
          · cases acts
            exact before.trans (.order (.refl (k true)))
          · cases acts
      · next w k running =>
          rw [running] at before
          rw [if_neg (alive w)] at acts
          split at acts
          · cases acts
            have step := before.trans (.taken (.refl (k .taken)))
            rw [List.append_nil, ← (post_same s w).1] at step
            exact step
          · cases acts
            have step := before.trans (.full (w := w) (.refl (k .full)))
            rwa [List.append_nil] at step
      · next w k running =>
          rw [running] at before
          rw [if_neg (alive w)] at acts
          split at acts
          · cases acts
            have step := before.trans (.handed (.refl (k true)))
            rw [List.append_nil, ← (post_same s w).1] at step
            exact step
          · cases acts
      · next k running =>
          rw [running] at before
          cases acts
          have step := before.trans (.supplied (.refl k))
          rw [List.append_nil, ← (supply_same s).1] at step
          exact step

theorem handler_grows (acts : actHandler stages capacity s = some s') :
    ∃ more, s'.sent = s.sent ++ more := by
  have same (h : s'.sent = s.sent) : ∃ more, s'.sent = s.sent ++ more :=
    ⟨[], h.trans (List.append_nil _).symm⟩
  unfold actHandler at acts
  split at acts
  · cases acts
  · cases acts
    exact same rfl
  · cases acts
    exact same rfl
  · split at acts
    · cases acts
      exact same rfl
    · split at acts
      · cases acts
        exact ⟨[_], rfl⟩
      · cases acts
  · split at acts
    · cases acts
      exact same rfl
    · split at acts
      · cases acts
        exact same (post_same s _).1
      · cases acts
        exact same rfl
  · split at acts
    · cases acts
      exact same rfl
    · split at acts
      · cases acts
        exact same (post_same s _).1
      · cases acts
  · cases acts
    exact same (supply_same s).1

/-- Once the consumer has failed it stays so. -/
theorem Failed.act (failed : Failed stages g s) {a : Actor}
    (acts : Pipeline.act stages capacity a s = some s') : Failed stages g s' := by
  have same (sent : s'.sent = s.sent) (handler : s'.handler = s.handler) : Failed stages g s' := by
    rwa [Failed, sent, handler]
  cases a with
  | worker i =>
      obtain ⟨sent, handler⟩ := worker_same acts
      exact same sent handler
  | consumer =>
      obtain ⟨sent, handler⟩ := consumer_same acts
      exact same sent handler
  | handler =>
      rcases failed with spoiled | ⟨r, _, _, joining, _⟩
      · obtain ⟨more, sent⟩ := handler_grows acts
        refine .inl fun g' eaten => ?_
        rw [sent] at eaten
        obtain ⟨g1, part⟩ := eatAll_prefix eaten
        exact spoiled g1 part
      · change actHandler stages capacity s = some s' at acts
        rw [actHandler, joining] at acts
        cases acts

theorem Sound.led (h : Sound stages g s) {p : Prog ι ε ρ}
    (before : Failed stages g s ∨ p.Leads s.sent s.handler.now)
    (run : Run stages capacity s s') : Failed stages g s' ∨ p.Leads s'.sent s'.handler.now := by
  induction run with
  | refl => exact before
  | @step s _ _ _ acts _ ih =>
      refine ih (h.act acts) ?_
      by_cases failed : Failed stages g s
      · exact .inl (failed.act acts)
      · exact .inr (h.leads failed (before.resolve_left failed) acts)

theorem Sound.returned (h : Sound stages g s) {d : δ} (gone : s.consumer = .gone (.ok d)) :
    ¬Failed stages g s ∧ ∃ g', stages.eatAll g s.sent = .ok g' ∧ stages.close g' = .ok d := by
  have consumer := h.consumer
  rw [ConsumerSound, gone] at consumer
  obtain ⟨_, r, g', joining, eaten, closed⟩ := consumer
  refine ⟨?_, g', eaten, closed⟩
  rintro (spoiled | ⟨_, g1, e, _, eaten', refused⟩)
  · exact spoiled g' eaten
  · cases eaten.symm.trans eaten'
    cases closed.symm.trans refused

end Sound

section Runs

variable {ι β γ δ ε ρ : Type} {stages : Stages ι β γ δ ε} {capacity : Nat} {g : γ}
  {p : Prog ι ε ρ} {s : State ι β γ δ ε ρ} {r : ρ}

/-- When the consumer returns, nothing has failed: the program has been led through, and
    the consumer has eaten all its items in their order. -/
theorem ended_ok (run : Run stages capacity (start p g) s) {d : δ} (ended : Ended s r (.ok d)) :
    ∃ items g', p.Leads items (.done r) ∧ stages.eatAll g items = .ok g' ∧
      stages.close g' = .ok d := by
  have sound := (sound_start p g).run run
  obtain ⟨fine, g', eaten, closed⟩ := sound.returned ended.consumer
  have led := ((sound_start p g).led (.inr (.refl p)) run).resolve_left fine
  rw [ended.handler] at led
  exact ⟨s.sent, g', led, eaten, closed⟩

/-- The consumer can do with all that the program may order. -/
def Edible (stages : Stages ι β γ δ ε) (g : γ) (p : Prog ι ε ρ) : Prop :=
  ∀ items r, p.Leads items (.done r) →
    ∃ g' d, stages.eatAll g items = .ok g' ∧ stages.close g' = .ok d

theorem Edible.fine (edible : Edible stages g p) (leads : p.Leads s.sent s.handler.now) :
    ¬Failed stages g s := by
  rintro (spoiled | ⟨r, g', e, joining, eaten, refused⟩)
  · obtain ⟨more, r, rest⟩ := Prog.leads_done s.handler.now
    obtain ⟨g', d, eaten, _⟩ := edible _ r (leads.trans rest)
    obtain ⟨g1, part⟩ := eatAll_prefix eaten
    exact spoiled g1 part
  · rw [joining] at leads
    obtain ⟨g1, d, eaten', closed⟩ := edible _ r leads
    cases eaten.symm.trans eaten'
    cases refused.symm.trans closed

theorem Edible.leads (edible : Edible stages g p) {s' : State ι β γ δ ε ρ}
    (sound : Sound stages g s) (leads : p.Leads s.sent s.handler.now)
    (run : Run stages capacity s s') : p.Leads s'.sent s'.handler.now := by
  induction run with
  | refl => exact leads
  | step acts _ ih => exact ih (sound.act acts) (sound.leads (edible.fine leads) leads acts)

/-- Then every run succeeds. -/
theorem Edible.ended (edible : Edible stages g p) (run : Run stages capacity (start p g) s)
    {result : Except ε δ} (ended : Ended s r result) :
    ∃ d items g', result = .ok d ∧ p.Leads items (.done r) ∧
      stages.eatAll g items = .ok g' ∧ stages.close g' = .ok d := by
  have fine := edible.fine (edible.leads (sound_start p g) (.refl p) run)
  have consumer := ((sound_start p g).run run).consumer
  rw [ConsumerSound, ended.consumer] at consumer
  cases result with
  | error e => exact absurd consumer fine
  | ok d =>
      obtain ⟨items, g', led, eaten, closed⟩ := ended_ok run ended
      exact ⟨d, items, g', rfl, led, eaten, closed⟩

end Runs

end Pipeline
