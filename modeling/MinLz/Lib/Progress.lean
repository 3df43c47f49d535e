import Mathlib.Algebra.Order.BigOperators.Group.Finset
import MinLz.Lib.Pipeline

/-! # Every run of a pipeline ends

A handler that hands over each item that needs a worker before it goes on never waits for a
result that nobody makes. So there is always a thread that can act until all have ended,
and they cannot act forever.
-/

namespace Pipeline

variable {ι β γ δ ε ρ σ τ α κ : Type}

/-- A program that uses the first `n` workers and hands over each item that is not its own
    result, or supplies it, before it orders the next; `owed` says that it still has to. It
    ends as `Q` says. -/
inductive Diligent (n : Nat) (direct : ι → Bool) (Q : Bool → ρ → Prop) : Bool → Prog ι ε ρ → Prop where
  | done {owed : Bool} {r : ρ} (h : Q owed r) : Diligent n direct Q owed (.done r)
  | check {owed : Bool} {k : Option ε → Prog ι ε ρ} (h : ∀ e, Diligent n direct Q owed (k e)) :
      Diligent n direct Q owed (.check k)
  | order {item : ι} {k : Bool → Prog ι ε ρ} (sent : Diligent n direct Q (!direct item) (k true))
      (closed : Diligent n direct Q false (k false)) : Diligent n direct Q false (.order item k)
  | offer {w : Nat} {k : Offer → Prog ι ε ρ} (one : w < n)
      (taken : Diligent n direct Q false (k .taken)) (full : Diligent n direct Q true (k .full))
      (closed : Diligent n direct Q false (k .closed)) : Diligent n direct Q true (.offer w k)
  | hand {w : Nat} {k : Bool → Prog ι ε ρ} (one : w < n)
      (handed : Diligent n direct Q false (k true)) (closed : Diligent n direct Q false (k false)) :
      Diligent n direct Q true (.hand w k)
  | supply {k : Prog ι ε ρ} (supplied : Diligent n direct Q false k) :
      Diligent n direct Q true (.supply k)

theorem Diligent.bind {n : Nat} {direct : ι → Bool} {P : Bool → ρ → Prop} {Q : Bool → τ → Prop}
    {owed : Bool} {p : Prog ι ε ρ} {f : ρ → Prog ι ε τ} (h : Diligent n direct P owed p)
    (next : ∀ owed r, P owed r → Diligent n direct Q owed (f r)) :
    Diligent n direct Q owed (p.bind f) := by
  induction h with
  | done h => exact next _ _ h
  | check _ ih => exact .check ih
  | order _ _ sent closed => exact .order sent closed
  | offer one _ _ _ taken full closed => exact .offer one taken full closed
  | hand one _ _ handed closed => exact .hand one handed closed
  | supply _ supplied => exact .supply supplied

theorem Diligent.mono {n : Nat} {direct : ι → Bool} {P Q : Bool → ρ → Prop} {owed : Bool}
    {p : Prog ι ε ρ} (h : Diligent n direct P owed p) (more : ∀ owed r, P owed r → Q owed r) :
    Diligent n direct Q owed p := by
  induction h with
  | done h => exact .done (more _ _ h)
  | check _ ih => exact .check ih
  | order _ _ sent closed => exact .order sent closed
  | offer one _ _ _ taken full closed => exact .offer one taken full closed
  | hand one _ _ handed closed => exact .hand one handed closed
  | supply _ supplied => exact .supply supplied

section Tended

variable {stages : Stages ι β γ δ ε} {capacity n : Nat} {s s' : State ι β γ δ ε ρ}

/-- Nothing is owed. -/
abbrev Paid (owed : Bool) (_ : ρ) : Prop := owed = false

/-- Each item without a result is with a worker, or the handler is about to hand it over. -/
structure Tended (stages : Stages ι β γ δ ε) (n : Nat) (owed : Bool) (s : State ι β γ δ ε ρ) :
    Prop where
  diligent : Diligent n stages.direct Paid owed s.handler.now
  idle : ∀ w, n ≤ w → (s.workers w).Idle
  left : ∀ w, (s.workers w).work = .gone → (s.workers w).inbox = none
  waits : ∀ j < s.sent.length, s.slots j = .waiting →
    (∃ w, (s.workers w).Has j) ∨ owed = true ∧ j + 1 = s.sent.length
  taken : ∀ g j, s.consumer = .holding g j → j < s.sent.length

theorem tended_start {p : Prog ι ε ρ} (h : Diligent n stages.direct Paid false p) (g : γ) :
    Tended stages n false (start p g) where
  diligent := h
  idle _ _ := ⟨rfl, .inl rfl⟩
  left _ _ := rfl
  waits j inside _ := absurd inside (Nat.not_lt_zero j)
  taken _ _ holding := by cases holding

/-- The handler goes on without a change for the others. -/
theorem Tended.goOn {owed : Bool} (h : Tended stages n owed s) {q : Prog ι ε ρ}
    (diligent : Diligent n stages.direct Paid owed q) : Tended stages n owed (s.goOn q) :=
  ⟨diligent, h.idle, h.left, h.waits, h.taken⟩

theorem Tended.setWorker {owed : Bool} (h : Tended stages n owed s) {i : Nat} (one : i < n)
    {w : Worker} (left : w.work = .gone → w.inbox = none)
    (keeps : ∀ j, s.slots j = .waiting → (s.workers i).Has j → w.Has j) :
    Tended stages n owed (s.setWorker i w) := by
  refine ⟨h.diligent, fun k many => ?_, fun k => ?_, fun j inside waiting => ?_, h.taken⟩
  · have other : k ≠ i := by omega
    show (Function.update s.workers i w k).Idle
    rw [Function.update_of_ne other]
    exact h.idle k many
  · show (Function.update s.workers i w k).work = .gone →
      (Function.update s.workers i w k).inbox = none
    by_cases same : k = i
    · subst same
      rwa [Function.update_self]
    · rw [Function.update_of_ne same]
      exact h.left k
  · refine (h.waits j inside waiting).imp_left ?_
    rintro ⟨k, has⟩
    by_cases same : k = i
    · subst same
      refine ⟨k, ?_⟩
      show (Function.update s.workers k w k).Has j
      rw [Function.update_self]
      exact keeps j waiting has
    · refine ⟨k, ?_⟩
      show (Function.update s.workers i w k).Has j
      rwa [Function.update_of_ne same]

/-- A slot that no longer waits needs nobody. -/
theorem Tended.setSlot {owed : Bool} (h : Tended stages n owed s) (j : Nat) (slot : Slot β)
    (filled : slot ≠ .waiting) : Tended stages n owed (s.setSlot j slot) := by
  refine ⟨h.diligent, h.idle, h.left, fun k inside waiting => ?_, h.taken⟩
  have same : Function.update s.slots j slot k = .waiting := waiting
  by_cases this : k = j
  · subst this
    rw [Function.update_self] at same
    exact absurd same filled
  · rw [Function.update_of_ne this] at same
    exact h.waits k inside same

/-- The item ordered last has been handed over. -/
theorem Tended.post (h : Tended stages n true s) {w : Nat} (one : w < n)
    (present : (s.workers w).work ≠ .gone) (free : (s.workers w).inbox = none) {q : Prog ι ε ρ}
    (diligent : Diligent n stages.direct Paid false q) :
    Tended stages n false ((s.post w).goOn q) := by
  unfold State.post
  split
  · next none =>
      refine ⟨diligent, h.idle, h.left, fun j inside _ => ?_, h.taken⟩
      have inside : j < s.sent.length := inside
      omega
  · next last length =>
      have posted : Tended stages n true
          (s.setWorker w { s.workers w with inbox := some last }) := by
        refine h.setWorker one (fun gone => absurd gone present) fun j _ has => ?_
        refine has.imp_left fun inbox => ?_
        cases free.symm.trans inbox
      refine ⟨diligent, posted.idle, posted.left, fun j inside waiting => .inl ?_, h.taken⟩
      rcases posted.waits j inside waiting with has | ⟨_, end_⟩
      · exact has
      · refine ⟨w, .inl ?_⟩
        have same : last = j := by
          have end_ : j + 1 = s.sent.length := end_
          omega
        show (Function.update s.workers w _ w).inbox = some j
        rw [Function.update_self, same]

/-- The item ordered last is waited for no longer. -/
theorem Tended.settle (h : Tended stages n true s) {slot : Slot β} (filled : slot ≠ .waiting)
    {q : Prog ι ε ρ} (diligent : Diligent n stages.direct Paid false q) :
    Tended stages n false ((s.setSlot (s.sent.length - 1) slot).goOn q) := by
  have settled := h.setSlot (s.sent.length - 1) slot filled
  refine ⟨diligent, settled.idle, settled.left, fun j inside waiting => .inl ?_, h.taken⟩
  rcases settled.waits j inside waiting with has | ⟨_, last⟩
  · exact has
  · have last : j + 1 = s.sent.length := last
    have here : j = s.sent.length - 1 := by omega
    have gone : Function.update s.slots (s.sent.length - 1) slot j = .waiting := waiting
    rw [here, Function.update_self] at gone
    exact absurd gone filled

theorem Tended.forget (h : Tended stages n true s) {q : Prog ι ε ρ}
    (diligent : Diligent n stages.direct Paid false q) :
    Tended stages n false (s.forget.goOn q) := h.settle (fun same => by cases same) diligent

theorem made_filled (item : ι) : stages.made item ≠ .waiting := by
  intro waiting
  rw [Stages.made] at waiting
  split at waiting <;> cases waiting

theorem Tended.supply (h : Tended stages n true s) {q : Prog ι ε ρ}
    (diligent : Diligent n stages.direct Paid false q) :
    Tended stages n false ((s.supply stages).goOn q) := by
  unfold State.supply
  split
  · next none =>
      refine ⟨diligent, h.idle, h.left, fun j inside _ => ?_, h.taken⟩
      have inside : j < s.sent.length := inside
      rw [List.getLast?_eq_none_iff.mp none] at inside
      exact absurd inside (Nat.not_lt_zero j)
  · next item _ => exact h.settle (made_filled item) diligent

theorem first_waiting {item : ι} (waiting : stages.first item = .waiting) :
    stages.direct item = false := by
  rw [Stages.first] at waiting
  split at waiting
  · exact absurd waiting (made_filled item)
  · next other => exact Bool.eq_false_iff.mpr other

theorem Tended.order (h : Tended stages n false s) (item : ι) {q : Prog ι ε ρ}
    (diligent : Diligent n stages.direct Paid (!stages.direct item) q) :
    Tended stages n (!stages.direct item)
      (({ s with sent := s.sent ++ [item] }.setSlot s.sent.length (stages.first item)).goOn q) := by
  refine ⟨diligent, h.idle, h.left, fun j inside waiting => ?_, fun g j holding => ?_⟩
  case refine_2 =>
    show j < (s.sent ++ [item]).length
    rw [List.length_append]
    exact Nat.lt_add_right _ (h.taken g j holding)
  have inside : j < (s.sent ++ [item]).length := inside
  have waiting : Function.update s.slots s.sent.length (stages.first item) j = .waiting := waiting
  show (∃ w, (s.workers w).Has j) ∨ (!stages.direct item) = true ∧ j + 1 = (s.sent ++ [item]).length
  rw [List.length_append, List.length_singleton] at inside ⊢
  by_cases last : j = s.sent.length
  · rw [last, Function.update_self] at waiting
    refine .inr ⟨?_, by rw [last]⟩
    rw [first_waiting waiting]
    rfl
  · rw [Function.update_of_ne last] at waiting
    exact .inl ((h.waits j (by omega) waiting).resolve_right fun both => Bool.false_ne_true both.1)

theorem Tended.handler {owed : Bool} (h : Tended stages n owed s)
    (acts : actHandler stages capacity s = some s') : ∃ owed', Tended stages n owed' s' := by
  have diligent := h.diligent
  unfold actHandler at acts
  split at acts
  · cases acts
  · next r running =>
      cases acts
      rw [running] at diligent
      exact ⟨owed, diligent, h.idle, h.left, h.waits, h.taken⟩
  · next k running =>
      cases acts
      rw [running] at diligent
      cases diligent with
      | check next => exact ⟨owed, h.goOn (next _)⟩
  · next item k running =>
      rw [running] at diligent
      cases diligent with
      | order sent closed =>
          split at acts
          · cases acts
            exact ⟨false, h.goOn closed⟩
          · split at acts
            · cases acts
              exact ⟨_, h.order item sent⟩
            · cases acts
  · next w k running =>
      rw [running] at diligent
      cases diligent with
      | offer one taken full closed =>
          split at acts
          · cases acts
            exact ⟨false, h.forget closed⟩
          · next present =>
              split at acts
              · next free =>
                  cases acts
                  exact ⟨false, h.post one present free taken⟩
              · cases acts
                exact ⟨true, h.goOn full⟩
  · next w k running =>
      rw [running] at diligent
      cases diligent with
      | hand one handed closed =>
          split at acts
          · cases acts
            exact ⟨false, h.forget closed⟩
          · next present =>
              split at acts
              · next free =>
                  cases acts
                  exact ⟨false, h.post one present free handed⟩
              · cases acts
  · next k running =>
      rw [running] at diligent
      cases diligent with
      | supply supplied =>
          cases acts
          exact ⟨false, h.supply supplied⟩

/-- Only the first workers ever have anything. -/
theorem Tended.first {owed : Bool} (h : Tended stages n owed s) {i : Nat}
    (acts : actWorker stages i s = some s') : i < n := by
  by_contra many
  obtain ⟨inbox, free | gone⟩ := h.idle i (Nat.not_lt.mp many)
  · rw [actWorker, free, inbox] at acts
    cases acts
  · rw [actWorker, gone] at acts
    cases acts

/-- A slot that has been filled does not wait. -/
theorem filled_elsewhere {slots : Nat → Slot β} {j k : Nat} {slot : Slot β}
    (filled : slot ≠ .waiting) (waiting : Function.update slots j slot k = .waiting) : k ≠ j := by
  rintro rfl
  rw [Function.update_self] at waiting
  exact filled waiting

theorem Tended.worker {owed : Bool} (h : Tended stages n owed s) {i : Nat}
    (acts : actWorker stages i s = some s') : Tended stages n owed s' := by
  have one := h.first acts
  have ready {b : β} : (.ready b : Slot β) ≠ .waiting := fun same => by cases same
  have lost : (.lost : Slot β) ≠ .waiting := fun same => by cases same
  unfold actWorker at acts
  split at acts
  · next free =>
      split at acts
      · cases acts
      · next j posted =>
          cases acts
          refine h.setWorker one (fun gone => by cases gone) fun k _ has => .inr ?_
          rcases has with inbox | making
          · cases posted.symm.trans inbox
            rfl
          · cases free.symm.trans making
  · next j making =>
      -- what the worker has besides `j` is in its inbox
      have others (k : Nat) (has : (s.workers i).Has k) (other : k ≠ j) :
          (s.workers i).inbox = some k := by
        rcases has with inbox | same
        · exact inbox
        · cases making.symm.trans same
          exact absurd rfl other
      split at acts
      · next b made =>
          cases acts
          exact (h.setSlot j (.ready b) ready).setWorker one (fun gone => by cases gone)
            fun k waiting has => .inl (others k has (filled_elsewhere ready waiting))
      · cases acts
        exact (h.setSlot j .lost lost).setWorker one (fun gone => by cases gone)
          fun k waiting has => .inl (others k has (filled_elsewhere lost waiting))
  · next panicking =>
      have posted (k : Nat) (has : (s.workers i).Has k) : (s.workers i).inbox = some k := by
        rcases has with inbox | making
        · exact inbox
        · cases panicking.symm.trans making
      split at acts
      · next empty =>
          cases acts
          refine h.setWorker one (fun _ => rfl) fun k _ has => ?_
          cases empty.symm.trans (posted k has)
      · next j inbox =>
          cases acts
          refine (h.setSlot j .lost lost).setWorker one (fun _ => rfl) fun k waiting has => ?_
          cases inbox.symm.trans (posted k has)
          exact absurd rfl (filled_elsewhere lost waiting)
  · cases acts

/-- What the consumer does is nothing to the others. -/
theorem consumer_apart (acts : actConsumer stages s = some s') :
    s'.slots = s.slots ∧ s'.workers = s.workers := by
  unfold actConsumer at acts
  split at acts
  · cases acts
  · cases acts
    exact ⟨rfl, rfl⟩
  · split at acts
    · cases acts
      exact ⟨rfl, rfl⟩
    · split at acts
      · cases acts
      · split at acts <;> (cases acts; exact ⟨rfl, rfl⟩)
  · split at acts
    · cases acts
    · cases acts
      exact ⟨rfl, rfl⟩
    · split at acts <;> (cases acts; exact ⟨rfl, rfl⟩)

/-- What the consumer takes has been ordered. -/
theorem consumer_takes (acts : actConsumer stages s = some s') {g : γ} {j : Nat}
    (holding : s'.consumer = .holding g j) : j < s.sent.length := by
  unfold actConsumer at acts
  split at acts
  · cases acts
  · cases acts
    cases holding
  · split at acts
    · next inside =>
        cases acts
        cases holding
        exact inside
    · split at acts
      · cases acts
      · split at acts <;> (cases acts; cases holding)
  · split at acts
    · cases acts
    · cases acts
      cases holding
    · split at acts <;> (cases acts; cases holding)

theorem Tended.act {owed : Bool} (h : Tended stages n owed s) {a : Actor}
    (acts : Pipeline.act stages capacity a s = some s') : ∃ owed', Tended stages n owed' s' := by
  cases a with
  | handler => exact h.handler acts
  | worker i => exact ⟨owed, h.worker acts⟩
  | consumer =>
      obtain ⟨sent, handler⟩ := consumer_same acts
      obtain ⟨slots, workers⟩ := consumer_apart acts
      refine ⟨owed, ?_, ?_, ?_, ?_, ?_⟩
      · rw [handler]
        exact h.diligent
      · rw [workers]
        exact h.idle
      · rw [workers]
        exact h.left
      · rw [sent, slots, workers]
        exact h.waits
      · rw [sent]
        exact fun g j holding => consumer_takes acts holding

/-- A worker waits for an item only. -/
theorem Tended.worker_stuck {owed : Bool} (h : Tended stages n owed s) {i : Nat}
    (stuck : actWorker stages i s = none) : (s.workers i).Idle := by
  unfold actWorker at stuck
  split at stuck
  · next free =>
      split at stuck
      · next inbox => exact ⟨inbox, .inl free⟩
      · cases stuck
  · split at stuck <;> cases stuck
  · split at stuck <;> cases stuck
  · next gone => exact ⟨h.left i gone, .inr gone⟩

/-- A consumer waits for a result, or for the handler to order an item or to end. -/
theorem consumer_stuck (stuck : actConsumer stages s = none) :
    (∃ result, s.consumer = .gone result) ∨
      (∃ g j, s.consumer = .holding g j ∧ s.slots j = .waiting) ∨
      ¬s.taken < s.sent.length ∧ ∃ p, s.handler = .running p := by
  unfold actConsumer at stuck
  split at stuck
  · next result gone => exact .inl ⟨result, gone⟩
  · cases stuck
  · split at stuck
    · cases stuck
    · next empty =>
        split at stuck
        · next p running => exact .inr (.inr ⟨empty, p, running⟩)
        · split at stuck <;> cases stuck
  · next g j holding =>
      split at stuck
      · next waiting => exact .inr (.inl ⟨g, j, holding, waiting⟩)
      · cases stuck
      · split at stuck <;> cases stuck

/-- A handler waits for room in the order queue or in an inbox, or for all to end. -/
theorem handler_stuck (stuck : actHandler stages capacity s = none) :
    (∃ r, s.handler = .joining r) ∨
      (∃ item k, s.handler = .running (.order item k) ∧ ¬s.consumer.isGone ∧
        ¬s.sent.length - s.taken < capacity) ∨
      ∃ w k, s.handler = .running (.hand w k) ∧ (s.workers w).inbox ≠ none := by
  unfold actHandler at stuck
  split at stuck
  · next r joining => exact .inl ⟨r, joining⟩
  · cases stuck
  · cases stuck
  · next item k running =>
      split at stuck
      · cases stuck
      · next present =>
          split at stuck
          · cases stuck
          · next full => exact .inr (.inl ⟨item, k, running, present, full⟩)
  · split at stuck
    · cases stuck
    · split at stuck <;> cases stuck
  · next w k running =>
      split at stuck
      · cases stuck
      · split at stuck
        · cases stuck
        · next inbox => exact .inr (.inr ⟨w, k, running, inbox⟩)
  · cases stuck

/-- While no worker has an item and the handler owes none, every result is there. -/
theorem Tended.known (h : Tended stages n false s)
    (idle : ∀ w, (s.workers w).Idle) {j : Nat} (inside : j < s.sent.length) :
    s.slots j ≠ .waiting := by
  intro waiting
  rcases h.waits j inside waiting with ⟨w, inbox | making⟩ | ⟨still, _⟩
  · cases (idle w).1.symm.trans inbox
  · rcases (idle w).2 with free | gone
    · cases free.symm.trans making
    · cases gone.symm.trans making
  · exact Bool.false_ne_true still

/-- Until all threads have ended there is one that can act. -/
theorem Tended.goesOn {owed : Bool} (h : Tended stages n owed s) (room : 0 < capacity)
    (stuck : ∀ a, Pipeline.act stages capacity a s = none) : ∃ r result, Ended s r result := by
  have idle (w : Nat) : (s.workers w).Idle := h.worker_stuck (stuck (.worker w))
  have consumer (paid : owed = false) : (∃ result, s.consumer = .gone result) ∨
      ¬s.taken < s.sent.length ∧ ∃ p, s.handler = .running p := by
    subst paid
    rcases consumer_stuck (stuck .consumer) with gone | ⟨g, j, holding, waiting⟩ | waits
    · exact .inl gone
    · exact absurd waiting (h.known idle (h.taken g j holding))
    · exact .inr waits
  have diligent := h.diligent
  rcases handler_stuck (stuck .handler) with
    ⟨r, joining⟩ | ⟨item, k, running, present, full⟩ | ⟨w, k, _, inbox⟩
  · rw [joining] at diligent
    have paid : owed = false := by
      cases diligent
      assumption
    rcases consumer paid with ⟨result, gone⟩ | ⟨_, p, running⟩
    · exact ⟨r, result, joining, gone, idle⟩
    · cases joining.symm.trans running
  · rw [running] at diligent
    have paid : owed = false := by
      cases diligent
      rfl
    rcases consumer paid with ⟨result, gone⟩ | ⟨empty, _⟩
    · exact absurd (gone ▸ rfl) present
    · omega
  · exact absurd (idle w).1 inbox

end Tended

section Ending

variable {stages : Stages ι β γ δ ε} {capacity n : Nat} {s s' : State ι β γ δ ε ρ}

/-- Some thread goes from one state to the other. -/
def Next (stages : Stages ι β γ δ ε) (capacity : Nat) (s' s : State ι β γ δ ε ρ) : Prop :=
  ∃ a, act stages capacity a s = some s'

def Work.load : Work → Nat
  | .making _ => 2
  | .panicking => 1
  | .free | .gone => 0

/-- How often a worker can still act. -/
def Worker.load (w : Worker) : Nat :=
  (if w.inbox.isSome then 3 else 0) + w.work.load

def Consumer.load : Consumer γ δ ε → Nat
  | .running _ => 2
  | .holding _ _ => 3
  | .failing _ => 1
  | .gone _ => 0

/-- How often the workers and the consumer can act without the handler. -/
def State.load (n : Nat) (s : State ι β γ δ ε ρ) : Nat :=
  (∑ w ∈ Finset.range n, (s.workers w).load) + 2 * (s.sent.length - s.taken) + s.consumer.load

theorem load_update {i : Nat} (one : i < n) (workers : Nat → Worker) {w : Worker}
    (less : w.load < (workers i).load) :
    ∑ k ∈ Finset.range n, (Function.update workers i w k).load <
      ∑ k ∈ Finset.range n, (workers k).load := by
  refine Finset.sum_lt_sum (fun k _ => ?_) ⟨i, Finset.mem_range.mpr one, ?_⟩
  · by_cases same : k = i
    · subst same
      rw [Function.update_self]
      exact less.le
    · rw [Function.update_of_ne same]
  · rwa [Function.update_self]

theorem load_worker {i : Nat} (one : i < n) (acts : actWorker stages i s = some s') :
    s'.load n < s.load n := by
  have settle (s : State ι β γ δ ε ρ) {w : Worker} (less : w.load < (s.workers i).load) :
      (s.setWorker i w).load n < s.load n := by
    have sum := load_update one s.workers less
    show (∑ k ∈ Finset.range n, (Function.update s.workers i w k).load) +
      2 * (s.sent.length - s.taken) + s.consumer.load < s.load n
    rw [State.load]
    omega
  unfold actWorker at acts
  split at acts
  · next free =>
      split at acts
      · cases acts
      · next j posted =>
          cases acts
          refine settle s ?_
          rw [Worker.load, Worker.load, free, posted]
          exact Nat.lt_succ_self 2
  · next j making =>
      have less {work : Work} (less : work.load < (Work.making j).load) :
          ({ s.workers i with work } : Worker).load < (s.workers i).load := by
        rw [Worker.load, Worker.load, making]
        exact Nat.add_lt_add_left less _
      split at acts
      · cases acts
        exact settle (s.setSlot j _) (less Nat.zero_lt_two)
      · cases acts
        exact settle (s.setSlot j _) (less Nat.one_lt_two)
  · next panicking =>
      have less : ({ work := .gone } : Worker).load < (s.workers i).load := by
        rw [Worker.load, Worker.load, panicking]
        exact Nat.lt_add_left _ Nat.one_pos
      split at acts
      · cases acts
        exact settle s less
      · cases acts
        exact settle (s.setSlot _ _) less
  · cases acts

theorem load_consumer (acts : actConsumer stages s = some s') : s'.load n < s.load n := by
  unfold actConsumer at acts
  split at acts
  · cases acts
  · next failing =>
      cases acts
      simp only [State.load, failing, Consumer.load]
      omega
  · next running =>
      split at acts
      · cases acts
        simp only [State.load, running, Consumer.load]
        omega
      · split at acts
        · cases acts
        · split at acts
          · cases acts
            simp only [State.load, running, Consumer.load]
            omega
          · cases acts
            simp only [State.load, State.fail, running, Consumer.load]
            omega
  · next holding =>
      split at acts
      · cases acts
      · cases acts
        simp only [State.load, State.fail, holding, Consumer.load]
        omega
      · split at acts
        · cases acts
          simp only [State.load, holding, Consumer.load]
          omega
        · cases acts
          simp only [State.load, State.fail, holding, Consumer.load]
          omega

/-- With the handler where it is, the others come to an end, and so does the rest when every
    step of the handler does. -/
theorem Tended.acc_of {owed : Bool} (h : Tended stages n owed s)
    (handler : ∀ {owed : Bool} {t t' : State ι β γ δ ε ρ}, Tended stages n owed t →
      t.handler = s.handler → actHandler stages capacity t = some t' →
      Acc (Next stages capacity) t') : Acc (Next stages capacity) s := by
  have go (m : Nat) : ∀ t owed, t.load n = m → t.handler = s.handler → Tended stages n owed t →
      Acc (Next stages capacity) t := by
    induction m using Nat.strong_induction_on with
    | _ m ih =>
        intro t owed load same tended
        refine .intro _ ?_
        rintro t' ⟨a, acts⟩
        cases a with
        | handler => exact handler tended same acts
        | worker i =>
            have less := load_worker (tended.first acts) acts
            exact ih _ (load ▸ less) t' owed rfl ((worker_same acts).2.trans same)
              (tended.worker acts)
        | consumer =>
            have less := load_consumer (n := n) acts
            obtain ⟨owed', tended'⟩ := tended.act (a := .consumer) acts
            exact ih _ (load ▸ less) t' owed' rfl ((consumer_same acts).2.trans same) tended'
  exact go _ s owed rfl rfl h

/-- What is left of a program after one answer. -/
inductive Prog.Goes : Prog ι ε ρ → Prog ι ε ρ → Prop where
  | check (k : Option ε → Prog ι ε ρ) (e : Option ε) : Goes (.check k) (k e)
  | order (item : ι) (k : Bool → Prog ι ε ρ) (b : Bool) : Goes (.order item k) (k b)
  | offer (w : Nat) (k : Offer → Prog ι ε ρ) (o : Offer) : Goes (.offer w k) (k o)
  | hand (w : Nat) (k : Bool → Prog ι ε ρ) (b : Bool) : Goes (.hand w k) (k b)
  | supply (k : Prog ι ε ρ) : Goes (.supply k) k

theorem Prog.goes_acc (p : Prog ι ε ρ) : Acc (fun q p : Prog ι ε ρ => p.Goes q) p := by
  induction p with
  | done r => exact .intro _ fun q goes => by cases goes
  | check k ih =>
      refine .intro _ fun q goes => ?_
      cases goes
      exact ih _
  | order item k ih =>
      refine .intro _ fun q goes => ?_
      cases goes
      exact ih _
  | offer w k ih =>
      refine .intro _ fun q goes => ?_
      cases goes
      exact ih _
  | hand w k ih =>
      refine .intro _ fun q goes => ?_
      cases goes
      exact ih _
  | supply k ih =>
      refine .intro _ fun q goes => ?_
      cases goes
      exact ih

/-- The handler gets one answer, or closes the channels. -/
theorem handler_goes (acts : actHandler stages capacity s = some s') :
    ∃ p, s.handler = .running p ∧
      ((∃ r, s'.handler = .joining r) ∨ ∃ q, s'.handler = .running q ∧ p.Goes q) := by
  unfold actHandler at acts
  split at acts
  · cases acts
  · next r running =>
      cases acts
      exact ⟨_, running, .inl ⟨r, rfl⟩⟩
  · next k running =>
      cases acts
      exact ⟨_, running, .inr ⟨_, rfl, .check k _⟩⟩
  · next item k running =>
      split at acts
      · cases acts
        exact ⟨_, running, .inr ⟨_, rfl, .order item k _⟩⟩
      · split at acts
        · cases acts
          exact ⟨_, running, .inr ⟨_, rfl, .order item k _⟩⟩
        · cases acts
  · next w k running =>
      split at acts
      · cases acts
        exact ⟨_, running, .inr ⟨_, rfl, .offer w k _⟩⟩
      · split at acts <;> cases acts <;> exact ⟨_, running, .inr ⟨_, rfl, .offer w k _⟩⟩
  · next w k running =>
      split at acts
      · cases acts
        exact ⟨_, running, .inr ⟨_, rfl, .hand w k _⟩⟩
      · split at acts
        · cases acts
          exact ⟨_, running, .inr ⟨_, rfl, .hand w k _⟩⟩
        · cases acts
  · next k running =>
      cases acts
      exact ⟨_, running, .inr ⟨_, rfl, .supply k⟩⟩

/-- There is no run without an end. -/
theorem Tended.acc {owed : Bool} (h : Tended stages n owed s) :
    Acc (Next stages capacity) s := by
  have joined (r : ρ) : ∀ s owed, s.handler = .joining r → Tended stages n owed s →
      Acc (Next stages capacity) s := by
    intro s owed joining h
    refine h.acc_of fun _ same acts => ?_
    obtain ⟨p, running, _⟩ := handler_goes acts
    cases (same.trans joining).symm.trans running
  have running (p : Prog ι ε ρ) : ∀ s owed, s.handler = .running p → Tended stages n owed s →
      Acc (Next stages capacity) s := by
    induction p.goes_acc with
    | intro p _ ih =>
        intro s owed at_ h
        refine h.acc_of fun tended same acts => ?_
        obtain ⟨_, tended'⟩ := tended.handler acts
        obtain ⟨p', running, closes | ⟨q, goes_on, goes⟩⟩ := handler_goes acts
        · obtain ⟨r, joining⟩ := closes
          exact joined r _ _ joining tended'
        · cases (same.trans at_).symm.trans running
          exact ih q goes _ _ goes_on tended'
  cases at_ : s.handler with
  | running p => exact running p s owed at_ h
  | joining r => exact joined r s owed at_ h

/-- Every run goes on to an end. -/
theorem Tended.ends {owed : Bool} (h : Tended stages n owed s) (room : 0 < capacity) :
    ∃ t r result, Run stages capacity s t ∧ Ended t r result := by
  have acc : Acc (Next stages capacity) s := h.acc
  induction acc generalizing owed with
  | intro s _ ih =>
      by_cases stuck : ∀ a, Pipeline.act stages capacity a s = none
      · obtain ⟨r, result, ended⟩ := h.goesOn room stuck
        exact ⟨s, r, result, .refl s, ended⟩
      · obtain ⟨a, acts⟩ := not_forall.mp stuck
        obtain ⟨s1, acts⟩ := Option.ne_none_iff_exists'.mp acts
        obtain ⟨owed', tended⟩ := h.act acts
        obtain ⟨t, r, result, run, ended⟩ := ih s1 ⟨a, acts⟩ tended
        exact ⟨t, r, result, .step acts run, ended⟩

theorem Tended.run {owed : Bool} (h : Tended stages n owed s) (run : Run stages capacity s s') :
    ∃ owed', Tended stages n owed' s' := by
  induction run generalizing owed with
  | refl => exact ⟨owed, h⟩
  | step acts _ ih =>
      obtain ⟨_, tended⟩ := h.act acts
      exact ih tended

/-- The threads act in this order; one that has to wait misses its turn. -/
def played (stages : Stages ι β γ δ ε) (capacity : Nat) (turns : List Actor)
    (s : State ι β γ δ ε ρ) : State ι β γ δ ε ρ :=
  turns.foldl (fun s a => (Pipeline.act stages capacity a s).getD s) s

theorem run_played (turns : List Actor) (s : State ι β γ δ ε ρ) :
    Run stages capacity s (played stages capacity turns s) := by
  induction turns generalizing s with
  | nil => exact .refl s
  | cons a turns ih =>
      cases acts : Pipeline.act stages capacity a s with
      | none =>
          have same : played stages capacity (a :: turns) s = played stages capacity turns s := by
            rw [played, List.foldl_cons, acts, Option.getD_none, played]
          exact same ▸ ih s
      | some s1 =>
          have same : played stages capacity (a :: turns) s = played stages capacity turns s1 := by
            rw [played, List.foldl_cons, acts, Option.getD_some, played]
          exact .step acts (same ▸ ih s1)

/-- The results, when the handler and the consumer have ended and the workers are idle. -/
def State.outcome (s : State ι β γ δ ε ρ) (n : Nat) : Option (ρ × Except ε δ) :=
  match s.handler, s.consumer with
  | .joining r, .gone result =>
      if ∀ w < n, (s.workers w).Idle then some (r, result)
      else none
  | _, _ => none

theorem Tended.outcome {owed : Bool} (h : Tended stages n owed s) {r : ρ} {result : Except ε δ}
    (known : s.outcome n = some (r, result)) : Ended s r result := by
  unfold State.outcome at known
  split at known
  · next joining gone =>
      split at known
      · next idle =>
          cases known
          refine ⟨joining, gone, fun w => ?_⟩
          by_cases one : w < n
          · exact idle w one
          · exact h.idle w (Nat.not_lt.mp one)
      · cases known
  · cases known

end Ending

section Threads

variable {n : Nat} {direct : ι → Bool} {I : σ → Prop} {owed : Bool}

/-- How a part of a handler ends: it keeps `I`, and owes nothing when it fails. -/
def Settles (I : σ → Prop) (A : Bool → α → Prop) (owed : Bool) : Except ε α × σ → Prop
  | (.ok a, t) => I t ∧ A owed a
  | (.error _, t) => I t ∧ owed = false

/-- A part of a handler that is diligent from each state in `I`. -/
def Minds (n : Nat) (direct : ι → Bool) (I : σ → Prop) (owed : Bool) (x : Thread ι ε σ α)
    (A : Bool → α → Prop := Paid) : Prop :=
  ∀ t, I t → Diligent n direct (Settles I A) owed (x t)

theorem minds_pure {a : α} {A : Bool → α → Prop} (h : A owed a) :
    Minds n direct I owed (pure a : Thread ι ε σ α) A := fun _ start => .done ⟨start, h⟩

theorem minds_throw (e : ε) {A : Bool → α → Prop} :
    Minds n direct I false (throw e : Thread ι ε σ α) A := fun _ start => .done ⟨start, rfl⟩

theorem Minds.bind {x : Thread ι ε σ κ} {f : κ → Thread ι ε σ α} {A : Bool → κ → Prop}
    {B : Bool → α → Prop} (h : Minds n direct I owed x A)
    (next : ∀ owed k, A owed k → Minds n direct I owed (f k) B) :
    Minds n direct I owed (x >>= f) B := by
  intro t start
  refine (h t start).bind ?_
  rintro owed ⟨_ | k, t'⟩ ⟨kept, settled⟩
  · exact .done ⟨kept, settled⟩
  · exact next owed k settled t' kept

theorem Minds.then {x : Thread ι ε σ κ} {f : κ → Thread ι ε σ α} {B : Bool → α → Prop}
    (h : Minds n direct I owed x) (next : ∀ k, Minds n direct I false (f k) B) :
    Minds n direct I owed (x >>= f) B := by
  refine h.bind ?_
  rintro _ k rfl
  exact next k

variable {A : Bool → α → Prop}

theorem minds_get {f : σ → Thread ι ε σ α} (next : ∀ t, I t → Minds n direct I owed (f t) A) :
    Minds n direct I owed ((get : Thread ι ε σ σ) >>= f) A := fun t h => next t h t h

theorem minds_modify {change : σ → σ} (keeps : ∀ t, I t → I (change t))
    {f : PUnit → Thread ι ε σ α} (next : Minds n direct I owed (f ⟨⟩) A) :
    Minds n direct I owed ((modify change : Thread ι ε σ PUnit) >>= f) A :=
  fun t h => next (change t) (keeps t h)

theorem minds_set {t : σ} (inside : I t) {f : PUnit → Thread ι ε σ α}
    (next : Minds n direct I owed (f ⟨⟩) A) :
    Minds n direct I owed ((set t : Thread ι ε σ PUnit) >>= f) A := fun _ _ => next t inside

theorem minds_check {f : Option ε → Thread ι ε σ α} (next : ∀ e, Minds n direct I owed (f e) A) :
    Minds n direct I owed (Thread.check >>= f) A := fun t h => .check fun e => next e t h

theorem minds_order {item : ι} {f : Bool → Thread ι ε σ α}
    (sent : Minds n direct I (!direct item) (f true) A)
    (closed : Minds n direct I false (f false) A) :
    Minds n direct I false (Thread.order item >>= f) A := fun t h => .order (sent t h) (closed t h)

theorem minds_offer {w : Nat} (one : w < n) {f : Offer → Thread ι ε σ α}
    (taken : Minds n direct I false (f .taken) A) (full : Minds n direct I true (f .full) A)
    (closed : Minds n direct I false (f .closed) A) :
    Minds n direct I true (Thread.offer w >>= f) A :=
  fun t h => .offer one (taken t h) (full t h) (closed t h)

theorem minds_hand {w : Nat} (one : w < n) {f : Bool → Thread ι ε σ α}
    (handed : Minds n direct I false (f true) A) (closed : Minds n direct I false (f false) A) :
    Minds n direct I true (Thread.hand w >>= f) A :=
  fun t h => .hand one (handed t h) (closed t h)

theorem minds_supply {A : Bool → Unit → Prop} (paid : A false ()) :
    Minds n direct I true (Thread.supply : Thread ι ε σ Unit) A :=
  fun t h => .supply (minds_pure paid t h)

theorem minds_loop {υ : Type} {stuck : ε} {body : υ → Thread ι ε σ (Loop.Iter υ α)}
    (pass : ∀ v, Minds n direct I false (body v)) (fuel : Nat) (v : υ) :
    Minds n direct I false (Thread.loop stuck body fuel v) := by
  induction fuel generalizing v with
  | zero => exact minds_throw stuck
  | succ fuel ih =>
      refine (pass v).then fun k => ?_
      cases k with
      | next v' => exact ih v'
      | done a => exact minds_pure rfl

/-- A loop that hands an item over before its bound is reached. -/
theorem minds_loop_owed {υ : Type} {stuck : ε} {body : υ → Thread ι ε σ (Loop.Iter υ α)}
    (measure : υ → Nat) (pass : ∀ v, Minds n direct I true (body v) fun owed k => match k with
      | .next v' => owed = true ∧ measure v' < measure v
      | .done _ => owed = false) {fuel : Nat} {v : υ} (bound : measure v < fuel) :
    Minds n direct I true (Thread.loop stuck body fuel v) := by
  induction fuel generalizing v with
  | zero => exact absurd bound (Nat.not_lt_zero _)
  | succ fuel ih =>
      refine (pass v).bind ?_
      rintro owed (v' | a) after
      · obtain ⟨rfl, less⟩ := after
        exact ih (by omega)
      · exact minds_pure after

end Threads

end Pipeline
