import MinLz.Index.Loaded
import MinLz.Index.Thinning

/-! # Which calls keep the entries sorted

Shrinking keeps a sorted list sorted. An `add` appends past the last entry unless
the index has no spacing; then nothing stops an uncompressed offset that falls.
A `load` overwrites a list of zeros front to back, one column after the other,
and leaves it half written when an entry does not read.
-/

namespace MinLz.Index

open Machine (Overflow maxSigned ofWord Fits)
open Effects (Runs Exits runs_lift runs_get runs_modify runs_pure exits_ok exits_error)

/-- Neither offset falls along the list. -/
def Ordered (l : List OffsetPair) : Prop :=
  l.Pairwise fun a b => a.compressed ≤ b.compressed ∧ a.uncompressed ≤ b.uncompressed

instance decidableOrdered (l : List OffsetPair) : Decidable (Ordered l) :=
  inferInstanceAs (Decidable (l.Pairwise _))

theorem sorted_iff (l : List OffsetPair) : Ordered l ↔
    (l.map (·.compressed)).Pairwise (· ≤ ·) ∧ (l.map (·.uncompressed)).Pairwise (· ≤ ·) := by
  rw [Ordered, List.pairwise_map, List.pairwise_map, List.pairwise_and_iff]

inductive Call where
  | new
  | reset (maxBlock : Nat)
  | add (compressed uncompressed : Nat)
  | appendTo (buf : List UInt8) (totalUncomp totalComp : Option Nat)
  | load (bytes : List UInt8)
  | loadStream (data : List UInt8)

/-- The index after a call that returned, with or without an error. -/
def Call.after (m : Overflow) (self : Index) : Call → Option Index
  | .new => some Index.new
  | .reset maxBlock => some (Index.reset maxBlock)
  | .add compressed uncompressed =>
    match Index.add m self compressed uncompressed with
    | .ok r => some r
    | .error (.error _) => some self
    | .error (.fault _) => none
  | .appendTo buf totalUncomp totalComp =>
    match Index.appendTo m self buf totalUncomp totalComp with
    | .ok (r, _) => some r
    | .error (.error _) => some self
    | .error (.fault _) => none
  | .load bytes =>
    match Index.load m bytes self with
    | .ok _ r | .error (.error _) r => some r
    | .error (.fault _) _ => none
  | .loadStream data =>
    match Index.loadStream m data self with
    | .ok _ r | .error (.error _) r => some r
    | .error (.fault _) _ => none

/-- An entry that `add` takes although its uncompressed offset falls. -/
def Falls (self : Index) (compressed uncompressed : Nat) : Prop :=
  self.estBlockUncomp = 0 ∧ compressed ≤ maxSigned ∧ uncompressed ≤ maxSigned ∧
    ∃ latest ∈ self.offsets.getLast?, latest.compressed ≤ compressed ∧
      uncompressed < latest.uncompressed

section Shrink

variable {m : Overflow}

theorem thinFrom_sublist {est : Nat} {base : OffsetPair} {l r : List OffsetPair}
    (run : thinFrom m est base l = .ok r) : r.Sublist l ∧ (est = 0 → r = l) := by
  induction l generalizing base r with
  | nil =>
      cases run
      exact ⟨List.Sublist.refl _, fun _ => rfl⟩
  | cons p rest ih =>
      rw [thinFrom] at run
      obtain ⟨gap, _, run⟩ := Effects.bind_eq_ok run
      split at run
      · next close =>
          obtain ⟨sub, _⟩ := ih run
          exact ⟨sub.cons p, fun zero => absurd close (by omega)⟩
      · obtain ⟨kept, thinned, run⟩ := Effects.bind_eq_ok run
        cases run
        obtain ⟨sub, whole⟩ := ih thinned
        exact ⟨sub.cons_cons p, fun zero => by rw [whole zero]⟩

theorem thin_sublist {est : Nat} {l r : List OffsetPair} (run : thin m est l = .ok r) :
    r.Sublist l ∧ (est = 0 → r = l) := by
  cases l with
  | nil =>
      cases run
      exact ⟨List.Sublist.refl _, fun _ => rfl⟩
  | cons base rest =>
      obtain ⟨kept, thinned, run⟩ := Effects.bind_eq_ok run
      cases run
      obtain ⟨sub, whole⟩ := thinFrom_sublist thinned
      exact ⟨sub.cons_cons base, fun zero => by rw [whole zero]⟩

theorem reduceLight_sublist {self r : Index} (run : reduceLight m self = .ok r) :
    r.offsets.Sublist self.offsets ∧ (self.estBlockUncomp = 0 → r.offsets = self.offsets) := by
  obtain ⟨est, doubled, run⟩ := Effects.bind_eq_ok run
  obtain ⟨kept, thinned, run⟩ := Effects.bind_eq_ok run
  cases run
  obtain ⟨sub, whole⟩ := thin_sublist thinned
  refine ⟨sub, fun zero => whole ?_⟩
  rw [zero] at doubled
  have none : ((0 : Nat) : Int) * 2 = ((0 : Nat) : Int) := rfl
  rw [none, word_ok m (by norm_num)] at doubled
  cases doubled
  rfl

/-- The only way for the shrinking to fail. -/
def Panics (e : Stop) : Prop := ∃ f, e = .fault f

theorem word_exits {α : Type} (x : Option α) : Exits (word x) (fun a => x = some a) Panics := by
  cases x with
  | none => exact exits_error ⟨_, rfl⟩
  | some a => exact exits_ok rfl

theorem thinFrom_exits (est : Nat) (base : OffsetPair) (l : List OffsetPair) :
    Exits (thinFrom m est base l) (fun _ => True) Panics := by
  induction l generalizing base with
  | nil => exact exits_ok trivial
  | cons p rest ih =>
      refine (word_exits _).bind fun gap _ => ?_
      split
      · exact ih base
      · exact (ih p).bind fun _ _ => exits_ok trivial

theorem reduceLight_exits (self : Index) :
    Exits (reduceLight m self) (fun _ => True) Panics := by
  refine (word_exits _).bind fun est _ => ?_
  cases self.offsets with
  | nil => exact exits_ok trivial
  | cons base rest =>
      have thinned : Exits (thin m est (base :: rest)) (fun _ => True) Panics :=
        (thinFrom_exits est base rest).bind fun _ _ => exits_ok trivial
      exact thinned.bind fun _ _ => exits_ok trivial

theorem reduce_sublist {self r : Index} (run : reduce m self = .ok r) :
    r.offsets.Sublist self.offsets := by
  rw [reduce] at run
  split at run
  · cases run
    exact List.Sublist.refl _
  · obtain ⟨removeN, _, run⟩ := Effects.bind_eq_ok run
    obtain ⟨grown, _, run⟩ := Effects.bind_eq_ok run
    obtain ⟨est, _, run⟩ := Effects.bind_eq_ok run
    cases run
    exact takeEvery_sublist removeN 0 self.offsets

end Shrink

section Add

variable (m : Overflow) {self : Index}

theorem sorted_push (sorted : Ordered self.offsets) (p : OffsetPair) :
    Ordered (self.offsets ++ [p]) ↔ ∀ latest ∈ self.offsets.getLast?,
      latest.compressed ≤ p.compressed ∧ latest.uncompressed ≤ p.uncompressed := by
  constructor
  · intro whole latest last
    exact (List.pairwise_append.mp whole).2.2 latest (List.mem_of_getLast? last) p
      (List.mem_singleton_self p)
  · intro past
    refine pairwise_concat ?_ sorted past
    intro a b c ab bc
    exact ⟨ab.1.trans bc.1, ab.2.trans bc.2⟩

/-- Shrinking changes nothing about it. -/
theorem shrunk_sorted (pushed : Index)
    (sorted : pushed.estBlockUncomp ≠ 0 → Ordered pushed.offsets) :
    Exits (if pushed.offsets.length > maxIndexEntries then reduceLight m pushed else .ok pushed)
      (fun r => Ordered r.offsets ↔ Ordered pushed.offsets) Panics := by
  split
  · have exits := reduceLight_exits (m := m) pushed
    cases run : reduceLight m pushed with
    | error e => exact exits_error (exits.error run)
    | ok r =>
        obtain ⟨sub, whole⟩ := reduceLight_sublist run
        apply exits_ok
        by_cases zero : pushed.estBlockUncomp = 0
        · rw [whole zero]
        · have before := sorted zero
          exact ⟨fun _ => before, fun _ => before.sublist sub⟩
  · exact exits_ok Iff.rfl

theorem add_sorted (sorted : Ordered self.offsets) (compressed uncompressed : Nat) :
    Exits (Index.add m self compressed uncompressed)
      (fun r => Ordered r.offsets ↔ ¬Falls self compressed uncompressed)
      (fun e => Panics e ∨ ¬Falls self compressed uncompressed) := by
  have push := sorted_push sorted ⟨compressed, uncompressed⟩
  rw [Index.add]
  by_cases far : compressed > maxSigned ∨ uncompressed > maxSigned
  · rw [if_pos far]
    refine exits_error (Or.inr ?_)
    rintro ⟨_, small, small', _⟩
    omega
  rw [if_neg far]
  by_cases close : self.offsets.getLast?.any fun latest =>
      uncompressed - latest.uncompressed < self.estBlockUncomp
  · simp only [close, if_true]
    apply exits_ok
    simp only [sorted, true_iff]
    rintro ⟨zero, _⟩
    simp [zero] at close
  simp only [close]
  by_cases drop : self.offsets.getLast?.any fun latest => latest.compressed > compressed
  · simp only [drop, if_true]
    refine exits_error (Or.inr ?_)
    rintro ⟨_, _, _, latest, last, rising, _⟩
    rw [last] at drop
    simp only [Option.any_some, decide_eq_true_eq] at drop
    omega
  simp only [drop]
  have pushed : Ordered (self.offsets ++ [⟨compressed, uncompressed⟩]) ↔
      ¬Falls self compressed uncompressed := by
    rw [push]
    constructor
    · rintro past ⟨_, _, _, latest, last, _, falls⟩
      have := (past latest last).2
      simp only at this
      omega
    · intro stays latest last
      rw [last] at close drop
      simp only [Option.any_some, decide_eq_true_eq, not_lt] at close drop
      refine ⟨drop, ?_⟩
      by_contra falls
      simp only at falls
      exact stays ⟨by omega, by omega, by omega, latest, last, drop, by omega⟩
  have shrunk := shrunk_sorted m
    { self with offsets := self.offsets ++ [⟨compressed, uncompressed⟩] }
    fun spaced => pushed.mpr fun falls => spaced falls.1
  exact shrunk.mono (fun r h => h.trans pushed) fun e h => Or.inl h

end Add

/-- Reads an entry of a column, by the prediction and the entry before it. -/
abbrev Take := Int → Option Nat → List UInt8 → Exec ((Nat × Int) × List UInt8)

/-- What follows the `n` entries of a column; of a column that breaks off, whether
    the entry before the break is past zero. -/
def column (take : Take) : Nat → Int → Option Nat → List UInt8 → Except Bool (List UInt8)
  | 0, _, _, b => .ok b
  | n + 1, predict, prev, b =>
    match take predict prev b with
    | .error _ => .error (decide (0 < prev.getD 0))
    | .ok ((v, predict), b) => column take n predict (some v) b

/-- The entry table of an index: what is read before its columns. -/
structure Table where
  est : Nat
  entries : Nat
  has : UInt8
  columns : List UInt8

section Table

variable (m : Overflow)

def entryTable (bytes : List UInt8) : Exec Table := do
  let b ← loadFrame bytes
  let (total, b) ← takeVarint m b
  reject (total < 0) (.invalid "negative total uncompressed")
  let (_, b) ← takeVarint m b
  let (est, b) ← takeVarint m b
  reject (est < 0) (.invalid "negative est_block")
  let (entries, b) ← takeVarint m b
  reject (entries < 0 ∨ entries > maxIndexEntries) (.invalid "entry count out of range")
  reject (b = []) .truncated
  let has ← byteAt b 0
  let b ← sliceFrom b 1
  reject (has.toNat > 1) (.badFormat "invalid has_uncompressed byte")
  return ⟨est.toNat, entries.toNat, has, b⟩

def Table.takeUncompressed (t : Table) : Take := fun _ prev b => do
  let (u, b) ← Index.takeUncompressed m t.has t.est (prev.map (⟨0, ·⟩)) b
  return ((u, 0), b)

def takeCompressedAt : Take := fun predict prev b =>
  takeCompressed m predict (prev.map (⟨·, 0⟩)) b

/-- No column of the table breaks off behind an entry past zero. -/
def Table.Intact (t : Table) : Prop :=
  match column (t.takeUncompressed m) t.entries 0 none t.columns with
  | .error broken => broken = false
  | .ok b => column (takeCompressedAt m) t.entries (t.est / 2 : Nat) none b ≠ .error true

/-- The same of bytes that may hold an entry table. -/
def Intact (table : Exec Table) : Prop := ∀ t, table = .ok t → t.Intact m

end Table

section Fill

variable {m : Overflow}

/-- A pass over zeros leaves its column sorted unless that breaks off past zero. -/
structure Filled {α : Type} (read : Except Bool (List UInt8)) (pass : List α × Exec (List UInt8))
    (last : Nat) (offset : α → Nat) : Prop where
  ok : ∀ b, read = .ok b → pass.2 = .ok b
  error : ∀ broken, read = .error broken → (∃ e, pass.2 = .error e) ∧
    ((last :: pass.1.map offset).Pairwise (· ≤ ·) ↔ broken = false)

theorem pairwise_zeros {last n : Nat} :
    (last :: List.replicate (n + 1) 0).Pairwise (· ≤ ·) ↔ decide (0 < last) = false := by
  simp [List.pairwise_cons, List.pairwise_replicate]

theorem pairwise_past {last v : Nat} (le : last ≤ v) (l : List Nat) :
    (last :: v :: l).Pairwise (· ≤ ·) ↔ (v :: l).Pairwise (· ≤ ·) := by
  constructor
  · exact List.Pairwise.of_cons
  · intro rest
    refine List.pairwise_cons.mpr ⟨?_, rest⟩
    intro x hx
    cases hx with
    | head => exact le
    | tail _ inner => exact le.trans (List.rel_of_pairwise_cons rest inner)

theorem fillUncompressed_filled (t : Table) (n : Nat) (prev : Option Nat)
    (small : ∀ v ∈ prev, v ≤ maxSigned) (b : List UInt8) :
    Filled (column (t.takeUncompressed m) n 0 prev b)
      (fillUncompressed m t.has t.est (prev.map (⟨0, ·⟩)) (List.replicate n {}) b)
      (prev.getD 0) (·.uncompressed) := by
  induction n generalizing prev b with
  | zero => exact ⟨fun _ read => (by cases read; rfl), fun _ read => (by cases read)⟩
  | succ n ih =>
      have bounded : ∀ p ∈ prev.map (fun u => (⟨0, u⟩ : OffsetPair)), p.uncompressed ≤ maxSigned := by
        intro p hp
        obtain ⟨u, hu, rfl⟩ := Option.mem_map.mp hp
        exact small u hu
      have exits := takeUncompressed_exits m t.has t.est bounded b
      rw [column, List.replicate_succ, fillUncompressed, Table.takeUncompressed]
      cases taken : Index.takeUncompressed m t.has t.est (prev.map (⟨0, ·⟩)) b with
      | error e =>
          refine ⟨fun _ read => (by cases read), fun broken read => ?_⟩
          cases read
          refine ⟨⟨e, rfl⟩, ?_⟩
          have zeros : ((({} : OffsetPair) :: List.replicate n {}).map (·.uncompressed)) =
              List.replicate (n + 1) 0 := by
            rw [← List.replicate_succ, List.map_replicate]
          rw [zeros]
          exact pairwise_zeros
      | ok r =>
          obtain ⟨below, step⟩ := exits.ok taken
          have rest := ih (some r.1) (fun v hv => by cases hv; exact below) r.2
          have past : prev.getD 0 ≤ r.1 := by
            cases prev with
            | none => exact Nat.zero_le _
            | some p => exact (step _ rfl).1.le
          exact ⟨rest.ok, fun broken read =>
            ⟨(rest.error broken read).1, (pairwise_past past _).trans (rest.error broken read).2⟩⟩

theorem takeCompressed_same (predict : Int) (prev : Option OffsetPair) (b : List UInt8) :
    takeCompressedAt m predict (prev.map (·.compressed)) b = takeCompressed m predict prev b := by
  cases prev <;> rfl

theorem fillCompressed_filled (slots : List OffsetPair) (zeros : ∀ p ∈ slots, p.compressed = 0)
    (predict : Int) (pos : 0 ≤ predict) (near : predict ≤ maxSigned) (prev : Option OffsetPair)
    (small : ∀ p ∈ prev, p.compressed ≤ maxSigned) (b : List UInt8) :
    Filled (column (takeCompressedAt m) slots.length predict (prev.map (·.compressed)) b)
      (fillCompressed m predict prev slots b) ((prev.map (·.compressed)).getD 0)
      (·.compressed) := by
  induction slots generalizing predict prev b with
  | nil => exact ⟨fun _ read => (by cases read; rfl), fun _ read => (by cases read)⟩
  | cons slot slots ih =>
      have exits := takeCompressed_exits m small pos near b
      rw [List.length_cons, column, fillCompressed, takeCompressed_same]
      cases taken : takeCompressed m predict prev b with
      | error e =>
          refine ⟨fun _ read => (by cases read), fun broken read => ?_⟩
          cases read
          refine ⟨⟨e, rfl⟩, ?_⟩
          have column : (slot :: slots).map (·.compressed) = List.replicate (slots.length + 1) 0 := by
            refine List.eq_replicate_iff.mpr ⟨by simp, fun c hc => ?_⟩
            obtain ⟨p, hp, rfl⟩ := List.mem_map.mp hc
            exact zeros p hp
          rw [column]
          exact pairwise_zeros
      | ok r =>
          obtain ⟨below, pos', near', _, step⟩ := exits.ok taken
          have rest := ih (fun p hp => zeros p (List.mem_cons_of_mem slot hp)) _ pos' near'
            (some { slot with compressed := r.1.1 }) (fun p hp => by cases hp; exact below) r.2
          have past : (prev.map (·.compressed)).getD 0 ≤ r.1.1 := by
            cases prev with
            | none => exact Nat.zero_le _
            | some p => exact (step _ rfl).1.le
          exact ⟨rest.ok, fun broken read =>
            ⟨(rest.error broken read).1, (pairwise_past past _).trans (rest.error broken read).2⟩⟩

end Fill

section Load

variable {m : Overflow} {s : Index}

/-- A run that leaves sorted entries just when the table is intact. -/
def Kept {α : Type} (m : Overflow) (y : Load α) (s : Index) (table : Exec Table) : Prop :=
  Runs y s (fun _ r => Ordered r.offsets ↔ Intact m table) fun _ r => Ordered r.offsets ↔ Intact m table

theorem Kept.ok {α : Type} {y : Load α} {table : Exec Table} {a : α} {r : Index}
    (h : Kept m y s table) (run : y s = .ok a r) : Ordered r.offsets ↔ Intact m table := by
  rw [Kept] at h
  exact h.ok run

theorem Kept.error {α : Type} {y : Load α} {table : Exec Table} {e : Stop} {r : Index}
    (h : Kept m y s table) (run : y s = .error e r) : Ordered r.offsets ↔ Intact m table := by
  rw [Kept] at h
  exact h.error run

theorem Kept.input {α β : Type} {x : Exec α} {f : α → Load β} {g : α → Exec Table}
    (sorted : Ordered s.offsets) (next : ∀ a, x = .ok a → Kept m (f a) s (g a)) :
    Kept m ((liftM x : Load α) >>= f) s (x >>= g) := by
  cases run : x with
  | error e =>
      refine Effects.runs_error (e := e) rfl ⟨fun _ t read => ?_, fun _ => sorted⟩
      cases read
  | ok a => exact (next a run).step rfl

theorem Kept.store {α : Type} {f : Index → Index} {g : PUnit → Load α} {table : Exec Table}
    (next : Kept m (g ()) (f s) table) : Kept m ((modify f : Load PUnit) >>= g) s table :=
  Runs.step rfl next

theorem intact_pure {t : Table} : Intact m (.ok t) ↔ t.Intact m := by
  constructor
  · intro h
    exact h t rfl
  · intro h t' same
    cases same
    exact h

/-- The two passes of `loadEntries`. -/
def fillColumns (m : Overflow) (has : UInt8) (b : List UInt8) : Load (List UInt8) := do
  let est := ofWord (← get).estBlockUncomp
  let (filled, r) := fillUncompressed m has est none (← get).offsets b
  modify fun self => { self with offsets := filled }
  let b ← r
  let (filled, r) := fillCompressed m (est.tdiv 2) none (← get).offsets b
  modify fun self => { self with offsets := filled }
  r

theorem loadEntries_eq (m : Overflow) (b : List UInt8) : loadEntries m b = (do
    reject (b = []) .truncated
    let has ← byteAt b 0
    let b ← sliceFrom b 1
    reject (has.toNat > 1) (.badFormat "invalid has_uncompressed byte")
    fillColumns m has b) := rfl

theorem pairwise_zero (l : List Nat) : (0 :: l).Pairwise (· ≤ ·) ↔ l.Pairwise (· ≤ ·) := by
  simp [List.pairwise_cons]

theorem pairwise_le {l : List OffsetPair} {offset : OffsetPair → Nat}
    (h : l.Pairwise fun a b => offset a < offset b) : (l.map offset).Pairwise (· ≤ ·) :=
  List.pairwise_map.mpr (h.imp le_of_lt)

/-- Whatever is done with the bytes behind the columns. -/
theorem runs_rest {α : Type} {P : Prop} (h : P) (x : Exec α) :
    Runs (liftM x : Load α) s (fun _ r => s = r ∧ P) fun _ r => s = r ∧ P := by
  apply runs_lift
  cases x with
  | ok a => exact exits_ok ⟨rfl, h⟩
  | error e => exact exits_error ⟨rfl, h⟩

/-- The second pass, over slots that have their uncompressed offsets. -/
theorem secondColumn_kept (t : Table) (small : t.est ≤ maxSigned) {slots : List OffsetPair}
    (size : slots.length = t.entries) (zeros : ∀ p ∈ slots, p.compressed = 0)
    (ascending : (slots.map (·.uncompressed)).Pairwise (· ≤ ·)) (b : List UInt8)
    {rest : List UInt8 → Exec (List UInt8)} :
    Runs (do
        let (filled, r) := fillCompressed m (t.est / 2 : Nat) none slots b
        modify fun self => { self with offsets := filled }
        let b ← (liftM r : Load (List UInt8))
        liftM (rest b)) s
      (fun _ r => Ordered r.offsets ↔
        column (takeCompressedAt m) t.entries (t.est / 2 : Nat) none b ≠ .error true)
      fun _ r => Ordered r.offsets ↔
        column (takeCompressedAt m) t.entries (t.est / 2 : Nat) none b ≠ .error true := by
  have filled := fillCompressed_filled (m := m) slots zeros (t.est / 2 : Nat) (by omega) (by omega)
    none (fun p hp => by cases hp) b
  have exits := fillCompressed_exits m (t.est / 2 : Nat) none (fun p hp => by cases hp)
    (by omega) (by omega) slots b
  rw [Option.map_none, size] at filled
  generalize fillCompressed m (t.est / 2 : Nat) none slots b = r at filled exits ⊢
  refine (runs_modify _ _).bind ?_
  rintro _ _ rfl
  have same : (r.1.map (·.uncompressed)).Pairwise (· ≤ ·) := by
    rw [exits.1]
    exact ascending
  cases read : column (takeCompressedAt m) t.entries (t.est / 2 : Nat) none b with
  | error broken =>
      obtain ⟨⟨e, failed⟩, sorted⟩ := filled.error broken read
      rw [failed]
      refine Effects.runs_error (e := e) rfl ?_
      simp only [ne_eq, Except.error.injEq, Bool.not_eq_true]
      rw [sorted_iff, ← sorted, Option.getD_none, pairwise_zero]
      exact and_iff_left same
  | ok b' =>
      have done := filled.ok b' read
      have rising := pairwise_le (predictable_sorted (exits.2.ok done).1)
      have sorted : Ordered r.1 := (sorted_iff r.1).mpr ⟨rising, same⟩
      rw [done]
      refine Runs.step rfl ?_
      have intact : Ordered r.1 ↔ (.ok b' : Except Bool (List UInt8)) ≠ .error true :=
        iff_of_true sorted (by simp)
      refine (runs_rest intact _).mono ?_ ?_
      · rintro _ _ ⟨rfl, h⟩
        exact h
      · rintro _ _ ⟨rfl, h⟩
        exact h

theorem fillColumns_kept (t : Table) (est : s.estBlockUncomp = t.est) (small : t.est ≤ maxSigned)
    (zeros : s.offsets = List.replicate t.entries {}) {rest : List UInt8 → Exec (List UInt8)} :
    Kept m (fillColumns m t.has t.columns >>= fun b => liftM (rest b)) s (.ok t) := by
  have ups := fillUncompressed_filled (m := m) t t.entries none (fun v hv => by cases hv) t.columns
  obtain ⟨kept, exits⟩ := fillUncompressed_exits m t.has t.est none (fun p hp => by cases hp)
    (List.replicate t.entries {}) t.columns
  unfold fillColumns
  rw [Kept, intact_pure, Table.Intact]
  simp only [bind_assoc]
  refine (runs_get s).bind ?_
  rintro _ _ ⟨rfl, rfl⟩
  refine (runs_get s).bind ?_
  rintro _ _ ⟨rfl, rfl⟩
  rw [est, Machine.ofWord_small small, zeros]
  rw [Option.map_none] at ups
  generalize fillUncompressed m t.has t.est none (List.replicate t.entries {}) t.columns = us
    at ups kept exits ⊢
  refine (runs_modify _ _).bind ?_
  rintro _ _ rfl
  have flat : us.1.map (·.compressed) = List.replicate t.entries 0 := by
    rw [kept, List.map_replicate]
  have flat_sorted : (us.1.map (·.compressed)).Pairwise (· ≤ ·) := by
    rw [flat]
    exact List.pairwise_replicate.mpr (.inr le_rfl)
  cases read : column (t.takeUncompressed m) t.entries 0 none t.columns with
  | error broken =>
      obtain ⟨⟨e, failed⟩, sorted⟩ := ups.error broken read
      rw [failed]
      refine Effects.runs_error (e := e) rfl ?_
      simp only
      rw [sorted_iff, ← sorted, Option.getD_none, pairwise_zero]
      exact and_iff_right flat_sorted
  | ok b =>
      have done := ups.ok b read
      rw [done]
      refine Runs.step rfl ?_
      refine (runs_get _).bind ?_
      rintro _ _ ⟨rfl, rfl⟩
      have half : (t.est : Int).tdiv 2 = (t.est / 2 : Nat) := Int.tdiv_eq_ediv_of_nonneg (by omega)
      have slots : ∀ p ∈ us.1, p.compressed = 0 := by
        intro p hp
        exact (List.eq_replicate_iff.mp flat).2 _ (List.mem_map_of_mem hp)
      have size : us.1.length = t.entries := by
        rw [← List.length_map, flat, List.length_replicate]
      rw [half]
      exact secondColumn_kept t small size slots (pairwise_le (ascends_sorted (exits.ok done).1)) b

theorem load_kept (m : Overflow) (bytes : List UInt8) (sorted : Ordered s.offsets) :
    Kept m (load m bytes) s (entryTable m bytes) := by
  unfold load loadTotals entryTable
  simp only [loadEntries_eq, bind_assoc]
  refine Kept.input sorted fun b _ => ?_
  refine Kept.input sorted ?_
  rintro ⟨total, b⟩ _
  refine Kept.input sorted fun _ _ => ?_
  refine Kept.store ?_
  refine Kept.input sorted ?_
  rintro ⟨comp, b⟩ _
  refine Kept.store ?_
  refine Kept.input sorted ?_
  rintro ⟨est, b⟩ read
  obtain ⟨fits, _⟩ := (takeVarint_exits m _).ok read
  refine Kept.input sorted fun _ _ => ?_
  refine Kept.store ?_
  refine Kept.input sorted ?_
  rintro ⟨entries, b⟩ _
  refine Kept.input sorted fun _ _ => ?_
  refine Kept.store ?_
  have zeros : Ordered (List.replicate entries.toNat {}) :=
    List.pairwise_replicate.mpr (.inr ⟨le_rfl, le_rfl⟩)
  refine Kept.input zeros fun _ _ => ?_
  refine Kept.input zeros fun has _ => ?_
  refine Kept.input zeros fun b _ => ?_
  refine Kept.input zeros fun _ _ => ?_
  have small : est.toNat ≤ maxSigned := by
    have limit := maxSigned_eq
    rw [Fits] at fits
    omega
  exact fillColumns_kept ⟨est.toNat, entries.toNat, has, b⟩ rfl small rfl

/-- The bytes that `loadStream` loads from. -/
def storedChunk (data : List UInt8) : Exec (List UInt8) := do
  reject (data.length < 10) seekError
  let tail := data.drop (data.length - 10)
  reject ((tail.drop 4).take indexTrailer.length ≠ indexTrailer) (.badFormat "trailer not found")
  let sz := (Slice.ofList tail).word 4 0
  reject (sz > MinLz.Stream.maxUserChunkSize + skippableFrameHeader) (.invalid "size exceeds maximum")
  reject (data.length < sz) seekError
  return data.drop (data.length - sz)

theorem loadStream_kept (m : Overflow) (data : List UInt8) (sorted : Ordered s.offsets) :
    Kept m (loadStream m data) s (storedChunk data >>= entryTable m) := by
  unfold loadStream storedChunk
  simp only [bind_assoc, pure_bind]
  refine Kept.input sorted fun _ _ => ?_
  refine Kept.input sorted fun _ _ => ?_
  refine Kept.input sorted fun _ _ => ?_
  refine Kept.input sorted fun _ _ => ?_
  exact (load_kept m _ sorted).bind fun _ _ kept => runs_pure kept

end Load

section Runs

variable (m : Overflow)

/-- The condition under which a call keeps the entries sorted. -/
def Call.Keeps (self : Index) : Call → Prop
  | .add compressed uncompressed => ¬Falls self compressed uncompressed
  | .load bytes => Intact m (entryTable m bytes)
  | .loadStream data => Intact m (storedChunk data >>= entryTable m)
  | .new | .reset _ | .appendTo _ _ _ => True

theorem appendTo_sorted {self : Index} (sorted : Ordered self.offsets) (buf : List UInt8)
    (totalUncomp totalComp : Option Nat) {r : Index} {out : List UInt8}
    (run : Index.appendTo m self buf totalUncomp totalComp = .ok (r, out)) : Ordered r.offsets := by
  rw [Index.appendTo] at run
  split at run
  · cases run
  · obtain ⟨reduced, shrunk, run⟩ := Effects.bind_eq_ok run
    obtain ⟨payload, _, run⟩ := Effects.bind_eq_ok run
    cases run
    have sub := reduce_sublist shrunk
    exact List.Pairwise.sublist sub sorted

theorem after_sorted {self r : Index} (sorted : Ordered self.offsets) {call : Call}
    (after : call.after m self = some r) : Ordered r.offsets ↔ call.Keeps m self := by
  cases call with
  | new | reset maxBlock =>
      cases after
      exact iff_of_true List.Pairwise.nil trivial
  | add compressed uncompressed =>
      have exits := add_sorted m sorted compressed uncompressed
      simp only [Call.after] at after
      split at after
      · next run =>
          cases after
          exact exits.ok run
      · next run =>
          cases after
          exact iff_of_true sorted ((exits.error run).resolve_left (by rintro ⟨f, h⟩; cases h))
      · cases after
  | appendTo buf totalUncomp totalComp =>
      simp only [Call.after] at after
      split at after
      · next run =>
          cases after
          exact iff_of_true (appendTo_sorted m sorted buf totalUncomp totalComp run) trivial
      · cases after
        exact iff_of_true sorted trivial
      · cases after
  | load bytes =>
      have kept := load_kept m bytes sorted
      simp only [Call.after] at after
      split at after
      · next run =>
          cases after
          exact kept.ok run
      · next run =>
          cases after
          exact kept.error run
      · cases after
  | loadStream data =>
      have kept := loadStream_kept m data sorted
      simp only [Call.after] at after
      split at after
      · next run =>
          cases after
          exact kept.ok run
      · next run =>
          cases after
          exact kept.error run
      · cases after

/-- An index that calls have left behind, each made under its condition. -/
inductive Orderly : Index → Prop where
  | new : Orderly Index.new
  | call {self r : Index} (before : Orderly self) (call : Call) (keeps : call.Keeps m self)
      (after : call.after m self = some r) : Orderly r

/-- The entries are sorted wherever such calls lead, and the condition leaves out
    only the calls that would unsort them. -/
theorem orderly_sorted {self : Index} (orderly : Orderly m self) :
    Ordered self.offsets ∧ ∀ {call : Call} {r : Index}, call.after m self = some r →
      (Ordered r.offsets ↔ call.Keeps m self) := by
  have sorted : Ordered self.offsets := by
    induction orderly with
    | new => exact List.Pairwise.nil
    | call before call keeps after sorted => exact (after_sorted m sorted after).mpr keeps
  exact ⟨sorted, fun after => after_sorted m sorted after⟩

end Runs

/-- Two entries of an index without spacing. -/
theorem orderly_sorted_two : Ordered [⟨0, 0⟩, ⟨5, 10⟩] := by
  have first : Orderly .panics ⟨none, none, [⟨0, 0⟩], 0⟩ :=
    .call .new (.add 0 0) (by simp [Call.Keeps, Falls, Index.new]) (by decide +kernel)
  have second : Orderly .panics ⟨none, none, [⟨0, 0⟩, ⟨5, 10⟩], 0⟩ :=
    .call first (.add 5 10) (by simp [Call.Keeps, Falls]) (by decide +kernel)
  exact (orderly_sorted .panics second).1

/-- An index chunk whose second entry does not rise above the first. -/
def flatChunk : List UInt8 :=
  [0x40, 13, 0, 0] ++ indexHeader ++ [20, 1, 0, 4, 1, 10, 0]

/-- A new index takes a falling entry, and a load that fails leaves half a column. -/
theorem calls_unsort :
    (∃ r, (do (Call.add 5 3).after .panics (← (Call.add 5 10).after .panics Index.new)) = some r ∧
      ¬Ordered r.offsets) ∧
    ∃ r, (Call.load flatChunk).after .panics Index.new = some r ∧ ¬Ordered r.offsets := by
  constructor
  · exact ⟨⟨none, none, [⟨5, 10⟩, ⟨5, 3⟩], 0⟩, by decide +kernel, by decide⟩
  · exact ⟨⟨some 10, none, [⟨0, 5⟩, ⟨0, 0⟩], 0⟩, by decide +kernel, by decide⟩

end MinLz.Index
