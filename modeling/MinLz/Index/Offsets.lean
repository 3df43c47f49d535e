import MinLz.Block.LoadStore
import MinLz.Io
import MinLz.Lib.Machine
import MinLz.Lib.Search

/-! # The stream index

Pairs of offsets, added while a stream is written or scanned and thinned so that
their number stays bounded. Offsets and the block estimate are unsigned 64-bit
words; `m` says whether their arithmetic wraps or panics.
-/

namespace MinLz

/-- A position in the stream and in what it decodes to. -/
structure OffsetPair where
  compressed : Nat := 0
  uncompressed : Nat := 0
  deriving DecidableEq, Repr

structure Index where
  totalUncompressed : Option Nat := none
  totalCompressed : Option Nat := none
  offsets : List OffsetPair := []
  estBlockUncomp : Nat := 0
  deriving DecidableEq, Repr

namespace Index

open Machine (Overflow maxSigned)

/-- Errors from index parsing, construction and seeking. -/
inductive Error where
  | truncated
  | badFormat (reason : String)
  | invalid (reason : String)
  | io (e : IoError)
  deriving DecidableEq, Repr

def Error.toIo : Error → IoError
  | .io inner => inner
  | .truncated => ⟨.unexpectedEof, "minlz index: truncated"⟩
  | .badFormat reason => ⟨.unsupported, "minlz index: " ++ reason⟩
  | .invalid reason => ⟨.invalidData, "minlz index: " ++ reason⟩

inductive Stop where
  | fault (f : Fault)
  | error (e : Error)
  deriving DecidableEq, Repr

abbrev Exec (α : Type) := Except Stop α

@[simp] theorem ok_bind {α β : Type} (a : α) (f : α → Exec β) :
    ((Except.ok a : Exec α) >>= f) = f a := rfl

@[simp] theorem pure_ok {α : Type} (a : α) : (pure a : Exec α) = .ok a := rfl

/-- A word, or the panic of an operation that leaves its range. -/
def word {α : Type} : Option α → Exec α
  | some x => .ok x
  | none => .error (.fault .panic)

def maxIndexEntries : Nat := 1 <<< 16
def minIndexDist : Nat := 1 <<< 20

theorem maxIndexEntries_eq : maxIndexEntries = 65536 := rfl

theorem minIndexDist_eq : minIndexDist = 1048576 := rfl

theorem maxSigned_eq : maxSigned = 9223372036854775807 := rfl

/-- Empty index. -/
def new : Index := {}

/-- `while mb < MIN_INDEX_DIST { mb *= 2 }` -/
def growBlock (mb : Nat) : Nat :=
  if _h : 0 < mb ∧ mb < minIndexDist then growBlock (mb * 2) else mb
termination_by minIndexDist - mb
decreasing_by omega

/-- Reset to an empty index for a stream of blocks of up to `maxBlock` bytes. -/
def reset (maxBlock : Nat) : Index := { estBlockUncomp := growBlock (max maxBlock 1) }

section Thinning

variable (m : Overflow)

/-- Every entry after `base` that is `est` past the one kept before it. -/
def thinFrom (est : Nat) (base : OffsetPair) : List OffsetPair → Exec (List OffsetPair)
  | [] => .ok []
  | p :: rest => do
      let gap ← word (m.unsigned (p.uncompressed - base.uncompressed))
      if gap < est then thinFrom est base rest
      else return p :: (← thinFrom est p rest)

def thin (est : Nat) : List OffsetPair → Exec (List OffsetPair)
  | [] => .ok []
  | base :: rest => do return base :: (← thinFrom m est base rest)

/-- Double the spacing and drop the entries that fall within it. -/
def reduceLight (self : Index) : Exec Index := do
  let est ← word (m.unsigned (self.estBlockUncomp * 2))
  return { self with offsets := ← thin m est self.offsets, estBlockUncomp := est }

/-- Every `(removeN + 1)`-th entry, after `skip` of them. -/
def takeEvery (removeN : Nat) : Nat → List OffsetPair → List OffsetPair
  | _, [] => []
  | 0, p :: rest => p :: takeEvery removeN removeN rest
  | skip + 1, _ :: rest => takeEvery removeN skip rest

/-- How many entries `reduce` drops after each that it keeps. -/
def removeCount (est len : Nat) : Exec Nat :=
  Loop.run (.fault .unfinished) (fun (removeN : Nat) => do
    let spaced ← word (m.unsigned (est * (removeN + 1)))
    if spaced < minIndexDist ∧ len / (removeN + 1) > 1000 then return .next (removeN + 1)
    else return .done removeN) (len + 1) ((len + 1) / maxIndexEntries)

/-- Reduce the number of entries to what a stored index may hold. -/
def reduce (self : Index) : Exec Index := do
  if self.offsets.length < maxIndexEntries then return self
  let removeN ← removeCount m self.estBlockUncomp self.offsets.length
  let grown ← word (m.unsigned (self.estBlockUncomp * removeN))
  let est ← word (m.unsigned (self.estBlockUncomp + grown))
  return { self with offsets := takeEvery removeN 0 self.offsets, estBlockUncomp := est }

/-- Append an entry; one too close to the last is left out. -/
def add (self : Index) (compressed uncompressed : Nat) : Exec Index := do
  if compressed > maxSigned ∨ uncompressed > maxSigned then
    .error (.error (.invalid "offset exceeds i64 wire range"))
  else
    let close := self.offsets.getLast?.any fun latest =>
      uncompressed - latest.uncompressed < self.estBlockUncomp
    if close then return self
    if self.offsets.getLast?.any fun latest => latest.compressed > compressed then
      .error (.error (.invalid "compressed offset decreased"))
    else
      let self := { self with offsets := self.offsets ++ [⟨compressed, uncompressed⟩] }
      if self.offsets.length > maxIndexEntries then reduceLight m self else return self

/-- One `add` after another, as long as they return. -/
def addAll (self : Index) : List OffsetPair → Exec Index
  | [] => .ok self
  | p :: rest => do
      let self ← add m self p.compressed p.uncompressed
      addAll self rest

end Thinning

def findBisecting (offsets : List OffsetPair) (offset : Nat) : OffsetPair :=
  let n := Search.partitionPoint
    (fun i => offsets[i]?.any (·.uncompressed ≤ offset)) offsets.length
  if n = 0 then {} else offsets.getD (n - 1) {}

/-- The scan of a short list; `best` is the last entry passed. -/
def findScanning (offset : Nat) : OffsetPair → List OffsetPair → OffsetPair
  | best, [] => best
  | best, p :: rest => if p.uncompressed > offset then best else findScanning offset p rest

/-- The entry at or before an uncompressed offset. -/
def find (self : Index) (offset : Nat) : OffsetPair :=
  if self.offsets = [] then {}
  else if self.offsets.length > 200 then findBisecting self.offsets offset
  else findScanning offset {} self.offsets

end Index

end MinLz
