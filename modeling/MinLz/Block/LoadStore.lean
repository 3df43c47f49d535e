import MinLz.Lib.Bytes
import MinLz.Lib.Leb128
import MinLz.Lib.Loop
import MinLz.Lib.Lz77
import MinLz.Lib.Trie

/-! # Raw loads and stores

The codec reads and writes through unchecked pointers. Every such access of the
model is checked, and one outside its slice stops the run with a fault, as do a
panicking index and an unsigned subtraction below zero. A function that returns
`ok` has therefore made none of them.
-/

namespace MinLz

/-- Errors returned by the block codec. -/
inductive Error where
  | corrupt (reason : String)
  | tooLarge
  | invalidLevel
  deriving DecidableEq, Repr

/-- What a run of the real code must never do. -/
inductive Fault where
  /-- a raw load outside its slice -/
  | load
  /-- a raw store past the end of its slice -/
  | store
  /-- a checked range, to store in, past the end of its slice -/
  | room
  /-- any other checked index or range, or an explicit `panic!` -/
  | panic
  /-- an unsigned subtraction below zero -/
  | underflow
  /-- a loop that outlives its bound -/
  | unfinished
  deriving DecidableEq, Repr

inductive Stop where
  | fault (f : Fault)
  | error (e : Error)
  deriving DecidableEq, Repr

abbrev Exec (α : Type) := Except Stop α

export Loop (Iter)

namespace Block

@[simp] theorem ok_bind {α β : Type} (a : α) (f : α → Exec β) : (Except.ok a : Exec α) >>= f = f a :=
  rfl

@[simp] theorem pure_ok {α : Type} (a : α) : (pure a : Exec α) = .ok a := rfl

@[simp] theorem error_bind {α β : Type} (e : Stop) (f : α → Exec β) :
    (Except.error e : Exec α) >>= f = .error e := rfl

/-- Run a loop; the bound is one more than the measure its proof supplies. -/
def loop {σ β : Type} (step : σ → Exec (Iter σ β)) (bound : Nat) (s : σ) : Exec β :=
  Loop.run (.fault .unfinished) step bound s

def sub (a b : Nat) : Exec Nat := if b ≤ a then .ok (a - b) else .error (.fault .underflow)

/-- Checked indexing, `b[i]`. -/
def index (b : Slice) (i : Nat) : Exec UInt8 :=
  if i < b.len then .ok (b.get i) else .error (.fault .panic)

def load (k : Nat) (b : Slice) (i : Nat) : Exec Nat :=
  if i + k ≤ b.len then .ok (b.word k i) else .error (.fault .load)

def load32 (b : Slice) (i : Nat) : Exec Nat := load 4 b i

def load64 (b : Slice) (i : Nat) : Exec Nat := load 8 b i

def store (b : Slice) (i : Nat) (bs : List UInt8) : Exec Slice :=
  if i + bs.length ≤ b.len then .ok (b.splice i bs) else .error (.fault .store)

def store8 (b : Slice) (i v : Nat) : Exec Slice := store b i (Slice.leBytes 1 v)

def store16 (b : Slice) (i v : Nat) : Exec Slice := store b i (Slice.leBytes 2 v)

def store32 (b : Slice) (i v : Nat) : Exec Slice := store b i (Slice.leBytes 4 v)

/-- `b[i..i + bs.len()].copy_from_slice(bs)`. -/
def copyFromSlice (b : Slice) (i : Nat) (bs : List UInt8) : Exec Slice :=
  if i + bs.length ≤ b.len then .ok (b.splice i bs) else .error (.fault .room)

/-- `&mut b[i..]`. -/
def sliceFrom (b : Slice) (i : Nat) : Exec Unit :=
  if i ≤ b.len then .ok () else .error (.fault .room)

theorem sub_ok {a b : Nat} (h : b ≤ a) : sub a b = .ok (a - b) := if_pos h

theorem index_ok {b : Slice} {i : Nat} (h : i < b.len) : index b i = .ok (b.get i) := if_pos h

theorem load_ok {k : Nat} {b : Slice} {i : Nat} (h : i + k ≤ b.len) :
    load k b i = .ok (b.word k i) := if_pos h

theorem load32_ok {b : Slice} {i : Nat} (h : i + 4 ≤ b.len) : load32 b i = .ok (b.word 4 i) :=
  if_pos h

theorem load64_ok {b : Slice} {i : Nat} (h : i + 8 ≤ b.len) : load64 b i = .ok (b.word 8 i) :=
  if_pos h

theorem store_ok {b : Slice} {i : Nat} {bs : List UInt8} (h : i + bs.length ≤ b.len) :
    store b i bs = .ok (b.splice i bs) := if_pos h

theorem copyFromSlice_ok {b : Slice} {i : Nat} {bs : List UInt8} (h : i + bs.length ≤ b.len) :
    copyFromSlice b i bs = .ok (b.splice i bs) := if_pos h

theorem sliceFrom_ok {b : Slice} {i : Nat} (h : i ≤ b.len) : sliceFrom b i = .ok () := if_pos h

end Block

end MinLz
