import MinLz.Index.Headers
import MinLz.Stream.Skip
import MinLz.Stream.Writer

/-! # Seeking

A `ReadSeeker` drives a reader over a source that it can place anywhere, and finds where
to place it in an index. The source is the list of its bytes. `Cursor` says what this is
for: a position in the payload.
-/

namespace MinLz.Stream

open Machine (Overflow maxSigned checkedAdd)
open Effects Loop

inductive SeekFrom where
  | start (offset : Nat)
  | current (delta : Int)
  | fromEnd (delta : Int)
  deriving DecidableEq, Repr

structure ReadSeeker (σ : Type) where
  reader : Reader σ
  index : Index
  /-- all the bytes of what the reader reads from -/
  source : List UInt8

/-- A call of the seeker. -/
abbrev Seeking (σ α : Type) := EStateM (Stop IoError) (ReadSeeker σ) α

section Calls

variable {σ α : Type} (m : Overflow) (mem : Nat → UInt8)

/-- `ReadSeeker::new`; the position of the source is the same after it. -/
def ReadSeeker.new (reader : Reader σ) (source indexBytes : List UInt8) :
    Except (Stop IoError) (ReadSeeker σ) := do
  let index ← ofIndex (Index.seekerIndex m source indexBytes)
  return { reader, index, source }

/-- A call of the reader. -/
def onReader (x : Action σ α) : Seeking σ α := fun self =>
  match x self.reader with
  | .ok a reader => .ok a { self with reader }
  | .error e reader => .error e { self with reader }

/-- `reader.r.seek(SeekFrom::Start(offset))` -/
def placeSource (offset : Nat) : Seeking σ Unit :=
  modify fun self => { self with reader := { self.reader with r := self.source.drop offset } }

def toI64 (v : Nat) : Except (Stop IoError) Int :=
  if v ≤ maxSigned then .ok v else refuse "offset exceeds i64 seek range"

def addOffset (offset : Nat) (delta : Int) : Except (Stop IoError) Int := do
  match checkedAdd (← toI64 offset) delta with
  | some sum => return sum
  | none => refuse "seek overflow"

/-- The offset to seek to, which may be negative. -/
def absoluteOffset (self : ReadSeeker σ) : SeekFrom → Except (Stop IoError) Int
  | .start offset => toI64 offset
  | .current delta => addOffset self.reader.currentOffset.toNat delta
  | .fromEnd delta =>
      match self.index.totalUncompressed with
      | some total => addOffset total delta
      | none => .error (.error ⟨.unsupported, "seek from end requires known total_uncompressed"⟩)

/-- The offset to seek to, which is not past the end. -/
def seekTarget (self : ReadSeeker σ) (pos : SeekFrom) : Except (Stop IoError) Nat := do
  let offset ← absoluteOffset self pos
  if offset < 0 then refuse "seek before start of file"
  else if self.index.totalUncompressed.any (offset.toNat > ·) then .error (.error unexpectedEof)
  else return offset.toNat

/-- An error stays, unless it is that of the end of the source. -/
def clearEof : Action σ Unit := do
  match (← get).err with
  | some e =>
      if e.kind ≠ .unexpectedEof then throw (.error e)
      modify fun self => { self with err := none }
  | none => return ()

/-- Have the stream identifier read, from the start of the source. -/
def readIdentifier : Seeking σ Unit := do
  if (← get).reader.headerRead = false then
    placeSource 0
    let _ ← onReader (fillBuf mem)

/-- Place the reader where the index says, and skip to the offset from there. -/
def seekBlock (offset : Nat) : Seeking σ Unit := do
  let entry := (← get).index.find offset
  placeSource entry.compressed
  onReader (modify fun reader =>
    { reader with decoded := [], decodedPos := 0, blockStart := entry.uncompressed.toUInt64 })
  if entry.uncompressed < offset then onReader (skip m mem (offset - entry.uncompressed))
  if m = .panics ∧ entry.uncompressed > offset then throw (.fault .panic)

/-- Seek by uncompressed offset, within the block at hand if it has the offset. -/
def seekUncompressed (pos : SeekFrom) : Seeking σ Nat := do
  onReader clearEof
  let offset ← seekTarget (← get) pos
  readIdentifier mem
  let reader := (← get).reader
  if reader.blockStart.toNat ≤ offset ∧ offset < reader.blockEnd.toNat then
    onReader (modify fun reader =>
      { reader with decodedPos := offset - reader.blockStart.toNat })
  else seekBlock m mem offset
  return offset

/-- `none` where the call fails with `ErrorKind::Interrupted`. -/
def unlessInterrupted (x : Action σ α) : Action σ (Option α) := fun s =>
  match x s with
  | .ok a s' => .ok (some a) s'
  | .error (.error e) s' =>
      if e.kind = .interrupted then .ok none s' else .error (.error e) s'
  | .error (.fault f) s' => .error (.fault f) s'

/-- A pass of `read_at` with what has been read; one that is interrupted is made again. -/
def readAtStep (len : Nat) (bytes : List UInt8) :
    Action σ (Iter (List UInt8) (List UInt8)) := do
  if bytes.length < len then
    match ← unlessInterrupted (read m mem (len - bytes.length)) with
    | none => return .next bytes
    | some more =>
        if more = [] then return .done bytes
        return .next (bytes ++ more)
  else return .done bytes

/-- What a buffer of `len` bytes is filled with. -/
def readAt (len offset : Nat) : Seeking σ (List UInt8) := do
  let _ ← seekUncompressed m mem (.start offset)
  onReader (runM (.fault .unfinished) (readAtStep m mem len) (len + 1) [])

/-- An interruption that the reader keeps is met again by every pass, so that no number of
    them is enough. -/
theorem readAt_stuck {s : Reader σ} {e : IoError} (failed : s.err = some e)
    (interrupted : e.kind = .interrupted) {len : Nat} {bytes : List UInt8}
    (short : bytes.length < len) (fuel : Nat) :
    runM (.fault .unfinished) (readAtStep m mem len) fuel bytes s =
      .error (.fault .unfinished) s := by
  have again : read m mem (len - bytes.length) s = .error (.error e) s :=
    bind_error (checkErr_failed failed)
  have pass : readAtStep m mem len bytes s = .ok (.next bytes) s := by
    have caught : unlessInterrupted (read m mem (len - bytes.length)) s = .ok none s := by
      rw [unlessInterrupted, again]
      exact if_pos interrupted
    rw [readAtStep, if_pos short]
    exact bind_ok caught
  induction fuel with
  | zero => rfl
  | succ fuel ih => exact (bind_ok pass).trans ih

def readExactAt (len offset : Nat) : Seeking σ (List UInt8) := do
  let bytes ← readAt m mem len offset
  if bytes.length < len then throw (.error unexpectedEof)
  return bytes

end Calls

inductive SeekerCall where
  | read (len : Nat)
  | seek (pos : SeekFrom)
  | readAt (len offset : Nat)
  | readExactAt (len offset : Nat)
  deriving DecidableEq, Repr

inductive Reply where
  | offset (offset : Nat)
  | bytes (bytes : List UInt8)
  deriving DecidableEq, Repr

section Runs

variable {σ : Type} (m : Overflow) (mem : Nat → UInt8)

def SeekerCall.run : SeekerCall → Seeking σ Reply
  | .read len => return .bytes (← onReader (Stream.read m mem len))
  | .seek pos => return .offset (← seekUncompressed m mem pos)
  | .readAt len offset => return .bytes (← Stream.readAt m mem len offset)
  | .readExactAt len offset => return .bytes (← Stream.readExactAt m mem len offset)

/-- What the calls return in turn, whether they fail or not; a panic ends the run. -/
def replies : List SeekerCall → ReadSeeker σ → List (Except (Stop IoError) Reply)
  | [], _ => []
  | call :: calls, self =>
      match call.run m mem self with
      | .ok reply self => .ok reply :: replies calls self
      | .error (.error e) self => .error (.error e) :: replies calls self
      | .error (.fault f) _ => [.error (.fault f)]

end Runs

/-- Where a seek leads from a position in a payload. -/
def SeekFrom.target (payload : List UInt8) (pos : Nat) : SeekFrom → Int
  | .start offset => offset
  | .current delta => pos + delta
  | .fromEnd delta => payload.length + delta

/-- A seek from `pos` ends up at `offset`. -/
def Seeks (payload : List UInt8) (pos : Nat) (move : SeekFrom) (offset : Nat) : Prop :=
  move.target payload pos = offset ∧ offset ≤ payload.length

/-- A cursor over the payload at `pos` may return this from a call and be at `pos'` then. A
    read may stop early, but not without a byte before the end. A seek that leads out of the
    payload fails and leaves the position as it was. -/
inductive Cursor (payload : List UInt8) (pos : Nat) :
    SeekerCall → Except (Stop IoError) Reply → Nat → Prop where
  | read {len n : Nat} (most : n ≤ len) (inside : pos + n ≤ payload.length)
      (some : len ≠ 0 → n = 0 → pos = payload.length) :
      Cursor payload pos (.read len) (.ok (.bytes ((payload.drop pos).take n))) (pos + n)
  | seek {move : SeekFrom} {offset : Nat} (seeks : Seeks payload pos move offset) :
      Cursor payload pos (.seek move) (.ok (.offset offset)) offset
  | seekOut {move : SeekFrom} {e : IoError} (out : ∀ offset, ¬Seeks payload pos move offset) :
      Cursor payload pos (.seek move) (.error (.error e)) pos
  | readAt {len offset : Nat} (seeks : Seeks payload pos (.start offset) offset) :
      Cursor payload pos (.readAt len offset) (.ok (.bytes ((payload.drop offset).take len)))
        (min (offset + len) payload.length)
  | readAtOut {len offset : Nat} {e : IoError}
      (out : ¬Seeks payload pos (.start offset) offset) :
      Cursor payload pos (.readAt len offset) (.error (.error e)) pos
  | readExactAt {len offset : Nat} (inside : offset + len ≤ payload.length) :
      Cursor payload pos (.readExactAt len offset)
        (.ok (.bytes ((payload.drop offset).take len))) (offset + len)
  | readExactAtShort {len offset : Nat} (seeks : Seeks payload pos (.start offset) offset)
      (short : payload.length < offset + len) :
      Cursor payload pos (.readExactAt len offset) (.error (.error unexpectedEof)) payload.length
  | readExactAtOut {len offset : Nat} {e : IoError}
      (out : ¬Seeks payload pos (.start offset) offset) :
      Cursor payload pos (.readExactAt len offset) (.error (.error e)) pos

/-- The calls return in turn what a cursor over the payload may return. -/
inductive Follows (payload : List UInt8) :
    Nat → List SeekerCall → List (Except (Stop IoError) Reply) → Prop where
  | nil (pos : Nat) : Follows payload pos [] []
  | cons {pos pos' : Nat} {call : SeekerCall} {calls : List SeekerCall}
      {reply : Except (Stop IoError) Reply} {more : List (Except (Stop IoError) Reply)}
      (first : Cursor payload pos call reply pos') (rest : Follows payload pos' calls more) :
      Follows payload pos (call :: calls) (reply :: more)

end MinLz.Stream
