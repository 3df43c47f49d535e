import MinLz.Block.LoadStore
import MinLz.Io

/-! # Stream errors -/

namespace MinLz

/-- The text of a block error. -/
def Error.display : Error → String
  | .corrupt reason => "minlz: corrupt input: " ++ reason
  | .tooLarge => "minlz: decoded block is too large"
  | .invalidLevel => "minlz: invalid compression level"

namespace Stream

/-- Errors raised by the stream codec. -/
inductive Error where
  | corrupt
  | crc
  | tooLarge
  | unsupported
  | block (e : MinLz.Error)
  | io (e : IoError)
  | config (reason : String)
  deriving DecidableEq, Repr

def Error.display : Error → String
  | .corrupt => "minlz: corrupt stream"
  | .crc => "minlz: CRC mismatch"
  | .tooLarge => "minlz: block too large"
  | .unsupported => "minlz: unsupported chunk or stream"
  | .block e => "minlz: block decode failed: " ++ e.display
  | .io e => "minlz: I/O error: " ++ e.message
  | .config reason => "minlz: invalid configuration: " ++ reason

def Error.toIo : Error → IoError
  | .io inner => inner
  | .config reason => ⟨.invalidInput, (Error.config reason).display⟩
  | other => ⟨.invalidData, other.display⟩

/-- `io::Error::from(io::ErrorKind::UnexpectedEof)` -/
def unexpectedEof : IoError := ⟨.unexpectedEof, "unexpected end of file"⟩

inductive Stop (ε : Type) where
  | fault (f : Fault)
  | error (e : ε)
  deriving DecidableEq, Repr

abbrev Exec (α : Type) := Except (Stop Error) α

/-- `if bad { return Err(e) }` -/
def reject (bad : Prop) [Decidable bad] (e : Error) : Exec Unit :=
  if bad then .error (.error e) else .ok ()

def ofBlock {α : Type} : MinLz.Exec α → Exec α
  | .ok a => .ok a
  | .error (.fault f) => .error (.fault f)
  | .error (.error e) => .error (.error (.block e))

/-- A word, or the panic of an operation that leaves its range. -/
def word {ε α : Type} : Option α → Except (Stop ε) α
  | some x => .ok x
  | none => .error (.fault .panic)

end Stream

end MinLz
