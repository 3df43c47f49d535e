/-! # I/O errors -/

namespace MinLz

inductive IoKind where
  | interrupted
  | invalidData
  | invalidInput
  | other
  | unexpectedEof
  | unsupported
  | writeZero
  deriving DecidableEq, Repr

structure IoError where
  kind : IoKind
  message : String
  deriving DecidableEq, Repr

end MinLz
