/-
Faults. Functions over graphs, types and machine states take malformed inputs
too: a variable without a type, a jump to a missing block, a negative index.
Where the input gives no answer at all, the result is a `Fault` that names
what was missing. Faults are apart from errors, which are answers about
well-understood bad input and have a wording.
-/
namespace RefCount

/-- What a computation over malformed input found missing. -/
inductive Fault where
  /-- A position outside a text. -/
  | position
  /-- A blank character outside the range of blank sets. -/
  | blank
  /-- A key that no set can hold. -/
  | key
  /-- A type that the pool does not know, or that is not yet defined. -/
  | type
  /-- A number that is no kind of type. -/
  | kind
  /-- A variable without a type. -/
  | variable
  /-- A block that the function does not have. -/
  | block
  /-- An instruction position outside a block. -/
  | instruction
  /-- A block without a terminator. -/
  | terminator
  /-- An index of a field or variant that is out of range. -/
  | index
  /-- A missing pattern or expression. -/
  | missing
  /-- A literal of the wrong kind. -/
  | literal
  /-- A function without a signature, or with too short a one. -/
  | signature
  /-- Too few arguments. -/
  | argument
  /-- An address that was never allocated. -/
  | address
  /-- A definition that the pool refuses where no refusal is possible. -/
  | definition
  /-- A step limit was reached. -/
  | limit
  deriving DecidableEq, Repr, Inhabited

end RefCount
