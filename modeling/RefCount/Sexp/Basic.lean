/-
Syntax trees: lists, identifiers and literals, each with the span of bytes it
was read from. Positions are byte offsets, and a span is closed at its start
and open at its end.
-/
import RefCount.Text.Bytes

namespace RefCount.Sexp

/-- The bytes from `start` up to `stop`, which is not included. -/
structure Span where
  start : Nat
  stop : Nat
  deriving DecidableEq, Repr, Inhabited

/-- A syntax tree. -/
inductive Node where
  | list (span : Span) (items : List Node)
  | ident (span : Span) (name : String)
  | int (span : Span) (value : Int64)
  | float (span : Span) (value : Float)
  | str (span : Span) (value : Bytes)
  deriving Repr, Inhabited

namespace Node

/-- The bytes that a node was read from. -/
def span : Node → Span
  | list s _ => s
  | ident s _ => s
  | int s _ => s
  | float s _ => s
  | str s _ => s

def name? : Node → Option String
  | ident _ n => some n
  | _ => none

/-- The identifier that a list begins with. -/
def head? : Node → Option String
  | list _ (x :: _) => x.name?
  | _ => none

end Node

end RefCount.Sexp
