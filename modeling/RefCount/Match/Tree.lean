/-
Decision trees. An occurrence is a position inside the matched value, reached
by fields of variants. A tree looks at one occurrence at a time, at its tag,
at its value, or by a test against a literal or a range, and ends in an arm,
with the occurrences that the arm's names stand for, or in failure. Behind a
guarded arm stands the tree to go on with if the guard fails.
-/
import RefCount.Program.Basic

namespace RefCount.Match

/-- A step into a value: a field of a variant. -/
structure Step where
  variant : Int
  field : Int
  deriving DecidableEq, Repr, Inhabited

/-- A position inside the matched value, from the root on, and the type of
what stands there. -/
structure Occurrence where
  path : List Step
  type : TypeId
  deriving DecidableEq, Repr, Inhabited

/-- A name for what stands at a position. -/
structure Binding where
  name : String
  occurrence : Occurrence
  deriving DecidableEq, Repr, Inhabited

/-- A test of a value. -/
inductive Test where
  | lit (value : Literal)
  | range (low high : Int64)
  deriving Repr, Inhabited

/-- A decision tree. -/
inductive Tree where
  | fail
  | leaf (arm : Nat) (bindings : List Binding) (next : Option Tree)
  /-- A switch on the tag of an enum, or on an integer; without a default the
  cases are all there are. -/
  | switch (occurrence : Occurrence) (onTag : Bool) (cases : List (Int64 × Tree))
      (default : Option Tree)
  | test (occurrence : Occurrence) (test : Test) (thenTree elseTree : Tree)
  deriving Inhabited

end RefCount.Match
