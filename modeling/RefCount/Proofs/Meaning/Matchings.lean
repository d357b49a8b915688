/-
How patterns match values. A pattern with alternatives may match a value in
several ways, each with names of its own; `matchings` lists them. The
candidates of a match are the ways in which its arms match, and `Lists` says
that a list holds all of them, those of an earlier arm first. In which order
the ways of one arm stand is left open.
-/
import RefCount.Program.Basic
import RefCount.Proofs.Plain.Machine

namespace RefCount.Meaning

open Machine (Tree)
open Plain (toInt toFloat text?)

/-- Names with what they stand for, the innermost first. -/
abbrev Env := List (String × Tree)

/-- Whether a tree is the value of a literal. There is one value of type
`Unit`. -/
def isLiteral (t : Tree) : Literal → Bool
  | .unit => true
  | .int n => toInt t = n
  | .bool b => toInt t = if b then 1 else 0
  | .char c => toInt t = Int64.ofInt c.toInt
  | .float x => toFloat t == x
  | .str s => text? t = some s

/-- Whether a tree is of a variant. A tuple has variant 0, and a variant of an
enum without fields may be a number. -/
def isVariant (t : Tree) (i : Int) : Bool :=
  match t.label? with
  | some (.tuple _) => i = 0
  | some (.object _ v _ _ _) => v = i
  | some (.int n) => n = Int64.ofInt i
  | _ => false

mutual

/-- The ways in which a pattern matches a tree: for each choice of
alternatives that does, the names it binds. -/
def matchings (t : Tree) : Pattern → List Env
  | .missing => []
  | .wild => [[]]
  | .bind name => [[(name, t)]]
  | .lit v => if isLiteral t v then [[]] else []
  | .range low high => if low ≤ toInt t ∧ toInt t ≤ high then [[]] else []
  | .variant _ i ps =>
    if isVariant t i then columnMatchings (t.children ps.length) ps else []
  | .as name p => (matchings t p).map ((name, t) :: ·)
  | .or ps => anyMatchings t ps

/-- The ways in which patterns match trees, one for one. -/
def columnMatchings : List Tree → List Pattern → List Env
  | t :: ts, p :: ps =>
    (matchings t p).flatMap fun e => (columnMatchings ts ps).map (e ++ ·)
  | _, [] => [[]]
  | [], _ :: _ => []

/-- The ways in which one of several patterns matches a tree. -/
def anyMatchings (t : Tree) : List Pattern → List Env
  | [] => []
  | p :: ps => matchings t p ++ anyMatchings t ps

end

/-- A way for an arm, given by its number, to match. -/
abbrev Candidate := Nat × Env

/-- The ways in which arms match a tree, the first arm's first. -/
def candidates (patterns : List Pattern) (t : Tree) : List Candidate :=
  patterns.zipIdx.flatMap fun (p, i) => (matchings t p).map (i, ·)

/-- A candidate, up to the order of its names. -/
def Candidate.unordered (c : Candidate) : Nat × Multiset (String × Tree) := (c.1, c.2)

/-- Candidates are the ways in which arms match a tree, and those of an earlier
arm come first. The names of each may be in any order. -/
structure Lists (patterns : List Pattern) (t : Tree) (cs : List Candidate) : Prop where
  all : (cs.map Candidate.unordered).Perm
    ((candidates patterns t).map Candidate.unordered)
  sorted : cs.Pairwise fun a b => a.1 ≤ b.1

end RefCount.Meaning
