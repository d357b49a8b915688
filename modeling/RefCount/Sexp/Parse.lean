/-
Reading forms. Forms are read in one pass with a stack of the lists that are
still open: a parenthesis opens or closes a list, an atom is an item of the
innermost open list, and what is complete outside every list is a form of its
own. Each round skips blanks and takes at least one byte.
-/
import RefCount.Sexp.Atom

namespace RefCount.Sexp

-- ======== forms

/-- A list whose end is still to come; its items are in reverse. -/
structure OpenList where
  start : Nat
  items : List Node
  deriving Repr

/-- How far to read: up to the end of the text, or up to the end of the list
that was opened first. -/
inductive Extent where
  | all
  | one
  deriving DecidableEq, Repr

/-- Reads forms until the extent is reached. `outer` holds the complete forms
outside every list, in reverse; the result has them in order, with the
position after the last. -/
def readForms (extent : Extent) (stack : List OpenList) (outer : List Node) (pos : Nat)
    (bs : Bytes) : Except Failure (List Node × Nat) :=
  let blank := Blanks.source.width bs
  let here := pos + blank
  match h : bs.drop blank with
  | [] =>
    match stack with
    | [] => .ok (outer.reverse, here)
    | o :: _ => .error ⟨here, .unclosedList o.start⟩
  | b :: rest =>
    have : rest.length < bs.length := by
      have := congrArg List.length h
      simp only [List.length_drop, List.length_cons] at this
      omega
    if b == 40 then readForms extent (⟨here, []⟩ :: stack) outer (here + 1) rest
    else if b == 41 then
      match stack with
      | [] => .error ⟨here, .noneOf [.num, .str, .symbol]⟩
      | o :: below =>
        let node : Node := .list ⟨o.start, here + 1⟩ o.items.reverse
        match below with
        | [] =>
          match extent with
          | .one => .ok ((node :: outer).reverse, here + 1)
          | .all => readForms extent [] (node :: outer) (here + 1) rest
        | p :: below => readForms extent ({ p with items := node :: p.items } :: below) outer
            (here + 1) rest
    else match readAtom here (b :: rest) with
      | .error f => .error f
      | .ok (node, stop) =>
        let after := rest.drop (stop - here - 1)
        have : after.length < bs.length := by
          simp only [after, List.length_drop]
          omega
        match stack with
        | [] => readForms extent [] (node :: outer) stop after
        | o :: below => readForms extent ({ o with items := node :: o.items } :: below) outer
            stop after
termination_by bs.length

/-- The list that begins at a position. -/
def readList (pos : Nat) : Bytes → Outcome
  | [] => .error ⟨pos, .constantExpected [40]⟩
  | b :: rest =>
    if b != 40 then .error ⟨pos, .constantExpected [40]⟩
    else match readForms .one [⟨pos, []⟩] [] (pos + 1) rest with
      | .ok (node :: _, stop) => .ok (node, stop)
      | .ok ([], _) => .error ⟨pos, .constantExpected [40]⟩
      | .error f => .error f

/-- The form that begins at a position. -/
def readForm (pos : Nat) (bs : Bytes) : Outcome :=
  match bs with
  | 40 :: _ => readList pos bs
  | _ => readAtom pos bs

/-- All forms from a position to the end, as one list. -/
def readAll (pos : Nat) (bs : Bytes) : Outcome :=
  match readForms .all [] [] pos bs with
  | .ok (items, stop) => .ok (.list ⟨pos, stop⟩ items, stop)
  | .error f => .error f

-- ======== grammars

mutual

/-- What a grammar makes of the text from a position on. -/
def Grammar.read (pos : Nat) (bs : Bytes) : Grammar → Outcome
  | .forms => readAll pos bs
  | .form => readForm pos bs
  | .list => readList pos bs
  | .num => readNumber pos bs
  | .str => readString pos bs
  | .symbol => readSymbol pos bs
  | .const text => readConstant text pos bs
  | .any gs => firstOf gs pos (Grammar.readEach pos bs gs) none

/-- What each of several grammars makes of the text from a position on. -/
def Grammar.readEach (pos : Nat) (bs : Bytes) : List Grammar → List (Grammar × Outcome)
  | [] => []
  | g :: gs => (g, g.read pos bs) :: Grammar.readEach pos bs gs

end

mutual

/-- What a grammar makes of a position past the end of a text. Only a number
and a sequence of forms look before they read. -/
def Grammar.readPast (pos : Nat) : Grammar → Except Fault Outcome
  | .forms => .ok (.ok (.list ⟨pos, pos⟩ [], pos))
  | .num => .ok (.error ⟨pos, .numberExpected⟩)
  | .any gs => (Grammar.readEachPast pos gs).map fun rs => firstOf gs pos rs none
  | _ => .error .position

/-- What each of several grammars makes of a position past the end, up to the
first that fits. -/
def Grammar.readEachPast (pos : Nat) :
    List Grammar → Except Fault (List (Grammar × Outcome))
  | [] => .ok []
  | g :: gs => do
    let r ← g.readPast pos
    match r with
    | .ok _ => .ok [(g, r)]
    | .error _ => return (g, r) :: (← Grammar.readEachPast pos gs)

end

mutual

/-- Why a grammar finds nothing at a position before the start of a text. Only
a choice without alternatives does not look there. -/
def Grammar.readBefore : Grammar → Except Fault ParseError
  | .any gs => (Grammar.readEachBefore gs).map fun _ => .noneOf gs
  | _ => .error .position

/-- Why each of several grammars finds nothing before the start of a text. -/
def Grammar.readEachBefore : List Grammar → Except Fault (List ParseError)
  | [] => .ok []
  | g :: gs => do
    let e ← g.readBefore
    return e :: (← Grammar.readEachBefore gs)

end

/-- What a grammar makes of the text from any position on: a node and the
position after it, or where reading stopped and why. -/
def Grammar.readAt (g : Grammar) (text : Bytes) (pos : Int) :
    Except Fault (Except (Int × ParseError) (Node × Nat)) :=
  if pos < 0 then g.readBefore.map fun e => .error (pos, e)
  else
    let start := pos.toNat
    let outcome : Except Fault Outcome :=
      if start ≤ text.length then .ok (g.read start (text.drop start)) else g.readPast start
    outcome.map fun o => o.mapError fun f => ((f.pos : Int), f.error)

end RefCount.Sexp
