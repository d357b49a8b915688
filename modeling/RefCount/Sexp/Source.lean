/-
Source text. The texts of several files are read as one, each followed by a
line feed, and a byte offset of the whole is told as a file, line and column.
The offset of a file's closing line feed still belongs to the file; an offset
outside every file has no place. A slice of the text may reach into the room
behind its end.
-/
import RefCount.Sexp.Buffer
import RefCount.Sexp.Parse

namespace RefCount.Sexp

/-- A named text. -/
structure File where
  name : String
  text : Bytes
  deriving Repr, Inhabited

/-- A file with a line and a column, both counted from one. -/
structure Place where
  file : String
  line : Nat
  column : Nat
  deriving DecidableEq, Repr, Inhabited

namespace Place

/-- The place of what has none. -/
def nowhere : Place := ⟨"", 0, 0⟩

def describe (p : Place) (message : String) : String :=
  (if p.file = "" then "" else p.file ++ ":") ++ toString p.line ++ ":" ++ toString p.column
    ++ ": " ++ message

end Place

/-- The files that are read together, in order. -/
abbrev Source := List File

namespace Source

def bytes (s : Source) : Bytes := s.flatMap fun f => f.text ++ [10]

def endPlace (file : String) (before : Bytes) : Place where
  file := file
  line := before.count 10 + 1
  column := (before.reverse.takeWhile (· != 10)).length + 1

/-- The place of a byte offset. -/
def place : Source → Nat → Place
  | [], _ => Place.nowhere
  | f :: rest, pos =>
    if pos ≤ f.text.length then endPlace f.name (f.text.take pos)
    else place rest (pos - f.text.length - 1)

/-- The place of any number taken as a byte offset. -/
def placeAt (s : Source) (pos : Int) : Place :=
  if pos < 0 then Place.nowhere else s.place pos.toNat

/-- The size of the buffer that holds the files, which are added in order, each
with its text first and then its line feed. -/
def bufferSize (s : Source) : Nat :=
  (s.foldl
    (fun (used, size) f =>
      let used := used + f.text.length
      (used + 1, Buffer.grow (Buffer.grow size used) (used + 1)))
    (0, 0)).2

/-- The bytes between two offsets of the buffer, with zeros behind the text. -/
def slice (s : Source) (start stop : Int) : Except Fault Bytes :=
  if 0 ≤ start ∧ start ≤ stop ∧ stop ≤ s.bufferSize then
    let room := List.replicate (stop.toNat - s.bytes.length) 0
    .ok (((s.bytes ++ room).take stop.toNat).drop start.toNat)
  else .error .position

/-- Reads all files by a grammar. A list stands for its items. -/
def parse (s : Source) (g : Grammar) : Except (Place × ParseError) (List Node) :=
  match g.read 0 s.bytes with
  | .ok (.list _ items, _) => .ok items
  | .ok (node, _) => .ok [node]
  | .error f => .error (s.place f.pos, f.error)

def errorText (e : Place × ParseError) : String := e.1.describe e.2.message

end Source

end RefCount.Sexp
