/-
The heap. Every object has a count; an object is freed once and its address is
never given out again, so that a stale reference is always found out. The
count of an object stands in a word ahead of it, which takes part in the
layout of addresses.
-/
import RefCount.Fault
import RefCount.Machine.Value
import RefCount.Text.Bytes
import RefCount.Types.Basic
import Std.Data.HashMap

namespace RefCount.Machine

/-- What stands at an address. -/
structure Object where
  type : TypeId
  variant : Int
  fields : List Value
  /-- The text of a string. -/
  str : Bytes
  /-- The function of a closure. -/
  func : String
  size : Int64
  freed : Bool
  deriving Inhabited

/-- An object and its count, a whole number that fits a word as long as there are
fewer than `2 ^ 63` references. -/
structure Cell where
  count : Int
  object : Object
  deriving Inhabited

/-- The cell with one more reference to its object. -/
def Cell.more (c : Cell) : Cell := { c with count := c.count + 1 }

/-- The cell with one reference less to its object. -/
def Cell.less (c : Cell) : Cell := { c with count := c.count - 1 }

/-- The object of a cell, if no reference to it is left. -/
def Cell.lost? (c : Cell) : Option Object := if c.count = 0 then some c.object else none

/-- A heap, with the numbers of objects allocated and freed and of bytes
allocated. -/
structure Heap where
  cells : Std.HashMap Address Cell
  next : Address
  allocs : Nat
  frees : Nat
  bytes : Int64
  deriving Inhabited

/-- Why there is no object at an address. -/
inductive HeapError where
  | useAfterFree (p : Address)
  | badPointer (p : Address)
  deriving DecidableEq, Repr, Inhabited

def addressText (p : Address) : String :=
  let n := p.toInt
  let digits := String.ofList (Nat.toDigits 16 n.natAbs)
  if n < 0 then "-0x" ++ digits else "0x" ++ digits

def HeapError.message : HeapError → String
  | useAfterFree p => addressText p ++ ": use after free"
  | badPointer p => addressText p ++ ": bad pointer"

namespace Heap

/-- The size of a word, and of the word that holds a count. -/
def wordSize : Int64 := 8

/-- The heap without objects. -/
def empty : Heap := ⟨∅, 0x1000, 0, 0, 0⟩

/-- The number of objects not freed, as the numbers of allocations and frees
say. -/
def live (h : Heap) : Int := h.allocs - h.frees

/-- Where the word with the count of the next object stands: at the next
multiple of its alignment, which is a word at least. -/
def nextBase (h : Heap) (align : Int64) : Address :=
  let align := max align wordSize
  (h.next + align - 1) &&& ~~~(align - 1)

/-- A new object with count one. -/
def allocate (h : Heap) (size align : Int64) (o : Object) : Address × Heap :=
  let p := h.nextBase align + wordSize
  (p, { h with
    cells := h.cells.insert p ⟨1, { o with size := size, freed := false }⟩
    next := p + size
    allocs := h.allocs + 1
    bytes := h.bytes + size + wordSize })

/-- What stands at an address, freed or not. -/
def cell? (h : Heap) (p : Address) : Option Cell := h.cells[p]?

/-- The object at an address, with its count. -/
def find (h : Heap) (p : Address) : Except HeapError Cell :=
  match h.cell? p with
  | none => .error (.badPointer p)
  | some c => if c.object.freed then .error (.useAfterFree p) else .ok c

def object (h : Heap) (p : Address) : Except HeapError Object := (h.find p).map (·.object)

def count (h : Heap) (p : Address) : Except HeapError Int := (h.find p).map (·.count)

def setCell (h : Heap) (p : Address) (c : Cell) : Heap := { h with cells := h.cells.insert p c }

/-- The heap with an object changed, freed or not. -/
def modifyObject (h : Heap) (p : Address) (g : Object → Object) : Heap :=
  match h.cell? p with
  | some c => h.setCell p { c with object := g c.object }
  | none => h

/-- Counts one more reference. -/
def increment (h : Heap) (p : Address) : Except HeapError Heap := do
  return h.setCell p (← h.find p).more

/-- Counts one reference less, and gives the object if none is left. -/
def decrement (h : Heap) (p : Address) : Except HeapError (Option Object × Heap) := do
  let c := (← h.find p).less
  return (c.lost?, h.setCell p c)

def freeCell (h : Heap) (p : Address) (c : Cell) : Heap :=
  { h with
    cells := h.cells.insert p ⟨0, { c.object with freed := true, fields := [] }⟩
    frees := h.frees + 1 }

/-- Frees the object at an address; there must have been one. -/
def free (h : Heap) (p : Address) : Except Fault Heap :=
  match h.cell? p with
  | none => .error .address
  | some c => .ok (h.freeCell p c)

end Heap

end RefCount.Machine
