/-
Keeping annotated functions by the content of what they come from. The key of
a function is the digest of a text that holds all that its analysis depends
on: the version of the analysis, the function with the modes of its
parameters, the definitions of the types it mentions, and the signatures of
the functions it calls.
-/
import RefCount.Digest
import RefCount.Ir.Text
import RefCount.Reuse.Report

namespace RefCount

open Ir

namespace Cache

/-- A digest. -/
abbrev Key := Bytes

/-- An annotated function with its report. -/
structure Entry where
  func : Func
  report : Reuse.Report
  deriving Inhabited

end Cache

/-- A cache, with the numbers of successful and failed searches. -/
structure Cache where
  entries : List (Cache.Key × Cache.Entry)
  hits : Nat
  misses : Nat
  deriving Inhabited

namespace Cache

/-- The cache without entries. -/
def empty : Cache := ⟨[], 0, 0⟩

-- ======== keys

/-- The types that a function mentions. -/
def usedTypes (f : Func) : List TypeId :=
  f.result :: f.types.toList ++ f.instrs.filterMap fun
    | .construct _ t _ _ => some t
    | .reuse _ _ t _ _ => some t
    | _ => none

/-- The functions that a function calls or makes closures of, each once. -/
def callees (f : Func) : List String :=
  (f.instrs.filterMap fun
    | .call _ func _ _ => some func
    | .closure _ func _ => some func
    | _ => none).eraseDups

def typeLine (pool : Pool) (t : TypeId) : String := toString t ++ " " ++ pool.definition t ++ "\n"

def signatureLine (sigs : Signatures) (name : String) : String :=
  let modes := match sigs.find? name with
    | none => " unknown"
    | some ms => String.join (ms.map fun m => " " ++ m.text)
  "sig " ++ name ++ modes ++ "\n"

/-- The text that the key of a function is the digest of. -/
def preimage (pool : Pool) (f : Func) (sigs : Signatures) (version : String) :
    Except Fault String := do
  let code ← f.text pool
  let types := (pool.reachable (usedTypes f)).map (typeLine pool)
  let calls := (callees f).map (signatureLine sigs)
  return "version " ++ version ++ "\n" ++ code ++ String.join types ++ String.join calls

def key (pool : Pool) (f : Func) (sigs : Signatures) (version : String) : Except Fault Key :=
  (preimage pool f sigs version).map fun s => Digest.digest (Bytes.ofString s)

-- ======== entries

/-- Searches for an entry, and counts the search. -/
def find (c : Cache) (k : Key) : Option Entry × Cache :=
  match c.entries.lookup k with
  | some e => (some e, { c with hits := c.hits + 1 })
  | none => (none, { c with misses := c.misses + 1 })

def put (c : Cache) (k : Key) (e : Entry) : Cache :=
  { c with entries := (k, e) :: c.entries.filter (·.1 ≠ k) }

def size (c : Cache) : Nat := c.entries.length

end Cache

end RefCount
