/-
The commands: `lower` prints the graphs of programs, `compile` prints them
with counts, `report` prints what memory they reuse, and `run` runs a function
and checks that nothing is left on the heap. A command gets the texts of its
files from outside and says what it prints and how it ends.
-/
import RefCount.Directory
import RefCount.Machine.Show
import RefCount.Machine.Step
import RefCount.Program.Read
import RefCount.Report

namespace RefCount.Command

open Ir Pipeline Machine

inductive Name where
  | lower
  | compile
  | report
  | run
  deriving DecidableEq, Repr, Inhabited

def Name.ofString? : String → Option Name
  | "lower" => some .lower
  | "compile" => some .compile
  | "report" => some .report
  | "run" => some .run
  | _ => none

/-- Why a command fails. -/
inductive CommandError where
  | usage
  | file (name : String) (e : FileError)
  | read (e : ReadError)
  | lower (e : Lower.LowerFailure)
  | compile (e : CompileError)
  | run (e : RunError)
  | fault (f : Fault)
  /-- An error in a context. -/
  | within (context : String) (e : CommandError)
  deriving Inhabited

namespace CommandError

/-- The wording of an error; a fault has none. -/
def message : CommandError → String
  | usage => "usage: run FILE FUNC ARGS..."
  | file name e => e.message name
  | read e => e.message
  | lower e => e.message
  | compile e => e.message
  | run e => e.message
  | fault _ => ""
  | within context e => context ++ ": " ++ e.message

/-- The error behind all contexts. -/
def cause : CommandError → CommandError
  | within _ e => e.cause
  | e => e

end CommandError

/-- What has been printed. -/
abbrev Output := Bytes

abbrev CommandM := ExceptT CommandError (StateM Output)

/-- The texts of files by path. -/
abbrev Files := String → Except FileError Bytes

/-- Puts the errors of a part into a context. -/
def inContext {α : Type} (context : String) (x : CommandM α) : CommandM α :=
  tryCatch x fun e => throw (.within context e)

def print (s : String) : CommandM Unit := modify (· ++ Bytes.ofString s)

/-- The result of an operation that may have none. -/
def ofFault {α : Type} : Except Fault α → CommandM α
  | .ok a => return a
  | .error f => throw (.fault f)

def readFile (files : Files) (name : String) : CommandM Program :=
  match files name with
  | .error e => throw (.file name e)
  | .ok text =>
    match Program.read [⟨name, text⟩] with
    | .ok p => return p
    | .error e => throw (.read e)

def compileFile (files : Files) (name : String) : CommandM Analysis :=
  inContext ("compile " ++ name) do
    let p ← inContext "read" (readFile files name)
    match ← ofFault (Pipeline.compile ⟨"", false⟩ none p) with
    | (.ok a, _) => return a
    | (.error e, _) => throw (.compile e)

/-- Prints the graphs of a program. -/
def lowerFile (files : Files) (name : String) : CommandM Unit := do
  let p ← inContext ("read " ++ name) (readFile files name)
  match p.lower with
  | .error e =>
    match e.error with
    | .fault f => throw (.fault f)
    | _ => throw (.within ("lower " ++ name) (.lower e))
  | .ok fs => print (← ofFault (packageText p.pool fs))

/-- Prints the graphs of a compiled program, with a blank line between
functions. -/
def printCompiled (files : Files) (name : String) : CommandM Unit := do
  let a ← compileFile files name
  let texts ← ofFault (a.funcs.mapM (Func.text a.pool))
  print (String.intercalate "\n" texts)

def printReport (files : Files) (name : String) : CommandM Unit := do
  print (Report.text (← compileFile files name))

-- ======== running

/-- The value of an argument: an integer, a number, a truth value, or else a
new string. -/
def argument (a : String) : Run Value :=
  let bytes := Bytes.ofString a
  match Numeral.readInt bytes, Numeral.readFloat bytes with
  | .ok n, _ => return .int n
  | .error _, .ok x => return .float x
  | .error _, .error _ =>
    match a with
    | "true" => return .ofBool true
    | "false" => return .ofBool false
    | _ => newStr bytes

/-- A machine for a compiled program. -/
def machineOf (a : Analysis) : Env :=
  { pool := a.pool
    funcs := (a.funcs.map fun f => (f.name, f)).reverse
    sigs := a.sigs
    drops := some a.drops
    hasOutput := true
    maxDepth := defaultDepth }

/-- A part of a run, with its context and what it prints. -/
def runPart {α : Type} (context : String) (w : World) (x : Run α) : CommandM (α × World) := do
  let (r, w) := x.run.run w
  modify (· ++ w.out)
  match r with
  | .ok a => return (a, { w with lines := [] })
  | .error e => throw (.within context (.run e))

def heapLine (w : World) : String :=
  "allocs " ++ toString w.heap.allocs ++ "  frees " ++ toString w.heap.frees ++ "  live " ++
    toString w.heap.live ++ "  reuses " ++ toString w.stats.reuses ++ "  sets " ++
    toString w.stats.sets ++ "\n"

/-- Runs a function of a program, shows its result, and releases all that is
left. -/
def runFunc (files : Files) (name func : String) (args : List String) : CommandM Unit := do
  let a ← compileFile files name
  let env := machineOf a
  let ((args, result), w) ← runPart "run" .initial do
    let args ← args.mapM argument
    return (args, ← call env func args)
  print ((← ofFault (showValue a.pool w.heap result)) ++ "\n")
  let ((), w) ← runPart "release result" w (release env result)
  let ((), w) ← runPart "release args" w (releaseBorrowed env func args)
  print (heapLine w)

/-- What a command prints, and why it fails if it does. -/
def execute (files : Files) (cmd : Name) (args : List String) : Except CommandError Unit × Output :=
  let act : CommandM Unit :=
    match cmd, args with
    | .lower, names => names.forM (lowerFile files)
    | .compile, names => names.forM (printCompiled files)
    | .report, names => names.forM (printReport files)
    | .run, name :: func :: args => runFunc files name func args
    | .run, _ => throw .usage
  act.run.run []

def filesOf (cmd : Name) (args : List String) : List String :=
  match cmd with
  | .run => args.take 1
  | _ => args

end RefCount.Command
