/-
The command line: the name of a command, and its arguments. What the command
prints goes to standard output; if it fails, why goes to standard error.
-/
import RefCount.Command

open RefCount

namespace RefCount.Command

/-- The files with their texts, or why they cannot be read. -/
def readFiles (names : List String) : IO (List (String × Except FileError Bytes)) :=
  names.mapM fun (name : String) => do
    try
      let text ← IO.FS.readBinFile name
      return (name, .ok text.toList)
    catch
      | .inappropriateType _ code _ =>
        return (name, .error (if code = 20 then .notDirectory else .isDirectory))
      | .invalidArgument .. => return (name, .error .badName)
      | _ => return (name, .error .missing)

/-- A file among those that have been read. -/
def fileIn (files : List (String × Except FileError Bytes)) : Files :=
  fun name => (files.lookup name).getD (.error .missing)

end RefCount.Command

/-- Runs a command. -/
def main (args : List String) : IO UInt32 := do
  match args with
  | [] =>
    IO.eprintln "usage: lower | compile | report | run FILE FUNC ARGS..."
    return 2
  | name :: args =>
    match Command.Name.ofString? name with
    | none =>
      IO.eprintln ("unknown command: " ++ name)
      return 2
    | some cmd =>
      let files ← Command.readFiles (Command.filesOf cmd args)
      let (result, out) := Command.execute (Command.fileIn files) cmd args
      (← IO.getStdout).write ⟨out.toArray⟩
      match result with
      | .ok () => return 0
      | .error e =>
        IO.eprintln e.message
        return 1
