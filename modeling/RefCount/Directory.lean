/-
Files by path. A directory holds files under paths, which are lists of names;
what leads to a file is a directory. A path is looked up from the directory,
name by name: an empty name or a dot stays, two dots go up, and any other name
goes down. Outside of the directory nothing is known but that there are
directories.
-/
import RefCount.Text.Bytes

namespace RefCount

-- ======== errors

/-- Why a file cannot be read. -/
inductive FileError where
  | missing
  /-- Something on the way is a file. -/
  | notDirectory
  | isDirectory
  | nameTooLong
  | badName
  deriving DecidableEq, Repr, Inhabited

def FileError.message (path : String) (e : FileError) : String :=
  "read file: " ++ match e with
  | missing => "open " ++ path ++ ": no such file or directory"
  | notDirectory => "open " ++ path ++ ": not a directory"
  | isDirectory => "read " ++ path ++ ": is a directory"
  | nameTooLong => "open " ++ path ++ ": file name too long"
  | badName => "open " ++ path ++ ": invalid argument"

-- ======== directory

/-- The files of a directory and of those in it. -/
structure Directory where
  files : List (List String × Bytes)
  deriving Inhabited

namespace Directory

/-- Where a look-up is: at names below the directory, or outside of it. -/
inductive Location where
  | inside (names : List String)
  | outside
  deriving DecidableEq, Repr, Inhabited

/-- What stands at a location. -/
inductive Entry where
  | file (text : Bytes)
  | directory
  deriving DecidableEq, Repr, Inhabited

def names (path : String) : List String := path.splitOn "/"

def stays (name : String) : Bool := name = "" || name = "."

def ofList (files : List (String × Bytes)) : Directory :=
  ⟨files.map fun (path, text) => ((names path).filter (!stays ·), text)⟩

/-- What stands at a location, if anything does. -/
def entry? (d : Directory) : Location → Option Entry
  | .outside => some .directory
  | .inside names =>
    match d.files.lookup names with
    | some text => some (.file text)
    | none =>
      if names.isEmpty || d.files.any (fun (path, _) => names.isPrefixOf path) then some .directory
      else none

/-- The location one name further. -/
def step : Location → String → Location
  | .outside, _ => .outside
  | .inside ns, name =>
    if stays name then .inside ns
    else if name = ".." then (if ns.isEmpty then .outside else .inside ns.dropLast)
    else .inside (ns ++ [name])

/-- Whether a name can be looked up outside of the directory. -/
def isKnownOutside (name : String) : Bool := stays name || name = ".."

/-- Goes along names; each but the last leads to a directory. -/
def walk (d : Directory) (place : Location) : List String → Except FileError Entry
  | [] => match d.entry? place with
    | some e => .ok e
    | none => .error .missing
  | name :: rest =>
    match d.entry? place with
    | none => .error .missing
    | some (.file _) => .error .notDirectory
    | some .directory =>
      if 255 < name.utf8ByteSize then .error .nameTooLong
      else if place = .outside && !isKnownOutside name then .error .missing
      else d.walk (step place name) rest

/-- The text of the file at a path. -/
def read (d : Directory) (path : String) : Except FileError Bytes := do
  if path.contains '\x00' then throw .badName
  if path.isEmpty then throw .missing
  if 4096 ≤ path.utf8ByteSize then throw .nameTooLong
  let start := if path.startsWith "/" then .outside else .inside []
  match ← d.walk start (names path) with
  | .file text => return text
  | .directory => throw .isDirectory

end Directory

end RefCount
