/-!
# Files

A program sees a working directory of plain text files, and directories outside
it in which no name is taken.  A path is walked step by step: an empty step and
`.` stay, `..` goes outside, and any other step is a name.  No name stands for a
directory, so a path that goes on after a name leads nowhere.
-/

namespace Lisp

/-- Why a file cannot be used. -/
inductive FileError where
  | notFound
  | isDirectory
  | notDirectory
  | nulInName
  | nameTooLong
  deriving DecidableEq, Repr

/-- The wording of a file error. -/
def FileError.message : FileError → String
  | .notFound => "No such file or directory (os error 2)"
  | .isDirectory => "Is a directory (os error 21)"
  | .notDirectory => "Not a directory (os error 20)"
  | .nulInName => "file name contained an unexpected NUL byte"
  | .nameTooLong => "File name too long (os error 36)"

/-- The files of a working directory, by name. -/
structure Files where
  entries : List (String × String) := []
  deriving DecidableEq, Repr, Inhabited

namespace Files

/-- The longest name of a file, in bytes. -/
def maxName : Nat := 255

/-- The longest path, in bytes. -/
def maxPath : Nat := 4095

/-- A directory on the way along a path. -/
inductive Directory where
  | working
  | outside
  deriving DecidableEq, Repr

/-- Where a path leads: to a directory, or to a name in one, after which a slash
may follow. -/
inductive Place where
  | directory
  | name (within : Directory) (name : String) (slash : Bool)
  deriving DecidableEq, Repr

/-- The content of the file that a name stands for, if there is one. -/
def content? (fs : Files) (within : Directory) (name : String) :
    Except FileError (Option String) :=
  if maxName < name.utf8ByteSize then .error .nameTooLong
  else
    match within with
    | .working => .ok (fs.entries.lookup name)
    | .outside => .ok none

/-- Why a path cannot go on after a name. -/
def nothingBeyond (fs : Files) (within : Directory) (name : String) : FileError :=
  match fs.content? within name with
  | .error e => e
  | .ok (some _) => .notDirectory
  | .ok none => .notFound

/-- Walks the steps of a path from a directory. -/
def walk (fs : Files) (within : Directory) : List String → Except FileError Place
  | [] => .ok .directory
  | step :: rest =>
    if step = "" || step = "." then walk fs within rest
    else if step = ".." then walk fs .outside rest
    else if rest.all (· = "") then .ok (.name within step (!rest.isEmpty))
    else .error (fs.nothingBeyond within step)

/-- The place that a path leads to. -/
def place (fs : Files) (path : String) : Except FileError Place :=
  if path.toList.contains '\x00' then .error .nulInName
  else if path = "" then .error .notFound
  else if maxPath < path.utf8ByteSize then .error .nameTooLong
  else fs.walk (if path.startsWith "/" then .outside else .working) (path.splitOn "/")

/-- The content of a file. -/
def read (fs : Files) (path : String) : Except FileError String :=
  match fs.place path with
  | .error e => .error e
  | .ok .directory => .error .isDirectory
  | .ok (.name within name true) => .error (fs.nothingBeyond within name)
  | .ok (.name within name false) =>
    match fs.content? within name with
    | .error e => .error e
    | .ok (some content) => .ok content
    | .ok none => .error .notFound

/-- Gives a file new content, making it if there is none. -/
def put (name content : String) : List (String × String) → List (String × String)
  | [] => [(name, content)]
  | (other, old) :: rest =>
    if name = other then (name, content) :: rest else (other, old) :: put name content rest

/-- Gives a file of the working directory the content that something else left it with,
or none. -/
def set (fs : Files) (name : String) : Option String → Files
  | some content => ⟨put name content fs.entries⟩
  | none => ⟨fs.entries.filter (·.1 ≠ name)⟩

/-- Writes a file of the working directory, either over its content or after it.
A path that ends in a slash asks for a directory. -/
def write (fs : Files) (path content : String) (append : Bool) : Except FileError Files :=
  match fs.place path with
  | .error e => .error e
  | .ok .directory => .error .isDirectory
  | .ok (.name _ _ true) => .error .isDirectory
  | .ok (.name within name false) =>
    match fs.content? within name, within with
    | .error e, _ => .error e
    | .ok _, .outside => .error .notFound
    | .ok old, .working =>
      let start := if append then old.getD "" else ""
      .ok ⟨put name (start ++ content) fs.entries⟩

end Files

end Lisp
