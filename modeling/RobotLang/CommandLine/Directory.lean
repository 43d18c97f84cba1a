import RobotLang.Text.Utf8

/-!
The directory in which the command line tool runs: files and empty folders. A path is read from the
left, part by part; empty parts and `.` stay where they are and `..` goes up. Nothing is known of what
lies outside, except that folders are there.
-/

namespace RobotLang.CommandLine

inductive Entry where
  | file (bytes : List UInt8)
  | folder
deriving Repr, DecidableEq

structure Directory where
  entries : List (String × Entry)
deriving Repr, DecidableEq

inductive ReadFailure where
  | notFound
  | notFolder
  | isFolder
  | nameTooLong
  | notText
  /-- Any other reason, in the words of the system. -/
  | other (reason : String)
deriving Repr, DecidableEq

def ReadFailure.message : ReadFailure → String
  | notFound => "No such file or directory (os error 2)"
  | notFolder => "Not a directory (os error 20)"
  | isFolder => "Is a directory (os error 21)"
  | nameTooLong => "File name too long (os error 36)"
  | notText => "stream did not contain valid UTF-8"
  | other reason => reason

namespace Directory

inductive Location where
  | here
  | below
  | file (name : String) (bytes : List UInt8)
  | outside

/-- The parts of a path between its slashes. -/
def parts : List Char → List (List Char)
  | [] => [[]]
  | c :: cs =>
    if c = '/' then [] :: parts cs
    else match parts cs with
      | [] => [[c]]
      | part :: rest => (c :: part) :: rest

/-- The greatest number of bytes in a name, and in a path. -/
def nameLimit : Nat := 255

def pathLimit : Nat := 4095

def follow (d : Directory) (location : Location) (part : String) : Except ReadFailure Location :=
  match location with
  | .file .. => .error .notFolder
  | location =>
    if part = "" || part = "." then .ok location
    else if part = ".." then
      match location with
      | .below => .ok .here
      | _ => .ok .outside
    else if part.utf8ByteSize > nameLimit then .error .nameTooLong
    else match location with
      | .here =>
        match d.entries.lookup part with
        | some (.file bytes) => .ok (.file part bytes)
        | some .folder => .ok .below
        | none => .error .notFound
      | _ => .error .notFound

/-- The file at the end of a path: its name in the directory and its bytes. -/
def find (d : Directory) (path : String) : Except ReadFailure (String × List UInt8) := do
  if path.utf8ByteSize > pathLimit then throw .nameTooLong
  let start := if path.startsWith "/" then Location.outside else .here
  match ← ((parts path.toList).map String.ofList).foldlM d.follow start with
  | .file name bytes => return (name, bytes)
  | _ => throw .isFolder

def read (d : Directory) (path : String) : Except ReadFailure String := do
  let (_, bytes) ← d.find path
  match Text.decode? bytes with
  | some text => return text
  | none => throw .notText

/-- The directory after a text has been written to the file at the end of a path. -/
def write (d : Directory) (path text : String) : Directory :=
  match d.find path with
  | .ok (name, _) =>
    ⟨d.entries.map fun entry =>
      if entry.1 = name then (name, .file (Text.encode text)) else entry⟩
  | .error _ => d

/-- The files of a directory that are not what they were before, with their texts. -/
def changes (before after : Directory) : List (String × String) :=
  after.entries.filterMap fun (name, entry) =>
    if before.entries.lookup name = some entry then none
    else match entry with
      | .file bytes => (Text.decode? bytes).map fun text => (name, text)
      | .folder => none

end Directory

end RobotLang.CommandLine
