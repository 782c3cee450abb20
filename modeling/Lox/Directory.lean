/-! # Directories

The files that a run can see: a tree of directories given by the paths of its files. A path is walked
name by name; what it comes to is a directory, a file, or nothing, and each way of failing has the
message and the number that the operating system gives it. -/

namespace Lox

/-- A refusal of the operating system. -/
inductive PathFault where
  | notFound
  | notDirectory
  | isDirectory
  | nameTooLong
deriving DecidableEq, Repr

/-- How the operating system words a refusal. -/
structure SystemMessage where
  text : String
  number : Nat
deriving DecidableEq, Repr

def SystemMessage.render (m : SystemMessage) : String :=
  m.text ++ " (os error " ++ toString m.number ++ ")"

def PathFault.message : PathFault → SystemMessage
  | notFound => ⟨"No such file or directory", 2⟩
  | notDirectory => ⟨"Not a directory", 20⟩
  | isDirectory => ⟨"Is a directory", 21⟩
  | nameTooLong => ⟨"File name too long", 36⟩

/-- The names of a path, outermost first. -/
abbrev Path := List String

namespace Path

/-- The longest name that a directory can hold, in bytes. -/
def maxName : Nat := 255

/-- The names that a text separates by slashes, without empty ones and those that stand for the
    directory itself. -/
def ofString (s : String) : Path :=
  (s.splitOn "/").filter fun name => name ≠ "" ∧ name ≠ "."

def render (p : Path) : String := "/".intercalate p

/-- A path whose text ends in a slash, or in the name of a directory, has to lead to one. -/
def wantsDirectory (s : String) : Bool :=
  s.endsWith "/" || s.endsWith "/." || s.endsWith "/.." || s == "." || s == ".."

end Path

/-- Files by their paths. -/
structure Directory where
  files : List (Path × ByteArray)

/-- What a path leads to. -/
inductive Node where
  | file (content : ByteArray)
  | directory

namespace Directory

/-- What stands at a path without dots. -/
def node? (d : Directory) (p : Path) : Option Node :=
  match d.files.lookup p with
  | some content => some (.file content)
  | none =>
    if p.isEmpty || d.files.any fun (q, _) => p.isPrefixOf q then some .directory else none

/-- Walks from the directory `here` along the names. What lies outside is not known, but for the
    directories on the way there. -/
def walk (d : Directory) (here : Path) : List String → Except PathFault (Path × Option Node)
  | [] => .ok (here, d.node? here)
  | name :: rest =>
    match d.node? here with
    | some .directory =>
      if name == ".." then
        if here.isEmpty then if rest.isEmpty then .ok ([], some .directory) else .error .notFound
        else d.walk here.dropLast rest
      else if Path.maxName < name.utf8ByteSize then .error .nameTooLong
      else if rest.isEmpty then .ok (here ++ [name], d.node? (here ++ [name]))
      else d.walk (here ++ [name]) rest
    | some (.file _) => .error .notDirectory
    | none => .error .notFound

/-- Follows the text of a path. Of the paths from the root only the root itself is known. -/
def follow (d : Directory) (s : String) : Except PathFault (Path × Option Node) :=
  let names := Path.ofString s
  if s.startsWith "/" then
    if names.isEmpty then .ok ([], some .directory) else .error .notFound
  else d.walk [] names

/-- Why a file could not be read. A directory can be opened, but not read. -/
inductive ReadFault where
  | onOpening (message : SystemMessage)
  | onReading (message : SystemMessage)
deriving DecidableEq, Repr

def read (d : Directory) (s : String) : Except ReadFault ByteArray :=
  match d.follow s with
  | .error fault => .error (.onOpening fault.message)
  | .ok (_, none) => .error (.onOpening PathFault.notFound.message)
  | .ok (_, some .directory) => .error (.onReading PathFault.isDirectory.message)
  | .ok (_, some (.file content)) =>
    if Path.wantsDirectory s then .error (.onOpening PathFault.notDirectory.message)
    else .ok content

/-- The path of the file that opening it for writing makes or empties. -/
def create (d : Directory) (s : String) : Except SystemMessage Path :=
  match d.follow s with
  | .error fault => .error fault.message
  | .ok (_, some .directory) => .error PathFault.isDirectory.message
  | .ok (p, none) => if Path.wantsDirectory s then .error PathFault.isDirectory.message else .ok p
  | .ok (p, some (.file _)) =>
    if Path.wantsDirectory s then .error PathFault.notDirectory.message else .ok p

/-- Whether a file stands at the path. -/
def holds (d : Directory) (p : Path) : Bool := (d.files.lookup p).isSome

end Directory
end Lox
