import LogShipping.Error
import LogShipping.Log.File

/-!
# A directory of log files

Log files lie in one directory without subdirectories. A path is resolved step by step: a step through
a file is refused, a step through a name that is not there finds nothing, and a path that ends at the
directory itself can be opened but has no content to read.
-/

namespace LogShipping

structure Directory where
  files : List (String × Bytes)

namespace Directory

def empty : Directory := ⟨[]⟩

def content? (directory : Directory) (name : String) : Option Bytes := directory.files.lookup name

/-- The file of a given name has the given content from now on. -/
def write (directory : Directory) (name : String) (content : Bytes) : Directory :=
  if directory.files.any (·.1 == name) then
    ⟨directory.files.map fun file ↦ if file.1 = name then (name, content) else file⟩
  else ⟨directory.files ++ [(name, content)]⟩

def append (directory : Directory) (name : String) (more : Bytes) : Directory :=
  directory.write name ((directory.content? name).getD [] ++ more)

def erase (directory : Directory) (name : String) : Directory :=
  ⟨directory.files.filter (·.1 != name)⟩

/-- Where a path leads. -/
inductive Place
  | folder
  | name (file : String)
  deriving Repr, DecidableEq

/-- The longest name of a file, in octets. -/
def maxName : Nat := 255

/-- The longest path, in octets. -/
def maxPath : Nat := 4095

/-- The place that steps lead to from the directory. -/
def walk (directory : Directory) : List String → Except FileFault Place
  | [] => .ok .folder
  | "" :: rest => walk directory rest
  | "." :: rest => walk directory rest
  | step :: rest =>
    if maxName < step.utf8ByteSize then .error .invalidFileName
    else if step = ".." then if rest.all (· == "") then .ok .folder else .error .notFound
    else if rest.isEmpty then .ok (.name step)
    else if (directory.content? step).isSome then .error .notDirectory
    else .error .notFound

/-- The place a path names, which need not hold a file yet. -/
def locate (directory : Directory) (path : String) : Except FileFault Place :=
  if path.toList.contains '\x00' then .error .invalidInput
  else if path = "" then .error .notFound
  else if maxPath < path.utf8ByteSize then .error .invalidFileName
  else if path.startsWith "/" then
    if (Path.components path) = [.root] then .ok .folder else .error .notFound
  else directory.walk ((Path.splitSlashes path.toList).map String.ofList)

/-- What a path leads to: a file's content, or a directory. -/
inductive Source
  | folder
  | file (content : Bytes)
  deriving Repr, DecidableEq

def open? (directory : Directory) (path : String) : Except FileFault Source :=
  match directory.locate path with
  | .error fault => .error fault
  | .ok .folder => .ok .folder
  | .ok (.name name) =>
    match directory.content? name with
    | some content => .ok (.file content)
    | none => .error .notFound

/-- Creates an empty file, or empties the one that is there, and answers its name. -/
def create (directory : Directory) (path : String) : Except FileFault (String × Directory) :=
  match directory.locate path with
  | .error fault => .error fault
  | .ok .folder => .error .isDirectory
  | .ok (.name name) => .ok (name, directory.write name [])

end Directory

end LogShipping
