import LineBasic.Error
import LineBasic.Listing
import LineBasic.Terminal.FileName

/-!
# Saving and loading programs

What is written for a listing, what becomes of the text that is read back, and how failures of a
file system are told. A directory models such a file system as seen from a working directory: there
are text files, and no folders but the working directory, those above it and the root.
-/

namespace LineBasic.Terminal

set_option autoImplicit false

/-- Why a file cannot be read or written. -/
inductive FileFault where
  | notFound
  | notDirectory
  | isDirectory
  | nameTooLong
  | nulInName
  | other (reason : String)
deriving DecidableEq, Repr

def FileFault.reason : FileFault → String
  | notFound => "No such file or directory (os error 2)"
  | notDirectory => "Not a directory (os error 20)"
  | isDirectory => "Is a directory (os error 21)"
  | nameTooLong => "File name too long (os error 36)"
  | nulInName => "file name contained an unexpected NUL byte"
  | other reason => reason

/-- The error for a file that cannot be read or written. -/
def fileError (path : String) (fault : FileFault) : Error where
  code := if fault = .notFound then .fileNotFound else .internal
  detail := path ++ ": " ++ fault.reason

/-- The text of a listing's file. An empty listing is not saved. -/
def savedText (listing : Listing) : Except Error String :=
  if listing.isEmpty then .error { code := .internal, detail := "nothing to save" }
  else .ok (listing.source ++ "\n")

/-- What a file is opened for. -/
inductive Opening where
  | reading
  | writing
deriving DecidableEq, Repr

/-- The folders that a path can lead through: the one so many levels above the working directory,
which itself is no level above, and the root. -/
inductive Folder where
  | above (levels : Nat)
  | root
deriving DecidableEq, Repr

namespace Folder

/-- The root is its own parent. -/
def parent : Folder → Folder
  | above levels => above (levels + 1)
  | root => root

/-- The path to a folder, to be followed by a name. -/
def lead : Folder → String
  | above levels => String.join (List.replicate levels "../")
  | root => "/"

end Folder

/-- Text files by their shortest paths from the working directory. -/
structure Directory where
  files : Std.TreeMap String String := ∅

namespace Directory

/-- The longest name of a file, in bytes. -/
def maxNameBytes : Nat := 255

/-- The longest path, in bytes. -/
def maxPathBytes : Nat := 4095

/-- The parts of a path between slashes. -/
def parts (path : String) : List String :=
  ((Text.fields '/' path.toList).map String.ofList).filter (!·.isEmpty)

/-- Follows parts of a path from a folder. Names that are not files lead nowhere, and a path that
ends in dots is a folder. A slash behind the last name asks for a folder, which is not created. -/
def walk (d : Directory) (opening : Opening) (slashed : Bool) :
    Folder → List String → Except FileFault String
  | _, [] => .error .isDirectory
  | folder, name :: rest =>
    if name = "." then d.walk opening slashed folder rest
    else if name = ".." then d.walk opening slashed folder.parent rest
    else if rest.isEmpty && slashed && opening = .writing then .error .isDirectory
    else if maxNameBytes < name.utf8ByteSize then .error .nameTooLong
    else
      let path := folder.lead ++ name
      let isFile := d.files.contains path
      if rest.isEmpty && !slashed then
        if isFile || opening = .writing then .ok path else .error .notFound
      else .error (if isFile then .notDirectory else .notFound)

/-- The file that a path leads to. -/
def resolve (d : Directory) (opening : Opening) (path : String) : Except FileFault String :=
  if path.toList.contains '\x00' then .error .nulInName
  else if path.isEmpty then .error .notFound
  else if maxPathBytes < path.utf8ByteSize then .error .nameTooLong
  else
    let start := if path.startsWith "/" then Folder.root else .above 0
    d.walk opening (path.endsWith "/") start (parts path)

def write (d : Directory) (path content : String) : Except FileFault Directory := do
  let file ← d.resolve .writing path
  pure ⟨d.files.insert file content⟩

def read (d : Directory) (path : String) : Except FileFault String := do
  let file ← d.resolve .reading path
  match d.files[file]? with
  | some content => pure content
  | none => throw .notFound

/-- The files in the working directory, by name. -/
def toList (d : Directory) : List (String × String) :=
  d.files.toList.filter fun e => !e.1.toList.contains '/'

/-- Saves a listing under a program name. -/
def save (d : Directory) (listing : Listing) (name : String) : Except Error Directory := do
  let content ← savedText listing
  let path := filePath name
  (d.write path content).mapError (fileError path)

/-- Loads the listing of a program name. -/
def load (d : Directory) (name : String) : Except Error Listing :=
  let path := filePath name
  ((d.read path).mapError (fileError path)).map Listing.ofSource

end Directory

end LineBasic.Terminal
