/-!
# File names of programs

A program's file gets the extension `bas` unless its name has an extension already. The file name is
the last part of the path that is not a lone dot. A dot in front of a name starts no extension, and
a dot at its end starts an empty one.
-/

namespace LineBasic.Terminal

set_option autoImplicit false

/-- Takes slashes and lone dots off the front of a reversed path. -/
def dropSlashes : List Char → List Char
  | '/' :: path => dropSlashes path
  | '.' :: '/' :: path => dropSlashes path
  | ['.'] => []
  | path => path

/-- The file name at the end of a path, if there is one, and the path up to its end. -/
def fileName? (path : List Char) : Option (List Char × List Char) :=
  let kept := dropSlashes path.reverse
  let name := (kept.takeWhile (· != '/')).reverse
  if name.isEmpty || name = ['.', '.'] then none else some (name, kept.reverse)

/-- Whether a name has an extension: a dot that is not its first character. -/
def hasExtension (name : List Char) : Bool :=
  name.tail.contains '.'

/-- The path of the file that a program of some name is kept in. -/
def filePath (name : String) : String :=
  match fileName? name.toList with
  | none => name
  | some (file, path) => if hasExtension file then name else String.ofList path ++ ".bas"

end LineBasic.Terminal
