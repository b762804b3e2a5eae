/-!
# Paths

A path is a text of names separated by slashes. Repeated slashes and single dots stand for
nothing, and two dots for the directory above.
-/

namespace Untangle
namespace Path

/-!
## Names
-/

/-- The path, last character first, without slashes and single dots at its end. -/
def dropTrailing : List Char → List Char
  | '/' :: rest => dropTrailing rest
  | '.' :: '/' :: rest => dropTrailing rest
  | cs => cs

/-- The characters up to the end of the last name. -/
def trimmed (path : List Char) : List Char :=
  (dropTrailing path.reverse).reverse

def lastComponent (path : List Char) : List Char :=
  (path.reverse.takeWhile (· != '/')).reverse

/-- The last name of a path; a path that ends in a directory step has none. -/
def fileNameChars? (path : List Char) : Option (List Char) :=
  let name := lastComponent (trimmed path)
  if name = [] ∨ name = ['.'] ∨ name = ['.', '.'] then none else some name

def fileName? (path : String) : Option String :=
  (fileNameChars? path.toList).map String.ofList

/-!
## Extensions
-/

/-- A name is cut at its last dot, unless that is its first character. -/
def splitName (name : List Char) : List Char × Option (List Char) :=
  let extension := (name.reverse.takeWhile (· != '.')).reverse
  let stem := name.take (name.length - extension.length - 1)
  if stem = [] then (name, none) else (stem, some extension)

/-- The path without the characters of its extension. -/
def withoutExtension (path : List Char) : List Char :=
  match (fileNameChars? path).bind fun name => (splitName name).2 with
  | some extension => path.take (path.length - extension.length)
  | none => path

/-- Let the stem of the last name be followed by an extension. A path without a last name stays
as it is. -/
def setExtension (extension : List Char) (path : List Char) : List Char :=
  match fileNameChars? path with
  | none => path
  | some name =>
      let whole := trimmed path
      let stem := (splitName name).1
      whole.take (whole.length - name.length) ++ stem ++ '.' :: extension

/-- Replace the extension of the last name, or add one. -/
def withExtension (extension : String) (path : String) : String :=
  String.ofList (setExtension extension.toList (withoutExtension path.toList))

/-!
## Directories
-/

/-- A name below a directory. -/
def join (directory name : String) : String :=
  if directory.endsWith "/" then directory ++ name else directory ++ "/" ++ name

/-- The order of paths: name by name, so that a directory comes before its longer namesakes. -/
def namesLe : List String → List String → Bool
  | [], _ => true
  | _ :: _, [] => false
  | a :: as, b :: bs => if a = b then namesLe as bs else decide (a < b)

end Path
end Untangle
