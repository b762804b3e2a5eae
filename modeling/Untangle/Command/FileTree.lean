import Untangle.Command.Files

/-!
# File trees in memory

A file tree maps the names that lead to a file to its bytes. Directories are where the names of
some file lead through.
-/

namespace Untangle

structure FileTree where
  files : List (List String × ByteArray)

namespace FileTree

/-!
## Looking up
-/

def content? (t : FileTree) (names : List String) : Option ByteArray :=
  (t.files.find? fun f => f.1 == names).map Prod.snd

def kindOf? (t : FileTree) (names : List String) : Option FileKind :=
  if (t.content? names).isSome then some .file
  else if names.isEmpty || t.files.any fun f => names.isPrefixOf f.1 then some .directory
  else none

/-- One step of a path, which has to start in a directory. -/
def step (t : FileTree) (names : List String) (component : String) :
    Except FileProblem (List String) :=
  match t.kindOf? names with
  | none => .error .missing
  | some .file => .error .notDirectory
  | some .directory =>
      if component = "" ∨ component = "." then .ok names
      else if component = ".." then
        if names.isEmpty then .error .missing else .ok names.dropLast
      else .ok (names ++ [component])

/-- The names that a relative path leads to. Nothing is known of absolute paths. -/
def resolve (t : FileTree) (path : String) : Except FileProblem (List String) :=
  if path.isEmpty || path.startsWith "/" then .error .missing
  else ((path.splitOn "/").foldlM t.step [])

/-!
## Operations
-/

def pathKind? (t : FileTree) (path : String) : Option FileKind :=
  match t.resolve path with
  | .ok names => t.kindOf? names
  | .error _ => none

def filesBelow (t : FileTree) (directory : String) : List (List String) :=
  match t.resolve directory with
  | .ok names =>
      (t.files.filter fun f => names.isPrefixOf f.1).map fun f => f.1.drop names.length
  | .error _ => []

def readText (t : FileTree) (path : String) : Except FileProblem String := do
  let names ← t.resolve path
  match t.kindOf? names, t.content? names with
  | some .directory, _ => .error .isDirectory
  | _, some bytes =>
      match String.fromUTF8? bytes with
      | some text => .ok text
      | none => .error .notText
  | _, none => .error .missing

def put (t : FileTree) (names : List String) (bytes : ByteArray) : FileTree :=
  if (t.content? names).isSome then
    ⟨t.files.map fun f => if f.1 == names then (names, bytes) else f⟩
  else ⟨t.files ++ [(names, bytes)]⟩

/-- A new file cannot have the name of a directory. -/
def writeText (t : FileTree) (path text : String) : Except FileProblem FileTree := do
  let bare := path.dropEndWhile (· == '/') |>.toString
  let names ← t.resolve bare
  match t.kindOf? names with
  | some .directory => .error .isDirectory
  | some .file => if bare == path then .ok (t.put names text.toUTF8) else .error .notDirectory
  | none => if bare == path then .ok (t.put names text.toUTF8) else .error .isDirectory

/-- The files of a tree that can be changed. -/
def access : Files (StateM FileTree) where
  kind? path := return (← get).pathKind? path
  below directory := return (← get).filesBelow directory
  read path := return (← get).readText path
  write path text := do
    match (← get).writeText path text with
    | .ok changed =>
        set changed
        return .ok ()
    | .error problem => return .error problem

end FileTree
end Untangle
