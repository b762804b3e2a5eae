/-!
# Files

Commands see files through a few operations. Any monad that offers them can run a command.
-/

namespace Untangle

inductive FileKind
  | file
  | directory
  deriving Repr, DecidableEq

/-- Why a file cannot be read or written. -/
inductive FileProblem
  | notText
  | missing
  | notDirectory
  | isDirectory
  | other (description : String)
  deriving Repr, DecidableEq

def FileProblem.message : FileProblem → String
  | notText => "stream did not contain valid UTF-8"
  | missing => "No such file or directory (os error 2)"
  | notDirectory => "Not a directory (os error 20)"
  | isDirectory => "Is a directory (os error 21)"
  | other description => description

structure Files (m : Type → Type) where
  kind? : (path : String) → m (Option FileKind)
  /-- The names that lead from a directory to each file below it. -/
  below : (directory : String) → m (List (List String))
  read : (path : String) → m (Except FileProblem String)
  write : (path : String) → (text : String) → m (Except FileProblem Unit)

end Untangle
