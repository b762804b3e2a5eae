import Untangle.Command.Arguments
import Untangle.Command.Files
import Untangle.Command.Path
import Untangle.Deobfuscation.Configuration

/-!
# Options of a run

The configuration file comes first and switches add to it. If nothing is selected, detection
decides for each file.
-/

namespace Untangle

/-- Why a command cannot start. -/
inductive CommandError
  | noSuchPath (path : String)
  | unreadableConfig (path : String)
  | malformedConfig (path : String)
  | severalInputs (count : Nat)
  deriving Repr, DecidableEq

def CommandError.message : CommandError → String
  | noSuchPath path => "no such file or directory: " ++ path
  | unreadableConfig path => "failed to read config: " ++ path
  | malformedConfig path => "failed to parse config: " ++ path
  | severalInputs count => "--output needs exactly one input file, found " ++ toString count

structure RunOptions where
  config : Configuration
  auto : Bool
  rounds : Nat
  style : Style
  deriving Repr, DecidableEq

namespace RunOptions

variable {m : Type → Type} [Monad m]

def loadConfig (files : Files m) (path : String) : m (Except CommandError Configuration) := do
  match ← files.read path with
  | .error _ => return .error (.unreadableConfig path)
  | .ok text =>
      match Configuration.parse text with
      | .error _ => return .error (.malformedConfig path)
      | .ok config => return .ok config

/-- The options that arguments ask for, on top of a configuration file. -/
def ofArguments (a : DeobfuscateArguments) (loaded : Configuration) : RunOptions :=
  let base := if a.all then .all else loaded
  let config := a.passes.foldl (fun config kind => config.set kind true) base
  { config, auto := a.auto || config.isEmpty, rounds := a.rounds, style := a.style }

def resolve (files : Files m) (a : DeobfuscateArguments) : m (Except CommandError RunOptions) := do
  match a.config with
  | none => return .ok (ofArguments a .none)
  | some path => return (← loadConfig files path).map (ofArguments a)

end RunOptions

/-- Where the result of a file is written by default. -/
def outputPath (path : String) : String :=
  Path.withExtension "deobfuscated.js" path

end Untangle
