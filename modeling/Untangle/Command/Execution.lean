import Untangle.Command.Message
import Untangle.Command.Options

/-!
# Running commands

A command reads its files one after the other and prints a line or more for each.
-/

namespace Untangle

/-!
## Finding sources

A directory stands for the sources below it, results of earlier runs excepted.
-/

/-- The name of a source that a directory walk picks up. -/
def isSourceName (name : String) : Bool :=
  name.endsWith ".js" && !name.endsWith "deobfuscated.js"

namespace Discovery

variable {m : Type → Type} [Monad m]

/-- The sources below a directory in the order of their paths. -/
def sourcesBelow (directory : String) (below : List (List String)) : List String :=
  let sources := below.filter fun names => names.getLast?.any isSourceName
  (sources.mergeSort Path.namesLe).map fun names => names.foldl Path.join directory

/-- The sources that one path stands for. -/
def sourcesAt (files : Files m) (path : String) : m (Except CommandError (List String)) := do
  match ← files.kind? path with
  | some .file => return .ok [path]
  | some .directory => return .ok (sourcesBelow path (← files.below path))
  | none => return .error (.noSuchPath path)

/-- The sources of all paths; the first path that leads nowhere is an error. -/
def sources (files : Files m) : List String → m (Except CommandError (List String))
  | [] => return .ok []
  | path :: rest => do
      match ← sourcesAt files path with
      | .error e => return .error e
      | .ok found =>
          match ← sources files rest with
          | .error e => return .error e
          | .ok others => return .ok (found ++ others)

end Discovery

/-!
## Transcripts
-/

/-- What a command printed, and whether every file was a program. -/
structure Transcript where
  success : Bool
  printed : String
  deriving Repr, DecidableEq

inductive Destination
  /-- Next to each source. -/
  | beside
  | file (path : String)
  | stdout
  deriving Repr, DecidableEq

def Destination.target? (d : Destination) (source : String) : Option String :=
  match d with
  | beside => some (outputPath source)
  | file path => some path
  | stdout => none

namespace Command

variable {m : Type → Type} [Monad m]

/-!
## Single files
-/

def readSource (files : Files m) (path : String) : m (Except FileError String) :=
  return (← files.read path).mapError (.unreadable path)

def syntaxFailure (source : String) (e : SyntaxError) : FileError :=
  .syntaxError (e.display source)

/-- The passes for a source, with those that detection recommends if it is to decide. -/
def passesFor (options : RunOptions) (source : String) : Except SyntaxError Configuration :=
  if options.auto then
    (Detection.ofSource source).map fun d => options.config.union d.recommended
  else .ok options.config

def rewritten (options : RunOptions) (source : String) : Except SyntaxError Report := do
  let config ← passesFor options source
  Untangle.deobfuscate source (config.passes.map PassKind.pass) options.rounds options.style

def writeResult (files : Files m) (report : Report) :
    Option String → m (Except FileError Deobfuscated)
  | none => return .ok ⟨report, none⟩
  | some target => do
      match ← files.write target (report.output ++ "\n") with
      | .ok _ => return .ok ⟨report, some target⟩
      | .error problem => return .error (.unwritable target problem)

def deobfuscateFile (files : Files m) (options : RunOptions) (destination : Destination)
    (path : String) : m (FileResult Deobfuscated) := do
  match ← readSource files path with
  | .error e => return ⟨path, .error e⟩
  | .ok source =>
      match rewritten options source with
      | .error e => return ⟨path, .error (syntaxFailure source e)⟩
      | .ok report => return ⟨path, ← writeResult files report (destination.target? path)⟩

def detectFile (files : Files m) (path : String) : m (FileResult Detection) := do
  match ← readSource files path with
  | .error e => return ⟨path, .error e⟩
  | .ok source => return ⟨path, (Detection.ofSource source).mapError (syntaxFailure source)⟩

/-!
## Commands
-/

def printLines (lines : List String) : String :=
  String.join (lines.map (· ++ "\n"))

def succeeded {α : Type} (results : List (FileResult α)) : Bool :=
  !results.any FileResult.isSyntaxError

/-- One output file holds the result of one source. -/
def destination? (a : DeobfuscateArguments) (count : Nat) : Except CommandError Destination :=
  match a.output with
  | some path => if count = 1 then .ok (.file path) else .error (.severalInputs count)
  | none => .ok (if a.toStdout then .stdout else .beside)

def deobfuscateLine (color : Bool) (r : FileResult Deobfuscated) : String :=
  match r.outcome with
  | .ok done => if done.written.isNone then done.report.output else Message.run color r.path done
  | .error e => Message.error color r.path e

def runDeobfuscate (files : Files m) (color : Bool) (a : DeobfuscateArguments) :
    ExceptT CommandError m Transcript := do
  let options ← ExceptT.mk (RunOptions.resolve files a)
  let sources ← ExceptT.mk (Discovery.sources files a.paths)
  let destination ← ExceptT.mk (pure (destination? a sources.length))
  let results ← ExceptT.lift (sources.mapM (deobfuscateFile files options destination))
  return ⟨succeeded results, printLines (results.map (deobfuscateLine color))⟩

def detectLine (color : Bool) (r : FileResult Detection) : String :=
  match r.outcome with
  | .ok d => Message.detection color r.path d
  | .error e => Message.error color r.path e

def runDetect (files : Files m) (color : Bool) (a : DetectArguments) :
    ExceptT CommandError m Transcript := do
  let sources ← ExceptT.mk (Discovery.sources files a.paths)
  let results ← ExceptT.lift (sources.mapM (detectFile files))
  let lines :=
    if a.json then [Message.detectionsJson results] else results.map (detectLine color)
  return ⟨succeeded results, printLines lines⟩

/-- Run a command on files. -/
def execute (files : Files m) (color : Bool) (c : Command) : m (Except CommandError Transcript) :=
  match c with
  | .deobfuscate a => (runDeobfuscate files color a).run
  | .detect a => (runDetect files color a).run

end Command

end Untangle
