import Untangle.Command.Files
import Untangle.Command.Arguments
import Untangle.Deobfuscation.Run
import Untangle.Detection.Detection
import Untangle.Json.Layout

/-!
# Messages

What a command prints about each file, in colours where those are wanted.
-/

namespace Untangle

/-!
## Results of files
-/

inductive FileError
  | unreadable (path : String) (problem : FileProblem)
  | unwritable (path : String) (problem : FileProblem)
  | syntaxError (display : String)
  deriving Repr, DecidableEq

namespace FileError

def message : FileError → String
  | unreadable path problem => "failed to read " ++ path ++ ": " ++ problem.message
  | unwritable path problem => "failed to write " ++ path ++ ": " ++ problem.message
  | syntaxError display => "syntax error at " ++ display

def isSyntaxError : FileError → Bool
  | syntaxError _ => true
  | _ => false

end FileError

structure FileResult (α : Type) where
  path : String
  outcome : Except FileError α

def FileResult.isSyntaxError {α : Type} (r : FileResult α) : Bool :=
  match r.outcome with
  | .error e => e.isSyntaxError
  | .ok _ => false

/-- A report, and where its output was written unless it is to be printed. -/
structure Deobfuscated where
  report : Report
  written : Option String

namespace Message

/-!
## Colours
-/

inductive Ink
  | bold
  | dimmed
  | red
  | green
  | yellow
  | cyan
  | boldRed

def Ink.code : Ink → String
  | bold => "1"
  | dimmed => "2"
  | red => "31"
  | green => "32"
  | yellow => "33"
  | cyan => "36"
  | boldRed => "1;31"

def paint (color : Bool) (ink : Ink) (text : String) : String :=
  if color then "\x1b[" ++ ink.code ++ "m" ++ text ++ "\x1b[0m" else text

/-!
## Lines
-/

def switchText (kind : PassKind) : String :=
  "--" ++ kind.switchName

/-- What was detected, and the switches that undo it. -/
def detection (color : Bool) (path : String) (d : Detection) : String :=
  let location := paint color .bold path ++ ": "
  match d.encoding with
  | some encoding =>
      location ++ paint color .red encoding.label ++ " (" ++ encoding.description ++ ")"
  | none =>
      if d.isClean then
        location ++ paint color .dimmed "no classical obfuscation technique detected"
      else
        let switches := d.recommended.passes.map switchText
        location ++ ", ".intercalate (d.labels.map (paint color .yellow)) ++
          if switches.isEmpty then ""
          else "\n  recommended: " ++ paint color .cyan (" ".intercalate switches)

/-- Where the result went, and the passes that failed. -/
def run (color : Bool) (path : String) (done : Deobfuscated) : String :=
  let target := done.written.elim "" fun written => " -> " ++ paint color .green written
  let unchanged := if done.report.edited then "" else paint color .dimmed " (unchanged)"
  let warning := fun (failure : String × RewriteError) =>
    "\n  " ++ paint color .yellow "warning" ++ ": pass " ++ failure.1 ++ " failed: " ++
      failure.2.message
  path ++ target ++ unchanged ++ String.join (done.report.failures.map warning)

def error (color : Bool) (path : String) (e : FileError) : String :=
  path ++ ": " ++ paint color .boldRed "error" ++ ": " ++ e.message

/-!
## Detections as JSON
-/

def encodingKey : Encoding → String
  | .characterSet => "characterSet"
  | .mangledNames => "identifierMangling"

/-- The switches in the order of their keys in a configuration. -/
def configurationLayout (c : Configuration) : Layout :=
  let kinds : List PassKind :=
    [.arrays, .strings, .proxyFunctions, .stringProxies, .expressions, .deadCode]
  Json.object (kinds.map fun kind => (kind.name, Json.boolean (c.isEnabled kind)))

def detectionLayout (d : Detection) : Layout :=
  Json.object
    [("packedStringArray", Json.boolean d.packedStringArray),
     ("proxyFunction", Json.boolean d.proxyFunction),
     ("encodedStrings", Json.boolean d.encodedStrings),
     ("stringProxyFunction", Json.boolean d.stringProxyFunction),
     ("constantExpressions", Json.boolean d.constantExpressions),
     ("deadBranches", Json.boolean d.deadBranches),
     ("controlFlowFlattening", Json.boolean d.controlFlowFlattening),
     ("labels", Json.array (d.labels.map Json.text)),
     ("recommended", configurationLayout d.recommended),
     ("unreversible", d.encoding.elim "null" fun encoding => Json.text (encodingKey encoding))]

def resultLayout (r : FileResult Detection) : Layout :=
  let outcome :=
    match r.outcome with
    | .ok d => ("result", detectionLayout d)
    | .error e => ("error", Json.text e.message)
  Json.object [("path", Json.text r.path), outcome]

def detectionsJson (results : List (FileResult Detection)) : String :=
  (Json.array (results.map resultLayout)).render 2

end Message
end Untangle
