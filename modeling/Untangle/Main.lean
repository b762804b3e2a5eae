import Untangle.Command.Execution

/-!
# The command line

The files of the system, and the program that runs commands on them.
-/

namespace Untangle
namespace Main

/-!
## Files of the system
-/

def problem : IO.Error → FileProblem
  | .noFileOrDirectory _ _ _ => .missing
  | e => .other e.toString

/-- A file or directory as an entry of the working directory. -/
def entry (path : String) : IO.FS.DirEntry where
  root := "."
  fileName := path

def kind? (path : String) : IO (Option FileKind) := do
  match ← (entry path).path.metadata.toBaseIO with
  | .error _ => return none
  | .ok found =>
      match found.type with
      | .file => return some .file
      | .dir => return some .directory
      | _ => return none

/-- The names that lead to the files below a directory; what cannot be opened is skipped. -/
partial def below (directory : String) : IO (List (List String)) := do
  match ← (entry directory).path.readDir.toBaseIO with
  | .error _ => return []
  | .ok entries =>
      let found ← entries.toList.mapM fun e => do
        let path := Path.join directory e.fileName
        match ← kind? path with
        | some .file => return [[e.fileName]]
        | some .directory => return (← below path).map (e.fileName :: ·)
        | none => return []
      return found.flatten

def read (path : String) : IO (Except FileProblem String) := do
  match ← (IO.FS.readBinFile path).toBaseIO with
  | .error e => return .error (problem e)
  | .ok bytes =>
      match String.fromUTF8? bytes with
      | some text => return .ok text
      | none => return .error .notText

def write (path text : String) : IO (Except FileProblem Unit) := do
  match ← (IO.FS.writeFile path text).toBaseIO with
  | .error e => return .error (problem e)
  | .ok _ => return .ok ()

def files : Files IO where
  kind? := kind?
  below := below
  read := read
  write := write

/-!
## Running
-/

def usage : String :=
  "Usage: untangle deobfuscate [options] <path>...\n" ++
    "       untangle detect [--json] <path>...\n"

def version : String :=
  "untangle 0.1.0\n"

/-- Run a command; the exit code tells whether every file was a program. -/
def run (command : Command) : IO UInt32 := do
  let stdout ← IO.getStdout
  match ← command.execute files (← stdout.isTty) with
  | .ok transcript =>
      stdout.putStr transcript.printed
      stdout.flush
      return if transcript.success then 0 else 1
  | .error e =>
      IO.eprintln ("error: " ++ e.message)
      return 1

/-- Requests for information are answered; anything else that is no command is misuse. -/
def refuse (e : ArgumentError) : IO UInt32 := do
  match e with
  | .helpRequested =>
      IO.print usage
      return 0
  | .versionRequested =>
      IO.print version
      return 0
  | _ =>
      IO.eprint ("error: " ++ e.message ++ "\n\n" ++ usage)
      return 2

end Main
end Untangle

def main (arguments : List String) : IO UInt32 :=
  match Untangle.Command.parse arguments with
  | .ok command => Untangle.Main.run command
  | .error e => Untangle.Main.refuse e
