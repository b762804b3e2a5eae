import Untangle.Deobfuscation.Configuration
import Untangle.Printing.Program

/-!
# Command-line arguments

A command takes paths and options in any order. An option is given at most once; after `--`
everything is a path.
-/

namespace Untangle

/-!
## Commands
-/

structure DeobfuscateArguments where
  paths : List String
  /-- Where to write the result of a single file. -/
  output : Option String
  toStdout : Bool
  /-- A file with a configuration. -/
  config : Option String
  all : Bool
  /-- Also run the passes that detection recommends for each file. -/
  auto : Bool
  passes : List PassKind
  rounds : Nat
  style : Style
  deriving Repr, DecidableEq

structure DetectArguments where
  paths : List String
  json : Bool
  deriving Repr, DecidableEq

inductive Command
  | deobfuscate (arguments : DeobfuscateArguments)
  | detect (arguments : DetectArguments)
  deriving Repr, DecidableEq

/-!
## Errors
-/

/-- Why arguments are not a command. Requests for help are among the reasons. -/
inductive ArgumentError
  | unknownArgument (written : String)
  | unknownCommand (written : String)
  | missingPaths
  | missingValue
  | unexpectedValue (option : String)
  | invalidNumber (written : String)
  | conflict (option : String)
  | helpRequested
  | versionRequested
  | noCommand
  deriving Repr, DecidableEq

def ArgumentError.message : ArgumentError → String
  | unknownArgument written => "unexpected argument '" ++ written ++ "'"
  | unknownCommand written => "unrecognized command '" ++ written ++ "'"
  | missingPaths => "no files or directories given"
  | missingValue => "an option lacks its value"
  | unexpectedValue option => "option '" ++ option ++ "' takes no value"
  | invalidNumber written => "invalid number '" ++ written ++ "'"
  | conflict option => "option '" ++ option ++ "' cannot be used here"
  | helpRequested => "help requested"
  | versionRequested => "version requested"
  | noCommand => "no command given"

/-!
## Options
-/

inductive OptionName
  | help
  | version
  | output
  | stdout
  | config
  | all
  | auto
  | pass (kind : PassKind)
  | rounds
  | indent
  | singleQuotes
  | json
  deriving Repr, DecidableEq

/-- The switch of a pass. -/
def PassKind.switchName : PassKind → String
  | proxyFunctions => "remove-proxy-functions"
  | stringProxies => "string-proxy-functions"
  | strings => "decode-strings"
  | expressions => "simplify-expressions"
  | arrays => "unpack-arrays"
  | deadCode => "remove-dead-code"

inductive ValueForm
  | path
  | word32
  | word64
  deriving Repr, DecidableEq

namespace OptionName

def text : OptionName → String
  | help => "help"
  | version => "version"
  | output => "output"
  | stdout => "stdout"
  | config => "config"
  | all => "all"
  | auto => "auto"
  | pass kind => kind.switchName
  | rounds => "rounds"
  | indent => "indent"
  | singleQuotes => "single-quotes"
  | json => "json"

def letter? : OptionName → Option Char
  | help => some 'h'
  | version => some 'V'
  | output => some 'o'
  | _ => none

/-- What the value of an option looks like; most options take none. -/
def valueForm? : OptionName → Option ValueForm
  | output | config => some .path
  | rounds => some .word32
  | indent => some .word64
  | _ => none

def ofCommandLine : List OptionName :=
  [help, version]

def ofDeobfuscate : List OptionName :=
  [help, output, stdout, config, all, auto] ++ PassKind.all.map pass ++
    [rounds, indent, singleQuotes]

def ofDetect : List OptionName :=
  [help, json]

end OptionName

/-!
## Numbers
-/

/-- An unsigned number of at most `bits` bits; a plus sign may stand before it. -/
def readUnsigned? (bits : Nat) (cs : List Char) : Option Nat :=
  let digits :=
    match cs with
    | '+' :: rest => rest
    | cs => cs
  if digits ≠ [] ∧ digits.all Char.isDigit then
    let value := digits.foldl (fun value c => 10 * value + (c.toNat - '0'.toNat)) 0
    if value < 1 <<< bits then some value else none
  else none

/-- Words are read as signed numbers first, so that a negative zero is one of them. -/
def readWord32? : List Char → Option Nat
  | '-' :: c :: rest =>
      if c.isDigit then (readUnsigned? 63 (c :: rest)).filter (· == 0) else none
  | cs => readUnsigned? 32 cs

def ValueForm.accepts (form : ValueForm) (value : String) : Except ArgumentError Unit :=
  match form with
  | path => if value.isEmpty then .error .missingValue else .ok ()
  | word32 => if (readWord32? value.toList).isSome then .ok () else .error (.invalidNumber value)
  | word64 =>
      if (readUnsigned? 64 value.toList).isSome then .ok () else .error (.invalidNumber value)

/-!
## Reading
-/

/-- An argument that has been read but not checked. -/
inductive Pending
  | nothing
  | paths (values : List String)
  | value (name : OptionName) (value : Option String)
  deriving Repr, DecidableEq

structure ArgumentReader where
  paths : List String := []
  given : List (OptionName × String) := []
  pending : Pending := .nothing
  /-- Only paths follow. -/
  trailing : Bool := false
  deriving Repr, DecidableEq

namespace ArgumentReader

def has (r : ArgumentReader) (name : OptionName) : Bool :=
  r.given.any fun g => g.1 == name

def value? (r : ArgumentReader) (name : OptionName) : Option String :=
  (r.given.find? fun g => g.1 == name).map Prod.snd

/-- Take an option with its value, or with an empty text if it has none. -/
def accept (r : ArgumentReader) (name : OptionName) (value : String) :
    Except ArgumentError ArgumentReader := do
  if r.has name then throw (.conflict name.text)
  if let some form := name.valueForm? then form.accepts value
  return { r with given := (name, value) :: r.given }

/-- Check what is pending. -/
def settle (r : ArgumentReader) : Except ArgumentError ArgumentReader :=
  let settled := { r with pending := .nothing }
  match r.pending with
  | .nothing => .ok r
  | .paths values =>
      if values.any String.isEmpty then .error .missingValue
      else .ok { settled with paths := r.paths ++ values }
  | .value _ none => .error .missingValue
  | .value name (some value) => settled.accept name value

def giveFlag (r : ArgumentReader) (name : OptionName) :
    Except ArgumentError ArgumentReader := do
  let r ← r.settle
  match name with
  | .help => throw .helpRequested
  | .version => throw .versionRequested
  | _ => r.accept name ""

/-- An attached value is taken at once; otherwise the next argument may be the value. -/
def giveValue (r : ArgumentReader) (name : OptionName) (attached : Option String) :
    Except ArgumentError ArgumentReader := do
  let r ← r.settle
  match attached with
  | some value => r.accept name value
  | none => return { r with pending := .value name none }

def addPath (r : ArgumentReader) (value : String) : Except ArgumentError ArgumentReader :=
  match r.pending with
  | .paths values => .ok { r with pending := .paths (values ++ [value]) }
  | _ => do
      let r ← r.settle
      return { r with pending := .paths [value] }

/-- `name` or `name=value` after two dashes. -/
def readLong (allowed : List OptionName) (r : ArgumentReader) (body : List Char) :
    Except ArgumentError ArgumentReader :=
  let name := String.ofList (body.takeWhile (· != '='))
  let attached :=
    match body.dropWhile (· != '=') with
    | [] => none
    | _ :: value => some (String.ofList value)
  match allowed.find? fun option => option.text == name with
  | none => .error (.unknownArgument ("--" ++ name))
  | some option =>
      if option.valueForm?.isSome then r.giveValue option attached
      else if attached.isSome then .error (.unexpectedValue name)
      else r.giveFlag option

/-- Letters after one dash. What follows a letter that takes a value is its value. -/
def readShort (allowed : List OptionName) (r : ArgumentReader) :
    List Char → Except ArgumentError ArgumentReader
  | [] => .ok r
  | c :: rest =>
      match allowed.find? fun option => option.letter? == some c with
      | none => .error (.unknownArgument (String.ofList ['-', c]))
      | some option =>
          if option.valueForm?.isSome then
            let attached :=
              match rest with
              | [] => none
              | '=' :: value => some (String.ofList value)
              | value => some (String.ofList value)
            r.giveValue option attached
          else do readShort allowed (← r.giveFlag option) rest

def read (allowed : List OptionName) (r : ArgumentReader) (argument : String) :
    Except ArgumentError ArgumentReader :=
  if r.trailing then r.addPath argument
  else
    match argument.toList with
    | ['-', '-'] => .ok { r with trailing := true }
    | '-' :: '-' :: body => readLong allowed r body
    | '-' :: c :: rest => readShort allowed r (c :: rest)
    | _ =>
        match r.pending with
        | .value name none => .ok { r with pending := .value name (some argument) }
        | _ => r.addPath argument

/-- Read all arguments of a command. -/
def readAll (allowed : List OptionName) (arguments : List String) :
    Except ArgumentError ArgumentReader := do
  (← arguments.foldlM (read allowed) {}).settle

end ArgumentReader

/-!
## Whole command lines
-/

namespace Command

def deobfuscateOfArguments (arguments : List String) : Except ArgumentError Command := do
  let r ← ArgumentReader.readAll OptionName.ofDeobfuscate arguments
  if r.has .stdout && r.has .output then throw (.conflict "stdout")
  if r.paths.isEmpty then throw .missingPaths
  let number := fun (name : OptionName) (read? : List Char → Option Nat) (preset : Nat) =>
    ((r.value? name).bind fun value => read? value.toList).getD preset
  return .deobfuscate
    { paths := r.paths
      output := r.value? .output
      toStdout := r.has .stdout
      config := r.value? .config
      all := r.has .all
      auto := r.has .auto
      passes := PassKind.all.filter fun kind => r.has (.pass kind)
      rounds := number .rounds readWord32? 1
      style :=
        { indent := number .indent (readUnsigned? 64) 2
          quotes := if r.has .singleQuotes then .single else .double } }

def detectOfArguments (arguments : List String) : Except ArgumentError Command := do
  let r ← ArgumentReader.readAll OptionName.ofDetect arguments
  if r.paths.isEmpty then throw .missingPaths
  return .detect { paths := r.paths, json := r.has .json }

inductive Name
  | deobfuscate
  | detect
  | help
  deriving Repr, DecidableEq

def Name.ofText? (written : String) : Option Name :=
  if written = "deobfuscate" then some .deobfuscate
  else if written = "detect" then some .detect
  else if written = "help" then some .help
  else none

/-- The help command may name a command. -/
def helpError : List String → ArgumentError
  | [] => .helpRequested
  | [name] => if (Name.ofText? name).isSome then .helpRequested else .unknownCommand name
  | name :: other :: _ =>
      .unknownCommand (if (Name.ofText? name).isSome then other else name)

/-- Before the command there are only options that ask for information. -/
def leadingError (argument : String) : ArgumentError :=
  match argument.toList with
  | '-' :: _ :: _ =>
      match ArgumentReader.read OptionName.ofCommandLine {} argument with
      | .error e => e
      | .ok _ => .noCommand
  | _ => .unknownCommand argument

/-- A command may not be named after `--`. -/
def parseFrom : (trailing : Bool) → List String → Except ArgumentError Command
  | _, [] => .error .noCommand
  | trailing, argument :: rest =>
      match trailing, Name.ofText? argument with
      | false, some .deobfuscate => deobfuscateOfArguments rest
      | false, some .detect => detectOfArguments rest
      | false, some .help => .error (helpError rest)
      | true, some _ => .error (.unknownArgument argument)
      | true, none => .error (.unknownCommand argument)
      | false, none =>
          if argument = "--" then parseFrom true rest else .error (leadingError argument)

/-- The command of a whole command line without the name of the program. -/
def parse (arguments : List String) : Except ArgumentError Command :=
  parseFrom false arguments

end Command
end Untangle
