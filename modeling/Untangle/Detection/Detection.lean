import Untangle.Deobfuscation.Configuration
import Untangle.Detection.Technique
import Untangle.Text.CharClass

/-!
# Detection

What a source text shows of the techniques of obfuscation, and the passes that undo them.
-/

namespace Untangle

/-!
## Encodings that cannot be reversed

Two encodings are recognised in the text alone: sources written in six characters, and names made
of `_0x` and hexadecimal digits.
-/

inductive Encoding
  | characterSet
  | mangledNames
  deriving Repr, DecidableEq, Inhabited

namespace Encoding

def label : Encoding → String
  | characterSet => "character set encoding"
  | mangledNames => "identifier mangling"

def description : Encoding → String
  | characterSet => "source is written in a reduced character set and cannot be reversed"
  | mangledNames => "identifiers are mangled into _0x names and cannot be reversed"

/-!
### Character sets
-/

def reducedCharacters : List Char :=
  ['[', ']', '(', ')', '!', '+']

/-- The whole text is written in the reduced character set, without even a blank. -/
def usesReducedCharacters (text : String) : Bool :=
  !text.isEmpty && text.toList.all reducedCharacters.contains

/-!
### Mangled names
-/

/-- The text starts with a mangled name that ends where its digits end. -/
def startsWithMangledName : List Char → Bool
  | '_' :: '0' :: 'x' :: rest =>
      !(rest.takeWhile Text.isHexDigit).isEmpty &&
        !(rest.dropWhile Text.isHexDigit).head?.any Text.isIdentifierPart
  | _ => false

/-- A mangled name starts somewhere in the text. The flag tells whether the character before the
text belongs to an identifier. -/
def hasMangledNameFrom : (afterPart : Bool) → List Char → Bool
  | _, [] => false
  | afterPart, c :: rest =>
      (!afterPart && startsWithMangledName (c :: rest)) ||
        hasMangledNameFrom (Text.isIdentifierPart c) rest

def hasMangledName (text : String) : Bool :=
  hasMangledNameFrom false text.toList

/-- The encoding of a text, if it is one of the two. -/
def detect? (text : String) : Option Encoding :=
  if usesReducedCharacters text then some characterSet
  else if hasMangledName text then some mangledNames
  else none

end Encoding

/-!
## Findings
-/

structure Detection where
  packedStringArray : Bool := false
  proxyFunction : Bool := false
  encodedStrings : Bool := false
  stringProxyFunction : Bool := false
  constantExpressions : Bool := false
  deadBranches : Bool := false
  /-- Recognised, but undone by no pass. -/
  controlFlowFlattening : Bool := false
  encoding : Option Encoding := none
  deriving Repr, DecidableEq, Inhabited

namespace Detection

/-- The names of the techniques found, in a fixed order. -/
def techniqueLabels (d : Detection) : List String :=
  let found :=
    [(d.packedStringArray, "packed string array"),
     (d.proxyFunction, "proxy functions"),
     (d.encodedStrings, "encoded string literals"),
     (d.stringProxyFunction, "string proxy functions"),
     (d.constantExpressions, "constant expressions"),
     (d.deadBranches, "dead branches"),
     (d.controlFlowFlattening, "control flow flattening")]
  (found.filter Prod.fst).map Prod.snd

def labels (d : Detection) : List String :=
  match d.encoding with
  | some encoding => [encoding.label]
  | none => d.techniqueLabels

def recommended (d : Detection) : Configuration where
  unpackArrays := d.packedStringArray
  decodeStrings := d.encodedStrings
  removeProxyFunctions := d.proxyFunction
  stringProxyFunctions := d.stringProxyFunction
  simplifyExpressions := d.constantExpressions
  removeDeadCode := d.deadBranches

/-- An encoding that cannot be reversed was found, and nothing else was looked for. -/
def isTerminal (d : Detection) : Bool :=
  d.encoding.isSome

def isClean (d : Detection) : Bool :=
  d.labels.isEmpty && !d.isTerminal

/-- What a tree shows. -/
def ofTree (f : Forest) (b : Bindings) (root : Slot) : Detection where
  packedStringArray := f.hasPackedStrings b root
  proxyFunction := f.hasElementProxy root
  encodedStrings := f.hasEncodedString root
  stringProxyFunction := f.hasStatementProxy b
  constantExpressions := f.hasConstantExpression b root
  deadBranches := f.hasDeadBranch b root
  controlFlowFlattening := f.hasFlattenedControlFlow b root

def ofProgram (p : Program) : Detection :=
  ofTree p.forest p.bindings (some p.root)

/-- What a source text shows. A text in an irreversible encoding need not be a program. -/
def ofSource (source : String) : Except SyntaxError Detection :=
  match Encoding.detect? source with
  | some encoding => .ok { encoding := some encoding }
  | none => (Program.parse source).map ofProgram

end Detection

end Untangle
