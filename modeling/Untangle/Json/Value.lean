import Untangle.Text.CharClass

/-!
# JSON values

A reader of JSON texts. The members of an object keep their order, and repeated keys are kept.
-/

namespace Untangle

inductive JsonValue
  | null
  | boolean (value : Bool)
  | number (written : String)
  /-- Without a content if an escape in the text denotes half of a surrogate pair. -/
  | text (content : Option String)
  | array (items : List JsonValue)
  | object (members : List (Option String × JsonValue))
  deriving Inhabited

namespace JsonValue

/-!
## Blanks
-/

def isJsonBlank (c : Char) : Bool :=
  c == ' ' || c == '\t' || c == '\n' || c == '\r'

def skipBlanks (cs : List Char) : List Char :=
  cs.dropWhile isJsonBlank

/-!
## Texts
-/

def hexUnit? (a b c d : Char) : Option Nat := do
  let digits ← [a, b, c, d].mapM (Text.digitValue? 16)
  return digits.foldl (fun value digit => 16 * value + digit) 0

def isLeadUnit (unit : Nat) : Bool :=
  0xD800 ≤ unit && unit < 0xDC00

def isTrailUnit (unit : Nat) : Bool :=
  0xDC00 ≤ unit && unit < 0xE000

def pairChar (lead trail : Nat) : Char :=
  Char.ofNat (0x10000 + (lead - 0xD800) * 0x400 + (trail - 0xDC00))

def simpleEscape? : Char → Option Char
  | '"' => some '"'
  | '\\' => some '\\'
  | '/' => some '/'
  | 'b' => some '\x08'
  | 'f' => some '\x0c'
  | 'n' => some '\n'
  | 'r' => some '\r'
  | 't' => some '\t'
  | _ => none

/-- A character, or the UTF-16 unit that an escape denotes. -/
inductive Symbol
  | char (c : Char)
  | unit (n : Nat)

/-- The symbols up to the closing quote, and the rest. -/
def readSymbols? : List Char → Option (List Symbol × List Char)
  | [] => none
  | '"' :: rest => some ([], rest)
  | '\\' :: 'u' :: a :: b :: c :: d :: rest =>
      match hexUnit? a b c d with
      | some n => (readSymbols? rest).map fun (symbols, after) => (.unit n :: symbols, after)
      | none => none
  | '\\' :: c :: rest =>
      match simpleEscape? c with
      | some decoded =>
          (readSymbols? rest).map fun (symbols, after) => (.char decoded :: symbols, after)
      | none => none
  | c :: rest =>
      if c.toNat < 0x20 then none
      else (readSymbols? rest).map fun (symbols, after) => (.char c :: symbols, after)

/-- The characters that the symbols denote; surrogates have to come in pairs. -/
def joinSymbols? : List Symbol → Option (List Char)
  | [] => some []
  | .char c :: rest => (joinSymbols? rest).map (c :: ·)
  | .unit lead :: .unit trail :: rest =>
      if isLeadUnit lead && isTrailUnit trail then
        (joinSymbols? rest).map (pairChar lead trail :: ·)
      else if isLeadUnit lead || isTrailUnit lead then none
      else (joinSymbols? (.unit trail :: rest)).map (Char.ofNat lead :: ·)
  | .unit n :: rest =>
      if isLeadUnit n || isTrailUnit n then none
      else (joinSymbols? rest).map (Char.ofNat n :: ·)

/-- The content of a text whose opening quote has been read, and the rest. -/
def readText? (cs : List Char) : Option (Option String × List Char) :=
  (readSymbols? cs).map fun (symbols, after) =>
    ((joinSymbols? symbols).map String.ofList, after)

/-!
## Numbers
-/

/-- A run of at least one digit, and the rest. -/
def readDigits? (cs : List Char) : Option (List Char × List Char) :=
  match cs.takeWhile Char.isDigit with
  | [] => none
  | digits => some (digits, cs.dropWhile Char.isDigit)

/-- The integer part has no leading zeros. -/
def readWhole? : List Char → Option (List Char × List Char)
  | '0' :: rest => if rest.head?.any Char.isDigit then none else some (['0'], rest)
  | cs => readDigits? cs

def readFraction? : List Char → Option (List Char × List Char)
  | '.' :: rest => (readDigits? rest).map fun (digits, after) => ('.' :: digits, after)
  | cs => some ([], cs)

def readExponent? : List Char → Option (List Char × List Char)
  | e :: rest =>
      if e == 'e' || e == 'E' then
        match rest with
        | sign :: digits =>
            if sign == '+' || sign == '-' then
              (readDigits? digits).map fun (digits, after) => (e :: sign :: digits, after)
            else (readDigits? rest).map fun (digits, after) => (e :: digits, after)
        | [] => none
      else some ([], e :: rest)
  | [] => some ([], [])

def readUnsigned? (cs : List Char) : Option (List Char × List Char) := do
  let (whole, rest) ← readWhole? cs
  let (fraction, rest) ← readFraction? rest
  let (exponent, rest) ← readExponent? rest
  return (whole ++ fraction ++ exponent, rest)

def readNumber? : List Char → Option (JsonValue × List Char)
  | '-' :: rest =>
      (readUnsigned? rest).map fun (written, after) =>
        (number (String.ofList ('-' :: written)), after)
  | cs =>
      (readUnsigned? cs).map fun (written, after) => (number (String.ofList written), after)

/-!
## Values
-/

/-- Items separated by commas up to a closing character. -/
def readItems? {α : Type} (read? : List Char → Option (α × List Char)) (close : Char) :
    (fuel : Nat) → List Char → Option (List α × List Char)
  | 0, _ => none
  | fuel + 1, cs => do
      let (item, rest) ← read? cs
      match skipBlanks rest with
      | ',' :: rest =>
          let (items, rest) ← readItems? read? close fuel (skipBlanks rest)
          return (item :: items, rest)
      | c :: rest => if c == close then some ([item], rest) else none
      | [] => none

/-- A list of items that may be empty. -/
def readList? {α : Type} (read? : List Char → Option (α × List Char)) (close : Char)
    (cs : List Char) : Option (List α × List Char) :=
  match skipBlanks cs with
  | [] => none
  | c :: rest => if c == close then some ([], rest) else readItems? read? close cs.length (c :: rest)

def readMember? (read? : List Char → Option (JsonValue × List Char)) :
    List Char → Option ((Option String × JsonValue) × List Char)
  | '"' :: rest => do
      let (key, rest) ← readText? rest
      match skipBlanks rest with
      | ':' :: rest =>
          let (value, rest) ← read? (skipBlanks rest)
          return ((key, value), rest)
      | _ => none
  | _ => none

/-- A value at the start of the text, nested at most as deep as the fuel. -/
def readValue? : (fuel : Nat) → List Char → Option (JsonValue × List Char)
  | 0, _ => none
  | fuel + 1, cs =>
      match cs with
      | 'n' :: 'u' :: 'l' :: 'l' :: rest => some (null, rest)
      | 't' :: 'r' :: 'u' :: 'e' :: rest => some (boolean true, rest)
      | 'f' :: 'a' :: 'l' :: 's' :: 'e' :: rest => some (boolean false, rest)
      | '"' :: rest =>
          (readText? rest).map fun (content, after) => (text content, after)
      | '[' :: rest =>
          (readList? (readValue? fuel) ']' rest).map fun (items, after) => (array items, after)
      | '\x7b' :: rest =>
          (readList? (readMember? (readValue? fuel)) '\x7d' rest).map fun (members, after) =>
            (object members, after)
      | cs => readNumber? cs

/-- The value of a whole text. -/
def parse? (source : String) : Option JsonValue := do
  let cs := source.toList
  let (value, rest) ← readValue? (cs.length + 1) (skipBlanks cs)
  if (skipBlanks rest).isEmpty then some value else none

/-- The last value of a key in an object. -/
def member? (key : String) : JsonValue → Option JsonValue
  | object members => (members.reverse.find? fun m => m.1 == some key).map Prod.snd
  | _ => none

end JsonValue
end Untangle
