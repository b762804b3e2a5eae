import Untangle.Printing.Layout

/-!
# Writing JSON

Values are laid out with one item or member per line.
-/

namespace Untangle
namespace Json

/-!
## Texts
-/

def hexDigit (n : Nat) : Char :=
  if n < 10 then Char.ofNat ('0'.toNat + n) else Char.ofNat ('a'.toNat + n - 10)

/-- Quotes, backslashes and control characters are escaped. -/
def escapeChar (c : Char) : List Char :=
  if c = '"' then ['\\', '"']
  else if c = '\\' then ['\\', '\\']
  else if c = '\x08' then ['\\', 'b']
  else if c = '\x0c' then ['\\', 'f']
  else if c = '\n' then ['\\', 'n']
  else if c = '\r' then ['\\', 'r']
  else if c = '\t' then ['\\', 't']
  else if c.toNat < 0x20 then
    ['\\', 'u', '0', '0', hexDigit (c.toNat / 16), hexDigit (c.toNat % 16)]
  else [c]

def text (s : String) : Layout :=
  String.ofList ('"' :: s.toList.flatMap escapeChar ++ ['"'])

def boolean (b : Bool) : Layout :=
  if b then "true" else "false"

/-!
## Collections
-/

/-- Items between brackets, each on a line of its own. -/
def enclosed (opening closing : String) (items : List Layout) : Layout :=
  if items.isEmpty then opening ++ closing
  else
    opening ++ .nest (.newline ++ .joined ("," ++ .newline) items) ++ .newline ++ closing

def array (items : List Layout) : Layout :=
  enclosed "[" "]" items

def object (members : List (String × Layout)) : Layout :=
  enclosed "\x7b" "\x7d" (members.map fun (key, value) => text key ++ ": " ++ value)

end Json
end Untangle
