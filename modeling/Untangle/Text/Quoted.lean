import Untangle.Text.CharClass

/-!
# Canonical string literals

A literal escapes the backslash, its own quote, line terminators and control characters, and
nothing else.
-/

namespace Untangle
namespace Text

inductive QuoteStyle
  | double
  | single
  deriving Repr, DecidableEq, Inhabited

namespace QuoteStyle

def quote : QuoteStyle → Char
  | double => '"'
  | single => '\''

end QuoteStyle

/-!
## Escapes
-/

def upperHexDigit (n : Nat) : Char :=
  if n < 10 then Char.ofNat ('0'.toNat + n) else Char.ofNat ('A'.toNat + n - 10)

/-- Two upper-case hexadecimal digits. -/
def hexByte (n : Nat) : List Char :=
  [upperHexDigit (n / 16), upperHexDigit (n % 16)]

/-- The written form of one character inside a literal. A null character before a digit is
spelled out, since the short form would read as an octal escape. -/
def escapeChar (quote : Char) (next : Option Char) (c : Char) : List Char :=
  if c = '\\' then ['\\', '\\']
  else if c = '\n' then ['\\', 'n']
  else if c = '\r' then ['\\', 'r']
  else if c = '\t' then ['\\', 't']
  else if c = '\x08' then ['\\', 'b']
  else if c = '\x0b' then ['\\', 'v']
  else if c = '\x0c' then ['\\', 'f']
  else if c = '\x00' then
    if next.any Char.isDigit then ['\\', 'x', '0', '0'] else ['\\', '0']
  else if c = '\u2028' then ['\\', 'u', '2', '0', '2', '8']
  else if c = '\u2029' then ['\\', 'u', '2', '0', '2', '9']
  else if c = quote then ['\\', c]
  else if c.toNat < 0x20 ∨ c = '\x7f' then '\\' :: 'x' :: hexByte c.toNat
  else [c]

def escapeChars (quote : Char) : List Char → List Char
  | [] => []
  | c :: rest => escapeChar quote rest.head? c ++ escapeChars quote rest

def escape (quote : Char) (value : String) : String :=
  String.ofList (escapeChars quote value.toList)

/-!
## Literals
-/

def quoted (style : QuoteStyle) (value : String) : String :=
  String.ofList (style.quote :: escapeChars style.quote value.toList ++ [style.quote])

end Text
end Untangle
