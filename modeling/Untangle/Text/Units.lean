/-!
# UTF-16 code units

Strings of the language are sequences of 16-bit code units and are ordered by them, which
differs from the order of code points above the basic plane.
-/

namespace Untangle
namespace Text

/-- The code units of one character: itself, or a surrogate pair. -/
def charUnits (c : Char) : List Nat :=
  if c.toNat < 0x10000 then [c.toNat]
  else [0xD800 + (c.toNat - 0x10000) / 0x400, 0xDC00 + (c.toNat - 0x10000) % 0x400]

def units (text : String) : List Nat :=
  text.toList.flatMap charUnits

/-- Lexicographic order; a proper initial segment comes first. -/
def compareUnits : List Nat → List Nat → Ordering
  | [], [] => .eq
  | [], _ :: _ => .lt
  | _ :: _, [] => .gt
  | a :: as, b :: bs =>
      if a < b then .lt
      else if b < a then .gt
      else compareUnits as bs

end Text
end Untangle
