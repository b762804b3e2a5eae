import Untangle.Rewrite.Basic
import Untangle.Text.Quoted

/-!
# Canonical strings

String literals lose the text they were written with, so that they print in canonical form.
A literal with a lone surrogate keeps its text, since its value cannot be printed.
-/

namespace Untangle
namespace Rewrite

/-- A literal that prints differently without its source text. -/
def isEncodedString (value : String) (raw : Option String) : Bool :=
  raw.any (· != Text.quoted .double value)

def decodeString (i : NodeId) : Edit Bool := do
  match ← Edit.look (·.node? (some i)) with
  | some (.string value (some raw) false) =>
      Edit.setNode i (.string value none false)
      return isEncodedString value (some raw)
  | _ => return false

def decodeStrings (root : Slot) : Rewrite Bool := do
  requireNode root
  let sites := (← get).preorder root
  Edit.changeAll decodeString sites

end Rewrite
end Untangle
