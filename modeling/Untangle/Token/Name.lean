import Untangle.Token.Escape
import Untangle.Token.Lexeme

/-!
# Names

Identifiers, keywords and private names. Any character of a name may be spelled as a Unicode
escape; a name spelled that way is never a keyword.
-/

namespace Untangle

/-- The characters read so far, last first, and whether an escape was among them. -/
structure PartialName where
  reversed : List Char
  escaped : Bool

namespace PartialName

def empty : PartialName :=
  ⟨[], false⟩

def accepts (n : PartialName) (ch : Char) : Bool :=
  if n.reversed.isEmpty then Text.isIdentifierStart ch else Text.isIdentifierPart ch

def push (n : PartialName) (ch : Char) : PartialName :=
  { n with reversed := ch :: n.reversed }

def pushEscaped (n : PartialName) (ch : Char) : PartialName :=
  ⟨ch :: n.reversed, true⟩

def text (n : PartialName) : String :=
  String.ofList n.reversed.reverse

/-- A finished name is a keyword when it is spelled like one without escapes. -/
def finish (n : PartialName) (next : Cursor) : Reading :=
  let keyword? := if n.escaped then none else Keyword.ofText? n.text
  let kind := (keyword?.map TokenKind.word).getD .identifier
  .ok { kind := kind, value := n.text, escaped := n.escaped } next

/-- A malformed escape keeps the mark that earlier escapes left. -/
def fail (n : PartialName) (cause : LexicalError.Cause) (offset : Nat) (next : Cursor) :
    Reading :=
  ⟨{ kind := .unknown, escaped := n.escaped }, next, some ⟨cause, offset⟩⟩

end PartialName

def readNameFrom (n : PartialName) (c : Cursor) : Reading :=
  match _hrest : c.rest with
  | [] => n.finish c
  | ch :: rest =>
      if ch = '\\' then
        if rest.head? = some 'u' then
          let (code?, next) := readUnicodeEscape (c.skip 2)
          match (code?.bind charOfCode?).filter n.accepts with
          | some decoded => readNameFrom (n.pushEscaped decoded) (readUnicodeEscape (c.skip 2)).2
          | none => n.fail .invalidUnicodeEscape c.offset next
        else
          n.fail (.invalidCharacter '\\') c.offset c
      else if n.accepts ch then readNameFrom (n.push ch) c.advance
      else n.finish c
termination_by c.rest.length
decreasing_by
  · have hne : c.rest ≠ [] := by simp [_hrest]
    exact ((c.advance.reaches_skip 1).trans (reaches_readUnicodeEscape _)).length_lt hne
  · have hne : c.rest ≠ [] := by simp [_hrest]
    exact Cursor.length_advance_lt hne

def readName (c : Cursor) : Reading :=
  readNameFrom .empty c

/-- A name after a hash sign. -/
def readPrivateName (c : Cursor) : Reading :=
  let behind := c.advance
  if behind.head?.any fun ch => ch == '\\' || Text.isIdentifierStart ch then
    let reading := readName behind
    if reading.error.isSome then reading
    else { reading with lexeme := { reading.lexeme with kind := .privateName } }
  else .fail (.invalidCharacter '#') c.offset behind

end Untangle
