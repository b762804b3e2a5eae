/-!
# Layouts

A layout is text with line breaks and nesting. Its lines are indented when it is written out, so
that equal layouts read alike at every indentation.
-/

namespace Untangle

inductive Layout
  | nothing
  | text (s : String)
  | newline
  /-- Lines that start inside are one level deeper. -/
  | nest (body : Layout)
  | append (first second : Layout)
  deriving Inhabited

namespace Layout

instance : Append Layout where
  append := Layout.append

instance : Coe String Layout where
  coe := Layout.text

/-!
## Building
-/

/-- Layouts one after another with a layout between neighbours. -/
def joined (separator : Layout) : List Layout → Layout
  | [] => nothing
  | [last] => last
  | first :: rest => first ++ separator ++ joined separator rest

/-- Layouts separated by commas. -/
def listed (items : List Layout) : Layout :=
  joined ", " items

/-- One layout per line, without a line break after the last. -/
def lines (items : List Layout) : Layout :=
  joined newline items

def parenthesized (body : Layout) : Layout :=
  "(" ++ body ++ ")"

/-- Braces around lines of their own. -/
def braced (body : Layout) : Layout :=
  "\x7b" ++ nest (newline ++ body) ++ newline ++ "\x7d"

/-!
## Writing
-/

/-- What has been written, and whether the current line is still empty. -/
structure Page where
  written : String
  atLineStart : Bool

def Page.blank : Page :=
  ⟨"", true⟩

/-- A line is indented when its first text arrives, so that empty lines stay empty. -/
def Page.put (indentation : String) (s : String) (page : Page) : Page :=
  match page with
  | ⟨written, atLineStart⟩ =>
      if s.isEmpty then ⟨written, atLineStart⟩
      else if atLineStart then ⟨written ++ indentation ++ s, false⟩
      else ⟨written ++ s, false⟩

def Page.break (page : Page) : Page :=
  match page with
  | ⟨written, _⟩ => ⟨written.push '\n', true⟩

/-- Write a layout whose lines start with the given indentation. -/
def writeTo (unit : String) : Layout → String → Page → Page
  | nothing, _, page => page
  | text s, indentation, page => page.put indentation s
  | newline, _, page => page.break
  | nest body, indentation, page => writeTo unit body (indentation ++ unit) page
  | append first second, indentation, page =>
      writeTo unit second indentation (writeTo unit first indentation page)

/-- The text of a layout with the given number of spaces per level. -/
def render (indent : Nat) (layout : Layout) : String :=
  (layout.writeTo (String.ofList (List.replicate indent ' ')) "" .blank).written

end Layout
end Untangle
