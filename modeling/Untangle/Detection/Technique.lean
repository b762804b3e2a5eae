import Untangle.Evaluation.Evaluate
import Untangle.Rewrite.Constants
import Untangle.Rewrite.Shape
import Untangle.Text.Quoted

/-!
# Signs of obfuscation

Each technique leaves one kind of trace in a tree. A trace is looked for at every node, or at
every binding.
-/

namespace Untangle
namespace Forest

def anyNode (f : Forest) (root : Slot) (p : NodeId → Node Slot → Bool) : Bool :=
  (f.preorder root).any fun i => (f.node? (some i)).any (p i)

/-!
## Arrays of strings
-/

def isString (f : Forest) (s : Slot) : Bool :=
  f.satisfies s fun n =>
    match n with
    | .string _ _ _ => true
    | _ => false

/-- An element of a variable that is declared as a non-empty array of strings. -/
def hasPackedStrings (f : Forest) (b : Bindings) (root : Slot) : Bool :=
  f.anyNode root fun _ n =>
    match n with
    | .access .element object _ _ _ =>
        match (b.resolveBinding object).bind fun array => f.declaredElements? array.declaration with
        | some elements => !elements.isEmpty && elements.all f.isString
        | none => false
    | _ => false

/-!
## Proxy functions
-/

/-- A function that only returns a member of an object. -/
def hasElementProxy (f : Forest) (root : Slot) : Bool :=
  f.anyNode root fun _ n =>
    match n with
    | .function _ _ _ code _ _ =>
        (f.returnedExpression? code).any fun e =>
          f.satisfies e fun n =>
            match n with
            | .access _ _ _ _ _ => true
            | _ => false
    | _ => false

/-- A function declaration of one expression statement that is called by its name. -/
def hasStatementProxy (f : Forest) (b : Bindings) : Bool :=
  b.bindings.any fun binding =>
    binding.kind == .function && (binding.references.any fun r => r.kind == .call) &&
      match f.node? (some binding.declaration) with
      | some (.function .declaration _ _ code _ _) => (f.soleExpression? code).isSome
      | _ => false

/-!
## Literals
-/

/-- The text between the quotes differs from the canonical text in the same quotes. -/
def isWrittenDifferently (value raw : String) : Bool :=
  match raw.toList with
  | [] => false
  | quote :: rest => rest.dropLast != Text.escapeChars quote value.toList

def hasEncodedString (f : Forest) (root : Slot) : Bool :=
  f.anyNode root fun _ n =>
    match n with
    | .string value (some raw) false => isWrittenDifferently value raw
    | _ => false

/-- A number in another radix, or a binary operation whose value has a literal. -/
def hasConstantExpression (f : Forest) (b : Bindings) (root : Slot) : Bool :=
  f.anyNode root fun i n =>
    match n with
    | .number _ raw => raw.any Rewrite.isRadixNumeral
    | .binary .binary _ _ _ => (b.evaluate f (some i)).any Value.hasLiteral
    | _ => false

/-!
## Control flow
-/

/-- An `if` statement whose condition is known. -/
def hasDeadBranch (f : Forest) (b : Bindings) (root : Slot) : Bool :=
  f.anyNode root fun _ n =>
    match n with
    | .conditionalStatement condition _ _ => (b.truth? f condition).isSome
    | _ => false

def switchSubject? (f : Forest) (s : Slot) : Option Slot :=
  match f.node? s with
  | some (.switch subject _) => some subject
  | _ => none

/-- The subject of a `switch` statement that is the body of a loop, or the first one in it. -/
def dispatched? (f : Forest) (code : Slot) : Option Slot :=
  match f.node? code with
  | some (.body .block statements) => statements.findSome? f.switchSubject?
  | _ => f.switchSubject? code

/-- A text with a bar in it, split by a call. -/
def isSplitText (f : Forest) (s : Slot) : Bool :=
  match f.node? s with
  | some (.call .call callee _ _ _) =>
      match f.node? callee with
      | some (.access .property object key _ _) =>
          f.isIdentifierNamed key "split" && f.satisfies object fun n =>
            match n with
            | .string value _ _ => value.toList.contains '|'
            | _ => false
      | _ => false
  | _ => false

/-- The dispatcher reads its next label from a variable that holds the split order. -/
def readsSplitOrder (f : Forest) (b : Bindings) (subject : Slot) : Bool :=
  match f.node? subject with
  | some (.access .element object _ _ _) =>
      match (b.resolveBinding object).bind fun order => f.node? (some order.declaration) with
      | some (.declarator _ initializer) => f.isSplitText initializer
      | _ => false
  | _ => false

/-- A loop around a `switch` over the elements of a split text. -/
def hasFlattenedControlFlow (f : Forest) (b : Bindings) (root : Slot) : Bool :=
  f.anyNode root fun _ n =>
    match n with
    | .guarded .whileLoop _ code | .forLoop _ _ _ code =>
        (f.dispatched? code).any (f.readsSplitOrder b)
    | _ => false

end Forest
end Untangle
