import Untangle.Evaluation.Evaluate

/-!
# Known values are certain

An expression is read as a computation: a relation between the world in which it starts, the
effects it performs in order, how it ends, and the world it leaves. A computation may have many
outcomes, and it has none if it never ends. Literals, the global constants, operators,
conditionals and templates have their fixed meaning; what any other expression does is left to
an interpretation.

An expression with a known value has exactly one run under every interpretation: it performs no
effect, leaves the world as it is and yields that value. The one thing taken from the
interpretation is how texts are read as numbers.

A run is described by properties of computations that hold of a yielded value and pass to a
sequence. The lemma for a node is stated once for all of them; it is used for the property that
there is no other run, at every depth, and for the property that there is this run.
-/

namespace Untangle

/-!
## Computations
-/

/-- What an expression may evaluate to: a primitive value, or anything else, such as an object, a
big integer or a text with a lone surrogate. -/
inductive Datum (Foreign : Type)
  | primitive (v : Value)
  | foreign (x : Foreign)

inductive Completion (Foreign : Type)
  | normal (d : Datum Foreign)
  | thrown (d : Datum Foreign)

/-- The possible runs of an expression. -/
def Computation (World Effect Foreign : Type) :=
  World → List Effect → Completion Foreign → World → Prop

namespace Computation

variable {World Effect Foreign : Type}

/-- The computation without any run. -/
def stuck : Computation World Effect Foreign :=
  fun _ _ _ _ => False

/-- The computation that yields a datum and does nothing else. -/
def result (d : Datum Foreign) : Computation World Effect Foreign :=
  fun w effects completion w' => effects = [] ∧ completion = .normal d ∧ w' = w

abbrev yield (v : Value) : Computation World Effect Foreign :=
  result (.primitive v)

/-- One computation after the other; what the first one throws ends both. -/
def andThen (first : Computation World Effect Foreign)
    (next : Datum Foreign → Computation World Effect Foreign) :
    Computation World Effect Foreign :=
  fun w effects completion w' =>
    (∃ d, first w effects (.thrown d) w' ∧ completion = .thrown d) ∨
    ∃ d before after between,
      first w before (.normal d) between ∧ next d between after completion w' ∧
        effects = before ++ after

end Computation

/-!
## Interpretations
-/

/-- Everything about a program's run that its operators and literals do not settle. -/
structure Interpretation (World Effect Foreign : Type) where
  /-- The world in which the program starts. -/
  start : World
  /-- The number that a text denotes where a prefix operator converts it. -/
  readNumber : String → Float
  isTruthy : Foreign → Bool
  isNullish : Foreign → Bool
  /-- A prefix operator on an operand for which the language fixes no result. -/
  prefixed : TokenKind → Datum Foreign → Computation World Effect Foreign
  /-- A binary operator that needs more than two primitive values. -/
  combined : TokenKind → Datum Foreign → Datum Foreign → Computation World Effect Foreign
  /-- The conversion of a substitution to text. -/
  converted : Foreign → Computation World Effect Foreign
  /-- A piece of a template whose text is not known. -/
  piece : Quasi → Datum Foreign
  /-- Two texts in sequence, one of which is not known. -/
  joined : Datum Foreign → Datum Foreign → Datum Foreign
  /-- Any other expression. -/
  other : Slot → Computation World Effect Foreign

namespace Value

/-- The number that a value denotes when texts are read by `read`. -/
def numberBy (read : String → Float) : Value → Float
  | string s => read s
  | v => v.toNumber

/-- The result of a prefix operator other than `delete` and the updates. -/
def prefixResult? (read : String → Float) (operator : TokenKind) (v : Value) : Option Value :=
  match operator with
  | .mark .not => some (boolean !v.isTruthy)
  | .mark .minus => some (number (-v.numberBy read))
  | .mark .plus => some (number (v.numberBy read))
  | .mark .complement => some (ofWord (~~~ Number.toInt32 (v.numberBy read)))
  | .word .«typeof» => some (string v.typeName)
  | .word .void => some undefined
  | _ => none

end Value

/-- The value of a name that no binding and no `with` statement can change. -/
def Bindings.fixedName? (b : Bindings) (s : Slot) (name : String) : Option Value :=
  if (b.resolve s).isSome || b.isDynamic s then none else globalConstant? name

/-- A name that may refer to anything. -/
def Bindings.isOpenName (b : Bindings) (f : Forest) (s : Slot) : Bool :=
  match f.node? s with
  | some (.name _ name) => (b.fixedName? s name).isNone
  | _ => false

/-- The text of a piece, unless it is malformed or may stand for a lone surrogate. -/
def Quasi.text? (quasi : Quasi) : Option String :=
  quasi.cooked.filter fun cooked => !cooked.toList.contains '\ufffd'

namespace Interpretation

open Untangle.Computation

variable {World Effect Foreign : Type} (I : Interpretation World Effect Foreign)

/-!
## The meaning of operators
-/

def truth : Datum Foreign → Bool
  | .primitive v => v.isTruthy
  | .foreign x => I.isTruthy x

def nullish : Datum Foreign → Bool
  | .primitive v => v.isNullish
  | .foreign x => I.isNullish x

def applyPrefix (operator : TokenKind) : Datum Foreign → Computation World Effect Foreign
  | .primitive v =>
      match Value.prefixResult? I.readNumber operator v with
      | some u => yield u
      | none => I.prefixed operator (.primitive v)
  | .foreign x =>
      match operator with
      | .mark .not => yield (.boolean !I.isTruthy x)
      | .word .void => yield .undefined
      | _ => I.prefixed operator (.foreign x)

def applyBinary (operator : TokenKind) :
    Datum Foreign → Datum Foreign → Computation World Effect Foreign
  | .primitive u, .primitive v =>
      match Value.applyBinary operator u v with
      | some r => yield r
      | none => I.combined operator (.primitive u) (.primitive v)
  | d, e => I.combined operator d e

/-- Whether a logical operator answers with its left operand. -/
def keepsLeft? (operator : TokenKind) (left : Datum Foreign) : Option Bool :=
  match operator with
  | .mark .and => some !I.truth left
  | .mark .or => some (I.truth left)
  | .mark .coalesce => some !I.nullish left
  | _ => none

/-!
## The meaning of templates
-/

def pieceText (quasi : Quasi) : Datum Foreign :=
  match quasi.text? with
  | some text => .primitive (.string text)
  | none => I.piece quasi

def toText : Datum Foreign → Computation World Effect Foreign
  | .primitive v => yield (.string v.toText)
  | .foreign x => I.converted x

def join : Datum Foreign → Datum Foreign → Datum Foreign
  | .primitive (.string s), .primitive (.string t) => .primitive (.string (s ++ t))
  | d, e => I.joined d e

/-- Pieces and substitutions from left to right, behind the text that is already there. Each
piece is followed by the next substitution, if one is left. -/
def templateRuns (runs : Slot → Computation World Effect Foreign) (done : Datum Foreign) :
    List Quasi → List Slot → Computation World Effect Foreign
  | [], _ => result done
  | quasi :: quasis, [] => templateRuns runs (I.join done (I.pieceText quasi)) quasis []
  | quasi :: quasis, expression :: expressions =>
      (runs expression).andThen fun d =>
        (I.toText d).andThen fun text =>
          templateRuns runs (I.join (I.join done (I.pieceText quasi)) text) quasis expressions

/-!
## The meaning of expressions
-/

/-- The runs of a node, given those of its children. The operand of `typeof` may be a name that
refers to nothing, so `typeof` of an open name is not the operator after its operand. -/
def nodeRuns (b : Bindings) (f : Forest) (runs : Slot → Computation World Effect Foreign)
    (s : Slot) : Node Slot → Computation World Effect Foreign
  | .number x _ => yield (.number x)
  | .string text _ false => yield (.string text)
  | .boolean value => yield (.boolean value)
  | .bare .null => yield .null
  | .name .identifier name =>
      match b.fixedName? s name with
      | some v => yield v
      | none => I.other s
  | .unary .before operator argument =>
      if operator.isUpdate || operator == .word .delete
          || (operator == .word .«typeof» && b.isOpenName f argument) then
        I.other s
      else
        (runs argument).andThen (I.applyPrefix operator)
  | .binary .binary left operator right =>
      (runs left).andThen fun d => (runs right).andThen fun e => I.applyBinary operator d e
  | .binary .logical left operator right =>
      (runs left).andThen fun d =>
        match I.keepsLeft? operator d with
        | some true => result d
        | some false => runs right
        | none => I.other s
  | .template quasis expressions =>
      I.templateRuns runs (.primitive (.string "")) quasis expressions
  | .conditional condition whenTrue whenFalse =>
      (runs condition).andThen fun d => if I.truth d then runs whenTrue else runs whenFalse
  | _ => I.other s

/-- The runs of an expression that need no more than `depth` levels of its tree. -/
def runsWithin (b : Bindings) (f : Forest) :
    (depth : Nat) → Slot → Computation World Effect Foreign
  | 0, _ => stuck
  | depth + 1, s =>
      match f.node? s with
      | some n => I.nodeRuns b f (runsWithin b f depth) s n
      | none => I.other s

/-- The runs of an expression. -/
def runs (b : Bindings) (f : Forest) (s : Slot) : Computation World Effect Foreign :=
  fun w effects completion w' => ∃ depth, I.runsWithin b f depth s w effects completion w'

end Interpretation
end Untangle

namespace Untangle

variable {World Effect Foreign : Type}

/-!
## Properties of computations
-/

/-- A property of a computation and a value that one can compose. -/
structure Compositional (P : Computation World Effect Foreign → Value → Prop) : Prop where
  yield : ∀ v, P (.yield v) v
  andThen : ∀ {c : Computation World Effect Foreign}
      {next : Datum Foreign → Computation World Effect Foreign} {u v : Value},
    P c u → P (next (.primitive u)) v → P (c.andThen next) v

namespace Computation

/-- Every run performs no effect, leaves the world as it is and yields the value. -/
def OnlyYields (c : Computation World Effect Foreign) (v : Value) : Prop :=
  ∀ {w effects completion w'}, c w effects completion w' → yield v w effects completion w'

/-- There is such a run from every world. -/
def CanYield (c : Computation World Effect Foreign) (v : Value) : Prop :=
  ∀ w, c w [] (.normal (.primitive v)) w

theorem compositional_onlyYields :
    Compositional (@OnlyYields World Effect Foreign) where
  yield _ := id
  andThen := by
    rintro c next u v first second w effects completion w'
      (⟨d, run, -⟩ | ⟨d, before, after, between, run, rest, rfl⟩)
    · obtain ⟨-, ended, -⟩ := first run
      cases ended
    · obtain ⟨rfl, ended, rfl⟩ := first run
      cases ended
      exact second rest

theorem compositional_canYield :
    Compositional (@CanYield World Effect Foreign) where
  yield _ _ := ⟨rfl, rfl, rfl⟩
  andThen first second w := .inr ⟨_, [], [], w, first w, second w, rfl⟩

end Computation

namespace Interpretation

open Untangle.Computation

variable {I : Interpretation World Effect Foreign} {b : Bindings} {f : Forest}
  {P : Computation World Effect Foreign → Value → Prop}
  {value? : Slot → Option Value} {runs : Slot → Computation World Effect Foreign}

/-!
## Operators on known operands
-/

theorem applyPrefix_of_applyUnary (reads : ∀ text, I.readNumber text = stringToNumber text)
    {operator : TokenKind} {u v : Value} (known : Value.applyUnary operator u = some v) :
    I.applyPrefix operator (.primitive u) = yield v := by
  have converts : u.numberBy I.readNumber = u.toNumber := by
    cases u <;> simp [Value.numberBy, Value.toNumber, reads]
  have agrees : Value.prefixResult? I.readNumber operator u = Value.applyUnary operator u := by
    unfold Value.prefixResult? Value.applyUnary
    rw [converts]
    rfl
  rw [applyPrefix, agrees, known]

theorem applyBinary_of_applyBinary {operator : TokenKind} {u v r : Value}
    (known : Value.applyBinary operator u v = some r) :
    I.applyBinary operator (.primitive u) (.primitive v) = yield r := by
  rw [applyBinary, known]

theorem keepsLeft?_primitive (operator : TokenKind) (u : Value) :
    I.keepsLeft? operator (.primitive u) = Value.shortCircuits? operator u := rfl

/-- The prefix operators with a result are those that `nodeRuns` runs after their operand. -/
theorem not_isUpdate_of_applyUnary {operator : TokenKind} {u v : Value}
    (known : Value.applyUnary operator u = some v) :
    operator.isUpdate = false ∧ operator ≠ .word .delete := by
  unfold Value.applyUnary at known
  split at known <;> simp_all [TokenKind.isUpdate]

/-!
## Nodes with known children
-/

theorem templateText?_piece {quasi : Quasi} {quasis : List Quasi} {text : String} :
    templateText? value? (quasi :: quasis) [] = some text ↔
      ∃ piece rest, quasi.text? = some piece ∧ templateText? value? quasis [] = some rest ∧
        piece ++ rest = text := by
  simp [templateText?, Quasi.text?, Option.bind_eq_some_iff]

theorem templateText?_substitution {quasi : Quasi} {quasis : List Quasi} {expression : Slot}
    {expressions : List Slot} {text : String} :
    templateText? value? (quasi :: quasis) (expression :: expressions) = some text ↔
      ∃ piece v rest, quasi.text? = some piece ∧ value? expression = some v ∧
        templateText? value? quasis expressions = some rest ∧
        piece ++ v.toText ++ rest = text := by
  simp [templateText?, Quasi.text?, Option.bind_map, Option.bind_eq_some_iff]

theorem join_pieceText {quasi : Quasi} {piece : String} (known : quasi.text? = some piece)
    (done : String) :
    I.join (.primitive (.string done)) (I.pieceText quasi)
      = .primitive (.string (done ++ piece)) := by
  rw [pieceText, known]
  rfl

theorem templateRuns_of_templateText? (composes : Compositional P)
    (known : ∀ s v, value? s = some v → P (runs s) v) :
    ∀ (quasis : List Quasi) (expressions : List Slot) (done text : String),
      templateText? value? quasis expressions = some text →
        P (I.templateRuns runs (.primitive (.string done)) quasis expressions)
          (.string (done ++ text)) := by
  intro quasis
  induction quasis with
  | nil =>
      intro expressions done text whole
      cases whole
      simpa [templateRuns] using composes.yield (.string done)
  | cons quasi quasis next =>
      intro expressions done text whole
      cases expressions with
      | nil =>
          obtain ⟨piece, rest, pieceKnown, restKnown, rfl⟩ := templateText?_piece.mp whole
          rw [templateRuns, join_pieceText pieceKnown, ← String.append_assoc]
          exact next [] (done ++ piece) rest restKnown
      | cons expression expressions =>
          obtain ⟨piece, v, rest, pieceKnown, valueKnown, restKnown, rfl⟩ :=
            templateText?_substitution.mp whole
          rw [templateRuns, join_pieceText pieceKnown]
          refine composes.andThen (known expression v valueKnown)
            (composes.andThen (composes.yield (.string v.toText)) ?_)
          simpa [join, String.append_assoc] using
            next expressions (done ++ piece ++ v.toText) rest restKnown

theorem nodeRuns_unary (reads : ∀ text, I.readNumber text = stringToNumber text)
    (composes : Compositional P) (known : ∀ s v, value? s = some v → P (runs s) v)
    (closed : ∀ s v, value? s = some v → b.isOpenName f s = false)
    {s argument : Slot} {operator : TokenKind} {v : Value}
    (value : (value? argument).bind (Value.applyUnary operator) = some v) :
    P (I.nodeRuns b f runs s (.unary .before operator argument)) v := by
  obtain ⟨u, operand, applied⟩ := Option.bind_eq_some_iff.mp value
  obtain ⟨notUpdate, notDelete⟩ := not_isUpdate_of_applyUnary applied
  have ordinary : (operator.isUpdate || operator == .word .delete
      || (operator == .word .«typeof» && b.isOpenName f argument)) = false := by
    simp [notUpdate, notDelete, closed argument u operand]
  simp only [nodeRuns, ordinary, Bool.false_eq_true, if_false]
  refine composes.andThen (known argument u operand) ?_
  rw [applyPrefix_of_applyUnary reads applied]
  exact composes.yield v

theorem nodeRuns_binary (composes : Compositional P)
    (known : ∀ s v, value? s = some v → P (runs s) v) {s left right : Slot}
    {operator : TokenKind} {u v r : Value} (first : value? left = some u)
    (second : value? right = some v) (applied : Value.applyBinary operator u v = some r) :
    P (I.nodeRuns b f runs s (.binary .binary left operator right)) r := by
  refine composes.andThen (known left u first) (composes.andThen (known right v second) ?_)
  rw [applyBinary_of_applyBinary applied]
  exact composes.yield r

theorem nodeRuns_logical (composes : Compositional P)
    (known : ∀ s v, value? s = some v → P (runs s) v) {s left right : Slot}
    {operator : TokenKind} {u v : Value} {keeps : Bool} (first : value? left = some u)
    (decided : Value.shortCircuits? operator u = some keeps)
    (rest : (if keeps then some u else value? right) = some v) :
    P (I.nodeRuns b f runs s (.binary .logical left operator right)) v := by
  refine composes.andThen (known left u first) ?_
  rw [keepsLeft?_primitive, decided]
  cases keeps with
  | true =>
      cases rest
      exact composes.yield u
  | false => exact known right v rest

theorem nodeRuns_conditional (composes : Compositional P)
    (known : ∀ s v, value? s = some v → P (runs s) v) {s condition whenTrue whenFalse : Slot}
    {u v : Value} (test : value? condition = some u)
    (branch : (if u.isTruthy then value? whenTrue else value? whenFalse) = some v) :
    P (I.nodeRuns b f runs s (.conditional condition whenTrue whenFalse)) v := by
  refine composes.andThen (known condition u test) ?_
  cases holds : u.isTruthy with
  | true =>
      rw [holds, if_pos rfl] at branch
      simpa [truth, holds] using known whenTrue v branch
  | false =>
      rw [holds, if_neg (by decide)] at branch
      simpa [truth, holds] using known whenFalse v branch

/-- What is known of the children of a node with a known value is known of the node. -/
theorem nodeRuns_of_nodeValue? (reads : ∀ text, I.readNumber text = stringToNumber text)
    (composes : Compositional P) (known : ∀ s v, value? s = some v → P (runs s) v)
    (closed : ∀ s v, value? s = some v → b.isOpenName f s = false)
    {s : Slot} {n : Node Slot} {v : Value} (value : b.nodeValue? value? s n = some v) :
    P (I.nodeRuns b f runs s n) v := by
  revert value
  fun_cases Bindings.nodeValue? b value? s n
  case case1 x raw => rintro ⟨⟩; exact composes.yield _
  case case2 => rintro ⟨⟩
  case case3 text raw loneSurrogate wellFormed =>
      rintro ⟨⟩
      cases loneSurrogate with
      | true => exact absurd rfl wellFormed
      | false => exact composes.yield _
  case case4 => rintro ⟨⟩; exact composes.yield _
  case case5 => rintro ⟨⟩; exact composes.yield _
  case case6 => rintro ⟨⟩
  case case7 text free =>
      intro constant
      have fixed : b.fixedName? s text = some v := by rwa [Bindings.fixedName?, if_neg free]
      simpa only [nodeRuns, fixed] using composes.yield v
  case case8 operator argument =>
      exact nodeRuns_unary reads composes known closed
  case case9 left operator right =>
      intro value
      simp only [Option.bind_eq_bind, Option.bind_eq_some_iff] at value
      obtain ⟨u, first, w, second, applied⟩ := value
      exact nodeRuns_binary composes known first second applied
  case case10 left operator right =>
      intro value
      simp only [Option.bind_eq_bind, Option.bind_eq_some_iff] at value
      obtain ⟨u, first, keeps, decided, rest⟩ := value
      exact nodeRuns_logical composes known first decided rest
  case case11 quasis expressions =>
      intro value
      obtain ⟨text, whole, rfl⟩ := Option.map_eq_some_iff.mp value
      simpa only [nodeRuns, String.empty_append] using
        templateRuns_of_templateText? composes known quasis expressions "" text whole
  case case12 condition whenTrue whenFalse =>
      intro value
      simp only [Option.bind_eq_bind, Option.bind_eq_some_iff] at value
      obtain ⟨u, test, branch⟩ := value
      exact nodeRuns_conditional composes known test branch
  case case13 => rintro ⟨⟩

/-!
## Expressions
-/

theorem isOpenName_of_valueWithin? {depth : Nat} {s : Slot} {v : Value}
    (known : b.valueWithin? f depth s = some v) : b.isOpenName f s = false := by
  cases depth with
  | zero => cases known
  | succ depth =>
      obtain ⟨n, found, value⟩ := Option.bind_eq_some_iff.mp known
      rw [Bindings.isOpenName, found]
      cases n with
      | name form text =>
          cases form with
          | identifier =>
              have fixed : b.fixedName? s text = some v := value
              simp [fixed]
          | privateName => cases value
      | _ => rfl

theorem runsWithin_onlyYields (reads : ∀ text, I.readNumber text = stringToNumber text)
    (depth level : Nat) (s : Slot) (v : Value) (known : b.valueWithin? f depth s = some v) :
    (I.runsWithin b f level s).OnlyYields v := by
  induction level generalizing depth s v with
  | zero => exact fun run => run.elim
  | succ level below =>
      cases depth with
      | zero => cases known
      | succ depth =>
          obtain ⟨n, found, value⟩ := Option.bind_eq_some_iff.mp known
          rw [runsWithin, found]
          exact nodeRuns_of_nodeValue? reads compositional_onlyYields (below depth)
            (fun _ _ => isOpenName_of_valueWithin?) value

theorem runsWithin_canYield (reads : ∀ text, I.readNumber text = stringToNumber text)
    (depth : Nat) (s : Slot) (v : Value) (known : b.valueWithin? f depth s = some v) :
    (I.runsWithin b f depth s).CanYield v := by
  induction depth generalizing s v with
  | zero => cases known
  | succ depth below =>
      obtain ⟨n, found, value⟩ := Option.bind_eq_some_iff.mp known
      rw [runsWithin, found]
      exact nodeRuns_of_nodeValue? reads compositional_canYield below
        (fun _ _ => isOpenName_of_valueWithin?) value

theorem runs_of_evaluate (reads : ∀ text, I.readNumber text = stringToNumber text)
    {s : Slot} {v : Value} (known : b.evaluate f s = some v) :
    I.runs b f s = yield v := by
  funext w effects completion w'
  refine propext ⟨?_, ?_⟩
  · rintro ⟨level, run⟩
    exact runsWithin_onlyYields reads _ level s v known run
  · rintro ⟨rfl, rfl, rfl⟩
    exact ⟨_, runsWithin_canYield reads _ s v known w'⟩

/-!
## Texts read as numbers
-/

/-- The expression `+"text"`. -/
def readingOf (text : String) : Forest :=
  ⟨#[⟨.string text none false, 0, 0, some 1⟩, ⟨.unary .before (.mark .plus) (some 0), 0, 0, none⟩]⟩

theorem evaluate_readingOf (b : Bindings) (text : String) :
    b.evaluate (readingOf text) (some 1) = some (.number (stringToNumber text)) := rfl

theorem runs_readingOf (I : Interpretation World Effect Foreign) (b : Bindings) (text : String)
    (w : World) :
    I.runs b (readingOf text) (some 1) w []
      (.normal (.primitive (.number (I.readNumber text)))) w :=
  ⟨2, .inr ⟨_, [], [], w, ⟨rfl, rfl, rfl⟩, ⟨rfl, rfl, rfl⟩, rfl⟩⟩

/-- Known values are right under an interpretation, for every forest, its bindings and every
expression in it, exactly if the interpretation reads texts as numbers as the evaluation does. -/
theorem known_values_certain_iff (I : Interpretation World Effect Foreign) :
    (∀ (b : Bindings) (f : Forest) (s : Slot) (v : Value), b.evaluate f s = some v →
      ∀ w effects completion w', I.runs b f s w effects completion w' ↔
        effects = [] ∧ completion = .normal (.primitive v) ∧ w' = w) ↔
    ∀ text, I.readNumber text = stringToNumber text := by
  constructor
  · intro certain text
    obtain ⟨-, same, -⟩ := (certain .empty (readingOf text) (some 1) _
      (evaluate_readingOf .empty text) I.start _ _ _).mp (runs_readingOf I .empty text I.start)
    injections
  · intro reads b f s v known w effects completion w'
    rw [runs_of_evaluate reads known]
    rfl

/-- The evaluation takes U+0085 for padding, which the language does not. -/
example : stringToNumber "\u0085" = 0 := rfl

end Interpretation
end Untangle
