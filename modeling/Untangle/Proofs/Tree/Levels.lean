import Untangle.Proofs.Tree.Growth

/-!
# Statements and expressions

A node is a statement, or a part of one, or else it belongs to an expression or a pattern. In a
parsed program the former are found only below nodes that may have statements below them, so that
an expression without functions and classes in it is free of them. Below a class stand members only:
static blocks, and nodes that are no statements.
-/

namespace Untangle
namespace Node

variable {α : Type}

/-- A statement, or a part of one that is no expression or pattern by itself. -/
def isStatementLevel : Node α → Bool
  | bare .emptyStatement | bare .debuggerStatement => true
  | body _ _ | variableStatement _ _ | declarator _ _ => true
  | function .declaration _ _ _ _ _ | classLike .declaration _ _ _ => true
  | operand .expressionStatement _ | operand .returnStatement _
  | operand .throwStatement _ => true
  | conditionalStatement _ _ _ | forLoop _ _ _ _ | iteration _ _ _ _ _ | guarded _ _ _ => true
  | jump _ _ | tryStatement _ _ _ | catchClause _ _ | switch _ _ | caseClause _ _ => true
  | labeled _ _ => true
  | _ => false

/-- A node that may have statements, or parts of them, among its children. -/
def surroundsStatements : Node α → Bool
  | body _ _ | variableStatement _ _ => true
  | function _ _ _ _ _ _ | classLike _ _ _ _ => true
  | conditionalStatement _ _ _ | forLoop _ _ _ _ | iteration _ _ _ _ _ | guarded _ _ _ => true
  | tryStatement _ _ _ | catchClause _ _ | switch _ _ | caseClause _ _ | labeled _ _ => true
  | _ => false

/-- A static block, or a node that is no statement. -/
def isMemberLevel : Node α → Bool
  | body .staticBlock _ => true
  | n => !n.isStatementLevel

theorem isMemberLevel_of_not_isStatementLevel {n : Node α} (h : n.isStatementLevel = false) :
    n.isMemberLevel = true := by
  unfold isMemberLevel
  split
  · rfl
  · rw [h]
    rfl

end Node

namespace Forest

/-- A node of an expression or a pattern. -/
def Inner (f : Forest) (i : NodeId) : Prop :=
  ∃ n, f.node? (some i) = some n ∧ n.isStatementLevel = false

/-- Statements only stand where statements may stand. -/
def Layered (f : Forest) : Prop :=
  ∀ ⦃p n c⦄, f.node? (some p) = some n → n.surroundsStatements = false → c ∈ childrenOf n →
    f.Inner c

/-- How near to statements a node may stand. -/
inductive Tier
  | expression | member
  deriving DecidableEq

/-- A node of an expression or a pattern, or at least no statement but a static block. -/
def Stands (f : Forest) : Tier → NodeId → Prop
  | .expression, i => f.Inner i
  | .member, i => ∃ n, f.node? (some i) = some n ∧ n.isMemberLevel = true

/-- Statements only stand where statements may stand, and none of them right below a class. -/
structure Tiered (f : Forest) : Prop where
  layered : f.Layered
  members : ∀ ⦃p n c⦄, f.node? (some p) = some n → n.isClass = true → c ∈ childrenOf n →
    f.Stands .member c

variable {f : Forest} {n : Node Slot} {start stop : Nat} {i : NodeId} {tier : Tier}

theorem tiered_empty : Forest.empty.Tiered := by
  constructor <;>
    (intro p n c hn
     cases hn)

theorem Inner.stands (h : f.Inner i) : f.Stands tier i := by
  rcases h with ⟨n, hn, hlevel⟩
  cases tier with
  | expression => exact ⟨n, hn, hlevel⟩
  | member => exact ⟨n, hn, Node.isMemberLevel_of_not_isStatementLevel hlevel⟩

theorem Stands.add (h : f.Stands tier i) : (f.add n start stop).2.Stands tier i := by
  cases tier <;>
    (rcases h with ⟨m, hm, hlevel⟩
     exact ⟨m, (node?_add_of_ne (Nat.ne_of_lt (lt_size_of_node? hm))).trans hm, hlevel⟩)

theorem inner_add_self (h : n.isStatementLevel = false) :
    (f.add n start stop).2.Inner f.size :=
  ⟨n, node?_add_self, h⟩

theorem Tiered.add (h : f.Tiered)
    (hn : n.surroundsStatements = true ∨ ∀ c ∈ childrenOf n, f.Inner c)
    (hclass : n.isClass = true → ∀ c ∈ childrenOf n, f.Stands .member c) :
    (f.add n start stop).2.Tiered := by
  constructor
  · intro p m c hm hlevel hc
    by_cases hp : p = f.size
    · subst hp
      obtain rfl := Option.some.inj (node?_add_self.symm.trans hm)
      rcases hn with hn | hn
      · cases hn.symm.trans hlevel
      · exact (show f.Stands .expression c from hn c hc).add
    · rw [node?_add_of_ne hp] at hm
      exact (show f.Stands .expression c from h.layered hm hlevel hc).add
  · intro p m c hm hm' hc
    by_cases hp : p = f.size
    · subst hp
      obtain rfl := Option.some.inj (node?_add_self.symm.trans hm)
      exact (hclass hm' c hc).add
    · rw [node?_add_of_ne hp] at hm
      exact (h.members hm hm' hc).add

end Forest
end Untangle
