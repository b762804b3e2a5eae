import Untangle.Grammar.Pattern
import Untangle.Proofs.Tree.Grown

/-!
# Roles of nodes

What may stand at a place in a tree is said by a role. A node of a given role asks for certain
roles of its children, so that roles are the states of an automaton that reads trees from the
root. Literals may still hold the defaults of shorthand properties, which only a pattern keeps.
-/

namespace Untangle

/-!
## Roles
-/

inductive Role
  /-- No pattern, and no part of one. -/
  | plain
  /-- A name that is declared, or anything that can be assigned to. -/
  | leaf (declares : Bool)
  /-- A leaf, or a pattern of them. -/
  | target (declares : Bool)
  /-- A target that may have a default. -/
  | element (declares : Bool)
  | parameter (isLast : Bool)
  | arrayEntry (declares isLast : Bool)
  | objectEntry (declares isLast : Bool)
  /-- What an iteration assigns to, or one declaration. -/
  | head
  /-- An entry of an object literal. -/
  | literalEntry
  | shorthandValue
  /-- The name of a function or class, a label, or a key that is not computed. -/
  | name
  deriving Repr, DecidableEq

namespace Role

/-- The role of a key, and of a name as one that is not computed. Nothing is asked of a slot that
may be empty. -/
def ofName (computed : Bool) (s : Slot) : Role :=
  if s.isNone || computed then .plain else .name

/-- The roles of the entries of a list, where the last one may be special. -/
def lastly {α : Type} (entry : Bool → Role) : List α → List Role
  | [] => []
  | _ :: rest => entry rest.isEmpty :: lastly entry rest

variable {α β : Type} {entry : Bool → Role}

theorem lastly_map (f : α → β) (items : List α) :
    lastly entry (items.map f) = lastly entry items := by
  induction items with
  | nil => rfl
  | cons item items ih => simp [lastly, ih]

theorem lastly_const (role : Role) (items : List α) :
    lastly (fun _ => role) items = items.map fun _ => role := by
  induction items with
  | nil => rfl
  | cons item items ih => simp [lastly, ih]

theorem length_lastly (items : List α) : (lastly entry items).length = items.length := by
  induction items with
  | nil => rfl
  | cons item items ih => simp [lastly, ih]

/-- Only the role of the last item may be special. -/
theorem mem_zip_lastly {role : Role} {item : α} {items : List α}
    (h : (item, role) ∈ items.zip (lastly entry items)) :
    ∃ before after, items = before ++ item :: after ∧ role = entry after.isEmpty := by
  induction items with
  | nil => cases h
  | cons first items ih =>
      rcases List.mem_cons.mp h with heq | h
      · obtain ⟨rfl, rfl⟩ := Prod.mk.inj heq
        exact ⟨[], items, rfl, rfl⟩
      · rcases ih h with ⟨before, after, rfl, rfl⟩
        exact ⟨first :: before, after, rfl, rfl⟩

theorem exists_mem_zip_lastly {item : α} {items : List α} (h : item ∈ items) :
    ∃ isLast, (item, entry isLast) ∈ items.zip (lastly entry items) := by
  have hlength : items.length ≤ (lastly entry items).length :=
    Nat.le_of_eq (length_lastly items).symm
  rw [← List.map_fst_zip hlength, List.mem_map] at h
  rcases h with ⟨⟨_, role⟩, hmem, rfl⟩
  rcases mem_zip_lastly hmem with ⟨_, after, _, rfl⟩
  exact ⟨after.isEmpty, hmem⟩

end Role

namespace Node

/-- The left side of an assignment may be a pattern if its operator is `=`. -/
def assignedRole (operator : TokenKind) : Role :=
  if operator == .mark .assign then .target false else .leaf false

/-- What a node that is no pattern asks of its children. -/
def plainRoles : Node Slot → Option (List Role)
  | declarator _ _ => some [.target true, .plain]
  | function _ ident parameters _ _ _ =>
      some (.ofName false ident :: Role.lastly .parameter parameters ++ [.plain])
  | classLike _ ident heritage members =>
      some (.ofName false ident :: (heritage :: members).map fun _ => .plain)
  | method _ key _ computed _ => some [.ofName computed key, .plain]
  | field key _ computed _ => some [.ofName computed key, .plain]
  | catchClause (some _) _ => some [.target true, .plain]
  | iteration _ _ _ _ _ => some [.head, .plain, .plain]
  | jump _ label => some [.ofName false label]
  | labeled label _ => some [.ofName false label, .plain]
  | access .property _ key _ _ => some [.plain, .ofName false key]
  | binary .assignment _ operator _ => some [assignedRole operator, .plain]
  | unary _ operator _ => some [if operator.isUpdate then .leaf false else .plain]
  | list .objectLiteral elements => some (elements.map fun _ => .literalEntry)
  | list .objectPattern _ => none
  | list .arrayPattern _ => none
  | operand .rest _ => none
  | binary .default _ _ _ => none
  | property _ _ _ _ => none
  | n => some (n.slots.map fun _ => .plain)

theorem plainRoles_of_isPattern {n : Node Slot} (h : n.isPattern = true) :
    n.plainRoles = none := by
  unfold isPattern at h
  split at h
  · rfl
  · rfl
  · rfl
  · rfl
  · cases h

/-- Only names are declared. -/
def isLeaf (declares : Bool) (n : Node Slot) : Bool :=
  if declares then n.identifierText?.isSome else n.isTarget

def leafRoles (declares : Bool) (n : Node Slot) : Option (List Role) :=
  if n.isLeaf declares then n.plainRoles else none

theorem isLeaf_of_leafRoles {n : Node Slot} {declares : Bool} {roles : List Role}
    (h : n.leafRoles declares = some roles) :
    n.isLeaf declares = true ∧ n.plainRoles = some roles := by
  rw [leafRoles] at h
  split at h
  · exact ⟨‹_›, h⟩
  · cases h

def targetRoles (declares : Bool) : Node Slot → Option (List Role)
  | list .arrayPattern elements => some (Role.lastly (.arrayEntry declares) elements)
  | list .objectPattern elements => some (Role.lastly (.objectEntry declares) elements)
  | n => n.leafRoles declares

def elementRoles (declares : Bool) : Node Slot → Option (List Role)
  | binary .default _ _ _ => some [.target declares, .plain]
  | n => n.targetRoles declares

/-- An element, or the rest of a list at its end. -/
def itemRoles (declares isLast : Bool) : Node Slot → Option (List Role)
  | operand .rest _ => if isLast then some [.target declares] else none
  | n => n.elementRoles declares

def arrayEntryRoles (declares isLast : Bool) : Node Slot → Option (List Role)
  | bare .omitted => some []
  | n => n.itemRoles declares isLast

/-- The rest of an object is no pattern. -/
def objectEntryRoles (declares isLast : Bool) : Node Slot → Option (List Role)
  | property .init key _ computed => some [.ofName computed key, .element declares]
  | property .shorthand key _ computed => some [.ofName computed key, .element declares]
  | operand .rest _ => if isLast then some [.leaf declares] else none
  | _ => none

def headRoles : Node Slot → Option (List Role)
  | variableStatement _ declarators => some (declarators.map fun _ => .plain)
  | n => n.targetRoles false

def literalEntryRoles : Node Slot → Option (List Role)
  | property .shorthand key _ computed => some [.ofName computed key, .shorthandValue]
  | property _ key (some _) computed => some [.ofName computed key, .plain]
  | operand .spread (some _) => some [.plain]
  | _ => none

def shorthandValueRoles : Node Slot → Option (List Role)
  | binary .default _ _ _ => some [.target false, .plain]
  | n => n.leafRoles true

/-- Nothing lies below a name. -/
def nameRoles : Node Slot → Option (List Role)
  | name _ _ => some []
  | string _ _ _ => some []
  | number _ _ => some []
  | bigInt _ => some []
  | _ => none

end Node

/-- What a node of the role asks of its children, unless it cannot have the role. -/
def Role.roles (role : Role) (n : Node Slot) : Option (List Role) :=
  match role with
  | .plain => n.plainRoles
  | .leaf declares => n.leafRoles declares
  | .target declares => n.targetRoles declares
  | .element declares => n.elementRoles declares
  | .parameter isLast => n.itemRoles true isLast
  | .arrayEntry declares isLast => n.arrayEntryRoles declares isLast
  | .objectEntry declares isLast => n.objectEntryRoles declares isLast
  | .head => n.headRoles
  | .literalEntry => n.literalEntryRoles
  | .shorthandValue => n.shorthandValueRoles
  | .name => n.nameRoles

/-!
## Roles that include others
-/

namespace Role

/-- What has the first role has the second one as well. -/
def Fits (role role' : Role) : Prop :=
  ∀ ⦃n roles⦄, role.roles n = some roles → role'.roles n = some roles

namespace Fits

variable {role role' role'' : Role} {declares isLast : Bool}

theorem refl (role : Role) : role.Fits role :=
  fun _ _ h => h

theorem trans (h : role.Fits role') (h' : role'.Fits role'') : role.Fits role'' :=
  fun _ _ hroles => h' (h hroles)

theorem leaf_plain : (leaf declares).Fits .plain :=
  fun _ _ h => (Node.isLeaf_of_leafRoles h).2

theorem leaf_target : (leaf declares).Fits (.target declares) := by
  intro n roles h
  cases n with
  | list form elements => cases form <;> cases declares <;> cases h
  | _ => exact h

theorem leaf_free : (leaf true).Fits (.leaf false) := by
  intro n roles h
  cases n with
  | name form text =>
      cases form with
      | identifier => exact h
      | privateName => cases h
  | _ => cases h

theorem target_element : (target declares).Fits (.element declares) := by
  intro n roles h
  cases n with
  | binary form left operator right => cases form <;> cases declares <;> cases h
  | _ => exact h

theorem element_parameter : (element true).Fits (.parameter isLast) := by
  intro n roles h
  cases n with
  | operand form expression => cases form <;> cases h
  | _ => exact h

theorem element_arrayEntry : (element declares).Fits (.arrayEntry declares isLast) := by
  intro n roles h
  cases n with
  | bare form => cases form <;> cases declares <;> cases h
  | operand form expression => cases form <;> cases declares <;> cases h
  | _ => exact h

theorem target_head : (target false).Fits .head := by
  intro n roles h
  cases n with
  | variableStatement kind declarators => cases h
  | _ => exact h

theorem leaf_shorthandValue : (leaf true).Fits .shorthandValue := by
  intro n roles h
  cases n with
  | binary form left operator right => cases h
  | _ => exact h

theorem name_plain : Role.name.Fits .plain := by
  intro n roles h
  cases n with
  | name _ _ | string _ _ _ | number _ _ | bigInt _ => exact h
  | _ => cases h

theorem leaf_name : (leaf true).Fits .name := by
  intro n roles h
  cases n with
  | name form text =>
      cases form with
      | identifier => exact h
      | privateName => cases h
  | _ => cases h

theorem shorthandValue_element : Role.shorthandValue.Fits (.element false) := by
  intro n roles h
  cases n with
  | binary form left operator right => cases form <;> exact h
  | _ => exact (leaf_free.trans (leaf_target.trans target_element)) h

theorem leaf_assigned (operator : TokenKind) :
    (leaf false).Fits (Node.assignedRole operator) := by
  unfold Node.assignedRole
  split
  · exact leaf_target
  · exact refl _

theorem parameter_last : (parameter false).Fits (.parameter true) := by
  intro n roles h
  cases n with
  | operand form expression => cases form <;> cases h
  | _ => exact h

theorem arrayEntry_last : (arrayEntry declares false).Fits (.arrayEntry declares true) := by
  intro n roles h
  cases n with
  | bare form => cases form <;> exact h
  | operand form expression => cases form <;> cases declares <;> cases h
  | _ => exact h

theorem objectEntry_last : (objectEntry declares false).Fits (.objectEntry declares true) := by
  intro n roles h
  cases n with
  | property kind key value computed => cases kind <;> exact h
  | operand form expression => cases form <;> cases h
  | _ => exact h

end Fits

/-!
## Rules
-/

/-- A place for a pattern, and whether the pattern declares its names. -/
def pattern? : Role → Option Bool
  | target declares => some declares
  | element declares => some declares
  | parameter _ => some true
  | arrayEntry declares _ => some declares
  | objectEntry declares _ => some declares
  | head => some false
  | _ => none

/-- A place for a leaf, or for a pattern that has leaves. -/
def leaf? : Role → Option Bool
  | leaf declares => some declares
  | role => role.pattern?

/-- What nodes of a role ask for. Nodes that are no part of a pattern ask the same in all roles. -/
inductive Rule (role : Role) : Node Slot → List Role → Prop
  | plain {n roles} (hleaf : ∀ declares ∈ role.leaf?, n.isLeaf declares = true)
      (hplain : n.plainRoles = some roles) : Rule role n roles
  | hole {declares} (hrole : role.pattern? = some declares) : Rule role (.bare .omitted) []
  | declaration {kind declarators} (hrole : role = .head) :
      Rule role (.variableStatement kind declarators) (declarators.map fun _ => .plain)
  | array {declares elements} (hrole : role.pattern? = some declares) :
      Rule role (.list .arrayPattern elements) (lastly (.arrayEntry declares) elements)
  | object {declares elements} (hrole : role.pattern? = some declares) :
      Rule role (.list .objectPattern elements) (lastly (.objectEntry declares) elements)
  | default {declares left operator right} (hrole : role.pattern? = some declares) :
      Rule role (.binary .default left operator right) [.target declares, .plain]
  | shorthand {left operator right} (hrole : role = .shorthandValue) :
      Rule role (.binary .default left operator right) [.target false, .plain]
  | arrayRest {declares argument} (hrole : role.pattern? = some declares) :
      Rule role (.operand .rest argument) [.target declares]
  | objectRest {declares argument} (hrole : role.pattern? = some declares) :
      Rule role (.operand .rest argument) [.leaf declares]
  | property {declares kind key value computed} (hrole : role.pattern? = some declares)
      (hkind : kind = .init ∨ kind = .shorthand) :
      Rule role (.property kind key value computed) [.ofName computed key, .element declares]
  | literal {valueRole kind key value computed} (hrole : role = .literalEntry)
      (hvalue : valueRole = .plain ∨ valueRole = .shorthandValue) :
      Rule role (.property kind key value computed) [.ofName computed key, valueRole]

section Rule

variable {role : Role} {n : Node Slot} {roles : List Role} {declares isLast : Bool}

theorem leaf?_of_pattern? (h : role.pattern? = some declares) : role.leaf? = some declares := by
  cases role with
  | leaf declares' => cases h
  | _ => exact h

theorem rule_of_leafRoles (hrole : role.leaf? = some declares)
    (h : n.leafRoles declares = some roles) : role.Rule n roles := by
  rcases Node.isLeaf_of_leafRoles h with ⟨hleaf, hplain⟩
  refine .plain (fun declares' hmem => ?_) hplain
  obtain rfl := Option.some.inj (hrole.symm.trans hmem)
  exact hleaf

theorem rule_of_targetRoles (hrole : role.pattern? = some declares)
    (h : n.targetRoles declares = some roles) : role.Rule n roles := by
  unfold Node.targetRoles at h
  split at h
  · obtain rfl := Option.some.inj h
    exact .array hrole
  · obtain rfl := Option.some.inj h
    exact .object hrole
  · exact rule_of_leafRoles (leaf?_of_pattern? hrole) h

theorem rule_of_elementRoles (hrole : role.pattern? = some declares)
    (h : n.elementRoles declares = some roles) : role.Rule n roles := by
  unfold Node.elementRoles at h
  split at h
  · obtain rfl := Option.some.inj h
    exact .default hrole
  · exact rule_of_targetRoles hrole h

theorem rule_of_itemRoles (hrole : role.pattern? = some declares)
    (h : n.itemRoles declares isLast = some roles) : role.Rule n roles := by
  unfold Node.itemRoles at h
  split at h
  · split at h
    · obtain rfl := Option.some.inj h
      exact .arrayRest hrole
    · cases h
  · exact rule_of_elementRoles hrole h

theorem rule_of_roles (h : role.roles n = some roles) : role.Rule n roles := by
  cases role with
  | plain => exact .plain nofun h
  | leaf declares => exact rule_of_leafRoles rfl h
  | target declares => exact rule_of_targetRoles rfl h
  | element declares => exact rule_of_elementRoles rfl h
  | parameter isLast => exact rule_of_itemRoles rfl h
  | arrayEntry declares isLast =>
      change n.arrayEntryRoles declares isLast = some roles at h
      unfold Node.arrayEntryRoles at h
      split at h
      · obtain rfl := Option.some.inj h
        exact .hole rfl
      · exact rule_of_itemRoles rfl h
  | objectEntry declares isLast =>
      change n.objectEntryRoles declares isLast = some roles at h
      unfold Node.objectEntryRoles at h
      split at h
      · obtain rfl := Option.some.inj h
        exact .property rfl (.inl rfl)
      · obtain rfl := Option.some.inj h
        exact .property rfl (.inr rfl)
      · split at h
        · obtain rfl := Option.some.inj h
          exact .objectRest rfl
        · cases h
      · cases h
  | head =>
      change n.headRoles = some roles at h
      unfold Node.headRoles at h
      split at h
      · obtain rfl := Option.some.inj h
        exact .declaration rfl
      · exact rule_of_targetRoles rfl h
  | literalEntry =>
      change n.literalEntryRoles = some roles at h
      unfold Node.literalEntryRoles at h
      split at h
      · obtain rfl := Option.some.inj h
        exact .literal rfl (.inr rfl)
      · obtain rfl := Option.some.inj h
        exact .literal rfl (.inl rfl)
      · exact .plain nofun h
      · cases h
  | shorthandValue =>
      change n.shorthandValueRoles = some roles at h
      unfold Node.shorthandValueRoles at h
      split at h
      · obtain rfl := Option.some.inj h
        exact .shorthand rfl
      · exact .plain nofun (Node.isLeaf_of_leafRoles h).2
  | name => exact .plain nofun (Fits.name_plain h)

/-- What may be plain asks for the same in every role. -/
theorem eq_of_plainRoles {roles' : List Role} (h : role.roles n = some roles)
    (hplain : n.plainRoles = some roles') : roles = roles' := by
  cases rule_of_roles h with
  | plain _ h => exact Option.some.inj (h.symm.trans hplain)
  | hole _ => exact Option.some.inj hplain
  | declaration _ => exact Option.some.inj hplain
  | _ => cases hplain

end Rule
end Role
end Untangle
