import Untangle.Proofs.Grammar.Programs
import Untangle.Proofs.Tree.Edits

/-!
# Where patterns stand

Patterns and the targets of assignments stand where the language has a place for them, whether
they were read as patterns or first as literals. The role of a node says what may stand below it,
so that the places are found on the way down from the root of a program.
-/

namespace Untangle

/-- Nodes that group the leaves of a pattern, and the holes between them. -/
def Node.groupsLeaves {α : Type} : Node α → Bool
  | property _ _ _ _ => true
  | bare .omitted => true
  | n => n.isPattern

namespace Forest

open Relation Role

/-!
## Places
-/

/-- What a declaration, a function or an exception handler binds. -/
inductive Declared (f : Forest) (i : NodeId) : Prop
  | declarator {j initializer} (hn : f.node? (some j) = some (.declarator (some i) initializer))
  | parameter {j form ident parameters code isAsync isGenerator}
      (hn : f.node? (some j) = some (.function form ident parameters code isAsync isGenerator))
      (hmem : some i ∈ parameters)
  | caught {j block} (hn : f.node? (some j) = some (.catchClause (some i) block))

/-- The first node is what the pattern, or the property of a pattern, at the second one takes
apart. Keys and default values are no parts. -/
inductive PatternPart (f : Forest) (i j : NodeId) : Prop
  | element {elements} (hn : f.node? (some j) = some (.list .arrayPattern elements))
      (hmem : some i ∈ elements)
  | property {elements} (hn : f.node? (some j) = some (.list .objectPattern elements))
      (hmem : some i ∈ elements)
  | value {kind key computed}
      (hn : f.node? (some j) = some (.property kind key (some i) computed))
  | target {operator right}
      (hn : f.node? (some j) = some (.binary .default (some i) operator right))
  | argument (hn : f.node? (some j) = some (.operand .rest (some i)))

/-- The places for patterns. -/
inductive PatternSite (f : Forest) : NodeId → Prop
  | declared {i} (h : f.Declared i) : f.PatternSite i
  | assigned {i j right}
      (hn : f.node? (some j) = some (.binary .assignment (some i) (.mark .assign) right)) :
      f.PatternSite i
  | iterated {i j form subject statement isAwait}
      (hn : f.node? (some j) = some (.iteration form (some i) subject statement isAwait)) :
      f.PatternSite i
  | inside {i j} (hpart : f.PatternPart i j) (hsite : f.PatternSite j) : f.PatternSite i

/-- The node is the last entry of its list. -/
def LastEntry (f : Forest) (i : NodeId) : Prop :=
  ∃ j n before, f.node? (some j) = some n ∧ n.entries? = some (before ++ [some i])

/-- What object patterns are made of. -/
inductive ObjectEntry (f : Forest) (s : Slot) : Prop
  | property {kind key value computed} (hn : f.node? s = some (.property kind key value computed))
      (hkind : kind = .init ∨ kind = .shorthand)
  | rest {argument} (hn : f.node? s = some (.operand .rest argument))

/-- A name, or a member that is not reached through an optional chain. -/
inductive SimpleTarget (f : Forest) (i : NodeId) : Prop
  | name {text} (hn : f.node? (some i) = some (.name .identifier text))
  | member {form object key isOptional}
      (hn : f.node? (some i) = some (.access form object key isOptional false))

/-- A pattern of several targets. -/
inductive PatternList (f : Forest) (i : NodeId) : Prop
  | array {elements} (hn : f.node? (some i) = some (.list .arrayPattern elements))
  | object {elements} (hn : f.node? (some i) = some (.list .objectPattern elements))

/-- A node that the pattern at the second one binds or assigns to. -/
structure Leaf (f : Forest) (i j : NodeId) : Prop where
  path : ReflTransGen f.PatternPart i j
  single : f.satisfies (some i) fun n => !n.groupsLeaves

/-- Patterns and the targets of assignments stand in their places. -/
structure PatternsPlaced (f : Forest) : Prop where
  site : ∀ {i n}, f.node? (some i) = some n → n.isPattern → f.PatternSite i
  rest : ∀ {i argument}, f.node? (some i) = some (.operand .rest argument) → f.LastEntry i
  entry : ∀ {i elements}, f.node? (some i) = some (.list .objectPattern elements) →
    ∀ s ∈ elements, f.ObjectEntry s
  /-- An object literal keeps no default of a shorthand property. -/
  literal : ∀ {i elements}, f.node? (some i) = some (.list .objectLiteral elements) →
    ∀ {s kind key value computed}, s ∈ elements →
      f.node? s = some (.property kind key value computed) →
        ∀ {left operator right}, f.node? value ≠ some (.binary .default left operator right)
  assigned : ∀ {i left operator right},
    f.node? (some i) = some (.binary .assignment left operator right) →
      ∃ c, left = some c ∧ (f.SimpleTarget c ∨ operator = .mark .assign ∧ f.PatternList c)
  updated : ∀ {i form operator argument},
    f.node? (some i) = some (.unary form operator argument) → operator.isUpdate →
      ∃ c, argument = some c ∧ f.SimpleTarget c
  /-- An iteration declares variables, or assigns to a target. -/
  iterated : ∀ {i form target subject statement isAwait},
    f.node? (some i) = some (.iteration form target subject statement isAwait) →
      ∃ c, target = some c ∧
        ((∃ kind declarators, f.node? (some c) = some (.variableStatement kind declarators)) ∨
          f.SimpleTarget c ∨ f.PatternList c)
  leaf : ∀ {i j}, f.Declared j → f.Leaf i j →
    ∃ text, f.node? (some i) = some (.name .identifier text)

variable {f : Forest} {c i j : NodeId} {n : Node Slot} {role role' : Role} {roles : List Role}

/-!
## Targets
-/

theorem simpleTarget_of_isTarget (hn : f.node? (some i) = some n) (h : n.isTarget = true) :
    f.SimpleTarget i := by
  cases n with
  | name form text =>
      cases form with
      | identifier => exact .name hn
      | privateName => cases h
  | access form object key isOptional inChain =>
      cases inChain with
      | false => exact .member hn
      | true => cases h
  | _ => cases h

theorem HasRole.simpleTarget (h : f.HasRole (.leaf false) i) : f.SimpleTarget i := by
  cases h with
  | node hn hheld _ =>
      rcases Option.bind_eq_some_iff.mp hheld with ⟨roles, hroles, _⟩
      exact simpleTarget_of_isTarget hn (Node.isLeaf_of_leafRoles hroles).1

theorem HasRole.simpleTarget_or_patternList (h : f.HasRole (.target false) i) :
    f.SimpleTarget i ∨ f.PatternList i := by
  cases h with
  | @node _ _ n held hn hheld _ =>
      rcases Option.bind_eq_some_iff.mp hheld with ⟨roles, hroles, _⟩
      change n.targetRoles false = some roles at hroles
      unfold Node.targetRoles at hroles
      split at hroles
      · exact .inr (.array hn)
      · exact .inr (.object hn)
      · exact .inl (simpleTarget_of_isTarget hn (Node.isLeaf_of_leafRoles hroles).1)

theorem HasRole.assignedTarget {operator : TokenKind}
    (h : f.HasRole (Node.assignedRole operator) i) :
    f.SimpleTarget i ∨ operator = .mark .assign ∧ f.PatternList i := by
  unfold Node.assignedRole at h
  split at h
  · next hoperator =>
      exact h.simpleTarget_or_patternList.imp_right fun hlist => ⟨beq_iff_eq.mp hoperator, hlist⟩
  · exact .inl h.simpleTarget

theorem HasRole.iteratedTarget (h : f.HasRole .head i) :
    (∃ kind declarators, f.node? (some i) = some (.variableStatement kind declarators)) ∨
      f.SimpleTarget i ∨ f.PatternList i := by
  cases h with
  | @node _ _ n held hn hheld hchildren =>
      by_cases hstatement : ∃ kind declarators, n = .variableStatement kind declarators
      · rcases hstatement with ⟨kind, declarators, rfl⟩
        exact .inl ⟨kind, declarators, hn⟩
      · have hheld' : Role.held? (.target false) n = some held := by
          cases n with
          | variableStatement kind declarators => exact absurd ⟨_, _, rfl⟩ hstatement
          | _ => exact hheld
        exact .inr (HasRole.node hn hheld' hchildren).simpleTarget_or_patternList

/-!
## Leaves
-/

/-- A part of a pattern that declares its names does so as well. -/
theorem HasRole.part (h : f.HasRole role j) (hrole : role.leaf? = some true)
    (hpart : f.PatternPart i j) : ∃ role', f.HasRole role' i ∧ role'.leaf? = some true := by
  -- Only rules for patterns fit such a role, and they declare what the role declares.
  have hdeclares : ∀ {declares}, role.pattern? = some declares → declares = true :=
    fun hpattern => Option.some.inj ((leaf?_of_pattern? hpattern).symm.trans hrole)
  cases hpart with
  | element hn hmem =>
      rcases h.asks hn with ⟨roles, hroles, hasks⟩
      cases rule_of_roles hroles with
      | plain hleaf _ => cases hleaf true hrole
      | array hpattern =>
          obtain rfl := hdeclares hpattern
          rcases exists_mem_zip_lastly hmem with ⟨isLast, hzip⟩
          exact ⟨_, hasks.child hzip, rfl⟩
  | property hn hmem =>
      rcases h.asks hn with ⟨roles, hroles, hasks⟩
      cases rule_of_roles hroles with
      | plain hleaf _ => cases hleaf true hrole
      | object hpattern =>
          obtain rfl := hdeclares hpattern
          rcases exists_mem_zip_lastly hmem with ⟨isLast, hzip⟩
          exact ⟨_, hasks.child hzip, rfl⟩
  | value hn =>
      rcases h.asks hn with ⟨roles, hroles, hasks⟩
      cases rule_of_roles hroles with
      | plain hleaf _ => cases hleaf true hrole
      | property hpattern _ =>
          obtain rfl := hdeclares hpattern
          exact ⟨_, hasks.child (List.mem_cons_of_mem _ List.mem_cons_self), rfl⟩
      | literal hliteral _ =>
          subst hliteral
          cases hrole
  | target hn =>
      rcases h.asks hn with ⟨roles, hroles, hasks⟩
      cases rule_of_roles hroles with
      | plain hleaf _ => cases hleaf true hrole
      | default hpattern =>
          obtain rfl := hdeclares hpattern
          exact ⟨_, hasks.child List.mem_cons_self, rfl⟩
      | shorthand hshorthand =>
          subst hshorthand
          cases hrole
  | argument hn =>
      rcases h.asks hn with ⟨roles, hroles, hasks⟩
      cases rule_of_roles hroles with
      | plain hleaf _ => cases hleaf true hrole
      | arrayRest hpattern =>
          obtain rfl := hdeclares hpattern
          exact ⟨_, hasks.child List.mem_cons_self, rfl⟩
      | objectRest hpattern =>
          obtain rfl := hdeclares hpattern
          exact ⟨_, hasks.child List.mem_cons_self, rfl⟩

theorem HasRole.leaf_of_path (h : f.HasRole role j) (hrole : role.leaf? = some true)
    (hpath : ReflTransGen f.PatternPart i j) :
    ∃ role', f.HasRole role' i ∧ role'.leaf? = some true := by
  induction hpath using ReflTransGen.head_induction_on with
  | refl => exact ⟨role, h, hrole⟩
  | head hpart _ ih =>
      rcases ih with ⟨role', h', hrole'⟩
      exact h'.part hrole' hpart

/-- What is declared is a name. -/
theorem HasRole.name_of_leaf (h : f.HasRole role j) (hrole : role.leaf? = some true)
    (hleaf : f.Leaf i j) : ∃ text, f.node? (some i) = some (.name .identifier text) := by
  rcases h.leaf_of_path hrole hleaf.path with ⟨role', h', hrole'⟩
  rcases (Option.any_eq_true _ _).mp hleaf.single with ⟨n, hn, hsingle⟩
  rcases h'.asks hn with ⟨roles, hroles, _⟩
  cases rule_of_roles hroles with
  | plain hnode _ =>
      cases n with
      | name form text =>
          cases form with
          | identifier => exact ⟨text, hn⟩
          | privateName => cases hnode true hrole'
      | _ => cases hnode true hrole'
  | declaration hhead =>
      subst hhead
      cases hrole'
  | _ => cases hsingle

/-!
## The way down
-/

/-- What the role of a node says about its place. The role of a shorthand value also fits a default,
but the check at the end of a program finds those. -/
def Sited (f : Forest) (i : NodeId) : Role → Prop
  | .plain => True
  | .name => True
  | .leaf _ => True
  | .target _ => f.PatternSite i
  | .element _ => f.PatternSite i
  | .parameter isLast => f.PatternSite i ∧ (isLast → f.LastEntry i)
  | .arrayEntry _ isLast => f.PatternSite i ∧ (isLast → f.LastEntry i)
  | .objectEntry _ isLast => f.PatternSite i ∧ (isLast → f.LastEntry i)
  | .head => f.PatternSite i
  | .literalEntry => ∃ elements, f.node? (f.parent (some i)) = some (.list .objectLiteral elements)
  | .shorthandValue =>
      ∀ left operator right, f.node? (some i) ≠ some (.binary .default left operator right)

namespace Sited

theorem site {declares : Bool} (h : f.Sited i role) (hrole : role.pattern? = some declares) :
    f.PatternSite i := by
  cases role with
  | target _ => exact h
  | element _ => exact h
  | parameter _ => exact h.1
  | arrayEntry _ _ => exact h.1
  | objectEntry _ _ => exact h.1
  | head => exact h
  | _ => cases hrole

/-- The role of a rest element says that it is the last one. -/
theorem lastEntry {argument : Slot} (h : f.Sited i role)
    (hroles : role.roles (.operand .rest argument) = some roles) : f.LastEntry i := by
  cases role with
  | parameter isLast =>
      cases isLast with
      | false => cases hroles
      | true => exact h.2 rfl
  | arrayEntry _ isLast =>
      cases isLast with
      | false => cases hroles
      | true => exact h.2 rfl
  | objectEntry _ isLast =>
      cases isLast with
      | false => cases hroles
      | true => exact h.2 rfl
  | leaf declares => cases declares <;> cases hroles
  | target declares => cases declares <;> cases hroles
  | element declares => cases declares <;> cases hroles
  | _ => cases hroles

theorem of_mem_plain (slots : List Slot)
    (h : (some c, role) ∈ slots.zip (slots.map fun _ => .plain)) : f.Sited c role := by
  rcases List.mem_map.mp (List.of_mem_zip h).2 with ⟨_, _, rfl⟩
  trivial

theorem ofName (computed : Bool) (s : Slot) : f.Sited c (.ofName computed s) := by
  unfold Role.ofName
  split <;> trivial

theorem of_mem_cons {s : Slot} {slots : List Slot}
    (h : (some c, role) ∈ (s :: slots).zip (role' :: roles)) (hfirst : s = some c → f.Sited c role')
    (hrest : (some c, role) ∈ slots.zip roles → f.Sited c role) : f.Sited c role := by
  rcases List.mem_cons.mp h with heq | h
  · obtain ⟨rfl, rfl⟩ := Prod.mk.inj heq
    exact hfirst rfl
  · exact hrest h

/-- The last entry of a list is told apart from the others. -/
theorem of_mem_lastly {entry : Bool → Role} {entries : List Slot}
    (hn : f.node? (some j) = some n) (hentries : n.entries? = some entries)
    (h : (some c, role) ∈ entries.zip (lastly entry entries))
    (hentry : ∀ isLast : Bool, (isLast → f.LastEntry c) → f.Sited c (entry isLast)) :
    f.Sited c role := by
  rcases mem_zip_lastly h with ⟨before, after, rfl, rfl⟩
  refine hentry _ fun hlast => ⟨j, n, before, hn, ?_⟩
  rw [hentries, List.isEmpty_iff.mp hlast]

/-- Below a node that is no pattern. -/
theorem child_of_plainRoles (hn : f.node? (some j) = some n) (hlink : f.Link c j)
    (hplain : n.plainRoles = some roles) (hc : (some c, role) ∈ n.slots.zip roles) :
    f.Sited c role := by
  cases n with
  | declarator ident initializer =>
      obtain rfl := Option.some.inj hplain
      refine of_mem_cons hc (fun h => .declared (.declarator (h ▸ hn))) ?_
      exact of_mem_plain [initializer]
  | function form ident parameters code isAsync isGenerator =>
      obtain rfl := Option.some.inj hplain
      refine of_mem_cons hc (fun _ => ofName ..) fun hc => ?_
      change (some c, role) ∈
        (parameters ++ [code]).zip (lastly parameter parameters ++ [plain]) at hc
      rw [List.zip_append (length_lastly _).symm, List.mem_append] at hc
      rcases hc with hc | hc
      · refine of_mem_lastly hn rfl hc fun isLast hlast => ⟨?_, hlast⟩
        exact .declared (.parameter hn (List.of_mem_zip hc).1)
      · exact of_mem_plain [code] hc
  | catchClause binding block =>
      cases binding with
      | none =>
          obtain rfl := Option.some.inj hplain
          exact of_mem_plain _ hc
      | some binding =>
          obtain rfl := Option.some.inj hplain
          refine of_mem_cons hc (fun h => .declared (.caught (h ▸ hn))) ?_
          exact of_mem_plain [block]
  | iteration form target subject statement isAwait =>
      obtain rfl := Option.some.inj hplain
      refine of_mem_cons hc (fun h => .iterated (h ▸ hn)) ?_
      exact of_mem_plain [subject, statement]
  | binary form left operator right =>
      cases form with
      | assignment =>
          obtain rfl := Option.some.inj hplain
          refine of_mem_cons hc (fun h => ?_) (of_mem_plain [right])
          unfold Node.assignedRole
          split
          · next hoperator =>
              subst h
              obtain rfl := beq_iff_eq.mp hoperator
              exact .assigned hn
          · trivial
      | default => cases hplain
      | _ =>
          obtain rfl := Option.some.inj hplain
          exact of_mem_plain _ hc
  | unary form operator argument =>
      obtain rfl := Option.some.inj hplain
      refine of_mem_cons hc (fun h => ?_) nofun
      split <;> trivial
  | list form elements =>
      cases form with
      | objectLiteral =>
          obtain rfl := Option.some.inj hplain
          rcases List.mem_map.mp (List.of_mem_zip hc).2 with ⟨_, _, rfl⟩
          exact ⟨elements, hlink ▸ hn⟩
      | objectPattern => cases hplain
      | arrayPattern => cases hplain
      | _ =>
          obtain rfl := Option.some.inj hplain
          exact of_mem_plain _ hc
  | operand form argument =>
      cases form with
      | rest => cases hplain
      | _ =>
          obtain rfl := Option.some.inj hplain
          exact of_mem_plain _ hc
  | classLike form ident heritage members =>
      obtain rfl := Option.some.inj hplain
      exact of_mem_cons hc (fun _ => ofName ..) (of_mem_plain (heritage :: members))
  | method kind key value computed isStatic =>
      obtain rfl := Option.some.inj hplain
      exact of_mem_cons hc (fun _ => ofName ..) (of_mem_plain [value])
  | field key value computed isStatic =>
      obtain rfl := Option.some.inj hplain
      exact of_mem_cons hc (fun _ => ofName ..) (of_mem_plain [value])
  | jump form label =>
      obtain rfl := Option.some.inj hplain
      exact of_mem_cons hc (fun _ => ofName ..) nofun
  | labeled label statement =>
      obtain rfl := Option.some.inj hplain
      exact of_mem_cons hc (fun _ => ofName ..) (of_mem_plain [statement])
  | access form object key isOptional inChain =>
      cases form with
      | property =>
          obtain rfl := Option.some.inj hplain
          refine of_mem_cons hc (fun _ => trivial) fun hc => ?_
          exact of_mem_cons hc (fun _ => ofName ..) nofun
      | element =>
          obtain rfl := Option.some.inj hplain
          exact of_mem_plain _ hc
  | property kind key value computed => cases hplain
  | _ =>
      obtain rfl := Option.some.inj hplain
      exact of_mem_plain _ hc

/-- What the role of a node says about its place tells what the roles of its children say. -/
theorem child (hstray : ∀ i, ¬ f.StrayShorthand i) (h : f.Sited j role)
    (hn : f.node? (some j) = some n) (hlink : f.Link c j) (hroles : role.roles n = some roles)
    (hc : (some c, role') ∈ n.slots.zip roles) : f.Sited c role' := by
  cases rule_of_roles hroles with
  | plain _ hplain => exact child_of_plainRoles hn hlink hplain hc
  | hole _ => cases hc
  | declaration _ => exact of_mem_plain _ hc
  | array hpattern =>
      refine of_mem_lastly hn rfl hc fun isLast hlast => ⟨?_, hlast⟩
      exact .inside (.element hn (List.of_mem_zip hc).1) (h.site hpattern)
  | object hpattern =>
      refine of_mem_lastly hn rfl hc fun isLast hlast => ⟨?_, hlast⟩
      exact .inside (.property hn (List.of_mem_zip hc).1) (h.site hpattern)
  | @default _ left operator right hpattern =>
      refine of_mem_cons hc (fun heq => ?_) (of_mem_plain [right])
      exact .inside (.target (heq ▸ hn)) (h.site hpattern)
  | shorthand hshorthand =>
      subst hshorthand
      exact absurd hn (h _ _ _)
  | arrayRest hpattern =>
      refine of_mem_cons hc (fun heq => ?_) nofun
      exact .inside (.argument (heq ▸ hn)) (h.site hpattern)
  | objectRest _ => exact of_mem_cons hc (fun _ => trivial) nofun
  | property hpattern _ =>
      refine of_mem_cons hc (fun _ => ofName ..) fun hc => of_mem_cons hc (fun heq => ?_) nofun
      exact .inside (.value (heq ▸ hn)) (h.site hpattern)
  | @literal valueRole kind key value computed hliteral hvalue =>
      subst hliteral
      rcases h with ⟨elements, hparent⟩
      refine of_mem_cons hc (fun _ => ofName ..) fun hc => of_mem_cons hc (fun heq => ?_) nofun
      rcases hvalue with rfl | rfl
      · trivial
      · intro left operator right hdefault
        subst heq
        exact hstray j ⟨kind, key, some c, computed, left, operator, right, elements, hn, hdefault,
          hparent⟩

end Sited

/-- Every node of a program has a role that fits its place. -/
theorem Grown.exists_sited {root : NodeId} (hf : f.Grown [root]) (hroot : f.HasRole .plain root)
    (hstray : ∀ i, ¬ f.StrayShorthand i) (hn : f.node? (some i) = some n) :
    ∃ role, f.HasRole role i ∧ f.Sited i role := by
  rcases hf.exists_root (lt_size_of_node? hn) with ⟨r, hr, hpath⟩
  obtain rfl := List.mem_singleton.mp hr
  clear hn
  -- Each step of the path hands a role from a parent to its child, beginning with the plain root.
  induction hpath using ReflTransGen.head_induction_on with
  | refl => exact ⟨.plain, hroot, trivial⟩
  | @head c j hlink _ ih =>
      rcases ih with ⟨role, hrole, hsite⟩
      rcases hf.wellFormed.exists_owner hlink with ⟨n, hn, hmem, _⟩
      rcases hrole.asks hn with ⟨roles, hroles, hasks⟩
      rcases hasks.exists_role hmem with ⟨role', hzip⟩
      exact ⟨role', hasks.child hzip, hsite.child hstray hn hlink hroles hzip⟩

/-!
## Patterns and targets in their places
-/

theorem Sited.site_of_isPattern (h : f.Sited i role) (hn : f.node? (some i) = some n)
    (hroles : role.roles n = some roles) (hpattern : n.isPattern) : f.PatternSite i := by
  cases rule_of_roles hroles with
  | plain _ hplain => cases (Node.plainRoles_of_isPattern hpattern).symm.trans hplain
  | array hrole => exact h.site hrole
  | object hrole => exact h.site hrole
  | default hrole => exact h.site hrole
  | shorthand hshorthand =>
      subst hshorthand
      exact absurd hn (h _ _ _)
  | arrayRest hrole => exact h.site hrole
  | objectRest hrole => exact h.site hrole
  | _ => cases hpattern

namespace HasRole

theorem objectEntry {declares isLast : Bool} (h : f.HasRole (.objectEntry declares isLast) i) :
    f.ObjectEntry (some i) := by
  cases h with
  | @node _ _ n held hn hheld _ =>
      rcases Option.bind_eq_some_iff.mp hheld with ⟨roles, hroles, _⟩
      change n.objectEntryRoles declares isLast = some roles at hroles
      unfold Node.objectEntryRoles at hroles
      split at hroles
      · exact .property hn (.inl rfl)
      · exact .property hn (.inr rfl)
      · exact .rest hn
      · cases hroles

theorem objectEntry_of_mem {elements : List Slot} {s : Slot} (h : f.HasRole role i)
    (hn : f.node? (some i) = some (.list .objectPattern elements)) (hs : s ∈ elements) :
    f.ObjectEntry s := by
  rcases h.asks hn with ⟨roles, hroles, hasks⟩
  cases rule_of_roles hroles with
  | plain _ hplain => cases hplain
  | object _ =>
      rcases exists_mem_zip_lastly hs with ⟨isLast, hzip⟩
      rcases hasks.exists_child hzip nofun with ⟨c, rfl, hc⟩
      exact hc.objectEntry

theorem assigned {left right : Slot} {operator : TokenKind} (h : f.HasRole role i)
    (hn : f.node? (some i) = some (.binary .assignment left operator right)) :
    ∃ c, left = some c ∧ (f.SimpleTarget c ∨ operator = .mark .assign ∧ f.PatternList c) := by
  have hleft : Node.assignedRole operator ≠ .plain := by
    unfold Node.assignedRole
    split <;> nofun
  rcases (h.asks_of_plainRoles hn rfl).exists_child List.mem_cons_self hleft with ⟨c, rfl, hc⟩
  exact ⟨c, rfl, hc.assignedTarget⟩

theorem updated {form : UnaryForm} {operator : TokenKind} {argument : Slot} (h : f.HasRole role i)
    (hn : f.node? (some i) = some (.unary form operator argument)) (hupdate : operator.isUpdate) :
    ∃ c, argument = some c ∧ f.SimpleTarget c := by
  have hasks := h.asks_of_plainRoles hn rfl
  rw [if_pos hupdate] at hasks
  rcases hasks.exists_child List.mem_cons_self nofun with ⟨c, rfl, hc⟩
  exact ⟨c, rfl, hc.simpleTarget⟩

theorem iterated {form : IterationForm} {target subject statement : Slot} {isAwait : Bool}
    (h : f.HasRole role i)
    (hn : f.node? (some i) = some (.iteration form target subject statement isAwait)) :
    ∃ c, target = some c ∧
      ((∃ kind declarators, f.node? (some c) = some (.variableStatement kind declarators)) ∨
        f.SimpleTarget c ∨ f.PatternList c) := by
  rcases (h.asks_of_plainRoles hn rfl).exists_child List.mem_cons_self nofun with ⟨c, rfl, hc⟩
  exact ⟨c, rfl, hc.iteratedTarget⟩

theorem parameter {form : FunctionForm} {ident code : Slot} {parameters : List Slot}
    {isAsync isGenerator : Bool} (h : f.HasRole role i)
    (hn : f.node? (some i) = some (.function form ident parameters code isAsync isGenerator))
    (hc : some c ∈ parameters) : ∃ isLast, f.HasRole (.parameter isLast) c := by
  rcases @exists_mem_zip_lastly _ .parameter _ _ hc with ⟨isLast, hzip⟩
  refine ⟨isLast, (h.asks_of_plainRoles hn rfl).child (List.mem_cons_of_mem _ ?_)⟩
  change _ ∈ (parameters ++ [code]).zip (lastly .parameter parameters ++ [.plain])
  rw [List.zip_append (length_lastly _).symm]
  exact List.mem_append_left _ hzip

end HasRole

/-- What is declared has a role that declares its names. -/
theorem Declared.exists_role (h : f.Declared i)
    (hroles : ∀ {j n}, f.node? (some j) = some n → ∃ role, f.HasRole role j) :
    ∃ role, f.HasRole role i ∧ role.leaf? = some true := by
  cases h with
  | declarator hn =>
      rcases hroles hn with ⟨role, hrole⟩
      exact ⟨_, (hrole.asks_of_plainRoles hn rfl).child List.mem_cons_self, rfl⟩
  | parameter hn hmem =>
      rcases hroles hn with ⟨role, hrole⟩
      rcases hrole.parameter hn hmem with ⟨isLast, hparameter⟩
      exact ⟨_, hparameter, rfl⟩
  | caught hn =>
      rcases hroles hn with ⟨role, hrole⟩
      exact ⟨_, (hrole.asks_of_plainRoles hn rfl).child List.mem_cons_self, rfl⟩

theorem Grown.patternsPlaced {root : NodeId} (hf : f.Grown [root]) (hroot : f.HasRole .plain root)
    (hstray : ∀ i, ¬ f.StrayShorthand i) : f.PatternsPlaced := by
  have hsited : ∀ {i n}, f.node? (some i) = some n → ∃ role, f.HasRole role i ∧ f.Sited i role :=
    hf.exists_sited hroot hstray
  constructor
  case site =>
    intro i n hn hpattern
    rcases hsited hn with ⟨role, hrole, hsite⟩
    rcases hrole.asks hn with ⟨roles, hroles, _⟩
    exact hsite.site_of_isPattern hn hroles hpattern
  case rest =>
    intro i argument hn
    rcases hsited hn with ⟨role, hrole, hsite⟩
    rcases hrole.asks hn with ⟨roles, hroles, _⟩
    exact hsite.lastEntry hroles
  case entry =>
    intro i elements hn s hs
    rcases hsited hn with ⟨role, hrole, _⟩
    exact hrole.objectEntry_of_mem hn hs
  case literal =>
    intro i elements hn s kind key value computed hs hproperty left operator right hdefault
    cases s with
    | none => cases hproperty
    | some c =>
        have hlink : f.Link c i :=
          hf.wellFormed.linked.mpr (children_of_node? hn ▸ mem_childrenOf.mpr hs)
        exact hstray c ⟨kind, key, value, computed, left, operator, right, elements, hproperty,
          hdefault, hlink ▸ hn⟩
  case assigned =>
    intro i left operator right hn
    rcases hsited hn with ⟨role, hrole, _⟩
    exact hrole.assigned hn
  case updated =>
    intro i form operator argument hn hupdate
    rcases hsited hn with ⟨role, hrole, _⟩
    exact hrole.updated hn hupdate
  case iterated =>
    intro i form target subject statement isAwait hn
    rcases hsited hn with ⟨role, hrole, _⟩
    exact hrole.iterated hn
  case leaf =>
    intro i j hdeclared hleaf
    have hroles : ∀ {j n}, f.node? (some j) = some n → ∃ role, f.HasRole role j := fun hn =>
      (hsited hn).imp fun _ h => h.1
    rcases hdeclared.exists_role hroles with ⟨role, hrole, hnames⟩
    exact hrole.name_of_leaf hnames hleaf

end Forest

namespace Program

variable {source : String} {p : Program}

/-- In the tree of a parsed program, patterns and the targets of assignments stand in their
places. -/
theorem patternsPlaced_parse (h : parse source = .ok p) : p.forest.PatternsPlaced := by
  have hgrown := grownAs_parse h
  refine hgrown.grown.patternsPlaced (hgrown.roles _ (List.mem_singleton_self _)) fun i => ?_
  exact not_strayShorthand_parse h

/-- A literal inside of a literal becomes a pattern, with a default and a rest in it. -/
theorem patternsPlaced_parse_nested :
    ∃ p, parse "({a: [b = c, ...d.e], f = g} = h);" = .ok p ∧
      p.forest.cells.any (fun cell => cell.node.isPattern) = true ∧ p.forest.PatternsPlaced := by
  have hsome : (parse "({a: [b = c, ...d.e], f = g} = h);").toOption.any
      (fun p => p.forest.cells.any fun cell => cell.node.isPattern) = true := by decide +kernel
  rcases (Option.any_eq_true _ _).mp hsome with ⟨p, hp, hpattern⟩
  have hparse := parse_of_mem_toOption hp
  exact ⟨p, hparse, hpattern, patternsPlaced_parse hparse⟩

end Program
end Untangle
