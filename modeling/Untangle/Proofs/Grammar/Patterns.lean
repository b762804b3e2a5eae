import Untangle.Grammar.Pattern
import Untangle.Proofs.Grammar.Attachment

/-!
# Names and patterns build trees
-/

namespace Untangle

open Forest Parse Role

variable {α β : Type}

/-!
## Names
-/

namespace Parse

theorem buildsNode_anyName : BuildsNode [] (.leaf true) anyName := by
  refine .quiet quiet_token fun t => ?_
  refine .quiet quiet_advance fun _ => ?_
  exact .addFilled rfl rfl

theorem buildsNode_identifier : BuildsNode [] (.leaf true) identifier := by
  refine .quiet quiet_token fun t => ?_
  refine .quiet quiet_isAtIdentifier fun found => ?_
  refine .ite ?_ (.ite (.fail _) (.fail _))
  refine .ite (.fail _) ?_
  refine .quiet .read fun ctx => .ite (.fail _) ?_
  exact buildsNode_anyName

theorem buildsNode_privateName : BuildsNode [] .name privateName := by
  refine .quiet quiet_token fun t => ?_
  refine .quiet (quiet_expect _) fun _ => ?_
  exact .addFilled rfl rfl

theorem buildsNode_memberName : BuildsNode [] .name memberName := by
  refine .quiet quiet_kind fun k => ?_
  exact .ite buildsNode_privateName (.ite (.fits buildsNode_anyName .leaf_name) (.fail _))

theorem buildsNode_copyIdentifier (i : NodeId) :
    BuildsNode [] (.leaf true) (copyIdentifier i) := by
  refine .quiet .get fun state => ?_
  refine .quiet (quiet_startOf _) fun start => ?_
  refine .quiet (quiet_endOf _) fun stop => ?_
  exact .addFilled rfl rfl

end Parse

/-- Only the goals of declarations are answered by patterns. -/
def Goal.role : Goal → Role
  | .bindingTarget => .target true
  | _ => .plain

namespace Descent

/-- Every goal is answered by one tree. -/
def BuildsTrees (d : Descent) : Prop :=
  ∀ goal, BuildsNode [] goal.role (d.parse goal)

variable {d : Descent}

/-!
## Property names
-/

theorem buildsNode_literalKey : BuildsNode [] .name literalKey := by
  refine .quiet quiet_token fun t => ?_
  refine .quiet quiet_advance fun _ => ?_
  refine .addFilled ?_ ?_
  · split <;> rfl
  · split <;> rfl

/-- The key is a tree, which is a name unless it is computed. -/
theorem builds_propertyName (hd : d.BuildsTrees) (allowPrivate : Bool) :
    Builds [] (d.propertyName allowPrivate) fun key roots =>
      roots = [(key.1, .ofName key.2 (some key.1))] := by
  refine .quiet quiet_kind fun k => ?_
  split
  · refine .quiet quiet_advance fun _ => ?_
    refine .node (.withReader (hd .assignment)) fun key => ?_
    refine .quiet (quiet_expectMark _) fun _ => ?_
    exact .pure rfl
  · exact .node buildsNode_literalKey fun key => .pure rfl
  · exact .node buildsNode_literalKey fun key => .pure rfl
  · exact .node buildsNode_literalKey fun key => .pure rfl
  · exact .ite (.node buildsNode_privateName fun key => .pure rfl) (.fail _)
  · exact .ite (.node (.fits buildsNode_anyName .leaf_name) fun key => .pure rfl) (.fail _)

/-!
## Binding patterns
-/

theorem buildsNode_defaultValue (hd : d.BuildsTrees) {role : Role} (role' : Role)
    (target : NodeId)
    (hrole : ∀ s v, role'.roles (.binary .default s (.mark .assign) v) = some [role, .plain]) :
    BuildsNode [(target, role)] role' (d.defaultValue target) := by
  refine .quiet (quiet_startOf _) fun start => ?_
  refine .node (.withReader (hd .assignment)) fun value => ?_
  exact .addEnding rfl (hrole _ _)

theorem buildsNode_bindingElement (hd : d.BuildsTrees) :
    BuildsNode [] (.element true) d.bindingElement := by
  refine .node (hd .bindingTarget) fun target => ?_
  refine .quiet (quiet_eatMark _) fun found => .ite ?_ ?_
  · exact buildsNode_defaultValue hd _ target fun _ _ => rfl
  · exact .recast .target_element (.pure rfl)

theorem buildsNode_restElement (hd : d.BuildsTrees) (role : Role)
    (hrole : ∀ s, role.roles (.operand .rest s) = some [.target true]) :
    BuildsNode [] role d.restElement := by
  refine .quiet quiet_offset fun start => ?_
  refine .quiet (quiet_expectMark _) fun _ => ?_
  refine .node (hd .bindingTarget) fun target => ?_
  refine .quiet (quiet_isAtMark _) fun found => .ite (.fail _) ?_
  exact .addEnding rfl (hrole _)

theorem buildsNode_hole {role : Role} (hrole : role.roles (.bare .omitted) = some []) :
    BuildsNode [] role hole := by
  refine .quiet quiet_offset fun start => ?_
  refine .node (.addFilled rfl hrole) fun i => ?_
  refine .quiet quiet_advance fun _ => ?_
  exact .pure rfl

theorem buildsTurn_arrayBinding (hd : d.BuildsTrees) :
    BuildsTurn (.arrayEntry true) d.arrayBindingTurn := by
  refine .quiet quiet_kind fun k => ?_
  split
  · exact .pure rfl
  · exact .node (buildsNode_hole rfl) fun i => .pure rfl
  · refine .node (buildsNode_restElement hd (.arrayEntry true true) fun _ => rfl) fun i => ?_
    exact .quiet (quiet_isAtMark _) fun found => .ite (.pure rfl) (.fail _)
  · exact .node (.fits (buildsNode_bindingElement hd) .element_arrayEntry) fun i =>
      builds_beforeComma .arrayEntry_last i

theorem buildsNode_arrayBinding (hd : d.BuildsTrees) :
    BuildsNode [] (.target true) d.arrayBinding := by
  refine .quiet quiet_offset fun start => ?_
  refine .quiet (quiet_expectMark _) fun _ => ?_
  refine .entries (buildsEntries_repeated .arrayEntry_last (buildsTurn_arrayBinding hd) _)
    fun elements => ?_
  refine .quiet (quiet_expectMark _) fun stop => ?_
  exact .addEntries elements rfl rfl

theorem buildsNode_objectRest : BuildsNode [] (.objectEntry true true) objectRest := by
  refine .quiet quiet_offset fun start => ?_
  refine .quiet quiet_advance fun _ => ?_
  refine .node buildsNode_identifier fun target => ?_
  refine .quiet (quiet_endOf _) fun stop => ?_
  refine .whole (.objectEntry true true) (.addFilled rfl rfl) fun i => ?_
  exact .quiet (quiet_isAtMark _) fun found => .ite (.pure rfl) (.fail _)

theorem buildsNode_bindingProperty (hd : d.BuildsTrees) :
    BuildsNode [] (.objectEntry true false) d.bindingProperty := by
  refine .quiet quiet_offset fun start => ?_
  refine .quiet quiet_isAtIdentifier fun isPlain => ?_
  refine .quiet quiet_isAtAwait fun isAwait => .ite (.fail _) ?_
  refine .next (builds_propertyName hd false) fun (key, computed) roots hroots => ?_
  obtain rfl : roots = [(key, .ofName computed (some key))] := hroots
  refine .quiet (quiet_eatMark _) fun found => .ite ?_ (.ite ?_ (.fail _))
  · exact .node (buildsNode_bindingElement hd) fun value => .addEnding rfl rfl
  · refine .node (.fits (buildsNode_copyIdentifier key) .leaf_target) fun value => ?_
    refine .quiet (quiet_eatMark _) fun found => .ite ?_ ?_
    · refine .wrap _ (buildsNode_defaultValue hd (.element true) value fun _ _ => rfl) ?_
      exact fun value => .addEnding rfl rfl
    · exact .recast .target_element (.addEnding rfl rfl)

theorem buildsTurn_objectBinding (hd : d.BuildsTrees) :
    BuildsTurn (.objectEntry true) d.objectBindingTurn := by
  refine .quiet quiet_kind fun k => ?_
  split
  · exact .pure rfl
  · exact .node buildsNode_objectRest fun i => .pure rfl
  · exact .node (buildsNode_bindingProperty hd) fun i => builds_beforeComma .objectEntry_last i

theorem buildsNode_objectBinding (hd : d.BuildsTrees) :
    BuildsNode [] (.target true) d.objectBinding := by
  refine .quiet quiet_offset fun start => ?_
  refine .quiet (quiet_expectMark _) fun _ => ?_
  refine .entries (buildsEntries_repeated .objectEntry_last (buildsTurn_objectBinding hd) _)
    fun properties => ?_
  refine .quiet (quiet_expectMark _) fun stop => ?_
  exact .addEntries properties rfl rfl

theorem buildsNode_bindingTarget (hd : d.BuildsTrees) :
    BuildsNode [] (.target true) d.bindingTargetProduction := by
  refine .quiet quiet_kind fun k => ?_
  split
  · exact buildsNode_objectBinding hd
  · exact buildsNode_arrayBinding hd
  · exact .fits buildsNode_identifier .leaf_target

end Descent

/-!
## Literals that become patterns
-/

namespace Parse

/-- From a forest of the same shape the action leaves one of the same shape. No token is read. -/
def Keeps (f : Forest) (act : Parse α) : Prop :=
  ∀ ⦃ctx s a s'⦄, f.Alike s.forest → act ctx s = .ok (a, s') →
    f.Alike s'.forest ∧ s'.scanner = s.scanner

namespace Keeps

variable {f : Forest} {act : Parse α} {k : α → Parse β}

theorem still (h : Still act) : Keeps f act := by
  intro ctx s a s' halike hrun
  obtain rfl := h hrun
  exact ⟨halike, rfl⟩

theorem bind (hact : Keeps f act) (hk : ∀ a, Keeps f (k a)) : Keeps f (act >>= k) := by
  intro ctx s b s'' halike hrun
  rcases run_bind.mp hrun with ⟨a, s', ha, hb⟩
  obtain ⟨halike', hscanner⟩ := hact halike ha
  obtain ⟨halike'', hscanner'⟩ := hk a halike' hb
  exact ⟨halike'', hscanner'.trans hscanner⟩

theorem ite {c : Prop} [Decidable c] {other : Parse α} (h : Keeps f act)
    (hother : Keeps f other) : Keeps f (if c then act else other) := by
  split
  · exact h
  · exact hother

/-- A node that is read has the shape it had all along. -/
theorem atNode {i : NodeId} {k : Option (Node Slot) → Parse β}
    (hnone : Keeps f (k none)) (hsome : ∀ n, f.HasShape i n → Keeps f (k (some n))) :
    Keeps f (node? i >>= k) := by
  intro ctx s b s' halike hrun
  have hk : k (s.forest.node? (some i)) ctx s = .ok (b, s') := hrun
  cases hnode : s.forest.node? (some i) with
  | none => exact hnone halike (hnode ▸ hk)
  | some n => exact hsome n (halike.hasShape hnode) halike (hnode ▸ hk)

theorem setNode {i : NodeId} {m : Node Slot} (hm : f.HasShape i m) : Keeps f (setNode i m) := by
  intro ctx s a s' halike hrun
  cases hrun
  exact ⟨halike.setNode hm, rfl⟩

end Keeps

end Parse

namespace Pattern

variable {f : Forest} {convert : NodeId → Parse Unit}

theorem still_isTargetAt (i : NodeId) : Still (isTargetAt i) :=
  .bind .get fun _ => .pure _

theorem quiet_isTargetAt (i : NodeId) : Quiet (isTargetAt i) :=
  (still_isTargetAt i).quiet

theorem still_invalidAt (i : NodeId) : Still (invalidAt i : Parse α) :=
  .bind (still_startOf i) fun _ => .failAt _ _

theorem keeps_convertElement (hconvert : ∀ i, Keeps f (convert i)) (element : NodeId) :
    Keeps f (convertElement convert element) := by
  refine .bind (.still (still_node? _)) fun node => ?_
  extract_lets value
  refine .atNode (hconvert value) fun n hn => ?_
  split
  · obtain rfl := Option.some.inj ‹some n = _›
    exact .setNode hn
  · exact hconvert value

theorem keeps_convertRest (hconvert : ∀ i, Keeps f (convert i)) {inObject isLast : Bool}
    {element target : NodeId} (helement : f.HasShape element (.operand .spread (some target))) :
    Keeps f (convertRest convert inObject isLast element target) := by
  refine .ite (.still (.bind (still_startOf _) fun _ => .failAt _ _)) ?_
  extract_lets put
  have hput : ∀ u, Keeps f (put u) := fun u => .setNode helement
  refine .ite ?_ (.bind (hconvert target) hput)
  refine .bind (.still (still_isTargetAt target)) fun found => .ite ?_ ?_
  · exact .bind (.still (.pure ())) hput
  · exact .bind (.still (still_invalidAt target)) hput

theorem keeps_convertMember (hconvert : ∀ i, Keeps f (convert i)) (inObject isLast : Bool)
    (element : NodeId) : Keeps f (convertMember convert inObject isLast element) := by
  refine .atNode ?_ fun n hn => ?_
  · exact .still (still_invalidAt element)
  · split
    · obtain rfl := Option.some.inj ‹some n = _›
      exact keeps_convertRest hconvert hn
    · exact keeps_convertElement hconvert element
    · exact .still (.pure ())
    · exact .still (.pure ())
    · exact keeps_convertElement hconvert element
    · exact .still (still_invalidAt element)

theorem keeps_convertMembers (hconvert : ∀ i, Keeps f (convert i)) (inObject : Bool)
    (elements : List Slot) : Keeps f (convertMembers convert inObject elements) := by
  induction elements with
  | nil => exact .still (.pure ())
  | cons element rest ih =>
      cases element with
      | none => exact .bind (.still (.pure ())) fun _ => ih
      | some i => exact .bind (keeps_convertMember hconvert inObject rest.isEmpty i) fun _ => ih

/-- A literal that becomes a pattern keeps its elements, and so do the literals inside it. -/
theorem keeps_convertWith (depth : Nat) (i : NodeId) : Keeps f (convertWith depth i) := by
  induction depth generalizing i with
  | zero => exact .still (still_fail _)
  | succ depth ih =>
      refine .atNode (.still (still_invalidAt i)) fun n hn => ?_
      split
      · obtain rfl := Option.some.inj ‹some n = _›
        exact .bind (keeps_convertMembers ih true _) fun _ => .setNode hn
      · obtain rfl := Option.some.inj ‹some n = _›
        exact .bind (keeps_convertMembers ih false _) fun _ => .setNode hn
      · exact .ite (.still (.pure ())) (.still (still_invalidAt i))
      · exact .still (still_invalidAt i)

theorem keeps_convert (i : NodeId) : Keeps f (Pattern.convert i) :=
  .bind (.still .read) fun _ => keeps_convertWith _ i

end Pattern
end Untangle
