import Mathlib.Data.List.Forall2
import Mathlib.Data.List.Perm.Subperm
import Untangle.Grammar.Expression
import Untangle.Proofs.Tree.Growth
import Untangle.Proofs.Tree.WellFormed

/-!
# Expressions and statements as data

A forest may hold a tree in many ways: nodes stand anywhere, and spans and links to parents differ.
What it holds is described here without nodes, for the expressions made of names and operators and
for the statements whose nesting a reader could mistake.
-/

namespace Untangle

/-!
## Heights

The walks of the printer bound the length of the paths that they follow by the number of nodes.
That is enough for every tree in a forest, also when the links to parents are wrong: nodes on one
path differ in height.
-/

namespace Forest

variable {f : Forest} {s : Slot} {i : NodeId} {n m : Nat}

/-- There is a node, and every path from it downwards has at most this number of nodes. -/
def EndsWithin (f : Forest) : Nat → Slot → Prop
  | 0, _ => False
  | n + 1, s => ∃ node, f.node? s = some node ∧ ∀ c ∈ childrenOf node, f.EndsWithin n (some c)

theorem EndsWithin.exists_succ (h : f.EndsWithin n s) : ∃ m, n = m + 1 := by
  cases n with
  | zero => exact h.elim
  | succ m => exact ⟨m, rfl⟩

theorem EndsWithin.isSome (h : f.EndsWithin n s) : s.isSome := by
  obtain ⟨m, rfl⟩ := h.exists_succ
  rcases h with ⟨node, hs, _⟩
  cases s with
  | none => cases hs
  | some i => rfl

/-- A slot of the node that holds a tree holds a lower one. -/
theorem EndsWithin.child {node : Node Slot} {c : Slot} (h : f.EndsWithin (n + 1) s)
    (hs : f.node? s = some node) (hc : c ∈ node.slots) (hheld : ∃ m, f.EndsWithin m c) :
    f.EndsWithin n c := by
  rcases h with ⟨node', hs', hchildren⟩
  obtain rfl := Option.some.inj (hs.symm.trans hs')
  rcases hheld with ⟨m, hm⟩
  obtain ⟨i, rfl⟩ := Option.isSome_iff_exists.mp hm.isSome
  exact hchildren i (mem_childrenOf.mpr hc)

theorem EndsWithin.mono (h : f.EndsWithin n s) (hle : n ≤ m) : f.EndsWithin m s := by
  induction n generalizing s m with
  | zero => exact h.elim
  | succ n ih =>
      rcases h with ⟨node, hs, hchildren⟩
      obtain ⟨m, rfl⟩ := Nat.exists_eq_add_of_le' (Nat.le_of_add_left_le hle)
      exact ⟨node, hs, fun c hc => ih (hchildren c hc) (Nat.le_of_add_le_add_right hle)⟩

theorem exists_endsWithin_of_children {node : Node Slot} (hs : f.node? s = some node)
    (hchildren : ∀ c, some c ∈ node.slots → ∃ n, f.EndsWithin n (some c)) :
    ∃ n, f.EndsWithin n s := by
  have hall : ∀ children : List NodeId, (∀ c ∈ children, ∃ n, f.EndsWithin n (some c)) →
      ∃ n, ∀ c ∈ children, f.EndsWithin n (some c) := by
    intro children h
    induction children with
    | nil => exact ⟨0, by simp⟩
    | cons c children ih =>
        rcases h c List.mem_cons_self with ⟨n, hn⟩
        rcases ih fun c hc => h c (List.mem_cons_of_mem _ hc) with ⟨m, hm⟩
        refine ⟨max n m, fun d hd => ?_⟩
        rcases List.mem_cons.mp hd with rfl | hd
        · exact hn.mono (Nat.le_max_left _ _)
        · exact (hm d hd).mono (Nat.le_max_right _ _)
  rcases hall (childrenOf node) fun c hc => hchildren c (mem_childrenOf.mp hc) with ⟨n, hn⟩
  exact ⟨n + 1, node, hs, hn⟩

/-- Below a node there are nodes of every smaller height. -/
theorem EndsWithin.exists_nodes (h : f.EndsWithin (n + 1) (some i))
    (hheight : ¬ f.EndsWithin n (some i)) :
    ∃ nodes : List NodeId, nodes.length = n + 1 ∧ nodes.Nodup ∧
      ∀ j ∈ nodes, j < f.size ∧ f.EndsWithin (n + 1) (some j) := by
  induction n generalizing i with
  | zero =>
      rcases id h with ⟨node, hi, _⟩
      refine ⟨[i], rfl, List.nodup_singleton i, ?_⟩
      intro j hj
      obtain rfl := List.mem_singleton.mp hj
      exact ⟨lt_size_of_node? hi, h⟩
  | succ n ih =>
      rcases id h with ⟨node, hi, hchildren⟩
      obtain ⟨c, hc, hlow⟩ : ∃ c ∈ childrenOf node, ¬ f.EndsWithin n (some c) := by
        by_contra hall
        push Not at hall
        exact hheight ⟨node, hi, hall⟩
      rcases ih (hchildren c hc) hlow with ⟨nodes, hlength, hnodup, hnodes⟩
      have hnew : i ∉ nodes := fun hmem => hheight (hnodes i hmem).2
      refine ⟨i :: nodes, by rw [List.length_cons, hlength], hnodup.cons hnew, ?_⟩
      intro j hj
      rcases List.mem_cons.mp hj with rfl | hj
      · exact ⟨lt_size_of_node? hi, h⟩
      · exact ⟨(hnodes j hj).1, (hnodes j hj).2.mono (Nat.le_succ _)⟩

/-- A tree is no higher than the number of nodes in the forest. -/
theorem EndsWithin.size (h : f.EndsWithin n s) : f.EndsWithin f.size s := by
  induction n with
  | zero => exact h.elim
  | succ n ih =>
      by_cases hlow : f.EndsWithin n s
      · exact ih hlow
      · cases s with
        | none => exact absurd h.choose_spec.1 (by rintro ⟨⟩)
        | some i =>
            rcases h.exists_nodes hlow with ⟨nodes, hlength, hnodup, hnodes⟩
            refine h.mono ?_
            rw [← hlength, ← List.length_range (n := f.size)]
            have hsubperm : nodes.Subperm (List.range f.size) :=
              List.Nodup.subperm hnodup fun j hj => List.mem_range.mpr (hnodes j hj).1
            exact hsubperm.length_le

end Forest

/-!
## Names and operators
-/

/-- An identifier name that is no keyword and that no construct singles out. -/
structure OrdinaryName where
  text : String
  isName : Text.isIdentifierName text = true
  isFree : Keyword.ofText? text = none
  isPlain : text ∉ ["async", "await", "of"]

structure UnaryOperator where
  kind : TokenKind
  isUnary : kind.isUnaryOperator = true

structure UpdateOperator where
  kind : TokenKind
  isUpdate : kind.isUpdate = true

structure BinaryOperator where
  kind : TokenKind
  precedence : Precedence
  binds : kind.binaryPrecedence? = some precedence

structure AssignmentOperator where
  kind : TokenKind
  isAssignment : kind.isAssignment = true

/-!
## Trees
-/

inductive ExpressionTree
  | name (name : OrdinaryName)
  | unary (operator : UnaryOperator) (operand : ExpressionTree)
  /-- An operator that changes a name, on either side of it. -/
  | update (form : UnaryForm) (operator : UpdateOperator) (target : OrdinaryName)
  /-- Logical operators make logical nodes. -/
  | binary (left : ExpressionTree) (operator : BinaryOperator) (right : ExpressionTree)
  | assignment (target : OrdinaryName) (operator : AssignmentOperator) (value : ExpressionTree)
  | conditional (condition whenTrue whenFalse : ExpressionTree)
  | sequence (first second : ExpressionTree) (rest : List ExpressionTree)

inductive StatementTree
  | expression (expression : ExpressionTree)
  | empty
  | block (statements : List StatementTree)
  | ifThen (condition : ExpressionTree) (whenTrue : StatementTree)
  | ifElse (condition : ExpressionTree) (whenTrue whenFalse : StatementTree)
  | guarded (form : GuardForm) (condition : ExpressionTree) (body : StatementTree)
  /-- A loop with at most the first of its three clauses. -/
  | forLoop (initializer : Option ExpressionTree) (body : StatementTree)
  | labeled (label : OrdinaryName) (body : StatementTree)

/-- Induction with a hypothesis for each element of a sequence. -/
@[induction_eliminator]
theorem ExpressionTree.induct {motive : ExpressionTree → Prop}
    (name : ∀ name, motive (.name name))
    (unary : ∀ operator operand, motive operand → motive (.unary operator operand))
    (update : ∀ form operator target, motive (.update form operator target))
    (binary : ∀ left operator right, motive left → motive right →
      motive (.binary left operator right))
    (assignment : ∀ target operator value, motive value →
      motive (.assignment target operator value))
    (conditional : ∀ condition whenTrue whenFalse, motive condition → motive whenTrue →
      motive whenFalse → motive (.conditional condition whenTrue whenFalse))
    (sequence : ∀ first second rest, motive first → motive second → (∀ e ∈ rest, motive e) →
      motive (.sequence first second rest))
    (e : ExpressionTree) : motive e :=
  @ExpressionTree.rec motive (fun rest => ∀ e ∈ rest, motive e) name unary update binary
    assignment conditional sequence (fun _ h => absurd h List.not_mem_nil)
    (fun _ _ hfirst hrest _ h =>
      (List.mem_cons.mp h).elim (fun heq => heq ▸ hfirst) (hrest _)) e

/-- Induction with a hypothesis for each statement of a block. -/
@[induction_eliminator]
theorem StatementTree.induct {motive : StatementTree → Prop}
    (expression : ∀ e, motive (.expression e))
    (empty : motive .empty)
    (block : ∀ statements, (∀ t ∈ statements, motive t) → motive (.block statements))
    (ifThen : ∀ condition whenTrue, motive whenTrue → motive (.ifThen condition whenTrue))
    (ifElse : ∀ condition whenTrue whenFalse, motive whenTrue → motive whenFalse →
      motive (.ifElse condition whenTrue whenFalse))
    (guarded : ∀ form condition body, motive body → motive (.guarded form condition body))
    (forLoop : ∀ initializer body, motive body → motive (.forLoop initializer body))
    (labeled : ∀ label body, motive body → motive (.labeled label body))
    (t : StatementTree) : motive t :=
  @StatementTree.rec motive (fun statements => ∀ t ∈ statements, motive t) expression empty block
    ifThen ifElse guarded forLoop labeled (fun _ h => absurd h List.not_mem_nil)
    (fun _ _ hfirst hrest _ h =>
      (List.mem_cons.mp h).elim (fun heq => heq ▸ hfirst) (hrest _)) t

/-!
## Trees in a forest
-/

namespace Forest

/-- The slot holds the expression. -/
inductive Holds (f : Forest) : Slot → ExpressionTree → Prop
  | name {s name} (hs : f.node? s = some (.name .identifier name.text)) : f.Holds s (.name name)
  | unary {s c operator operand} (hs : f.node? s = some (.unary .before operator.kind c))
      (hc : f.Holds c operand) : f.Holds s (.unary operator operand)
  | update {s c form operator target} (hs : f.node? s = some (.unary form operator.kind c))
      (hc : f.Holds c (.name target)) : f.Holds s (.update form operator target)
  | binary {s a b left operator right}
      (hs : f.node? s =
        some (.binary (Descent.binaryForm operator.kind) a operator.kind b))
      (ha : f.Holds a left) (hb : f.Holds b right) : f.Holds s (.binary left operator right)
  | assignment {s a b target operator value}
      (hs : f.node? s = some (.binary .assignment a operator.kind b))
      (ha : f.Holds a (.name target)) (hb : f.Holds b value) :
      f.Holds s (.assignment target operator value)
  | conditional {s a b c condition whenTrue whenFalse}
      (hs : f.node? s = some (.conditional a b c)) (ha : f.Holds a condition)
      (hb : f.Holds b whenTrue) (hc : f.Holds c whenFalse) :
      f.Holds s (.conditional condition whenTrue whenFalse)
  | sequence {s a b slots first second rest}
      (hs : f.node? s = some (.list .sequence (a :: b :: slots))) (ha : f.Holds a first)
      (hb : f.Holds b second) (hslots : List.Forall₂ f.Holds slots rest) :
      f.Holds s (.sequence first second rest)

/-- The slot holds the statement. -/
inductive HoldsStatement (f : Forest) : Slot → StatementTree → Prop
  | expression {s c e} (hs : f.node? s = some (.operand .expressionStatement c))
      (hc : f.Holds c e) : f.HoldsStatement s (.expression e)
  | empty {s} (hs : f.node? s = some (.bare .emptyStatement)) : f.HoldsStatement s .empty
  | block {s slots statements} (hs : f.node? s = some (.body .block slots))
      (hslots : List.Forall₂ f.HoldsStatement slots statements) :
      f.HoldsStatement s (.block statements)
  | ifThen {s a b condition whenTrue}
      (hs : f.node? s = some (.conditionalStatement a b none)) (ha : f.Holds a condition)
      (hb : f.HoldsStatement b whenTrue) : f.HoldsStatement s (.ifThen condition whenTrue)
  | ifElse {s a b c condition whenTrue whenFalse}
      (hs : f.node? s = some (.conditionalStatement a b c)) (ha : f.Holds a condition)
      (hb : f.HoldsStatement b whenTrue) (hc : f.HoldsStatement c whenFalse) :
      f.HoldsStatement s (.ifElse condition whenTrue whenFalse)
  | guarded {s a b form condition body} (hs : f.node? s = some (.guarded form a b))
      (ha : f.Holds a condition) (hb : f.HoldsStatement b body) :
      f.HoldsStatement s (.guarded form condition body)
  | forEver {s b body} (hs : f.node? s = some (.forLoop none none none b))
      (hb : f.HoldsStatement b body) : f.HoldsStatement s (.forLoop none body)
  | forLoop {s a b e body} (hs : f.node? s = some (.forLoop a none none b))
      (ha : f.Holds a e) (hb : f.HoldsStatement b body) :
      f.HoldsStatement s (.forLoop (some e) body)
  | labeled {s a b label body} (hs : f.node? s = some (.labeled a b))
      (ha : f.Holds a (.name label)) (hb : f.HoldsStatement b body) :
      f.HoldsStatement s (.labeled label body)

/-- The slot holds the expression, or both are left out. -/
def HoldsOptional (f : Forest) (s : Slot) : Option ExpressionTree → Prop
  | none => s = none
  | some e => f.Holds s e

theorem HoldsStatement.ofLoop {f : Forest} {s a b : Slot} {initializer : Option ExpressionTree}
    {body : StatementTree} (hs : f.node? s = some (.forLoop a none none b))
    (ha : f.HoldsOptional a initializer) (hb : f.HoldsStatement b body) :
    f.HoldsStatement s (.forLoop initializer body) := by
  cases initializer with
  | none =>
      obtain rfl : a = none := ha
      exact .forEver hs hb
  | some e => exact .forLoop hs ha hb

/-!
## Heights
-/

variable {f g h : Forest} {s : Slot} {e : ExpressionTree} {t : StatementTree}

theorem exists_mem_of_forall₂ {α β : Type} {R : α → β → Prop} {l : List α} {m : List β} {a : α}
    (h : List.Forall₂ R l m) (ha : a ∈ l) : ∃ b ∈ m, R a b := by
  induction h with
  | nil => cases ha
  | cons hR _ ih =>
      rcases List.mem_cons.mp ha with rfl | ha
      · exact ⟨_, List.mem_cons_self, hR⟩
      · rcases ih ha with ⟨b, hb, hR⟩
        exact ⟨b, List.mem_cons_of_mem _ hb, hR⟩

theorem forall₂_imp_of_mem {α β : Type} {R Q : α → β → Prop} {l : List α} {m : List β}
    (himp : ∀ a ∈ l, ∀ b ∈ m, R a b → Q a b) (h : List.Forall₂ R l m) : List.Forall₂ Q l m := by
  induction h with
  | nil => exact .nil
  | cons hR _ ih =>
      refine .cons (himp _ List.mem_cons_self _ List.mem_cons_self hR) (ih fun a ha b hb => ?_)
      exact himp a (List.mem_cons_of_mem _ ha) b (List.mem_cons_of_mem _ hb)

theorem Holds.exists_endsWithin (he : f.Holds s e) : ∃ n, f.EndsWithin n s := by
  induction e generalizing s with
  | name name =>
      cases he with
      | name hs => exact exists_endsWithin_of_children hs (by simp [Node.slots])
  | unary operator operand ih =>
      cases he with
      | unary hs hc =>
          refine exists_endsWithin_of_children hs fun c hmem => ?_
          obtain rfl := List.mem_singleton.mp hmem
          exact ih hc
  | update form operator target =>
      cases he with
      | update hs hc =>
          refine exists_endsWithin_of_children hs fun c hmem => ?_
          obtain rfl := List.mem_singleton.mp hmem
          cases hc with
          | name hc => exact exists_endsWithin_of_children hc (by simp [Node.slots])
  | binary left operator right ihleft ihright =>
      cases he with
      | binary hs ha hb =>
          refine exists_endsWithin_of_children hs fun c hmem => ?_
          simp only [Node.slots, List.mem_cons, List.not_mem_nil, or_false] at hmem
          rcases hmem with rfl | rfl
          · exact ihleft ha
          · exact ihright hb
  | assignment target operator value ih =>
      cases he with
      | assignment hs ha hb =>
          refine exists_endsWithin_of_children hs fun c hmem => ?_
          simp only [Node.slots, List.mem_cons, List.not_mem_nil, or_false] at hmem
          rcases hmem with rfl | rfl
          · cases ha with
            | name ha => exact exists_endsWithin_of_children ha (by simp [Node.slots])
          · exact ih hb
  | conditional condition whenTrue whenFalse ihcondition ihtrue ihfalse =>
      cases he with
      | conditional hs ha hb hc =>
          refine exists_endsWithin_of_children hs fun c hmem => ?_
          simp only [Node.slots, List.mem_cons, List.not_mem_nil, or_false] at hmem
          rcases hmem with rfl | rfl | rfl
          · exact ihcondition ha
          · exact ihtrue hb
          · exact ihfalse hc
  | sequence first second rest ihfirst ihsecond ihrest =>
      cases he with
      | sequence hs ha hb hslots =>
          refine exists_endsWithin_of_children hs fun c hmem => ?_
          simp only [Node.slots, List.mem_cons] at hmem
          rcases hmem with rfl | rfl | hmem
          · exact ihfirst ha
          · exact ihsecond hb
          · rcases exists_mem_of_forall₂ hslots hmem with ⟨e, he, hheld⟩
            exact ihrest e he hheld

theorem HoldsStatement.exists_endsWithin (ht : f.HoldsStatement s t) :
    ∃ n, f.EndsWithin n s := by
  induction t generalizing s with
  | expression e =>
      cases ht with
      | expression hs hc =>
          refine exists_endsWithin_of_children hs fun c hmem => ?_
          obtain rfl := List.mem_singleton.mp hmem
          exact hc.exists_endsWithin
  | empty =>
      cases ht with
      | empty hs => exact exists_endsWithin_of_children hs (by simp [Node.slots])
  | block statements ih =>
      cases ht with
      | block hs hslots =>
          refine exists_endsWithin_of_children hs fun c hmem => ?_
          rcases exists_mem_of_forall₂ hslots hmem with ⟨t, ht, hheld⟩
          exact ih t ht hheld
  | ifThen condition whenTrue ih =>
      cases ht with
      | ifThen hs ha hb =>
          refine exists_endsWithin_of_children hs fun c hmem => ?_
          simp only [Node.slots, List.mem_cons, List.not_mem_nil, or_false, reduceCtorEq] at hmem
          rcases hmem with rfl | rfl
          · exact ha.exists_endsWithin
          · exact ih hb
  | ifElse condition whenTrue whenFalse ihtrue ihfalse =>
      cases ht with
      | ifElse hs ha hb hc =>
          refine exists_endsWithin_of_children hs fun c hmem => ?_
          simp only [Node.slots, List.mem_cons, List.not_mem_nil, or_false] at hmem
          rcases hmem with rfl | rfl | rfl
          · exact ha.exists_endsWithin
          · exact ihtrue hb
          · exact ihfalse hc
  | guarded form condition body ih =>
      cases ht with
      | @guarded _ a b _ _ _ hs ha hb =>
          refine exists_endsWithin_of_children hs fun c hmem => ?_
          have hmem : some c = a ∨ some c = b := by
            cases form <;> simpa [Node.slots, or_comm] using hmem
          rcases hmem with rfl | rfl
          · exact ha.exists_endsWithin
          · exact ih hb
  | forLoop initializer body ih =>
      cases ht with
      | forEver hs hb =>
          refine exists_endsWithin_of_children hs fun c hmem => ?_
          simp only [Node.slots, List.mem_cons, List.not_mem_nil, or_false, false_or,
            reduceCtorEq] at hmem
          subst hmem
          exact ih hb
      | forLoop hs ha hb =>
          refine exists_endsWithin_of_children hs fun c hmem => ?_
          simp only [Node.slots, List.mem_cons, List.not_mem_nil, or_false, false_or,
            reduceCtorEq] at hmem
          rcases hmem with rfl | rfl
          · exact ha.exists_endsWithin
          · exact ih hb
  | labeled label body ih =>
      cases ht with
      | labeled hs ha hb =>
          refine exists_endsWithin_of_children hs fun c hmem => ?_
          simp only [Node.slots, List.mem_cons, List.not_mem_nil, or_false] at hmem
          rcases hmem with rfl | rfl
          · exact ha.exists_endsWithin
          · exact ih hb

theorem HoldsStatement.endsWithin (ht : f.HoldsStatement s t) : f.EndsWithin f.size s :=
  ht.exists_endsWithin.choose_spec.size

/-!
## Growth
-/

/-- Nodes have been added, and none of them is a property. -/
structure Enlarged (f g : Forest) : Prop where
  node? : ∀ ⦃s n⦄, f.node? s = some n → g.node? s = some n
  property : ∀ ⦃i kind key value computed⦄,
    g.node? (some i) = some (.property kind key value computed) →
      f.node? (some i) = some (.property kind key value computed)

theorem Enlarged.refl (f : Forest) : f.Enlarged f :=
  ⟨fun _ _ hs => hs, fun _ _ _ _ _ hi => hi⟩

theorem Enlarged.trans (hfg : f.Enlarged g) (hgh : g.Enlarged h) : f.Enlarged h :=
  ⟨fun _ _ hs => hgh.node? (hfg.node? hs), fun _ _ _ _ _ hi => hfg.property (hgh.property hi)⟩

theorem enlarged_add {n : Node Slot} {start stop : Nat}
    (hn : ∀ kind key value computed, n ≠ .property kind key value computed) :
    f.Enlarged (f.add n start stop).2 where
  node? s m hs := by
    cases s with
    | none => cases hs
    | some i => exact (node?_add_of_ne (Nat.ne_of_lt (lt_size_of_node? hs))).trans hs
  property i kind key value computed hi := by
    by_cases hsize : i = f.size
    · subst hsize
      exact absurd (Option.some.inj (node?_add_self.symm.trans hi)) (hn kind key value computed)
    · exact (node?_add_of_ne hsize).symm.trans hi

theorem Holds.enlarged (he : f.Holds s e) (hfg : f.Enlarged g) : g.Holds s e := by
  induction e generalizing s with
  | name name =>
      cases he with
      | name hs => exact .name (hfg.node? hs)
  | unary operator operand ih =>
      cases he with
      | unary hs hc => exact .unary (hfg.node? hs) (ih hc)
  | update form operator target =>
      cases he with
      | update hs hc =>
          cases hc with
          | name hc => exact .update (hfg.node? hs) (.name (hfg.node? hc))
  | binary left operator right ihleft ihright =>
      cases he with
      | binary hs ha hb => exact .binary (hfg.node? hs) (ihleft ha) (ihright hb)
  | assignment target operator value ih =>
      cases he with
      | assignment hs ha hb =>
          cases ha with
          | name ha => exact .assignment (hfg.node? hs) (.name (hfg.node? ha)) (ih hb)
  | conditional condition whenTrue whenFalse ihcondition ihtrue ihfalse =>
      cases he with
      | conditional hs ha hb hc =>
          exact .conditional (hfg.node? hs) (ihcondition ha) (ihtrue hb) (ihfalse hc)
  | sequence first second rest ihfirst ihsecond ihrest =>
      cases he with
      | sequence hs ha hb hslots =>
          refine .sequence (hfg.node? hs) (ihfirst ha) (ihsecond hb) ?_
          exact forall₂_imp_of_mem (fun _ _ e he hheld => ihrest e he hheld) hslots

theorem HoldsOptional.enlarged {initializer : Option ExpressionTree}
    (he : f.HoldsOptional s initializer) (hfg : f.Enlarged g) : g.HoldsOptional s initializer := by
  cases initializer with
  | none => exact he
  | some e => exact Holds.enlarged he hfg

theorem HoldsStatement.enlarged (ht : f.HoldsStatement s t) (hfg : f.Enlarged g) :
    g.HoldsStatement s t := by
  induction t generalizing s with
  | expression e =>
      cases ht with
      | expression hs hc => exact .expression (hfg.node? hs) (hc.enlarged hfg)
  | empty =>
      cases ht with
      | empty hs => exact .empty (hfg.node? hs)
  | block statements ih =>
      cases ht with
      | block hs hslots =>
          refine .block (hfg.node? hs) ?_
          exact forall₂_imp_of_mem (fun _ _ t ht hheld => ih t ht hheld) hslots
  | ifThen condition whenTrue ih =>
      cases ht with
      | ifThen hs ha hb => exact .ifThen (hfg.node? hs) (ha.enlarged hfg) (ih hb)
  | ifElse condition whenTrue whenFalse ihtrue ihfalse =>
      cases ht with
      | ifElse hs ha hb hc =>
          exact .ifElse (hfg.node? hs) (ha.enlarged hfg) (ihtrue hb) (ihfalse hc)
  | guarded form condition body ih =>
      cases ht with
      | guarded hs ha hb => exact .guarded (hfg.node? hs) (ha.enlarged hfg) (ih hb)
  | forLoop initializer body ih =>
      cases ht with
      | forEver hs hb => exact .forEver (hfg.node? hs) (ih hb)
      | forLoop hs ha hb => exact .forLoop (hfg.node? hs) (ha.enlarged hfg) (ih hb)
  | labeled label body ih =>
      cases ht with
      | labeled hs ha hb => exact .labeled (hfg.node? hs) (ha.enlarged hfg) (ih hb)

end Forest

end Untangle
