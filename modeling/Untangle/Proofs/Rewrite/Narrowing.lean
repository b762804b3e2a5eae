import Untangle.Proofs.Rewrite.Instantiation
import Untangle.Proofs.Rewrite.Running
import Untangle.Proofs.Scope.Meaning

/-!
# Narrowing

An edit of a program takes parts out of the tree and puts new nodes in, but it never puts back
what was taken out before. As long as no new node is of some kind, the nodes of that kind in the
tree can only become fewer.
-/

namespace Untangle

open Relation (ReflTransGen)

/-!
## Kinds
-/

namespace Node

variable {α : Type}

/-- What is left of a node without its children. -/
def kind (n : Node α) : Node Unit :=
  n.blank.withEntries []

theorem kind_replaceFirst (n : Node Slot) (a b : Slot) : (n.replaceFirst a b).1.kind = n.kind := by
  rw [kind, blank_replaceFirst, kind]

theorem kind_withEntries (n : Node Slot) (entries : List Slot) :
    (n.withEntries entries).kind = n.kind := by
  cases n <;> simp [withEntries, kind, blank, map, mapM]

theorem kind_withoutChild (n : Node Slot) (s : Slot) :
    (Forest.withoutChild n s).1.kind = n.kind := by
  unfold Forest.withoutChild
  split
  · split
    · exact n.kind_withEntries _
    · exact n.kind_replaceFirst s none
  · exact n.kind_replaceFirst s none

/-- The answer depends on the kind of a node only. -/
def OfKind (q : Node Slot → Bool) : Prop :=
  ∀ {m n}, m.kind = n.kind → q m = q n

/-- A question about the kind of a node whose answer is never `true` for what edits put in. -/
structure Consumable (q : Node Slot → Bool) : Prop where
  ofKind : OfKind q
  literal : ∀ n, n.isLiteral = true → q n = false
  empty : q (.bare .emptyStatement) = false
  block : ∀ statements, q (.body .block statements) = false

theorem ofKind_of_kind {q : Node Slot → Bool} {r : Node Unit → Bool}
    (h : ∀ n : Node Slot, r n.kind = q n) : OfKind q := by
  intro m n hkind
  rw [← h m, hkind, h n]

theorem isLiteral_kind (n : Node α) : n.kind.isLiteral = n.isLiteral := by
  cases n with
  | bare form | guarded form => cases form <;> rfl
  | _ => rfl

theorem ofKind_isLiteral : OfKind isLiteral :=
  ofKind_of_kind isLiteral_kind

theorem slots_of_isLiteral {n : Node α} (h : n.isLiteral = true) : n.slots = [] := by
  cases n with
  | string | number | boolean | bare => rfl
  | _ => cases h

end Node

namespace Forest

variable {f g h : Forest} {root i p old : NodeId} {s : Slot} {n : Node Slot}
  {q : Node Slot → Bool}

/-- The nodes of `f` are nodes of the same kind in `g`. -/
structure KeepsKinds (f g : Forest) : Prop where
  size_le : f.size ≤ g.size
  kind : ∀ {i n}, f.node? (some i) = some n → ∃ m, g.node? (some i) = some m ∧ m.kind = n.kind

theorem KeepsKinds.refl (f : Forest) : KeepsKinds f f :=
  ⟨Nat.le_refl _, fun hn => ⟨_, hn, rfl⟩⟩

theorem KeepsKinds.trans (hfg : KeepsKinds f g) (hgh : KeepsKinds g h) : KeepsKinds f h := by
  constructor
  · exact hfg.size_le.trans hgh.size_le
  · intro i n hn
    rcases hfg.kind hn with ⟨m, hm, hkind⟩
    rcases hgh.kind hm with ⟨k, hk, hkind'⟩
    exact ⟨k, hk, hkind'.trans hkind⟩

theorem KeepsKinds.satisfies (hfg : KeepsKinds f g) (hq : Node.OfKind q) (hi : i < f.size) :
    g.satisfies (some i) q = f.satisfies (some i) q := by
  rcases hfg.kind (node?_of_lt hi) with ⟨m, hm, hkind⟩
  rw [Forest.satisfies, Forest.satisfies, hm, node?_of_lt hi]
  exact hq hkind

theorem Extends.keepsKinds (hfg : Extends f g) : KeepsKinds f g := by
  constructor
  · exact hfg.size_le
  · intro i n hn
    exact ⟨n, (hfg.node? (lt_size_of_node? hn)).trans hn, rfl⟩

theorem keepsKinds_add (n : Node Slot) (start stop : Nat) :
    KeepsKinds f (f.add n start stop).2 := by
  constructor
  · rw [size_add]
    exact Nat.le_succ _
  · intro i m hm
    exact ⟨m, (node?_add_of_ne (Nat.ne_of_lt (lt_size_of_node? hm))).trans hm, rfl⟩

theorem keepsKinds_setParent (s t : Slot) : KeepsKinds f (f.setParent s t) := by
  constructor
  · rw [size_setParent]
  · intro i m hm
    refine ⟨m, ?_, rfl⟩
    rw [node?_eq, cell?_setParent, Option.map_map]
    exact hm

theorem keepsKinds_setNode {m : Node Slot} (hn : f.node? (some p) = some n)
    (hm : m.kind = n.kind) : KeepsKinds f (f.setNode p m) := by
  constructor
  · rw [size_setNode]
  · intro i k hk
    rcases Option.map_eq_some_iff.mp hk with ⟨c, hc, rfl⟩
    by_cases hi : i = p
    · subst hi
      obtain rfl := Option.some.inj (hn.symm.trans hk)
      refine ⟨m, ?_, hm⟩
      rw [node?_eq, cell?_setNode, hc]
      simp
    · refine ⟨c.node, ?_, rfl⟩
      rw [node?_eq, cell?_setNode, hc]
      simp [hi]

theorem keepsKinds_replace (old new : Slot) : KeepsKinds f (f.replace old new).1 := by
  unfold replace
  split
  · split
    · exact .refl f
    · split
      · exact .refl f
      · rename_i hn
        dsimp only
        split
        · exact ((keepsKinds_setNode hn (Node.kind_replaceFirst _ _ _)).trans
            (keepsKinds_setParent _ _)).trans (keepsKinds_setParent _ _)
        · exact .refl f
  · exact .refl f

theorem keepsKinds_detach (s : Slot) : KeepsKinds f (f.detach s).1 := by
  unfold detach
  split
  · exact .refl f
  · split
    · exact .refl f
    · rename_i hn
      dsimp only
      split
      · exact (keepsKinds_setNode hn (Node.kind_withoutChild _ _)).trans (keepsKinds_setParent _ _)
      · exact .refl f

theorem keepsKinds_remove (s : Slot) : KeepsKinds f (f.remove s).1 := by
  unfold remove splice
  split
  · exact .refl f
  · split
    · rename_i p _ _ changed hchanged
      rcases Option.bind_eq_some_iff.mp hchanged with ⟨owner, hn, hsplice⟩
      have hkind : changed.kind = owner.kind := by
        unfold spliceStatements? at hsplice
        split at hsplice
        · rcases Option.map_eq_some_iff.mp hsplice with ⟨entries, _, rfl⟩
          exact owner.kind_withEntries entries
        · cases hsplice
      exact (keepsKinds_setNode hn hkind).trans (keepsKinds_setParent _ _)
    · exact (keepsKinds_add _ 0 0).trans (keepsKinds_replace _ _)

/-!
## Trees that narrow
-/

/-- The program is still one, nothing old has come back into its tree, and nothing new in its tree
is of the kind. -/
structure Narrows (q : Node Slot → Bool) (root : NodeId) (f g : Forest) : Prop where
  program : g.HasProgram root
  kinds : KeepsKinds f g
  old : ∀ {i}, g.Within i root → i < f.size → f.Within i root
  new : ∀ {i}, g.Within i root → f.size ≤ i → g.satisfies (some i) q = false

theorem HasProgram.lt_size (hf : f.HasProgram root) : root < f.size := by
  rcases hf.node with ⟨statements, hn⟩
  exact lt_size_of_node? hn

theorem Narrows.refl (hf : f.HasProgram root) : Narrows q root f f := by
  constructor
  · exact hf
  · exact .refl f
  · intro i hi _
    exact hi
  · intro i hi hle
    exact absurd (lt_size_of_within hi hf.lt_size) (Nat.not_lt.mpr hle)

theorem Narrows.trans (hq : Node.Consumable q) (hfg : Narrows q root f g)
    (hgh : Narrows q root g h) : Narrows q root f h := by
  have hle := hfg.kinds.size_le
  constructor
  · exact hgh.program
  · exact hfg.kinds.trans hgh.kinds
  · intro i hi hlt
    exact hfg.old (hgh.old hi (Nat.lt_of_lt_of_le hlt hle)) hlt
  · intro i hi hnew
    by_cases hlt : i < g.size
    · rw [hgh.kinds.satisfies hq.ofKind hlt]
      exact hfg.new (hgh.old hi hlt) hnew
    · exact hgh.new hi (Nat.not_lt.mp hlt)

/-- The program stays where it is, whatever the edit. -/
theorem KeepsKinds.hasProgram (hfg : KeepsKinds f g) (hf : f.HasProgram root)
    (hg : g.WellFormed) (hparent : g.parent (some root) = none) : g.HasProgram root := by
  rcases hf.node with ⟨statements, hn⟩
  rcases hfg.kind hn with ⟨m, hm, hkind⟩
  refine ⟨hg, hparent, ?_⟩
  cases m with
  | body form statements' =>
      obtain ⟨rfl, _⟩ := Node.body.inj hkind
      exact ⟨statements', hm⟩
  | guarded form _ _ => cases form <;> cases hkind
  | _ => cases hkind

/-- Only what lies below a node that is put in can be new in a tree. -/
theorem Exchange.within_root {new : List NodeId} (hx : Exchange f g p old new)
    (hi : g.Within i root) :
    f.Within i root ∨ f.Within p root ∧ ∃ c ∈ new, f.Within i c := by
  rcases hx with ⟨owner, changed, slots, hr, hex, _⟩
  induction hi using ReflTransGen.head_induction_on with
  | refl => exact .inl .refl
  | @head a b hlink _ ih =>
      have ha : a < f.size := hr.size ▸ lt_size_of_parent hlink
      rcases (hr.link hex ha).mp hlink with ⟨hnew, rfl⟩ | ⟨_, hold⟩
      · rcases ih with hroot | ⟨_, c, hc, hbelow⟩
        · exact .inr ⟨hroot, a, hnew, .refl⟩
        · exact absurd hbelow (hex.above c hc)
      · rcases ih with hroot | ⟨hroot, c, hc, hbelow⟩
        · exact .inl (.head hold hroot)
        · exact .inr ⟨hroot, c, hc, .head hold hbelow⟩

/-- What is taken out is out of the tree. -/
theorem Exchange.old_not_within {new : List NodeId} (hx : Exchange f g p old new)
    (hf : f.HasProgram root) : ¬ g.Within old root := by
  rcases hx with ⟨owner, changed, slots, hr, hex, _⟩
  have hlt := lt_size_of_parent hex.linked
  intro hpath
  rcases ReflTransGen.cases_head hpath with rfl | ⟨b, hlink, _⟩
  · cases hf.parent.symm.trans hex.linked
  · rw [Link, hr.parent hlt, if_pos rfl] at hlink
    cases hlink

theorem Exchange.parent_root {new : List NodeId} (hx : Exchange f g p old new)
    (hf : f.HasProgram root) (hroot : root ∉ new) : g.parent (some root) = none := by
  rcases hx with ⟨owner, changed, slots, hr, hex, _⟩
  rw [hr.parent hf.lt_size, if_neg hroot, hf.parent, ite_self]

/-- One more exchange narrows a tree if what is put in is either new or comes from where it is put
in. -/
theorem Narrows.exchange {f' : Forest} {new : List NodeId} (hq : Node.Consumable q)
    (hfg : Narrows q root f f') (hx : Exchange f' g p old new) (hkinds : KeepsKinds f' g)
    (hroot : root ∉ new)
    (hold : ∀ c ∈ new, ∀ x, f'.Within p root → f'.Within x c → x < f.size → f.Within x root)
    (hnew : ∀ c ∈ new, ∀ x, f'.Within x c → f.size ≤ x → f'.satisfies (some x) q = false) :
    Narrows q root f g := by
  have hf' := hfg.program
  have hg : g.HasProgram root :=
    hkinds.hasProgram hf' (hx.wellFormed hf'.wellFormed) (hx.parent_root hf' hroot)
  constructor
  · exact hg
  · exact hfg.kinds.trans hkinds
  · intro x hwithin hlt
    rcases hx.within_root hwithin with hroot | ⟨hp, c, hc, hbelow⟩
    · exact hfg.old hroot hlt
    · exact hold c hc x hp hbelow hlt
  · intro x hwithin hle
    have hlt : x < f'.size := by
      rw [← hx.size]
      exact lt_size_of_within hwithin hg.lt_size
    rw [hkinds.satisfies hq.ofKind hlt]
    rcases hx.within_root hwithin with hroot | ⟨_, c, hc, hbelow⟩
    · exact hfg.new hroot hle
    · exact hnew c hc x hbelow hle

theorem narrows_add (hf : f.HasProgram root) (hn : f.Adoptable n) (hroot : root ∉ childrenOf n) :
    Narrows q root f (f.addNew n).2 := by
  have hwithin : ∀ {i}, (f.addNew n).2.Within i root → f.Within i root :=
    within_of_add hn (Nat.ne_of_lt hf.lt_size)
  constructor
  · apply (keepsKinds_add n 0 0).hasProgram hf (wellFormed_add hf.wellFormed hn)
    exact (parent_add_of_ne (Nat.ne_of_lt hf.lt_size) hroot).trans hf.parent
  · exact keepsKinds_add n 0 0
  · intro i hi _
    exact hwithin hi
  · intro i hi hle
    exact absurd (lt_size_of_within (hwithin hi) hf.lt_size) (Nat.not_lt.mpr hle)

theorem Extends.narrows (hfg : Extends f g) (hf : f.HasProgram root) (hg : g.WellFormed) :
    Narrows q root f g := by
  constructor
  · exact hfg.keepsKinds.hasProgram hf hg ((hfg.parent hf.lt_size).trans hf.parent)
  · exact hfg.keepsKinds
  · intro i hi _
    exact (hfg.within hf.wellFormed hg hf.lt_size hi).2
  · intro i hi hle
    exact absurd (hfg.within hf.wellFormed hg hf.lt_size hi).1 (Nat.not_lt.mpr hle)

theorem narrows_detach (hq : Node.Consumable q) (hf : f.HasProgram root) (s : Slot) :
    Narrows q root f (f.detach s).1 := by
  cases hparent : f.parent s with
  | none =>
      rw [detach_of_parent_none hparent]
      exact .refl hf
  | some p =>
      cases s with
      | none => cases hparent
      | some o =>
          rcases detach_of_link hf.wellFormed hparent with ⟨g, hg, hx⟩
          have hkinds := keepsKinds_detach (f := f) (some o)
          rw [hg] at hkinds ⊢
          exact (Narrows.refl hf).exchange hq hx hkinds (by simp) (by simp) (by simp)

/-- What is put in is a new node alone. -/
theorem Narrows.exchange_leaf {f' : Forest} {j : NodeId} (hq : Node.Consumable q)
    (hf : f.HasProgram root) (hfg : Narrows q root f f') (hx : Exchange f' g p old [j])
    (hkinds : KeepsKinds f' g) (hj : f.size ≤ j) (hleaf : ∀ x, f'.Within x j → x = j)
    (hnew : f'.satisfies (some j) q = false) : Narrows q root f g := by
  have hroot : root ∉ [j] := by
    rw [List.mem_singleton]
    rintro rfl
    exact absurd hf.lt_size (Nat.not_lt.mpr hj)
  apply hfg.exchange hq hx hkinds hroot
  · intro c hc x _ hbelow hlt
    obtain rfl := List.mem_singleton.mp hc
    obtain rfl := hleaf x hbelow
    exact absurd hlt (Nat.not_lt.mpr hj)
  · intro c hc x hbelow _
    obtain rfl := List.mem_singleton.mp hc
    obtain rfl := hleaf x hbelow
    exact hnew

theorem narrows_remove (hq : Node.Consumable q) (hf : f.HasProgram root) (s : Slot) :
    Narrows q root f (f.remove s).1 := by
  have hkinds := keepsKinds_remove (f := f) s
  cases hparent : f.parent s with
  | none =>
      rw [remove, splice, hparent]
      exact .refl hf
  | some p =>
      cases s with
      | none => cases hparent
      | some o =>
          rcases splice_of_link hf.wellFormed hparent (replacements_nil f (some o)) with
            ⟨g, hg, hx | ⟨n, hn, hadopt, hreplace, hx⟩⟩
          · rw [remove, hg] at hkinds ⊢
            exact (Narrows.refl hf).exchange hq hx hkinds (by simp) (by simp) (by simp)
          · have hchildren : childrenOf n = [] := by
              rcases hn with rfl | rfl <;> rfl
            have hcalm : q n = false := by
              rcases hn with rfl | rfl
              · exact hq.empty
              · exact hq.block []
            have hput := keepsKinds_replace (f := (f.addNew n).2) (some o) (some f.size)
            rw [hreplace] at hput
            rw [remove, hg]
            have hadd := narrows_add (q := q) hf hadopt (by simp [hchildren])
            apply hadd.exchange_leaf hq hf hx hput (Nat.le_refl _)
            · intro x hbelow
              rcases within_add_self hf.wellFormed hadopt hbelow with heq | ⟨c, hc, _⟩
              · exact heq
              · rw [hchildren] at hc
                cases hc
            · rw [satisfies, addNew, node?_add_self]
              exact hcalm

/-- A copy of a literal takes the place of a node. -/
theorem narrows_replace_copy (hq : Node.Consumable q) (hf : f.HasProgram root)
    (hs : f.satisfies s Node.isLiteral = true) (hold : old < f.size) :
    Narrows q root f ((f.copy s).2.replace (some old) (f.copy s).1).1 ∧
      (((f.copy s).2.replace (some old) (f.copy s).1).2 = true →
        ¬ ((f.copy s).2.replace (some old) (f.copy s).1).1.Within old root) := by
  cases s with
  | none => cases hs
  | some e =>
      rcases (Option.any_eq_true _ _).mp hs with ⟨n, hn, hliteral⟩
      have hslots := Node.slots_of_isLiteral hliteral
      rcases copied_copy hf.wellFormed (lt_size_of_node? hn) with ⟨j, f', hcopy, hcopied⟩
      have hj : f.size ≤ j := hcopied.new j .refl
      have hnode := hcopied.node?_of_leaf hn hslots
      have hleaf : ∀ x, f'.Within x j → x = j := fun x =>
        eq_of_within_leaf hcopied.wellFormed hnode hslots
      have hextends := hcopied.extends_.narrows (q := q) hf hcopied.wellFormed
      have habove : ∀ o i, some old = some o → some j = some i → ¬ f'.Within o i := by
        intro o i ho hi hpath
        obtain rfl := Option.some.inj ho
        obtain rfl := Option.some.inj hi
        obtain rfl := hleaf old hpath
        exact absurd hold (Nat.not_lt.mpr hj)
      have hput := keepsKinds_replace (f := f') (some old) (some j)
      rw [hcopy]
      rcases replace_cases hcopied.wellFormed (some old) (some j) habove with
        hsame | ⟨o, p, i, g, ho, hi, hg, hx⟩
      · rw [hsame]
        constructor
        · exact hextends
        · intro hno
          cases hno
      · rw [hg] at hput ⊢
        obtain rfl := Option.some.inj ho
        obtain rfl := Option.some.inj hi
        constructor
        · apply hextends.exchange_leaf hq hf hx hput hj hleaf
          rw [satisfies, hnode]
          exact hq.literal n hliteral
        · intro _
          exact hx.old_not_within hextends.program

/-!
## Counting
-/

/-- A node of the kind is no longer in the tree. -/
def Loses (q : Node Slot → Bool) (root : NodeId) (f g : Forest) : Prop :=
  ∃ i, f.Within i root ∧ f.satisfies (some i) q = true ∧ ¬ g.Within i root

/-- What is lost does not come back. -/
theorem Loses.narrows (hf : f.HasProgram root) (hfg : Narrows q root f g)
    (hloses : Loses q root f g) (hgh : Narrows q root g h) : Loses q root f h := by
  rcases hloses with ⟨i, hi, hkind, hgone⟩
  have hlt := Nat.lt_of_lt_of_le (lt_size_of_within hi hf.lt_size) hfg.kinds.size_le
  exact ⟨i, hi, hkind, fun hback => hgone (hgh.old hback hlt)⟩

/-- What is lost later has been there all the time. -/
theorem Narrows.loses (hq : Node.Consumable q) (hfg : Narrows q root f g)
    (hloses : Loses q root g h) : Loses q root f h := by
  rcases hloses with ⟨i, hi, hkind, hgone⟩
  by_cases hlt : i < f.size
  · rw [hfg.kinds.satisfies hq.ofKind hlt] at hkind
    exact ⟨i, hfg.old hi hlt, hkind, hgone⟩
  · rw [hfg.new hi (Nat.not_lt.mp hlt)] at hkind
    cases hkind

/-- The nodes of the kind in a tree. -/
def nodesOf (q : Node Slot → Bool) (f : Forest) (s : Slot) : List NodeId :=
  (f.preorder s).filter fun i => f.satisfies (some i) q

theorem HasProgram.mem_nodesOf (hf : f.HasProgram root) :
    i ∈ nodesOf q f (some root) ↔ f.Within i root ∧ f.satisfies (some i) q = true := by
  rw [nodesOf, List.mem_filter, hf.wellFormed.mem_preorder hf.lt_size]

theorem HasProgram.nodup_nodesOf (hf : f.HasProgram root) :
    (nodesOf q f (some root)).Nodup :=
  (hf.wellFormed.nodup_preorder hf.lt_size).filter _

theorem Narrows.nodesOf_subset (hq : Node.Consumable q) (hf : f.HasProgram root)
    (hfg : Narrows q root f g) : nodesOf q g (some root) ⊆ nodesOf q f (some root) := by
  intro i hi
  rcases hfg.program.mem_nodesOf.mp hi with ⟨hwithin, hkind⟩
  have hlt : i < f.size := by
    by_contra hnew
    rw [hfg.new hwithin (Nat.not_lt.mp hnew)] at hkind
    cases hkind
  rw [hfg.kinds.satisfies hq.ofKind hlt] at hkind
  exact hf.mem_nodesOf.mpr ⟨hfg.old hwithin hlt, hkind⟩

theorem Loses.length_lt (hq : Node.Consumable q) (hf : f.HasProgram root)
    (hfg : Narrows q root f g) (hloses : Loses q root f g) :
    (nodesOf q g (some root)).length < (nodesOf q f (some root)).length := by
  rcases hloses with ⟨i, hi, hkind, hgone⟩
  have hnot : i ∉ nodesOf q g (some root) := fun hmem =>
    hgone (hfg.program.mem_nodesOf.mp hmem).1
  have hnodup := List.nodup_cons.mpr ⟨hnot, hfg.program.nodup_nodesOf⟩
  have hsubset : i :: nodesOf q g (some root) ⊆ nodesOf q f (some root) := by
    apply List.cons_subset.mpr
    constructor
    · exact hf.mem_nodesOf.mpr ⟨hi, hkind⟩
    · exact hfg.nodesOf_subset hq hf
  exact (hnodup.subperm hsubset).length_le

end Forest

namespace Edit

open Forest

variable {α β : Type} {f g : Forest} {root : NodeId} {q : Node Slot → Bool}
  {act : Edit α} {next : α → Edit β} {site : α → Edit Bool} {sites : List α}

/-!
## Narrowing edits
-/

/-- Every tree of a program is narrowed. -/
def Narrowing (q : Node Slot → Bool) (root : NodeId) (act : Edit α) : Prop :=
  ∀ f, f.HasProgram root → Narrows q root f (act.run f).2

theorem narrowing_pure (a : α) : Narrowing q root (pure a) := by
  intro f hf
  exact .refl hf

theorem narrowing_look (query : Forest → α) : Narrowing q root (look query) := by
  intro f hf
  exact .refl hf

theorem narrowing_get : Narrowing q root get := by
  intro f hf
  exact .refl hf

theorem narrowing_bind (hq : Node.Consumable q) (h : Narrowing q root act)
    (hnext : ∀ a, Narrowing q root (next a)) : Narrowing q root (act >>= next) := by
  intro f hf
  have hfirst := h f hf
  exact hfirst.trans hq (hnext _ _ hfirst.program)

theorem narrowing_detach (hq : Node.Consumable q) (s : Slot) :
    Narrowing q root (Edit.detach s) := by
  intro f hf
  exact narrows_detach hq hf s

theorem narrowing_remove (hq : Node.Consumable q) (s : Slot) :
    Narrowing q root (Edit.remove s) := by
  intro f hf
  exact narrows_remove hq hf s

theorem narrowing_changeAll (hq : Node.Consumable q)
    (h : ∀ a ∈ sites, Narrowing q root (site a)) : Narrowing q root (changeAll site sites) := by
  induction sites with
  | nil => exact narrowing_pure false
  | cons a sites ih =>
      rw [List.forall_mem_cons] at h
      intro f hf
      rw [run_changeAll_cons]
      have hfirst := h.1 f hf
      exact hfirst.trans hq (ih h.2 _ hfirst.program)

theorem narrowing_removeDeclarator (hq : Node.Consumable q) (s : Slot) :
    Narrowing q root (removeDeclarator s) := by
  apply narrowing_bind hq narrowing_get
  intro f
  dsimp only
  split
  · exact narrowing_pure false
  · exact narrowing_pure false
  · apply narrowing_bind hq (narrowing_detach hq s)
    intro done
    split
    · apply narrowing_bind hq (narrowing_look _)
      intro isEmpty
      split
      · split
        · exact narrowing_bind hq (narrowing_detach hq _) fun _ => narrowing_pure true
        · exact narrowing_bind hq (narrowing_remove hq _) fun _ => narrowing_pure true
      · exact narrowing_pure true
    · exact narrowing_pure false

/-- The first site that changes the tree of a program loses a node of it. -/
theorem loses_changeAll (hq : Node.Consumable q) (hf : f.HasProgram root)
    (h : ∀ a ∈ sites, Narrowing q root (site a)) (hreports : ∀ a ∈ sites, Reports id (site a) f)
    (hloses : ∀ a ∈ sites, ((site a).run f).1 = true → Loses q root f ((site a).run f).2)
    (hchanged : ((changeAll site sites).run f).1 = true) :
    Loses q root f ((changeAll site sites).run f).2 := by
  induction sites with
  | nil => cases hchanged
  | cons a sites ih =>
      rw [List.forall_mem_cons] at h hreports hloses
      rw [run_changeAll_cons] at hchanged ⊢
      have hfirst := h.1 f hf
      cases hdone : ((site a).run f).1 with
      | true =>
          exact (hloses.1 hdone).narrows hf hfirst (narrowing_changeAll hq h.2 _ hfirst.program)
      | false =>
          have hsame : ((site a).run f).2 = f := hreports.1 hdone
          rw [hdone, hsame] at hchanged
          rw [hsame]
          exact ih h.2 hreports.2 hloses.2 hchanged

end Edit
end Untangle
