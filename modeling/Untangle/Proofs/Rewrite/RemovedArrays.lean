import Untangle.Proofs.Rewrite.InlinedReads
import Untangle.Proofs.Scope.References
import Untangle.Proofs.Tree.Levels

/-!
# Removed arrays

An array is removed once its reads have been inlined, and its statement with it if that declares
nothing else. Only what belongs to a loop over keys or values stays. Everything else that is in the
tree stays in it.
-/

namespace Untangle

open Forest Rewrite
open Relation (ReflTransGen)

variable {f g h : Forest} {root i j p d old : NodeId} {n : Node Slot}

/-!
## Nodes that are cut off
-/

/-- The node is cut off from its parent. What else there was is left as it was. -/
structure Forest.Cut (f g : Forest) (old p : NodeId) : Prop where
  wellFormed : g.WellFormed
  kinds : KeepsKinds f g
  linked : f.Link old p
  link : ∀ {i j}, i < f.size → (g.Link i j ↔ i ≠ old ∧ f.Link i j)
  node : ∀ {i n}, f.node? (some i) = some n → i ≠ p → g.node? (some i) = some n

namespace Forest

theorem cut_detach (hf : f.WellFormed) (hlink : f.Link old p) :
    ∃ g, f.detach (some old) = (g, true) ∧ f.Cut g old p := by
  rcases detach_of_link hf hlink with ⟨g, hg, hx⟩
  have hkinds := keepsKinds_detach (f := f) (some old)
  rw [hg] at hkinds
  refine ⟨g, hg, hx.wellFormed hf, hkinds, hlink, fun _ => hx.link_detached, ?_⟩
  intro i n hn hne
  rcases hx with ⟨owner, changed, slots, hr, _⟩
  exact (hr.node?_of_ne hne).trans hn

/-- What stands in for a statement has nothing below it. -/
theorem cut_remove (hf : f.WellFormed) (hlink : f.Link old p) :
    ∃ g, f.remove (some old) = (g, true) ∧ f.Cut g old p := by
  rcases splice_of_link hf hlink (replacements_nil f (some old)) with
    ⟨g, hg, hx | ⟨n, hn, hadopt, _, hx⟩⟩
  all_goals
    have hkinds := keepsKinds_remove (f := f) (some old)
    rw [remove, hg] at hkinds
  · refine ⟨g, hg, hx.wellFormed hf, hkinds, hlink, fun _ => hx.link_detached, ?_⟩
    intro i n hn hne
    rcases hx with ⟨owner, changed, slots, hr, _⟩
    exact (hr.node?_of_ne hne).trans hn
  · have hchildren : childrenOf n = [] := by
      rcases hn with rfl | rfl <;> rfl
    refine ⟨g, hg, hx.wellFormed (wellFormed_add hf hadopt), hkinds, hlink, ?_, ?_⟩
    all_goals rcases hx with ⟨owner, changed, slots, hr, hex, _⟩
    · intro i j hi
      have hi' : i < (f.addNew n).2.size := by
        rw [addNew, size_add]
        exact Nat.lt_succ_of_lt hi
      rw [hr.link hex hi', addNew, link_add hadopt]
      simp [hchildren, Nat.ne_of_lt hi]
    · intro i m hm hne
      have hkept : (f.addNew n).2.node? (some i) = f.node? (some i) :=
        node?_add_of_ne (Nat.ne_of_lt (lt_size_of_node? hm))
      exact (hr.node?_of_ne hne).trans (hkept.trans hm)

namespace Cut

variable (hcut : f.Cut g old p)

include hcut

theorem hasProgram (hf : f.HasProgram root) : g.HasProgram root := by
  apply hcut.kinds.hasProgram hf hcut.wellFormed
  by_contra hparent
  rcases Option.ne_none_iff_exists'.mp hparent with ⟨q, hq⟩
  cases hf.parent.symm.trans ((hcut.link hf.lt_size).mp hq).2

theorem within_of_within (hf : f.WellFormed) (hi : i < f.size) (hpath : g.Within i j) :
    f.Within i j := by
  induction hpath using ReflTransGen.head_induction_on with
  | refl => exact .refl
  | head hlink _ ih =>
      have hold := ((hcut.link hi).mp hlink).2
      exact .head hold (ih (hf.lt_size_of_link hold))

/-- What is in the tree and not below the node stays in the tree. -/
theorem within_iff (hf : f.HasProgram root) (hi : i < f.size) :
    g.Within i root ↔ f.Within i root ∧ ¬ f.Within i old := by
  have hroot : ¬ f.Within root old := by
    intro hpath
    rcases ReflTransGen.cases_head hpath with rfl | ⟨q, hq, _⟩
    · cases hf.parent.symm.trans hcut.linked
    · cases hf.parent.symm.trans hq
  constructor
  · intro hpath
    refine ⟨hcut.within_of_within hf.wellFormed hi hpath, ?_⟩
    induction hpath using ReflTransGen.head_induction_on with
    | refl => exact hroot
    | head hlink _ ih =>
        obtain ⟨hne, hold⟩ := (hcut.link hi).mp hlink
        intro hbelow
        rcases ReflTransGen.cases_head hbelow with heq | ⟨q, hq, hbelow⟩
        · exact hne heq
        · exact ih (hf.wellFormed.lt_size_of_link hold) (Link.unique hq hold ▸ hbelow)
  · rintro ⟨hpath, hnot⟩
    induction hpath using ReflTransGen.head_induction_on with
    | refl => exact .refl
    | head hlink _ ih =>
        have hne : ∀ {a}, ¬ f.Within a old → a ≠ old := by
          rintro a hnot rfl
          exact hnot .refl
        exact .head ((hcut.link hi).mpr ⟨hne hnot, hlink⟩)
          (ih (hf.wellFormed.lt_size_of_link hlink) fun hbelow => hnot (.head hlink hbelow))

end Cut
end Forest

/-!
## Declarators
-/

namespace Node

variable {α : Type}

def isIteration : Node α → Bool
  | iteration _ _ _ _ _ => true
  | _ => false

theorem isIteration_kind (n : Node α) : n.kind.isIteration = n.isIteration := by
  cases n with
  | bare form | guarded form => cases form <;> rfl
  | _ => rfl

theorem ofKind_isIteration : OfKind isIteration :=
  ofKind_of_kind isIteration_kind

theorem isIteration_map {β : Type} (n : Node α) (c : α → β) :
    (n.map c).isIteration = n.isIteration := by
  cases n with
  | bare form | guarded form => cases form <;> rfl
  | _ => rfl

theorem surroundsStatements_map {β : Type} (n : Node α) (c : α → β) :
    (n.map c).surroundsStatements = n.surroundsStatements := by
  cases n with
  | bare form | guarded form => cases form <;> rfl
  | _ => rfl

end Node

theorem Edit.eq_nil_of_isEmptyDeclaration (h : isEmptyDeclaration f (some i) = true) :
    ∃ kind, f.node? (some i) = some (.variableStatement kind []) := by
  rcases (Option.any_eq_true _ _).mp h with ⟨n, hn, hempty⟩
  cases n with
  | variableStatement kind declarators =>
      obtain rfl := List.isEmpty_iff.mp hempty
      exact ⟨kind, hn⟩
  | _ => cases hempty

/-- A declarator goes out of the tree unless its statement stands in a loop over keys or values. An
empty statement follows it. -/
theorem Edit.removeDeclarator_cases (hg : g.WellFormed) (hlink : g.Link d i)
    (hholder : g.Link i p) :
    (g.satisfies (some p) Node.isIteration = true ∧
        (removeDeclarator (some d)).run g = (false, g)) ∨
      g.satisfies (some p) Node.isIteration = false ∧ ∃ g₁ h,
        (removeDeclarator (some d)).run g = (true, h) ∧ g.Cut g₁ d i ∧
          (h = g₁ ∨ g₁.Cut h i p ∧
            ∃ kind, g₁.node? (some i) = some (.variableStatement kind [])) := by
  obtain ⟨n, hn⟩ : ∃ n, g.node? (some p) = some n :=
    ⟨_, node?_of_lt (hg.lt_size_of_link hholder)⟩
  rw [removeDeclarator, run_get_bind, satisfies]
  dsimp only
  rw [show g.parent (some d) = some i from hlink, show g.parent (some i) = some p from hholder, hn]
  split
  · rename_i hnone
    cases hnone
  · rename_i hiteration
    obtain rfl := Option.some.inj hiteration
    exact .inl ⟨rfl, rfl⟩
  · rename_i holder hother hholder'
    obtain rfl := Option.some.inj hholder'
    have hstays : n.isIteration = false := by
      cases n with
      | iteration form target subject statement isAwait =>
          exact absurd rfl (hother form target subject statement isAwait)
      | _ => rfl
    rcases cut_detach hg hlink with ⟨g₁, hdetach, hcut⟩
    have hrun : (Edit.detach (some d)).run g = (true, g₁) := congrArg Prod.swap hdetach
    refine .inr ⟨hstays, g₁, ?_⟩
    rw [run_bind, hrun]
    dsimp only
    rw [if_pos rfl, run_look_bind]
    cases hempty : isEmptyDeclaration g₁ (some i) with
    | false => exact ⟨g₁, rfl, hcut, .inl rfl⟩
    | true =>
        have hi : i ≠ d := by
          rintro rfl
          exact hg.not_within_of_link hlink .refl
        have hlink₁ : g₁.Link i p := (hcut.link (lt_size_of_parent hholder)).mpr ⟨hi, hholder⟩
        have hkind := eq_nil_of_isEmptyDeclaration hempty
        rw [if_pos rfl]
        split
        · rcases cut_detach hcut.wellFormed hlink₁ with ⟨h, hh, hcut'⟩
          have hrun' : (Edit.detach (some i)).run g₁ = (true, h) := congrArg Prod.swap hh
          refine ⟨h, ?_, hcut, .inr ⟨hcut', hkind⟩⟩
          rw [run_bind, hrun']
          rfl
        · rcases cut_remove hcut.wellFormed hlink₁ with ⟨h, hh, hcut'⟩
          have hrun' : (Edit.remove (some i)).run g₁ = (true, h) := congrArg Prod.swap hh
          refine ⟨h, ?_, hcut, .inr ⟨hcut', hkind⟩⟩
          rw [run_bind, hrun']
          rfl

/-!
## Arrays
-/

/-- A name is declared for an array of literals. -/
def Forest.DeclaresArray (f : Forest) (d : NodeId) : Prop :=
  ∃ target initializer text elements,
    f.node? (some d) = some (.declarator (some target) (some initializer)) ∧
      f.node? (some target) = some (.name .identifier text) ∧
      f.node? (some initializer) = some (.list .arrayLiteral elements) ∧
      ∀ s ∈ elements, ∃ e n, s = some e ∧ f.node? (some e) = some n ∧ n.isLiteral = true

/-- The statement at `i`, which stands in `p`, declares the array. -/
structure Forest.PlacedArray (f : Forest) (root d i p : NodeId) : Prop where
  array : f.DeclaresArray d
  within : f.Within d root
  link : f.Link d i
  statement : ∃ kind declarators, f.node? (some i) = some (.variableStatement kind declarators)
  holder : f.Link i p
  surrounds : ∃ n, f.node? (some p) = some n ∧ n.surroundsStatements = true

/-- Below an array there are its name, its list of elements, and the elements. -/
theorem Forest.DeclaresArray.within_cases (hd : f.DeclaresArray d) (hf : f.WellFormed)
    (hi : f.Within i d) :
    i = d ∨ (f.Link i d ∧ ∃ text, f.node? (some i) = some (.name .identifier text)) ∨
      (∃ elements, f.node? (some i) = some (.list .arrayLiteral elements)) ∨
      ∃ n, f.node? (some i) = some n ∧ n.isLiteral = true := by
  rcases hd with ⟨target, initializer, text, elements, hnode, htarget, hinitializer, helements⟩
  rcases within_iff.mp hi with rfl | ⟨c, hlink, hbelow⟩
  · exact .inl rfl
  · have hmem := hf.linked.mp hlink
    rw [children_of_node? hnode, mem_childrenOf] at hmem
    rcases List.mem_pair.mp hmem with heq | heq
    · obtain rfl := Option.some.inj heq
      obtain rfl := eq_of_within_leaf hf htarget rfl hbelow
      exact .inr (.inl ⟨hlink, text, htarget⟩)
    · obtain rfl := Option.some.inj heq
      rcases within_iff.mp hbelow with rfl | ⟨e, hlink', hbelow'⟩
      · exact .inr (.inr (.inl ⟨elements, hinitializer⟩))
      · have hmem' := hf.linked.mp hlink'
        rw [children_of_node? hinitializer, mem_childrenOf] at hmem'
        rcases helements _ hmem' with ⟨k, n, heq, hn, hliteral⟩
        obtain rfl := Option.some.inj heq
        obtain rfl := eq_of_within_leaf hf hn (Node.slots_of_isLiteral hliteral) hbelow'
        exact .inr (.inr (.inr ⟨n, hn, hliteral⟩))

/-- Some arrays have gone out of the tree with their statements, and nothing else has happened to
what was there. -/
structure ArraysRemoved (f g : Forest) (root : NodeId) (removed : NodeId → Prop) : Prop where
  program : g.HasProgram root
  kinds : KeepsKinds f g
  link : ∀ {i j}, i < f.size → g.Link i j → f.Link i j
  node : ∀ {i n}, f.node? (some i) = some n → n.surroundsStatements = false →
    g.node? (some i) = some n
  gone : ∀ {d}, removed d → f.DeclaresArray d ∧ ¬ g.Within d root
  left : ∀ {i n}, f.node? (some i) = some n →
    (∀ kind declarators, n ≠ .variableStatement kind declarators) →
      f.Within i root → (∀ d, removed d → ¬ f.Within i d) → g.Within i root

namespace ArraysRemoved

variable {removed removed' : NodeId → Prop}

theorem refl (hf : f.HasProgram root) : ArraysRemoved f f root fun _ => False :=
  ⟨hf, .refl f, fun _ => id, fun hn _ => hn, fun h => h.elim, fun _ _ hi _ => hi⟩

theorem of_iff (h : ArraysRemoved f g root removed) (hiff : ∀ d, removed' d ↔ removed d) :
    ArraysRemoved f g root removed' := by
  obtain rfl : removed' = removed := funext fun d => propext (hiff d)
  exact h

variable (hx : ArraysRemoved f g root removed)

include hx

theorem within (hf : f.WellFormed) (hi : i < f.size) (hpath : g.Within i j) : f.Within i j := by
  induction hpath using ReflTransGen.head_induction_on with
  | refl => exact .refl
  | head hlink _ ih =>
      have hold := hx.link hi hlink
      exact .head hold (ih (hf.lt_size_of_link hold))

/-- What is still in the tree is where it was. -/
theorem link_of_within (hf : f.HasProgram root) (hi : g.Within i root) (hlink : f.Link i j) :
    g.Link i j ∧ g.Within j root := by
  rcases ReflTransGen.cases_head hi with rfl | ⟨k, hk, hpath⟩
  · cases hf.parent.symm.trans hlink
  · obtain rfl := Link.unique (hx.link (lt_size_of_parent hlink) hk) hlink
    exact ⟨hk, hpath⟩

/-- Arrays do not lie in one another. -/
theorem within_iff_not (hf : f.HasProgram root) (hd : f.PlacedArray root d i p) :
    g.Within d root ↔ ¬ removed d := by
  rcases hd.array with ⟨_, _, _, _, hnode, _⟩
  refine ⟨fun hleft hgone => (hx.gone hgone).2 hleft, fun hnot => ?_⟩
  refine hx.left hnode nofun hd.within fun e he hbelow => ?_
  rcases (hx.gone he).1.within_cases hf.wellFormed hbelow with
    rfl | ⟨_, _, hn⟩ | ⟨_, hn⟩ | ⟨n, hn, hliteral⟩
  · exact hnot he
  · cases hnode.symm.trans hn
  · cases hnode.symm.trans hn
  · obtain rfl := Option.some.inj (hnode.symm.trans hn)
    cases hliteral

/-- One more array goes out of the tree, and its statement may follow it. -/
theorem cut {g₁ g' : Forest} (hf : f.HasProgram root) (hd : f.PlacedArray root d i p)
    (hcut : g.Cut g₁ d i)
    (hempty : g' = g₁ ∨ g₁.Cut g' i p ∧
      ∃ kind, g₁.node? (some i) = some (.variableStatement kind [])) :
    ArraysRemoved f g' root fun e => e = d ∨ removed e := by
  have hg := hx.program
  have hg₁ := hcut.hasProgram hg
  rcases hd.statement with ⟨kind, declarators, hstatement⟩
  rcases hd.surrounds with ⟨holder, hholder, hsurrounds⟩
  have hlt : ∀ {k}, k < f.size → k < g.size := fun hk => Nat.lt_of_lt_of_le hk hx.kinds.size_le
  have hlt₁ : ∀ {k}, k < f.size → k < g₁.size :=
    fun hk => Nat.lt_of_lt_of_le (hlt hk) hcut.kinds.size_le
  have hd_lt := lt_size_of_parent hd.link
  -- The array alone is gone.
  have hfirst : ArraysRemoved f g₁ root fun e => e = d ∨ removed e := by
    refine ⟨hg₁, hx.kinds.trans hcut.kinds, ?_, ?_, ?_, ?_⟩
    · exact fun hk hlink => hx.link hk ((hcut.link (hlt hk)).mp hlink).2
    · intro k n hn hinner
      refine hcut.node (hx.node hn hinner) ?_
      rintro rfl
      obtain rfl := Option.some.inj (hn.symm.trans hstatement)
      cases hinner
    · rintro e (rfl | he)
      · exact ⟨hd.array, fun hleft => ((hcut.within_iff hg (hlt hd_lt)).mp hleft).2 .refl⟩
      · rcases (hx.gone he).1 with ⟨_, _, _, _, hnode, _⟩
        have he_lt := hlt (lt_size_of_node? hnode)
        exact ⟨(hx.gone he).1, fun hleft => (hx.gone he).2 ((hcut.within_iff hg he_lt).mp hleft).1⟩
    · intro k n hn hother hk hnot
      have hk_lt := lt_size_of_node? hn
      refine (hcut.within_iff hg (hlt hk_lt)).mpr ⟨?_, fun hbelow => ?_⟩
      · exact hx.left hn hother hk fun e he => hnot e (.inr he)
      · exact hnot d (.inl rfl) (hx.within hf.wellFormed hk_lt hbelow)
  rcases hempty with rfl | ⟨hcut', kind', hkind'⟩
  · exact hfirst
  · refine ⟨hcut'.hasProgram hg₁, hfirst.kinds.trans hcut'.kinds, ?_, ?_, ?_, ?_⟩
    · exact fun hk hlink => hfirst.link hk ((hcut'.link (hlt₁ hk)).mp hlink).2
    · intro k n hn hinner
      refine hcut'.node (hfirst.node hn hinner) ?_
      rintro rfl
      obtain rfl := Option.some.inj (hn.symm.trans hholder)
      cases hinner.symm.trans hsurrounds
    · intro e he
      rcases (hfirst.gone he).1 with ⟨_, _, _, _, hnode, _⟩
      have he_lt := hlt₁ (lt_size_of_node? hnode)
      refine ⟨(hfirst.gone he).1, fun hleft => (hfirst.gone he).2 ?_⟩
      exact ((hcut'.within_iff hg₁ he_lt).mp hleft).1
    · intro k n hn hother hk hnot
      refine (hcut'.within_iff hg₁ (hlt₁ (lt_size_of_node? hn))).mpr
        ⟨hfirst.left hn hother hk hnot, fun hbelow => ?_⟩
      obtain rfl := eq_of_within_leaf hcut.wellFormed hkind' rfl hbelow
      exact hother _ _ (Option.some.inj (hn.symm.trans hstatement))

end ArraysRemoved

/-- The array is removed when nothing refers to it any more and its statement does not belong to a
loop over keys or values. -/
def Bindings.Drops (b : Bindings) (f : Forest) (d : NodeId) : Prop :=
  ((b.ofDeclaration (some d)).any fun j => (b.references j).isEmpty) = true ∧
    f.satisfies (f.parent (f.parent (some d))) Node.isIteration = false

theorem arraysRemoved_removeUnreadArray {b : Bindings} {removed : NodeId → Prop}
    (hx : ArraysRemoved f g root removed) (hf : f.HasProgram root)
    (hd : f.PlacedArray root d i p) (hnot : ¬ removed d) :
    ArraysRemoved f ((removeUnreadArray b d).run g).2 root fun e =>
      e = d ∧ b.Drops f d ∨ removed e := by
  have hleft := (hx.within_iff_not hf hd).mpr hnot
  obtain ⟨hlink, hstatement⟩ := hx.link_of_within hf hleft hd.link
  obtain ⟨hholder, -⟩ := hx.link_of_within hf hstatement hd.holder
  have hparent : f.parent (f.parent (some d)) = some p := by
    rw [show f.parent (some d) = some i from hd.link]
    exact hd.holder
  have hkind : g.satisfies (some p) Node.isIteration = f.satisfies (some p) Node.isIteration :=
    hx.kinds.satisfies Node.ofKind_isIteration (hf.wellFormed.lt_size_of_link hd.holder)
  have hkeeps : ¬ b.Drops f d →
      ArraysRemoved f g root fun e => e = d ∧ b.Drops f d ∨ removed e := fun hno =>
    hx.of_iff fun e => or_iff_right fun he => hno he.2
  unfold removeUnreadArray
  dsimp only
  split
  · rename_i hunread
    rcases Edit.removeDeclarator_cases hx.program.wellFormed hlink hholder with
      ⟨hloop, hrun⟩ | ⟨hloop, g₁, g', hrun, hcut, hempty⟩
    · rw [hrun]
      refine hkeeps fun hdrops => ?_
      rw [Bindings.Drops, hparent, ← hkind, hloop] at hdrops
      cases hdrops.2
    · rw [hrun]
      have hdrops : b.Drops f d := ⟨hunread, by rw [hparent, ← hkind, hloop]⟩
      exact (hx.cut hf hd hcut hempty).of_iff fun e => or_congr_left (and_iff_left hdrops)
  · rename_i hread
    exact hkeeps fun hdrops => hread hdrops.1

theorem arraysRemoved_changeAll {b : Bindings} {removed : NodeId → Prop} {arrays : List NodeId}
    (hx : ArraysRemoved f g root removed) (hf : f.HasProgram root)
    (hplaced : ∀ d ∈ arrays, ∃ i p, f.PlacedArray root d i p) (hnodup : arrays.Nodup)
    (hnot : ∀ d ∈ arrays, ¬ removed d) :
    ArraysRemoved f ((Edit.changeAll (removeUnreadArray b) arrays).run g).2 root fun d =>
      d ∈ arrays ∧ b.Drops f d ∨ removed d := by
  induction arrays generalizing g removed with
  | nil => exact hx.of_iff fun d => or_iff_right fun hd => List.not_mem_nil hd.1
  | cons d arrays ih =>
      rw [List.forall_mem_cons] at hplaced hnot
      obtain ⟨hnew, hnodup⟩ := List.nodup_cons.mp hnodup
      rcases hplaced.1 with ⟨i, p, hd⟩
      have hfirst := arraysRemoved_removeUnreadArray (b := b) hx hf hd hnot.1
      rw [Edit.run_changeAll_cons]
      refine (ih hfirst hplaced.2 hnodup ?_).of_iff fun e => ?_
      · rintro e he (⟨rfl, _⟩ | hremoved)
        · exact hnew he
        · exact hnot.2 e he hremoved
      · rw [List.mem_cons, ← or_assoc]
        refine or_congr_left ?_
        constructor
        · rintro ⟨rfl | he, hdrops⟩
          · exact .inr ⟨rfl, hdrops⟩
          · exact .inl ⟨he, hdrops⟩
        · rintro (⟨he, hdrops⟩ | ⟨rfl, hdrops⟩)
          · exact ⟨.inr he, hdrops⟩
          · exact ⟨.inl rfl, hdrops⟩

/-!
## Packed arrays
-/

theorem Forest.PlacedArray.satisfies_isIteration (hd : f.PlacedArray root d i p)
    (hn : f.node? (some p) = some n) :
    f.satisfies (f.parent (f.parent (some d))) Node.isIteration = n.isIteration := by
  rw [show f.parent (some d) = some i from hd.link, show f.parent (some i) = some p from hd.holder,
    satisfies, hn]
  rfl

/-- A packed array is declared by a statement. -/
theorem Binding.DeclaresPacked.exists_placed {j : BindingId} {binding : Binding}
    {elements : List Slot} (hd : binding.DeclaresPacked f Node.isStringOrNumber elements)
    (hf : f.HasProgram root) (hlayered : f.Layered) (hplain : Sketch.PlainTargets f)
    (hj : (Bindings.ofForest f (some root)).binding? j = some binding) :
    ∃ i p, f.PlacedArray root binding.declaration i p := by
  have hdeclared := hd.declared
  unfold declaredElements? at hdeclared
  split at hdeclared
  · rename_i target initializer hnode
    split at hdeclared
    · rename_i hinitializer
      obtain rfl := Option.some.inj hdeclared
      obtain ⟨⟨text, htarget⟩, i, kind, declarators, hi, hmem⟩ :=
        Bindings.namesTarget_of_binding hf hplain hj _ _ hnode
      have hlink : f.Link binding.declaration i := hf.wellFormed.link_of_slot hi hmem
      have hwithin := Bindings.within_of_binding hf hj
      have hiwithin := Substituted.within_of_link hwithin (by
        rintro heq
        cases (heq ▸ hf.parent).symm.trans hlink) hlink
      rcases hf.exists_link hiwithin hi nofun with ⟨p, hp⟩
      obtain ⟨n, hn⟩ : ∃ n, f.node? (some p) = some n :=
        ⟨_, node?_of_lt (hf.wellFormed.lt_size_of_link hp)⟩
      refine ⟨i, p, ⟨?_, hwithin, hlink, ⟨kind, declarators, hi⟩, hp, n, hn, ?_⟩⟩
      · cases target with
        | none => cases htarget
        | some target =>
            cases initializer with
            | none => cases hinitializer
            | some initializer =>
                refine ⟨target, initializer, text, _, hnode, htarget, hinitializer, fun s hs => ?_⟩
                rcases (Option.any_eq_true _ _).mp (hd.accepted s hs) with ⟨m, hm, hvalue⟩
                cases s with
                | none => cases hm
                | some e => exact ⟨e, m, rfl, hm, Node.isLiteral_of_isStringOrNumber hvalue⟩
      · by_contra hinner
        have hchild := hf.wellFormed.linked.mp hp
        rw [children_of_node? hn] at hchild
        rcases hlayered hn (Bool.eq_false_of_not_eq_true hinner) hchild with ⟨m, hm, hlevel⟩
        obtain rfl := Option.some.inj (hi.symm.trans hm)
        cases hlevel
    · cases hdeclared
  · cases hdeclared

namespace ReadsInlined

variable {c : NodeId → NodeId}

section Placed

variable {reads : List PackedRead} (hx : ReadsInlined reads f g root c)

include hx

theorem node?_of_not_computed (hn : f.node? (some i) = some n)
    (hsame : ∀ s ∈ n.slots, ∀ k, s = some k →
      ∃ m, f.node? (some k) = some m ∧ m.isComputed = false) :
    g.node? (some i) = some n := by
  have hmap : n.map (Option.map c) = n.map id :=
    Node.map_congr fun s hs => by
      cases s with
      | none => rfl
      | some k =>
          rcases hsame _ hs k rfl with ⟨m, hm, hother⟩
          exact congrArg some (hx.eq_of_not_computed hm hother)
  rw [hx.renamed hn, hmap, Node.map_id]

/-- Inlining reads leaves the arrays as they are. -/
theorem declaresArray (hd : f.DeclaresArray d) : g.DeclaresArray d := by
  rcases hd with ⟨target, initializer, text, elements, hnode, htarget, hinitializer, helements⟩
  refine ⟨target, initializer, text, elements, hx.node?_of_not_computed hnode ?_,
    hx.node?_of_leaf htarget rfl, hx.node?_of_not_computed hinitializer ?_, ?_⟩
  · intro s hs k hk
    rcases List.mem_pair.mp hs with rfl | rfl
    · obtain rfl := Option.some.inj hk
      exact ⟨_, htarget, rfl⟩
    · obtain rfl := Option.some.inj hk
      exact ⟨_, hinitializer, rfl⟩
  · rintro s hs k rfl
    rcases helements _ hs with ⟨e, m, heq, hm, hliteral⟩
    obtain rfl := Option.some.inj heq
    exact ⟨m, hm, Constant.isComputed_eq_false hx.before.wellFormed (.literal hm hliteral) .refl hm⟩
  · intro s hs
    rcases helements s hs with ⟨e, m, rfl, hm, hliteral⟩
    exact ⟨e, m, rfl, hx.node?_of_leaf hm (Node.slots_of_isLiteral hliteral), hliteral⟩

/-- What is still in the tree is where it was. -/
theorem link_of_within (hi : g.Within i root) (hlink : f.Link i j) :
    g.Link i j ∧ g.Within j root := by
  have hne : i ≠ root := by
    rintro rfl
    cases hx.before.parent.symm.trans hlink
  have hlink' : g.Link i j := (hx.below hi (lt_size_of_parent hlink) hne).trans hlink
  exact ⟨hlink', Substituted.within_of_link hi hne hlink'⟩

theorem placedArray (hd : f.PlacedArray root d i p) : g.PlacedArray root d i p := by
  rcases hd.array with ⟨_, _, _, _, hnode, _⟩
  rcases hd.statement with ⟨kind, declarators, hstatement⟩
  rcases hd.surrounds with ⟨n, hn, hsurrounds⟩
  have hwithin : g.Within d root := by
    refine hx.within_of_ne hd.within hnode rfl nofun fun read _ a hstands _ heq => ?_
    rcases hstands.name with ⟨text, hname⟩
    rw [← heq, hnode] at hname
    cases hname
  obtain ⟨hlink, hi⟩ := hx.link_of_within hwithin hd.link
  obtain ⟨hholder, -⟩ := hx.link_of_within hi hd.holder
  exact ⟨hx.declaresArray hd.array, hwithin, hlink, ⟨_, _, hx.renamed hstatement⟩, hholder, _,
    hx.renamed hn, (n.surroundsStatements_map (Option.map c)).trans hsurrounds⟩

/-- What is new in the tree is no name. -/
theorem lt_size_of_name {form : NameForm} {text : String} (hi : g.Within i root)
    (hn : g.node? (some i) = some (.name form text)) : i < f.size := by
  by_contra hnew
  rcases hx.within_constant hi (Nat.not_lt.mp hnew) with ⟨a, ha, hbelow⟩
  rcases hx.read ha with ⟨read, _, hstands, _, e, m, _, he, hm, hcopied⟩
  rcases hstands.elements _ (PackedRead.mem_of_element? he) with ⟨k, m', heq, hm', hliteral⟩
  obtain rfl := Option.some.inj heq
  obtain rfl := Option.some.inj (hm.symm.trans hm')
  have hleaf := Node.slots_of_isLiteral hliteral
  obtain rfl := eq_of_within_leaf hx.after.wellFormed hcopied hleaf hbelow
  obtain rfl := Option.some.inj (hn.symm.trans hcopied)
  cases hliteral

end Placed

section Unread

variable {j : BindingId} {binding : Binding}
  (hx : ReadsInlined (packedReads f (Bindings.ofForest f (some root))) f g root c)
  (htiered : f.Tiered) (hwhole : (Bindings.ofForest f (some root)).truncated = false)
  (hj : (Bindings.ofForest f (some root)).binding? j = some binding)

include hx hwhole hj

/-- The name of a binding is no reference, so that it stays where it is. -/
theorem within_nameNode : g.Within binding.nameNode root := by
  have hf := hx.before
  rcases Bindings.exists_declared hj with ⟨old, hold, horigin⟩
  have hname : old.nameNode = binding.nameNode := (congrArg Binding.nameNode horigin :)
  have hwithin := Bindings.within_of_nameNode hf hold
  have hnode := (Bindings.declared_declarations hf.wellFormed root).name hold
  rw [hname] at hwithin hnode
  refine hx.within_of_ne hwithin hnode rfl nofun fun read hread _ _ _ heq => ?_
  rcases mem_packedReads.mp hread with ⟨k, other, hk, _, _, r, hr, hreference⟩
  exact (Bindings.exact_ofForest hf hwhole).unreferenced hj other (Array.mem_of_getElem? hk) r hr
    (hreference.trans heq.symm)

include htiered

/-- An array is unread once all its reads have been inlined. -/
theorem unread_iff :
    ((Bindings.ofForest g (some root)).ofDeclaration (some binding.declaration)).any
        (fun k => ((Bindings.ofForest g (some root)).references k).isEmpty) = true ↔
      ∀ r ∈ binding.references, ¬ g.Within r.node root := by
  have hf := hx.before
  have hg := hx.after
  have hwhole' := hx.whole htiered hwhole
  have hused : ∀ {i kind name}, g.Within i root → i < f.size →
      (Used g root kind name i ↔ Used f root kind name i) := fun hi hlt =>
    hx.carried.used_iff hf.wellFormed hg.wellFormed hf.parent hg.parent hi hlt
  have hmeans : ∀ {i}, g.Within i root → i < f.size →
      Bindings.declarationOf g root i = Bindings.declarationOf f root i := fun hi hlt =>
    hx.declarationOf_eq htiered hwhole hi hlt
  constructor
  · intro hunread r hr hleft
    have hlt := lt_size_of_node? (Bindings.reference_ofForest hf hwhole hj hr).1
    obtain ⟨⟨kind, name, huse⟩, hdecl⟩ :=
      (Bindings.mem_references_iff hf hwhole hj).mp ⟨r, hr, rfl⟩
    exact Bindings.unused_of_references hg hwhole' hunread ((hused hleft hlt).mpr huse)
      ((hmeans hleft hlt).trans hdecl)
  · intro hgone
    have hname := hx.within_nameNode hwhole hj
    have hname_lt : binding.nameNode < f.size := by
      rcases Bindings.exists_declared hj with ⟨old, hold, horigin⟩
      have hsame : old.nameNode = binding.nameNode := (congrArg Binding.nameNode horigin :)
      have hnode := (Bindings.declared_declarations hf.wellFormed root).name hold
      exact hsame ▸ lt_size_of_node? hnode
    have hdecl : Bindings.declarationOf g root binding.nameNode = some binding.declaration :=
      (hmeans hname hname_lt).trans
        (Bindings.declarationOf_of_resolve hj (Bindings.found_ofForest hf hwhole hj).1)
    rcases Bindings.binding_of_declarationOf hg hdecl with ⟨k, hk, hdeclared⟩
    have hof : (Bindings.ofForest g (some root)).ofDeclaration (some binding.declaration) = some k :=
      hdeclared
    rw [hof, Option.any_some, List.isEmpty_iff, Bindings.references]
    cases hother : (Bindings.ofForest g (some root)).binding? k with
    | none => rfl
    | some other =>
        have hsame : other.declaration = binding.declaration :=
          Option.some.inj ((Bindings.declarationOf_of_resolve hother hk).symm.trans hdecl)
        rw [Option.map_some, Option.getD_some, List.eq_nil_iff_forall_not_mem]
        intro r hr
        obtain ⟨⟨kind, name, huse⟩, hstands⟩ :=
          (Bindings.mem_references_iff hg hwhole' hother).mp ⟨r, Array.mem_toList_iff.mp hr, rfl⟩
        have hleft := huse.within hg.wellFormed
        have hold := hx.lt_size_of_name hleft huse.node
        rw [hmeans hleft hold, hsame] at hstands
        rcases (Bindings.mem_references_iff hf hwhole hj).mpr
          ⟨⟨kind, name, (hused hleft hold).mp huse⟩, hstands⟩ with ⟨r', hr', heq⟩
        exact hgone r' hr' (heq ▸ hleft)

end Unread
end ReadsInlined

theorem nodup_eraseDups {α : Type} [DecidableEq α] (items : List α) : items.eraseDups.Nodup := by
  induction hk : items.length using Nat.strong_induction_on generalizing items with
  | _ k ih =>
      cases items with
      | nil => exact List.nodup_nil
      | cons a items =>
          have hlt : (items.filter fun b => !b == a).length < k := by
            rw [← hk, List.length_cons]
            exact Nat.lt_succ_of_le (List.length_filter_le _ _)
          rw [List.eraseDups_cons, List.nodup_cons, List.mem_eraseDups]
          exact ⟨by simp, ih _ hlt _ rfl⟩

/-- The array at `d` is removed if all its reads have been inlined. -/
structure Binding.ReadOut (binding : Binding) (f g : Forest) (root : NodeId) : Prop where
  some_read : ∃ r ∈ binding.references, ¬ g.Within r.node root
  all_read : ∀ r ∈ binding.references, ¬ g.Within r.node root
  /-- The statement does not belong to a loop over keys or values. -/
  outside : f.satisfies (f.parent (f.parent (some binding.declaration))) Node.isIteration = false

namespace ReadsInlined

variable {c : NodeId → NodeId} {j : BindingId} {binding : Binding} {elements : List Slot}
  {replaced : List NodeId}
  (hx : ReadsInlined (packedReads f (Bindings.ofForest f (some root))) f g root c)
  (hwhole : (Bindings.ofForest f (some root)).truncated = false)
  (hreplaced : ∀ d, d ∈ replaced ↔ ∃ read ∈ packedReads f (Bindings.ofForest f (some root)),
    read.array.declaration = d ∧ ¬ g.Within read.reference root)

include hreplaced

omit hx in
theorem mem_readArrays :
    d ∈ readArrays (packedReads f (Bindings.ofForest f (some root))) replaced ↔ d ∈ replaced := by
  rw [readArrays, List.mem_filter, List.mem_eraseDups, List.mem_map, List.contains_iff_mem]
  refine and_iff_right_of_imp fun hd => ?_
  rcases (hreplaced d).mp hd with ⟨read, hread, hdecl, _⟩
  exact ⟨read, hread, hdecl⟩

include hwhole

/-- An array was read if one of its references is gone. -/
theorem mem_replaced_iff (hf : f.HasProgram root)
    (hj : (Bindings.ofForest f (some root)).binding? j = some binding)
    (hpacked : binding.packedElements? f Node.isStringOrNumber = some elements) :
    binding.declaration ∈ replaced ↔ ∃ r ∈ binding.references, ¬ g.Within r.node root := by
  rw [hreplaced]
  constructor
  · rintro ⟨read, hread, hdecl, hgone⟩
    rcases mem_packedReads.mp hread with ⟨k, other, hk, _, hother, r, hr, hreference⟩
    have hfound := (Bindings.found_ofForest hf hwhole hk).2
    rw [← hother, hdecl, (Bindings.found_ofForest hf hwhole hj).2] at hfound
    obtain rfl := Option.some.inj hfound
    obtain rfl := Option.some.inj (hj.symm.trans hk)
    exact ⟨r, hr, hreference ▸ hgone⟩
  · rintro ⟨r, hr, hgone⟩
    exact ⟨⟨⟨binding.declaration, elements⟩, r.node⟩,
      mem_packedReads.mpr ⟨j, binding, hj, hpacked, rfl, r, hr, rfl⟩, rfl, hgone⟩

include hx

/-- The arrays that were read out are removed. -/
theorem exists_arraysRemoved (htiered : f.Tiered) (hplain : Sketch.PlainTargets f) :
    ∃ removed, ArraysRemoved g ((Edit.changeAll
        (removeUnreadArray (Bindings.ofForest g (some root)))
        (readArrays (packedReads f (Bindings.ofForest f (some root))) replaced)).run g).2
        root removed ∧
      ∀ {j binding elements}, (Bindings.ofForest f (some root)).binding? j = some binding →
        binding.packedElements? f Node.isStringOrNumber = some elements →
          (removed binding.declaration ↔ binding.ReadOut f g root) := by
  have hf := hx.before
  have hplaced : ∀ {j binding elements},
      (Bindings.ofForest f (some root)).binding? j = some binding →
        binding.packedElements? f Node.isStringOrNumber = some elements →
          ∃ i p, f.PlacedArray root binding.declaration i p := fun hj hpacked =>
    (Binding.packedElements?_eq_some_iff.mp hpacked).1.exists_placed hf htiered.layered hplain hj
  refine ⟨_, arraysRemoved_changeAll (.refl hx.after) hx.after ?_ ?_ ?_, ?_⟩
  · intro d hd
    rcases (hreplaced d).mp ((mem_readArrays hreplaced).mp hd) with ⟨read, hread, rfl, _⟩
    rcases mem_packedReads.mp hread with ⟨j, binding, hj, hpacked, hdecl, _⟩
    rcases hplaced hj hpacked with ⟨i, p, hd⟩
    exact hdecl ▸ ⟨i, p, hx.placedArray hd⟩
  · exact List.Nodup.filter _ (nodup_eraseDups _)
  · exact fun _ _ => id
  · intro j binding elements hj hpacked
    rcases hplaced hj hpacked with ⟨i, p, hd⟩
    rcases hd.surrounds with ⟨n, hn, _⟩
    rw [or_false, mem_readArrays hreplaced, mem_replaced_iff hwhole hreplaced hf hj hpacked,
      Bindings.Drops, hx.unread_iff htiered hwhole hj,
      (hx.placedArray hd).satisfies_isIteration (hx.renamed hn), Node.isIteration_map,
      ← hd.satisfies_isIteration hn]
    exact ⟨fun h => ⟨h.1, h.2.1, h.2.2⟩, fun h => ⟨h.1, h.2, h.3⟩⟩

end ReadsInlined

end Untangle
