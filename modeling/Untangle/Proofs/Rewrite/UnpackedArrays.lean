import Untangle.Proofs.Grammar.BareNames
import Untangle.Proofs.Grammar.LayeredPrograms
import Untangle.Proofs.Rewrite.RemovedArrays

/-!
# Unpacked arrays

After the reads have been inlined and the arrays removed, methods are called by name. The object of
such a method goes with the new access to where the old one was. What has become of a packed array
can then be read off the references to it that are still in the tree.
-/

namespace Untangle

open Forest Rewrite
open Relation (ReflTransGen)

variable {f g h : Forest} {root i j k p o r a new : NodeId} {n : Node Slot}

/-!
## Calls by name
-/

/-- A method of the object is called by name. -/
def Forest.CallsMethodOf (f : Forest) (o : NodeId) : Prop :=
  ∃ i p key arguments isOptional inChain isOptional' inChain',
    f.node? (some i) = some (.access .property (some o) key isOptional inChain) ∧
      f.node? (some p) = some (.call .call (some i) arguments isOptional' inChain')

/-- The access at `i` and its key have given way to an access by name, which has taken the object
`o` along and is called by `p`. -/
structure Forest.MethodNamed (f h : Forest) (i o k p new : NodeId) : Prop where
  access : ∃ isOptional inChain,
    f.node? (some i) = some (.access .element (some o) (some k) isOptional inChain)
  key : ∃ name raw lone, f.node? (some k) = some (.string name raw lone)
  caller : ∃ arguments isOptional inChain,
    f.node? (some p) = some (.call .call (some i) arguments isOptional inChain)
  node : ∀ {j}, j < f.size → j ≠ i → j ≠ p → h.node? (some j) = f.node? (some j)
  called : h.CallsMethodOf o
  link : ∀ {j q}, j ≠ i → j ≠ o → f.Link j q → h.Link j q
  object : h.Link o new
  linked : h.Link new p

theorem Forest.node?_replace (hreplace : f.replace (some i) (some j) = (g, true))
    (hlink : f.Link i p) (hn : f.node? (some p) = some n) :
    g.node? (some p) = some (n.replaceFirst (some i) (some j)).1 := by
  have hp := lt_size_of_node? hn
  unfold replace at hreplace
  rw [show f.parent (some i) = some p from hlink] at hreplace
  split at hreplace
  · rename_i q cell hq hcell
    obtain rfl := Option.some.inj hq
    rw [hn] at hreplace
    dsimp only at hreplace
    split at hreplace
    · cases hreplace
    · split at hreplace
      · cases hreplace
        simp [node?_eq, cell?_of_lt hp]
      · cases hreplace
  · cases hreplace

/-- What is called by a string is an access in the place of a callee. -/
theorem Rewrite.called_of_namedMethod? {object : Slot} {name : String} {isOptional inChain : Bool}
    (h : namedMethod? f i = some (object, name, isOptional, inChain)) :
    (∃ p arguments isOptional' inChain', f.Link i p ∧
      f.node? (some p) = some (.call .call (some i) arguments isOptional' inChain')) ∧
    ∃ k raw lone,
      f.node? (some i) = some (.access .element object (some k) isOptional inChain) ∧
        f.node? (some k) = some (.string name raw lone) := by
  unfold namedMethod? at h
  dsimp only at h
  split at h
  case h_1 key _ _ hcallee hn =>
    constructor
    · rcases (Option.any_eq_true _ _).mp hcallee with ⟨n, hp, hcall⟩
      cases hparent : f.parent (some i) with
      | none =>
          rw [hparent] at hp
          cases hp
      | some p =>
          rw [hparent] at hp
          split at hcall
          case h_1 =>
            obtain rfl := eq_of_beq hcall
            exact ⟨p, _, _, _, hparent, hp⟩
          case h_2 => cases hcall
    · split at h
      case h_1 hkey =>
        cases key with
        | none => cases hkey
        | some k =>
            split at h
            · cases h
              exact ⟨k, _, _, hn, hkey⟩
            · cases h
      case h_2 => cases h
  case h_2 => cases h

namespace Rewrite

section NamedAccess

variable {name : String} {isOptional inChain : Bool}

theorem node?_namedAccess_old (hj : j < f.size) :
    (addNamedAccess f o name isOptional inChain).2.node? (some j) = f.node? (some j) := by
  have hlt := Nat.lt_trans hj (size_lt_addIdentifier f name)
  exact (node?_add_of_ne (Nat.ne_of_lt hlt)).trans (node?_add_of_ne (Nat.ne_of_lt hj))

theorem link_namedAccess (ho : f.Free o) {q : NodeId} :
    (addNamedAccess f o name isOptional inChain).2.Link j q ↔
      f.Link j q ∨ (j = o ∨ j = f.size) ∧ q = (addNamedAccess f o name isOptional inChain).1 := by
  refine (link_add (adoptable_namedAccess ho)).trans (or_congr ?_ (and_congr_left fun _ => ?_))
  · refine (link_add adoptable_identifier).trans (or_iff_left ?_)
    rintro ⟨hnone, _⟩
    cases hnone
  · exact List.mem_pair

/-- The access by name takes the place of the one by string. -/
theorem methodNamed_of_replace (hf : f.WellFormed) {arguments : List Slot}
    {isOptional' inChain' lone : Bool} {value : String} {raw : Option String}
    (hlink : f.Link i p)
    (haccess : f.node? (some i) = some (.access .element (some o) (some k) isOptional inChain))
    (hkey : f.node? (some k) = some (.string value raw lone))
    (hcaller : f.node? (some p) = some (.call .call (some i) arguments isOptional' inChain'))
    (hx : Exchange f g i o [])
    (hh : (addNamedAccess g o name isOptional inChain).2.replace (some i)
        (some (addNamedAccess g o name isOptional inChain).1) = (h, true))
    (hx' : Exchange (addNamedAccess g o name isOptional inChain).2 h p i
      [(addNamedAccess g o name isOptional inChain).1]) :
    f.MethodNamed h i o k p (addNamedAccess g o name isOptional inChain).1 := by
  have hfree := hx.free_detached
  have hobject : f.Link o i := hf.link_of_slot haccess List.mem_cons_self
  have hne : p ≠ i := by
    rintro rfl
    exact hf.not_within_of_link hlink .refl
  have hoi : o ≠ i := by
    rintro rfl
    exact hf.not_within_of_link hobject .refl
  have hnew : f.size < (addNamedAccess g o name isOptional inChain).1 :=
    hx.size ▸ size_lt_addIdentifier g name
  have hg : ∀ {j}, j ≠ i → g.node? (some j) = f.node? (some j) := by
    rcases hx with ⟨owner, changed, slots, hr, _⟩
    exact hr.node?_of_ne
  rcases hx' with ⟨owner, changed, slots, hr, hex, _⟩
  have hold : ∀ {j}, j < f.size → j ≠ i →
      (addNamedAccess g o name isOptional inChain).2.node? (some j) = f.node? (some j) :=
    fun hj hji => (node?_namedAccess_old (hx.size ▸ hj)).trans (hg hji)
  have hlinked : ∀ {j q}, j < (addNamedAccess g o name isOptional inChain).2.size →
      j ≠ i → (addNamedAccess g o name isOptional inChain).2.Link j q → h.Link j q :=
    fun hj hji hjq => (hr.link hex hj).mpr (.inr ⟨hji, hjq⟩)
  have hg' : (addNamedAccess g o name isOptional inChain).2.WellFormed :=
    wellFormed_addNamedAccess (hx.wellFormed hf) hfree
  have hp := (hold (lt_size_of_node? hcaller) hne).trans hcaller
  have hlast : (addNamedAccess g o name isOptional inChain).1 <
      (addNamedAccess g o name isOptional inChain).2.size := by
    rw [addNamedAccess, addNew, size_add]
    exact Nat.lt_succ_self _
  have hsize : ∀ {j}, j < f.size → j < (addNamedAccess g o name isOptional inChain).2.size :=
    fun hj => (hj.trans hnew).trans hlast
  have hfirst : ∀ {j q}, j ≠ o → f.Link j q →
      (addNamedAccess g o name isOptional inChain).2.Link j q :=
    fun hjo hjq => (link_namedAccess hfree).mpr (.inl (hx.link_detached.mpr ⟨hjo, hjq⟩))
  refine ⟨⟨_, _, haccess⟩, ⟨_, _, _, hkey⟩, ⟨_, _, _, hcaller⟩, ?_, ?_, ?_, ?_, ?_⟩
  · exact fun hj hji hjp => (hr.node?_of_ne hjp).trans (hold hj hji)
  · have hnodup := hg'.nodup p
    rw [children_of_node? hp] at hnodup
    have hcalled := node?_replace hh (hfirst hoi.symm hlink) hp
    have hcallee : ∃ arguments', ((Node.call .call (some i) arguments isOptional' inChain').map
        (Option.map (Function.update id i (addNamedAccess g o name isOptional inChain).1))) =
          .call .call (some (addNamedAccess g o name isOptional inChain).1) arguments'
            isOptional' inChain' := by
      simp [Node.map, Node.mapM]
    rcases hcallee with ⟨arguments', hcallee⟩
    rw [Node.replaceFirst_eq_map hnodup, hcallee] at hcalled
    have hne' : (addNamedAccess g o name isOptional inChain).1 ≠ p :=
      Nat.ne_of_gt (Nat.lt_trans (lt_size_of_node? hcaller) hnew)
    exact ⟨_, p, _, _, _, _, _, _, (hr.node?_of_ne hne').trans node?_namedAccess, hcalled⟩
  · exact fun hji hjo hjq => hlinked (hsize (lt_size_of_parent hjq)) hji (hfirst hjo hjq)
  · exact hlinked (hsize (lt_size_of_parent hobject)) hoi
      ((link_namedAccess hfree).mpr (.inr ⟨.inl rfl, rfl⟩))
  · exact (hr.link hex hlast).mpr (.inl ⟨List.mem_singleton_self _, rfl⟩)

end NamedAccess

theorem exists_methodNamed (hf : f.WellFormed) (hnamed : ((callByName i).run f).1 = true) :
    ∃ o k p new, f.MethodNamed ((callByName i).run f).2 i o k p new := by
  rcases callByName_cases hf i with
    hrun | ⟨p, o, key, name, isOptional, inChain, g, h, hlink, hn, hg, hx, hh, hx', hrun⟩
  · rw [hrun] at hnamed
    cases hnamed
  · rw [hrun]
    cases hmethod : namedMethod? f i with
    | none =>
        rw [callByName, Edit.run_look_bind, hmethod] at hrun
        cases (Prod.mk.inj hrun).1
    | some method =>
        rcases called_of_namedMethod? hmethod with
          ⟨⟨q, _, _, _, hq, hcaller⟩, k, _, _, haccess, hkey⟩
        obtain rfl := Link.unique hlink hq
        obtain ⟨-, hobject, hk, -⟩ := Node.access.inj (Option.some.inj (hn.symm.trans haccess))
        subst hk
        exact ⟨o, k, p, _, methodNamed_of_replace hf hlink hn hkey hcaller hx hh hx'⟩

end Rewrite

namespace Forest.MethodNamed

variable (hx : f.MethodNamed h i o k p new)

include hx

theorem ne_caller {m : Node Slot} (hn : f.node? (some j) = some m)
    (hother : ∀ callee arguments isOptional inChain,
      m ≠ .call .call callee arguments isOptional inChain) : j ≠ p := by
  rintro rfl
  rcases hx.caller with ⟨_, _, _, hcaller⟩
  exact hother _ _ _ _ (Option.some.inj (hn.symm.trans hcaller))

/-- An access to an element stays as it is, unless it is the one that gives way. -/
theorem access_kept {object index : Slot} {isOptional inChain : Bool}
    (hn : f.node? (some j) = some (.access .element object index isOptional inChain)) :
    j ≠ i → h.node? (some j) = some (.access .element object index isOptional inChain) :=
  fun hne => (hx.node (lt_size_of_node? hn) hne (hx.ne_caller hn nofun)).trans hn

/-- Methods that were called by name still are. -/
theorem callsMethodOf {q : NodeId} (hq : f.CallsMethodOf q) : h.CallsMethodOf q := by
  rcases hq with ⟨a, b, key, arguments, isOptional, inChain, isOptional', inChain', ha, hb⟩
  rcases hx.access with ⟨_, _, haccess⟩
  rcases hx.caller with ⟨_, _, _, hcaller⟩
  have hai : a ≠ i := by
    rintro rfl
    cases ha.symm.trans haccess
  have hbi : b ≠ i := by
    rintro rfl
    cases hb.symm.trans haccess
  have hbp : b ≠ p := by
    rintro rfl
    obtain ⟨_, hcallee, _⟩ := Node.call.inj (Option.some.inj (hb.symm.trans hcaller))
    exact hai (Option.some.inj hcallee)
  exact ⟨a, b, key, arguments, isOptional, inChain, isOptional', inChain',
    (hx.node (lt_size_of_node? ha) hai (hx.ne_caller ha nofun)).trans ha,
    (hx.node (lt_size_of_node? hb) hbi hbp).trans hb⟩

/-- What is neither the access nor its key stays in the tree, and the new access takes the place of
the old one. -/
theorem within (hf : f.HasProgram root) (hj : f.Within j root) (hne : j ≠ k) :
    h.Within (Function.update id i new j) root := by
  have hwf := hf.wellFormed
  rcases hx.access with ⟨_, _, haccess⟩
  rcases hx.key with ⟨_, _, _, hkey⟩
  rcases hx.caller with ⟨_, _, _, hcaller⟩
  have hlink : f.Link i p := hwf.link_of_slot hcaller List.mem_cons_self
  have hpi : p ≠ i := by
    rintro rfl
    exact hwf.not_within_of_link hlink .refl
  induction hj using ReflTransGen.head_induction_on with
  | refl =>
      have hroot : root ≠ i := by
        rintro rfl
        cases hf.parent.symm.trans hlink
      rw [Function.update_of_ne hroot]
      exact .refl
  | @head j q hjq _ ih =>
      have hqk : q ≠ k := by
        rintro rfl
        have hmem := hwf.linked.mp hjq
        rw [children_of_node? hkey] at hmem
        cases hmem
      have hrest := ih hqk
      by_cases hji : j = i
      · obtain rfl : q = p := Link.unique (hji ▸ hjq) hlink
        rw [Function.update_of_ne hpi] at hrest
        rw [hji, Function.update_self]
        exact .head hx.linked hrest
      · rw [Function.update_of_ne hji]
        by_cases hqi : q = i
        · have hmem := hwf.linked.mp (hqi ▸ hjq)
          rw [children_of_node? haccess, mem_childrenOf] at hmem
          rw [hqi, Function.update_self] at hrest
          rcases List.mem_pair.mp hmem with heq | heq
          · obtain rfl := Option.some.inj heq
            exact .head hx.object hrest
          · exact absurd (Option.some.inj heq) hne
        · have hjo : j ≠ o := by
            rintro rfl
            exact hqi (Link.unique hjq (hwf.link_of_slot haccess List.mem_cons_self))
          rw [Function.update_of_ne hqi] at hrest
          exact .head (hx.link hji hjo hjq) hrest

end Forest.MethodNamed

/-- Some methods are called by name now. Everything else is where it was. -/
structure MethodsNamed (f g : Forest) (root : NodeId) : Prop where
  narrows : Narrows Node.isElementAccess root f g
  left : ∀ {j n}, f.node? (some j) = some n → n.isElementAccess = false →
    n.isLiteral = false → f.Within j root → g.Within j root
  access : ∀ {j o index isOptional inChain},
    f.node? (some j) = some (.access .element (some o) index isOptional inChain) →
      g.node? (some j) = some (.access .element (some o) index isOptional inChain) ∨
        g.CallsMethodOf o
  method : ∀ {o}, f.CallsMethodOf o → g.CallsMethodOf o

namespace MethodsNamed

theorem refl (hf : f.HasProgram root) : MethodsNamed f f root :=
  ⟨.refl hf, fun _ _ _ => id, .inl, id⟩

theorem trans (hfg : MethodsNamed f g root) (hgh : MethodsNamed g h root) :
    MethodsNamed f h root := by
  refine ⟨hfg.narrows.trans Node.consumable_isElementAccess hgh.narrows, ?_, ?_,
    fun ho => hgh.method (hfg.method ho)⟩
  · intro j n hn haccess hliteral hj
    rcases hfg.narrows.kinds.kind hn with ⟨m, hm, hkind⟩
    refine hgh.left hm ?_ ?_ (hfg.left hn haccess hliteral hj)
    · rw [← Node.isElementAccess_kind, hkind, Node.isElementAccess_kind, haccess]
    · rw [← Node.isLiteral_kind, hkind, Node.isLiteral_kind, hliteral]
  · intro j o index isOptional inChain hn
    rcases hfg.access hn with hsame | hmethod
    · exact hgh.access hsame
    · exact .inr (hgh.method hmethod)

end MethodsNamed

theorem methodsNamed_callByName (hf : f.HasProgram root) (i : NodeId) :
    MethodsNamed f ((callByName i).run f).2 root := by
  cases hnamed : ((callByName i).run f).1 with
  | false =>
      have hsame : ((callByName i).run f).2 = f := reports_callByName hf.wellFormed i hnamed
      rw [hsame]
      exact .refl hf
  | true =>
      rcases exists_methodNamed hf.wellFormed hnamed with ⟨o, k, p, new, hx⟩
      rcases hx.access with ⟨_, _, haccess⟩
      rcases hx.key with ⟨_, _, _, hkey⟩
      refine ⟨narrowing_callByName i f hf, ?_, ?_, hx.callsMethodOf⟩
      · intro j n hn hother hliteral hj
        have hji : j ≠ i := by
          rintro rfl
          obtain rfl := Option.some.inj (hn.symm.trans haccess)
          cases hother
        have hjk : j ≠ k := by
          rintro rfl
          obtain rfl := Option.some.inj (hn.symm.trans hkey)
          cases hliteral
        have hleft := hx.within hf hj hjk
        rwa [Function.update_of_ne hji] at hleft
      · intro j q index isOptional inChain hn
        by_cases hji : j = i
        · subst hji
          obtain ⟨_, hobject, _⟩ := Node.access.inj (Option.some.inj (hn.symm.trans haccess))
          obtain rfl := Option.some.inj hobject
          exact .inr hx.called
        · exact .inl (hx.access_kept hn hji)

theorem methodsNamed_changeAll (hf : f.HasProgram root) (sites : List NodeId) :
    MethodsNamed f ((Edit.changeAll callByName sites).run f).2 root := by
  induction sites generalizing f with
  | nil => exact .refl hf
  | cons i sites ih =>
      have hfirst := methodsNamed_callByName hf i
      rw [Edit.run_changeAll_cons]
      exact hfirst.trans (ih hfirst.narrows.program)

/-!
## Packed arrays
-/

/-- An element of `r` is read, and its index is not written as the number of one of so many. -/
def Forest.ReadsBeyond (f : Forest) (r : NodeId) (length : Nat) : Prop :=
  ∃ a index isOptional inChain,
    f.node? (some a) = some (.access .element (some r) index isOptional inChain) ∧
      ∀ x raw, f.node? index = some (.number x raw) → arrayIndex? x length = none

theorem Node.number_of_kind {x : Float} {raw : Option String} {m : Node Slot}
    (hkind : m.kind = .number x raw) : m = .number x raw := by
  cases m with
  | number y raw' =>
      obtain ⟨rfl, rfl⟩ := Node.number.inj hkind
      rfl
  | bare form | guarded form => cases form <;> cases hkind
  | _ => cases hkind

/-- A node that is written as a number was one before. -/
theorem Forest.KeepsKinds.node?_of_number {x : Float} {index : Slot} {raw : Option String}
    (hkinds : KeepsKinds f g) (hindex : ∀ k, index = some k → k < f.size)
    (hn : g.node? index = some (.number x raw)) : f.node? index = some (.number x raw) := by
  cases index with
  | none => cases hn
  | some k =>
      obtain ⟨m, hm⟩ : ∃ m, f.node? (some k) = some m := ⟨_, node?_of_lt (hindex k rfl)⟩
      rcases hkinds.kind hm with ⟨n, hn', hkind⟩
      obtain rfl := Option.some.inj (hn.symm.trans hn')
      rw [hm, Node.number_of_kind hkind.symm]

/-- Where there is no element the number is not the position of one. -/
theorem PackedRead.arrayIndex?_eq_none {read : PackedRead} {x : Float}
    (h : read.element? x = none) : arrayIndex? x read.array.elements.length = none := by
  cases hposition : arrayIndex? x read.array.elements.length with
  | none => rfl
  | some position =>
      have hlt : position < read.array.elements.length := by
        unfold arrayIndex? at hposition
        split at hposition
        · split at hposition
          · cases hposition
          · exact of_decide_eq_true (Option.filter_eq_some_iff.mp hposition).2
        · cases hposition
      rw [element?, hposition, Option.bind_some, List.getElem?_eq_getElem hlt] at h
      cases h

/-- What is read from is no part of an array that is removed. -/
theorem ArraysRemoved.left_of_read {removed : NodeId → Prop} {text : String} {index : Slot}
    {isOptional inChain : Bool} (hx : ArraysRemoved f g root removed) (hf : f.WellFormed)
    (ha : f.node? (some a) = some (.access .element (some o) index isOptional inChain))
    (hname : f.node? (some o) = some (.name .identifier text)) (ho : f.Within o root) :
    g.Within o root := by
  refine hx.left hname nofun ho fun d hd hbelow => ?_
  rcases (hx.gone hd).1 with ⟨_, _, _, _, hnode, _⟩
  rcases (hx.gone hd).1.within_cases hf hbelow with
    rfl | ⟨hlink, _⟩ | ⟨_, hn⟩ | ⟨n, hn, hliteral⟩
  · cases hname.symm.trans hnode
  · obtain rfl := Link.unique (hf.link_of_slot ha List.mem_cons_self) hlink
    cases ha.symm.trans hnode
  · cases hname.symm.trans hn
  · obtain rfl := Option.some.inj (hname.symm.trans hn)
    cases hliteral

/-- What becomes of the program once the reads have been inlined. -/
structure TidiedUp (f g : Forest) (root : NodeId) (removed : NodeId → Prop) : Prop where
  program : f.HasProgram root
  tidied : ∃ h, ArraysRemoved f h root removed ∧ MethodsNamed h g root

namespace TidiedUp

variable {removed : NodeId → Prop} {text : String} {index : Slot} {isOptional inChain : Bool}
  (hx : TidiedUp f g root removed)

include hx

theorem within_iff_of_read
    (ha : f.node? (some a) = some (.access .element (some o) index isOptional inChain))
    (hname : f.node? (some o) = some (.name .identifier text)) :
    g.Within o root ↔ f.Within o root := by
  rcases hx.tidied with ⟨h, hremoved, hnamed⟩
  have hname' := hremoved.node hname rfl
  constructor
  · intro ho
    have hleft := hnamed.narrows.old ho (lt_size_of_node? hname')
    exact hremoved.within hx.program.wellFormed (lt_size_of_node? hname) hleft
  · intro ho
    exact hnamed.left hname' rfl rfl (hremoved.left_of_read hx.program.wellFormed ha hname ho)

theorem readsBeyond {length : Nat}
    (ha : f.node? (some a) = some (.access .element (some o) index isOptional inChain))
    (hindex : ∀ x raw, f.node? index = some (.number x raw) → arrayIndex? x length = none) :
    g.ReadsBeyond o length ∨ g.CallsMethodOf o := by
  rcases hx.tidied with ⟨h, hremoved, hnamed⟩
  refine (hnamed.access (hremoved.node ha rfl)).imp_left fun ha' => ?_
  refine ⟨a, index, isOptional, inChain, ha', fun x raw hn => hindex x raw ?_⟩
  refine (hremoved.kinds.trans hnamed.narrows.kinds).node?_of_number (fun k hk => ?_) hn
  subst hk
  exact lt_size_of_parent
    (hx.program.wellFormed.link_of_slot ha (List.mem_cons_of_mem _ List.mem_cons_self))

theorem within_declaration_iff {d i p : NodeId} (hd : f.PlacedArray root d i p) :
    g.Within d root ↔ ¬ removed d := by
  rcases hx.tidied with ⟨h, hremoved, hnamed⟩
  rcases hd.array with ⟨_, _, _, _, hnode, _⟩
  have hnode' := hremoved.node hnode rfl
  rw [← hremoved.within_iff_not hx.program hd]
  constructor
  · exact fun hleft => hnamed.narrows.old hleft (lt_size_of_node? hnode')
  · exact hnamed.left hnode' rfl rfl

end TidiedUp

/-- Whether an array was read out depends on the references that are left. -/
theorem Binding.ReadOut.congr {binding : Binding} (hread : binding.ReadOut f g root)
    (hsame : ∀ r ∈ binding.references, h.Within r.node root ↔ g.Within r.node root) :
    binding.ReadOut f h root := by
  rcases hread.some_read with ⟨r, hr, hgone⟩
  exact ⟨⟨r, hr, mt (hsame r hr).mp hgone⟩,
    fun r hr hleft => hread.all_read r hr ((hsame r hr).mp hleft), hread.outside⟩

namespace Rewrite

/-- A run inlines reads, and what follows is done to the tree that this leaves. -/
theorem unpackArrays_stages {changed : Bool} (hf : f.HasProgram root) (htiered : f.Tiered)
    (hplain : Sketch.PlainTargets f)
    (hrun : (unpackArrays (some root)).run.run f = (.ok changed, g)) :
    (Bindings.ofForest f (some root)).truncated = false ∧ ∃ h c removed,
      ReadsInlined (packedReads f (Bindings.ofForest f (some root))) f h root c ∧
      (∀ read ∈ packedReads f (Bindings.ofForest f (some root)), read.Exhausted f h root) ∧
      TidiedUp h g root removed ∧
      ∀ {j binding elements}, (Bindings.ofForest f (some root)).binding? j = some binding →
        binding.packedElements? f Node.isStringOrNumber = some elements →
          (removed binding.declaration ↔ binding.ReadOut f h root) := by
  rcases unpackArrays_cases hrun with
    ⟨hwhole, replaced, named, h, h', hreplace, hremove, hmethods, -⟩
  rcases exists_readsInlined hf hwhole with ⟨replaced', h₁, c, hreads, hx, hexhausted, hreplaced⟩
  obtain ⟨rfl, rfl⟩ := Prod.mk.inj (hreplace.symm.trans hreads)
  rcases hx.exists_arraysRemoved hwhole hreplaced htiered hplain with ⟨removed, hremoved, hout⟩
  refine ⟨hwhole, h, c, removed, hx, hexhausted, ⟨hx.after, h', ?_, ?_⟩, hout⟩
  · rcases hremove with ⟨rfl, rfl⟩ | ⟨_, rfl⟩
    · -- Without reads there are no arrays to remove.
      have hnone : readArrays (packedReads f (Bindings.ofForest f (some root))) [] = [] :=
        List.filter_eq_nil_iff.mpr fun _ _ => nofun
      rwa [hnone] at hremoved
    · exact hremoved
  · have hh' : h'.HasProgram root := by
      rcases hremove with ⟨rfl, rfl⟩ | ⟨_, rfl⟩
      · exact hx.after
      · exact hremoved.program
    have hnamed := methodsNamed_changeAll hh' (h'.preorder (some root))
    rwa [hmethods] at hnamed

/-- A run on a tree that can be bound as a whole does not fail, as the tree can still be bound when
reads have been inlined. -/
theorem exists_run_unpackArrays (hf : f.HasProgram root) (htiered : f.Tiered)
    (hwhole : (Bindings.ofForest f (some root)).truncated = false) :
    ∃ changed g, (unpackArrays (some root)).run.run f = (.ok changed, g) := by
  have hcontains : ∀ {f : Forest}, f.HasProgram root → f.contains (some root) = true :=
    fun hf => (cell?_isSome ..).mpr hf.lt_size
  rcases exists_readsInlined hf hwhole with ⟨replaced, h, c, hreads, hx, -⟩
  have hrebind := run_bind_of_whole (hcontains hx.after) (hx.whole htiered hwhole)
  rw [unpackArrays, run_bind_ok (run_bind_of_whole (hcontains hf) hwhole),
    run_bind_ok (run_get f)]
  dsimp only
  rw [run_bind_ok ((run_lift _ _).trans (congrArg (fun x => (Except.ok x.1, x.2)) hreads))]
  cases replaced with
  | nil => exact ⟨_, _, rfl⟩
  | cons d replaced =>
      change ∃ changed g, (Rewrite.bind (some root) >>= _ : Rewrite Bool).run.run h = _
      rw [run_bind_ok hrebind]
      exact ⟨_, _, rfl⟩

/-- After a run all that is left of a packed array are reads whose index is no position in it, and
methods. The array is gone if it was read and no reference to it is left, unless its statement
belongs to a loop over keys or values. -/
theorem unpackArrays_complete {source : String} {prog : Program} {changed : Bool}
    {j : BindingId} {binding : Binding} {elements : List Slot}
    (hparse : Program.parse source = .ok prog)
    (hrun : (unpackArrays (some prog.root)).run.run prog.forest = (.ok changed, g))
    (hj : (Bindings.ofForest prog.forest (some prog.root)).binding? j = some binding)
    (hpacked : binding.packedElements? prog.forest Node.isStringOrNumber = some elements) :
    (∀ r ∈ binding.references, g.Within r.node prog.root →
      g.ReadsBeyond r.node elements.length ∨ g.CallsMethodOf r.node) ∧
    (¬ g.Within binding.declaration prog.root ↔ binding.ReadOut prog.forest g prog.root) := by
  have hf := Program.hasProgram_parse hparse
  have htiered := Program.tiered_parse hparse
  have hplain : Sketch.PlainTargets prog.forest := fun _ _ _ =>
    Program.ne_default_of_declarator hparse
  rcases unpackArrays_stages hf htiered hplain hrun with
    ⟨hwhole, h, c, removed, hx, hexhausted, htidied, hout⟩
  have hstands : ∀ r ∈ binding.references, ∃ a index isOptional inChain text,
      h.node? (some a) = some (.access .element (some r.node) index isOptional inChain) ∧
      h.node? (some r.node) = some (.name .identifier text) ∧
      (h.Within r.node prog.root → ∀ x raw, h.node? index = some (.number x raw) →
        arrayIndex? x elements.length = none) := by
    intro r hr
    have hmem : (⟨⟨binding.declaration, elements⟩, r.node⟩ : PackedRead) ∈
        packedReads prog.forest (Bindings.ofForest prog.forest (some prog.root)) :=
      mem_packedReads.mpr ⟨j, binding, hj, hpacked, rfl, r, hr, rfl⟩
    rcases (distinctReads_packedReads hf hwhole).stands _ hmem with ⟨a, hstands⟩
    rcases hstands.access with ⟨index, isOptional, inChain, ha⟩
    rcases hstands.name with ⟨text, hname⟩
    have ha' := hx.access hstands ha
    refine ⟨a, _, _, _, text, ha', hx.node?_of_leaf hname rfl, fun hleft x raw hn => ?_⟩
    have hnone := (hexhausted _ hmem a hstands).resolve_left (not_not_intro hleft)
    exact PackedRead.arrayIndex?_eq_none (hnone x ⟨_, _, _, raw, ha', hn⟩)
  have hsame : ∀ r ∈ binding.references,
      (g.Within r.node prog.root ↔ h.Within r.node prog.root) := by
    intro r hr
    rcases hstands r hr with ⟨a, index, isOptional, inChain, text, ha, hname, _⟩
    exact htidied.within_iff_of_read ha hname
  constructor
  · intro r hr hleft
    rcases hstands r hr with ⟨a, index, isOptional, inChain, text, ha, _, hnone⟩
    exact htidied.readsBeyond ha (hnone ((hsame r hr).mp hleft))
  · rcases (Binding.packedElements?_eq_some_iff.mp hpacked).1.exists_placed hf htiered.layered
      hplain hj with ⟨i, p, hd⟩
    rw [htidied.within_declaration_iff (hx.placedArray hd), not_not, hout hj hpacked]
    exact ⟨fun hread => hread.congr hsame, fun hread => hread.congr fun r hr => (hsame r hr).symm⟩

/-- The scope of `let a = ['z']; a[0];`, by the node that opens it. -/
def openedByRoot (i : NodeId) : Option ScopeId :=
  if i = 9 then some 0 else none

/-- Tables of names cannot be evaluated, but what the two walks over `let a = ['z']; a[0];` do can
be. -/
theorem binding?_of_walks
    (houtline : Bindings.outline f 9 = .vars (.declare false .let "a" 0 3 .done) .done)
    (hstops : f.itinerary openedByRoot (Limits.treeDepth + 1) (.value .read)
        ⟨Bindings.programScope, false⟩ (some 9) =
      [.mark false (some 0), .use 0 false .read "a" 5]) :
    (Bindings.ofForest f (some 9)).binding? 0 =
      some ⟨"a", .let, 0, 3, 0, false, false, #[⟨5, .read⟩]⟩ := by
  have hd : Bindings.declarations f 9 =
      (Outline.vars (.declare false .let "a" 0 3 .done) .done).play
        Bindings.programScope Bindings.programScope (Bindings.start 9) := by
    rw [Bindings.declarations, houtline]
  simp only [Outline.play, Bindings.declare, Bindings.openScope, Bindings.attach, Bindings.start,
    Bindings.empty, Std.HashMap.getElem?_empty, Option.filter_none] at hd
  have hopened : ((Bindings.declarations f 9).opened[·]?) = openedByRoot := by
    funext i
    simp [openedByRoot, hd, Std.HashMap.getElem?_insert, @eq_comm _ 9]
  have ha : (Bindings.declarations f 9).lookup 0 "a" = some 0 := by
    have hsteps : Limits.scopeSteps = (Limits.scopeSteps - 1) + 1 := rfl
    have hname : (Bindings.declarations f 9).names[((0 : ScopeId), "a")]? = some 0 := by
      simp [hd, Bindings.programScope]
    rw [Bindings.lookup, hsteps, Bindings.lookupFrom, hname]
  have hbindings : (Bindings.declarations f 9).bindings =
      #[⟨"a", .let, 0, 3, 0, false, false, #[]⟩] := by
    rw [hd]
    rfl
  have hafter : Bindings.ofForest f (some 9) =
      (Bindings.declarations f 9).addReference 0 false .read "a" 5 := by
    rw [Bindings.ofForest_eq, Bindings.route, hopened, hstops]
    rfl
  rw [hafter]
  simp [Bindings.addReference, ha, Bindings.modifyBinding, Bindings.binding?, hbindings]

theorem unpackArrays_complete_read :
    ∃ p changed g j binding elements, Program.parse "let a = ['z']; a[0];" = .ok p ∧
      (unpackArrays (some p.root)).run.run p.forest = (.ok changed, g) ∧
      (Bindings.ofForest p.forest (some p.root)).binding? j = some binding ∧
      binding.packedElements? p.forest Node.isStringOrNumber = some elements ∧
      (∀ r ∈ binding.references, g.Within r.node p.root →
        g.ReadsBeyond r.node elements.length ∨ g.CallsMethodOf r.node) ∧
      (¬ g.Within binding.declaration p.root ↔ binding.ReadOut p.forest g p.root) := by
  have hfacts : ∃ p ∈ (Program.parse "let a = ['z']; a[0];").toOption, p.root = 9 ∧
      Bindings.outline p.forest 9 = .vars (.declare false .let "a" 0 3 .done) .done ∧
      p.forest.itinerary openedByRoot (Limits.treeDepth + 1) (.value .read)
          ⟨Bindings.programScope, false⟩ (some 9) =
        [.mark false (some 0), .use 0 false .read "a" 5] ∧
      Binding.packedElements? ⟨"a", .let, 0, 3, 0, false, false, #[⟨5, .read⟩]⟩ p.forest
        Node.isStringOrNumber = some [some 1] := by
    decide +kernel
  rcases hfacts with ⟨p, hp, hroot, houtline, hstops, hpacked⟩
  have hparse := Program.parse_of_mem_toOption hp
  obtain ⟨forest, root⟩ := p
  obtain rfl : root = 9 := hroot
  have hnocut : .cut ∉ forest.itinerary openedByRoot (Limits.treeDepth + 1) (.value .read)
      ⟨Bindings.programScope, false⟩ (some 9) := by
    rw [hstops]
    decide
  have hwhole : (Bindings.ofForest forest (some 9)).truncated = false :=
    Bindings.truncated_ofForest.mpr ⟨houtline ▸ ⟨trivial, trivial⟩,
      fun h => hnocut (cut_mem_itinerary h)⟩
  rcases exists_run_unpackArrays (Program.hasProgram_parse hparse) (Program.tiered_parse hparse)
    hwhole with ⟨changed, g, hrun⟩
  have hj := binding?_of_walks houtline hstops
  exact ⟨_, changed, g, 0, _, _, hparse, hrun, hj, hpacked,
    unpackArrays_complete hparse hrun hj hpacked⟩

end Rewrite
end Untangle
