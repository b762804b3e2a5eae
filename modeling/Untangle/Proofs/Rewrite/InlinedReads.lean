import Mathlib.Data.List.Flatten
import Untangle.Proofs.Rewrite.ElementProxies
import Untangle.Proofs.Rewrite.Instantiation
import Untangle.Proofs.Rewrite.RepeatedRuns
import Untangle.Proofs.Rewrite.Substitution

/-!
# Inlined reads of packed arrays

A read is inlined as soon as its index is a number, and the index of a read may be a read itself.
Round by round the reads that wait for their index become fewer, until a round finds nothing more to
do. Then no read is left whose index is the number of an element.
-/

namespace Untangle

open Forest Rewrite
open Relation (ReflTransGen)

variable {f g : Forest} {root i j a r : NodeId} {c : NodeId → NodeId} {x y : Float}

/-!
## Reads and their indices
-/

/-- At `a` an element of `r` is read, and its index is written as the number. -/
def Forest.Indexed (f : Forest) (a r : NodeId) (x : Float) : Prop :=
  ∃ index isOptional inChain raw,
    f.node? (some a) = some (.access .element (some r) index isOptional inChain) ∧
      f.node? index = some (.number x raw)

theorem Forest.Indexed.unique (hx : f.Indexed a r x) (hy : f.Indexed a r y) : x = y := by
  rcases hx with ⟨index, _, _, raw, ha, hindex⟩
  rcases hy with ⟨index', _, _, raw', ha', hindex'⟩
  obtain ⟨_, _, rfl, _⟩ := Node.access.inj (Option.some.inj (ha.symm.trans ha'))
  exact (Node.number.inj (Option.some.inj (hindex.symm.trans hindex'))).1

/-- An access with a number for its index has no operation among its children, so it is left alone
when an operation gives way to another node. -/
theorem Forest.Indexed.graft {g' h : Forest} {p : NodeId} {n : Node Slot} {text : String}
    (hx : Graft g g' h i p j) (hg : g.WellFormed) (hn : g.node? (some i) = some n)
    (hcomputed : n.isComputed = true) (hr : g.node? (some r) = some (.name .identifier text))
    (ha : g.Indexed a r x) : h.Indexed a r x := by
  rcases ha with ⟨index, isOptional, inChain, raw, ha, hindex⟩
  have hkept : ∀ {k m}, g.node? (some k) = some m → k ≠ p → h.node? (some k) = some m :=
    fun hm hne => (hx.node?_old (lt_size_of_node? hm) hne).trans hm
  have howner : ∀ {m : Node Slot}, g.node? (some p) = some m → some i ∈ m.slots := by
    intro m hm
    have hmem := hg.linked.mp hx.linked
    rwa [children_of_node? hm, mem_childrenOf] at hmem
  refine ⟨index, isOptional, inChain, raw, hkept ha ?_, ?_⟩
  · rintro rfl
    rcases List.mem_pair.mp (howner ha) with heq | heq
    · obtain rfl := Option.some.inj heq
      obtain rfl := Option.some.inj (hn.symm.trans hr)
      cases hcomputed
    · rw [← heq, hn] at hindex
      obtain rfl := Option.some.inj hindex
      cases hcomputed
  · cases index with
    | none => cases hindex
    | some k =>
        refine hkept hindex ?_
        rintro rfl
        cases howner hindex

namespace PackedRead

variable {read : PackedRead}

/-- The element at an index, if there is one. -/
def element? (read : PackedRead) (x : Float) : Option Slot :=
  (arrayIndex? x read.array.elements.length).bind (read.array.elements[·]?)

/-- The reference is the object of the access at `a`, and the elements are literals. -/
structure Stands (read : PackedRead) (f : Forest) (root a : NodeId) : Prop where
  within : f.Within read.reference root
  name : ∃ text, f.node? (some read.reference) = some (.name .identifier text)
  access : ∃ index isOptional inChain,
    f.node? (some a) = some (.access .element (some read.reference) index isOptional inChain)
  elements : ∀ s ∈ read.array.elements,
    ∃ e n, s = some e ∧ f.node? (some e) = some n ∧ n.isLiteral = true

/-- The read is out of the tree, or its index is a number without an element. -/
def Settled (read : PackedRead) (f g : Forest) (root : NodeId) : Prop :=
  ∀ a, read.Stands f root a →
    ¬ g.Within read.reference root ∨ ∃ x, g.Indexed a read.reference x ∧ read.element? x = none

/-- The read is out of the tree, or its index is not the number of an element. -/
def Exhausted (read : PackedRead) (f g : Forest) (root : NodeId) : Prop :=
  ∀ a, read.Stands f root a →
    ¬ g.Within read.reference root ∨ ∀ x, g.Indexed a read.reference x → read.element? x = none

theorem Settled.exhausted (h : read.Settled f g root) : read.Exhausted f g root := by
  intro a ha
  refine (h a ha).imp_right ?_
  rintro ⟨x, hx, hnone⟩ y hy
  rwa [← hx.unique hy]

theorem mem_of_element? {s : Slot} (h : read.element? x = some s) : s ∈ read.array.elements := by
  rcases Option.bind_eq_some_iff.mp h with ⟨position, _, hposition⟩
  exact List.mem_of_getElem? hposition

theorem Stands.link (h : read.Stands f root a) (hf : f.WellFormed) :
    f.Link read.reference a := by
  rcases h.access with ⟨_, _, _, ha⟩
  exact hf.link_of_slot ha List.mem_cons_self

theorem Stands.unique (h : read.Stands f root a) (h' : read.Stands f root i) (hf : f.WellFormed) :
    a = i :=
  Link.unique (h.link hf) (h'.link hf)

theorem Stands.reference_eq {other : PackedRead} (h : read.Stands f root a)
    (h' : other.Stands f root a) : read.reference = other.reference := by
  rcases h.access with ⟨_, _, _, ha⟩
  rcases h'.access with ⟨_, _, _, ha'⟩
  exact Option.some.inj (Node.access.inj (Option.some.inj (ha.symm.trans ha'))).2.1

end PackedRead

/-!
## Trees with inlined reads
-/

/-- Some of the reads have been replaced by the elements that they read, and nothing else has
happened. -/
structure ReadsInlined (reads : List PackedRead) (f g : Forest) (root : NodeId)
    (c : NodeId → NodeId) : Prop extends Substituted f g root c where
  renamed : ∀ {i n}, f.node? (some i) = some n →
    g.node? (some i) = some (n.map (Option.map c))
  read : ∀ {a}, c a ≠ a → ∃ read ∈ reads, read.Stands f root a ∧ ∃ x e n,
    g.Indexed a read.reference x ∧ read.element? x = some (some e) ∧
      f.node? (some e) = some n ∧ g.node? (some (c a)) = some n

/-- The read at `a` has been inlined. -/
structure InlinesAt (reads : List PackedRead) (f g g' : Forest) (root a : NodeId) : Prop where
  inlined : ∃ c, ReadsInlined reads f g' root c
  indexed : ∀ {read : PackedRead} {b y}, read.Stands f root b →
    g.Indexed b read.reference y → g'.Indexed b read.reference y
  within_iff : ∀ {read : PackedRead} {b}, read.Stands f root b →
    (g'.Within read.reference root ↔ b ≠ a ∧ g.Within read.reference root)

namespace ReadsInlined

variable {reads : List PackedRead} {read : PackedRead} {n : Node Slot}

theorem refl (reads : List PackedRead) (hf : f.HasProgram root) :
    ReadsInlined reads f f root id := by
  refine ⟨(Respelled.refl f).substituted hf, fun {i n} hn => ?_, fun hne => absurd rfl hne⟩
  rwa [Option.map_id, Node.map_id]

variable (h : ReadsInlined reads f g root c)

include h

theorem eq_of_not_computed (hn : f.node? (some i) = some n) (hother : n.isComputed = false) :
    c i = i := by
  by_contra hne
  rcases h.operation hne with ⟨m, hm, hcomputed, _⟩
  obtain rfl := Option.some.inj (hn.symm.trans hm)
  cases hother.symm.trans hcomputed

theorem node?_of_leaf (hn : f.node? (some i) = some n) (hslots : n.slots = []) :
    g.node? (some i) = some n := by
  have hsame : n.map (Option.map c) = n.map id :=
    Node.map_congr fun s hs => by rw [hslots] at hs; cases hs
  rw [h.renamed hn, hsame, Node.map_id]

theorem access {index : Slot} {isOptional inChain : Bool} (hread : read.Stands f root a)
    (ha : f.node? (some a) =
      some (.access .element (some read.reference) index isOptional inChain)) :
    g.node? (some a) =
      some (.access .element (some read.reference) (index.map c) isOptional inChain) := by
  rcases hread.name with ⟨text, hname⟩
  have hsame := h.eq_of_not_computed hname rfl
  rw [h.renamed ha]
  change some (Node.access _ (some (c _)) (index.map c) _ _) = _
  rw [hsame]

/-- Below an access that is gone there are only reads that are gone, and numbers. -/
theorem below_moved (hi : f.Within i j) (hj : c j ≠ j) :
    ∃ read ∈ reads, ∃ a, read.Stands f root a ∧ c a ≠ a ∧
      (i = a ∨ i = read.reference ∨ ∃ x raw, f.node? (some i) = some (.number x raw)) := by
  have hf := h.before.wellFormed
  induction hi with
  | refl =>
      rcases h.read hj with ⟨read, hread, hstands, _⟩
      exact ⟨read, hread, _, hstands, hj, .inl rfl⟩
  | @tail k j hpath hlink ih =>
      by_cases hk : c k = k
      · rcases h.read hj with ⟨read, hread, hstands, x, _, _, hindexed, _⟩
        refine ⟨read, hread, j, hstands, hj, .inr ?_⟩
        rcases hstands.access with ⟨index, isOptional, inChain, ha⟩
        rcases hstands.name with ⟨text, hname⟩
        have hmem := hf.linked.mp hlink
        rw [children_of_node? ha, mem_childrenOf] at hmem
        rcases List.mem_pair.mp hmem with heq | heq
        · obtain rfl := Option.some.inj heq
          exact .inl (eq_of_within_leaf hf hname rfl hpath)
        · -- The index is a number, so there is nothing below it.
          subst heq
          rcases hindexed with ⟨index', _, _, raw, ha', hindex⟩
          rw [h.access hstands ha] at ha'
          obtain ⟨_, _, rfl, _⟩ := Node.access.inj (Option.some.inj ha')
          obtain ⟨m, hm⟩ : ∃ m, f.node? (some k) = some m :=
            ⟨_, node?_of_lt (lt_size_of_parent hlink)⟩
          have hnumber := h.renamed hm
          rw [Option.map_some, hk] at hindex
          obtain rfl := Node.number_of_map (Option.some.inj (hnumber.symm.trans hindex))
          obtain rfl := eq_of_within_leaf hf hm rfl hpath
          exact .inr ⟨x, raw, hm⟩
      · exact ih hk

/-- A node that is neither an access, nor read from, nor a number stays in the tree. -/
theorem within_of_ne (hi : f.Within i root) (hn : f.node? (some i) = some n)
    (hother : n.isComputed = false) (hnumber : ∀ x raw, n ≠ .number x raw)
    (hne : ∀ read ∈ reads, ∀ a, read.Stands f root a → c a ≠ a → i ≠ read.reference) :
    g.Within i root := by
  refine (h.within_iff_unmoved (lt_size_of_node? hn)).mpr ⟨hi, fun j hj => ?_⟩
  by_contra hmoved
  rcases h.below_moved hj hmoved with ⟨read, hread, a, hstands, ha, rfl | rfl | ⟨x, raw, hx⟩⟩
  · exact ha (h.eq_of_not_computed hn hother)
  · exact hne read hread a hstands ha rfl
  · exact hnumber x raw (Option.some.inj (hn.symm.trans hx))

/-- A reference is gone exactly if its read was inlined. -/
theorem within_iff_left (hread : read.Stands f root a) :
    g.Within read.reference root ↔ c a = a := by
  have hf := h.before.wellFormed
  rcases hread.name with ⟨text, hname⟩
  constructor
  · intro hwithin
    exact ((h.within_iff_unmoved (lt_size_of_node? hname)).mp hwithin).2 a
      (.single (hread.link hf))
  · intro ha
    refine h.within_of_ne hread.within hname rfl nofun fun other _ b hother hb heq => hb ?_
    have hlink := hother.link hf
    rw [← heq] at hlink
    exact Link.unique (hread.link hf) hlink ▸ ha

omit h in
theorem within_access (hf : f.HasProgram root) (hlink : f.Link r a) (hr : f.Within r root) :
    f.Within a root := by
  refine Substituted.within_of_link hr ?_ hlink
  rintro rfl
  cases hf.parent.symm.trans hlink

/-- The literal that is read is copied. -/
theorem addsConstant_copy (hn : f.node? (some i) = some n) (hliteral : n.isLiteral = true) :
    ∃ j g', g.copy (some i) = (some j, g') ∧ g.AddsConstant g' j ∧
      g'.node? (some j) = some n := by
  have hslots := Node.slots_of_isLiteral hliteral
  have hg := h.after.wellFormed
  have hold := h.node?_of_leaf hn hslots
  rcases copied_copy hg (lt_size_of_node? hold) with ⟨j, g', hcopy, hcopied⟩
  have hnew := hcopied.node?_of_leaf hold hslots
  exact ⟨j, g', hcopy, ⟨hcopied.extends_, hcopied.wellFormed, hcopied.free, hcopied.new,
    .literal hnew hliteral⟩, hnew⟩

/-- The read of an element is inlined. -/
theorem inline (hmem : read ∈ reads) (hread : read.Stands f root a)
    (hleft : g.Within read.reference root) (hx : g.Indexed a read.reference x)
    (he : read.element? x = some (some i)) :
    ∃ g', (Edit.copy (some i) >>= Edit.replace (some a)).run g = (true, g') ∧
      InlinesAt reads f g g' root a := by
  have hg := h.after.wellFormed
  rcases hread.access with ⟨index, isOptional, inChain, ha⟩
  have ha' := h.access hread ha
  have hwithin := within_access h.after (hg.link_of_slot ha' List.mem_cons_self) hleft
  rcases hread.elements _ (PackedRead.mem_of_element? he) with ⟨e, n, heq, hn, hliteral⟩
  obtain rfl := Option.some.inj heq
  rcases h.addsConstant_copy hn hliteral with ⟨j, g₁, hcopy, hadds, hj⟩
  have hchild : childrenOf (.access .element (some read.reference) index isOptional inChain) ≠ [] :=
    List.cons_ne_nil _ _
  rcases h.exists_replace hadds hwithin ha rfl hchild with ⟨p, g', hreplace, hgraft, hsub⟩
  have hrun : (Edit.copy (some i) >>= Edit.replace (some a)).run g = (true, g') := by
    have hcopy' : (Edit.copy (some i)).run g = (some j, g₁) := hcopy
    rw [Edit.run_bind, hcopy']
    exact congrArg Prod.swap hreplace
  have hleaf : ∀ {k m}, g₁.node? (some k) = some m → m.isLiteral = true →
      g'.node? (some k) = some m := by
    intro k m hm hliteral
    refine h.node?_graft hgraft ha rfl hm ?_
    rw [Node.childrenOf_of_isLiteral hliteral]
    nofun
  have hindexed : ∀ {other : PackedRead} {b y}, other.Stands f root b →
      g.Indexed b other.reference y → g'.Indexed b other.reference y := by
    intro other b y hother hy
    rcases hother.name with ⟨text, hname⟩
    exact hy.graft hgraft hg ha' rfl (h.node?_of_leaf hname rfl)
  have hinlined : ReadsInlined reads f g' root (Function.update c a j) := by
    refine ⟨hsub, fun {k m} hm => ?_, fun {b} hb => ?_⟩
    · rw [hgraft.node?_map hg (h.renamed hm), Node.map_map, Option.map_comp_map,
        h.update_comp hwithin (lt_size_of_node? ha)]
    · by_cases hba : b = a
      · subst hba
        rw [Function.update_self]
        exact ⟨read, hmem, hread, x, i, n, hindexed hread hx, he, hn, hleaf hj hliteral⟩
      · rw [Function.update_of_ne hba] at hb ⊢
        rcases h.read hb with ⟨other, hother, hstands, y, k, m, hy, hk, hm, hcopied⟩
        rcases hstands.elements _ (PackedRead.mem_of_element? hk) with ⟨e, m', heq, hm', hliteral'⟩
        obtain rfl := Option.some.inj heq
        obtain rfl := Option.some.inj (hm.symm.trans hm')
        refine ⟨other, hother, hstands, y, k, m, hindexed hstands hy, hk, hm, hleaf ?_ hliteral'⟩
        exact (hadds.grown.node? (lt_size_of_node? hcopied)).trans hcopied
  have hja : j ≠ a := by
    rintro rfl
    exact absurd (lt_size_of_node? ha') (Nat.not_lt.mpr (hadds.new j .refl))
  refine ⟨g', hrun, ⟨_, hinlined⟩, hindexed, fun {other b} hother => ?_⟩
  rw [hinlined.within_iff_left hother, h.within_iff_left hother]
  by_cases hba : b = a
  · subst hba
    simp [hja]
  · simp [hba]

/-- A read that is still there is inlined, or has no element, or waits. -/
theorem run_replaceRead (hmem : read ∈ reads) (hread : read.Stands f root a)
    (hleft : g.Within read.reference root) :
    (∃ g', (replaceRead read).run g = (.replaced, g') ∧ InlinesAt reads f g g' root a) ∨
      (∃ x, g.Indexed a read.reference x ∧ read.element? x = none ∧
        (replaceRead read).run g = (.skipped, g)) ∨
      (∀ x, ¬ g.Indexed a read.reference x) ∧ (replaceRead read).run g = (.waiting, g) := by
  rcases hread.access with ⟨index, isOptional, inChain, ha⟩
  have ha' := h.access hread ha
  have hlink : g.parent (some read.reference) = some a :=
    h.after.wellFormed.link_of_slot ha' List.mem_cons_self
  unfold replaceRead
  rw [Edit.run_get_bind]
  simp only [hlink, ha']
  split
  · rename_i x raw hindex
    have hx : g.Indexed a read.reference x := ⟨_, _, _, raw, ha', hindex⟩
    have helement : read.element? x =
        (arrayIndex? x read.array.elements.length).bind (read.array.elements[·]?) := rfl
    rw [← helement]
    cases he : read.element? x with
    | none => exact .inr (.inl ⟨x, hx, he, rfl⟩)
    | some s =>
        left
        rcases hread.elements s (PackedRead.mem_of_element? he) with ⟨e, n, rfl, _, _⟩
        rcases h.inline hmem hread hleft hx he with ⟨g', hrun, hinlined⟩
        refine ⟨g', ?_, hinlined⟩
        have hrun' : (Edit.copy (some e) >>= fun copy => Edit.replace (some a) copy >>= fun done =>
            pure (if done then ReadOutcome.replaced else .skipped)).run g =
            (ReadOutcome.replaced, g') := by
          rw [← bind_assoc, Edit.run_bind, hrun]
          rfl
        exact hrun'
  · rename_i hnot
    refine .inr (.inr ⟨?_, rfl⟩)
    rintro x ⟨index', _, _, raw, ha₁, hindex⟩
    rw [ha'] at ha₁
    obtain ⟨_, _, rfl, _⟩ := Node.access.inj (Option.some.inj ha₁)
    exact hnot x raw hindex

end ReadsInlined

/-!
## Rounds
-/

/-- Every read stands at an access of its own. -/
structure DistinctReads (all : List PackedRead) (f : Forest) (root : NodeId) : Prop where
  stands : ∀ read ∈ all, ∃ a, read.Stands f root a
  distinct : ∀ read ∈ all, ∀ other ∈ all, read.reference = other.reference → read = other

/-- What has become of `g` when some of all the reads were tried. -/
structure Tried (all reads : List PackedRead) (f g h : Forest) (root : NodeId)
    (replaced : List NodeId) : Prop where
  inlined : ∃ c, ReadsInlined all f h root c
  settled : ∀ read ∈ all, read.Settled f g root → read.Settled f h root
  gone : ∀ read ∈ all, h.Within read.reference root → g.Within read.reference root
  others : ∀ read ∈ all, read ∉ reads → g.Within read.reference root → h.Within read.reference root
  /-- The answer names the arrays that were read. -/
  replaced : ∀ d, d ∈ replaced ↔
    ∃ read ∈ reads, read.array.declaration = d ∧ ¬ h.Within read.reference root

/-- What a round does. -/
structure Round (all reads waiting : List PackedRead) (f g h : Forest) (root : NodeId)
    (replaced : List NodeId) : Prop extends Tried all reads f g h root replaced where
  sublist : waiting.Sublist reads
  left : ∀ read ∈ waiting, h.Within read.reference root
  done : ∀ read ∈ reads, read ∈ waiting ∨ read.Settled f h root
  /-- A round in which no read is done with does nothing. -/
  idle : waiting.length = reads.length → h = g ∧
    ∀ read ∈ reads, ∀ a, read.Stands f root a → ∀ x, ¬ g.Indexed a read.reference x

section Rounds

variable {all reads waiting : List PackedRead} {read : PackedRead} {g' h : Forest}
  {replaced : List NodeId}

theorem InlinesAt.settled (hx : InlinesAt all f g g' root a) (hread : read.Settled f g root) :
    read.Settled f g' root := by
  intro b hb
  refine (hread b hb).imp (fun hgone hleft => hgone ((hx.within_iff hb).mp hleft).2) ?_
  rintro ⟨x, hindexed, hnone⟩
  exact ⟨x, hx.indexed hb hindexed, hnone⟩

theorem Round.nil (hinlined : ∃ c, ReadsInlined all f g root c) :
    Round all [] [] f g g root [] := by
  refine ⟨⟨hinlined, fun _ _ => id, fun _ _ => id, fun _ _ _ => id, by simp⟩, .refl _, by simp,
    by simp, fun _ => ⟨rfl, by simp⟩⟩

/-- The first read of the round was inlined. -/
theorem Round.cons_replaced (hall : DistinctReads all f root) (hmem : read ∈ all)
    (hread : read.Stands f root a) (hx : InlinesAt all f g g' root a)
    (hrest : Round all reads waiting f g' h root replaced) :
    Round all (read :: reads) waiting f g h root (read.array.declaration :: replaced) := by
  have hgone : ¬ h.Within read.reference root := fun hleft =>
    ((hx.within_iff hread).mp (hrest.gone read hmem hleft)).1 rfl
  refine ⟨⟨hrest.inlined, ?_, ?_, ?_, ?_⟩, hrest.sublist.cons _, hrest.left, ?_, ?_⟩
  · exact fun other hother hsettled => hrest.settled other hother (hx.settled hsettled)
  · intro other hother hleft
    rcases hall.stands other hother with ⟨b, hb⟩
    exact ((hx.within_iff hb).mp (hrest.gone other hother hleft)).2
  · intro other hother hnot hleft
    rw [List.mem_cons, not_or] at hnot
    rcases hall.stands other hother with ⟨b, hb⟩
    refine hrest.others other hother hnot.2 ((hx.within_iff hb).mpr ⟨?_, hleft⟩)
    rintro rfl
    exact hnot.1 (hall.distinct other hother read hmem (hb.reference_eq hread))
  · intro d
    rw [List.mem_cons, hrest.replaced, List.exists_mem_cons_iff]
    exact or_congr_left ⟨fun heq => ⟨heq.symm, hgone⟩, fun heq => heq.1.symm⟩
  · rw [List.forall_mem_cons]
    exact ⟨.inr fun _ _ => .inl hgone, hrest.done⟩
  · intro hlength
    exact absurd (hlength ▸ hrest.sublist.length_le) (Nat.not_succ_le_self _)

/-- The index of the first read of the round is a number without an element. -/
theorem Round.cons_skipped (hmem : read ∈ all) (hleft : g.Within read.reference root)
    (hnot : read ∉ reads) (hread : read.Settled f g root)
    (hrest : Round all reads waiting f g h root replaced) :
    Round all (read :: reads) waiting f g h root replaced := by
  have hstays := hrest.others read hmem hnot hleft
  refine ⟨⟨hrest.inlined, hrest.settled, hrest.gone, ?_, ?_⟩, hrest.sublist.cons _, hrest.left,
    ?_, ?_⟩
  · intro other hother hnot'
    exact hrest.others other hother fun hin => hnot' (List.mem_cons_of_mem _ hin)
  · intro d
    rw [hrest.replaced, List.exists_mem_cons_iff]
    exact (or_iff_right fun hgone => hgone.2 hstays).symm
  · rw [List.forall_mem_cons]
    exact ⟨.inr (hrest.settled read hmem hread), hrest.done⟩
  · intro hlength
    exact absurd (hlength ▸ hrest.sublist.length_le) (Nat.not_succ_le_self _)

/-- The first read of the round waits. -/
theorem Round.cons_waiting (hmem : read ∈ all) (hleft : g.Within read.reference root)
    (hnot : read ∉ reads) (hread : read.Stands f root a)
    (hwaits : ∀ x, ¬ g.Indexed a read.reference x)
    (hrest : Round all reads waiting f g h root replaced) :
    Round all (read :: reads) (read :: waiting) f g h root replaced := by
  have hstays := hrest.others read hmem hnot hleft
  refine ⟨⟨hrest.inlined, hrest.settled, hrest.gone, ?_, ?_⟩, hrest.sublist.cons_cons _, ?_, ?_, ?_⟩
  · intro other hother hnot'
    exact hrest.others other hother fun hin => hnot' (List.mem_cons_of_mem _ hin)
  · intro d
    rw [hrest.replaced, List.exists_mem_cons_iff]
    exact (or_iff_right fun hgone => hgone.2 hstays).symm
  · rw [List.forall_mem_cons]
    exact ⟨hstays, hrest.left⟩
  · intro other hother
    rcases List.mem_cons.mp hother with rfl | hother
    · exact .inl List.mem_cons_self
    · exact (hrest.done other hother).imp_left (List.mem_cons_of_mem _)
  · intro hlength
    obtain ⟨rfl, hothers⟩ := hrest.idle (Nat.succ.inj hlength)
    rcases hrest.inlined with ⟨c, hinlined⟩
    rw [List.forall_mem_cons]
    refine ⟨rfl, fun b hb => ?_, hothers⟩
    obtain rfl := hb.unique hread hinlined.before.wellFormed
    exact hwaits

theorem run_replaceReadsOnce (hall : DistinctReads all f root)
    (hinlined : ∃ c, ReadsInlined all f g root c) (hreads : reads ⊆ all) (hnodup : reads.Nodup)
    (hleft : ∀ read ∈ reads, g.Within read.reference root) :
    ∃ waiting replaced h, (replaceReadsOnce reads).run g = ((waiting, replaced), h) ∧
      Round all reads waiting f g h root replaced := by
  induction reads generalizing g with
  | nil => exact ⟨[], [], g, rfl, .nil hinlined⟩
  | cons read rest ih =>
      obtain ⟨hmem, hrest⟩ := List.cons_subset.mp hreads
      obtain ⟨hnot, hnodup⟩ := List.nodup_cons.mp hnodup
      rw [List.forall_mem_cons] at hleft
      rcases hall.stands read hmem with ⟨a, hread⟩
      rcases hinlined with ⟨c, hinlined⟩
      rw [replaceReadsOnce, Edit.run_bind, Edit.run_bind]
      rcases hinlined.run_replaceRead hmem hread hleft.1 with
        ⟨g', hrun, hx⟩ | ⟨x, hx, hnone, hrun⟩ | ⟨hwaits, hrun⟩
      · have hleft' : ∀ other ∈ rest, g'.Within other.reference root := by
          intro other hother
          rcases hall.stands other (hrest hother) with ⟨b, hb⟩
          refine (hx.within_iff hb).mpr ⟨?_, hleft.2 other hother⟩
          rintro rfl
          have heq := hall.distinct other (hrest hother) read hmem (hb.reference_eq hread)
          exact hnot (heq ▸ hother)
        rcases ih hx.inlined hrest hnodup hleft' with ⟨waiting, replaced, h, hrun', hround⟩
        rw [hrun]
        dsimp only
        rw [hrun']
        exact ⟨_, _, h, rfl, hround.cons_replaced hall hmem hread hx⟩
      · rcases ih ⟨c, hinlined⟩ hrest hnodup hleft.2 with ⟨waiting, replaced, h, hrun', hround⟩
        have hsettled : read.Settled f g root := by
          intro b hb
          obtain rfl := hb.unique hread hinlined.before.wellFormed
          exact .inr ⟨x, hx, hnone⟩
        rw [hrun]
        dsimp only
        rw [hrun']
        exact ⟨_, _, h, rfl, hround.cons_skipped hmem hleft.1 hnot hsettled⟩
      · rcases ih ⟨c, hinlined⟩ hrest hnodup hleft.2 with ⟨waiting, replaced, h, hrun', hround⟩
        rw [hrun]
        dsimp only
        rw [hrun']
        exact ⟨_, _, h, rfl, hround.cons_waiting hmem hleft.1 hnot hread hwaits⟩

/-- A read that is not waiting after a round is done with, and so are all if the round found none to
be done with. -/
theorem Round.exhausted (hround : Round all reads waiting f g h root replaced)
    (hdone : waiting.length = reads.length ∨ waiting = []) :
    ∀ read ∈ reads, read.Exhausted f h root := by
  intro read hread
  rcases hdone with hlength | rfl
  · obtain ⟨rfl, hidle⟩ := hround.idle hlength
    exact fun a ha => .inr fun x hx => absurd hx (hidle read hread a ha x)
  · exact ((hround.done read hread).resolve_left List.not_mem_nil).exhausted

/-- The reads that wait are tried again. -/
theorem Round.trans {g' : Forest} {more : List NodeId}
    (hround : Round all reads waiting f g g' root replaced) (hreads : reads ⊆ all)
    (htried : Tried all waiting f g' h root more) :
    Tried all reads f g h root (replaced ++ more) := by
  have hstays : ∀ read ∈ all, read ∉ waiting → g'.Within read.reference root →
      h.Within read.reference root := htried.others
  refine ⟨htried.inlined, ?_, ?_, ?_, ?_⟩
  · exact fun read hread hsettled => htried.settled read hread (hround.settled read hread hsettled)
  · exact fun read hread hleft => hround.gone read hread (htried.gone read hread hleft)
  · intro read hread hnot hleft
    exact hstays read hread (fun hin => hnot (hround.sublist.subset hin))
      (hround.others read hread hnot hleft)
  · intro d
    rw [List.mem_append, hround.replaced, htried.replaced]
    constructor
    · rintro (⟨read, hread, hd, hgone⟩ | ⟨read, hread, hd, hgone⟩)
      · exact ⟨read, hread, hd, fun hleft => hgone (htried.gone read (hreads hread) hleft)⟩
      · exact ⟨read, hround.sublist.subset hread, hd, hgone⟩
    · rintro ⟨read, hread, hd, hgone⟩
      by_cases hleft : g'.Within read.reference root
      · refine .inr ⟨read, ?_, hd, hgone⟩
        by_contra hnot
        exact hgone (hstays read (hreads hread) hnot hleft)
      · exact .inl ⟨read, hread, hd, hleft⟩

theorem Tried.exhausted (htried : Tried all reads f g h root replaced) (hread : read ∈ all) 
    (hsettled : read.Settled f g root) : read.Exhausted f h root :=
  (htried.settled read hread hsettled).exhausted

/-- With more rounds than reads, the rounds end because nothing is left to be done. -/
theorem run_replaceReads {fuel : Nat} (hall : DistinctReads all f root)
    (hinlined : ∃ c, ReadsInlined all f g root c) (hreads : reads ⊆ all) (hnodup : reads.Nodup)
    (hleft : ∀ read ∈ reads, g.Within read.reference root) (hfuel : reads.length < fuel) :
    ∃ replaced h, (replaceReads fuel reads).run g = (replaced, h) ∧
      Tried all reads f g h root replaced ∧ ∀ read ∈ reads, read.Exhausted f h root := by
  induction fuel generalizing g reads with
  | zero => exact absurd hfuel (Nat.not_lt_zero _)
  | succ fuel ih =>
      rcases run_replaceReadsOnce hall hinlined hreads hnodup hleft with
        ⟨waiting, replaced, g', hrun, hround⟩
      rw [replaceReads, Edit.run_bind, hrun]
      dsimp only
      by_cases hdone : (waiting.length = reads.length || waiting.isEmpty) = true
      · rw [if_pos hdone]
        refine ⟨replaced, g', rfl, hround.toTried, hround.exhausted ?_⟩
        simpa using hdone
      · rw [if_neg hdone]
        simp only [Bool.or_eq_true, decide_eq_true_eq, List.isEmpty_iff, not_or] at hdone
        have hshorter : waiting.length < reads.length :=
          Nat.lt_of_le_of_ne hround.sublist.length_le hdone.1
        have hsub : waiting ⊆ all := List.Subset.trans hround.sublist.subset hreads
        rcases ih hround.inlined hsub (hnodup.sublist hround.sublist) hround.left
          (Nat.lt_of_lt_of_le hshorter (Nat.lt_succ_iff.mp hfuel)) with
          ⟨more, h, hrun', htried, hexhausted⟩
        refine ⟨replaced ++ more, h, ?_, ?_, ?_⟩
        · rw [Edit.run_bind, hrun']
          rfl
        · exact hround.trans hreads htried
        · intro read hread
          rcases hround.done read hread with hwaits | hsettled
          · exact hexhausted read hwaits
          · exact htried.exhausted (hreads hread) hsettled

end Rounds

/-!
## Runs
-/

section Runs

variable (hf : f.HasProgram root) (hwhole : (Bindings.ofForest f (some root)).truncated = false)

include hf

/-- No node is read in two ways. -/
theorem nodup_references :
    ((packedReads f (Bindings.ofForest f (some root))).map PackedRead.reference).Nodup := by
  refine (Bindings.distinct_references hf.wellFormed root).sublist ?_
  rw [packedReads, List.map_flatMap, List.map_flatMap]
  refine List.Sublist.flatMap_right _ fun binding _ => ?_
  split
  · rw [List.map_map]
    exact .refl _
  · exact List.nil_sublist _

include hwhole

theorem distinctReads_packedReads :
    DistinctReads (packedReads f (Bindings.ofForest f (some root))) f root := by
  constructor
  · intro read hread
    rcases mem_packedReads.mp hread with ⟨j, binding, hj, hpacked, _, r, hr, hnode⟩
    obtain ⟨hdeclares, huses⟩ := Binding.packedElements?_eq_some_iff.mp hpacked
    obtain ⟨-, ⟨index, isOptional, inChain, haccess⟩, -⟩ := huses r hr
    have hname := (Bindings.reference_ofForest hf hwhole hj hr).1
    rw [hnode] at haccess hname
    cases hlink : f.parent (some read.reference) with
    | none =>
        rw [hlink] at haccess
        cases haccess
    | some a =>
        rw [hlink] at haccess
        refine ⟨a, within_of_packedReads hf.wellFormed hread, ⟨_, hname⟩,
          ⟨index, isOptional, inChain, haccess⟩, fun s hs => ?_⟩
        rcases (Option.any_eq_true _ _).mp (hdeclares.accepted s hs) with ⟨n, hn, hvalue⟩
        cases s with
        | none => cases hn
        | some e => exact ⟨e, n, rfl, hn, Node.isLiteral_of_isStringOrNumber hvalue⟩
  · intro read hread other hother heq
    exact List.inj_on_of_nodup_map (nodup_references hf) hread hother heq

/-- All reads are inlined that can be, and the answer names the arrays that were read. -/
theorem exists_readsInlined :
    ∃ replaced g c, (replaceReads ((packedReads f (Bindings.ofForest f (some root))).length + 1)
        (packedReads f (Bindings.ofForest f (some root)))).run f = (replaced, g) ∧
      ReadsInlined (packedReads f (Bindings.ofForest f (some root))) f g root c ∧
      (∀ read ∈ packedReads f (Bindings.ofForest f (some root)), read.Exhausted f g root) ∧
      ∀ d, d ∈ replaced ↔ ∃ read ∈ packedReads f (Bindings.ofForest f (some root)),
        read.array.declaration = d ∧ ¬ g.Within read.reference root := by
  have hleft : ∀ read ∈ packedReads f (Bindings.ofForest f (some root)),
      f.Within read.reference root := fun read hread => within_of_packedReads hf.wellFormed hread
  rcases run_replaceReads (distinctReads_packedReads hf hwhole) ⟨id, .refl _ hf⟩
    (List.Subset.refl _) (nodup_references hf).of_map hleft (Nat.lt_succ_self _) with
    ⟨replaced, g, hrun, htried, hexhausted⟩
  rcases htried.inlined with ⟨c, hinlined⟩
  exact ⟨replaced, g, c, hrun, hinlined, hexhausted, htried.replaced⟩

end Runs
end Untangle
