import Untangle.Proofs.Rewrite.Running
import Untangle.Proofs.Scope.Records
import Untangle.Rewrite.ArrayReads

/-!
# Reads of packed arrays that are left alone

An element is copied before it takes the place of a read, and a method loses its object before it
is called by name. Neither edit is given up halfway: a read that was found in a program is no
root, and neither is a callee.
-/

namespace Untangle

open Forest
open Relation (ReflTransGen)

variable {f g : Forest} {i p root : NodeId}

/-!
## Reads
-/

/-- The access to an element is not the root of a tree. -/
def PackedRead.Replaceable (f : Forest) (read : PackedRead) : Prop :=
  ∀ a object index isOptional inChain, f.Link read.reference a →
    f.node? (some a) = some (.access .element object index isOptional inChain) → ∃ p, f.Link a p

/-- What the reference stands in is in the tree. -/
def PackedRead.Present (f : Forest) (root : NodeId) (read : PackedRead) : Prop :=
  ∀ a, f.Link read.reference a → f.Within a root

theorem PackedRead.Present.replaceable {read : PackedRead} (hf : f.HasProgram root)
    (h : read.Present f root) : read.Replaceable f := by
  intro a object index isOptional inChain hlink hn
  exact hf.exists_link (h a hlink) hn (by simp)

namespace Rewrite

/-- A read is left alone, or an element of its array takes the place of the access. -/
theorem replaceRead_cases (read : PackedRead) (f : Forest) :
    (∃ outcome, outcome ≠ .replaced ∧ (replaceRead read).run f = (outcome, f)) ∨
      ∃ a object index isOptional inChain, f.Link read.reference a ∧
        f.node? (some a) = some (.access .element object index isOptional inChain) ∧
        ∃ element ∈ read.array.elements, ∃ done g,
          (Edit.copy element >>= Edit.replace (some a)).run f = (done, g) ∧
            (replaceRead read).run f = (if done then .replaced else .skipped, g) := by
  unfold replaceRead
  rw [Edit.run_get_bind]
  dsimp only
  split
  · rename_i hn
    split
    · split
      · rename_i element helement
        cases hlink : f.parent (some read.reference) with
        | none =>
            rw [hlink] at hn
            cases hn
        | some a =>
            rw [hlink] at hn
            rcases Option.bind_eq_some_iff.mp helement with ⟨position, _, hposition⟩
            exact .inr ⟨a, _, _, _, _, hlink, hn, element, List.mem_of_getElem? hposition, _, _,
              rfl, rfl⟩
      · exact .inl ⟨.skipped, by simp, rfl⟩
    · exact .inl ⟨.waiting, by simp, rfl⟩
  · exact .inl ⟨.skipped, by simp, rfl⟩

theorem run_replaceRead {read : PackedRead} (hf : f.WellFormed) (hread : read.Replaceable f)
    (hskipped : ((replaceRead read).run f).1 ≠ .replaced) : ((replaceRead read).run f).2 = f := by
  rcases replaceRead_cases read f with
    ⟨outcome, _, hrun⟩ | ⟨a, object, index, _, _, hlink, hn, element, _, done, g, hreplace, hrun⟩
  · rw [hrun]
  · rw [hrun] at hskipped ⊢
    rcases hread a _ _ _ _ hlink hn with ⟨p, hp⟩
    have hreports := Edit.reports_replaceBy (Edit.supplies_copy hf hp element)
    rw [Edit.Reports, hreplace] at hreports
    cases done with
    | true => exact absurd rfl hskipped
    | false => exact hreports rfl

/-- Reads that wait are tried again, and nothing else is. -/
theorem waiting_subset (reads : List PackedRead) (f : Forest) :
    ((replaceReadsOnce reads).run f).1.1 ⊆ reads := by
  induction reads generalizing f with
  | nil => exact List.Subset.refl []
  | cons read rest ih =>
      rw [replaceReadsOnce, Edit.run_bind, Edit.run_bind]
      dsimp only
      split
      · exact List.subset_cons_of_subset read (ih _)
      · exact List.cons_subset_cons read (ih _)
      · exact List.subset_cons_of_subset read (ih _)

theorem run_replaceReadsOnce {reads : List PackedRead} (hf : f.WellFormed)
    (hreads : ∀ read ∈ reads, read.Replaceable f)
    (hnone : ((replaceReadsOnce reads).run f).1.2 = []) :
    ((replaceReadsOnce reads).run f).2 = f := by
  induction reads with
  | nil => rfl
  | cons read rest ih =>
      rw [List.forall_mem_cons] at hreads
      rw [replaceReadsOnce, Edit.run_bind, Edit.run_bind] at hnone ⊢
      have hfirst := run_replaceRead hf hreads.1
      generalize (replaceRead read).run f = first at hnone hfirst ⊢
      rcases first with ⟨outcome, g⟩
      cases outcome with
      | replaced => cases hnone
      | waiting | skipped =>
          obtain rfl : g = f := hfirst (by simp)
          exact ih hreads.2 hnone

theorem run_replaceReads {reads : List PackedRead} {fuel : Nat} (hf : f.WellFormed)
    (hreads : ∀ read ∈ reads, read.Replaceable f)
    (hnone : ((replaceReads fuel reads).run f).1 = []) :
    ((replaceReads fuel reads).run f).2 = f := by
  induction fuel generalizing reads with
  | zero => rfl
  | succ fuel ih =>
      have hwaiting := waiting_subset reads f
      have honce := run_replaceReadsOnce hf hreads
      rw [replaceReads, Edit.run_bind] at hnone ⊢
      generalize (replaceReadsOnce reads).run f = first at hnone hwaiting honce ⊢
      rcases first with ⟨⟨waiting, replaced⟩, g⟩
      dsimp only at hnone hwaiting honce ⊢
      by_cases hdone : (waiting.length = reads.length || waiting.isEmpty) = true
      · rw [if_pos hdone] at hnone ⊢
        exact honce hnone
      · rw [if_neg hdone] at hnone ⊢
        obtain ⟨hreplaced, hlater⟩ := List.append_eq_nil_iff.mp hnone
        obtain rfl := honce hreplaced
        exact ih (fun read hmem => hreads read (hwaiting hmem)) hlater

/-- The reads are the references to packed arrays. -/
theorem mem_packedReads {b : Bindings} {read : PackedRead} :
    read ∈ packedReads f b ↔ ∃ j binding, b.binding? j = some binding ∧
      binding.packedElements? f Node.isStringOrNumber = some read.array.elements ∧
      read.array.declaration = binding.declaration ∧
      ∃ r ∈ binding.references, r.node = read.reference := by
  rw [packedReads, List.mem_flatMap]
  constructor
  · rintro ⟨binding, hbinding, hmem⟩
    rcases List.mem_iff_getElem?.mp hbinding with ⟨j, hj⟩
    split at hmem
    · rename_i elements hpacked
      rcases List.mem_map.mp hmem with ⟨r, hr, rfl⟩
      refine ⟨j, binding, ?_, hpacked, rfl, r, Array.mem_toList_iff.mp hr, rfl⟩
      simpa [Bindings.binding?] using hj
    · cases hmem
  · rintro ⟨j, binding, hj, hpacked, hdeclaration, r, hr, hnode⟩
    refine ⟨binding, Array.mem_toList_iff.mpr (Array.mem_of_getElem? hj), ?_⟩
    rw [hpacked]
    refine List.mem_map.mpr ⟨r, Array.mem_toList_iff.mpr hr, ?_⟩
    rw [hnode, ← hdeclaration]

/-- The walk found the references below the root. -/
theorem within_of_packedReads (hf : f.WellFormed) {read : PackedRead}
    (hread : read ∈ packedReads f (Bindings.ofForest f (some root))) :
    f.Within read.reference root := by
  rcases mem_packedReads.mp hread with ⟨j, binding, hj, _, _, r, hr, hnode⟩
  rcases Bindings.exists_use hf hj hr with ⟨scope, inWith, name, huse, _⟩
  have huser : r.node ∈ (Bindings.route f root).filterMap Stop.user? :=
    List.mem_filterMap.mpr ⟨_, huse, rfl⟩
  rcases within_of_user hf huser with ⟨_, ⟨⟩, hwithin⟩
  exact hnode ▸ hwithin

theorem present_of_packedReads (hf : f.HasProgram root) {read : PackedRead}
    (hread : read ∈ packedReads f (Bindings.ofForest f (some root))) : read.Present f root := by
  intro a hlink
  rcases ReflTransGen.cases_head (within_of_packedReads hf.wellFormed hread) with
    heq | ⟨p, hp, hpath⟩
  · rw [Link, heq, hf.parent] at hlink
    cases hlink
  · exact Link.unique hp hlink ▸ hpath

/-!
## Methods
-/

theorem node_of_namedMethod? {object : Slot} {name : String} {isOptional inChain : Bool}
    (h : namedMethod? f i = some (object, name, isOptional, inChain)) :
    (∃ p, f.Link i p) ∧
      ∃ key, f.node? (some i) = some (.access .element object key isOptional inChain) := by
  unfold namedMethod? at h
  dsimp only at h
  split at h
  · rename_i hcallee hn
    constructor
    · cases hp : f.parent (some i) with
      | none =>
          rw [hp] at hcallee
          cases hcallee
      | some p => exact ⟨p, hp⟩
    · split at h
      · split at h
        · cases h
          exact ⟨_, hn⟩
        · cases h
      · cases h
  · cases h

/-- The access `object.name`: the object is free, the other nodes are new. -/
def addNamedAccess (f : Forest) (o : NodeId) (name : String) (isOptional inChain : Bool) :
    NodeId × Forest :=
  (f.addIdentifier name).2.addNew (.access .property (some o) (some f.size) isOptional inChain)

section NamedAccess

variable {o x : NodeId} {name : String} {isOptional inChain : Bool}

theorem adoptable_identifier : f.Adoptable (.name .identifier name) :=
  adoptable_of_leaf rfl rfl

theorem adoptable_namedAccess (ho : f.Free o) :
    (f.addIdentifier name).2.Adoptable
      (.access .property (some o) (some f.size) isOptional inChain) := by
  constructor
  · intro c hc
    rcases List.mem_pair.mp hc with rfl | rfl
    · exact free_add_of_not_mem ho List.not_mem_nil
    · exact free_add_self adoptable_identifier
  · simpa [childrenOf, Node.slots] using Nat.ne_of_lt ho.1
  · intro entries hentries
    cases hentries

theorem size_lt_addIdentifier (f : Forest) (name : String) :
    f.size < (f.addIdentifier name).2.size := by
  rw [addIdentifier, addNew, size_add]
  exact Nat.lt_succ_self _

theorem wellFormed_addNamedAccess (hf : f.WellFormed) (ho : f.Free o) :
    (addNamedAccess f o name isOptional inChain).2.WellFormed :=
  wellFormed_add (wellFormed_add hf adoptable_identifier) (adoptable_namedAccess ho)

/-- Below the access there are the name, and what is below the object. -/
theorem within_addNamedAccess (hf : f.WellFormed) (ho : f.Free o)
    (hx : (addNamedAccess f o name isOptional inChain).2.Within x
      (addNamedAccess f o name isOptional inChain).1) :
    x = (addNamedAccess f o name isOptional inChain).1 ∨ x = f.size ∨ f.Within x o := by
  have hname : f.Adoptable (.name .identifier name) := adoptable_identifier
  rcases within_add_self (wellFormed_add hf hname) (adoptable_namedAccess ho) hx with
    heq | ⟨c, hc, hbelow⟩
  · exact .inl heq
  · rcases List.mem_pair.mp hc with rfl | rfl
    · exact .inr (.inr (within_of_add hname (Nat.ne_of_lt ho.1) hbelow))
    · rcases within_add_self hf hname hbelow with heq | ⟨_, hnone, _⟩
      · exact .inr (.inl heq)
      · cases hnone

/-- The access by name takes the object along. -/
theorem replace_namedAccess (name : String) (isOptional inChain : Bool) (hf : f.WellFormed)
    (hlink : f.Link i p) (hobject : f.Link o i) (hx : Exchange f g i o []) :
    ∃ h, (addNamedAccess g o name isOptional inChain).2.replace (some i)
        (some (addNamedAccess g o name isOptional inChain).1) = (h, true) ∧
      Exchange (addNamedAccess g o name isOptional inChain).2 h p i
        [(addNamedAccess g o name isOptional inChain).1] := by
  have hwf := hx.wellFormed hf
  have haccess : (g.addIdentifier name).2.Adoptable
      (.access .property (some o) (some g.size) isOptional inChain) :=
    adoptable_namedAccess hx.free_detached
  have hi : g.Link i p := by
    rw [hx.link_detached]
    constructor
    · rintro rfl
      exact hf.not_within_of_link hobject .refl
    · exact hlink
  have hi' : (g.addIdentifier name).2.Link i p := (link_add adoptable_identifier).mpr (.inl hi)
  apply replace_of_free (wellFormed_addNamedAccess hwf hx.free_detached)
    ((link_add haccess).mpr (.inl hi')) (free_add_self haccess)
  intro hpath
  rcases within_addNamedAccess hwf hx.free_detached hpath with rfl | rfl | hbelow
  · exact Nat.lt_irrefl _ (lt_size_of_parent hi')
  · exact Nat.lt_irrefl _ (lt_size_of_parent hi)
  · exact hf.not_within_of_link hobject (hx.within_detached hbelow)

end NamedAccess

/-- The object is taken out of the access, and put into the one that takes its place. -/
theorem run_callByName {o : NodeId} {name : String} {isOptional inChain : Bool}
    (hf : f.WellFormed) (hnamed : namedMethod? f i = some (some o, name, isOptional, inChain)) :
    ∃ p g h, f.Link i p ∧ f.detach (some o) = (g, true) ∧ Exchange f g i o [] ∧
      (addNamedAccess g o name isOptional inChain).2.replace (some i)
        (some (addNamedAccess g o name isOptional inChain).1) = (h, true) ∧
      Exchange (addNamedAccess g o name isOptional inChain).2 h p i
        [(addNamedAccess g o name isOptional inChain).1] ∧
      (callByName i).run f = (true, h) := by
  rcases node_of_namedMethod? hnamed with ⟨⟨p, hlink⟩, key, hn⟩
  have hobject : f.Link o i := hf.link_of_slot hn List.mem_cons_self
  rcases detach_of_link hf hobject with ⟨g, hg, hx⟩
  rcases replace_namedAccess name isOptional inChain hf hlink hobject hx with ⟨h, hh, hx'⟩
  refine ⟨p, g, h, hlink, hg, hx, hh, hx', ?_⟩
  have hdetach : (Edit.detach (some o)).run f = (true, g) := congrArg Prod.swap hg
  rw [callByName, Edit.run_look_bind, hnamed]
  dsimp only
  rw [Edit.run_bind, hdetach]
  exact congrArg Prod.swap hh

/-- A method that is not called by a string is left alone. -/
theorem callByName_cases (hf : f.WellFormed) (i : NodeId) :
    (callByName i).run f = (false, f) ∨
      ∃ p o key name isOptional inChain g h, f.Link i p ∧
        f.node? (some i) = some (.access .element (some o) key isOptional inChain) ∧
        f.detach (some o) = (g, true) ∧ Exchange f g i o [] ∧
        (addNamedAccess g o name isOptional inChain).2.replace (some i)
          (some (addNamedAccess g o name isOptional inChain).1) = (h, true) ∧
        Exchange (addNamedAccess g o name isOptional inChain).2 h p i
          [(addNamedAccess g o name isOptional inChain).1] ∧
        (callByName i).run f = (true, h) := by
  cases hnamed : namedMethod? f i with
  | none =>
      left
      rw [callByName, Edit.run_look_bind, hnamed]
      rfl
  | some method =>
      obtain ⟨object, name, isOptional, inChain⟩ := method
      rcases node_of_namedMethod? hnamed with ⟨_, key, hn⟩
      cases object with
      | none =>
          left
          rw [callByName, Edit.run_look_bind, hnamed]
          rfl
      | some o =>
          rcases run_callByName hf hnamed with ⟨p, g, h, hlink, hrest⟩
          exact .inr ⟨p, o, key, name, isOptional, inChain, g, h, hlink, hn, hrest⟩

theorem reports_callByName (hf : f.WellFormed) (i : NodeId) :
    Edit.Reports id (callByName i) f := by
  rcases callByName_cases hf i with hrun | ⟨_, _, _, _, _, _, _, _, _, _, _, _, _, _, hrun⟩
  · intro _
    rw [hrun]
  · apply Edit.reports_of_true
    rw [hrun]

/-!
## Runs
-/

/-- The arrays that were read. -/
def readArrays (reads : List PackedRead) (replaced : List NodeId) : List NodeId :=
  (reads.map fun read => read.array.declaration).eraseDups.filter replaced.contains

/-- A run replaces reads, removes arrays if there were any, and then calls methods by name. -/
theorem unpackArrays_cases {changed : Bool}
    (hrun : (unpackArrays (some root)).run.run f = (.ok changed, g)) :
    (Bindings.ofForest f (some root)).truncated = false ∧ ∃ replaced named f₁ f₂,
      (replaceReads ((packedReads f (Bindings.ofForest f (some root))).length + 1)
        (packedReads f (Bindings.ofForest f (some root)))).run f = (replaced, f₁) ∧
      (replaced = [] ∧ f₂ = f₁ ∨ replaced ≠ [] ∧
        f₂ = ((Edit.changeAll (removeUnreadArray (Bindings.ofForest f₁ (some root)))
          (readArrays (packedReads f (Bindings.ofForest f (some root))) replaced)).run f₁).2) ∧
      (Edit.changeAll callByName (f₂.preorder (some root))).run f₂ = (named, g) ∧
      changed = (!replaced.isEmpty || named) := by
  rcases run_bind_eq_ok.mp hrun with ⟨b, f', hbind, hrest⟩
  obtain ⟨rfl, rfl, hwhole⟩ := run_bind_tree hbind
  refine ⟨hwhole, ?_⟩
  rw [run_bind_ok (run_get f')] at hrest
  rcases run_bind_eq_ok.mp hrest with ⟨replaced, f₁, hreplace, hrest⟩
  rw [run_lift] at hreplace
  obtain ⟨hreplaced, hf₁⟩ := Prod.mk.inj hreplace
  have hreads : (replaceReads ((packedReads f' (Bindings.ofForest f' (some root))).length + 1)
      (packedReads f' (Bindings.ofForest f' (some root)))).run f' = (replaced, f₁) :=
    Prod.ext (Except.ok.inj hreplaced) hf₁
  cases replaced with
  | nil =>
      change (get >>= _ : Rewrite Bool).run.run f₁ = _ at hrest
      rw [run_bind_ok (run_get f₁), run_bind_ok (run_lift _ _)] at hrest
      obtain ⟨hanswer, hg⟩ := Prod.mk.inj hrest
      exact ⟨[], _, f₁, f₁, hreads, .inl ⟨rfl, rfl⟩, Prod.ext rfl hg,
        (Except.ok.inj hanswer).symm⟩
  | cons declaration replaced =>
      change (Rewrite.bind (some root) >>= _ : Rewrite Bool).run.run _ = _ at hrest
      rcases run_bind_eq_ok.mp hrest with ⟨rebound, f₂, hrebind, hremovals⟩
      obtain ⟨rfl, rfl, -⟩ := run_bind_tree hrebind
      rcases run_bind_eq_ok.mp hremovals with ⟨_, f₃, hremove, hmethods⟩
      rw [run_lift] at hremove
      rw [run_bind_ok (run_get f₃), run_bind_ok (run_lift _ _)] at hmethods
      obtain ⟨hanswer, hg⟩ := Prod.mk.inj hmethods
      exact ⟨_, _, f₂, f₃, hreads, .inr ⟨by simp, (Prod.mk.inj hremove).2.symm⟩,
        Prod.ext rfl hg, (Except.ok.inj hanswer).symm⟩

theorem unpackArrays_unchanged (hf : f.HasProgram root)
    (hrun : (unpackArrays (some root)).run.run f = (.ok false, g)) : g = f := by
  rcases unpackArrays_cases hrun with
    ⟨-, replaced, named, f₁, f₂, hreplace, hremove, hmethods, hanswer⟩
  obtain ⟨hreplaced, hnamed⟩ := Bool.or_eq_false_iff.mp hanswer.symm
  have hnone : replaced = [] := by simpa using hreplaced
  rcases hremove with ⟨_, rfl⟩ | ⟨hsome, _⟩
  · have hreads := run_replaceReads hf.wellFormed
      (fun read hread => (present_of_packedReads hf hread).replaceable hf)
      ((congrArg Prod.fst hreplace).trans hnone)
    obtain rfl : f₂ = f := (congrArg Prod.snd hreplace).symm.trans hreads
    have hsame : Edit.Reports id (Edit.changeAll callByName (f₂.preorder (some root))) f₂ :=
      Edit.reports_changeAll_id fun i _ => reports_callByName hf.wellFormed i
    rw [Edit.Reports, hmethods] at hsame
    exact hsame hnamed
  · exact absurd hnone hsome

end Rewrite
end Untangle
