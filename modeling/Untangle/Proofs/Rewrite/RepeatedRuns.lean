import Untangle.Proofs.Rewrite.Narrowing
import Untangle.Proofs.Rewrite.Unchanged

/-!
# Repeated runs

The rounds of the pass that inlines calls end when one of them finds no call to replace. A second
run on the tree that they leave then begins with such a round, so that it reports no change. What
the first run does after its rounds is to remove functions, and this may bring a call into the
clear.

Reading packed arrays takes accesses to elements out of a program, and following element proxies
takes calls out of it; neither pass makes any. Each run that reports a change takes at least one
of them away. A pass that is run again and again thus comes to a run that reports no change.
-/

namespace Untangle
namespace Rewrite

open Forest Bindings StatementProxy

variable {f g : Forest} {root : NodeId} {inlined : List Inlining}

end Rewrite
end Untangle

namespace Untangle

namespace Node

variable {α : Type}

def isElementAccess : Node α → Bool
  | .access .element _ _ _ _ => true
  | _ => false

def isCall : Node α → Bool
  | .call .call _ _ _ _ => true
  | _ => false

theorem isElementAccess_kind (n : Node α) : n.kind.isElementAccess = n.isElementAccess := by
  cases n with
  | access form => cases form <;> rfl
  | bare form | guarded form => cases form <;> rfl
  | _ => rfl

theorem isCall_kind (n : Node α) : n.kind.isCall = n.isCall := by
  cases n with
  | call form => cases form <;> rfl
  | bare form | guarded form => cases form <;> rfl
  | _ => rfl

theorem consumable_isElementAccess : Consumable isElementAccess := by
  constructor
  · exact ofKind_of_kind isElementAccess_kind
  · intro n h
    cases n with
    | access => cases h
    | _ => rfl
  · rfl
  · intro statements
    rfl

theorem consumable_isCall : Consumable isCall := by
  constructor
  · exact ofKind_of_kind isCall_kind
  · intro n h
    cases n with
    | call => cases h
    | _ => rfl
  · rfl
  · intro statements
    rfl

theorem isLiteral_of_isStringOrNumber {n : Node α} (h : n.isStringOrNumber = true) :
    n.isLiteral = true := by
  cases n with
  | string | number => rfl
  | _ => cases h

end Node

open Forest

variable {f g h : Forest} {i root : NodeId} {b : Bindings}

/-!
## Reads of packed arrays
-/

/-- What is read from the array is a literal. -/
def PackedRead.Literal (f : Forest) (read : PackedRead) : Prop :=
  ∀ s ∈ read.array.elements, f.satisfies s Node.isLiteral = true

theorem PackedRead.Literal.kept {read : PackedRead} (hfg : KeepsKinds f g)
    (h : read.Literal f) : read.Literal g := by
  intro s hs
  have hliteral := h s hs
  cases s with
  | none => cases hliteral
  | some e =>
      rcases (Option.any_eq_true _ _).mp hliteral with ⟨n, hn, _⟩
      rw [hfg.satisfies Node.ofKind_isLiteral (lt_size_of_node? hn)]
      exact hliteral

namespace Rewrite

theorem literal_of_packedReads {read : PackedRead} (hread : read ∈ packedReads f b) :
    read.Literal f := by
  rcases mem_packedReads.mp hread with ⟨_, _, _, hpacked, _⟩
  intro s hs
  have haccepted := (Binding.packedElements?_eq_some_iff.mp hpacked).1.accepted s hs
  rcases (Option.any_eq_true _ _).mp haccepted with ⟨n, hn, hvalue⟩
  exact (Option.any_eq_true _ _).mpr ⟨n, hn, Node.isLiteral_of_isStringOrNumber hvalue⟩

section Reads

variable {q : Node Slot → Bool} {read : PackedRead} {reads : List PackedRead}

theorem narrows_replaceRead (hq : Node.Consumable q) (hf : f.HasProgram root)
    (hliteral : read.Literal f) :
    Narrows q root f ((replaceRead read).run f).2 := by
  rcases replaceRead_cases read f with
    ⟨outcome, _, hrun⟩ | ⟨a, _, _, _, _, _, hn, element, helement, done, g, hreplace, hrun⟩
  · rw [hrun]
    exact .refl hf
  · have hnarrows := narrows_replace_copy hq hf (hliteral element helement) (lt_size_of_node? hn)
    have hg := congrArg Prod.snd hreplace
    rw [hrun]
    exact hg ▸ hnarrows.1

/-- A read that is replaced takes its access out of the program. -/
theorem loses_replaceRead (hf : f.HasProgram root)
    (hliteral : read.Literal f) (hpresent : read.Present f root)
    (hreplaced : ((replaceRead read).run f).1 = .replaced) :
    Loses Node.isElementAccess root f ((replaceRead read).run f).2 := by
  rcases replaceRead_cases read f with
    ⟨outcome, hne, hrun⟩ | ⟨a, _, _, _, _, hlink, hn, element, helement, done, g, hreplace, hrun⟩
  · rw [hrun] at hreplaced
    exact absurd hreplaced hne
  · have hgone := (narrows_replace_copy Node.consumable_isElementAccess hf
      (hliteral element helement) (lt_size_of_node? hn)).2
    have hdone := congrArg Prod.fst hreplace
    have hg := congrArg Prod.snd hreplace
    rw [hrun] at hreplaced ⊢
    cases done with
    | false => cases hreplaced
    | true =>
        apply Exists.intro a
        constructor
        · exact hpresent a hlink
        · constructor
          · rw [satisfies, hn]
            rfl
          · exact hg ▸ hgone hdone

theorem narrows_replaceReadsOnce (hq : Node.Consumable q) (hf : f.HasProgram root)
    (hliteral : ∀ read ∈ reads, read.Literal f) :
    Narrows q root f ((replaceReadsOnce reads).run f).2 := by
  induction reads generalizing f with
  | nil => exact .refl hf
  | cons read rest ih =>
      rw [List.forall_mem_cons] at hliteral
      have hfirst := narrows_replaceRead hq hf hliteral.1
      have hrest := ih hfirst.program fun read hread =>
        (hliteral.2 read hread).kept hfirst.kinds
      rw [replaceReadsOnce, Edit.run_bind, Edit.run_bind]
      dsimp only
      split
      all_goals exact hfirst.trans hq hrest

theorem loses_replaceReadsOnce (hf : f.HasProgram root)
    (hliteral : ∀ read ∈ reads, read.Literal f)
    (hpresent : ∀ read ∈ reads, read.Present f root)
    (hsome : ((replaceReadsOnce reads).run f).1.2 ≠ []) :
    Loses Node.isElementAccess root f ((replaceReadsOnce reads).run f).2 := by
  induction reads with
  | nil => exact absurd rfl hsome
  | cons read rest ih =>
      rw [List.forall_mem_cons] at hliteral hpresent
      have hnarrows := narrows_replaceRead Node.consumable_isElementAccess hf hliteral.1
      have hloses := loses_replaceRead hf hliteral.1 hpresent.1
      have hskipped := run_replaceRead hf.wellFormed (hpresent.1.replaceable hf)
      have hrest := narrows_replaceReadsOnce Node.consumable_isElementAccess hnarrows.program
        fun read hread => (hliteral.2 read hread).kept hnarrows.kinds
      rw [replaceReadsOnce, Edit.run_bind, Edit.run_bind] at hsome ⊢
      generalize (replaceRead read).run f = first at hsome hnarrows hloses hskipped hrest ⊢
      rcases first with ⟨outcome, g⟩
      cases outcome with
      | replaced => exact (hloses rfl).narrows hf hnarrows hrest
      | waiting | skipped =>
          obtain rfl : g = f := hskipped (by simp)
          exact ih hliteral.2 hpresent.2 hsome

theorem narrows_replaceReads (fuel : Nat) (hq : Node.Consumable q) (hf : f.HasProgram root)
    (hliteral : ∀ read ∈ reads, read.Literal f) :
    Narrows q root f ((replaceReads fuel reads).run f).2 := by
  induction fuel generalizing f reads with
  | zero => exact .refl hf
  | succ fuel ih =>
      have honce := narrows_replaceReadsOnce hq hf hliteral
      have hrest := ih honce.program fun read hread =>
        (hliteral read (waiting_subset reads f hread)).kept honce.kinds
      rw [replaceReads, Edit.run_bind]
      dsimp only
      split
      · exact honce
      · exact honce.trans hq hrest

theorem loses_replaceReads (fuel : Nat) (hf : f.HasProgram root)
    (hliteral : ∀ read ∈ reads, read.Literal f)
    (hpresent : ∀ read ∈ reads, read.Present f root)
    (hsome : ((replaceReads fuel reads).run f).1 ≠ []) :
    Loses Node.isElementAccess root f ((replaceReads fuel reads).run f).2 := by
  induction fuel generalizing reads with
  | zero => exact absurd rfl hsome
  | succ fuel ih =>
      have hwaiting := waiting_subset reads f
      have hnarrows := narrows_replaceReadsOnce Node.consumable_isElementAccess hf hliteral
      have hloses := loses_replaceReadsOnce hf hliteral hpresent
      have hsame := run_replaceReadsOnce hf.wellFormed fun read hread =>
        (hpresent read hread).replaceable hf
      have hrest := narrows_replaceReads fuel Node.consumable_isElementAccess
        hnarrows.program fun read hread => (hliteral read (hwaiting hread)).kept hnarrows.kinds
      rw [replaceReads, Edit.run_bind] at hsome ⊢
      generalize (replaceReadsOnce reads).run f = first
        at hsome hwaiting hnarrows hloses hsame hrest ⊢
      rcases first with ⟨⟨waiting, replaced⟩, g⟩
      dsimp only at hsome hwaiting hnarrows hloses hsame hrest ⊢
      by_cases hdone : (waiting.length = reads.length || waiting.isEmpty) = true
      · rw [if_pos hdone] at hsome ⊢
        exact hloses hsome
      · rw [if_neg hdone] at hsome ⊢
        by_cases hnone : replaced = []
        · obtain rfl := hsame hnone
          subst hnone
          exact ih (fun read hmem => hliteral read (hwaiting hmem))
            (fun read hmem => hpresent read (hwaiting hmem)) hsome
        · exact (hloses hnone).narrows hf hnarrows hrest

end Reads

/-!
## Methods
-/

section NamedAccess

variable {o p : NodeId} {name : String} {isOptional inChain : Bool}

theorem node?_namedAccess :
    (addNamedAccess f o name isOptional inChain).2.node?
      (some (addNamedAccess f o name isOptional inChain).1) =
        some (.access .property (some o) (some f.size) isOptional inChain) :=
  node?_add_self

theorem node?_namedAccess_name :
    (addNamedAccess f o name isOptional inChain).2.node? (some f.size) =
      some (.name .identifier name) :=
  (node?_add_of_ne (Nat.ne_of_lt (size_lt_addIdentifier f name))).trans node?_add_self

theorem narrows_addNamedAccess (hf : f.HasProgram root) (ho : f.Free o) (hne : o ≠ root) :
    Narrows Node.isElementAccess root f (addNamedAccess f o name isOptional inChain).2 := by
  have hq := Node.consumable_isElementAccess
  have hname : Narrows Node.isElementAccess root f (f.addIdentifier name).2 :=
    narrows_add hf adoptable_identifier List.not_mem_nil
  apply hname.trans hq
  apply narrows_add hname.program (adoptable_namedAccess ho)
  intro hmem
  rcases List.mem_pair.mp hmem with rfl | rfl
  · exact hne rfl
  · exact Nat.lt_irrefl _ hf.lt_size

/-- The object comes back to where it was, and what is new is no access to an element. -/
theorem narrows_replace_namedAccess (hf : f.HasProgram root) (hlink : f.Link i p)
    (hobject : f.Link o i) (hx : Exchange f g i o [])
    (hg : f.detach (some o) = (g, true))
    (hh : (addNamedAccess g o name isOptional inChain).2.replace (some i)
        (some (addNamedAccess g o name isOptional inChain).1) = (h, true))
    (hx' : Exchange (addNamedAccess g o name isOptional inChain).2 h p i
      [(addNamedAccess g o name isOptional inChain).1]) :
    Narrows Node.isElementAccess root f h ∧ ¬ h.Within i root := by
  have hq := Node.consumable_isElementAccess
  have hwf := hf.wellFormed
  have hne : o ≠ root := by
    rintro rfl
    cases hf.parent.symm.trans hobject
  have hdetach : Narrows Node.isElementAccess root f g := by
    have hnarrows := narrows_detach hq hf (some o)
    rwa [hg] at hnarrows
  have hnarrows : Narrows Node.isElementAccess root f
      (addNamedAccess g o name isOptional inChain).2 :=
    hdetach.trans hq (narrows_addNamedAccess hdetach.program hx.free_detached hne)
  have hkinds := keepsKinds_replace (f := (addNamedAccess g o name isOptional inChain).2) (some i)
    (some (addNamedAccess g o name isOptional inChain).1)
  rw [hh] at hkinds
  have hsize := hx.size
  have hnew : f.size < (addNamedAccess g o name isOptional inChain).1 :=
    hsize ▸ size_lt_addIdentifier g name
  constructor
  · apply hnarrows.exchange hq hx' hkinds
    · rw [List.mem_singleton]
      exact Nat.ne_of_lt (Nat.lt_trans hf.lt_size hnew)
    · intro c hc x hp hbelow hlt
      obtain rfl := List.mem_singleton.mp hc
      rcases within_addNamedAccess hdetach.program.wellFormed hx.free_detached hbelow with
        rfl | rfl | hpath
      · exact absurd hlt (Nat.not_lt.mpr (Nat.le_of_lt hnew))
      · exact absurd hlt (Nat.not_lt.mpr (Nat.le_of_eq hsize.symm))
      · have hparent := hnarrows.old hp (hwf.lt_size_of_link hlink)
        exact (hx.within_detached hpath).trans (.head hobject (.head hlink hparent))
    · intro c hc x hbelow hle
      obtain rfl := List.mem_singleton.mp hc
      rcases within_addNamedAccess hdetach.program.wellFormed hx.free_detached hbelow with
        rfl | rfl | hpath
      · rw [satisfies, node?_namedAccess]
        rfl
      · rw [satisfies, node?_namedAccess_name]
        rfl
      · have hlt := lt_size_of_within hpath hx.free_detached.1
        exact absurd (hsize ▸ hlt) (Nat.not_lt.mpr hle)
  · exact hx'.old_not_within hnarrows.program

end NamedAccess

theorem narrowing_callByName (i : NodeId) :
    Edit.Narrowing Node.isElementAccess root (callByName i) := by
  intro f hf
  rcases callByName_cases hf.wellFormed i with
    hrun | ⟨p, o, _, _, _, _, g, h, hlink, hn, hg, hx, hh, hx', hrun⟩
  · rw [hrun]
    exact .refl hf
  · rw [hrun]
    have hobject := hf.wellFormed.link_of_slot hn List.mem_cons_self
    exact (narrows_replace_namedAccess hf hlink hobject hx hg hh hx').1

theorem loses_callByName (hf : f.HasProgram root) (hi : f.Within i root)
    (hnamed : ((callByName i).run f).1 = true) :
    Loses Node.isElementAccess root f ((callByName i).run f).2 := by
  rcases callByName_cases hf.wellFormed i with
    hrun | ⟨p, o, _, _, _, _, g, h, hlink, hn, hg, hx, hh, hx', hrun⟩
  · rw [hrun] at hnamed
    cases hnamed
  · rw [hrun]
    have hobject := hf.wellFormed.link_of_slot hn List.mem_cons_self
    have hkind : f.satisfies (some i) Node.isElementAccess = true := by
      rw [satisfies, hn]
      rfl
    exact ⟨i, hi, hkind, (narrows_replace_namedAccess hf hlink hobject hx hg hh hx').2⟩

/-!
## Runs
-/

theorem narrowing_removeUnreadArray {q : Node Slot → Bool} (hq : Node.Consumable q)
    (declaration : NodeId) : Edit.Narrowing q root (removeUnreadArray b declaration) := by
  unfold removeUnreadArray
  dsimp only
  split
  · exact Edit.narrowing_removeDeclarator hq _
  · exact Edit.narrowing_pure false

/-- Reading packed arrays takes accesses to elements out of the program. -/
theorem narrows_unpackArrays {changed : Bool} (hf : f.HasProgram root)
    (hrun : (unpackArrays (some root)).run.run f = (.ok changed, g)) :
    Narrows Node.isElementAccess root f g ∧
      (changed = true → Loses Node.isElementAccess root f g) := by
  have hq := Node.consumable_isElementAccess
  rcases unpackArrays_cases hrun with
    ⟨-, replaced, named, f₁, f₂, hreplace, hremove, hmethods, hanswer⟩
  have hliteral : ∀ read ∈ packedReads f (Bindings.ofForest f (some root)), read.Literal f :=
    fun read hread => literal_of_packedReads hread
  have hpresent : ∀ read ∈ packedReads f (Bindings.ofForest f (some root)),
      read.Present f root := fun read hread => present_of_packedReads hf hread
  have hreads : Narrows Node.isElementAccess root f f₁ := by
    have hnarrows := narrows_replaceReads
      ((packedReads f (Bindings.ofForest f (some root))).length + 1) hq hf hliteral
    rwa [hreplace] at hnarrows
  have harrays : Narrows Node.isElementAccess root f₁ f₂ := by
    rcases hremove with ⟨_, rfl⟩ | ⟨_, rfl⟩
    · exact .refl hreads.program
    · apply Edit.narrowing_changeAll hq _ f₁ hreads.program
      intro declaration _
      exact narrowing_removeUnreadArray hq declaration
  have hmade : Narrows Node.isElementAccess root f₂ g := by
    have hsites : ∀ i ∈ f₂.preorder (some root),
        Edit.Narrowing Node.isElementAccess root (callByName i) :=
      fun i _ => narrowing_callByName i
    have hnarrows := Edit.narrowing_changeAll hq hsites f₂ harrays.program
    rwa [hmethods] at hnarrows
  constructor
  · exact (hreads.trans hq harrays).trans hq hmade
  · intro hchanged
    by_cases hnone : replaced = []
    · -- The methods are the only sites that are left.
      rcases hremove with ⟨_, rfl⟩ | ⟨hsome, _⟩
      · have hnamed : named = true := by
          rwa [hanswer, hnone] at hchanged
        apply hreads.loses hq
        have hf₂ := hreads.program
        have hsites : ∀ i ∈ f₂.preorder (some root), ((callByName i).run f₂).1 = true →
            Loses Node.isElementAccess root f₂ ((callByName i).run f₂).2 := fun i hi =>
          loses_callByName hf₂ ((hf₂.wellFormed.mem_preorder hf₂.lt_size).mp hi)
        have hloses := Edit.loses_changeAll hq hf₂ (fun i _ => narrowing_callByName i)
          (fun i _ => reports_callByName hf₂.wellFormed i) hsites
        rw [hmethods] at hloses
        exact hloses hnamed
      · exact absurd hnone hsome
    · have hloses := loses_replaceReads
        ((packedReads f (Bindings.ofForest f (some root))).length + 1) hf hliteral hpresent
      rw [hreplace] at hloses
      exact ((hloses hnone).narrows hf hreads harrays).narrows hf (hreads.trans hq harrays) hmade

/-!
## Element proxies
-/

variable {proxies : Array (Option ElementProxy)}

theorem literal_of_selects {proxy : ElementProxy} {args : List Slot} {element : Slot}
    (h : proxy.Selects b f args element) : f.satisfies element Node.isLiteral = true := by
  rcases h.selected with ⟨_, _, elements, _, _, _, _, hpacked, _, _, helement⟩
  exact (Binding.packedElements?_eq_some_iff.mp hpacked).1.accepted element
    (List.mem_of_getElem? helement)

/-- A call is left alone, or it goes out of the program for a literal. -/
theorem inlineProxyCall_narrows (hf : f.HasProgram root) (i : NodeId) :
    Narrows Node.isCall root f ((inlineProxyCall b proxies (some root) i).run f).2 ∧
      (((inlineProxyCall b proxies (some root) i).run f).1 = true →
        Loses Node.isCall root f ((inlineProxyCall b proxies (some root) i).run f).2) := by
  cases hselected : selectedByCall? b proxies (some root) i f with
  | none =>
      rw [run_inlineProxyCall_none hselected]
      constructor
      · exact .refl hf
      · intro hno
        cases hno
  | some element =>
      rcases call_of_selectedByCall? hselected with
        ⟨hwithin, _, _, _, _, _, proxy, hn, _, _, hselects⟩
      rcases narrows_replace_copy Node.consumable_isCall hf (literal_of_selects hselects)
        (lt_size_of_node? hn) with ⟨hnarrows, hgone⟩
      have hkind : f.satisfies (some i) Node.isCall = true := by
        rw [satisfies, hn]
        rfl
      rw [inlineProxyCall, Edit.run_look_bind, hselected]
      constructor
      · exact hnarrows
      · intro hdone
        exact ⟨i, hwithin, hkind, hgone hdone⟩

/-- Following element proxies takes calls out of the program. -/
theorem narrows_removeProxyFunctions {changed : Bool} (hf : f.HasProgram root)
    (hrun : (removeProxyFunctions (some root)).run.run f = (.ok changed, g)) :
    Narrows Node.isCall root f g ∧ (changed = true → Loses Node.isCall root f g) := by
  have hq := Node.consumable_isCall
  rcases run_bind_eq_ok.mp hrun with ⟨b, f', hbind, hrest⟩
  obtain ⟨rfl, -, -⟩ := run_bind_tree hbind
  rw [run_bind_ok (run_get f')] at hrest
  dsimp only at hrest
  rw [run_lift] at hrest
  obtain ⟨hanswer, rfl⟩ := Prod.mk.inj hrest
  have hsites : ∀ i, Edit.Narrowing Node.isCall root
      (inlineProxyCall b (b.bindings.map (ElementProxy.ofBinding? f')) (some root) i) :=
    fun i _ hf => (inlineProxyCall_narrows hf i).1
  constructor
  · exact Edit.narrowing_changeAll hq (fun i _ => hsites i) f' hf
  · intro hchanged
    exact Edit.loses_changeAll hq hf (fun i _ => hsites i)
      (fun i _ => reports_inlineProxyCall hf i) (fun i _ => (inlineProxyCall_narrows hf i).2)
      ((Except.ok.inj hanswer).trans hchanged)

end Rewrite

namespace PassKind

/-!
## Repeated runs
-/

variable {k : PassKind} {q : Node Slot → Bool} {n : Nat}

/-- The nodes that a pass takes out of the program whenever it changes it. -/
def consumed? : PassKind → Option (Node Slot → Bool)
  | .arrays => some Node.isElementAccess
  | .proxyFunctions => some Node.isCall
  | _ => none

theorem consumable_of_consumed? (hk : k.consumed? = some q) : Node.Consumable q := by
  cases k with
  | arrays =>
      obtain rfl := Option.some.inj hk
      exact Node.consumable_isElementAccess
  | proxyFunctions =>
      obtain rfl := Option.some.inj hk
      exact Node.consumable_isCall
  | _ => cases hk

theorem narrows_rewrite {changed : Bool} (hk : k.consumed? = some q) (hf : f.HasProgram root)
    (hrun : (k.rewrite (some root)).apply f = (.ok changed, g)) :
    Narrows q root f g ∧ (changed = true → Loses q root f g) := by
  cases k with
  | arrays =>
      obtain rfl := Option.some.inj hk
      exact Rewrite.narrows_unpackArrays hf hrun
  | proxyFunctions =>
      obtain rfl := Option.some.inj hk
      exact Rewrite.narrows_removeProxyFunctions hf hrun
  | _ => cases hk

/-- So many runs in a row report a change. -/
inductive Changes (k : PassKind) (root : Slot) : Nat → Forest → Forest → Prop
  | none (f : Forest) : Changes k root 0 f f
  | next {f g h : Forest} {n : Nat} (hrun : (k.rewrite root).apply f = (.ok true, g))
      (hruns : Changes k root n g h) : Changes k root (n + 1) f h

theorem Changes.narrows (hk : k.consumed? = some q) (hf : f.HasProgram root)
    (hruns : k.Changes (some root) n f g) :
    Narrows q root f g ∧
      n + (nodesOf q g (some root)).length ≤ (nodesOf q f (some root)).length := by
  have hq := consumable_of_consumed? hk
  induction hruns with
  | none f =>
      constructor
      · exact .refl hf
      · rw [Nat.zero_add]
  | next hrun hruns ih =>
      rcases narrows_rewrite hk hf hrun with ⟨hfirst, hloses⟩
      rcases ih hfirst.program with ⟨hrest, hle⟩
      have hlt := (hloses rfl).length_lt hq hf hfirst
      constructor
      · exact hfirst.trans hq hrest
      · omega

theorem unchanged_of_consumed? (hk : k.consumed? = some q) (hf : f.HasProgram root)
    (hrun : (k.rewrite (some root)).apply f = (.ok false, g)) : g = f := by
  cases k with
  | arrays => exact Rewrite.unpackArrays_unchanged hf hrun
  | proxyFunctions => exact Rewrite.removeProxyFunctions_unchanged hf hrun
  | _ => cases hk

/-- Without declarations there are only methods to call by name. -/
theorem apply_arrays_of_no_declarations (hroot : f.contains (some root) = true)
    (hwhole : (Bindings.ofForest f (some root)).truncated = false)
    (hnone : (Bindings.declarations f root).bindings = #[]) :
    (arrays.rewrite (some root)).apply f =
      (.ok ((Edit.changeAll Rewrite.callByName (f.preorder (some root))).run f).1,
        ((Edit.changeAll Rewrite.callByName (f.preorder (some root))).run f).2) := by
  have hreads : Rewrite.packedReads f (Bindings.ofForest f (some root)) = [] := by
    rw [Rewrite.packedReads, Bindings.bindings_of_no_declarations hnone]
    rfl
  show (Rewrite.unpackArrays (some root)).run.run f = _
  rw [Rewrite.unpackArrays, Rewrite.run_bind_ok (Rewrite.run_bind_of_whole hroot hwhole),
    Rewrite.run_bind_ok (Rewrite.run_get f), hreads]
  rfl

/-- Each run that reports a change leaves fewer accesses to elements or calls, and a run that
reports none leaves the program as it is. After as many changes as the program had such nodes,
all further runs thus report no change and change nothing. -/
theorem changes_bounded {source : String} {p : Program} (hparse : Program.parse source = .ok p)
    (hk : k.consumed? = some q) (hruns : k.Changes (some p.root) n p.forest g) :
    n + (nodesOf q g (some p.root)).length ≤ (nodesOf q p.forest (some p.root)).length ∧
      ∀ changed h, (k.rewrite (some p.root)).apply g = (.ok changed, h) →
        (nodesOf q g (some p.root) = [] → changed = false) ∧ (changed = false → h = g) := by
  have hq := consumable_of_consumed? hk
  rcases hruns.narrows hk (Program.hasProgram_parse hparse) with ⟨hnarrows, hle⟩
  have hg := hnarrows.program
  constructor
  · exact hle
  · intro changed h hrun
    rcases narrows_rewrite hk hg hrun with ⟨hmore, hloses⟩
    constructor
    · intro hempty
      by_contra hchanged
      have hlt := (hloses (eq_true_of_ne_false hchanged)).length_lt hq hg hmore
      rw [hempty] at hlt
      exact absurd hlt (Nat.not_lt_zero _)
    · rintro rfl
      exact unchanged_of_consumed? hk hg hrun

/-- A method is called by its name, and then there is nothing left to do. -/
theorem changes_bounded_method :
    ∃ p g, Program.parse "f[\"x\"]();" = .ok p ∧
      arrays.consumed? = some Node.isElementAccess ∧ arrays.Changes (some p.root) 1 p.forest g ∧
      1 + (nodesOf Node.isElementAccess g (some p.root)).length ≤
        (nodesOf Node.isElementAccess p.forest (some p.root)).length ∧
      ∀ changed h, (arrays.rewrite (some p.root)).apply g = (.ok changed, h) →
        (nodesOf Node.isElementAccess g (some p.root) = [] → changed = false) ∧
          (changed = false → h = g) := by
  have hfacts : ∃ p ∈ (Program.parse "f[\"x\"]();").toOption,
      p.forest.contains (some p.root) = true ∧ (Bindings.outline p.forest p.root).Whole ∧
        .cut ∉ Bindings.route p.forest p.root ∧
        (Bindings.declarations p.forest p.root).bindings = #[] ∧
        ((Edit.changeAll Rewrite.callByName (p.forest.preorder (some p.root))).run
          p.forest).1 = true := by
    decide +kernel
  rcases hfacts with ⟨p, hp, hcontains, houtline, hcut, hnone, hnamed⟩
  have hparse := Program.parse_of_mem_toOption hp
  have hwhole := Bindings.truncated_ofForest.mpr ⟨houtline, hcut⟩
  have hrun := apply_arrays_of_no_declarations hcontains hwhole hnone
  rw [hnamed] at hrun
  have hruns : arrays.Changes (some p.root) 1 p.forest _ := .next hrun (.none _)
  exact ⟨p, _, hparse, rfl, hruns, changes_bounded hparse rfl hruns⟩

end PassKind
end Untangle
