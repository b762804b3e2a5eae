import Untangle.Proofs.Grammar.LayeredPrograms
import Untangle.Proofs.Printing.Spelling
import Untangle.Proofs.Rewrite.ArrayReads
import Untangle.Proofs.Rewrite.DeadBranches
import Untangle.Proofs.Rewrite.InliningRounds
import Untangle.Proofs.Rewrite.ProxyCalls
import Untangle.Rewrite.Pass

/-!
# Passes that report no change

In a program every change that is attempted succeeds, so that a pass that reports no change has
not touched the forest. Only the pass that decodes strings drops what it does not count: the text
of a literal that is written just as it prints between double quotes.
-/

namespace Untangle

open Forest

variable {f g : Forest} {i p root : NodeId} {b : Bindings}

namespace Rewrite

/-!
## Strings
-/

theorem spelled_setNode {n m : Node Slot} {quotes : Text.QuoteStyle}
    (hn : f.node? (some i) = some n) (h : m.spelled quotes = n.spelled quotes) :
    (f.setNode i m).spelled quotes = f.spelled quotes := by
  rw [spelled, spelled, setNode]
  congr 1
  apply Array.ext_getElem?
  intro j
  rw [Array.getElem?_map, Array.getElem?_map, Array.getElem?_modify]
  split
  · rename_i heq
    subst heq
    rcases Option.map_eq_some_iff.mp hn with ⟨c, hc, rfl⟩
    rw [← cell?_some, hc]
    simp [Cell.spelled, h]
  · rfl

/-- A literal that is not counted has the text that it prints as. -/
theorem reports_decodeString (i : NodeId) (f : Forest) :
    Edit.Reports (Forest.spelled · .double) (decodeString i) f := by
  apply Edit.reports_look
  split
  · rename_i value raw hn
    intro hno
    have hraw : raw = Text.quoted .double value := by
      have hsame : (raw != Text.quoted .double value) = false := hno
      simpa using hsame
    apply spelled_setNode hn
    rw [hraw]
    rfl
  · exact Edit.reports_false

theorem spelled_decodeStrings {root : Slot}
    (hrun : (decodeStrings root).run.run f = (.ok false, g)) :
    g.spelled .double = f.spelled .double := by
  rcases run_bind_eq_ok.mp hrun with ⟨_, f', hrequire, hrest⟩
  obtain rfl := run_requireNode hrequire
  rw [run_bind_ok (run_get f'), run_lift] at hrest
  obtain ⟨hanswer, rfl⟩ := Prod.mk.inj hrest
  have hreports : Edit.Reports (Forest.spelled · .double)
      (Edit.changeAll decodeString (f'.preorder root)) f' := by
    apply Edit.reports_changeAll
    intro i _ h _
    exact reports_decodeString i h
  exact hreports (Except.ok.inj hanswer)

/-!
## Constants
-/

theorem reports_normalizeNumber (i : NodeId) : Edit.Reports id (normalizeNumber i) f := by
  apply Edit.reports_look
  split
  · split
    · exact Edit.reports_of_true rfl
    · exact Edit.reports_false
  · exact Edit.reports_false

/-- A numeral may take the place of a node, with a sign in front of it or without one. -/
theorem replace_addNumber (hf : f.WellFormed) (hlink : f.Link i p) (x : Float) :
    ∃ g, (f.addNumber x).2.replace (some i) (some (f.addNumber x).1) = (g, true) := by
  unfold addNumber
  split
  · have hoperand : f.Adoptable (.number (-x) none) := adoptable_of_leaf rfl rfl
    have hchild : ∀ c ∈ childrenOf (.unary .before (.mark .minus) (some f.size)),
        c = f.size := by
      simp [childrenOf, Node.slots]
    have hsign : (f.addNew (.number (-x) none)).2.Adoptable
        (.unary .before (.mark .minus) (some f.size)) := by
      constructor
      · intro c hc
        rw [hchild c hc]
        exact free_add_self hoperand
      · exact List.nodup_singleton f.size
      · intro entries hentries
        cases hentries
    have hlink' : (f.addNew (.number (-x) none)).2.Link i p :=
      (link_add hoperand).mpr (.inl hlink)
    have hbelow : ¬ (f.addNew (.number (-x) none)).2.Within i f.size := by
      intro hpath
      rcases within_add_self hf hoperand hpath with rfl | ⟨_, hnone, _⟩
      · exact Nat.lt_irrefl _ (lt_size_of_parent hlink)
      · cases hnone
    rcases replace_of_adoptable (wellFormed_add hf hoperand) hlink' hsign
      (fun c hc => hchild c hc ▸ hbelow) with ⟨g, hg, _⟩
    exact ⟨g, hg⟩
  · rcases replace_of_leaf hf hlink (.number x none) rfl rfl with ⟨g, hg, _⟩
    exact ⟨g, hg⟩

/-- A literal may take the place of any node. -/
theorem supplies_addLiteral? (hf : f.WellFormed) (hlink : f.Link i p) (v : Value) :
    Edit.Supplies (Edit.addLiteral? v) i f := by
  have hleaf : ∀ n : Node Slot, n.slots = [] → n.entries? = none →
      Edit.Supplies (some <$> modifyGet fun f => f.addNew n) i f := by
    intro n hslots hentries
    rcases replace_of_leaf hf hlink n hslots hentries with ⟨g, hg, _⟩
    exact .inr ⟨_, _, g, rfl, hg⟩
  unfold Edit.addLiteral?
  split
  · cases v with
    | undefined => exact .inl rfl
    | null => exact hleaf (.bare .null) rfl rfl
    | boolean value => exact hleaf (.boolean value) rfl rfl
    | string value => exact hleaf (.string value none false) rfl rfl
    | number x =>
        rcases replace_addNumber hf hlink x with ⟨g, hg⟩
        exact .inr ⟨_, _, g, rfl, hg⟩
  · exact .inl rfl

theorem reports_foldOperation (hf : f.WellFormed)
    (hlink : f.satisfies (some i) isOperation = true → ∃ p, f.Link i p) :
    Edit.Reports id (foldOperation b i) f := by
  apply Edit.reports_look
  split
  · exact Edit.reports_false
  · rename_i value hvalue
    have hoperation : f.satisfies (some i) isOperation = true := by
      unfold operationValue? at hvalue
      split at hvalue
      · assumption
      · cases hvalue
    rcases hlink hoperation with ⟨p, hp⟩
    rcases supplies_addLiteral? hf hp value with hnone | ⟨j, f', g, hj, hg⟩
    · intro _
      rw [Edit.run_bind, hnone]
      rfl
    · apply Edit.reports_of_true
      rw [Edit.run_bind, hj]
      exact congrArg Prod.snd hg

/-- The root is the program, which is no operation. -/
theorem reports_foldWithin (hf : f.HasProgram root) (fuel : Nat) (hi : f.Within i root) :
    Edit.Reports id (foldWithin b fuel i) f := by
  induction fuel generalizing i with
  | zero => exact Edit.reports_false
  | succ fuel ih =>
      apply Edit.reports_bind_ite
      · apply reports_foldOperation hf.wellFormed
        intro hoperation
        rcases (Option.any_eq_true_iff_get _ _).mp hoperation with ⟨hsome, hoperation⟩
        apply hf.exists_link hi (Option.some_get hsome).symm
        intro statements hn
        rw [hn] at hoperation
        cases hoperation
      · intro g _
        rfl
      · rintro _ rfl
        apply Edit.reports_look
        apply Edit.reports_changeAll_id
        intro c hc
        exact ih (.head (hf.wellFormed.linked.mpr hc) hi)

theorem simplifyExpressions_unchanged (hf : f.HasProgram root)
    (hrun : (simplifyExpressions (some root)).run.run f = (.ok false, g)) : g = f := by
  rcases run_bind_eq_ok.mp hrun with ⟨b, f', hbind, hrest⟩
  obtain ⟨rfl, -, -⟩ := run_bind_tree hbind
  rw [run_bind_ok (run_get f'), run_bind_ok (run_lift _ _), run_bind_ok (run_get _),
    run_bind_ok (run_lift _ _)] at hrest
  obtain ⟨hanswer, hforest⟩ := Prod.mk.inj hrest
  obtain ⟨hnormalized, hfolded⟩ := Bool.or_eq_false_iff.mp (Except.ok.inj hanswer)
  have hnumbers : ((Edit.changeAll normalizeNumber (f'.preorder (some root))).run f').2 = f' :=
    Edit.reports_changeAll_id (fun i _ => reports_normalizeNumber i) hnormalized
  rw [hnumbers] at hfolded hforest
  have hoperations : Edit.Reports id
      (Edit.changeAll (foldWithin b f'.size) (some root).toList) f' := by
    apply Edit.reports_changeAll_id
    intro i hi
    obtain rfl := Option.some.inj (Option.mem_toList.mp hi)
    exact reports_foldWithin hf _ .refl
  exact hforest.symm.trans (hoperations hfolded)

/-!
## Proxies
-/

theorem reports_inlineProxyCall {proxies : Array (Option ElementProxy)} (hf : f.HasProgram root)
    (i : NodeId) : Edit.Reports id (inlineProxyCall b proxies (some root) i) f := by
  apply Edit.reports_look
  split
  · rename_i element hselected
    rcases call_of_selectedByCall? hselected with ⟨hwithin, _, _, _, _, _, _, hn, _⟩
    rcases hf.exists_link hwithin hn nofun with ⟨p, hp⟩
    exact Edit.reports_replaceBy (Edit.supplies_copy hf.wellFormed hp element)
  · exact Edit.reports_false

theorem removeProxyFunctions_unchanged (hf : f.HasProgram root)
    (hrun : (removeProxyFunctions (some root)).run.run f = (.ok false, g)) : g = f := by
  rcases run_bind_eq_ok.mp hrun with ⟨b, f', hbind, hrest⟩
  obtain ⟨rfl, -, -⟩ := run_bind_tree hbind
  rw [run_bind_ok (run_get f')] at hrest
  dsimp only at hrest
  rw [run_lift] at hrest
  obtain ⟨hanswer, hforest⟩ := Prod.mk.inj hrest
  exact hforest.symm.trans
    (Edit.reports_changeAll_id (fun i _ => reports_inlineProxyCall hf i) (Except.ok.inj hanswer))

/-- No function is removed unless a call was replaced. -/
theorem inlineStatementProxies_unchanged (hf : f.HasProgram root) (hlayered : f.LayeredBelow root)
    (hrun : (inlineStatementProxies (some root)).run.run f = (.ok false, g)) : g = f := by
  rcases run_bind_eq_ok.mp hrun with ⟨inlined, s, hrounds, hrest⟩
  have hsame := (inlines_rounds hf hlayered hrounds).2.same
  cases inlined with
  | nil =>
      obtain ⟨_, rfl⟩ := Prod.mk.inj hrest
      exact hsame rfl
  | cons inlining inlined =>
      rcases run_bind_eq_ok.mp hrest with ⟨b, s', _, hremovals⟩
      rcases run_bind_eq_ok.mp hremovals with ⟨_, g', _, hdone⟩
      cases Except.ok.inj (Prod.mk.inj hdone).1

end Rewrite

/-!
## Passes
-/

namespace PassKind

open Rewrite

/-- Every pass but the one that decodes strings leaves the forest as it was if it reports no
change. -/
theorem rewrite_unchanged {k : PassKind} (hk : k ≠ .strings) (hf : f.HasProgram root)
    (hlayered : f.LayeredBelow root)
    (hrun : (k.rewrite (some root)).apply f = (.ok false, g)) : g = f := by
  cases k with
  | proxyFunctions => exact removeProxyFunctions_unchanged hf hrun
  | stringProxies => exact inlineStatementProxies_unchanged hf hlayered hrun
  | strings => exact absurd rfl hk
  | expressions => exact simplifyExpressions_unchanged hf hrun
  | arrays => exact unpackArrays_unchanged hf hrun
  | deadCode => exact removeDeadCode_unchanged hf hrun

/-- A pass that reports no change leaves the text of the program as it was. Decoded strings lose
the text of the source, and may then be printed between other quotes than the source had. -/
theorem print_unchanged {source : String} {program : Program} {k : PassKind} {style : Style}
    (hparse : Program.parse source = .ok program)
    (hrun : (k.rewrite (some program.root)).apply program.forest = (.ok false, g))
    (hquotes : k = .strings → style.quotes = .double) :
    g.print style (some program.root) = program.print style := by
  by_cases hk : k = .strings
  · subst hk
    apply print_eq_of_spelled
    rw [hquotes rfl]
    exact spelled_decodeStrings hrun
  · have hf := Program.hasProgram_parse hparse
    have hlayered := (Program.layered_parse hparse).below program.root
    rw [rewrite_unchanged hk hf hlayered hrun]
    rfl

theorem apply_of_answer {k : PassKind} {s : Slot} {changed : Bool}
    (h : ((k.rewrite s).apply f).1.toOption = some changed) :
    (k.rewrite s).apply f = (.ok changed, ((k.rewrite s).apply f).2) := by
  rcases hrun : (k.rewrite s).apply f with ⟨answer, g⟩
  rw [hrun] at h
  cases answer with
  | error e => cases h
  | ok answer =>
      obtain rfl := Option.some.inj h
      rfl

/-- The literal is written as it prints between double quotes. -/
theorem print_unchanged_canonical :
    ∃ program g, Program.parse "f(\"x\");" = .ok program ∧
      (strings.rewrite (some program.root)).apply program.forest = (.ok false, g) ∧
      g.print ⟨2, .double⟩ (some program.root) = program.print ⟨2, .double⟩ := by
  have hfacts : ∃ p ∈ (Program.parse "f(\"x\");").toOption,
      ((strings.rewrite (some p.root)).apply p.forest).1.toOption = some false := by
    decide +kernel
  rcases hfacts with ⟨p, hp, hanswer⟩
  have hparse := Program.parse_of_mem_toOption hp
  have hrun := apply_of_answer hanswer
  exact ⟨p, _, hparse, hrun, print_unchanged hparse hrun fun _ => rfl⟩

/-- Between single quotes the literal prints differently, although no change is reported. -/
theorem exists_print_ne_single :
    ∃ program g, Program.parse "f(\"x\");" = .ok program ∧
      (strings.rewrite (some program.root)).apply program.forest = (.ok false, g) ∧
      g.print ⟨2, .single⟩ (some program.root) ≠ program.print ⟨2, .single⟩ := by
  have hfacts : ∃ p ∈ (Program.parse "f(\"x\");").toOption,
      ((strings.rewrite (some p.root)).apply p.forest).1.toOption = some false ∧
        ((strings.rewrite (some p.root)).apply p.forest).2.print ⟨2, .single⟩ (some p.root) ≠
          p.print ⟨2, .single⟩ := by
    decide +kernel
  rcases hfacts with ⟨p, hp, hanswer, hprint⟩
  exact ⟨p, _, Program.parse_of_mem_toOption hp, apply_of_answer hanswer, hprint⟩

end PassKind
end Untangle
