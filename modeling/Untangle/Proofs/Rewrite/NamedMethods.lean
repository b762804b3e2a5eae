import Untangle.Proofs.Rewrite.UnpackedArrays
import Untangle.Proofs.Token.PlainNames

/-!
# Names of methods

A method that is called by a string is called by name instead when its name may follow a dot. The
call stays what it is, and the scanner reads the name back.
-/

namespace Untangle

open Forest Rewrite Text

variable {f : Forest} {i j : NodeId}

/-!
## Calls of methods
-/

/-- A call of a method, up to how the method is named. -/
structure MethodCall where
  object : NodeId
  arguments : List Slot
  isOptional : Bool
  inChain : Bool
  isOptionalAccess : Bool
  inChainAccess : Bool

/-- The call `m` is at `p`, its callee at `i` and the name of the method at `k`. -/
structure Forest.Calls (f : Forest) (m : MethodCall) (form : AccessForm) (p i k : NodeId) :
    Prop where
  call : f.node? (some p) = some (.call .call (some i) m.arguments m.isOptional m.inChain)
  callee : f.node? (some i) =
    some (.access form (some m.object) (some k) m.isOptionalAccess m.inChainAccess)

theorem Node.replaceFirst_callee (arguments : List Slot) (isOptional inChain : Bool) :
    (Node.replaceFirst (some i) (some j) (.call .call (some i) arguments isOptional inChain)).1 =
      .call .call (some j) arguments isOptional inChain := by
  apply eq_of_blank_of_slots
  · rw [blank_replaceFirst]
    simp [blank, map, mapM]
  · rw [slots_replaceFirst]
    exact List.replace_cons_self

namespace Rewrite

theorem isIdentifierName_of_namedMethod? {object : Slot} {name : String}
    {isOptional inChain : Bool}
    (h : namedMethod? f i = some (object, name, isOptional, inChain)) :
    isIdentifierName name = true := by
  unfold namedMethod? at h
  dsimp only at h
  split at h
  · split at h
    · split at h
      · rename_i hname
        cases h
        exact hname
      · cases h
    · cases h
  · cases h

/-- Without a method that is called by a string nothing is done. -/
theorem exists_namedMethod?_of_callByName (hnamed : ((callByName i).run f).1 = true) :
    ∃ o name isOptional inChain,
      namedMethod? f i = some (some o, name, isOptional, inChain) := by
  rw [callByName, Edit.run_look_bind] at hnamed
  cases hmethod : namedMethod? f i with
  | none =>
      rw [hmethod] at hnamed
      cases hnamed
  | some method =>
      obtain ⟨object, name, isOptional, inChain⟩ := method
      cases object with
      | none =>
          rw [hmethod] at hnamed
          cases hnamed
      | some o => exact ⟨o, name, isOptional, inChain, rfl⟩

/-- A method that is called by name was called by the same name as a string. -/
theorem exists_calls_of_callByName (hf : f.WellFormed)
    (hnamed : ((callByName i).run f).1 = true) :
    ∃ m p k new key name raw lone,
      f.Calls m .element p i k ∧ f.node? (some k) = some (.string name raw lone) ∧
        isIdentifierName name = true ∧
        ((callByName i).run f).2.Calls m .property p new key ∧
        ((callByName i).run f).2.node? (some key) = some (.name .identifier name) := by
  rcases exists_namedMethod?_of_callByName hnamed with ⟨o, name, isOptional, inChain, hmethod⟩
  rcases called_of_namedMethod? hmethod with
    ⟨⟨p, arguments, isOptional', inChain', hlink, hcaller⟩, k, raw, lone, haccess, hkey⟩
  rcases run_callByName hf hmethod with ⟨q, g, h, hlink', -, hx, hh, ⟨_, _, _, hr, -⟩, hrun⟩
  obtain rfl : p = q := Link.unique hlink hlink'
  have hpi : p ≠ i := by
    rintro rfl
    exact hf.not_within_of_link hlink .refl
  have hio : i ≠ o := by
    rintro rfl
    exact hf.not_within_of_link (hf.link_of_slot haccess List.mem_cons_self) .refl
  have hp : p < g.size := hx.size ▸ lt_size_of_node? hcaller
  have hnew : g.size < (addNamedAccess g o name isOptional inChain).1 :=
    size_lt_addIdentifier g name
  have hcaller' : (addNamedAccess g o name isOptional inChain).2.node? (some p) =
      some (.call .call (some i) arguments isOptional' inChain') := by
    rcases hx with ⟨_, _, _, hr, -⟩
    exact (node?_namedAccess_old hp).trans ((hr.node?_of_ne hpi).trans hcaller)
  have hlinked : (addNamedAccess g o name isOptional inChain).2.Link i p :=
    (link_namedAccess hx.free_detached).mpr (.inl (hx.link_detached.mpr ⟨hio, hlink⟩))
  have hcall := node?_replace hh hlinked hcaller'
  rw [Node.replaceFirst_callee] at hcall
  rw [hrun]
  refine ⟨⟨o, arguments, isOptional', inChain', isOptional, inChain⟩, p, k,
    (addNamedAccess g o name isOptional inChain).1, g.size, name, raw, lone,
    ⟨hcaller, haccess⟩, hkey, isIdentifierName_of_namedMethod? hmethod, ⟨hcall, ?_⟩, ?_⟩
  · exact (hr.node?_of_ne (Nat.ne_of_gt (hp.trans hnew))).trans node?_namedAccess
  · exact (hr.node?_of_ne (Nat.ne_of_gt hp)).trans node?_namedAccess_name

end Rewrite

/-!
## Names that are read back
-/

namespace Text

variable {name after : String}

/-- A name in front of the text ends before it. -/
def EndsName (after : String) : Prop :=
  ∀ ch ∈ after.toList.head?, isIdentifierPart ch = false ∧ ch ≠ '\\'

/-- In front of `after` the scanner reads `name` as an identifier or a keyword without escapes. -/
def ScansBack (name after : String) : Prop :=
  let t := (Scanner.ofString (name ++ after)).scan.token
  (t.kind = .identifier ∨ ∃ k, t.kind = .word k) ∧ t.escaped = false ∧ t.text = name ∧
    t.value = name

theorem isIdentifierName_iff_scansBack (h : EndsName after) :
    isIdentifierName name = true ↔ ScansBack name after := by
  have hends : ∀ ch ∈ after.toList.head?, continuesName ch = false := fun ch hch => by
    simp [continuesName, h ch hch]
  have hkind : ∀ kind : TokenKind,
      kind.isName = true ↔ kind = .identifier ∨ ∃ k, kind = .word k := fun kind => by
    cases kind <;> simp [TokenKind.isName, TokenKind.isKeyword]
  rw [Scanner.isIdentifierName_iff_scan hends, ScansBack]
  dsimp only
  rw [hkind]

end Text

namespace Rewrite

/-- The names that may follow a dot are those that the scanner reads back in front of any text that
ends them. So a method that is called by name instead of a string has the name it had. -/
theorem methodNames_scanBack :
    (∀ name after, EndsName after → (isIdentifierName name = true ↔ ScansBack name after)) ∧
    ∀ (f : Forest) (i : NodeId), f.WellFormed → ((callByName i).run f).1 = true →
      ∃ m p k new key name raw lone,
        f.Calls m .element p i k ∧ f.node? (some k) = some (.string name raw lone) ∧
          ((callByName i).run f).2.Calls m .property p new key ∧
          ((callByName i).run f).2.node? (some key) = some (.name .identifier name) ∧
          ∀ after, EndsName after → ScansBack name after := by
  refine ⟨fun name after => isIdentifierName_iff_scansBack, fun f i hf hnamed => ?_⟩
  rcases exists_calls_of_callByName hf hnamed with
    ⟨m, p, k, new, key, name, raw, lone, hbefore, hkey, hname, hafter, hkey'⟩
  exact ⟨m, p, k, new, key, name, raw, lone, hbefore, hkey, hafter, hkey',
    fun after hends => (isIdentifierName_iff_scansBack hends).mp hname⟩

theorem methodNames_scanBack_default :
    EndsName "(1)" ∧ ScansBack "default" "(1)" ∧
      ∃ prog i, Program.parse "o['default'](1)" = .ok prog ∧ prog.forest.WellFormed ∧
        ((callByName i).run prog.forest).1 = true ∧
        ∃ m p k new key name raw lone,
          prog.forest.Calls m .element p i k ∧
            prog.forest.node? (some k) = some (.string name raw lone) ∧
            ((callByName i).run prog.forest).2.Calls m .property p new key ∧
            ((callByName i).run prog.forest).2.node? (some key) = some (.name .identifier name) ∧
            ∀ after, EndsName after → ScansBack name after := by
  have hends : EndsName "(1)" := by
    rintro _ ⟨⟩
    decide +kernel
  have hfacts : ∃ prog ∈ (Program.parse "o['default'](1)").toOption,
      ((callByName 2).run prog.forest).1 = true := by
    decide +kernel
  rcases hfacts with ⟨prog, hprog, hnamed⟩
  have hparse := Program.parse_of_mem_toOption hprog
  have hf := (Program.hasProgram_parse hparse).wellFormed
  exact ⟨hends, (methodNames_scanBack.1 _ _ hends).mp (by decide +kernel), prog, 2, hparse, hf,
    hnamed, methodNames_scanBack.2 _ _ hf hnamed⟩

end Rewrite
end Untangle
