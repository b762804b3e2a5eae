import Untangle.Proofs.Scope.Chart
import Untangle.Proofs.Scope.Lookup

/-!
# Bindings and charts

The bindings of a tree say what its chart says. Scopes and bindings are translated to nodes, and
the limits on climbing are never reached, since a tree that is bound as a whole is not that deep.
-/

namespace Untangle
namespace Bindings

variable {b b' : Bindings} {c : Chart} {s t p : ScopeId} {x y z : NodeId} {n N : Nat}

/-!
## Scopes and bindings as nodes
-/

/-- The node that opens a scope. -/
def opener (b : Bindings) (s : ScopeId) : Option NodeId :=
  (b.scope? s).bind Scope.node

def entry (b : Bindings) (i : BindingId) : Option Entry :=
  (b.binding? i).map fun binding => ⟨binding.declaration, binding.kind, binding.redeclared⟩

/-- The node that declares a binding. -/
def declares (b : Bindings) (i : BindingId) : Option NodeId :=
  (b.entry i).map Entry.declaration

/-- The chart says what the bindings say. -/
structure Charted (b : Bindings) (c : Chart) : Prop where
  opened : ∀ {s x}, b.opener s = some x ↔ b.opened[x]? = some s
  around : ∀ {s x}, b.opener s = some x →
    c.around x = ((b.scope? s).bind Scope.parent).bind b.opener
  outward : ∀ {s p}, (b.scope? s).bind Scope.parent = some p → ∃ y, b.opener p = some y
  table : ∀ {s x}, b.opener s = some x → ∀ name,
    c.table x name = (b.names[(s, name)]?).bind b.entry
  named : ∀ i, c.named i = (b.resolved[i]?).bind b.declares
  known : ∀ {s : ScopeId} {name : String} {i : BindingId}, b.names[(s, name)]? = some i →
    s < b.scopes.size ∧ ∃ binding, b.binding? i = some binding ∧ binding.scope = s ∧
      binding.name = name
  bound : ∀ {i : NodeId} {j : BindingId}, b.resolved[i]? = some j → j < b.bindings.size
  blank : ∀ {x : NodeId}, b.opened[x]? = none → c.around x = none ∧ ∀ name, c.table x name = none

theorem lt_of_opener (h : b.opener s = some x) : s < b.scopes.size := by
  rcases Option.bind_eq_some_iff.mp h with ⟨scope, hscope, _⟩
  exact (Array.getElem?_eq_some_iff.mp hscope).1

theorem Extends.opener (h : b.Extends b') (hx : b.opener s = some x) : b'.opener s = some x := by
  rcases Option.bind_eq_some_iff.mp hx with ⟨scope, hscope, hnode⟩
  exact Option.bind_eq_some_iff.mpr ⟨scope, h.scope? hscope, hnode⟩

theorem SameScopes.opener (h : b.SameScopes b') (s : ScopeId) : b'.opener s = b.opener s := by
  rw [Bindings.opener, h.scope?, Bindings.opener]

/-!
## Declaring
-/

/-- What a declaration does to the tables: the name gets a binding, the first one that it had or
a new one. -/
structure DeclaredAs (b b' : Bindings) (s : ScopeId) (kind : BindingKind) (name : String)
    (nameNode declaration : NodeId) (i : BindingId) : Prop extends b.SameScopes b' where
  names : ∀ key, b'.names[key]? = if key = (s, name) then some i else b.names[key]?
  resolved : b'.resolved = b.resolved.insert nameNode i
  old : ∀ {j binding}, b.binding? j = some binding → ∃ binding', b'.binding? j = some binding' ∧
    binding'.scope = binding.scope ∧ binding'.name = binding.name ∧
    binding'.declaration = binding.declaration ∧ (j ≠ i → b'.entry j = b.entry j)
  here : ∃ binding, b'.binding? i = some binding ∧ binding.scope = s ∧ binding.name = name
  entry : b'.entry i = some (Entry.declare ((b.names[(s, name)]?).bind b.entry) kind declaration)

section Declare

variable {kind : BindingKind} {name : String} {nameNode declaration : NodeId} {i : BindingId}
  {binding : Binding}

theorem entry_of_binding (h : b.binding? i = some binding) :
    b.entry i = some ⟨binding.declaration, binding.kind, binding.redeclared⟩ := by
  rw [entry, h]
  rfl

theorem declare_old (hname : b.names[(s, name)]? = some i) (hi : b.binding? i = some binding)
    (hreuse : reuses kind binding = true) :
    b.declare s kind name nameNode declaration =
      (b.modifyBinding i fun binding => { binding with redeclared := true }).attach i nameNode
        declaration := by
  have hreused : b.names[(s, name)]?.filter (fun i => (b.binding? i).all (reuses kind)) =
      some i := by
    simp [hname, hi, hreuse]
  rw [declare]
  simp only [hreused]

theorem declare_new (h : ∀ i, b.names[(s, name)]? = some i →
      ∃ binding, b.binding? i = some binding ∧ reuses kind binding = false) :
    b.declare s kind name nameNode declaration =
      { b with
        bindings := b.bindings.push
          ⟨name, kind, s, declaration, nameNode, false, false, #[]⟩
        names := b.names.insert (s, name) b.bindings.size }.attach b.bindings.size nameNode
          declaration := by
  have hreused : b.names[(s, name)]?.filter (fun i => (b.binding? i).all (reuses kind)) =
      none := by
    cases hi : b.names[(s, name)]? with
    | none => rfl
    | some i =>
        rcases h i hi with ⟨binding, hbinding, hnot⟩
        simp [hbinding, hnot]
  rw [declare]
  simp only [hreused]

theorem declaredAs_old (hname : b.names[(s, name)]? = some i) (hi : b.binding? i = some binding)
    (hscope : binding.scope = s) (htext : binding.name = name)
    (hreuse : reuses kind binding = true) :
    DeclaredAs b (b.declare s kind name nameNode declaration) s kind name nameNode
      declaration i := by
  have hbinding : ∀ j, (b.declare s kind name nameNode declaration).binding? j =
      if i = j then (b.binding? j).map fun binding => { binding with redeclared := true }
      else b.binding? j := by
    rw [declare_old hname hi hreuse]
    exact fun j => Array.getElem?_modify
  have hsame : (b.declare s kind name nameNode declaration).binding? i =
      some { binding with redeclared := true } := by
    rw [hbinding, if_pos rfl, hi]
    rfl
  refine ⟨b.sameScopes_declare .., ?_, ?_, ?_, ⟨_, hsame, hscope, htext⟩, ?_⟩
  · intro key
    rw [declare_old hname hi hreuse]
    by_cases hkey : key = (s, name)
    · rw [hkey, if_pos rfl]
      exact hname
    · rw [if_neg hkey]
      rfl
  · rw [declare_old hname hi hreuse]
    rfl
  · intro j binding' hj
    by_cases hij : i = j
    · subst hij
      obtain rfl := Option.some.inj (hi.symm.trans hj)
      exact ⟨_, hsame, rfl, rfl, rfl, fun h => absurd rfl h⟩
    · have hj' := (hbinding j).trans (if_neg hij)
      exact ⟨binding', hj'.trans hj, rfl, rfl, rfl, fun _ => congrArg (Option.map _) hj'⟩
  · have hfilter : Entry.reusedFor ⟨binding.declaration, binding.kind, binding.redeclared⟩ kind =
        true := hreuse
    rw [entry_of_binding hsame, hname, Option.bind_some, entry_of_binding hi]
    simp [Entry.declare, hfilter]

theorem declaredAs_new (h : ∀ i, b.names[(s, name)]? = some i →
      ∃ binding, b.binding? i = some binding ∧ reuses kind binding = false) :
    DeclaredAs b (b.declare s kind name nameNode declaration) s kind name nameNode
      declaration b.bindings.size := by
  have hsame : (b.declare s kind name nameNode declaration).binding? b.bindings.size =
      some ⟨name, kind, s, declaration, nameNode, false, false, #[]⟩ := by
    rw [declare_new h]
    exact Array.getElem?_push_size
  refine ⟨b.sameScopes_declare .., ?_, ?_, ?_, ⟨_, hsame, rfl, rfl⟩, ?_⟩
  · intro key
    rw [declare_new h]
    by_cases hkey : key = (s, name)
    · simp [attach, hkey]
    · simp [attach, Std.HashMap.getElem?_insert, hkey, Ne.symm hkey]
  · rw [declare_new h]
    rfl
  · intro j binding hj
    have hlt : j < b.bindings.size := (Array.getElem?_eq_some_iff.mp hj).1
    have hj' : (b.declare s kind name nameNode declaration).binding? j = b.binding? j := by
      rw [declare_new h]
      exact Array.getElem?_push_lt hlt |>.trans (Array.getElem?_eq_getElem hlt).symm
    exact ⟨binding, hj'.trans hj, rfl, rfl, rfl, fun _ => congrArg (Option.map _) hj'⟩
  · rw [entry_of_binding hsame]
    cases hi : b.names[(s, name)]? with
    | none => rfl
    | some i =>
        rcases h i hi with ⟨binding, hbinding, hnot⟩
        have hfilter : Entry.reusedFor ⟨binding.declaration, binding.kind, binding.redeclared⟩
            kind = false := hnot
        rw [Option.bind_some, entry_of_binding hbinding]
        simp [Entry.declare, hfilter]

theorem exists_declaredAs (hknown : ∀ {i}, b.names[(s, name)]? = some i →
      ∃ binding, b.binding? i = some binding ∧ binding.scope = s ∧ binding.name = name) :
    ∃ i, DeclaredAs b (b.declare s kind name nameNode declaration) s kind name nameNode
      declaration i := by
  by_cases hold : ∃ i binding, b.names[(s, name)]? = some i ∧ b.binding? i = some binding ∧
      reuses kind binding = true
  · rcases hold with ⟨i, binding, hname, hi, hreuse⟩
    rcases hknown hname with ⟨binding', hi', hscope, htext⟩
    obtain rfl := Option.some.inj (hi.symm.trans hi')
    exact ⟨i, declaredAs_old hname hi hscope htext hreuse⟩
  · refine ⟨_, declaredAs_new fun i hi => ?_⟩
    rcases hknown hi with ⟨binding, hbinding, _, _⟩
    exact ⟨binding, hbinding,
      Bool.eq_false_iff.mpr fun hreuse => hold ⟨i, binding, hi, hbinding, hreuse⟩⟩

end Declare

theorem Charted.declare (h : b.Charted c) (hs : b.opener s = some x) (kind : BindingKind)
    (name : String) (nameNode declaration : NodeId) :
    (b.declare s kind name nameNode declaration).Charted
      (c.declare x kind name nameNode declaration) := by
  obtain ⟨i, hi⟩ : ∃ i, DeclaredAs b (b.declare s kind name nameNode declaration) s kind name
      nameNode declaration i := exists_declaredAs fun hj => (h.known hj).2
  have hopener := hi.toSameScopes.opener
  have hsame : ∀ {t y}, b.opener t = some y → (y = x ↔ t = s) := by
    intro t y ht
    constructor
    · rintro rfl
      exact Option.some.inj ((h.opened.mp ht).symm.trans (h.opened.mp hs))
    · rintro rfl
      exact Option.some.inj (ht.symm.trans hs)
  have hentry := hi.entry
  rw [← h.table hs] at hentry
  refine ⟨?_, ?_, ?_, ?_, ?_, ?_, ?_, ?_⟩
  · intro t y
    rw [hopener, hi.opened]
    exact h.opened
  · intro t y
    rw [hopener, hi.toSameScopes.scope?, funext hopener]
    exact h.around
  · intro t p
    rw [hopener, hi.toSameScopes.scope?]
    exact h.outward
  · intro t y ht text
    rw [hopener] at ht
    simp only [hi.names, Chart.declare, Prod.mk.injEq, hsame ht]
    split
    · exact hentry.symm
    · rename_i hkey
      rw [h.table ht]
      cases hj : b.names[(t, text)]? with
      | none => rfl
      | some j =>
          rcases (h.known hj).2 with ⟨binding, hbinding, hscope, htext⟩
          rcases hi.old hbinding with ⟨binding', hbinding', hscope', htext', _, hold⟩
          refine (hold ?_).symm
          rintro rfl
          rcases hi.here with ⟨own, hown, hs', hname'⟩
          obtain rfl := Option.some.inj (hown.symm.trans hbinding')
          exact hkey ⟨hscope.symm.trans (hscope'.symm.trans hs'),
            htext.symm.trans (htext'.symm.trans hname')⟩
  · intro j
    rw [hi.resolved, Std.HashMap.getElem?_insert, Chart.declare]
    by_cases hj : j = nameNode
    · simp [hj, Bindings.declares, hentry]
    · simp only [if_neg hj, beq_iff_eq, if_neg (Ne.symm hj), h.named]
      cases hk : b.resolved[j]? with
      | none => rfl
      | some k =>
          have hlt := h.bound hk
          rcases hi.old (Array.getElem?_eq_getElem hlt) with ⟨binding, hbinding, _, _, hsame, _⟩
          have hold : b.binding? k = some b.bindings[k] := Array.getElem?_eq_getElem hlt
          simp [Bindings.declares, entry_of_binding hbinding, entry_of_binding hold, hsame]
  · intro t text j hj
    rw [hi.names] at hj
    rw [hi.scopes]
    split at hj
    · obtain rfl := Option.some.inj hj
      obtain ⟨rfl, rfl⟩ := Prod.mk.inj ‹(t, text) = (s, name)›
      exact ⟨lt_of_opener hs, hi.here⟩
    · rcases (h.known hj).2 with ⟨binding, hbinding, hscope, htext⟩
      rcases hi.old hbinding with ⟨binding', hbinding', hscope', htext', _⟩
      exact ⟨(h.known hj).1, binding', hbinding', hscope'.trans hscope, htext'.trans htext⟩
  · intro j k hk
    rw [hi.resolved, Std.HashMap.getElem?_insert] at hk
    split at hk
    · obtain rfl := Option.some.inj hk
      rcases hi.here with ⟨_, hown, _⟩
      exact (Array.getElem?_eq_some_iff.mp hown).1
    · rcases hi.old (Array.getElem?_eq_getElem (h.bound hk)) with ⟨_, hbinding, _⟩
      exact (Array.getElem?_eq_some_iff.mp hbinding).1
  · intro y hy
    rw [hi.opened] at hy
    refine ⟨(h.blank hy).1, fun text => ?_⟩
    have hne : y ≠ x := by
      rintro rfl
      cases hy.symm.trans (h.opened.mp hs)
    exact (if_neg fun hkey => hne hkey.1).trans ((h.blank hy).2 text)

/-!
## Opening scopes
-/

section Open

variable {kind : ScopeKind}

theorem opener_openScope (t : ScopeId) :
    (b.openScope kind (some z) (some s)).2.opener t =
      if t = b.scopes.size then some z else b.opener t := by
  rw [opener, scope?_openScope]
  split <;> rfl

theorem Charted.openScope (h : b.Charted c) (hs : b.opener s = some x)
    (hz : b.opened[z]? = none) :
    (b.openScope kind (some z) (some s)).2.Charted (c.enter z x) := by
  have hsize : ∀ {y}, b.opened[y]? ≠ some b.scopes.size := fun {y} hy =>
    Nat.lt_irrefl _ (lt_of_opener (h.opened.mpr hy))
  have hold : ∀ {t y}, b.opener t = some y → y ≠ z := by
    rintro t y ht rfl
    cases hz.symm.trans (h.opened.mp ht)
  have hextends := b.extends_openScope kind (some z) (some s)
  refine ⟨?_, ?_, ?_, ?_, h.named, ?_, h.bound, ?_⟩
  · intro t y
    rw [opener_openScope, opened_openScope]
    by_cases ht : t = b.scopes.size
    · subst ht
      by_cases hy : z = y
      · simp [hy]
      · simp [hy, hsize]
    · rw [if_neg ht]
      by_cases hy : z = y
      · subst hy
        simpa [Ne.symm ht] using fun h' => hold h' rfl
      · rw [if_neg hy]
        exact h.opened
  · intro t y ht
    rw [opener_openScope] at ht
    rw [scope?_openScope]
    split at ht
    · obtain rfl := Option.some.inj ht
      rw [if_pos ‹_›]
      exact (if_pos rfl).trans (hextends.opener hs).symm
    · rw [if_neg ‹_›]
      refine (if_neg (hold ht)).trans ((h.around ht).trans ?_)
      cases hp : (b.scope? t).bind Scope.parent with
      | none => rfl
      | some p =>
          rcases h.outward hp with ⟨w, hw⟩
          exact hw.trans (hextends.opener hw).symm
  · intro t p hp
    rw [scope?_openScope] at hp
    split at hp
    · obtain rfl : s = p := Option.some.inj hp
      exact ⟨x, hextends.opener hs⟩
    · rcases h.outward hp with ⟨w, hw⟩
      exact ⟨w, hextends.opener hw⟩
  · intro t y ht name
    rw [opener_openScope] at ht
    split at ht
    · rename_i ht'
      obtain rfl := Option.some.inj ht
      have hnone : b.names[(t, name)]? = none := by
        cases hi : b.names[(t, name)]? with
        | none => rfl
        | some i => exact absurd (h.known hi).1 (Nat.not_lt.mpr (Nat.le_of_eq ht'.symm))
      exact ((h.blank hz).2 name).trans (congrArg (·.bind b.entry) hnone).symm
    · exact h.table ht name
  · intro t name i hi
    refine ⟨Nat.lt_of_lt_of_le (h.known hi).1 ?_, (h.known hi).2⟩
    simp [Bindings.openScope]
  · intro y hy
    rw [opened_openScope] at hy
    split at hy
    · cases hy
    · exact ⟨(if_neg (Ne.symm ‹_›)).trans (h.blank hy).1, (h.blank hy).2⟩

end Open

/-!
## Climbing
-/

/-- So many scopes lie around a scope. -/
inductive Deep (b : Bindings) : ScopeId → Nat → Prop
  | program {s : ScopeId} {scope : Scope} (hs : b.scope? s = some scope)
      (hparent : scope.parent = none) : Deep b s 0
  | inside {s p : ScopeId} {n : Nat} {scope : Scope} (hs : b.scope? s = some scope)
      (hparent : scope.parent = some p) (hp : Deep b p n) : Deep b s (n + 1)

/-- A `var` declaration in the first scope belongs to the second. -/
inductive Hoists (b : Bindings) : ScopeId → ScopeId → Prop
  | here {s : ScopeId} {scope : Scope} (hs : b.scope? s = some scope)
      (hkind : scope.kind.isHoistingTarget = true) : Hoists b s s
  | outward {s p t : ScopeId} {scope : Scope} (hs : b.scope? s = some scope)
      (hkind : scope.kind.isHoistingTarget = false) (hparent : scope.parent = some p)
      (hp : Hoists b p t) : Hoists b s t

theorem Deep.extend (hb : b.Extends b') (h : b.Deep s n) : b'.Deep s n := by
  induction h with
  | program hs hparent => exact .program (hb.scope? hs) hparent
  | inside hs hparent _ ih => exact .inside (hb.scope? hs) hparent ih

theorem Hoists.extend (hb : b.Extends b') (h : b.Hoists s t) : b'.Hoists s t := by
  induction h with
  | here hs hkind => exact .here (hb.scope? hs) hkind
  | outward hs hkind hparent _ ih => exact .outward (hb.scope? hs) hkind hparent ih

theorem Hoists.hoistingFrom (h : b.Hoists s t) (hs : b.Deep s n) {steps : Nat}
    (hsteps : n < steps) : b.hoistingFrom steps s = t := by
  induction h generalizing n steps with
  | @here s scope hscope hkind =>
      cases steps with
      | zero => rfl
      | succ steps => simp [Bindings.hoistingFrom, hscope, hkind]
  | @outward s p t scope hscope hkind hparent _ ih =>
      cases steps with
      | zero => exact absurd hsteps (Nat.not_lt_zero n)
      | succ steps =>
          simp only [Bindings.hoistingFrom, hscope, hkind, hparent]
          cases hs with
          | program hscope' hnone =>
              obtain rfl := Option.some.inj (hscope.symm.trans hscope')
              cases hparent.symm.trans hnone
          | inside hscope' hparent' hp =>
              obtain rfl := Option.some.inj (hscope.symm.trans hscope')
              obtain rfl := Option.some.inj (hparent.symm.trans hparent')
              exact ih hp (Nat.lt_of_succ_lt_succ hsteps)

theorem Charted.lookup_step (h : b.Charted c) (hs : b.opener s = some x) (name : String)
    (steps : Nat) :
    (b.lookupFrom name (steps + 1) (some s)).bind b.declares =
      match c.table x name with
      | some e => some e.declaration
      | none => (b.lookupFrom name steps ((b.scope? s).bind Scope.parent)).bind b.declares := by
  rw [lookupFrom, h.table hs]
  cases hi : b.names[(s, name)]? with
  | none => rfl
  | some i =>
      rcases (h.known hi).2 with ⟨binding, hbinding, _⟩
      simp [Bindings.declares, entry_of_binding hbinding]

/-- What is found by climbing over so many scopes is what the name means on the chart. -/
theorem Charted.means (h : b.Charted c) (hs : b.opener s = some x) (hdeep : b.Deep s n)
    {steps : Nat} (hsteps : n < steps) (name : String) :
    c.Means name x ((b.lookupFrom name steps (some s)).bind b.declares) := by
  induction hdeep generalizing x steps with
  | @program s scope hscope hparent =>
      cases steps with
      | zero => exact absurd hsteps (Nat.not_lt_zero 0)
      | succ steps =>
          rw [h.lookup_step hs]
          have hnone : (b.scope? s).bind Scope.parent = none := by rw [hscope]; exact hparent
          cases he : c.table x name with
          | some e => exact .here he
          | none =>
              have houtside : b.lookupFrom name steps none = none := by cases steps <;> rfl
              simp only [hnone, houtside]
              exact .nowhere he (by rw [h.around hs, hnone]; rfl)
  | @inside s p n scope hscope hparent _ ih =>
      cases steps with
      | zero => exact absurd hsteps (Nat.not_lt_zero _)
      | succ steps =>
          rw [h.lookup_step hs]
          have hsome : (b.scope? s).bind Scope.parent = some p := by rw [hscope]; exact hparent
          rcases h.outward hsome with ⟨y, hy⟩
          cases he : c.table x name with
          | some e => exact .here he
          | none =>
              simp only [hsome]
              exact .outward he (by rw [h.around hs, hsome]; exact hy)
                (ih hy (Nat.lt_of_succ_lt_succ hsteps))

/-!
## Playing and charting
-/

theorem extends_play (o : Outline) (s t : ScopeId) (b : Bindings) :
    b.Extends (o.play s t b) := by
  induction o generalizing s t b with
  | done => exact .refl b
  | declare hoisted kind name nameNode declaration rest ih =>
      exact ((b.sameScopes_declare ..).extends).trans (ih s t _)
  | scope kind node inside rest ih ih' =>
      exact (b.extends_openScope kind (some node) (some s)).trans ((ih _ _ _).trans (ih' s t _))
  | vars inside rest ih ih' => exact (ih _ _ b).trans (ih' s t _)
  | cut rest ih => exact ih s t b.truncate

theorem opened_play (o : Outline) (s t : ScopeId) (b : Bindings) (hx : x ∉ o.openers) :
    (o.play s t b).opened[x]? = b.opened[x]? := by
  induction o generalizing s t b with
  | done => rfl
  | declare hoisted kind name nameNode declaration rest ih =>
      exact (ih s t _ hx).trans (by rw [(b.sameScopes_declare ..).opened])
  | scope kind node inside rest ih ih' =>
      simp only [Outline.openers, List.mem_cons, List.mem_append, not_or] at hx
      refine (ih' s t _ hx.2.2).trans ((ih _ _ _ hx.2.1).trans ?_)
      exact (opened_openScope ..).trans (if_neg (Ne.symm hx.1))
  | vars inside rest ih ih' =>
      simp only [Outline.openers, List.mem_append, not_or] at hx
      exact (ih' s t _ hx.2).trans (ih _ _ b hx.1)
  | cut rest ih => exact ih s t b.truncate hx

/-- A scope, the node that opened it, and what lies around it. -/
structure Place (b : Bindings) (s : ScopeId) (x z : NodeId) (n : Nat) : Prop where
  opener : b.opener s = some x
  deep : b.Deep s n
  hoists : ∃ u, b.Hoists s u ∧ b.opener u = some z

theorem Place.extend (hb : b.Extends b') (h : b.Place s x z n) : b'.Place s x z n := by
  rcases h.hoists with ⟨u, hu, hz⟩
  exact ⟨hb.opener h.opener, h.deep.extend hb, u, hu.extend hb, hb.opener hz⟩

/-- No scope is deeper than the limit. -/
def Shallow (b : Bindings) (limit : Nat) : Prop :=
  ∀ {s x}, b.opener s = some x → ∃ n ≤ limit, b.Deep s n

theorem Place.inside {kind : ScopeKind} {w : NodeId} (h : b.Place s x z n) :
    (b.openScope kind (some w) (some s)).2.Place b.scopes.size w
      (if kind.isHoistingTarget then w else z) (n + 1) := by
  have hextends := b.extends_openScope kind (some w) (some s)
  have hscope : (b.openScope kind (some w) (some s)).2.scope? b.scopes.size =
      some ⟨kind, some w, some s⟩ := (scope?_openScope ..).trans (if_pos rfl)
  have hopener : (b.openScope kind (some w) (some s)).2.opener b.scopes.size = some w := by
    rw [Bindings.opener, hscope]
    rfl
  refine ⟨hopener, .inside hscope rfl (h.deep.extend hextends), ?_⟩
  cases hkind : kind.isHoistingTarget with
  | true => exact ⟨_, .here hscope hkind, hopener⟩
  | false =>
      rcases h.hoists with ⟨u, hu, hz⟩
      exact ⟨u, .outward hscope hkind rfl (hu.extend hextends), hextends.opener hz⟩

theorem SameScopes.shallow (hb : b.SameScopes b') (h : b.Shallow N) : b'.Shallow N := by
  intro s x hs
  rw [hb.opener] at hs
  rcases h hs with ⟨n, hn, hdeep⟩
  exact ⟨n, hn, hdeep.extend hb.extends⟩

theorem Shallow.openScope {kind : ScopeKind} {w : NodeId} (h : b.Shallow N)
    (hs : b.Place s x z n) (hn : n < N) :
    (b.openScope kind (some w) (some s)).2.Shallow N := by
  have hinside : (b.openScope kind (some w) (some s)).2.Place b.scopes.size w _ (n + 1) :=
    hs.inside
  intro t y ht
  by_cases hnew : t = b.scopes.size
  · exact ⟨n + 1, hn, hnew ▸ hinside.deep⟩
  · rw [opener_openScope, if_neg hnew] at ht
    rcases h ht with ⟨m, hm, hdeep⟩
    exact ⟨m, hm, hdeep.extend (b.extends_openScope kind (some w) (some s))⟩

/-- Playing an outline on bindings is entering it on their chart. -/
theorem charted_play (o : Outline) (h : b.Charted c) (hshallow : b.Shallow N)
    (hs : b.Place s x z n) (ht : b.opener t = some y) (hheight : n + o.height ≤ N)
    (hlimit : N < Limits.scopeSteps) (hnodup : o.openers.Nodup)
    (hnew : ∀ w ∈ o.openers, b.opened[w]? = none) :
    (o.play s t b).Charted (o.chart x y z c) ∧ (o.play s t b).Shallow N := by
  induction o generalizing b c s t x y z n with
  | done => exact ⟨h, hshallow⟩
  | declare hoisted kind name nameNode declaration rest ih =>
      have hsame := b.sameScopes_declare (if hoisted then t else s) kind name nameNode declaration
      have htarget : b.opener (if hoisted then t else s) = some (if hoisted then y else x) := by
        cases hoisted
        · exact hs.opener
        · exact ht
      exact ih (h.declare htarget kind name nameNode declaration) (hsame.shallow hshallow)
        (hs.extend hsame.extends) (hsame.extends.opener ht) hheight hnodup
        fun w hw => by rw [hsame.opened]; exact hnew w hw
  | scope kind node inside rest ih ih' =>
      simp only [Outline.openers, List.nodup_cons, List.nodup_append, List.mem_append, not_or,
        Outline.height] at hnodup hnew hheight
      obtain ⟨⟨hinside, hrest⟩, hnodup, hnodup', hdisjoint⟩ := hnodup
      have hnode := hnew node List.mem_cons_self
      have hopened : ∀ w, w ≠ node → (b.openScope kind (some node) (some s)).2.opened[w]? =
          b.opened[w]? := fun w hw => (opened_openScope ..).trans (if_neg (Ne.symm hw))
      have hplayed := b.extends_openScope kind (some node) (some s)
      obtain ⟨hcharted, hshallow'⟩ := ih (h.openScope hs.opener hnode)
        (hshallow.openScope hs (by omega)) hs.inside hs.inside.opener (by omega) hnodup
        fun w hw => by
          rw [hopened w fun hw' => hinside (hw' ▸ hw)]
          exact hnew w (List.mem_cons_of_mem _ (List.mem_append_left _ hw))
      have hextends := hplayed.trans (extends_play inside b.scopes.size b.scopes.size _)
      refine ih' hcharted hshallow' (hs.extend hextends) (hextends.opener ht) (by omega) hnodup'
        fun w hw => ?_
      rw [opened_play _ _ _ _ fun hw' => hdisjoint w hw' w hw rfl]
      refine (hopened w fun hw' => hrest (hw' ▸ hw)).trans ?_
      exact hnew w (List.mem_cons_of_mem _ (List.mem_append_right _ hw))
  | vars inside rest ih ih' =>
      simp only [Outline.openers, List.nodup_append, Outline.height] at hnodup hheight
      obtain ⟨hnodup, hnodup', hdisjoint⟩ := hnodup
      rcases hs.hoists with ⟨u, hu, hz⟩
      have hhoisting : b.hoistingScope s = u := hu.hoistingFrom hs.deep (by omega)
      obtain ⟨hcharted, hshallow'⟩ := ih (t := b.hoistingScope s) h hshallow hs (hhoisting ▸ hz)
        (by omega) hnodup fun w hw => hnew w (List.mem_append_left _ hw)
      have hextends := extends_play inside s (b.hoistingScope s) b
      refine ih' hcharted hshallow' (hs.extend hextends) (hextends.opener ht) (by omega) hnodup'
        fun w hw => ?_
      rw [opened_play _ _ _ _ fun hw' => hdisjoint w hw' w hw rfl]
      exact hnew w (List.mem_append_right _ hw)
  | cut rest ih =>
      have hsame : b.SameScopes b.truncate := ⟨rfl, rfl⟩
      have hcharted : b.truncate.Charted c :=
        ⟨h.opened, h.around, h.outward, h.table, h.named, h.known, h.bound, h.blank⟩
      exact ih hcharted (hsame.shallow hshallow) (hs.extend hsame.extends) ht hheight hnodup hnew

end Bindings
end Untangle
