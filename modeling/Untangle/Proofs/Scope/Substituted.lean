import Untangle.Proofs.Scope.Denotation
import Untangle.Proofs.Scope.Thinning
import Untangle.Proofs.Scope.WithBodies

/-!
# Trees with constants in the place of expressions

A tree may get constants in the place of operations. Whatever the operations contained is gone, but
the names that are left stand for what they stood for, and the tree is not too deep when it was not
too deep before.
-/

namespace Untangle

open Forest Bindings
open Relation (ReflTransGen)

/-!
## Constants
-/

/-- An access to an element, or an operation with two operands. -/
def Node.isComputed {α : Type} : Node α → Bool
  | access .element _ _ _ _ => true
  | binary .binary _ _ _ => true
  | binary .logical _ _ _ => true
  | _ => false

/-- The same node, but a number may be written in another way. -/
def Node.Respells (n' n : Node Slot) : Prop :=
  n' = n ∨ ∃ x raw raw', n = .number x raw ∧ n' = .number x raw'

/-- A literal, or a literal with an operator before it. -/
inductive Forest.Constant (g : Forest) (j : NodeId) : Prop
  | literal {n : Node Slot} (hn : g.node? (some j) = some n) (hliteral : n.isLiteral = true) :
      g.Constant j
  | signed {operator : TokenKind} {k : NodeId} {n : Node Slot}
      (hj : g.node? (some j) = some (.unary .before operator (some k)))
      (hn : g.node? (some k) = some n) (hliteral : n.isLiteral = true) : g.Constant j

namespace Node

variable {n n' : Node Slot} {c : NodeId → NodeId}

theorem isLiteral_cases (h : n.isLiteral = true) :
    (∃ text raw lone, n = .string text raw lone) ∨ (∃ x raw, n = .number x raw) ∨
      (∃ b, n = .boolean b) ∨ n = .bare .null := by
  unfold isLiteral at h
  split at h
  · exact .inl ⟨_, _, _, rfl⟩
  · exact .inr (.inl ⟨_, _, rfl⟩)
  · exact .inr (.inr (.inl ⟨_, rfl⟩))
  · exact .inr (.inr (.inr rfl))
  · cases h

theorem isComputed_cases (h : n.isComputed = true) :
    (∃ object key isOptional inChain, n = .access .element object key isOptional inChain) ∨
      ∃ form left operator right, (form = .binary ∨ form = .logical) ∧
        n = .binary form left operator right := by
  unfold isComputed at h
  split at h
  · exact .inl ⟨_, _, _, _, rfl⟩
  · exact .inr ⟨_, _, _, _, .inl rfl, rfl⟩
  · exact .inr ⟨_, _, _, _, .inr rfl, rfl⟩
  · cases h

/-- The node declares nothing and is no target: it is walked for its value, as are its children. -/
structure IsValue (n : Node Slot) : Prop where
  level : n.isStatementLevel = false
  target : ∀ kind, n.again? (.target kind) = some (.value (kind.getD .read))
  value : ∀ kind, n.again? (.value kind) = none
  errands : ∀ kind, n.errands (.value kind) =
    (childrenOf n).map fun i => Errand.toValue (some i)
  node : ∀ k f i, Sketch.ofNode k f i n = k.children n
  pattern : ∀ k names D i, Sketch.ofPattern k names D i n = .done
  text : n.identifierText? = none

theorem isValue_of_isLiteral (h : n.isLiteral = true) : n.IsValue := by
  rcases isLiteral_cases h with ⟨_, _, _, rfl⟩ | ⟨_, _, rfl⟩ | ⟨_, rfl⟩ | rfl <;>
    exact ⟨rfl, fun _ => rfl, fun _ => rfl, fun _ => rfl, fun _ _ _ => rfl, fun _ _ _ _ => rfl, rfl⟩

theorem isValue_of_isComputed (h : n.isComputed = true) : n.IsValue := by
  rcases isComputed_cases h with ⟨_, _, _, _, rfl⟩ | ⟨_, _, _, _, rfl | rfl, rfl⟩ <;>
    exact ⟨rfl, fun _ => rfl, fun _ => rfl, fun _ => rfl, fun _ _ _ => rfl, fun _ _ _ _ => rfl, rfl⟩

theorem IsValue.nameless {f : Forest} {i : NodeId} (h : n.IsValue)
    (hn : f.node? (some i) = some n) : Sketch.Nameless f i n := by
  refine ⟨hn, h.text, ?_, ?_⟩
  · rintro statements rfl
    cases h.level
  · rintro name initializer rfl
    cases h.level

theorem childrenOf_of_isLiteral (h : n.isLiteral = true) : childrenOf n = [] := by
  rcases isLiteral_cases h with ⟨_, _, _, rfl⟩ | ⟨_, _, rfl⟩ | ⟨_, rfl⟩ | rfl <;> rfl

theorem number_of_map {x : Float} {raw : Option String}
    (h : n.map (Option.map c) = .number x raw) : n = .number x raw := by
  cases n with
  | number y raw₁ => exact h
  | guarded form condition statement => cases form <;> cases h
  | _ => cases h

theorem Respells.carries (h : n'.Respells (n.map (Option.map c))) : n.Carries c n' := by
  rcases h with rfl | ⟨x, raw, raw', hn, rfl⟩
  · exact carries_map c n
  · obtain rfl := number_of_map hn
    exact ⟨fun p => by cases p <;> rfl, rfl, .inr ⟨.of_value rfl rfl, .of_value rfl rfl⟩⟩

theorem Respells.children (h : n'.Respells (n.map (Option.map c))) :
    childrenOf n' = (childrenOf n).map c := by
  rw [← childrenOf_map]
  rcases h with rfl | ⟨x, raw, raw', hn, rfl⟩
  · rfl
  · rw [hn]
    rfl

end Node

/-!
## Outlines and itineraries
-/

section Shapes

variable {f g : Forest} {i j k : NodeId} {n m : Node Slot} {gone : NodeId → Prop}
  {opened opened' : NodeId → Option ScopeId} {depth : Nat} {p : Purpose} {o o' : Outlook}

theorem Sketch.node_of_isLiteral (hn : g.node? (some i) = some n) (h : n.isLiteral = true)
    (depth : Nat) : (ofDepth g (depth + 1)).node (some i) = .done := by
  rw [ofDepth_node hn, (Node.isValue_of_isLiteral h).node, Sketch.children,
    Node.childrenOf_of_isLiteral h]
  rfl

theorem Forest.itinerary_of_isLiteral (hn : g.node? (some i) = some n) (h : n.isLiteral = true)
    (kind : ReferenceKind) :
    .cut ∉ g.itinerary opened (depth + 1) (.value kind) o (some i) := by
  have hvalue := Node.isValue_of_isLiteral h
  rw [itinerary_here hn (hvalue.value kind), hvalue.errands, Node.childrenOf_of_isLiteral h,
    List.map_nil, List.flatMap_nil, List.append_nil]
  exact cut_not_mem_stops n

namespace Forest.Constant

variable (h : g.Constant j)

include h

/-- A constant declares nothing, but the walk over it may be given up one level further down. -/
theorem node_cases (depth : Nat) :
    (Sketch.ofDepth g (depth + 1)).node (some j) = .done ∨
      depth = 0 ∧ (Sketch.ofDepth g (depth + 1)).node (some j) = .cut .done := by
  cases h with
  | literal hn hliteral => exact .inl (Sketch.node_of_isLiteral hn hliteral depth)
  | @signed operator k n hj hn hliteral =>
      have hchild : (Sketch.ofDepth g (depth + 1)).node (some j) =
          (Sketch.ofDepth g depth).node (some k) ++ .done :=
        Sketch.ofDepth_node hj depth
      rw [Outline.append_done] at hchild
      cases depth with
      | zero => exact .inr ⟨rfl, hchild⟩
      | succ depth => exact .inl (hchild.trans (Sketch.node_of_isLiteral hn hliteral depth))

theorem pattern (depth : Nat) (names : NameKind) (D : Option NodeId) :
    (Sketch.ofDepth g (depth + 1)).pattern names D (some j) = .done := by
  cases h with
  | literal hn hliteral =>
      simp only [Sketch.ofDepth, hn]
      exact (Node.isValue_of_isLiteral hliteral).pattern ..
  | signed hj _ _ =>
      simp only [Sketch.ofDepth, hj]
      rfl

theorem nameless : ∃ n, Sketch.Nameless g j n := by
  cases h with
  | literal hn hliteral => exact ⟨_, (Node.isValue_of_isLiteral hliteral).nameless hn⟩
  | signed hj _ _ => exact ⟨_, hj, rfl, nofun, nofun⟩

/-- The outline of an operation is thinned to that of a constant. -/
theorem thins (hf : f.WellFormed) (htiered : f.Tiered) (hn : f.node? (some i) = some n)
    (hvalue : n.IsValue) (hchild : childrenOf n ≠ []) (hgone : ∀ {w}, f.Within w i → gone w)
    (depth : Nat) : Outline.Thins gone ((Sketch.ofDepth f depth).node (some i))
      ((Sketch.ofDepth g depth).node (some j)) := by
  cases depth with
  | zero => exact .refl _
  | succ depth =>
      have hthins := Sketch.thins_node hf htiered ⟨n, hn, hvalue.level⟩ hgone (depth + 1)
      rcases h.node_cases depth with hdone | ⟨rfl, hcut⟩
      · rwa [hdone]
      · -- The walk over the operation is given up at its first child.
        rw [hcut]
        obtain ⟨a, rest, hrest⟩ := List.exists_cons_of_ne_nil hchild
        have hnode : (Sketch.ofDepth f 1).node (some i) =
            .cut (.concat (rest.map fun _ => .cut .done)) := by
          simp only [Sketch.ofDepth, hn]
          rw [hvalue.node, Sketch.children, hrest]
          rfl
        have hnone : ∀ (items : List NodeId) part,
            (Outline.concat (items.map fun _ => .cut .done)).nodes part = [] := by
          intro items part
          induction items with
          | nil => rfl
          | cons a items ih => exact ih
        rw [hnode]
        refine .cut (.dropped (.concat fun _ _ => trivial) fun part w hw => ?_)
        rw [hnone] at hw
        cases hw

/-- The walk that resolves names does not give up at a constant before it does at an operation. -/
theorem cut_mem_itinerary (hn : f.node? (some i) = some n) (hvalue : n.IsValue)
    (hchild : childrenOf n ≠ []) (hcut : .cut ∈ g.itinerary opened' depth p o' (some j)) :
    .cut ∈ f.itinerary opened depth p o (some i) := by
  obtain ⟨m, hm, htarget, hstop, hshallow⟩ : ∃ m, g.node? (some j) = some m ∧
      (∀ kind, m.again? (.target kind) = some (.value (kind.getD .read))) ∧
      (∀ kind, m.again? (.value kind) = none) ∧
      ∀ {depth kind o}, .cut ∈ ((m.errands (.value kind)).flatMap fun e =>
        g.itinerary opened' depth e.purpose (Outlook.follow o e) e.slot) → depth = 0 := by
    cases h with
    | @literal m hm hliteral =>
        have hm' := Node.isValue_of_isLiteral hliteral
        refine ⟨m, hm, hm'.target, hm'.value, fun hmem => ?_⟩
        rw [hm'.errands, Node.childrenOf_of_isLiteral hliteral] at hmem
        cases hmem
    | @signed operator k m hj hm hliteral =>
        refine ⟨_, hj, fun _ => rfl, fun _ => rfl, fun {depth kind o} hmem => ?_⟩
        obtain ⟨e, he, hmem⟩ := List.mem_flatMap.mp hmem
        obtain rfl := List.mem_singleton.mp he
        cases depth with
        | zero => rfl
        | succ depth => exact absurd hmem (itinerary_of_isLiteral hm hliteral _)
  induction depth generalizing p o o' with
  | zero => exact List.mem_singleton_self _
  | succ depth ih =>
      cases p with
      | target kind =>
          rw [itinerary_again hm (htarget kind)] at hcut
          rw [itinerary_again hn (hvalue.target kind)]
          exact ih hcut
      | value kind =>
          rw [itinerary_here hm (hstop kind), List.mem_append] at hcut
          rw [itinerary_here hn (hvalue.value kind), List.mem_append]
          obtain rfl := hshallow (hcut.resolve_left (cut_not_mem_stops m))
          obtain ⟨a, rest, hrest⟩ := List.exists_cons_of_ne_nil hchild
          refine .inr (List.mem_flatMap.mpr ⟨Errand.toValue (some a), ?_, ?_⟩)
          · rw [hvalue.errands, hrest]
            exact List.mem_cons_self
          · exact List.mem_singleton_self _

end Forest.Constant

end Shapes

/-!
## Substituted trees
-/

/-- The tree of `g` is that of `f` with constants in the place of operations. Numbers may be written
in another way. -/
structure Substituted (f g : Forest) (root : NodeId) (c : NodeId → NodeId) : Prop where
  before : f.HasProgram root
  after : g.HasProgram root
  node : ∀ {i n}, f.node? (some i) = some n →
    ∃ n', g.node? (some i) = some n' ∧ n'.Respells (n.map (Option.map c))
  below : ∀ {i}, g.Within i root → i < f.size → i ≠ root → g.parent (some i) = f.parent (some i)
  fresh : ∀ {i}, c i ≠ i → f.size ≤ c i
  gone : ∀ {i}, c i ≠ i → ¬ g.Within i root
  operation : ∀ {i}, c i ≠ i → ∃ n, f.node? (some i) = some n ∧ n.isComputed = true ∧
    childrenOf n ≠ []
  constant : ∀ {i}, c i ≠ i → g.Constant (c i)

namespace Substituted

variable {f g : Forest} {root i j : NodeId} {c : NodeId → NodeId} (h : Substituted f g root c)

include h

theorem carried : Carried f g root c := by
  refine ⟨fun {i n} hn => ?_, h.fresh, h.below⟩
  rcases h.node hn with ⟨n', hn', hrespells⟩
  exact ⟨n', hn', hrespells.carries⟩

theorem root_lt : root < f.size := by
  rcases h.before.node with ⟨statements, hn⟩
  exact lt_size_of_node? hn

/-- A node that is left keeps its name. -/
theorem eq_of_within (hi : g.Within i root) : c i = i := by
  by_contra hne
  exact h.gone hne hi

/-- What is left was not below an operation that is gone. -/
theorem outside (hi : g.Within i root) (hlt : i < f.size) (hj : c j ≠ j) : ¬ f.Within i j := by
  intro hpath
  induction hpath using ReflTransGen.head_induction_on with
  | refl => exact h.gone hj hi
  | @head i q hlink _ ih =>
      have hne : i ≠ root := by
        rintro rfl
        cases h.before.parent.symm.trans hlink
      have hlink' := (h.carried.link hi hlt hne).mpr hlink
      rcases ReflTransGen.cases_head hi with heq | ⟨b, hb, hrest⟩
      · exact hne heq
      · exact ih (Link.unique hb hlink' ▸ hrest) (h.before.wellFormed.lt_size_of_link hlink)

theorem size_le : f.size ≤ g.size := by
  refine Nat.le_of_not_lt fun hlt => ?_
  obtain ⟨n, hn⟩ : ∃ n, f.node? (some g.size) = some n := ⟨_, node?_of_lt hlt⟩
  rcases h.node hn with ⟨n', hn', _⟩
  exact Nat.lt_irrefl _ (lt_size_of_node? hn')

/-- What is left is what was not below an operation that is gone. -/
theorem within_iff_unmoved (hlt : i < f.size) :
    g.Within i root ↔ f.Within i root ∧ ∀ j, f.Within i j → c j = j := by
  constructor
  · intro hi
    refine ⟨h.carried.within h.before.wellFormed hi hlt, fun j hpath => ?_⟩
    by_contra hne
    exact h.outside hi hlt hne hpath
  · rintro ⟨hi, hunmoved⟩
    induction hi using ReflTransGen.head_induction_on with
    | refl => exact .refl
    | @head i q hlink hpath ih =>
        have hq := h.before.wellFormed.lt_size_of_link hlink
        refine .head ?_ (ih hq fun j hj => hunmoved j (.head hlink hj))
        obtain ⟨n, hn⟩ : ∃ n, f.node? (some q) = some n := ⟨_, node?_of_lt hq⟩
        rcases h.node hn with ⟨n', hn', hrespells⟩
        apply h.after.wellFormed.linked.mpr
        have hmem := h.before.wellFormed.linked.mp hlink
        rw [children_of_node? hn] at hmem
        rw [children_of_node? hn', hrespells.children]
        exact List.mem_map.mpr ⟨i, hmem, hunmoved i .refl⟩

/-- Every new node that is found in the tree is part of a constant. -/
theorem within_constant (hi : g.Within i root) (hnew : f.size ≤ i) :
    ∃ j, c j ≠ j ∧ g.Within i (c j) := by
  induction hi using ReflTransGen.head_induction_on with
  | refl => exact absurd h.root_lt (Nat.not_lt.mpr hnew)
  | @head i q hlink hpath ih =>
      by_cases hq : q < f.size
      · rcases h.node (node?_of_lt hq) with ⟨n', hn', hrespells⟩
        have hmem := h.after.wellFormed.linked.mp hlink
        rw [children_of_node? hn', hrespells.children] at hmem
        rcases List.mem_map.mp hmem with ⟨a, ha, rfl⟩
        refine ⟨a, fun heq => ?_, .refl⟩
        have hold : a < f.size := by
          rw [← children_of_node? (node?_of_lt hq)] at ha
          exact h.before.wellFormed.filled ha
        exact Nat.not_lt.mpr (heq ▸ hnew) hold
      · rcases ih (Nat.not_lt.mp hq) with ⟨j, hj, hqj⟩
        exact ⟨j, hj, .head hlink hqj⟩

/-!
### Outlines
-/

/-- What becomes of the outlines up to so many levels. -/
structure Thinner (f g : Forest) (root : NodeId) (c : NodeId → NodeId) (depth : Nat) : Prop where
  node : ∀ {s}, Revised.Live f s →
    Outline.Thins (fun w => ¬ g.Within w root) ((Sketch.ofDepth f depth).node s)
      ((Sketch.ofDepth g depth).node (s.map c))
  pattern : ∀ {names D s}, Revised.Live f s →
    Outline.Thins (fun w => ¬ g.Within w root) ((Sketch.ofDepth f depth).pattern names D s)
      ((Sketch.ofDepth g depth).pattern names D (s.map c))

section Outlines

variable {depth : Nat} {s : Slot} {n n' : Node Slot} (htiered : f.Tiered)

include htiered

theorem thins_moved (hi : c i ≠ i) (depth : Nat) :
    Outline.Thins (fun w => ¬ g.Within w root) ((Sketch.ofDepth f depth).node (some i))
      ((Sketch.ofDepth g depth).node (some (c i))) := by
  rcases h.operation hi with ⟨n, hn, hcomputed, hchild⟩
  refine (h.constant hi).thins h.before.wellFormed htiered hn
    (Node.isValue_of_isComputed hcomputed) hchild (fun {w} hpath hw => ?_) depth
  exact h.outside hw (lt_size_of_within hpath (lt_size_of_node? hn)) hi hpath

omit htiered in
theorem thins_pattern_moved (hi : c i ≠ i) (depth : Nat) (names : NameKind)
    (D D' : Option NodeId) :
    Outline.Thins (fun w => ¬ g.Within w root)
      ((Sketch.ofDepth f depth).pattern names D (some i))
      ((Sketch.ofDepth g depth).pattern names D' (some (c i))) := by
  cases depth with
  | zero => exact .refl _
  | succ depth =>
      rcases h.operation hi with ⟨n, hn, hcomputed, _⟩
      rw [(h.constant hi).pattern]
      simp only [Sketch.ofDepth, hn]
      rw [(Node.isValue_of_isComputed hcomputed).pattern]
      exact .refl _

theorem relates (ih : Thinner f g root c depth) (hs : Revised.Live f s) :
    Sketch.Relates (Outline.Thins fun w => ¬ g.Within w root) f g (Sketch.ofDepth f depth)
      (Sketch.ofDepth g depth) s (s.map c) := by
  have hcongruence := Outline.Thins.congruence fun w => ¬ g.Within w root
  cases s with
  | none => exact .empty hcongruence (ih.node hs) fun _ _ => ih.pattern hs
  | some i =>
      by_cases hi : c i = i
      · obtain ⟨n, hn⟩ : ∃ n, f.node? (some i) = some n := ⟨_, node?_of_lt (hs i rfl)⟩
        rcases h.node hn with ⟨n', hn', hrespells⟩
        have hnode := ih.node hs
        have hpattern := fun names D => @Thinner.pattern _ _ _ _ _ ih names D _ hs
        rw [Option.map_some, hi] at hnode hpattern ⊢
        have hlive : ∀ s ∈ n.slots, Revised.Live f s := fun s hs =>
          Revised.live_of_slot h.before.wellFormed hn hs
        rcases hrespells with rfl | ⟨x, raw, raw', hnumber, rfl⟩
        · exact .mapped hcongruence hn hn' hnode hpattern (fun s hs => ih.node (hlive s hs))
            fun s hs names D => ih.pattern (hlive s hs)
        · obtain rfl := Node.number_of_map hnumber
          refine ⟨hnode, hpattern, fun names => hpattern .., fun kind declaration => ?_,
            .inr (.inr ⟨_, _, hn, hn', nofun, nofun⟩), fun names => ?_⟩
          · rw [Sketch.Nameless.nameOf ⟨hn, rfl, nofun, nofun⟩,
              Sketch.Nameless.nameOf ⟨hn', rfl, nofun, nofun⟩]
            exact .refl _
          · rw [Sketch.declarator_of_ne hn nofun, Sketch.declarator_of_ne hn' nofun]
            exact .refl _
      · rcases h.operation hi with ⟨n, hn, hcomputed, _⟩
        rcases (h.constant hi).nameless with ⟨n', hn'⟩
        exact .nameless hcongruence ((Node.isValue_of_isComputed hcomputed).nameless hn) hn'
          (h.thins_moved htiered hi depth) (h.thins_pattern_moved hi depth)

theorem thinner_ofDepth (depth : Nat) : Thinner f g root c depth := by
  induction depth with
  | zero => exact ⟨fun _ => .refl _, fun _ => .refl _⟩
  | succ depth ih =>
      have hcongruence := Outline.Thins.congruence fun w => ¬ g.Within w root
      have hkept : ∀ {i}, i < f.size → c i = i → ∃ n n', f.node? (some i) = some n ∧
          g.node? (some i) = some n' ∧ n'.Respells (n.map (Option.map c)) ∧
          ∀ s ∈ n.slots, Sketch.Relates (Outline.Thins fun w => ¬ g.Within w root) f g
            (Sketch.ofDepth f depth) (Sketch.ofDepth g depth) s (s.map c) := by
        intro i hlt _
        have hn := node?_of_lt hlt
        rcases h.node hn with ⟨n', hn', hrespells⟩
        exact ⟨_, n', hn, hn', hrespells, fun s hs =>
          h.relates htiered ih (Revised.live_of_slot h.before.wellFormed hn hs)⟩
      constructor
      · intro s hs
        cases s with
        | none => exact .refl _
        | some i =>
            by_cases hi : c i = i
            · rcases hkept (hs i rfl) hi with ⟨n, n', hn, hn', hrespells, hrelates⟩
              rw [Option.map_some, hi]
              simp only [Sketch.ofDepth, hn, hn']
              rcases hrespells with rfl | ⟨x, raw, raw', hnumber, rfl⟩
              · exact Sketch.ofNode_map hcongruence hrelates
              · rw [Node.number_of_map hnumber]
                exact .refl _
            · exact h.thins_moved htiered hi _
      · intro names D s hs
        cases s with
        | none => exact .refl _
        | some i =>
            by_cases hi : c i = i
            · rcases hkept (hs i rfl) hi with ⟨n, n', hn, hn', hrespells, hrelates⟩
              rw [Option.map_some, hi]
              simp only [Sketch.ofDepth, hn, hn']
              rcases hrespells with rfl | ⟨x, raw, raw', hnumber, rfl⟩
              · exact Sketch.ofPattern_map hcongruence hrelates
              · rw [Node.number_of_map hnumber]
                exact .refl _
            · exact h.thins_pattern_moved hi _ _ _ _

theorem thins_outline :
    Outline.Thins (fun w => ¬ g.Within w root) (outline f root) (outline g root) := by
  have hlive : Revised.Live f (some root) := by
    rintro i ⟨⟩
    exact h.root_lt
  have hthins := (h.thinner_ofDepth htiered (Limits.treeDepth + 1)).node hlive
  rwa [Option.map_some, h.eq_of_within .refl] at hthins

/-- The tree is bound as a whole as before. -/
theorem whole (hwhole : (ofForest f (some root)).truncated = false) :
    (ofForest g (some root)).truncated = false := by
  rcases truncated_ofForest.mp hwhole with ⟨houtline, hcut⟩
  refine truncated_ofForest.mpr ⟨(h.thins_outline htiered).whole houtline, fun hcut' => hcut ?_⟩
  have hlive : Revised.Live f (some root) := by
    rintro i ⟨⟩
    exact h.root_lt
  have hroot : (some root).map c = some root := congrArg some (h.eq_of_within .refl)
  rw [route, ← hroot] at hcut'
  refine h.carried.cut_mem_itinerary h.before.wellFormed ?_ ?_ hlive hcut'
  · intro i n n' hn hn' b hb
    rcases h.node hn with ⟨m, hm, hrespells⟩
    obtain rfl := Option.some.inj (hn'.symm.trans hm)
    rw [hrespells.children] at hb
    exact List.mem_map.mp hb
  · intro a depth p o o' ha hcut
    rcases h.operation ha with ⟨n, hn, hcomputed, hchild⟩
    exact (h.constant ha).cut_mem_itinerary hn (Node.isValue_of_isComputed hcomputed) hchild hcut

/-!
### Names
-/

theorem opens_iff (hi : g.Within i root) : Opens g root i ↔ Opens f root i := by
  rw [Opens, Opens, ← Outline.nodes_openers, ← Outline.nodes_openers]
  exact or_congr_right ((h.thins_outline htiered).mem_nodes_iff (not_not_intro hi))

omit htiered in
theorem within_of_opens (hi : Opens g root i) : g.Within i root := by
  rcases hi with rfl | hmem
  · exact .refl
  · rw [← Outline.nodes_openers] at hmem
    exact ((placed_outline h.after .openers).2 i hmem).1

theorem agree : Chart.Agree (fun w => ¬ g.Within w root) (chart f root) (chart g root) := by
  have hroot : ¬ ¬ g.Within root root := not_not_intro .refl
  refine (Chart.Agree.refl _ _).chart (h.thins_outline htiered) (fun w hw => ?_) hroot hroot hroot
  exact not_not_intro ((placed_outline h.after .openers).2 w hw).1

variable {r : Option NodeId}

/-- The names that are left stand for what they stood for. -/
theorem denotes (hi : g.Within i root) (hlt : i < f.size) (hr : Denotes f root i r) :
    Denotes g root i r := by
  have hagree := h.agree htiered
  have hused : ∀ {kind name}, Used g root kind name i ↔ Used f root kind name i :=
    h.carried.used_iff h.before.wellFormed h.after.wellFormed h.before.parent h.after.parent hi hlt
  cases hr with
  | @used kind name x _ hname hx hmeans =>
      have hx' := h.carried.inside (fun hk _ => h.opens_iff htiered hk) h.before.wellFormed hi hlt hx
      refine .used (hused.mpr hname) hx' (hagree.means ?_ (not_not_intro ?_) hmeans)
      · intro y z hy haround
        rw [← hagree.around hy] at haround
        exact not_not_intro (h.within_of_opens (opens_of_around h.after haround))
      · exact h.within_of_opens hx'.opens_end
  | declared hnot =>
      rw [← hagree.named (not_not_intro hi)]
      exact .declared fun kind name hname => hnot kind name (hused.mp hname)

theorem declarationOf_eq (hwhole : (ofForest f (some root)).truncated = false)
    (hi : g.Within i root) (hlt : i < f.size) :
    declarationOf g root i = declarationOf f root i := by
  have hr := denotes_declarationOf h.before hwhole i
  exact (denotes_declarationOf h.after (h.whole htiered hwhole) i).unique
    (h.denotes htiered hi hlt hr)

theorem isSome_resolve_eq (hwhole : (ofForest f (some root)).truncated = false)
    (hi : g.Within i root) (hlt : i < f.size) :
    ((ofForest g (some root)).resolve (some i)).isSome =
      ((ofForest f (some root)).resolve (some i)).isSome := by
  rw [isSome_resolve h.after (h.whole htiered hwhole), isSome_resolve h.before hwhole,
    h.declarationOf_eq htiered hwhole hi hlt]

end Outlines

/-!
### Bodies of `with` statements
-/

omit h in
theorem within_of_link {a q : NodeId} (ha : g.Within a root) (hne : a ≠ root)
    (hlink : g.Link a q) : g.Within q root := by
  rcases ReflTransGen.cases_head ha with heq | ⟨q', hq', hpath⟩
  · exact absurd heq hne
  · exact Link.unique hq' hlink ▸ hpath

/-- Climbing from a node that is left leads through the same nodes as before. -/
theorem within_iff {b : NodeId} (hi : g.Within i root) (hlt : i < f.size) :
    g.Within i b ↔ f.Within i b := by
  have hne : ∀ {k : Forest} {a b : NodeId}, k.parent (some root) = none → k.Link a b →
      a ≠ root := by
    rintro k a b hk hlink rfl
    cases hk.symm.trans hlink
  constructor
  · intro hpath
    induction hpath using ReflTransGen.head_induction_on with
    | refl => exact .refl
    | @head a q hlink _ ih =>
        have hroot := hne h.after.parent hlink
        have hlink' := (h.carried.link hi hlt hroot).mp hlink
        exact .head hlink'
          (ih (within_of_link hi hroot hlink) (h.before.wellFormed.lt_size_of_link hlink'))
  · intro hpath
    induction hpath using ReflTransGen.head_induction_on with
    | refl => exact .refl
    | @head a q hlink _ ih =>
        have hroot := hne h.before.parent hlink
        have hlink' := (h.carried.link hi hlt hroot).mpr hlink
        exact .head hlink'
          (ih (within_of_link hi hroot hlink') (h.before.wellFormed.lt_size_of_link hlink))

/-- A node between a node that is left and the root is left. -/
theorem within_root {b : NodeId} (hi : g.Within i root) (hpath : g.Within i b) :
    g.Within b root := by
  have hunique : Relator.RightUnique g.Link := fun _ _ _ => Link.unique
  rcases ReflTransGen.total_of_right_unique hunique hi hpath with hup | hdown
  · rcases ReflTransGen.cases_head hup with rfl | ⟨q, hlink, _⟩
    · exact .refl
    · cases h.after.parent.symm.trans hlink
  · exact hdown

theorem inWithBody_iff (hi : g.Within i root) (hlt : i < f.size) :
    g.InWithBody i ↔ f.InWithBody i := by
  constructor
  · rintro ⟨x, object, body, hx, hpath⟩
    have hlink : g.Link body x :=
      h.after.wellFormed.link_of_slot hx (List.mem_cons_of_mem _ (List.mem_singleton_self _))
    have hbody := h.within_root hi hpath
    have hpath' := (h.within_iff hi hlt).mp hpath
    have hbody' : body ≠ root := by
      rintro rfl
      cases h.after.parent.symm.trans hlink
    have hbodylt : body < f.size := by
      rcases ReflTransGen.cases_tail hpath' with rfl | ⟨_, _, hb⟩
      · exact hlt
      · exact h.before.wellFormed.lt_size_of_link hb
    have hlink' := (h.carried.link hbody hbodylt hbody').mp hlink
    obtain ⟨n, hn⟩ : ∃ n, f.node? (some x) = some n :=
      ⟨_, node?_of_lt (h.before.wellFormed.lt_size_of_link hlink')⟩
    rcases h.node hn with ⟨n', hn', hrespells⟩
    obtain rfl := Option.some.inj (hx.symm.trans hn')
    rcases hrespells with heq | ⟨_, _, _, _, heq⟩
    · cases n with
      | guarded form condition statement =>
          cases form with
          | withObject =>
              have hstatement : some body = statement.map c := (Node.guarded.inj heq).2.2
              rcases Option.map_eq_some_iff.mp hstatement.symm with ⟨b, rfl, hb⟩
              obtain rfl := h.carried.eq_of_renamed hbodylt hb
              exact ⟨x, condition, b, hn, hpath'⟩
          | _ => cases heq
      | _ => cases heq
    · cases heq
  · rintro ⟨x, object, body, hx, hpath⟩
    have hpath' := (h.within_iff hi hlt).mpr hpath
    have hbody := h.eq_of_within (h.within_root hi hpath')
    rcases h.node hx with ⟨n', hn', hrespells⟩
    rcases hrespells with rfl | ⟨_, _, _, heq, _⟩
    · refine ⟨x, object.map c, body, hn'.trans (congrArg some ?_), hpath'⟩
      change Node.guarded _ _ (some (c body)) = _
      rw [hbody]
      rfl
    · cases heq

theorem isDynamic_eq (htiered : f.Tiered)
    (hwhole : (ofForest f (some root)).truncated = false) (hi : g.Within i root)
    (hlt : i < f.size) :
    (ofForest g (some root)).isDynamic (some i) = (ofForest f (some root)).isDynamic (some i) := by
  have hused : ∀ {kind name}, Used g root kind name i ↔ Used f root kind name i :=
    h.carried.used_iff h.before.wellFormed h.after.wellFormed h.before.parent h.after.parent hi hlt
  rw [Bool.eq_iff_iff,
    isDynamic_iff_used h.after.wellFormed h.after.parent (h.whole htiered hwhole),
    isDynamic_iff_used h.before.wellFormed h.before.parent hwhole, h.inWithBody_iff hi hlt]
  simp only [hused]

end Substituted
end Untangle
