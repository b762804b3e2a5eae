import Untangle.Proofs.Grammar.Roles

/-!
# Trees and their roles

A tree has a role if its root asks only for roles that its children have. Adding nodes changes no
tree that stands already, and a change inside one tree leaves the trees beside it alone.
-/

namespace Untangle

/-- A node and its role. -/
abbrev Held := NodeId × Role

/-!
## Filled slots
-/

namespace Role

variable {slots slots' : List Slot} {roles roles' : List Role} {held held' : List Held}
  {items : List NodeId} {role : Role} {entry : Bool → Role} {c : NodeId}

/-- The nodes in the slots with the roles that are asked of them. Only plain slots may be
empty. -/
def gather : List Slot → List Role → Option (List Held)
  | [], [] => some []
  | none :: slots, .plain :: roles => gather slots roles
  | some i :: slots, role :: roles => (gather slots roles).map ((i, role) :: ·)
  | _, _ => none

/-- The children of a node of the role, with their roles. -/
def held? (role : Role) (n : Node Slot) : Option (List Held) :=
  (role.roles n).bind (gather n.slots)

theorem gather_map_some (h : roles.length = items.length) :
    gather (items.map some) roles = some (items.zip roles) := by
  induction items generalizing roles with
  | nil =>
      obtain rfl := List.length_eq_zero_iff.mp h
      rfl
  | cons i items ih =>
      cases roles with
      | nil => cases h
      | cons role roles =>
          rw [List.map_cons, gather, ih (Nat.succ.inj h)]
          rfl

theorem gather_append (h : gather slots roles = some held)
    (h' : gather slots' roles' = some held') :
    gather (slots ++ slots') (roles ++ roles') = some (held ++ held') := by
  fun_induction gather slots roles generalizing held with
  | case1 =>
      obtain rfl := Option.some.inj h
      exact h'
  | case2 slots roles ih => exact ih h
  | case3 i slots role roles ih =>
      rcases Option.map_eq_some_iff.mp h with ⟨rest, hrest, rfl⟩
      rw [List.cons_append, List.cons_append, gather, ih hrest]
      rfl
  | case4 => cases h

theorem map_fst_of_gather (h : gather slots roles = some held) :
    held.map Prod.fst = slots.filterMap id := by
  fun_induction gather slots roles generalizing held with
  | case1 =>
      obtain rfl := Option.some.inj h
      rfl
  | case2 slots roles ih => exact ih h
  | case3 i slots role roles ih =>
      rcases Option.map_eq_some_iff.mp h with ⟨rest, hrest, rfl⟩
      rw [List.map_cons, ih hrest]
      rfl
  | case4 => cases h

theorem mem_of_gather (h : gather slots roles = some held) :
    (c, role) ∈ held ↔ (some c, role) ∈ slots.zip roles := by
  fun_induction gather slots roles generalizing held with
  | case1 =>
      obtain rfl := Option.some.inj h
      simp
  | case2 slots roles ih => simpa using ih h
  | case3 i slots role' roles ih =>
      rcases Option.map_eq_some_iff.mp h with ⟨rest, hrest, rfl⟩
      simp [ih hrest]
  | case4 => cases h

/-- An empty slot is plain. -/
theorem eq_plain_of_gather (h : gather slots roles = some held)
    (hnone : (none, role) ∈ slots.zip roles) : role = .plain := by
  fun_induction gather slots roles generalizing held with
  | case1 => cases hnone
  | case2 slots roles ih =>
      rcases List.mem_cons.mp hnone with heq | hnone
      · exact (Prod.mk.inj heq).2
      · exact ih h hnone
  | case3 i slots role' roles ih =>
      rcases Option.map_eq_some_iff.mp h with ⟨rest, hrest, rfl⟩
      rcases List.mem_cons.mp hnone with heq | hnone
      · cases heq
      · exact ih hrest hnone
  | case4 => cases h

theorem length_of_gather (h : gather slots roles = some held) : roles.length = slots.length := by
  fun_induction gather slots roles generalizing held with
  | case1 => rfl
  | case2 slots roles ih => exact congrArg Nat.succ (ih h)
  | case3 i slots role roles ih =>
      rcases Option.map_eq_some_iff.mp h with ⟨rest, hrest, rfl⟩
      exact congrArg Nat.succ (ih hrest)
  | case4 => cases h

variable {n : Node Slot}

theorem map_fst_of_held? (h : role.held? n = some held) :
    held.map Prod.fst = Forest.childrenOf n := by
  rcases Option.bind_eq_some_iff.mp h with ⟨roles, _, hgather⟩
  exact map_fst_of_gather hgather

theorem Fits.held? {role' : Role} (hfits : role.Fits role') (h : role.held? n = some held) :
    role'.held? n = some held := by
  rcases Option.bind_eq_some_iff.mp h with ⟨roles, hroles, hgather⟩
  exact Option.bind_eq_some_iff.mpr ⟨roles, hfits hroles, hgather⟩

/-!
## Lists of entries
-/

/-- The items of a list with the roles of their places. -/
def heldLast (entry : Bool → Role) (items : List NodeId) : List Held :=
  items.zip (lastly entry items)

def plainly (items : List NodeId) : List Held :=
  items.map (·, .plain)

theorem plainly_reverse_cons (i : NodeId) (reversed : List NodeId) :
    plainly (i :: reversed).reverse = plainly reversed.reverse ++ [(i, .plain)] := by
  simp [plainly]

theorem heldLast_const (items : List NodeId) : heldLast (fun _ => role) items =
    items.map (·, role) := by
  rw [heldLast, lastly_const]
  induction items with
  | nil => rfl
  | cons i items ih => exact congrArg _ ih

theorem map_fst_heldLast (items : List NodeId) : (heldLast entry items).map Prod.fst = items :=
  List.map_fst_zip (Nat.le_of_eq (length_lastly items).symm)

theorem gather_heldLast (items : List NodeId) :
    gather (items.map some) (lastly entry (items.map some)) = some (heldLast entry items) := by
  rw [lastly_map, gather_map_some (length_lastly items)]
  rfl

theorem gather_const (items : List NodeId) :
    gather (items.map some) ((items.map some).map fun _ => role) = some (items.map (·, role)) := by
  rw [← lastly_const, gather_heldLast, heldLast_const]

/-- Plain slots ask for what they hold. -/
theorem gather_plain (slots : List Slot) :
    gather slots (slots.map fun _ => .plain) = some (plainly (slots.filterMap id)) := by
  induction slots with
  | nil => rfl
  | cons s slots ih =>
      cases s with
      | none => exact ih
      | some i =>
          rw [List.map_cons, gather, ih]
          rfl

end Role

/-!
## Trees
-/

namespace Forest

variable {f g : Forest} {role role' : Role} {i : NodeId} {n : Node Slot} {held rest : List Held}
  {start stop : Nat}

/-- The tree at the node is one of the role. -/
inductive HasRole (f : Forest) : Role → NodeId → Prop
  | node {role : Role} {i : NodeId} {n : Node Slot} {held : List Held}
      (hn : f.node? (some i) = some n) (hheld : role.held? n = some held)
      (hchildren : ∀ child ∈ held, f.HasRole child.2 child.1) : f.HasRole role i

theorem HasRole.fits (h : f.HasRole role i) (hfits : role.Fits role') : f.HasRole role' i := by
  cases h with
  | node hn hheld hchildren => exact .node hn (hfits.held? hheld) hchildren

theorem link_of_held (hf : f.WellFormed) (hn : f.node? (some i) = some n)
    (hheld : role.held? n = some held) {child : Held} (hchild : child ∈ held) :
    f.Link child.1 i := by
  have hmem : child.1 ∈ childrenOf n := Role.map_fst_of_held? hheld ▸ List.mem_map_of_mem hchild
  exact hf.linked.mpr (children_of_node? hn ▸ hmem)

/-- The slots of a node hold what it asks for. -/
structure Asks (f : Forest) (n : Node Slot) (roles : List Role) : Prop where
  length : roles.length = n.slots.length
  filled : ∀ {role}, (none, role) ∈ n.slots.zip roles → role = .plain
  child : ∀ {c role}, (some c, role) ∈ n.slots.zip roles → f.HasRole role c

theorem HasRole.asks (h : f.HasRole role i) (hn : f.node? (some i) = some n) :
    ∃ roles, role.roles n = some roles ∧ f.Asks n roles := by
  cases h with
  | node hn' hheld hchildren =>
      obtain rfl := Option.some.inj (hn.symm.trans hn')
      rcases Option.bind_eq_some_iff.mp hheld with ⟨roles, hroles, hgather⟩
      refine ⟨roles, hroles, Role.length_of_gather hgather, Role.eq_plain_of_gather hgather, ?_⟩
      intro c role hc
      exact hchildren (c, role) ((Role.mem_of_gather hgather).mpr hc)

theorem Asks.exists_role {s : Slot} {roles : List Role} (h : f.Asks n roles) (hs : s ∈ n.slots) :
    ∃ role, (s, role) ∈ n.slots.zip roles := by
  rw [← List.map_fst_zip (Nat.le_of_eq h.length.symm), List.mem_map] at hs
  rcases hs with ⟨⟨_, role⟩, hmem, rfl⟩
  exact ⟨role, hmem⟩

/-- A slot that is not plain is filled. -/
theorem Asks.exists_child {s : Slot} {roles : List Role} (h : f.Asks n roles)
    (hmem : (s, role) ∈ n.slots.zip roles) (hrole : role ≠ .plain) :
    ∃ c, s = some c ∧ f.HasRole role c := by
  cases s with
  | none => exact absurd (h.filled hmem) hrole
  | some c => exact ⟨c, rfl, h.child hmem⟩

/-- What may be plain asks for the same in every role. -/
theorem HasRole.asks_of_plainRoles {roles : List Role} (h : f.HasRole role i)
    (hn : f.node? (some i) = some n) (hplain : n.plainRoles = some roles) : f.Asks n roles := by
  rcases h.asks hn with ⟨roles', hroles, hasks⟩
  exact Role.eq_of_plainRoles hroles hplain ▸ hasks

/-- Only the nodes of a tree matter for its role. -/
theorem HasRole.congr (hf : f.WellFormed) (h : f.HasRole role i)
    (hsame : ∀ k, f.Within k i → g.node? (some k) = f.node? (some k)) : g.HasRole role i := by
  induction h with
  | node hn hheld _ ih =>
      refine .node ((hsame _ .refl).trans hn) hheld fun child hchild => ?_
      exact ih child hchild fun k hk => hsame k (hk.tail (link_of_held hf hn hheld hchild))

theorem HasRole.add (h : f.HasRole role i) : (f.add n start stop).2.HasRole role i := by
  induction h with
  | node hn hheld _ ih =>
      refine .node ?_ hheld ih
      rwa [node?_add_of_ne (Nat.ne_of_lt (lt_size_of_node? hn))]

/-!
## Rows of trees
-/

/-- A row of trees with the given roots, which have the given roles. -/
structure GrownAs (f : Forest) (held : List Held) : Prop where
  grown : f.Grown (held.map Prod.fst)
  roles : ∀ root ∈ held, f.HasRole root.2 root.1

theorem grownAs_empty : Forest.empty.GrownAs [] :=
  ⟨grown_empty, fun _ hmem => nomatch hmem⟩

theorem GrownAs.perm {held' : List Held} (h : f.GrownAs held) (hperm : held.Perm held') :
    f.GrownAs held' :=
  ⟨h.grown.perm (hperm.map _), fun root hroot => h.roles root (hperm.mem_iff.mpr hroot)⟩

/-- A new node takes the first trees as its children. -/
theorem GrownAs.add (h : f.GrownAs (held ++ rest)) (hheld : role.held? n = some held)
    (hn : FullEntries n) : (f.add n start stop).2.GrownAs ((f.size, role) :: rest) := by
  have hgrown := h.grown
  rw [List.map_append, Role.map_fst_of_held? hheld] at hgrown
  refine ⟨hgrown.add hn, fun root hroot => ?_⟩
  rcases List.mem_cons.mp hroot with rfl | hroot
  · exact .node node?_add_self hheld fun child hchild =>
      (h.roles child (List.mem_append_left _ hchild)).add
  · exact (h.roles root (List.mem_append_right _ hroot)).add

/-- One of the trees counts as one of another role. -/
theorem GrownAs.recast (h : f.GrownAs (held ++ (i, role) :: rest)) (hrole : f.HasRole role' i) :
    f.GrownAs (held ++ (i, role') :: rest) := by
  refine ⟨?_, fun root hroot => ?_⟩
  · simpa using h.grown
  · rcases List.mem_append.mp hroot with hroot | hroot
    · exact h.roles root (List.mem_append_left _ hroot)
    · rcases List.mem_cons.mp hroot with rfl | hroot
      · exact hrole
      · exact h.roles root (List.mem_append_right _ (List.mem_cons_of_mem _ hroot))

end Forest
end Untangle
