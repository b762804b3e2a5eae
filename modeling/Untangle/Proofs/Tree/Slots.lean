import Mathlib.Data.List.Forall2
import Untangle.Tree.Forest
import Untangle.Tree.Node

/-!
# The slots of a node

A node is its payload together with the contents of its child slots. What rebuilds a node from an
action on its slots, or exchanges its list of children, is described here by what happens to the
list of slots, so that later arguments about children never split on the form of a node. A node
whose children are renamed has the same payload and the renamed children in the same slots, and that
determines it.
-/

namespace Untangle
namespace Node

variable {α β σ : Type}

/-!
## Actions on slots
-/

theorem run_mapM_cons (f : α → StateM σ β) (a : α) (l : List α) (s : σ) :
    ((a :: l).mapM f).run s =
      (((f a).run s).1 :: ((l.mapM f).run ((f a).run s).2).1,
        ((l.mapM f).run ((f a).run s).2).2) := by
  rw [List.mapM_cons]
  rfl

theorem slots_mapM {m : Type → Type} [Monad m] [LawfulMonad m] (f : α → m β) (n : Node α) :
    slots <$> n.mapM f = n.slots.mapM f := by
  cases n with
  | guarded form condition statement => cases form <;> simp [mapM, slots]
  | _ => simp [mapM, slots]

theorem run_mapM_slots (f : α → StateM σ β) (n : Node α) (s : σ) :
    (n.slots.mapM f).run s = (((n.mapM f).run s).1.slots, ((n.mapM f).run s).2) := by
  rw [← slots_mapM]
  rfl

/-!
## Payloads
-/

/-- The payload of a node: the node with nothing in its slots. -/
def blank (n : Node α) : Node Unit :=
  n.map fun _ => ()

theorem mapM_unit_run_mapM (f : α → StateM σ β) (l : List α) (s : σ) :
    ((l.mapM f).run s).1.mapM (fun _ => (pure () : Id Unit)) =
      l.mapM fun _ => (pure () : Id Unit) := by
  induction l generalizing s with
  | nil => rfl
  | cons a l ih =>
      rw [run_mapM_cons, List.mapM_cons, List.mapM_cons, ih]

/-- An action on the slots keeps the payload. -/
theorem blank_run_mapM (f : α → StateM σ β) (n : Node α) (s : σ) :
    ((n.mapM f).run s).1.blank = n.blank := by
  cases n with
  | body form statements => exact congrArg (body form) (mapM_unit_run_mapM f statements s)
  | variableStatement kind declarators =>
      exact congrArg (variableStatement kind) (mapM_unit_run_mapM f declarators s)
  | function form ident parameters code isAsync isGenerator =>
      exact congrArg (function form () · () isAsync isGenerator)
        (mapM_unit_run_mapM f parameters _)
  | classLike form ident heritage members =>
      exact congrArg (classLike form () ()) (mapM_unit_run_mapM f members _)
  | guarded form condition statement => cases form <;> rfl
  | switch subject clauses => exact congrArg (switch ()) (mapM_unit_run_mapM f clauses _)
  | caseClause test statements =>
      exact congrArg (caseClause ()) (mapM_unit_run_mapM f statements _)
  | template quasis expressions =>
      exact congrArg (template quasis) (mapM_unit_run_mapM f expressions s)
  | list form elements => exact congrArg (list form) (mapM_unit_run_mapM f elements s)
  | call form callee arguments isOptional inChain =>
      exact congrArg (call form () · isOptional inChain) (mapM_unit_run_mapM f arguments _)
  | _ => rfl

/-!
## The list among the slots
-/

/-- Where the list of children lies among the slots: its start and its length. -/
def listPlace? : Node α → Option (Nat × Nat)
  | body _ statements => some (0, statements.length)
  | variableStatement _ declarators => some (0, declarators.length)
  | function _ _ parameters _ _ _ => some (1, parameters.length)
  | classLike _ _ _ members => some (2, members.length)
  | switch _ clauses => some (1, clauses.length)
  | caseClause _ statements => some (1, statements.length)
  | template _ expressions => some (0, expressions.length)
  | list _ elements => some (0, elements.length)
  | call _ _ arguments _ _ => some (1, arguments.length)
  | _ => none

theorem listPlace?_blank (n : Node α) : n.blank.listPlace? = n.listPlace? := by
  cases n with
  | guarded form condition statement => cases form <;> rfl
  | _ => simp [blank, map, mapM, listPlace?]

theorem entries?_eq (n : Node α) :
    n.entries? = n.listPlace?.map fun place => (n.slots.drop place.1).take place.2 := by
  cases n with
  | guarded form condition statement => cases form <;> rfl
  | _ => simp [entries?, listPlace?, slots]

theorem slots_withEntries {n : Node α} {start length : Nat}
    (h : n.listPlace? = some (start, length)) (new : List α) :
    (n.withEntries new).slots =
      n.slots.take start ++ new ++ n.slots.drop (start + length) := by
  cases n with
  | guarded form condition statement => cases form <;> cases h
  | _ =>
      simp only [listPlace?, Option.some.injEq, Prod.mk.injEq, reduceCtorEq] at h
      try (obtain ⟨rfl, rfl⟩ := h; simp [withEntries, slots, Nat.add_comm])

theorem entries?_withEntries {n : Node α} {old : List α} (h : n.entries? = some old)
    (new : List α) : (n.withEntries new).entries? = some new := by
  cases n with
  | _ => first | rfl | cases h

/-- The slots split around the list of children, and only the list changes with the entries. -/
theorem slots_split {n : Node α} {old : List α} (h : n.entries? = some old) :
    ∃ before after, n.slots = before ++ old ++ after ∧
      ∀ new, (n.withEntries new).slots = before ++ new ++ after := by
  rw [entries?_eq, Option.map_eq_some_iff] at h
  rcases h with ⟨⟨start, length⟩, hplace, hold⟩
  refine ⟨n.slots.take start, n.slots.drop (start + length), ?_, slots_withEntries hplace⟩
  rw [← hold, List.append_assoc, ← List.drop_drop, List.take_append_drop,
    List.take_append_drop]

/-- Nodes of one payload have their lists at the same place. -/
theorem forall₂_entries {R : α → β → Prop} {n : Node α} {n' : Node β}
    (hblank : n'.blank = n.blank) (hslots : List.Forall₂ R n.slots n'.slots) {new : List β}
    (h : n'.entries? = some new) :
    ∃ old, n.entries? = some old ∧ List.Forall₂ R old new := by
  have hplace : n'.listPlace? = n.listPlace? := by
    rw [← listPlace?_blank n', hblank, listPlace?_blank]
  rw [entries?_eq, hplace, Option.map_eq_some_iff] at h
  rcases h with ⟨⟨start, length⟩, hold, hnew⟩
  refine ⟨(n.slots.drop start).take length, ?_, ?_⟩
  · rw [entries?_eq, hold]
    rfl
  · rw [← hnew]
    exact List.forall₂_take _ (List.forall₂_drop _ hslots)

/-- An entry of a node comes from an entry of any node with the same payload. -/
theorem exists_mem_entries {R : α → β → Prop} {n : Node α} {n' : Node β}
    (hblank : n'.blank = n.blank) (hslots : List.Forall₂ R n.slots n'.slots) {new : List β}
    (h : n'.entries? = some new) {b : β} (hb : b ∈ new) :
    ∃ old a, n.entries? = some old ∧ a ∈ old ∧ R a b := by
  rcases forall₂_entries hblank hslots h with ⟨old, hold, hall⟩
  rcases List.getElem_of_mem hb with ⟨k, hk, rfl⟩
  have hk' : k < old.length := hall.length_eq ▸ hk
  exact ⟨old, old[k], hold, List.getElem_mem hk', hall.get hk' hk⟩

/-!
## Replacing one slot
-/

/-- What replacing does at one slot; the state tells whether it is done. -/
def replaceStep [BEq α] (a b slot : α) : StateM Bool α := fun done =>
  if !done && slot == a then (b, true) else (slot, done)

variable [BEq α]

theorem mapM_replaceStep_of_done (a b : α) (l : List α) :
    (l.mapM (replaceStep a b)).run true = (l, true) := by
  induction l with
  | nil => rfl
  | cons c l ih =>
      rw [run_mapM_cons]
      change (c :: ((l.mapM (replaceStep a b)).run true).1, _) = _
      rw [ih]
      exact congrArg (Prod.mk _) (congrArg Prod.snd ih)

theorem blank_replaceFirst (n : Node α) (a b : α) :
    (n.replaceFirst a b).1.blank = n.blank :=
  blank_run_mapM (replaceStep a b) n false

variable [LawfulBEq α]

theorem mapM_replaceStep (a b : α) (l : List α) :
    (l.mapM (replaceStep a b)).run false = (l.replace a b, l.contains a) := by
  induction l with
  | nil => rfl
  | cons c l ih =>
      rw [run_mapM_cons]
      by_cases h : c = a
      · have hstep : (replaceStep a b c).run false = (b, true) := by
          simp [replaceStep, StateT.run, h]
        rw [hstep, mapM_replaceStep_of_done]
        simp [h]
      · have hstep : (replaceStep a b c).run false = (c, false) := by
          simp [replaceStep, StateT.run, h]
        rw [hstep, ih]
        simp [List.replace_cons, beq_false_of_ne (Ne.symm h), Ne.symm h]

theorem slots_replaceFirst (n : Node α) (a b : α) :
    (n.replaceFirst a b).1.slots = n.slots.replace a b := by
  have h := run_mapM_slots (replaceStep a b) n false
  rw [mapM_replaceStep] at h
  exact (congrArg Prod.fst h).symm

theorem replaceFirst_found (n : Node α) (a b : α) :
    (n.replaceFirst a b).2 = n.slots.contains a := by
  have h := run_mapM_slots (replaceStep a b) n false
  rw [mapM_replaceStep] at h
  exact (congrArg Prod.snd h).symm

theorem forall₂_replace (a b : α) (l : List α) :
    List.Forall₂ (fun x y => y = x ∨ (x = a ∧ y = b)) l (l.replace a b) := by
  induction l with
  | nil => exact .nil
  | cons c l ih =>
      by_cases h : c = a
      · rw [h, List.replace_cons_self]
        exact .cons (.inr ⟨rfl, rfl⟩) (List.forall₂_same.mpr fun x _ => .inl rfl)
      · rw [List.replace_cons, beq_false_of_ne (Ne.symm h)]
        exact .cons (.inl rfl) ih

end Node

namespace Forest

/-!
## Filled slots
-/

theorem filterMap_id_map (c : NodeId → NodeId) (slots : List Slot) :
    (slots.map (Option.map c)).filterMap id = (slots.filterMap id).map c := by
  induction slots with
  | nil => rfl
  | cons s slots ih =>
      cases s with
      | none => exact ih
      | some i => exact congrArg (c i :: ·) ih

theorem filterMap_id_erase (slots : List Slot) (d : NodeId) :
    (slots.erase (some d)).filterMap id = (slots.filterMap id).erase d := by
  induction slots with
  | nil => rfl
  | cons s slots ih =>
      cases s with
      | none => exact ih
      | some i =>
          by_cases hi : i = d
          · subst hi
            simp
          · simpa [List.erase_cons_tail, hi] using ih

/-- Replacing the only slot with some content is a renaming. -/
theorem replace_eq_map {a b : Slot} {slots : List Slot} (ha : a.isSome)
    (hnodup : (slots.filterMap id).Nodup) :
    slots.replace a b = slots.map fun s => if s = a then b else s := by
  induction slots with
  | nil => rfl
  | cons s slots ih =>
      by_cases hs : s = a
      · subst hs
        obtain ⟨i, rfl⟩ := Option.isSome_iff_exists.mp ha
        rw [List.filterMap_cons_some (f := id) rfl, List.nodup_cons] at hnodup
        have hrest : slots.map (fun s => if s = some i then b else s) = slots :=
          (List.map_congr_left fun t ht => if_neg fun heq => hnodup.1
            (List.mem_filterMap.mpr ⟨t, ht, heq⟩)).trans (List.map_id _)
        rw [List.replace_cons_self, List.map_cons, if_pos rfl, hrest]
      · rw [List.replace_cons, beq_false_of_ne (Ne.symm hs), List.map_cons, if_neg hs]
        refine congrArg (s :: ·) (ih ?_)
        cases s with
        | none => exact hnodup
        | some i =>
            rw [List.filterMap_cons_some (f := id) rfl, List.nodup_cons] at hnodup
            exact hnodup.2

end Forest

namespace Node

variable {α β : Type}

/-!
## Renaming children
-/

theorem slots_map (σ : α → β) (n : Node α) : (n.map σ).slots = n.slots.map σ := by
  cases n with
  | guarded form condition statement => cases form <;> simp [map, mapM, slots]
  | _ => simp [map, mapM, slots]

theorem blank_map (σ : α → β) (n : Node α) : (n.map σ).blank = n.blank := by
  cases n with
  | guarded form condition statement => cases form <;> rfl
  | _ => simp [blank, map, mapM]

theorem map_id (n : Node α) : n.map id = n := by
  cases n with
  | guarded form condition statement => cases form <;> rfl
  | _ => simp [map, mapM]

theorem map_body (σ : α → β) (form : BodyForm) (statements : List α) :
    (body form statements).map σ = body form (statements.map σ) := by
  simp [map, mapM]

theorem map_function (σ : α → β) (form : FunctionForm) (ident : α) (parameters : List α)
    (code : α) (isAsync isGenerator : Bool) :
    (function form ident parameters code isAsync isGenerator).map σ =
      function form (σ ident) (parameters.map σ) (σ code) isAsync isGenerator := by
  simp [map, mapM]

theorem childrenOf_map (c : NodeId → NodeId) (n : Node Slot) :
    Forest.childrenOf (n.map (Option.map c)) = (Forest.childrenOf n).map c := by
  rw [Forest.childrenOf, slots_map, Forest.filterMap_id_map, Forest.childrenOf]

/-!
## Payload and slots
-/

/-- Take the next content for a slot. -/
def pop (_ : Unit) : StateM (List Slot) Slot := fun contents =>
  (contents.headD none, contents.tail)

/-- Put contents into the slots of a payload. -/
def refill (n : Node Unit) (contents : List Slot) : Node Slot :=
  ((n.mapM pop).run contents).1

/-- The payload of a list. -/
def blanks (slots : List Slot) : List Unit :=
  slots.mapM fun _ => (Pure.pure () : Id Unit)

theorem run_mapM_pop (slots contents : List Slot) :
    ((blanks slots).mapM pop).run (slots ++ contents) = (slots, contents) := by
  induction slots with
  | nil => rfl
  | cons s slots ih =>
      have hcons : blanks (s :: slots) = () :: blanks slots := by
        rw [blanks, List.mapM_cons]
        rfl
      have hpop : (pop ()).run (s :: slots ++ contents) = (s, slots ++ contents) := rfl
      rw [hcons, run_mapM_cons, hpop, ih]

theorem run_mapM_pop_all (slots : List Slot) :
    ((blanks slots).mapM pop).run slots = (slots, []) := by
  have h := run_mapM_pop slots []
  rwa [List.append_nil] at h

theorem refill_blank (n : Node Slot) : n.blank.refill n.slots = n := by
  cases n with
  | body form statements => exact congrArg (body form ·.1) (run_mapM_pop_all statements)
  | variableStatement kind declarators =>
      exact congrArg (variableStatement kind ·.1) (run_mapM_pop_all declarators)
  | function form ident parameters code isAsync isGenerator =>
      exact congrArg
        (fun r => function form ident r.1 ((pop ()).run r.2).1 isAsync isGenerator)
        (run_mapM_pop parameters [code])
  | classLike form ident heritage members =>
      exact congrArg (classLike form ident heritage ·.1) (run_mapM_pop_all members)
  | guarded form condition statement => cases form <;> rfl
  | switch subject clauses => exact congrArg (switch subject ·.1) (run_mapM_pop_all clauses)
  | caseClause test statements =>
      exact congrArg (caseClause test ·.1) (run_mapM_pop_all statements)
  | template quasis expressions =>
      exact congrArg (template quasis ·.1) (run_mapM_pop_all expressions)
  | list form elements => exact congrArg (list form ·.1) (run_mapM_pop_all elements)
  | call form callee arguments isOptional inChain =>
      exact congrArg (fun r => call form callee r.1 isOptional inChain)
        (run_mapM_pop_all arguments)
  | _ => rfl

/-- A node is its payload with contents in its slots. -/
theorem eq_of_blank_of_slots {n m : Node Slot} (hblank : n.blank = m.blank)
    (hslots : n.slots = m.slots) : n = m := by
  rw [← refill_blank n, hblank, hslots, refill_blank]

theorem map_congr {σ τ : Slot → Slot} {n : Node Slot} (h : ∀ s ∈ n.slots, σ s = τ s) :
    n.map σ = n.map τ := by
  apply eq_of_blank_of_slots
  · rw [blank_map, blank_map]
  · rw [slots_map, slots_map]
    exact List.map_congr_left h

theorem map_map {σ τ : Slot → Slot} (n : Node Slot) : (n.map σ).map τ = n.map (τ ∘ σ) := by
  apply eq_of_blank_of_slots
  · rw [blank_map, blank_map, blank_map]
  · rw [slots_map, slots_map, slots_map, List.map_map]

theorem replaceFirst_eq_map {n : Node Slot} {a b : NodeId}
    (hnodup : (Forest.childrenOf n).Nodup) :
    (n.replaceFirst (some a) (some b)).1 = n.map (Option.map (Function.update id a b)) := by
  apply eq_of_blank_of_slots
  · rw [blank_replaceFirst, blank_map]
  · rw [slots_replaceFirst, slots_map, Forest.replace_eq_map rfl hnodup]
    refine List.map_congr_left fun s _ => ?_
    cases s with
    | none => rfl
    | some k => by_cases hk : k = a <;> simp [Function.update, hk]

end Node
end Untangle
