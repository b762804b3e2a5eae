import Untangle.Grammar.Name
import Untangle.Proofs.Grammar.RoleTrees

/-!
# Actions that build trees

A parsing action either leaves the forest as it is or takes some roots and leaves others in their
place. Which roots it leaves, and in which roles, is said by a relation between its answer and a
list of nodes, so that actions compose whatever trees stand beside them.
-/

namespace Untangle
namespace Parse

open Forest Role

variable {α β : Type}

/-!
## Runs
-/

section Runs

variable {ctx : Context} {s s' : ParseState}

theorem run_pure {a b : α} :
    (pure a : Parse α) ctx s = .ok (b, s') ↔ a = b ∧ s = s' := by
  change Except.ok (a, s) = .ok (b, s') ↔ _
  rw [Except.ok.injEq, Prod.mk.injEq]

theorem run_bind {act : Parse α} {k : α → Parse β} {b : β} {s'' : ParseState} :
    (act >>= k) ctx s = .ok (b, s'') ↔
      ∃ a s', act ctx s = .ok (a, s') ∧ k a ctx s' = .ok (b, s'') := by
  change (act ctx s >>= fun p => k p.1 ctx p.2) = _ ↔ _
  cases act ctx s with
  | error e =>
      constructor
      · intro h
        cases h
      · rintro ⟨a, t, h, _⟩
        cases h
  | ok p =>
      constructor
      · intro h
        exact ⟨p.1, p.2, rfl, h⟩
      · rintro ⟨a, t, h, hk⟩
        cases h
        exact hk

theorem run_throw {e : SyntaxError} {a : α} : (throw e : Parse α) ctx s ≠ .ok (a, s') := by
  intro h
  cases h

theorem run_get {t : ParseState} : (get : Parse ParseState) ctx s = .ok (t, s') ↔ s = t ∧ s = s' :=
  @run_pure ParseState ctx s s' s t

theorem run_read {t : Context} : (read : Parse Context) ctx s = .ok (t, s') ↔ ctx = t ∧ s = s' :=
  @run_pure Context ctx s s' ctx t

end Runs

/-!
## Actions that only look
-/

/-- The state stays as it is. -/
def Still (act : Parse α) : Prop :=
  ∀ ⦃ctx s a s'⦄, act ctx s = .ok (a, s') → s' = s

namespace Still

variable {act : Parse α} {k : α → Parse β}

theorem pure (a : α) : Still (pure a : Parse α) :=
  fun _ _ _ _ h => (run_pure.mp h).2.symm

theorem bind (hact : Still act) (hk : ∀ a, Still (k a)) : Still (act >>= k) := by
  intro ctx s b s'' h
  rcases run_bind.mp h with ⟨a, s', ha, hb⟩
  exact (hk a hb).trans (hact ha)

theorem get : Still get :=
  fun _ _ _ _ h => (run_get.mp h).2.symm

theorem read : Still read :=
  fun _ _ _ _ h => (run_read.mp h).2.symm

theorem throw (e : SyntaxError) : Still (throw e : Parse α) :=
  fun _ _ _ _ h => absurd h run_throw

theorem ite {c : Prop} [Decidable c] {other : Parse α} (h : Still act) (hother : Still other) :
    Still (if c then act else other) := by
  split
  · exact h
  · exact hother

theorem forM {items : List α} {act : α → Parse PUnit} (hact : ∀ a, Still (act a)) :
    Still (items.forM act) := by
  induction items with
  | nil => exact pure _
  | cons a items ih => exact bind (hact a) fun _ => ih

theorem failAt (offset : Nat) (cause : SyntaxError.Cause) :
    Still (failAt offset cause : Parse α) :=
  throw _

end Still

/-!
## Quiet actions
-/

/-- The forest stays as it is. -/
def Quiet (act : Parse α) : Prop :=
  ∀ ⦃ctx s a s'⦄, act ctx s = .ok (a, s') → s'.forest = s.forest

theorem Still.quiet {act : Parse α} (h : Still act) : Quiet act :=
  fun _ _ _ _ hrun => congrArg ParseState.forest (h hrun)

namespace Quiet

variable {act : Parse α} {k : α → Parse β}

theorem pure (a : α) : Quiet (pure a : Parse α) := by
  intro ctx s b s' h
  rcases run_pure.mp h with ⟨_, rfl⟩
  rfl

theorem bind (hact : Quiet act) (hk : ∀ a, Quiet (k a)) : Quiet (act >>= k) := by
  intro ctx s b s'' h
  rcases run_bind.mp h with ⟨a, s', ha, hb⟩
  exact (hk a hb).trans (hact ha)

theorem get : Quiet get := by
  intro ctx s t s' h
  rcases run_get.mp h with ⟨_, rfl⟩
  rfl

theorem read : Quiet read := by
  intro ctx s t s' h
  rcases run_read.mp h with ⟨_, rfl⟩
  rfl

theorem throw (e : SyntaxError) : Quiet (throw e : Parse α) :=
  fun _ _ _ _ h => absurd h run_throw

theorem ite {c : Prop} [Decidable c] {other : Parse α} (h : Quiet act) (hother : Quiet other) :
    Quiet (if c then act else other) := by
  split
  · exact h
  · exact hother

/-- A quiet action that only runs in some cases. -/
theorem optionally {c : Prop} [Decidable c] {act : Parse Unit} {k : Unit → Parse β}
    (hact : Quiet act) (hk : ∀ u, Quiet (k u)) : Quiet (if c then act >>= k else k ()) :=
  ite (bind hact hk) (hk ())

theorem modify {f : ParseState → ParseState} (h : ∀ s : ParseState, (f s).forest = s.forest) :
    Quiet (modify f) := by
  intro ctx s a s' hrun
  cases hrun
  exact h s

theorem failAt (offset : Nat) (cause : SyntaxError.Cause) :
    Quiet (failAt offset cause : Parse α) :=
  throw _

end Quiet

/-!
## Actions that take roots and leave roots
-/

/-- The action takes the roots `used`. What it leaves in their place is related to its answer by
`made`. -/
def Builds (used : List Held) (act : Parse α) (made : α → List Held → Prop) : Prop :=
  ∀ ⦃rest ctx s a s'⦄, s.forest.GrownAs (used ++ rest) → act ctx s = .ok (a, s') →
    ∃ roots, made a roots ∧ s'.forest.GrownAs (roots ++ rest)

/-- The answer is the only root left, and has the role. -/
def OneNode (role : Role) (i : NodeId) (roots : List Held) : Prop :=
  roots = [(i, role)]

/-- The action builds one tree and answers its root. -/
abbrev BuildsNode (used : List Held) (role : Role) (act : Parse NodeId) : Prop :=
  Builds used act (OneNode role)

/-- The root in a slot, if there is one. -/
def heldSlot (slot : Slot) : List Held :=
  plainly slot.toList

/-- The action answers a slot, filled with the root it leaves if it leaves one. -/
abbrev BuildsSlot (used : List Held) (act : Parse Slot) : Prop :=
  Builds used act fun slot roots => roots = heldSlot slot

theorem fullEntries_map {n : Node Slot} {items : List NodeId}
    (h : n.entries? = some (items.map some)) : FullEntries n := by
  intro entries hentries
  obtain rfl := Option.some.inj (h.symm.trans hentries)
  simp

theorem fullEntries_none {n : Node Slot} (h : n.entries? = none) : FullEntries n :=
  fun _ hentries => nomatch h.symm.trans hentries

theorem fullEntries_of_slots {n : Node Slot} {items : List NodeId}
    (h : n.slots = items.map some) : FullEntries n := by
  intro entries hentries hnone
  rcases Node.slots_split hentries with ⟨before, after, hsplit, _⟩
  have hmem : none ∈ n.slots := by
    rw [hsplit]
    simp [hnone]
  simp [h] at hmem

namespace Builds

variable {act : Parse α} {k : α → Parse β} {used kept roots : List Held}
  {made : α → List Held → Prop} {result : β → List Held → Prop} {role role' : Role} {i : NodeId}

/-- The last root is taken for one of another role. -/
theorem recast (hfits : role.Fits role') (h : Builds (kept ++ [(i, role')]) act made) :
    Builds (kept ++ [(i, role)]) act made := by
  intro rest ctx s a s' hgrown hrun
  have hrole := hgrown.roles (i, role) (by simp)
  rw [List.append_assoc] at hgrown
  have hrecast := hgrown.recast (hrole.fits hfits)
  exact h (List.append_assoc _ _ _ ▸ hrecast) hrun

theorem pure {a : α} (h : made a used) : Builds used (pure a) made := by
  intro rest ctx s b s' hgrown hrun
  rcases run_pure.mp hrun with ⟨rfl, rfl⟩
  exact ⟨used, h, hgrown⟩

theorem throw (e : SyntaxError) : Builds used (throw e) made :=
  fun _ _ _ _ _ _ hrun => absurd hrun run_throw

theorem fail (cause : SyntaxError.Cause) : Builds used (fail cause) made := by
  intro rest ctx s a s' _ hrun
  cases hrun

theorem failAt (offset : Nat) (cause : SyntaxError.Cause) :
    Builds used (failAt offset cause) made :=
  throw _

/-- An action that takes some of the roots, followed by one that takes what it leaves. -/
theorem bind (hact : Builds used act made)
    (hk : ∀ a roots, made a roots → Builds (kept ++ roots) (k a) result) :
    Builds (kept ++ used) (act >>= k) result := by
  intro rest ctx s b s'' hgrown hrun
  rcases run_bind.mp hrun with ⟨a, s', ha, hb⟩
  have hfirst : s.forest.GrownAs (used ++ (kept ++ rest)) := hgrown.perm (by
    simpa using List.perm_append_comm_assoc kept used rest)
  rcases hact hfirst ha with ⟨roots, hmade, hleft⟩
  have hthen : s'.forest.GrownAs (kept ++ roots ++ rest) := hleft.perm (by
    simpa using List.perm_append_comm_assoc roots kept rest)
  exact hk a roots hmade hthen hb

/-- An action that takes no roots, followed by one that takes what it leaves. -/
theorem next (hact : Builds [] act made)
    (hk : ∀ a roots, made a roots → Builds (kept ++ roots) (k a) result) :
    Builds kept (act >>= k) result := by
  simpa using @bind _ _ _ _ [] kept _ _ hact hk

/-- The last roots make way for one node. -/
theorem wrap {act : Parse NodeId} {k : NodeId → Parse β} (role : Role)
    (hact : BuildsNode used role act) (hk : ∀ i, Builds (kept ++ [(i, role)]) (k i) result) :
    Builds (kept ++ used) (act >>= k) result :=
  bind hact fun i _ hroots => hroots ▸ hk i

/-- All roots make way for one node. -/
theorem whole {act : Parse NodeId} {k : NodeId → Parse β} (role : Role)
    (hact : BuildsNode used role act) (hk : ∀ i, Builds [(i, role)] (k i) result) :
    Builds used (act >>= k) result :=
  @wrap _ used [] _ _ _ role hact hk

/-- A node that an action builds is one more root. -/
theorem node {act : Parse NodeId} {k : NodeId → Parse β} (hact : BuildsNode [] role act)
    (hk : ∀ i, Builds (kept ++ [(i, role)]) (k i) result) : Builds kept (act >>= k) result :=
  next hact fun i _ hroots => hroots ▸ hk i

theorem slot {act : Parse Slot} {k : Slot → Parse β} (hact : BuildsSlot [] act)
    (hk : ∀ s, Builds (kept ++ heldSlot s) (k s) result) : Builds kept (act >>= k) result :=
  next hact fun s _ hroots => hroots ▸ hk s

theorem quiet (hact : Quiet act) (hk : ∀ a, Builds used (k a) result) :
    Builds used (act >>= k) result := by
  intro rest ctx s b s'' hgrown hrun
  rcases run_bind.mp hrun with ⟨a, s', ha, hb⟩
  exact hk a (hact ha ▸ hgrown) hb

theorem ite {c : Prop} [Decidable c] {other : Parse α} (h : Builds used act made)
    (hother : Builds used other made) : Builds used (if c then act else other) made := by
  split
  · exact h
  · exact hother

/-- A quiet action that only runs in some cases. -/
theorem optionally {c : Prop} [Decidable c] {act : Parse Unit} {k : Unit → Parse β}
    (hact : Quiet act) (hk : ∀ u, Builds used (k u) result) :
    Builds used (if c then act >>= k else k ()) result :=
  ite (quiet hact hk) (hk ())

theorem withReader {f : Context → Context} (h : Builds used act made) :
    Builds used (withReader f act) made :=
  fun _ _ _ _ _ hgrown hrun => h hgrown hrun

/-- A value that is already there, as behind a choice of several. -/
theorem given {a : α} (h : Builds used (k a) result) : Builds used (Pure.pure a >>= k) result := by
  rwa [pure_bind]

/-- The node that is built is taken for one of another role. -/
theorem fits {act : Parse NodeId} (h : BuildsNode used role act) (hfits : role.Fits role') :
    BuildsNode used role' act := by
  intro rest ctx s i s' hgrown hrun
  rcases h hgrown hrun with ⟨_, rfl, hleft⟩
  exact ⟨_, rfl, @GrownAs.recast _ _ _ _ [] _ hleft ((hleft.roles _ List.mem_cons_self).fits hfits)⟩

variable {n : Node Slot} {start stop : Nat}

theorem add (hheld : role.held? n = some used) (hfull : FullEntries n) :
    BuildsNode used role (add n start stop) := by
  intro rest ctx s i s' hgrown hrun
  cases hrun
  exact ⟨_, rfl, hgrown.add hheld hfull⟩

/-- A node all of whose slots are filled. -/
theorem addFilled (hslots : n.slots = used.map fun child => some child.1)
    (hroles : role.roles n = some (used.map Prod.snd)) :
    BuildsNode used role (Parse.add n start stop) := by
  have hitems : n.slots = (used.map Prod.fst).map some := by
    rw [hslots, List.map_map]
    rfl
  refine add ?_ (fullEntries_of_slots hitems)
  rw [held?, hroles, Option.bind_some, hitems, gather_map_some (by simp)]
  exact congrArg some (List.zip_of_prod rfl rfl).symm

/-- A node that asks for no special roles. -/
theorem addPlain (hroles : role.roles n = some (n.slots.map fun _ => .plain))
    (hfull : FullEntries n) (hchildren : plainly (childrenOf n) = used) :
    BuildsNode used role (Parse.add n start stop) := by
  refine add ?_ hfull
  rw [held?, hroles, Option.bind_some, gather_plain, ← hchildren]
  rfl

/-- A node above the given ones. -/
theorem addItems (items : List NodeId) (hslots : n.slots = items.map some)
    (hroles : role.roles n = some (n.slots.map fun _ => .plain)) :
    BuildsNode (plainly items) role (Parse.add n start stop) := by
  refine addPlain hroles (fullEntries_of_slots hslots) ?_
  rw [childrenOf, hslots, List.filterMap_map]
  simp

/-- A node above a list of entries. -/
theorem addEntries {entry : Bool → Role} (items : List NodeId) (hslots : n.slots = items.map some)
    (hroles : role.roles n = some (lastly entry n.slots)) :
    BuildsNode (heldLast entry items) role (Parse.add n start stop) := by
  refine add ?_ (fullEntries_of_slots hslots)
  rw [held?, hroles, Option.bind_some, hslots, gather_heldLast]

end Builds

/-!
## Reading tokens
-/

theorem still_fail (cause : SyntaxError.Cause) : Still (fail cause : Parse α) :=
  fun _ _ _ _ hrun => nomatch hrun

theorem quiet_fail (cause : SyntaxError.Cause) : Quiet (fail cause : Parse α) :=
  (still_fail cause).quiet

theorem still_scanner : Still scanner :=
  .bind .get fun _ => .pure _

theorem quiet_scanner : Quiet scanner :=
  still_scanner.quiet

theorem still_token : Still token :=
  .bind .get fun _ => .pure _

theorem quiet_token : Quiet token :=
  still_token.quiet

theorem still_kind : Still kind :=
  .bind .get fun _ => .pure _

theorem quiet_kind : Quiet kind :=
  still_kind.quiet

theorem still_offset : Still offset :=
  .bind .get fun _ => .pure _

theorem quiet_offset : Quiet offset :=
  still_offset.quiet

theorem still_tokenEnd : Still tokenEnd :=
  .bind .get fun _ => .pure _

theorem quiet_tokenEnd : Quiet tokenEnd :=
  still_tokenEnd.quiet

theorem still_isAt (k : TokenKind) : Still (isAt k) :=
  .bind still_kind fun _ => .pure _

theorem quiet_isAt (k : TokenKind) : Quiet (isAt k) :=
  (still_isAt k).quiet

theorem still_isAtMark (p : Punctuator) : Still (isAtMark p) :=
  still_isAt _

theorem quiet_isAtMark (p : Punctuator) : Quiet (isAtMark p) :=
  (still_isAtMark p).quiet

theorem still_isAtWord (word : String) : Still (isAtWord word) :=
  .bind still_token fun _ => .pure _

theorem quiet_isAtWord (word : String) : Quiet (isAtWord word) :=
  (still_isAtWord word).quiet

theorem still_isAtIdentifier : Still isAtIdentifier := by
  refine .bind still_kind fun k => ?_
  split
  · exact .pure _
  · exact .pure _
  · exact .bind .read fun _ => .pure _
  · exact .pure _

theorem quiet_isAtIdentifier : Quiet isAtIdentifier :=
  still_isAtIdentifier.quiet

theorem still_isAtAwait : Still isAtAwait :=
  .bind .read fun _ => .bind still_token fun _ => .pure _

theorem quiet_isAtAwait : Quiet isAtAwait :=
  still_isAtAwait.quiet

theorem quiet_install (s : Scanner) : Quiet (install s) := by
  unfold install
  split
  · exact .failAt _ _
  · exact .modify fun _ => rfl

theorem quiet_advance : Quiet advance :=
  .bind quiet_scanner fun _ => quiet_install _

theorem quiet_eat (k : TokenKind) : Quiet (eat k) :=
  .bind (quiet_isAt k) fun _ => .ite (.bind quiet_advance fun _ => .pure _) (.pure _)

theorem quiet_eatMark (p : Punctuator) : Quiet (eatMark p) :=
  quiet_eat _

theorem quiet_expect (k : TokenKind) : Quiet (expect k) :=
  .bind (quiet_isAt k) fun _ =>
    .ite (.bind quiet_tokenEnd fun _ => .bind quiet_advance fun _ => .pure _) (quiet_fail _)

theorem quiet_expectMark (p : Punctuator) : Quiet (expectMark p) :=
  quiet_expect _

theorem quiet_semicolon : Quiet semicolon :=
  .bind (quiet_eatMark _) fun _ => .ite (.pure _) <|
    .bind quiet_token fun _ => .ite (.pure _) (quiet_fail _)

theorem Builds.deeper {act : Parse α} {used : List Held} {made : α → List Held → Prop}
    (h : Builds used act made) : Builds used (deeper act) made :=
  .quiet .read fun _ => .ite (.fail _) (.withReader h)

/-!
## Reading nodes
-/

theorem still_node? (i : NodeId) : Still (node? i) :=
  .bind .get fun _ => .pure _

theorem quiet_node? (i : NodeId) : Quiet (node? i) :=
  (still_node? i).quiet

theorem still_startOf (i : NodeId) : Still (startOf i) :=
  .bind .get fun _ => .pure _

theorem quiet_startOf (i : NodeId) : Quiet (startOf i) :=
  (still_startOf i).quiet

theorem still_endOf (i : NodeId) : Still (endOf i) :=
  .bind .get fun _ => .pure _

theorem quiet_endOf (i : NodeId) : Quiet (endOf i) :=
  (still_endOf i).quiet

/-!
## Repetitions
-/

def Turn.items : Turn α → List α
  | .stop | .skip => []
  | .last i => [i]
  | .item i => [i]

/-- What a turn adds to a list of entries. -/
def Turn.held (entry : Bool → Role) : Turn NodeId → List Held
  | .stop | .skip => []
  | .last i => [(i, entry true)]
  | .item i => [(i, entry false)]

variable {entry : Bool → Role} {turn : Parse (Turn NodeId)}

/-- Every turn adds the trees of its item. -/
abbrev BuildsTurn (entry : Bool → Role) (turn : Parse (Turn NodeId)) : Prop :=
  Builds [] turn fun t roots => roots = t.held entry

/-- Every turn adds the plain tree of its item. -/
abbrev BuildsItem (turn : Parse (Turn NodeId)) : Prop :=
  BuildsTurn (fun _ => .plain) turn

/-- The action answers a list of entries. -/
abbrev BuildsEntries (entry : Bool → Role) (act : Parse (List NodeId)) : Prop :=
  Builds [] act fun items roots => roots = heldLast entry items

abbrev BuildsList (used : List Held) (act : Parse (List NodeId)) : Prop :=
  Builds used act fun items roots => roots = plainly items

/-- The action answers slots that hold the roots it leaves. -/
abbrev BuildsSlots (entry : Bool → Role) (act : Parse (List Slot)) : Prop :=
  Builds [] act fun slots roots =>
    ∃ items : List NodeId, slots = items.map some ∧ roots = heldLast entry items

theorem heldLast_concat (items : List NodeId) (i : NodeId) :
    heldLast entry (items ++ [i]) = items.map (·, entry false) ++ [(i, entry true)] := by
  induction items with
  | nil => rfl
  | cons j items ih =>
      have hmore : (items ++ [i]).isEmpty = false := by simp
      rw [List.cons_append, heldLast, lastly, List.zip_cons_cons, hmore]
      exact congrArg _ ih

theorem buildsEntries_repeated (hlast : (entry false).Fits (entry true))
    (hturn : BuildsTurn entry turn) (fuel : Nat) : BuildsEntries entry (repeated fuel turn) := by
  -- No item is the last one as long as turns follow.
  have hfrom : ∀ reversed : List NodeId, Builds (reversed.reverse.map (·, entry false))
      (repeatFrom turn fuel reversed) fun items roots => roots = heldLast entry items := by
    induction fuel with
    | zero => exact fun _ => .fail _
    | succ fuel ih =>
        intro reversed
        refine .next hturn fun t roots hroots => ?_
        subst hroots
        cases t with
        | stop =>
            cases reversed with
            | nil => exact .pure rfl
            | cons i reversed =>
                rw [List.reverse_cons, List.map_append, Turn.held, List.append_nil]
                exact .recast hlast (.pure (by simp [heldLast_concat]))
        | skip => simpa [Turn.held] using ih reversed
        | last i => exact .pure (by simp [Turn.held, heldLast_concat])
        | item i => simpa [Turn.held] using ih (i :: reversed)
  exact hfrom []

theorem buildsList_repeated (hturn : BuildsItem turn) (fuel : Nat) :
    BuildsList [] (repeated fuel turn) := by
  have hentries := buildsEntries_repeated (Fits.refl _) hturn fuel
  simp only [BuildsEntries, heldLast_const] at hentries
  exact hentries

namespace Builds

variable {used : List Held} {role : Role}

theorem list {act : Parse (List NodeId)} {k : List NodeId → Parse β} {kept : List Held}
    {result : β → List Held → Prop} (hact : BuildsList [] act)
    (hk : ∀ items, Builds (kept ++ plainly items) (k items) result) :
    Builds kept (act >>= k) result :=
  next hact fun items _ hroots => hroots ▸ hk items

theorem entries {act : Parse (List NodeId)} {k : List NodeId → Parse β} {kept : List Held}
    {result : β → List Held → Prop} (hact : BuildsEntries entry act)
    (hk : ∀ items, Builds (kept ++ heldLast entry items) (k items) result) :
    Builds kept (act >>= k) result :=
  next hact fun items _ hroots => hroots ▸ hk items

/-- A node with filled slots that ends where another node ends. -/
theorem addEnding {n : Node Slot} {start : Nat} {last : NodeId}
    (hslots : n.slots = used.map fun child => some child.1)
    (hroles : role.roles n = some (used.map Prod.snd)) :
    BuildsNode used role (endOf last >>= Parse.add n start) :=
  quiet (quiet_endOf _) fun _ => addFilled hslots hroles

end Builds

theorem builds_beforeComma (hlast : (entry false).Fits (entry true)) (i : NodeId) :
    Builds [(i, entry false)] (beforeComma i) fun t roots => roots = t.held entry :=
  .quiet (quiet_eatMark _) fun _ =>
    .ite (.pure rfl) (@Builds.recast _ _ [] _ _ _ _ hlast (.pure rfl))

theorem buildsItem_beforeComma (role : Role) (i : NodeId) :
    Builds [(i, role)] (beforeComma i) fun t roots => roots = t.held fun _ => role :=
  @builds_beforeComma (fun _ => role) (.refl role) i

end Parse
end Untangle
