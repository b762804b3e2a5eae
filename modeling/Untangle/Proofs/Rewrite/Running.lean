import Untangle.Proofs.Tree.Sequence
import Untangle.Proofs.Tree.Slots
import Untangle.Rewrite.Basic

/-!
# Runs of rewrites

A rewrite that does not fail runs its parts one after another, each on the forest that the one
before it left. Edits never fail.
-/

namespace Untangle
namespace Rewrite

variable {α β : Type} {f g : Forest} {root : Slot}

/-- What comes next runs on the forest that is left. -/
theorem run_bind_ok {act : Rewrite α} {next : α → Rewrite β} {a : α} {f' : Forest}
    (h : act.run.run f = (.ok a, f')) :
    (act >>= next).run.run f = (next a).run.run f' := by
  rw [ExceptT.run_bind, StateT.run_bind, show act.run.run f = pure (.ok a, f') from h, pure_bind]

theorem run_bind_eq_ok {act : Rewrite α} {next : α → Rewrite β} {r : β} :
    (act >>= next).run.run f = (.ok r, g) ↔
      ∃ a f', act.run.run f = (.ok a, f') ∧ (next a).run.run f' = (.ok r, g) := by
  constructor
  · intro hrun
    rcases hact : act.run.run f with ⟨_ | a, f'⟩
    · rw [ExceptT.run_bind, StateT.run_bind, show act.run.run f = pure (.error _, f') from hact,
        pure_bind] at hrun
      cases hrun
    · rw [run_bind_ok hact] at hrun
      exact ⟨a, f', rfl, hrun⟩
  · rintro ⟨a, f', hact, hnext⟩
    rwa [run_bind_ok hact]

theorem run_get (f : Forest) : (get : Rewrite Forest).run.run f = (.ok f, f) :=
  rfl

theorem run_lift (act : Edit α) (f : Forest) :
    (liftM act : Rewrite α).run.run f = (.ok (act.run f).1, (act.run f).2) :=
  rfl

theorem run_mapM_lift (act : α → Edit β) (items : List α) (f : Forest) :
    (items.mapM fun a => (liftM (act a) : Rewrite β)).run.run f =
      (.ok ((items.mapM act).run f).1, ((items.mapM act).run f).2) := by
  induction items generalizing f with
  | nil => rfl
  | cons a items ih =>
      rw [Node.run_mapM_cons, List.mapM_cons, run_bind_ok (run_lift (act a) f),
        run_bind_ok (ih _)]
      rfl

/-- Asking for a node edits nothing. -/
theorem run_requireNode {u : Unit} (h : (requireNode root).run.run f = (.ok u, g)) : g = f := by
  rw [requireNode, run_bind_ok (run_get f)] at h
  split at h
  · cases h
  · exact (Prod.mk.inj h).2.symm

/-- Binding a tree fails, or it gives the bindings of the whole tree and edits nothing. -/
theorem run_bind_tree {b : Bindings} (h : (Rewrite.bind root).run.run f = (.ok b, g)) :
    g = f ∧ b = Bindings.ofForest f root ∧ (Bindings.ofForest f root).truncated = false := by
  rcases run_bind_eq_ok.mp h with ⟨_, f', hrequire, hrest⟩
  obtain rfl := run_requireNode hrequire
  rw [run_bind_ok (run_get f')] at hrest
  dsimp only at hrest
  split at hrest
  · rcases run_bind_eq_ok.mp hrest with ⟨_, _, hthrow, _⟩
    cases hthrow
  · rename_i hwhole
    have hanswer := Prod.mk.inj hrest
    exact ⟨hanswer.2.symm, (Except.ok.inj hanswer.1).symm, by simpa using hwhole⟩

/-- A tree that is not too deep is bound. -/
theorem run_bind_of_whole (hroot : f.contains root = true)
    (hwhole : (Bindings.ofForest f root).truncated = false) :
    (Rewrite.bind root).run.run f = (.ok (Bindings.ofForest f root), f) := by
  have hrequire : (requireNode root).run.run f = (.ok (), f) := by
    rw [requireNode, run_bind_ok (run_get f), hroot]
    rfl
  rw [Rewrite.bind, run_bind_ok hrequire, run_bind_ok (run_get f)]
  dsimp only
  rw [hwhole]
  rfl

end Rewrite

/-!
## Sites
-/

namespace Edit

variable {α : Type} {site : α → Edit Bool} {sites : List α} {a : α} {f : Forest}

theorem run_bind {β γ : Type} (act : Edit β) (next : β → Edit γ) (f : Forest) :
    (act >>= next).run f = (next (act.run f).1).run (act.run f).2 :=
  rfl

theorem run_get_bind {β : Type} (next : Forest → Edit β) (f : Forest) :
    (get >>= next).run f = (next f).run f :=
  rfl

theorem run_look_bind {β γ : Type} (query : Forest → β) (next : β → Edit γ) (f : Forest) :
    (look query >>= next).run f = (next (query f)).run f :=
  rfl

/-- One turn of `changeAll`. -/
def visit (site : α → Edit Bool) (changed : Bool) (a : α) : Edit Bool := do
  let hit ← site a
  return changed || hit

theorem run_foldlM_visit (changed : Bool) :
    (sites.foldlM (visit site) changed).run f =
      (changed || ((changeAll site sites).run f).1, ((changeAll site sites).run f).2) := by
  have hcons : ∀ changed a sites f, ((a :: sites).foldlM (visit site) changed).run f =
      (sites.foldlM (visit site) (changed || ((site a).run f).1)).run ((site a).run f).2 :=
    fun _ _ _ _ => rfl
  induction sites generalizing changed f with
  | nil => exact Prod.ext (Bool.or_false changed).symm rfl
  | cons a sites ih =>
      have hsites : (changeAll site (a :: sites)).run f = _ := hcons false a sites f
      rw [hcons, ih, hsites, ih, Bool.false_or, Bool.or_assoc]

/-- The other sites are worked on in the forest that the first one leaves. -/
theorem run_changeAll_cons :
    (changeAll site (a :: sites)).run f =
      (((site a).run f).1 || ((changeAll site sites).run ((site a).run f).2).1,
        ((changeAll site sites).run ((site a).run f).2).2) :=
  run_foldlM_visit ((site a).run f).1

end Edit

/-!
## Reports

A rewrite counts its changes apart from making them. Its report is right if the answer `false`
means that nothing was changed. When all sites answer `false`, every one of them was worked on in
the forest of the beginning, so that reports have to be right there and nowhere else.
-/

namespace Edit

open Forest

variable {α β : Type} {view : Forest → β} {act : Edit Bool} {site : α → Edit Bool}
  {sites : List α} {f : Forest} {i p : NodeId}

/-- The answer `false` means that nothing was changed that the view shows. -/
def Reports (view : Forest → β) (act : Edit Bool) (f : Forest) : Prop :=
  (act.run f).1 = false → view (act.run f).2 = view f

/-!
### Combining reports
-/

theorem reports_false : Reports view (pure false) f :=
  fun _ => rfl

theorem reports_of_true (h : (act.run f).1 = true) : Reports view act f := by
  intro hno
  rw [h] at hno
  cases hno

theorem reports_get {next : Forest → Edit Bool} (h : Reports view (next f) f) :
    Reports view (get >>= next) f :=
  h

theorem reports_look {query : Forest → α} {next : α → Edit Bool}
    (h : Reports view (next (query f)) f) : Reports view (look query >>= next) f :=
  h

/-- One edit decides how a rewrite goes on. -/
theorem reports_bind_ite {yes no : Edit Bool} (h : Reports view act f)
    (hyes : ∀ g, act.run f = (true, g) → (yes.run g).1 = true)
    (hno : ∀ g, view g = view f → Reports view no g) :
    Reports view (act >>= fun done => if done = true then yes else no) f := by
  intro hanswer
  rcases hact : act.run f with ⟨done, g⟩
  rw [run_bind, hact] at hanswer ⊢
  cases done with
  | true =>
      rw [if_pos rfl, hyes g hact] at hanswer
      cases hanswer
  | false =>
      rw [if_neg Bool.false_ne_true] at hanswer ⊢
      have hsame : view g = view f := by
        have hview := h (by rw [hact])
        rwa [hact] at hview
      exact (hno g hsame hanswer).trans hsame

/-- When no site is changed, each of them is worked on in a forest that looks the same. -/
theorem reports_changeAll
    (h : ∀ a ∈ sites, ∀ g, view g = view f → Reports view (site a) g) :
    Reports view (changeAll site sites) f := by
  induction sites generalizing f with
  | nil => exact fun _ => rfl
  | cons a sites ih =>
      rw [List.forall_mem_cons] at h
      intro hno
      rw [run_changeAll_cons] at hno ⊢
      rw [Bool.or_eq_false_iff] at hno
      have hfirst : view ((site a).run f).2 = view f := h.1 f rfl hno.1
      have hrest := ih (fun a' ha' g hg => h.2 a' ha' g (hg.trans hfirst)) hno.2
      exact hrest.trans hfirst

/-- A site that is seen whole is worked on in the same forest as all the others. -/
theorem reports_changeAll_id (h : ∀ a ∈ sites, Reports id (site a) f) :
    Reports id (changeAll site sites) f := by
  apply reports_changeAll
  rintro a ha _ rfl
  exact h a ha

/-!
### Edits
-/

theorem reports_detach (s : Slot) : Reports id (Edit.detach s) f :=
  detach_unchanged s

theorem reports_remove (hf : f.WellFormed) (s : Slot) : Reports id (Edit.remove s) f :=
  splice_unchanged hf (replacements_nil f s)

/-- The edit makes nothing, or a node that can take the place of `i`. -/
def Supplies (make : Edit Slot) (i : NodeId) (f : Forest) : Prop :=
  make.run f = (none, f) ∨
    ∃ j f' g, make.run f = (some j, f') ∧ f'.replace (some i) (some j) = (g, true)

/-- A copy can take the place of any node that has a parent. -/
theorem supplies_copy (hf : f.WellFormed) (hlink : f.Link i p) (s : Slot) :
    Supplies (Edit.copy s) i f := by
  cases hcell : f.cell? s with
  | none => exact .inl (run_copyWith_of_none hcell f.size)
  | some c =>
      cases s with
      | none => cases hcell
      | some e =>
          rcases copied_copy hf (lt_size_of_cell? hcell) with ⟨j, f', hcopy, hcopied⟩
          have hbelow : ¬ f'.Within i j := fun hpath =>
            Nat.not_lt.mpr (hcopied.new i hpath) (lt_size_of_parent hlink)
          rcases replace_of_free hcopied.wellFormed (hcopied.extends_.link hlink) hcopied.free
            hbelow with ⟨g, hg, _⟩
          exact .inr ⟨j, f', g, hcopy, hg⟩

/-- A node makes way for what is made. -/
theorem reports_replaceBy {make : Edit Slot} (h : Supplies make i f) :
    Reports id (make >>= Edit.replace (some i)) f := by
  rcases h with hnone | ⟨j, f', g, hj, hg⟩
  · intro hno
    rw [run_bind, hnone] at hno ⊢
    exact replace_unchanged (some i) none hno
  · apply reports_of_true
    rw [run_bind, hj]
    exact congrArg Prod.snd hg

/-- Whether the statement goes as well is not asked for. -/
theorem reports_removeDeclarator (s : Slot) : Reports id (removeDeclarator s) f := by
  apply reports_get
  dsimp only
  split
  · exact reports_false
  · exact reports_false
  · apply reports_bind_ite (reports_detach s)
    · intro g _
      rw [run_look_bind]
      repeat' split
      all_goals rfl
    · intro g _
      exact reports_false

end Edit

end Untangle
