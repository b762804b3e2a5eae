import Untangle.Grammar.Class
import Untangle.Proofs.Token.Words
import Untangle.Proofs.Tree.Phrases

/-!
# Reading words

A parsing computation that stands in front of certain words reads them and makes what they stand
for, or gives up because it is nested too deeply. Each way to compose computations has a rule, so
that a production is followed word by word.
-/

namespace Untangle

/-!
## Contexts
-/

/-- A context outside of all functions. -/
structure Context.Plain (ctx : Context) (noIn : Bool) : Prop where
  noIn : ctx.noIn = noIn
  inGenerator : ctx.inGenerator = false
  inAsync : ctx.inAsync = false

namespace Context.Plain

variable {ctx : Context} {noIn : Bool}

theorem deeper (h : ctx.Plain noIn) : Plain { ctx with depth := ctx.depth + 1 } noIn :=
  ⟨h.noIn, h.inGenerator, h.inAsync⟩

theorem allowingIn (h : ctx.Plain noIn) : Plain { ctx with noIn := false } false :=
  ⟨rfl, h.inGenerator, h.inAsync⟩

theorem withoutIn (h : ctx.Plain noIn) : Plain { ctx with noIn := true } true :=
  ⟨rfl, h.inGenerator, h.inAsync⟩

end Context.Plain

namespace Scanner

variable {c : Scanner} {w : Word} {ws : List Word} {word : String}

theorem Faces.escaped (h : c.Faces (w :: ws)) : c.token.escaped = false :=
  (h.word w rfl).2.1.escaped

theorem Faces.value {name : OrdinaryName} (h : c.Faces (.name name :: ws)) :
    c.token.value = name.text :=
  (h.word _ rfl).2.1.value rfl

/-- Printed texts have none of the words that are names elsewhere. -/
theorem Faces.isContextual (h : c.Faces ws) (hword : word ∈ ["async", "await", "of"]) :
    c.token.isContextual word = false := by
  cases ws with
  | nil => simp [Token.isContextual, h.kind, firstKind]
  | cons w ws =>
      rcases h.word w rfl with ⟨hw, his, _⟩
      cases hw with
      | name name =>
          have hne : name.text ≠ word := fun heq => name.isPlain (heq ▸ hword)
          simp [Token.isContextual, h.value, hne]
      | keyword k => simp [Token.isContextual, h.kind, firstKind, Word.keyword, Word.of]
      | mark hp => simp [Token.isContextual, h.kind, firstKind, Word.mark, Word.of]
      | attached hp => simp [Token.isContextual, h.kind, firstKind, Word.attached]

/-- There are no arrows in printed texts. -/
theorem Faces.kind_ne_arrow (h : c.Faces ws) : c.token.kind ≠ .mark .arrow := by
  rw [h.kind]
  cases ws with
  | nil => rintro ⟨⟩
  | cons w ws => exact (h.word w rfl).1.kind_ne_arrow

theorem Faces.arrowFollows (h : c.Faces (w :: ws)) : c.arrowFollows = false := by
  simp [Scanner.arrowFollows, h.scan.kind_ne_arrow]

theorem Faces.arrowAfterParens (h : c.Faces (w :: ws)) (fuel depth : Nat) :
    Scanner.arrowAfterParens fuel depth c = false := by
  induction fuel generalizing c w ws depth with
  | zero => rfl
  | succ fuel ih =>
      rw [Scanner.arrowAfterParens]
      cases ws with
      | nil => rw [h.scan.kind, firstKind]
      | cons w' ws =>
          split
          · exact ih h.scan _
          · split
            · rw [beq_eq_false_iff_ne]
              exact h.scan.scan.kind_ne_arrow
            · exact ih h.scan _
          · rfl
          · rfl
          · exact ih h.scan _

theorem Faces.parametersFollow (h : c.Faces (w :: ws)) : c.parametersFollow = false :=
  h.arrowAfterParens _ _

end Scanner

namespace Parse

variable {α β : Type}

/-- The outcome is as it should be, or the computation has given up because of its depth. -/
inductive Gives (post : α → ParseState → Prop) : Except SyntaxError (α × ParseState) → Prop
  | answer {a s} (h : post a s) : Gives post (.ok (a, s))
  | tooDeep {e : SyntaxError} (h : e.cause = .nestedTooDeeply) : Gives post (.error e)

theorem Gives.mono {post post' : α → ParseState → Prop}
    {outcome : Except SyntaxError (α × ParseState)} (h : Gives post outcome)
    (himp : ∀ a s, post a s → post' a s) : Gives post' outcome := by
  cases h with
  | answer h => exact .answer (himp _ _ h)
  | tooDeep h => exact .tooDeep h

/-- In front of the words the computation reads them and makes what is asked for, unless it is
nested too deeply. -/
def Reads (act : Parse α) (ctx : Context) (f : Forest) (ws after : List Word)
    (made : Forest → α → Prop) : Prop :=
  ∀ ⦃c : Scanner⦄, c.Faces (ws ++ after) →
    Gives (fun a s => s.scanner.Faces after ∧ f.Enlarged s.forest ∧ made s.forest a)
      (act ctx ⟨c, f⟩)

namespace Reads

variable {act : Parse α} {k : α → Parse β} {ctx : Context} {f : Forest} {w : Word}
  {ws ws' after : List Word} {made : Forest → α → Prop} {made' : Forest → β → Prop}

/-!
## Composition
-/

theorem pure {a : α} (h : made f a) : (pure a : Parse α).Reads ctx f [] after made :=
  fun _ hc => .answer ⟨hc, .refl f, h⟩

theorem tooDeep : (fail .nestedTooDeeply : Parse α).Reads ctx f ws after made :=
  fun _ _ => .tooDeep rfl

theorem run_bind_eq (s : ParseState) :
    (act >>= k) ctx s = (act ctx s >>= fun result => k result.1 ctx result.2) :=
  rfl

theorem bind (h : act.Reads ctx f ws (ws' ++ after) made)
    (hk : ∀ a g, f.Enlarged g → made g a → (k a).Reads ctx g ws' after made') :
    (act >>= k).Reads ctx f (ws ++ ws') after made' := by
  intro c hc
  rw [List.append_assoc] at hc
  have hact := h hc
  rw [run_bind_eq]
  generalize act ctx ⟨c, f⟩ = outcome at hact
  cases hact with
  | tooDeep he => exact .tooDeep he
  | @answer a s hmade =>
      obtain ⟨hs, hg, hmade⟩ := hmade
      have hrest := hk a s.forest hg hmade hs
      change Gives _ (k a ctx s) at hrest
      change Gives _ (k a ctx s)
      generalize k a ctx s = outcome at hrest
      cases hrest with
      | tooDeep he => exact .tooDeep he
      | answer hmade => exact .answer ⟨hmade.1, hg.trans hmade.2.1, hmade.2.2⟩

/-- A computation that reads nothing more comes last. -/
theorem finish (h : act.Reads ctx f ws after made)
    (hk : ∀ a g, f.Enlarged g → made g a → (k a).Reads ctx g [] after made') :
    (act >>= k).Reads ctx f ws after made' := by
  rw [← List.append_nil ws]
  exact h.bind hk

/-- A computation that reads nothing comes first. -/
theorem silent (h : act.Reads ctx f [] (ws ++ after) made)
    (hk : ∀ a g, f.Enlarged g → made g a → (k a).Reads ctx g ws after made') :
    (act >>= k).Reads ctx f ws after made' :=
  h.bind hk

theorem mono {other : Forest → α → Prop} (h : act.Reads ctx f ws after made)
    (himp : ∀ g a, f.Enlarged g → made g a → other g a) : act.Reads ctx f ws after other := by
  intro c hc
  exact (h hc).mono fun a s hmade => ⟨hmade.1, hmade.2.1, himp _ _ hmade.2.1 hmade.2.2⟩

/-- A computation that only looks. -/
theorem query {v : Scanner → α}
    (hv : ∀ c, c.Faces (ws ++ after) → act ctx ⟨c, f⟩ = .ok (v c, ⟨c, f⟩))
    (hk : ∀ c, c.Faces (ws ++ after) → (k (v c)).Reads ctx f ws after made') :
    (act >>= k).Reads ctx f ws after made' := by
  intro c hc
  rw [run_bind_eq, hv c hc]
  exact hk c hc hc

/-!
## Looking at the current token
-/

theorem scanner {k : Scanner → Parse β}
    (hk : ∀ c, c.Faces (ws ++ after) → (k c).Reads ctx f ws after made') :
    (Parse.scanner >>= k).Reads ctx f ws after made' :=
  query (fun _ _ => rfl) hk

theorem token {k : Token → Parse β}
    (hk : ∀ c : Scanner, c.Faces (ws ++ after) → (k c.token).Reads ctx f ws after made') :
    (Parse.token >>= k).Reads ctx f ws after made' :=
  query (fun _ _ => rfl) hk

theorem offset {k : Nat → Parse β} (hk : ∀ n, (k n).Reads ctx f ws after made') :
    (Parse.offset >>= k).Reads ctx f ws after made' :=
  query (fun _ _ => rfl) fun c _ => hk c.token.start.offset

theorem tokenEnd {k : Nat → Parse β} (hk : ∀ n, (k n).Reads ctx f ws after made') :
    (Parse.tokenEnd >>= k).Reads ctx f ws after made' :=
  query (fun _ _ => rfl) fun c _ => hk c.token.next.offset

theorem endOf {i : NodeId} {k : Nat → Parse β} (hk : ∀ n, (k n).Reads ctx f ws after made') :
    (Parse.endOf i >>= k).Reads ctx f ws after made' :=
  query (fun _ _ => rfl) fun _ _ => hk (((f.cell? (some i)).map Cell.stop).getD 0)

theorem node? {i : NodeId} {k : Option (Node Slot) → Parse β}
    (hk : (k (f.node? (some i))).Reads ctx f ws after made') :
    (Parse.node? i >>= k).Reads ctx f ws after made' :=
  query (fun _ _ => rfl) fun _ _ => hk

theorem isTargetAt {i : NodeId} {k : Bool → Parse β}
    (hk : (k (f.satisfies (some i) Node.isTarget)).Reads ctx f ws after made') :
    (Pattern.isTargetAt i >>= k).Reads ctx f ws after made' :=
  query (fun _ _ => rfl) fun _ _ => hk

theorem read {k : Context → Parse β} (hk : (k ctx).Reads ctx f ws after made') :
    (MonadReader.read >>= k : Parse β).Reads ctx f ws after made' :=
  query (fun _ _ => rfl) fun _ _ => hk

theorem kind {k : TokenKind → Parse β}
    (hk : (k (firstKind (ws ++ after))).Reads ctx f ws after made') :
    (Parse.kind >>= k).Reads ctx f ws after made' :=
  query (fun _ _ => rfl) fun _ hc => hc.kind ▸ hk

theorem isAt {kind : TokenKind} {k : Bool → Parse β}
    (hk : (k (firstKind (ws ++ after) == kind)).Reads ctx f ws after made') :
    (Parse.isAt kind >>= k).Reads ctx f ws after made' :=
  query (fun _ _ => rfl) fun _ hc => hc.kind ▸ hk

theorem isAtMark {p : Punctuator} {k : Bool → Parse β}
    (hk : (k (firstKind (ws ++ after) == .mark p)).Reads ctx f ws after made') :
    (Parse.isAtMark p >>= k).Reads ctx f ws after made' :=
  isAt hk

theorem isAtWord {word : String} {k : Bool → Parse β} (hword : word ∈ ["async", "await", "of"])
    (hk : (k false).Reads ctx f ws after made') :
    (Parse.isAtWord word >>= k).Reads ctx f ws after made' :=
  query (fun _ _ => rfl) fun _ hc => hc.isContextual hword ▸ hk

theorem isAtAwait {k : Bool → Parse β} (hctx : ctx.inAsync = false)
    (hk : (k false).Reads ctx f ws after made') :
    (Parse.isAtAwait >>= k).Reads ctx f ws after made' := by
  refine query (v := fun _ => false) (fun c _ => ?_) fun _ _ => hk
  change Except.ok (ctx.inAsync && c.token.isContextual "await", _) = _
  rw [hctx, Bool.false_and]

theorem isAtIdentifier {k : Bool → Parse β}
    (hword : firstKind (ws ++ after) ∉ [.word .«let», .word .«yield»])
    (hk : (k (firstKind (ws ++ after) == .identifier)).Reads ctx f ws after made') :
    (Parse.isAtIdentifier >>= k).Reads ctx f ws after made' := by
  rw [Parse.isAtIdentifier, bind_assoc]
  refine kind ?_
  generalize firstKind (ws ++ after) = kind at hword hk
  cases kind with
  | identifier => exact hk
  | word word =>
      cases word with
      | «let» => exact absurd (by simp) hword
      | «yield» => exact absurd (by simp) hword
      | _ => exact hk
  | _ => exact hk

/-!
## Moving on
-/

theorem run_advance {c : Scanner} (herror : c.scan.error = none) :
    Parse.advance ctx ⟨c, f⟩ = .ok ((), ⟨c.scan, f⟩) := by
  have hinstall : Parse.install c.scan = modify fun s => { s with scanner := c.scan } := by
    unfold install
    rw [herror]
    cases c.scan.token.kind <;> rfl
  change Parse.install c.scan ctx ⟨c, f⟩ = _
  rw [hinstall]
  rfl

theorem advance {k : Unit → Parse β} (hk : (k ()).Reads ctx f ws after made') :
    (Parse.advance >>= k).Reads ctx f (w :: ws) after made' := by
  intro c hc
  rw [run_bind_eq, run_advance hc.scan.error]
  exact hk hc.scan

theorem eat {k : Bool → Parse β} (hk : (k true).Reads ctx f ws after made') :
    (Parse.eat w.kind >>= k).Reads ctx f (w :: ws) after made' := by
  rw [Parse.eat, bind_assoc]
  refine isAt ?_
  rw [List.cons_append, firstKind, beq_self_eq_true, if_pos rfl, bind_assoc]
  exact advance hk

theorem eat_other {kind : TokenKind} {k : Bool → Parse β} (hkind : firstKind (ws ++ after) ≠ kind)
    (hk : (k false).Reads ctx f ws after made') :
    (Parse.eat kind >>= k).Reads ctx f ws after made' := by
  rw [Parse.eat, bind_assoc]
  refine isAt ?_
  rw [beq_eq_false_iff_ne.mpr hkind, if_neg Bool.false_ne_true]
  exact hk

theorem eatMark {p : Punctuator} {k : Bool → Parse β} (hk : (k true).Reads ctx f ws after made') :
    (Parse.eatMark p >>= k).Reads ctx f (.mark p :: ws) after made' :=
  eat hk

theorem eatMark_other {p : Punctuator} {k : Bool → Parse β}
    (hkind : firstKind (ws ++ after) ≠ .mark p) (hk : (k false).Reads ctx f ws after made') :
    (Parse.eatMark p >>= k).Reads ctx f ws after made' :=
  eat_other hkind hk

theorem expect {k : Nat → Parse β} (hk : ∀ n, (k n).Reads ctx f ws after made') :
    (Parse.expect w.kind >>= k).Reads ctx f (w :: ws) after made' := by
  rw [Parse.expect, bind_assoc]
  refine isAt ?_
  rw [List.cons_append, firstKind, beq_self_eq_true, if_pos rfl, bind_assoc]
  refine tokenEnd fun n => ?_
  rw [bind_assoc]
  exact advance (hk n)

theorem expectMark {p : Punctuator} {k : Nat → Parse β}
    (hk : ∀ n, (k n).Reads ctx f ws after made') :
    (Parse.expectMark p >>= k).Reads ctx f (.mark p :: ws) after made' :=
  expect hk

theorem eatWord {word : Keyword} {k : Bool → Parse β} (hk : (k true).Reads ctx f ws after made') :
    (Parse.eat (.word word) >>= k).Reads ctx f (.keyword word :: ws) after made' :=
  eat hk

theorem expectWord {word : Keyword} {k : Nat → Parse β}
    (hk : ∀ n, (k n).Reads ctx f ws after made') :
    (Parse.expect (.word word) >>= k).Reads ctx f (.keyword word :: ws) after made' :=
  expect hk

/-!
## Contexts
-/

theorem deeper (h : act.Reads { ctx with depth := ctx.depth + 1 } f ws after made) :
    (Parse.deeper act).Reads ctx f ws after made := by
  refine read ?_
  by_cases hdepth : Limits.parseDepth ≤ ctx.depth
  · rw [if_pos hdepth]
    exact tooDeep
  · rw [if_neg hdepth]
    exact h

theorem allowingIn (h : act.Reads { ctx with noIn := false } f ws after made) :
    (Parse.allowingIn act).Reads ctx f ws after made :=
  h

theorem withoutIn (h : act.Reads { ctx with noIn := true } f ws after made) :
    (Parse.withoutIn act).Reads ctx f ws after made :=
  h

/-!
## Nodes
-/

variable {n : Node Slot} {start stop : Nat} {last : NodeId} {made : Forest → NodeId → Prop}

theorem add (hn : ∀ kind key value computed, n ≠ .property kind key value computed)
    (hmade : ∀ g i, f.Enlarged g → g.node? (some i) = some n → made g i) :
    (Parse.add n start stop).Reads ctx f [] after made :=
  fun _ hc => .answer ⟨hc, Forest.enlarged_add hn,
    hmade _ _ (Forest.enlarged_add hn) Forest.node?_add_self⟩

theorem addThen {k : NodeId → Parse β}
    (hn : ∀ kind key value computed, n ≠ .property kind key value computed)
    (hk : ∀ i g, f.Enlarged g → g.node? (some i) = some n → (k i).Reads ctx g ws after made') :
    (Parse.add n start stop >>= k).Reads ctx f ws after made' :=
  silent (add hn fun _ _ _ hi => hi) hk

theorem addEnding (hn : ∀ kind key value computed, n ≠ .property kind key value computed)
    (hmade : ∀ g i, f.Enlarged g → g.node? (some i) = some n → made g i) :
    (Parse.endOf last >>= Parse.add n start).Reads ctx f [] after made :=
  endOf fun _ => add hn hmade

/-!
## Repetition
-/

section Repetition

variable {ι : Type} {items : List ι} {words : ι → List Word} {P : List Word → Prop}
  {madeItem : Forest → ι → α → Prop} {turn : Parse (Turn α)} {reversed : List α} {fuel : Nat}

/-- Items one after another, each of them made by one turn. -/
theorem repeatFrom (hkept : ∀ ⦃g h b a⦄, g.Enlarged h → madeItem g b a → madeItem h b a)
    (hafter : P after) (hmay : ∀ b ∈ items, ∀ more, P (words b ++ more))
    (hstop : ∀ g, turn.Reads ctx g [] after fun _ t => t = .stop)
    (hturn : ∀ g, ∀ b ∈ items, ∀ more, P more →
      turn.Reads ctx g (words b) more fun g t => ∃ a, t = .item a ∧ madeItem g b a) :
    (Parse.repeatFrom turn fuel reversed).Reads ctx f (items.flatMap words) after fun g l =>
      ∃ l', l = reversed.reverse ++ l' ∧ List.Forall₂ (madeItem g) items l' := by
  induction fuel generalizing f items reversed with
  | zero => exact tooDeep
  | succ fuel ih =>
      rw [Parse.repeatFrom]
      cases items with
      | nil =>
          refine (hstop f).finish fun t g _ ht => ?_
          subst ht
          exact pure ⟨[], by rw [List.append_nil], .nil⟩
      | cons b items =>
          rw [List.flatMap_cons]
          have hmore : P (items.flatMap words ++ after) := by
            cases items with
            | nil => exact hafter
            | cons b' items =>
                rw [List.flatMap_cons, List.append_assoc]
                exact hmay b' (by simp) _
          refine (hturn f b List.mem_cons_self _ hmore).bind fun t g _ ht => ?_
          obtain ⟨a, rfl, ha⟩ := ht
          have hrest := @ih g items (a :: reversed)
            (fun b hb => hmay b (List.mem_cons_of_mem _ hb))
            (fun g b hb => hturn g b (List.mem_cons_of_mem _ hb))
          refine hrest.mono fun h l hgh hl => ?_
          obtain ⟨l', rfl, hl'⟩ := hl
          exact ⟨a :: l', by simp, .cons (hkept hgh ha) hl'⟩

theorem repeated (hkept : ∀ ⦃g h b a⦄, g.Enlarged h → madeItem g b a → madeItem h b a)
    (hafter : P after) (hmay : ∀ b ∈ items, ∀ more, P (words b ++ more))
    (hstop : ∀ g, turn.Reads ctx g [] after fun _ t => t = .stop)
    (hturn : ∀ g, ∀ b ∈ items, ∀ more, P more →
      turn.Reads ctx g (words b) more fun g t => ∃ a, t = .item a ∧ madeItem g b a) :
    (Parse.repeated fuel turn).Reads ctx f (items.flatMap words) after fun g l =>
      List.Forall₂ (madeItem g) items l := by
  refine (repeatFrom hkept hafter hmay hstop hturn).mono fun g l _ hl => ?_
  obtain ⟨l', rfl, hl'⟩ := hl
  exact hl'

/-- One turn makes an item and the next one stops. -/
theorem repeated_once {madeOne : Forest → α → Prop}
    (hkept : ∀ ⦃g h a⦄, g.Enlarged h → madeOne g a → madeOne h a)
    (hturn : turn.Reads ctx f ws after fun g t => ∃ a, t = .item a ∧ madeOne g a)
    (hstop : ∀ g, turn.Reads ctx g [] after fun _ t => t = .stop) :
    (Parse.repeated fuel turn).Reads ctx f ws after fun g l => ∃ a, l = [a] ∧ madeOne g a := by
  rw [Parse.repeated]
  cases fuel with
  | zero => exact tooDeep
  | succ fuel =>
      rw [Parse.repeatFrom]
      refine hturn.finish fun t g _ ht => ?_
      obtain ⟨a, rfl, ha⟩ := ht
      dsimp only
      cases fuel with
      | zero => exact tooDeep
      | succ fuel =>
          rw [Parse.repeatFrom]
          refine (hstop g).finish fun t h hgh ht => ?_
          subst ht
          exact pure ⟨a, rfl, hkept hgh ha⟩

end Repetition

end Reads
end Parse
end Untangle
