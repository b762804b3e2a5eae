import Untangle.Proofs.Grammar.OperatorRuns
import Untangle.Proofs.Grammar.Closing

/-!
# Long runs of one operator

A run of operators of one level is no deeper for the grammar than a single one, so that a long text
`null && null && ... && null` is parsed. Its tree is as deep as the run is long.
-/

namespace Untangle

open Parse

/-!
## Computations that cannot fail
-/

namespace Parse

variable {α β : Type} {act : Parse α} {k : α → Parse β} {ctx : Context} {f : Forest} {w : Word}
  {ws ws' after : List Word} {made : Forest → α → Prop} {made' : Forest → β → Prop}

/-- In front of the words the computation reads them and makes what is asked for. -/
def Delivers (act : Parse α) (ctx : Context) (f : Forest) (ws after : List Word)
    (made : Forest → α → Prop) : Prop :=
  ∀ ⦃c : Scanner⦄, c.Faces (ws ++ after) → ∃ a s, act ctx ⟨c, f⟩ = .ok (a, s) ∧
    s.scanner.Faces after ∧ f.Enlarged s.forest ∧ made s.forest a

namespace Delivers

theorem pure {a : α} (h : made f a) : (pure a : Parse α).Delivers ctx f [] after made :=
  fun _ hc => ⟨_, _, rfl, hc, .refl f, h⟩

theorem bind (h : act.Delivers ctx f ws (ws' ++ after) made)
    (hk : ∀ a g, f.Enlarged g → made g a → (k a).Delivers ctx g ws' after made') :
    (act >>= k).Delivers ctx f (ws ++ ws') after made' := by
  intro c hc
  rw [List.append_assoc] at hc
  rcases h hc with ⟨a, s, hact, hs, hg, hmade⟩
  rcases hk a s.forest hg hmade hs with ⟨b, t, hrest, ht, hh, hmade'⟩
  exact ⟨b, t, (run_bind_of_ok hact).trans hrest, ht, hg.trans hh, hmade'⟩

/-- A computation that reads nothing more comes last. -/
theorem finish (h : act.Delivers ctx f ws after made)
    (hk : ∀ a g, f.Enlarged g → made g a → (k a).Delivers ctx g [] after made') :
    (act >>= k).Delivers ctx f ws after made' := by
  rw [← List.append_nil ws]
  exact h.bind hk

/-- A computation that only looks. -/
theorem query {v : Scanner → α}
    (hv : ∀ c, c.Faces (ws ++ after) → act ctx ⟨c, f⟩ = .ok (v c, ⟨c, f⟩))
    (hk : ∀ c, c.Faces (ws ++ after) → (k (v c)).Delivers ctx f ws after made') :
    (act >>= k).Delivers ctx f ws after made' := by
  intro c hc
  rcases hk c hc hc with ⟨b, s, hrest, hmade⟩
  exact ⟨b, s, (run_bind_of_ok (hv c hc)).trans hrest, hmade⟩

theorem kind {k : TokenKind → Parse β}
    (hk : (k (firstKind (ws ++ after))).Delivers ctx f ws after made') :
    (Parse.kind >>= k).Delivers ctx f ws after made' :=
  query (fun _ _ => rfl) fun _ hc => hc.kind ▸ hk

theorem isAt {kind : TokenKind} {k : Bool → Parse β}
    (hk : (k (firstKind (ws ++ after) == kind)).Delivers ctx f ws after made') :
    (Parse.isAt kind >>= k).Delivers ctx f ws after made' :=
  query (fun _ _ => rfl) fun _ hc => hc.kind ▸ hk

theorem offset {k : Nat → Parse β} (hk : ∀ n, (k n).Delivers ctx f ws after made') :
    (Parse.offset >>= k).Delivers ctx f ws after made' :=
  query (fun _ _ => rfl) fun c _ => hk c.token.start.offset

theorem endOf {i : NodeId} {k : Nat → Parse β} (hk : ∀ n, (k n).Delivers ctx f ws after made') :
    (Parse.endOf i >>= k).Delivers ctx f ws after made' :=
  query (fun _ _ => rfl) fun _ _ => hk (((f.cell? (some i)).map Cell.stop).getD 0)

theorem isAtAwait {k : Bool → Parse β} (hctx : ctx.inAsync = false)
    (hk : (k false).Delivers ctx f ws after made') :
    (Parse.isAtAwait >>= k).Delivers ctx f ws after made' := by
  refine query (v := fun _ => false) (fun c _ => ?_) fun _ _ => hk
  change Except.ok (ctx.inAsync && c.token.isContextual "await", _) = _
  rw [hctx, Bool.false_and]

/-- Only a few words can be names as well. -/
theorem isAtIdentifier {k : Bool → Parse β}
    (hword : firstKind (ws ++ after) ∈ [.word .null, .endOfFile])
    (hk : (k false).Delivers ctx f ws after made') :
    (Parse.isAtIdentifier >>= k).Delivers ctx f ws after made' := by
  rw [Parse.isAtIdentifier, bind_assoc]
  refine kind ?_
  rcases List.mem_pair.mp hword with h | h <;> rw [h] <;> exact hk

theorem advance {k : Unit → Parse β} (hk : (k ()).Delivers ctx f ws after made') :
    (Parse.advance >>= k).Delivers ctx f (w :: ws) after made' := by
  intro c hc
  rcases hk hc.scan with ⟨b, s, hrest, hmade⟩
  exact ⟨b, s, (run_bind_of_ok (Reads.run_advance hc.scan.error)).trans hrest, hmade⟩

/-- Something else is left alone. -/
theorem eat_other {kind : TokenKind} {k : Bool → Parse β} (hkind : firstKind (ws ++ after) ≠ kind)
    (hk : (k false).Delivers ctx f ws after made') :
    (Parse.eat kind >>= k).Delivers ctx f ws after made' := by
  rw [Parse.eat, bind_assoc]
  refine isAt ?_
  rw [beq_eq_false_iff_ne.mpr hkind, if_neg Bool.false_ne_true]
  exact hk

theorem deeper (hdepth : ctx.depth < Limits.parseDepth)
    (h : act.Delivers { ctx with depth := ctx.depth + 1 } f ws after made) :
    (Parse.deeper act).Delivers ctx f ws after made := by
  intro c hc
  rw [run_deeper, if_neg (Nat.not_le.mpr hdepth)]
  exact h hc

theorem add {n : Node Slot} {start stop : Nat} {made : Forest → NodeId → Prop}
    (hn : ∀ kind key value computed, n ≠ .property kind key value computed)
    (hmade : ∀ g i, f.Enlarged g → g.node? (some i) = some n → made g i) :
    (Parse.add n start stop).Delivers ctx f [] after made :=
  fun _ hc => ⟨_, _, rfl, hc, Forest.enlarged_add hn,
    hmade _ _ (Forest.enlarged_add hn) Forest.node?_add_self⟩

end Delivers
end Parse

/-!
## Chains
-/

/-- `null`, and `null` again behind each of a number of operators `&&`. -/
inductive Forest.Chain (f : Forest) : Nat → NodeId → Prop
  | null {i : NodeId} (hi : f.node? (some i) = some (.bare .null)) : f.Chain 0 i
  | and {n : Nat} {i left right : NodeId}
      (hi : f.node? (some i) = some (.binary .logical (some left) (.mark .and) (some right)))
      (hleft : f.Chain n left) (hright : f.node? (some right) = some (.bare .null)) :
      f.Chain (n + 1) i

theorem Forest.Chain.enlarged {f g : Forest} {n : Nat} {i : NodeId} (h : f.Chain n i)
    (hfg : f.Enlarged g) : g.Chain n i := by
  induction h with
  | null hi => exact .null (hfg.node? hi)
  | and hi _ hright ih => exact .and (hfg.node? hi) ih (hfg.node? hright)

namespace Chain

/-- The operators and operands behind the first operand. -/
def rest (n : Nat) : List Word :=
  (List.replicate n [Word.mark .and, Word.keyword .null]).flatten

def text (n : Nat) : String :=
  " ".intercalate ((Word.keyword .null :: rest n).map Word.text)

theorem firstKind_rest (n : Nat) : firstKind (rest n) = .mark .and ∨
    firstKind (rest n) = .endOfFile := by
  cases n with
  | zero => exact .inr rfl
  | succ n => exact .inl rfl

theorem spells_text (n : Nat) : Spells (text n).toList (Word.keyword .null :: rest n) := by
  rw [text, String.toList_intercalate, List.map_map]
  refine spells_intercalate fun w hw => ?_
  simp only [rest, List.mem_cons, List.mem_flatten, List.mem_replicate] at hw
  rcases hw with rfl | ⟨_, ⟨-, rfl⟩, hw⟩
  · exact .keyword _
  · rcases List.mem_pair.mp hw with rfl | rfl
    · exact .mark rfl
    · exact .keyword _

end Chain

namespace Descent

variable {d : Descent} {ctx : Context} {f : Forest} {after : List Word} {m n : Nat}

theorem delivers_primary_null :
    d.primary.Delivers ctx f [.keyword .null] after fun g i => g.Chain 0 i := by
  rw [primary]
  refine .query (v := fun c => c.token) (fun _ _ => rfl) fun c hc => ?_
  refine .query (v := fun c => c) (fun _ _ => rfl) fun c' _ => ?_
  rw [hc.isContextual (by simp), Bool.false_and, if_neg Bool.false_ne_true]
  refine .isAtIdentifier (by simp [firstKind, Word.keyword, Word.of]) ?_
  rw [if_neg Bool.false_ne_true, hc.kind]
  change (single (.bare .null)).Delivers ctx f [.keyword .null] after _
  rw [single]
  refine .query (v := fun c => c.token) (fun _ _ => rfl) fun c _ => .advance ?_
  exact .add (by simp) fun g i _ hi => .null hi

/-- Behind an operand there is another operator or nothing. -/
theorem delivers_suffixes {start : Nat} {i : NodeId} (hi : f.Chain 0 i) :
    (d.suffixes start true (m + 1) i false).Delivers ctx f [] (Chain.rest n)
      fun g j => g.Chain 0 j := by
  have hnone : (d.suffix? start true i false false).Delivers ctx f [] (Chain.rest n)
      fun _ r => r = none := by
    rw [suffix?]
    refine .kind ?_
    rw [List.nil_append]
    rcases Chain.firstKind_rest n with h | h <;> rw [h] <;> exact .pure rfl
  rw [suffixes, isAtMark]
  refine .isAt ?_
  rw [List.nil_append]
  rcases Chain.firstKind_rest n with h | h
  all_goals
    rw [h]
    exact hnone.finish fun r g hg hr => hr ▸ .pure (hi.enlarged hg)

theorem run_kind (c : Scanner) : Parse.kind ctx ⟨c, f⟩ = .ok (c.token.kind, ⟨c, f⟩) :=
  rfl

theorem run_operator?_and {c : Scanner} (hc : c.Faces (Chain.rest (n + 1))) :
    operator? none ctx ⟨c, f⟩ = .ok (some (.mark .and, .logicalAnd), ⟨c, f⟩) := by
  rw [operator?, run_bind_of_ok (run_kind c), hc.kind]
  rfl

theorem run_operator?_end {c : Scanner} {bound : Option Precedence}
    (hc : c.Faces (Chain.rest n)) (hend : n = 0 ∨ bound = some .logicalAnd) :
    operator? bound ctx ⟨c, f⟩ = .ok (none, ⟨c, f⟩) := by
  rw [operator?, run_bind_of_ok (run_kind c), hc.kind]
  cases n with
  | zero => rfl
  | succ n =>
      obtain rfl := hend.resolve_left (Nat.succ_ne_zero n)
      rfl

section Operand

variable (hfuel : d.fuel = m + 1) (hctx : ctx.inAsync = false)

include hfuel hctx

theorem delivers_unary_null :
    d.unaryProduction.Delivers ctx f [.keyword .null] (Chain.rest n) fun g i => g.Chain 0 i := by
  have hoperand : d.leftHandSideProduction.Delivers ctx f [.keyword .null] (Chain.rest n)
      fun g i => g.Chain 0 i := by
    rw [leftHandSideProduction]
    refine .offset fun start => .isAt ?_
    change (d.primary >>= _).Delivers ctx f [.keyword .null] (Chain.rest n) _
    refine delivers_primary_null.finish fun i g _ hi => ?_
    rw [hfuel]
    exact delivers_suffixes hi
  rw [unaryProduction]
  refine .kind (.isAtAwait hctx ?_)
  change d.unaryAfter.Delivers ctx f [.keyword .null] (Chain.rest n) _
  rw [unaryAfter]
  refine .offset fun start => hoperand.finish fun i g _ hi => ?_
  refine .query (v := fun c => c.token) (fun _ _ => rfl) fun c hc => ?_
  have hkind := hc.kind
  rw [List.nil_append] at hkind
  rw [hkind]
  rcases Chain.firstKind_rest n with h | h <;> rw [h] <;> exact .pure hi

/-- The right operand of an operator ends at the next one. -/
theorem delivers_rightOperand :
    (d.binaryProduction (some .logicalAnd)).Delivers ctx f [.keyword .null] (Chain.rest n)
      fun g i => g.Chain 0 i := by
  rw [binaryProduction]
  refine .offset fun start => .kind (.isAtAwait hctx (.isAt ?_))
  change (d.unaryProduction >>= _).Delivers ctx f [.keyword .null] (Chain.rest n) _
  refine (delivers_unary_null hfuel hctx).finish fun i g _ hi => ?_
  change (d.operators start (some .logicalAnd) false Limits.treeDepth i).Delivers ctx g [] _ _
  rw [operators.eq_def]
  exact .query (v := fun _ => none) (fun c hc => run_operator?_end hc (.inr rfl)) fun _ _ => .pure hi

end Operand

/-- The operators of the run are taken one after the other. -/
theorem delivers_operators (start : Nat) {room k : Nat} {left : NodeId} (hroom : n ≤ room)
    (hparse : d.parse = parseGoal (m + 2)) (hnoIn : ctx.inAsync = false)
    (hdepth : ctx.depth < Limits.parseDepth) (hleft : f.Chain k left) :
    (d.operators start none false room left).Delivers ctx f (Chain.rest n) []
      fun g i => g.Chain (k + n) i := by
  induction n generalizing f room k left with
  | zero =>
      rw [operators.eq_def]
      refine .query (v := fun _ => none) (fun c hc => ?_) fun _ _ => .pure hleft
      exact run_operator?_end (n := 0) hc (.inl rfl)
  | succ n ih =>
      obtain ⟨room, rfl⟩ := Nat.exists_eq_add_one_of_ne_zero (Nat.ne_zero_of_lt hroom)
      have hright : (deeper (d.parse (.binary (some .logicalAnd)))).Delivers ctx f
          [.keyword .null] (Chain.rest n ++ []) fun g i => g.Chain 0 i := by
        rw [hparse, List.append_nil]
        exact .deeper hdepth (delivers_rightOperand rfl hnoIn)
      rw [operators.eq_def]
      refine .query (v := fun _ => some (.mark .and, .logicalAnd))
        (fun c hc => run_operator?_and (by rwa [List.append_nil] at hc)) fun _ _ => ?_
      change (advance >>= _).Delivers ctx f (.mark .and :: (.keyword .null :: Chain.rest n)) [] _
      refine .advance (hright.bind fun right g hg hright => .endOf fun stop => ?_)
      have hadd : (Parse.add (.binary .logical (some left) (.mark .and) (some right)) start
          stop).Delivers ctx g [] (Chain.rest n ++ []) fun g i => g.Chain (k + 1) i := by
        refine .add (by simp) fun h i hh hi => ?_
        cases hright with
        | null hright => exact .and hi ((hleft.enlarged hg).enlarged hh) (hh.node? hright)
      refine hadd.bind fun i h _ hi => ?_
      have hrest := ih (Nat.le_of_succ_le_succ hroom) hi
      rwa [Nat.add_right_comm] at hrest

section Whole

variable (hparse : d.parse = parseGoal (m + 2)) (hfuel : d.fuel = m + 2) (hn : n ≤ Limits.treeDepth)

include hparse hfuel hn

theorem delivers_assignment_chain (hasync : ctx.inAsync = false)
    (hgenerator : ctx.inGenerator = false) (hdepth : ctx.depth < Limits.parseDepth) :
    d.assignmentProduction.Delivers ctx f (.keyword .null :: Chain.rest n) []
      fun g i => g.Chain n i := by
  have hbinary : (d.binaryProduction none).Delivers ctx f
      ([.keyword .null] ++ Chain.rest n) [] fun g i => g.Chain n i := by
    rw [binaryProduction]
    refine .offset fun start => .kind (.isAtAwait hasync (.isAt ?_))
    change (d.unaryProduction >>= _).Delivers ctx f ([.keyword .null] ++ Chain.rest n) [] _
    have hunary : d.unaryProduction.Delivers ctx f [.keyword .null] (Chain.rest n ++ [])
        fun g i => g.Chain 0 i := by
      rw [List.append_nil]
      exact delivers_unary_null hfuel hasync
    refine hunary.bind fun i g _ hi => ?_
    have hrun := fun start => delivers_operators start hn hparse hasync hdepth hi
    simp only [Nat.zero_add] at hrun
    exact hrun start
  have hconditional : d.conditional.Delivers ctx f (.keyword .null :: Chain.rest n) []
      fun g i => g.Chain n i := by
    rw [conditional]
    refine .offset fun start => hbinary.finish fun i g _ hi => ?_
    exact .eat_other (by simp [firstKind]) (.pure hi)
  have harrow : ∀ c : Scanner, c.Faces (.keyword .null :: Chain.rest n ++ []) →
      arrowStart? ctx ⟨c, f⟩ = .ok (none, ⟨c, f⟩) := by
    intro c hc
    have hidentifier : isAtIdentifier ctx ⟨c, f⟩ = .ok (false, ⟨c, f⟩) := by
      rw [isAtIdentifier, run_bind_of_ok (run_kind c), hc.kind]
      rfl
    have hscanner : scanner ctx ⟨c, f⟩ = .ok (c, ⟨c, f⟩) := rfl
    rw [arrowStart?, run_bind_of_ok hscanner, hc.isContextual (by simp),
      Bool.false_and, if_neg Bool.false_ne_true, run_bind_of_ok hidentifier,
      if_neg Bool.false_ne_true, hc.kind]
    rfl
  rw [assignmentProduction]
  refine .query (v := fun _ => ctx) (fun _ _ => rfl) fun _ _ => .isAt ?_
  rw [hgenerator, Bool.false_and, if_neg Bool.false_ne_true]
  refine .query (v := fun _ => none) harrow fun _ _ => ?_
  exact .offset fun start => hconditional.finish fun i g _ hi => .kind (.pure hi)

end Whole

/-- The statement that consists of the run. -/
def MakesChain (n : Nat) (g : Forest) (i : NodeId) : Prop :=
  ∃ e, g.node? (some i) = some (.operand .expressionStatement (some e)) ∧ g.Chain n e

theorem MakesChain.enlarged {f g : Forest} {n : Nat} {i : NodeId} (h : MakesChain n f i)
    (hfg : f.Enlarged g) : MakesChain n g i := by
  rcases h with ⟨e, hi, he⟩
  exact ⟨e, hfg.node? hi, he.enlarged hfg⟩

theorem delivers_statement_chain (hn : n ≤ Limits.treeDepth) :
    (parseGoal (m + 4) .statement).Delivers .outermost f (.keyword .null :: Chain.rest n) []
      (MakesChain n) := by
  let d : Descent := ⟨parseGoal (m + 3), m + 3⟩
  have hassignment : ∀ {f : Forest}, d.assignment.Delivers { Context.outermost with depth := 1 } f
      (.keyword .null :: Chain.rest n) [] fun g i => g.Chain n i := fun {f} =>
    .deeper (by decide) (delivers_assignment_chain rfl rfl hn rfl rfl (by decide))
  have hexpression : ∀ {f : Forest}, d.expression.Delivers { Context.outermost with depth := 1 } f
      (.keyword .null :: Chain.rest n) [] fun g i => g.Chain n i := by
    intro f
    have hnone : ∀ {g : Forest}, (repeated d.fuel d.sequenceTurn).Delivers
        { Context.outermost with depth := 1 } g [] [] fun _ l => l = [] := by
      intro g
      have hturn : d.sequenceTurn.Delivers { Context.outermost with depth := 1 } g [] []
          fun _ t => t = .stop := .eat_other (by simp [firstKind]) (.pure rfl)
      exact hturn.finish fun t h _ ht => ht ▸ .pure rfl
    rw [expression]
    refine .offset fun start => hassignment.finish fun i g _ hi => ?_
    exact hnone.finish fun l h hgh hl => hl ▸ .pure (hi.enlarged hgh)
  refine .deeper (by decide) ?_
  change (statementProduction d).Delivers _ f _ _ _
  rw [statementProduction]
  refine .query (v := fun c => c) (fun _ _ => rfl) fun c hc => ?_
  rw [hc.kind]
  change d.otherStatement.Delivers _ f _ _ _
  rw [otherStatement]
  refine .isAtIdentifier (by simp [firstKind, Word.keyword, Word.of]) ?_
  refine .query (v := fun c => c) (fun _ _ => rfl) fun c hc => ?_
  change d.expressionStatement.Delivers _ f _ _ _
  rw [expressionStatement]
  refine .offset fun start => hexpression.finish fun e g _ he => .endOf fun stop => ?_
  have hsemicolon : semicolon.Delivers { Context.outermost with depth := 1 } g [] []
      fun h _ => h.Chain n e := by
    rw [semicolon]
    refine .eat_other (by simp [firstKind]) ?_
    rw [if_neg Bool.false_ne_true]
    refine .query (v := fun c => c.token) (fun _ _ => rfl) fun c hc => ?_
    have hends : c.token.endsStatement = true := by
      have hkind : c.token.kind = .endOfFile := hc.kind
      simp [Token.endsStatement, hkind]
    rw [hends]
    exact .pure he
  exact hsemicolon.finish fun _ h _ he => .add (by simp) fun h' i hh' hi =>
    ⟨e, hi, he.enlarged hh'⟩

end Descent

/-- A run of operators is parsed up to the greatest length that is allowed. -/
theorem Program.exists_parse_chain {n : Nat} (hn : n ≤ Limits.treeDepth) :
    ∃ p i, Program.parse (Chain.text n) = .ok p ∧
      p.forest.node? (some p.root) = some (.body .program [some i]) ∧
        Descent.MakesChain n p.forest i := by
  obtain ⟨m, hm⟩ : ∃ m, parseFuel (Chain.text n) = m + 4 :=
    ⟨_, (Nat.sub_add_cancel (by unfold parseFuel; omega)).symm⟩
  let d : Descent := ⟨parseGoal (m + 4), m + 4⟩
  have hturn : (programTurn d).Delivers .outermost .empty (.keyword .null :: Chain.rest n) []
      fun g t => ∃ i, t = .item i ∧ Descent.MakesChain n g i := by
    rw [programTurn]
    refine .isAt ?_
    exact (Descent.delivers_statement_chain hn).finish fun i g _ hi => .pure ⟨i, rfl, hi⟩
  have hlast : ∀ {g : Forest}, (programTurn d).Delivers .outermost g [] [] fun _ t => t = .stop := by
    intro g
    rw [programTurn]
    exact .isAt (.pure rfl)
  have hitems : (repeated d.fuel (programTurn d)).Delivers .outermost .empty
      (.keyword .null :: Chain.rest n) [] fun g l => ∃ i, l = [i] ∧ Descent.MakesChain n g i := by
    refine hturn.finish fun t g _ ht => ?_
    obtain ⟨i, rfl, hi⟩ := ht
    refine hlast.finish fun t h hgh ht => ?_
    exact ht ▸ .pure ⟨i, rfl, hi.enlarged hgh⟩
  have hfaces := Scanner.faces_scan (s := .ofString (Chain.text n)) rfl rfl (Chain.spells_text n)
  rcases hitems (by rwa [List.append_nil]) with ⟨l, s, hrun, -, hs, i, rfl, hi⟩
  have hshorthands : checkShorthands .outermost s = .ok ((), s) :=
    Reads.run_checkShorthands hs s.scanner
  let made := s.forest.add (.body .program [some i]) 0 s.scanner.token.next.offset
  have hprogram : program d .outermost ⟨.ofString (Chain.text n), .empty⟩ =
      .ok (made.1, ⟨s.scanner, made.2⟩) := by
    rw [program, run_bind_of_ok (Reads.run_advance hfaces.error), run_bind_of_ok hrun,
      run_bind_of_ok hshorthands]
    rfl
  refine ⟨⟨made.2, made.1⟩, i, ?_, Forest.node?_add_self, hi.enlarged (Forest.enlarged_add (by simp))⟩
  rw [parse_eq, hm, hprogram]
  rfl

end Untangle
