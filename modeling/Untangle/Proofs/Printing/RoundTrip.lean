import Untangle.Proofs.Grammar.Programs
import Untangle.Proofs.Grammar.StatementReading
import Untangle.Proofs.Printing.StatementLayouts

/-!
# Printing and parsing

What a statement is printed as is parsed as the same statement, except for the braces that keep an
`else` away from an inner `if`, unless the text is nested too deeply for the grammar.
-/

namespace Untangle

open Parse

/-!
## Programs
-/

namespace Parse.Reads

variable {ctx : Context} {f : Forest} {after : List Word}

/-- Without properties there are no stray shorthands. -/
theorem run_checkShorthands (hf : Forest.empty.Enlarged f) (c : Scanner) :
    Untangle.checkShorthands ctx ⟨c, f⟩ = .ok ((), ⟨c, f⟩) := by
  have hnone : f.cells.find? (isStrayShorthand f) = none := by
    rw [Array.find?_eq_none]
    intro c hc
    obtain ⟨i, hi, rfl⟩ := Array.mem_iff_getElem.mp hc
    have hnode : f.node? (some i) = some f.cells[i].node := by
      simp [Forest.node?, Forest.cell?, hi]
    unfold isStrayShorthand
    split
    · rename_i hproperty
      rw [hproperty] at hnode
      cases hf.property hnode
    · exact Bool.false_ne_true
  have hget : (get : Parse ParseState) ctx ⟨c, f⟩ = .ok (⟨c, f⟩, ⟨c, f⟩) := rfl
  rw [Untangle.checkShorthands, run_bind_eq, hget]
  simp only [Bind.bind, Except.bind, hnone]
  rfl

theorem checkShorthands (hf : Forest.empty.Enlarged f) :
    Untangle.checkShorthands.Reads ctx f [] after fun _ _ => True := by
  intro c hc
  rw [run_checkShorthands hf c]
  exact .answer ⟨hc, .refl f, trivial⟩

end Parse.Reads

section Programs

variable {d : Descent} {ctx : Context} {t : StatementTree} {statements : List StatementTree}
  {source : String}

theorem reads_programTurn {f : Forest} {after : List Word} (hd : ReadsStatements d.parse)
    (hctx : ctx.Plain false) (hafter : firstKind after ≠ .word .«else») :
    (programTurn d).Reads ctx f t.braced.words after fun g r =>
      ∃ i, r = .item i ∧ MakesStatement t.braced g i := by
  rw [programTurn]
  refine Reads.isAt ?_
  have hend : firstKind (t.braced.words ++ after) ≠ .endOfFile :=
    StatementTree.firstKind_ne (by simp)
  rw [beq_eq_false_iff_ne.mpr hend, if_neg Bool.false_ne_true]
  exact (Descent.reads_statement hd hctx fun _ => hafter).finish fun i g _ hi => .pure ⟨i, rfl, hi⟩

/-- Statements one after another, up to the end of the text. -/
theorem reads_programItems {f : Forest} (hd : ReadsStatements d.parse) (hctx : ctx.Plain false) :
    (repeated d.fuel (programTurn d)).Reads ctx f (statements.flatMap (·.braced.words)) []
      fun g l => List.Forall₂ (fun t i => MakesStatement t g i)
        (statements.map StatementTree.braced) l := by
  have hitems : (repeated d.fuel (programTurn d)).Reads ctx f (statements.flatMap (·.braced.words))
      [] fun g l =>
        List.Forall₂ (fun t i => MakesStatement (StatementTree.braced t) g i) statements l := by
    refine Reads.repeated (P := fun more => firstKind more ≠ .word .«else») ?_ ?_ ?_ ?_ ?_
    · exact fun g h t i hgh hi => hi.enlarged hgh
    · exact (by simp [firstKind])
    · exact fun t _ more => StatementTree.firstKind_ne (by simp)
    · exact fun g => Reads.isAt (.pure rfl)
    · exact fun g t _ more hmore => reads_programTurn hd hctx hmore
  exact hitems.mono fun g l _ hl => List.forall₂_map_left_iff.mpr hl

/-- The node is a program that consists of the statements. -/
def MakesProgram (statements : List StatementTree) (g : Forest) (root : NodeId) : Prop :=
  ∃ ids : List NodeId, g.node? (some root) = some (.body .program (ids.map some)) ∧
    List.Forall₂ (fun t i => MakesStatement t g i) statements ids

/-- A program, from its first token on. -/
theorem reads_programRest {ws : List Word}
    (hitems : (repeated d.fuel (programTurn d)).Reads ctx .empty ws [] fun g l =>
      List.Forall₂ (fun t i => MakesStatement t g i) statements l) :
    (do
      let statements ← repeated d.fuel (programTurn d)
      checkShorthands
      Parse.add (.body .program (statements.map some)) 0 (← tokenEnd) : Parse NodeId).Reads ctx
      .empty ws [] (MakesProgram statements) := by
  refine hitems.finish fun l g hg hl => (Reads.checkShorthands hg).silent fun _ h hgh _ => ?_
  refine Reads.tokenEnd fun stop => Reads.add (by simp) fun h' root hh' hroot => ?_
  exact ⟨l, hroot, hl.imp fun t i hi => (hi.enlarged hgh).enlarged hh'⟩

theorem gives_program {ws : List Word}
    (hitems : (repeated d.fuel (programTurn d)).Reads .outermost .empty ws [] fun g l =>
      List.Forall₂ (fun t i => MakesStatement t g i) statements l)
    (hsource : Spells source.toList ws) :
    Gives (fun root s => MakesProgram statements s.forest root)
      (program d .outermost ⟨.ofString source, .empty⟩) := by
  have hfaces : (Scanner.ofString source).scan.Faces ws := Scanner.faces_scan rfl rfl hsource
  rw [program, Reads.run_bind_eq, Reads.run_advance hfaces.error]
  have hgives := @reads_programRest d .outermost statements ws hitems (Scanner.ofString source).scan
    (by rwa [List.append_nil])
  exact hgives.mono fun root s h => h.2.2

end Programs

namespace Program

variable {text : String} {t : StatementTree}

/-- The text is parsed as a program that consists of the statement, or it is nested too deeply. -/
def ParsesAs (text : String) (t : StatementTree) : Prop :=
  (∃ p i, Program.parse text = .ok p ∧
    p.forest.node? (some p.root) = some (.body .program [some i]) ∧
      p.forest.HoldsStatement (some i) t) ∨
    ∃ e, Program.parse text = .error e ∧ e.cause = .nestedTooDeeply

theorem parsesAs_of_reads {ws : List Word} (hspells : Spells text.toList ws)
    (hitems : ∀ fuel, (repeated fuel (programTurn ⟨parseGoal fuel, fuel⟩)).Reads .outermost .empty
      ws [] fun g l => List.Forall₂ (fun t i => MakesStatement t g i) [t] l) : ParsesAs text t := by
  have hgives := @gives_program ⟨parseGoal (parseFuel text), parseFuel text⟩ [t] text ws
    (hitems _) hspells
  rw [ParsesAs, parse_eq]
  generalize program ⟨parseGoal (parseFuel text), parseFuel text⟩ .outermost
    ⟨.ofString text, .empty⟩ = outcome at hgives
  cases hgives with
  | tooDeep he => exact .inr ⟨_, rfl, he⟩
  | @answer root s hmade =>
      rcases hmade with ⟨ids, hroot, hids⟩
      cases hids with
      | cons hi hrest =>
          cases hrest
          exact .inl ⟨⟨s.forest, root⟩, _, rfl, hroot, hi⟩

theorem parsesAs_of_spells (h : Spells text.toList t.braced.words) : ParsesAs text t.braced := by
  have hwords : Spells text.toList ([t].flatMap (·.braced.words)) := by simpa using h
  exact parsesAs_of_reads hwords fun fuel =>
    reads_programItems (readsStatements_parseGoal fuel) ⟨rfl, rfl, rfl⟩

end Program

/-!
## Round trips

Both results hold for trees that no parser has made. The forests behind them are such trees: their
nodes have neither spans nor parents, and some have several.
-/

/-- A forest in which no node has a span or a parent. -/
def Forest.ofNodes (nodes : List (Node Slot)) : Forest :=
  ⟨(nodes.map fun n => ⟨n, 0, 0, none⟩).toArray⟩

def letterA : OrdinaryName :=
  ⟨"a", by decide +kernel, by decide +kernel, by decide⟩

def letterB : OrdinaryName :=
  ⟨"b", by decide +kernel, by decide +kernel, by decide⟩

namespace Forest

variable {f : Forest} {r s : Slot} {e : ExpressionTree} {t : StatementTree}

/-- An expression is parsed as the same expression, where it is printed as a statement and where it
is printed in the head of a loop. -/
theorem Holds.parse_print_expression (he : f.Holds r e) (style : Style) :
    (∀ s, f.node? s = some (.operand .expressionStatement r) →
      Program.ParsesAs (f.print style s) (.expression e)) ∧
    (∀ s b t, f.node? s = some (.forLoop r none none b) → f.HoldsStatement b t →
      Program.ParsesAs (f.print style s) (.forLoop (some e) t.braced)) := by
  constructor
  · intro s hs
    exact Program.parsesAs_of_spells ((HoldsStatement.expression hs he).spells_print style)
  · intro s b t hs hb
    exact Program.parsesAs_of_spells ((HoldsStatement.forLoop hs he hb).spells_print style)

/-- A right operand of `in` with a sign in front of `**` and logical operators behind it. -/
def signedPower : ExpressionTree :=
  .binary (.unary ⟨.mark .minus, rfl⟩ (.name letterA)) ⟨.mark .power, _, rfl⟩
    (.binary (.binary (.name letterA) ⟨.mark .coalesce, _, rfl⟩ (.name letterB))
      ⟨.mark .or, _, rfl⟩ (.name letterB))

/-- The expression as the right operand of `in`, in a statement and in the head of a loop. -/
def signedPowerForest : Forest :=
  .ofNodes [.name .identifier "a", .name .identifier "b",
    .unary .before (.mark .minus) (some 0), .binary .logical (some 0) (.mark .coalesce) (some 1),
    .binary .logical (some 3) (.mark .or) (some 1),
    .binary .binary (some 2) (.mark .power) (some 4),
    .binary .binary (some 0) (.word .«in») (some 5), .operand .expressionStatement (some 6),
    .bare .emptyStatement, .forLoop (some 6) none none (some 8)]

theorem parse_print_signedPower :
    signedPowerForest.print {} (some 7) = "a in (-a) ** ((a ?? b) || b);" ∧
    signedPowerForest.print {} (some 9) = "for ((a in (-a) ** ((a ?? b) || b));;);" ∧
    Program.ParsesAs (signedPowerForest.print {} (some 7))
      (.expression (.binary (.name letterA) ⟨.word .«in», _, rfl⟩ signedPower)) ∧
    Program.ParsesAs (signedPowerForest.print {} (some 9))
      (.forLoop (some (.binary (.name letterA) ⟨.word .«in», _, rfl⟩ signedPower)) .empty) ∧
    (Program.parse (signedPowerForest.print {} (some 7))).isOk = true ∧
    (Program.parse (signedPowerForest.print {} (some 9))).isOk = true := by
  have hpower : signedPowerForest.Holds (some 5) signedPower :=
    .binary rfl (.unary rfl (.name rfl))
      (.binary rfl (.binary rfl (.name rfl) (.name rfl)) (.name rfl))
  have hin : signedPowerForest.Holds (some 6)
      (.binary (.name letterA) ⟨.word .«in», _, rfl⟩ signedPower) :=
    .binary rfl (.name rfl) hpower
  exact ⟨by decide +kernel, by decide +kernel, (hin.parse_print_expression {}).1 _ rfl,
    (hin.parse_print_expression {}).2 _ _ _ rfl (.empty rfl), by decide +kernel, by decide +kernel⟩

/-- A statement is parsed as the same statement, with braces of its own around what stands in front
of an `else` and ends with an `if` that the `else` would belong to. -/
theorem HoldsStatement.parse_print_statement (ht : f.HoldsStatement s t) (style : Style) :
    Program.ParsesAs (f.print style s) t.braced :=
  Program.parsesAs_of_spells (ht.spells_print style)

/-- A label and a loop in front of an `else`, with an `if` at the end. -/
def hiddenIf : StatementTree :=
  .labeled letterB (.guarded .whileLoop (.name letterA)
    (.ifThen (.name letterB) (.expression (.name letterA))))

def hiddenIfForest : Forest :=
  .ofNodes [.name .identifier "a", .name .identifier "b", .operand .expressionStatement (some 0),
    .conditionalStatement (some 1) (some 2) none, .guarded .whileLoop (some 0) (some 3),
    .labeled (some 1) (some 4), .operand .expressionStatement (some 1),
    .conditionalStatement (some 0) (some 5) (some 6)]

theorem parse_print_hiddenIf :
    hiddenIfForest.print {} (some 7) =
      "if (a) \x7b\n  b: while (a) if (b) a;\n\x7d else b;" ∧
    Program.ParsesAs (hiddenIfForest.print {} (some 7))
      (.ifElse (.name letterA) (.block [hiddenIf]) (.expression (.name letterB))) ∧
    (Program.parse (hiddenIfForest.print {} (some 7))).isOk = true := by
  have hidden : hiddenIfForest.HoldsStatement (some 5) hiddenIf :=
    .labeled rfl (.name rfl)
      (.guarded rfl (.name rfl) (.ifThen rfl (.name rfl) (.expression rfl (.name rfl))))
  have hwhole : hiddenIfForest.HoldsStatement (some 7)
      (.ifElse (.name letterA) hiddenIf (.expression (.name letterB))) :=
    .ifElse rfl (.name rfl) hidden (.expression rfl (.name rfl))
  exact ⟨by decide +kernel, hwhole.parse_print_statement {}, by decide +kernel⟩

end Forest
end Untangle
