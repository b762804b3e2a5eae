import Untangle.Proofs.Grammar.ParallelStatements
import Untangle.Proofs.Grammar.SingleElement

/-!
# Parentheses only group

An element of an array is read alike with parentheses around it. How the array is read without them
tells how the element is read inside of them, and what happens at the marks behind it.
-/

namespace Untangle

open Parse

/-!
## Closing lines
-/

namespace Scanner

variable {c : Scanner} {ch : Char} {below : List Char}

/-- At the first mark of a line of closing marks. -/
structure AtLine (c : Scanner) (below : List Char) : Prop where
  token : ∃ offset lineBreak, c.token = closingToken below offset lineBreak
  error : c.error = none
  line : ClosingLine below

theorem Behind.atLine (h : c.Behind below) (hline : ClosingLine below) : c.AtLine below := by
  obtain ⟨offset, htoken⟩ := h.token
  exact ⟨⟨offset, true, htoken⟩, h.error, hline⟩

theorem AtLine.kind_mem (h : c.AtLine below) : c.token.kind ∈ closingKinds := by
  obtain ⟨offset, lineBreak, htoken⟩ := h.token
  rw [htoken]
  exact kind_closingToken_mem offset lineBreak

theorem AtLine.kind_cons (h : c.AtLine (ch :: below)) : c.token.kind = .mark (closingMark ch) := by
  obtain ⟨offset, lineBreak, htoken⟩ := h.token
  rw [htoken]
  rfl

theorem AtLine.kind_nil (h : c.AtLine []) : c.token.kind = .endOfFile := by
  obtain ⟨offset, lineBreak, htoken⟩ := h.token
  rw [htoken]
  rfl

theorem AtLine.scan (h : c.AtLine (ch :: below)) : c.scan.AtLine below := by
  obtain ⟨offset, lineBreak, htoken⟩ := h.token
  have hbelow : ClosingLine below := fun ch' hch' => h.line ch' (List.mem_cons_of_mem _ hch')
  have hnext : c.token.next = ⟨below, offset + 1⟩ := by
    rw [htoken]
    rfl
  have hline : ClosingLine c.token.next.rest := by rwa [hnext]
  obtain ⟨hscan, herror⟩ := scan_closingLine hline
  rw [hnext] at hscan
  exact ⟨⟨_, _, hscan⟩, herror.trans h.error, hbelow⟩

end Scanner

namespace ParseState

/-- At the first mark of a line of closing marks. -/
abbrev AtLine (s : ParseState) (below : List Char) : Prop :=
  s.scanner.AtLine below

end ParseState

/-!
## Putting the reading together
-/

namespace Parse

variable {α β : Type} {act : Parse α} {turn : Parse (Turn α)} {ctx : Context} {s s' t : ParseState}
  {a : α} {e : SyntaxError} {fuel : Nat} {ch : Char} {below : List Char}

theorem run_deeper_of_lt (hdepth : ctx.depth < Limits.parseDepth) :
    deeper act ctx s = act { ctx with depth := ctx.depth + 1 } s := by
  rw [run_deeper, if_neg (Nat.not_le_of_lt hdepth)]

theorem run_advance_of_error (h : s.scanner.scan.error = none) :
    advance ctx s = .ok ((), ⟨s.scanner.scan, s.forest⟩) :=
  run_install_known (.inr h)

theorem run_expect_of_kind {k : TokenKind} (hkind : s.scanner.token.kind = k)
    (herror : s.scanner.scan.error = none) :
    expect k ctx s = .ok (s.scanner.token.next.offset, ⟨s.scanner.scan, s.forest⟩) :=
  (run_bind_of_ok (run_isAt_of_eq hkind)).trans <| (run_bind_of_ok rfl).trans <|
    run_bind_of_ok (run_advance_of_error herror)

theorem run_add_eq (n : Node Slot) (start stop : Nat) : add n start stop ctx s =
    .ok (s.forest.size, ⟨s.scanner, (s.forest.add n start stop).2⟩) :=
  rfl

/-- The next mark of a closing line is taken. -/
theorem run_expect_of_atLine (h : s.AtLine (ch :: below)) :
    expectMark (Scanner.closingMark ch) ctx s =
      .ok (s.scanner.token.next.offset, ⟨s.scanner.scan, s.forest⟩) :=
  run_expect_of_kind h.kind_cons h.scan.error

theorem run_semicolon_of_atLine (h : s.AtLine [';']) :
    semicolon ctx s = .ok ((), ⟨s.scanner.scan, s.forest⟩) := by
  have hmark : s.scanner.token.kind = .mark .semicolon := h.kind_cons
  have heat : eatMark .semicolon ctx s = .ok (true, ⟨s.scanner.scan, s.forest⟩) :=
    (run_bind_of_ok (run_isAt_of_eq hmark)).trans
      (run_bind_of_ok (run_advance_of_error h.scan.error))
  exact run_bind_of_ok heat

theorem run_repeated_of_error (h : turn ctx s = .error e) :
    repeated (fuel + 1) turn ctx s = .error e :=
  run_bind_of_error h

theorem run_repeated_of_last (h : turn ctx s = .ok (.last a, s')) :
    repeated (fuel + 1) turn ctx s = .ok ([a], s') :=
  run_bind_of_ok h

theorem run_repeated_of_item (h : turn ctx s = .ok (.item a, t))
    (hstop : turn ctx t = .ok (.stop, s')) :
    repeated (fuel + 2) turn ctx s = .ok ([a], s') :=
  (run_bind_of_ok h).trans (run_bind_of_ok hstop)

end Parse

namespace Descent

variable {d : Descent} {ctx : Context} {s : ParseState} {x : NodeId}

theorem run_primary_paren (hs : s.Opening .openParen) : d.primary ctx s = d.grouped ctx s := by
  rw [primary]
  refine (run_bind_of_ok rfl).trans ((run_bind_of_ok rfl).trans ?_)
  rw [isContextual_of_opening hs, Bool.false_and, if_neg Bool.false_ne_true]
  refine (run_bind_of_ok (run_isAtIdentifier_of_opening hs)).trans ?_
  rw [hs.kind]
  rfl

theorem run_grouped (herror : s.scanner.scan.error = none) (hin : ctx.noIn = false) :
    d.grouped ctx s = (d.expression >>= fun e => expectMark .closeParen >>= fun _ => pure e) ctx
      ⟨s.scanner.scan, s.forest⟩ := by
  have hctx : { ctx with noIn := false } = ctx := by rw [← hin]
  have hallow : allowingIn d.expression ctx ⟨s.scanner.scan, s.forest⟩ =
      d.expression ctx ⟨s.scanner.scan, s.forest⟩ :=
    congrArg (fun ctx => d.expression ctx ⟨s.scanner.scan, s.forest⟩) hctx
  exact (run_bind_of_ok (run_advance_of_error herror)).trans (run_bind_congr hallow)

/-- A turn in an array where a group starts. -/
theorem run_arrayTurn_paren (hs : s.Opening .openParen) (hin : ctx.noIn = false) :
    d.arrayTurn ctx s = (d.assignment >>= beforeComma) ctx s := by
  have hctx : { ctx with noIn := false } = ctx := by rw [← hin]
  have hread : d.spreadOrAssignment ctx s = d.assignment ctx s :=
    (run_bind_of_ok (run_isAt_of_ne (opening_ne hs (by decide)))).trans
      (congrArg (fun ctx => d.assignment ctx s) hctx)
  rw [arrayTurn]
  refine (run_bind_of_ok rfl).trans ?_
  rw [hs.kind]
  exact run_bind_congr hread

theorem run_arrayLiteral (hs : s.Opening .openBracket) (herror : s.scanner.scan.error = none) :
    d.arrayLiteral ctx s = (repeated d.fuel d.arrayTurn >>= fun elements =>
      expectMark .closeBracket >>= fun stop =>
        add (.list .arrayLiteral (elements.map some)) s.scanner.token.start.offset stop) ctx
          ⟨s.scanner.scan, s.forest⟩ :=
  (run_bind_of_ok rfl).trans (run_bind_of_ok (run_expect_of_kind hs.kind herror))

end Descent

section Goals

variable {n : Nat} {ctx : Context} {s : ParseState}

/-- The context one level deeper. -/
abbrev Context.inner (ctx : Context) : Context :=
  { ctx with depth := ctx.depth + 1 }

/-- A group that is an assignment expression, or starts one. -/
theorem run_parseGoal_group (hs : s.Opening .openParen) (herror : s.scanner.scan.error = none)
    (hin : ctx.noIn = false) (hdepth : ctx.depth < Limits.parseDepth) :
    parseGoal (n + 1) .assignment ctx s =
      ((Descent.expression ⟨parseGoal n, n⟩ >>= fun e => expectMark .closeParen >>= fun _ => pure e)
        >>= Descent.behindPrimary ⟨parseGoal n, n⟩ s.scanner.token.start.offset) ctx.inner
          ⟨s.scanner.scan, s.forest⟩ := by
  refine (run_deeper_of_lt hdepth).trans ((Descent.run_assignment_of_opening hs).trans ?_)
  rw [run_bind_congr (Descent.run_primary_paren hs)]
  have hgroup := @Descent.run_grouped ⟨parseGoal n, n⟩ ctx.inner s herror hin
  exact congrArg (· >>= fun r => Descent.behindPrimary _ _ r.1 ctx.inner r.2) hgroup

/-- An array literal that is an assignment expression, or starts one. -/
theorem run_parseGoal_array (hs : s.Opening .openBracket) (herror : s.scanner.scan.error = none)
    (hdepth : ctx.depth < Limits.parseDepth) :
    parseGoal (n + 1) .assignment ctx s =
      ((repeated n (Descent.arrayTurn ⟨parseGoal n, n⟩) >>= fun elements =>
        expectMark .closeBracket >>= fun stop =>
          add (.list .arrayLiteral (elements.map some)) s.scanner.token.start.offset stop)
        >>= Descent.behindPrimary ⟨parseGoal n, n⟩ s.scanner.token.start.offset) ctx.inner
          ⟨s.scanner.scan, s.forest⟩ := by
  refine (run_deeper_of_lt hdepth).trans ((Descent.run_assignment_of_opening hs).trans ?_)
  rw [run_bind_congr (Descent.run_primary_bracket hs)]
  have harray := @Descent.run_arrayLiteral ⟨parseGoal n, n⟩ ctx.inner s hs herror
  exact congrArg (· >>= fun r => Descent.behindPrimary _ _ r.1 ctx.inner r.2) harray

/-- A statement that starts with an array literal. -/
theorem run_parseGoal_statement (hs : s.Opening .openBracket)
    (hdepth : ctx.depth < Limits.parseDepth) :
    parseGoal (n + 1) .statement ctx s =
      ((Descent.assignment ⟨parseGoal n, n⟩ >>=
        Descent.sequenceBehind ⟨parseGoal n, n⟩ s.scanner.token.start.offset) >>= fun e =>
          endOf e >>= fun stop => semicolon >>= fun _ =>
            add (.operand .expressionStatement (some e)) s.scanner.token.start.offset stop)
        ctx.inner s :=
  (run_deeper_of_lt hdepth).trans (Descent.run_statement_bracket hs)

end Goals

namespace Program

variable {source : String} {s : ParseState} {st : NodeId} {e : SyntaxError}

theorem exists_parseFuel (source : String) : ∃ n, parseFuel source = n + 4 :=
  Nat.exists_eq_add_of_le' (by unfold parseFuel; omega)

/-- Where the first statement is refused, so is the program. -/
theorem parse_of_statement_error (hmore : (Scanner.ofString source).scan.token.kind ≠ .endOfFile)
    (herror : (Scanner.ofString source).scan.error = none)
    (h : parseGoal (parseFuel source) .statement .outermost
      ⟨(Scanner.ofString source).scan, .empty⟩ = .error e) : parse source = .error e := by
  have hturn : programTurn ⟨parseGoal (parseFuel source), parseFuel source⟩ .outermost
      ⟨(Scanner.ofString source).scan, .empty⟩ = .error e :=
    (run_bind_of_ok (run_isAt_of_ne hmore)).trans (run_bind_of_error h)
  obtain ⟨n, hfuel⟩ := exists_parseFuel source
  rw [hfuel] at hturn
  have hrun : program ⟨parseGoal (n + 4), n + 4⟩ .outermost ⟨.ofString source, .empty⟩ =
      .error e :=
    (run_bind_of_ok (run_advance_of_error herror)).trans
      (run_bind_of_error (run_repeated_of_error hturn))
  rw [parse_eq, hfuel, hrun]
  rfl

/-- A program of one statement. -/
theorem parse_of_statement (hmore : (Scanner.ofString source).scan.token.kind ≠ .endOfFile)
    (herror : (Scanner.ofString source).scan.error = none)
    (h : parseGoal (parseFuel source) .statement .outermost
      ⟨(Scanner.ofString source).scan, .empty⟩ = .ok (st, s))
    (hend : s.scanner.token.kind = .endOfFile)
    (hnone : s.forest.cells.find? (isStrayShorthand s.forest) = none) :
    ∃ stop, parse source = .ok
      ⟨(s.forest.add (.body .program [some st]) 0 stop).2, s.forest.size⟩ := by
  have hturn : programTurn ⟨parseGoal (parseFuel source), parseFuel source⟩ .outermost
      ⟨(Scanner.ofString source).scan, .empty⟩ = .ok (.item st, s) :=
    (run_bind_of_ok (run_isAt_of_ne hmore)).trans (run_bind_of_ok h)
  have hstop : programTurn ⟨parseGoal (parseFuel source), parseFuel source⟩ .outermost s =
      .ok (.stop, s) := run_bind_of_ok (run_isAt_of_eq hend)
  have hcheck : checkShorthands .outermost s = .ok ((), s) := by
    refine (run_bind_of_ok rfl).trans ?_
    rw [hnone]
    rfl
  obtain ⟨n, hfuel⟩ := exists_parseFuel source
  rw [hfuel] at hturn hstop
  have hrun : program ⟨parseGoal (n + 4), n + 4⟩ .outermost ⟨.ofString source, .empty⟩ =
      add (.body .program [some st]) 0 s.scanner.token.next.offset .outermost s :=
    (run_bind_of_ok (run_advance_of_error herror)).trans <|
      (run_bind_of_ok (run_repeated_of_item hturn hstop)).trans <|
        (run_bind_of_ok hcheck).trans (run_bind_of_ok rfl)
  rw [parse_eq, hfuel, hrun]
  exact ⟨s.scanner.token.next.offset, rfl⟩

end Program

/-!
## An array with a group in it
-/

/-- A group opens behind the bracket of an array. -/
structure ParseState.OpensGroup (s : ParseState) : Prop where
  bracket : s.Opening .openBracket
  paren : ParseState.Opening ⟨s.scanner.scan, s.forest⟩ .openParen
  error : s.scanner.scan.error = none
  error' : s.scanner.scan.scan.error = none

section Groups

variable {n : Nat} {s t : ParseState} {x : NodeId} {e : SyntaxError}

/-- The one element of an array and the bracket behind it. -/
theorem run_elements {turn : Parse (Turn NodeId)} {ctx : Context} {fuel start : Nat}
    {below : List Char} (hturn : turn ctx s = .ok (.last x, t)) (ht : t.AtLine (']' :: below)) :
    (repeated (fuel + 1) turn >>= fun elements => expectMark .closeBracket >>= fun stop =>
      add (.list .arrayLiteral (elements.map some)) start stop) ctx s =
        .ok (t.forest.size, ⟨t.scanner.scan, (t.forest.add (.list .arrayLiteral [some x]) start
          t.scanner.token.next.offset).2⟩) := by
  refine (run_bind_of_ok (run_repeated_of_last hturn)).trans ?_
  have hclose : expectMark .closeBracket ctx t =
      .ok (t.scanner.token.next.offset, ⟨t.scanner.scan, t.forest⟩) := run_expect_of_atLine ht
  exact (run_bind_of_ok hclose).trans (run_add_eq ..)

/-- An expression statement and the semicolon behind it. -/
theorem run_semicolon_add (ctx : Context) (s : ParseState) (x : NodeId) (start : Nat)
    (hs : s.AtLine [';']) :
    ∃ s' stop, (endOf x >>= fun stop => semicolon >>= fun _ =>
        add (.operand .expressionStatement (some x)) start stop) ctx s =
          .ok (s.forest.size, s') ∧ s'.scanner = s.scanner.scan ∧
      s.forest.add (.operand .expressionStatement (some x)) start stop =
        (s.forest.size, s'.forest) :=
  ⟨_, _, (run_bind_of_ok rfl).trans
    ((run_bind_of_ok (run_semicolon_of_atLine hs)).trans (run_add_eq ..)), rfl, rfl⟩

/-- What refuses the group refuses the statement. -/
theorem statement_of_group_error (hs : s.OpensGroup)
    (h : Descent.expression ⟨parseGoal (n + 1), n + 1⟩ ⟨3, false, false, false⟩
      ⟨s.scanner.scan.scan, s.forest⟩ = .error e) :
    parseGoal (n + 4) .statement .outermost s = .error e := by
  have hgroup : parseGoal (n + 2) .assignment ⟨2, false, false, false⟩
      ⟨s.scanner.scan, s.forest⟩ = .error e :=
    (run_parseGoal_group hs.paren hs.error' rfl (by decide)).trans
      (run_bind_of_error (run_bind_of_error h))
  have hturn : Descent.arrayTurn ⟨parseGoal (n + 2), n + 2⟩ ⟨2, false, false, false⟩
      ⟨s.scanner.scan, s.forest⟩ = .error e :=
    (Descent.run_arrayTurn_paren hs.paren rfl).trans (run_bind_of_error hgroup)
  have harray : parseGoal (n + 3) .assignment ⟨1, false, false, false⟩ s = .error e :=
    (run_parseGoal_array hs.bracket hs.error (by decide)).trans
      (run_bind_of_error (run_bind_of_error (run_repeated_of_error hturn)))
  exact (run_parseGoal_statement hs.bracket (by decide)).trans
    (run_bind_of_error (run_bind_of_error harray))

/-- The marks behind the group end the statement. -/
theorem statement_of_group (hs : s.OpensGroup)
    (h : Descent.assignment ⟨parseGoal (n + 1), n + 1⟩ ⟨3, false, false, false⟩
      ⟨s.scanner.scan.scan, s.forest⟩ = .ok (x, t)) (ht : t.AtLine Scanner.wrappedLine) :
    ∃ s' start stop start' stop' statement,
      parseGoal (n + 4) .statement .outermost s = .ok (statement, s') ∧ s'.AtLine [] ∧
      (t.forest.add (.list .arrayLiteral [some x]) start stop).2.add
        (.operand .expressionStatement (some t.forest.size)) start' stop' =
          (statement, s'.forest) := by
  have hbracket := ht.scan
  have hsemicolon := hbracket.scan
  have hend := hsemicolon.scan
  have hgroup : parseGoal (n + 2) .assignment ⟨2, false, false, false⟩
      ⟨s.scanner.scan, s.forest⟩ = .ok (x, ⟨t.scanner.scan, t.forest⟩) := by
    refine (run_parseGoal_group hs.paren hs.error' rfl (by decide)).trans ?_
    have hexpression : Descent.expression ⟨parseGoal (n + 1), n + 1⟩ ⟨3, false, false, false⟩
        ⟨s.scanner.scan.scan, s.forest⟩ = .ok (x, t) :=
      (run_bind_of_ok h).trans (Descent.answers_sequenceBehind (Nat.succ_pos n) _ x ht.kind_mem)
    refine (run_bind_of_ok ((run_bind_of_ok hexpression).trans
      (run_bind_of_ok (run_expect_of_atLine ht)))).trans ?_
    exact Descent.answers_behindPrimary (Nat.succ_pos n) _ x hbracket.kind_mem
  have hturn : Descent.arrayTurn ⟨parseGoal (n + 2), n + 2⟩ ⟨2, false, false, false⟩
      ⟨s.scanner.scan, s.forest⟩ = .ok (.last x, ⟨t.scanner.scan, t.forest⟩) :=
    (Descent.run_arrayTurn_paren hs.paren rfl).trans <| (run_bind_of_ok hgroup).trans <|
      answers_beforeComma x hbracket.kind_mem
  have harray : parseGoal (n + 3) .assignment ⟨1, false, false, false⟩ s = .ok (t.forest.size,
      ⟨t.scanner.scan.scan, (t.forest.add (.list .arrayLiteral [some x])
        s.scanner.token.start.offset t.scanner.scan.token.next.offset).2⟩) := by
    refine (run_parseGoal_array hs.bracket hs.error (by decide)).trans ?_
    refine (run_bind_of_ok (run_elements hturn hbracket)).trans ?_
    exact Descent.answers_behindPrimary (Nat.succ_pos _) _ _ hsemicolon.kind_mem
  obtain ⟨s', stop, hstatement, hscanner, hadd⟩ := run_semicolon_add ⟨1, false, false, false⟩
    ⟨t.scanner.scan.scan, (t.forest.add (.list .arrayLiteral [some x])
      s.scanner.token.start.offset t.scanner.scan.token.next.offset).2⟩
    t.forest.size s.scanner.token.start.offset hsemicolon
  refine ⟨s', _, _, _, stop, _, ?_, ?_, hadd⟩
  · refine (run_parseGoal_statement hs.bracket (by decide)).trans ?_
    exact (run_bind_of_ok ((run_bind_of_ok harray).trans
      (Descent.answers_sequenceBehind (Nat.succ_pos _) _ _ hsemicolon.kind_mem))).trans hstatement
  · rw [ParseState.AtLine, hscanner]
    exact hend

/-- Behind a comma there is no expression. -/
theorem sequenceBehind_of_comma {ctx : Context} {start : Nat}
    (hcomma : s.scanner.token.kind = .mark .comma) (herror : s.scanner.scan.error = none)
    (hclosing : s.scanner.scan.token.kind ∈ Scanner.closingKinds) :
    ∃ e, Descent.sequenceBehind ⟨parseGoal (n + 1), n + 1⟩ start x ctx s = .error e ∧
      (e.cause = .expressionExpected ∨ e.cause = .nestedTooDeeply) := by
  have heat : eatMark .comma ctx s = .ok (true, ⟨s.scanner.scan, s.forest⟩) :=
    (run_bind_of_ok (run_isAt_of_eq hcomma)).trans (run_bind_of_ok (run_advance_of_error herror))
  obtain ⟨e, he, hcause⟩ := @refuses_parseGoal_assignment (n + 1) ctx
    ⟨s.scanner.scan, s.forest⟩ hclosing
  exact ⟨e, run_bind_of_error (run_repeated_of_error
    ((run_bind_of_ok heat).trans (run_bind_of_error he))), hcause⟩

end Groups

/-!
## Texts that end in a comma
-/

/-- A comma, and perhaps blanks and comments behind it. -/
def EndsWithComma (text : String) : Prop :=
  ∃ before gap, text.toList = before ++ ',' :: gap ∧ ∃ offset > 0, Gap.Blank offset gap []

namespace Scanner

variable {s t t₁ t₂ : Scanner} {text : String}

/-- In front of the mark behind the element the element ends. -/
theorem Within.ends_of_behind (h : Within t₁ t₂) (hbehind : t₁.scan.Behind bareLine) :
    ∃ s : Scanner, s.Standing ∧ t₁ = s.inside 0 ('\n' :: bareLine) ∧
      s.scan.token.kind = .endOfFile := by
  obtain ⟨s, hs, rfl, -⟩ := h
  refine ⟨s, hs, rfl, ?_⟩
  have hmatches := hs.matches 0 ('\n' :: bareLine)
  obtain ⟨offset, htoken⟩ := hbehind.token
  by_contra hend
  by_cases hunknown : s.scan.token.kind = .unknown
  · have hkind := (hmatches.scan_unknown closingLine_bareLine hunknown).1
    rw [htoken] at hkind
    cases hkind
  · have hscan := (hmatches.scan_known closingLine_bareLine hunknown hend).2
    have hrest : s.scan.token.start.rest ++ '\n' :: bareLine = bareLine := by
      have hstart := congrArg (fun c : Scanner => c.token.start.rest) hscan
      rw [htoken] at hstart
      exact hstart.symm
    have hlength := congrArg List.length hrest
    rw [List.length_append, List.length_cons] at hlength
    omega

/-- A comma in front of the mark behind the element is the last token of the text. -/
theorem Within.endsWithComma (h : Within t₁ t₂)
    (hsafe : t₁.Safe (Program.inBrackets text)) (hcomma : t₁.token.kind = .mark .comma)
    (hbehind : t₁.scan.Behind bareLine) : EndsWithComma text := by
  obtain ⟨s, hs, rfl, hend⟩ := h.ends_of_behind hbehind
  have hspelled : s.token.start.rest = ',' :: s.token.next.rest := hs.spelled .comma hcomma
  obtain ⟨gap, word, hfollows⟩ := follows_scan (s := s) (by rw [hend]; nofun)
  have hgap : s.token.next.rest = gap := by
    rw [hfollows.before.rest, hfollows.atEnd hend, List.append_nil]
  have hblank := hfollows.blank
  rw [hfollows.atEnd hend] at hblank
  -- The comma stands behind the bracket.
  obtain ⟨front, hfront⟩ := hsafe.start
  have htext : '[' :: (text.toList ++ '\n' :: bareLine) =
      (front ++ ',' :: gap) ++ '\n' :: bareLine := by
    have hrest := hfront.rest
    change (Program.inBrackets text).toList = front ++ (s.token.start.rest ++ '\n' :: bareLine)
      at hrest
    rw [toList_inBrackets, hspelled, hgap, ← List.append_assoc] at hrest
    exact hrest
  have hinner : '[' :: text.toList = front ++ ',' :: gap :=
    List.append_cancel_right (htext : ('[' :: text.toList) ++ _ = _)
  cases front with
  | nil => exact absurd (List.cons.inj hinner).1 (by decide)
  | cons ch before =>
      refine ⟨before, gap, (List.cons.inj hinner).2, s.token.next.offset, ?_, hblank⟩
      obtain ⟨w, hw⟩ := hs.reaches
      exact Nat.lt_of_lt_of_le hs.offset hw.offset_le

end Scanner

namespace Program

variable {source text : String}

/-- What has been read of a text that starts with a mark is a part of it. -/
theorem safe_of_element {n : Nat} {ctx : Context} {x : NodeId} {s : ParseState}
    (hctx : ctx.depth ≤ Limits.parseDepth)
    (hrun : parseGoal n .assignment ctx ⟨(Scanner.ofString source).scan.scan, .empty⟩ =
      .ok (x, s)) : s.scanner.Safe source := by
  have hsafe := Scanner.safe_ofString source
  have hrow : (Forest.empty).Row source 0 [] := ⟨Forest.nested_empty source, nofun, .nil, nofun⟩
  have hbehind : Behind source (ctx.room + 0) ⟨(Scanner.ofString source).scan.scan, .empty⟩ [] [] :=
    ⟨hsafe.scan.scan, hrow.raise (Nat.zero_le _), nofun⟩
  have hlays : LaysNode 0 (parseGoal n .assignment) := (laysTrees_parseGoal n n).assignment
  exact (hlays _ rfl hctx hbehind hrun).1.safe

/-- In the text with parentheses, behind the marks that open the group. -/
theorem opensGroup_inParentheses
    (hplain : (Scanner.ofString (inParentheses text)).scan.scan.parametersFollow = false)
    (herror : (Scanner.ofString (inParentheses text)).scan.scan.scan.error = none) :
    ParseState.OpensGroup ⟨(Scanner.ofString (inParentheses text)).scan, .empty⟩ := by
  obtain ⟨hbracket, -, hparen, herror', -⟩ := Scanner.scan_inParentheses text
  exact ⟨⟨hbracket, by decide, nofun⟩, ⟨hparen, by decide, fun _ => hplain⟩, herror', herror⟩

/-- Where the element is read alike inside of the parentheses, the program has the same tree. -/
theorem parse_of_group {m : Nat} {x : NodeId} {f : Forest} {w : ParseState} {p : Program}
    (hopens : ParseState.OpensGroup ⟨(Scanner.ofString source).scan, .empty⟩)
    (hmore : (Scanner.ofString source).scan.token.kind ≠ .endOfFile)
    (herror : (Scanner.ofString source).scan.error = none) (hfuel : parseFuel source = m + 4)
    (hrun : parseGoal (m + 1) .assignment ⟨3, false, false, false⟩
      ⟨(Scanner.ofString source).scan.scan.scan, .empty⟩ = .ok (x, w))
    (hline : w.scanner.Behind Scanner.wrappedLine)
    (hforest : f.withoutSpans = w.forest.withoutSpans) (hframed : f.Framed x p) :
    ∃ q, parse source = .ok q ∧ q.root = p.root ∧
      q.forest.withoutSpans = p.forest.withoutSpans := by
  have hframe := hframed
  obtain ⟨_, _, _, _, _, _, h, hbelow, hshorthands, -⟩ := hframe
  obtain ⟨s', start, stop, start', stop', statement, hstatement, hend, hadd⟩ :=
    statement_of_group hopens hrun (hline.atLine Scanner.closingLine_wrappedLine)
  rw [← hfuel] at hstatement
  have hsame := (Forest.statement_eq_of_withoutSpans hforest hbelow hadd).2
  have hnone := Forest.find?_isStrayShorthand_eq hsame hshorthands
  obtain ⟨stop'', hparse⟩ := parse_of_statement hmore herror hstatement hend.kind_nil hnone
  have hframed' : w.forest.Framed x ⟨_, _⟩ :=
    ⟨start, stop, start', stop', stop'', statement, s'.forest, hadd, hnone, rfl⟩
  exact ⟨_, hparse, hframed.same hforest hframed'⟩

/-- Parentheses around the element of an array only group, unless the mark that opens them looks as
if it opened parameters: the program has the same tree. It may be nested too deeply, though, and the
comma that may stand behind the last element of an array may not stand behind an expression. -/
theorem parse_inParentheses {p : Program} {x : NodeId} (h : parse (inBrackets text) = .ok p)
    (hx : p.element? = some x)
    (hplain : (Scanner.ofString (inParentheses text)).scan.scan.parametersFollow = false) :
    (∃ q, parse (inParentheses text) = .ok q ∧ q.root = p.root ∧
      q.forest.withoutSpans = p.forest.withoutSpans) ∨
    ∃ e, parse (inParentheses text) = .error e ∧
      (e.cause = .nestedTooDeeply ∨ e.cause = .expressionExpected ∧ EndsWithComma text) := by
  obtain ⟨n, v, u, hfirst, helement, hcomma, hends, hframed⟩ := element_of_parse h hx
  have hstart := (Scanner.twins_element text).resolve_right fun hmalformed => hfirst hmalformed.1
  have hopens := opensGroup_inParentheses hplain hstart.error.2
  obtain ⟨hbracket, herror, -⟩ := Scanner.scan_inParentheses text
  have hmore : (Scanner.ofString (inParentheses text)).scan.token.kind ≠ .endOfFile := by
    rw [hbracket]
    nofun
  obtain ⟨m, hfuel⟩ := exists_parseFuel (inParentheses text)
  -- What refuses the element inside of the parentheses refuses the program.
  have hrefused : ∀ {e}, Descent.expression ⟨parseGoal (m + 1), m + 1⟩ ⟨3, false, false, false⟩
      ⟨(Scanner.ofString (inParentheses text)).scan.scan.scan, .empty⟩ = .error e →
        parse (inParentheses text) = .error e := fun he =>
    parse_of_statement_error hmore herror (hfuel ▸ statement_of_group_error hopens he)
  have hstates : ParseState.Twins ⟨(Scanner.ofString (inBrackets text)).scan.scan, .empty⟩
      ⟨(Scanner.ofString (inParentheses text)).scan.scan.scan, .empty⟩ := ⟨hstart, rfl⟩
  have hctx : Context.Alike ⟨2, false, false, false⟩ ⟨3, false, false, false⟩ := ⟨rfl, rfl, rfl⟩
  have hout := (same_parseGoal n (m + 1) .assignment).twins hctx hstates
  rw [helement] at hout
  have hread : ¬ v.Past := by
    rintro ⟨hkind | hkind, -⟩ <;> rcases hcomma with rfl | ⟨hmark, -⟩
    · exact absurd (hends.kind.symm.trans hkind) (by decide)
    · exact absurd (hmark.symm.trans hkind) (by decide)
    · exact absurd (hends.kind.symm.trans hkind) (by decide)
    · exact absurd (hmark.symm.trans hkind) (by decide)
  generalize hrun : parseGoal (m + 1) .assignment ⟨3, false, false, false⟩
    ⟨(Scanner.ofString (inParentheses text)).scan.scan.scan, .empty⟩ = out at hout
  cases hout with
  | past hpast => exact absurd hpast hread
  | alone hleaves => exact hleaves.elim
  | tooDeep hcause =>
      have herror := hrefused (Descent.run_expression.trans (run_bind_of_error hrun))
      exact .inr ⟨_, herror, .inl hcause⟩
  | @both _ y _ w hanswers hstates =>
      subst hanswers
      rcases hcomma with rfl | ⟨hmark, hscan, hknown⟩
      · obtain ⟨-, hline⟩ := hstates.scanner.behind_of_endsProgram hends
        exact .inl (parse_of_group hopens hmore herror hfuel hrun hline hstates.forest hframed)
      · have hwithin : v.scanner.Within w.scanner := by
          cases hstates.scanner with
          | within hwithin => exact hwithin
          | behind hv _ => exact absurd (hv.kind_bareLine.symm.trans hmark) (by decide)
        have hnext := hwithin.scan_of_not_malformed hknown
        obtain ⟨hv, hw⟩ := hnext.behind_of_endsProgram (hscan ▸ hends)
        obtain ⟨e, he, hcause⟩ := sequenceBehind_of_comma (hwithin.kind.symm.trans hmark)
          hnext.error.2 hw.kind_mem
        have herror := hrefused (Descent.run_expression.trans ((run_bind_of_ok hrun).trans he))
        refine .inr ⟨e, herror, ?_⟩
        have hsafe := safe_of_element (by decide) helement
        exact hcause.elim (fun h => .inr ⟨h, hwithin.endsWithComma hsafe hmark hv⟩) .inl

theorem exists_element_of_parse (source : String)
    (h : (parse source).toOption.any (fun p => p.element?.isSome) = true) :
    ∃ p x, parse source = .ok p ∧ p.element? = some x := by
  cases hparse : parse source with
  | error e =>
      rw [hparse] at h
      cases h
  | ok p =>
      rw [hparse] at h
      obtain ⟨x, hx⟩ := Option.isSome_iff_exists.mp h
      exact ⟨p, x, rfl, hx⟩

/-- A group inside of the element, and one around it. -/
theorem parse_inParentheses_sequence :
    ∃ p x, parse (inBrackets "a = (b, c)") = .ok p ∧ p.element? = some x ∧
      (Scanner.ofString (inParentheses "a = (b, c)")).scan.scan.parametersFollow = false ∧
      ((∃ q, parse (inParentheses "a = (b, c)") = .ok q ∧ q.root = p.root ∧
        q.forest.withoutSpans = p.forest.withoutSpans) ∨
      ∃ e, parse (inParentheses "a = (b, c)") = .error e ∧
        (e.cause = .nestedTooDeeply ∨
          e.cause = .expressionExpected ∧ EndsWithComma "a = (b, c)")) := by
  obtain ⟨p, x, h, hx⟩ := exists_element_of_parse (inBrackets "a = (b, c)")
    (by decide +kernel)
  have hplain : (Scanner.ofString (inParentheses "a = (b, c)")).scan.scan.parametersFollow =
    false := by decide +kernel
  exact ⟨p, x, h, hx, hplain, parse_inParentheses h hx hplain⟩

/-- The comma that ends an array is no part of its element. -/
theorem parse_inParentheses_comma :
    ∃ p x e, parse (inBrackets "a,") = .ok p ∧ p.element? = some x ∧
      parse (inParentheses "a,") = .error e ∧ e.cause = .expressionExpected := by
  obtain ⟨p, x, h, hx⟩ := exists_element_of_parse (inBrackets "a,") (by decide +kernel)
  have hcause : (match parse (inParentheses "a,") with
      | .error e => decide (e.cause = .expressionExpected)
      | .ok _ => false) = true := by decide +kernel
  cases hparse : parse (inParentheses "a,") with
  | ok q =>
      rw [hparse] at hcause
      cases hcause
  | error e =>
      rw [hparse] at hcause
      exact ⟨p, x, e, h, hx, rfl, of_decide_eq_true hcause⟩

end Program
end Untangle
