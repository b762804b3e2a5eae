import Untangle.Proofs.Printing.NumberAccess
import Untangle.Proofs.Printing.PrintedWords

/-!
# Layouts of expressions

The layout of an expression that a forest holds writes the words of the expression.
-/

namespace Untangle

open Layout

/-!
## Pieces of expressions
-/

namespace Layout

variable {L M : Layout} {w : Word} {ws ws' : List Word} {ends : List Char → Prop}

theorem writes_nonempty_word (hw : w.Proper) : (text w.text).Writes [w] w.EndsBefore := by
  refine writes_word hw ?_
  cases hw with
  | name name =>
      rcases exists_cons_of_isIdentifierName name.isName with ⟨ch, chars, htext, _⟩
      intro hempty
      rw [show name.text = "" from hempty] at htext
      cases htext
  | keyword k => exact (by cases k <;> decide : k.text ≠ "")
  | @mark p hp => exact (by cases p <;> decide : p.text ≠ "")
  | @attached p hp => exact (by cases p <;> decide : p.text ≠ "")

theorem continues_mark {p : Punctuator} (hp : p ∈ finalMarks) :
    Continues p.text.toList [.mark p] Anything := by
  have hplain : ∀ p ∈ finalMarks, p.isPlain = true := by decide
  exact (continues_word (.mark (hplain p hp))).mono fun rest _ =>
    endsBefore_of_mem_finalMarks hp rest

theorem writes_mark {p : Punctuator} (hp : p ∈ finalMarks) :
    (text p.text).Writes [.mark p] Anything := by
  have hplain : ∀ p ∈ finalMarks, p.isPlain = true := by decide
  exact (writes_nonempty_word (.mark (hplain p hp))).mono fun rest _ =>
    endsBefore_of_mem_finalMarks hp rest

theorem Writes.parenthesized (h : L.Writes ws NameEnds) (hws : ws ≠ []) :
    (parenthesized L).Writes (.mark .openParen :: (ws ++ [.mark .closeParen])) Anything := by
  have hopen := writes_mark (by decide : Punctuator.openParen ∈ finalMarks)
  have hinside := hopen.append h (List.cons_ne_nil _ _) (fun _ _ _ => trivial) hws
  exact hinside.appendText (continues_mark (by decide : Punctuator.closeParen ∈ finalMarks))
    (by simp) fun rest => nameEnds_cons (by decide +kernel)

/-- A punctuator with spaces around it between two layouts. -/
theorem Writes.spacedMark {p : Punctuator} {s : String} (h : L.Writes ws NameEnds)
    (h' : M.Writes ws' ends) (hp : p.isPlain = true)
    (hs : s.toList = ' ' :: (p.text.toList ++ [' '])) (hws : ws ≠ []) (hws' : ws' ≠ []) :
    (L ++ text s ++ M).Writes (ws ++ .mark p :: ws') ends := by
  have hword : Continues s.toList [.mark p] Anything := by
    rw [hs]
    exact (continues_space.cons (.mark hp) fun rest =>
      Word.Proper.endsBefore_space (.mark hp) rest).space
  have hleft := h.appendText hword hws fun rest => by
    rw [hs]
    exact nameEnds_cons continuesName_space
  rw [List.append_cons]
  exact hleft.append h' (by simp) (fun _ _ _ => trivial) hws'

/-- A comma between two layouts. -/
theorem Writes.comma (h : L.Writes ws NameEnds) (h' : M.Writes ws' ends) (hws : ws ≠ [])
    (hws' : ws' ≠ []) : (L ++ text ", " ++ M).Writes (ws ++ .mark .comma :: ws') ends := by
  have hword : Continues ", ".toList ([.mark .comma] ++ []) Anything :=
    (continues_mark (by decide : Punctuator.comma ∈ finalMarks)).append continues_space
      fun _ => trivial
  have hleft := h.appendText hword hws fun rest => nameEnds_cons (by decide +kernel)
  rw [List.append_cons]
  exact hleft.append h' (by simp) (fun _ _ _ => trivial) hws'

end Layout

/-!
## Nodes
-/

namespace Forest

variable {f : Forest} {s : Slot} {c : Cell} {e : ExpressionTree}

theorem Holds.isAmbiguousStart (he : f.Holds s e) (hc : f.cell? s = some c) :
    f.isAmbiguousStart c = false := by
  have hnode : ∀ {n}, f.node? s = some n → c.node = n := by
    intro n hs
    rw [node?_eq, hc] at hs
    exact Option.some.inj hs
  cases he with
  | @name _ name hs =>
      have hlet : (name.text == "let") = false := by
        rw [beq_eq_false_iff_ne]
        intro hlet
        have hfree := name.isFree
        rw [hlet] at hfree
        cases hfree
      simp [Forest.isAmbiguousStart, hnode hs, hlet]
  | unary hs hc => simp [Forest.isAmbiguousStart, hnode hs]
  | update hs hc => simp [Forest.isAmbiguousStart, hnode hs]
  | binary hs ha hb => simp [Forest.isAmbiguousStart, hnode hs]
  | assignment hs ha hb => simp [Forest.isAmbiguousStart, hnode hs]
  | conditional hs ha hb hc => simp [Forest.isAmbiguousStart, hnode hs]
  | sequence hs ha hb hslots => simp [Forest.isAmbiguousStart, hnode hs]

/-- What the printer asks about a node in order to set parentheses. -/
structure Describes (e : ExpressionTree) (n : Node Slot) : Prop where
  precedence : n.precedence = e.precedence
  isIn : Printer.isInOperator n = e.isIn

theorem Holds.describes (he : f.Holds s e) : ∃ n, f.node? s = some n ∧ Describes e n := by
  cases he with
  | name hs => exact ⟨_, hs, rfl, rfl⟩
  | @unary _ _ operator _ hs hc =>
      refine ⟨_, hs, ?_, rfl⟩
      simp [Node.precedence, ExpressionTree.precedence, operator.isUpdate_eq_false]
  | @update _ _ form operator _ hs hc =>
      refine ⟨_, hs, ?_, rfl⟩
      cases form <;> simp [Node.precedence, ExpressionTree.precedence, operator.isUpdate]
  | @binary _ _ _ _ operator _ hs ha hb =>
      refine ⟨_, hs, ?_, ?_⟩
      · unfold Descent.binaryForm
        split <;> simp [Node.precedence, ExpressionTree.precedence, operator.binds]
      · unfold Descent.binaryForm
        split
        · rename_i hlogical
          have hne : (operator.kind == .word .«in») = false := by
            rw [beq_eq_false_iff_ne]
            intro hin
            rw [hin] at hlogical
            cases hlogical
          simp [Printer.isInOperator, ExpressionTree.isIn, hne]
        · rfl
  | assignment hs ha hb => exact ⟨_, hs, rfl, rfl⟩
  | conditional hs ha hb hc => exact ⟨_, hs, rfl, rfl⟩
  | sequence hs ha hb hslots => exact ⟨_, hs, rfl, rfl⟩

theorem Holds.mixesCoalesce (he : f.Holds s e) (operator : TokenKind) :
    f.mixesCoalesce operator s = e.mixesCoalesce operator := by
  unfold Forest.mixesCoalesce satisfies
  cases he with
  | name hs => rw [hs]; rfl
  | unary hs hc => rw [hs]; rfl
  | update hs hc => rw [hs]; rfl
  | @binary _ _ _ _ inner _ hs ha hb =>
      rw [hs]
      unfold Descent.binaryForm
      split
      · rename_i hlogical
        simp [ExpressionTree.mixesCoalesce, hlogical]
      · rename_i hlogical
        simp [ExpressionTree.mixesCoalesce, hlogical]
  | assignment hs ha hb => rw [hs]; rfl
  | conditional hs ha hb hc => rw [hs]; rfl
  | sequence hs ha hb hslots => rw [hs]; rfl

/-- The printer separates signs that would join. -/
theorem Holds.joinsSign (he : f.Holds s e) {operator : TokenKind}
    (h : f.repeatsSign operator s = false) :
    ∀ k, e.front? = some k → joinsSign operator k = false := by
  intro k hk
  have hfront : ∃ c, f.node? s = some (.unary .before k c) := by
    cases he with
    | unary hs hc =>
        obtain rfl := Option.some.inj hk
        exact ⟨_, hs⟩
    | @update _ _ form operator _ hs hc =>
        cases form with
        | before =>
            obtain rfl := Option.some.inj hk
            exact ⟨_, hs⟩
        | after => cases hk
    | _ => cases hk
  rcases hfront with ⟨c, hs⟩
  unfold repeatsSign satisfies at h
  rw [hs] at h
  unfold Untangle.joinsSign
  rw [Bool.or_eq_false_iff]
  constructor
  · rw [Bool.and_eq_false_iff]
    by_cases hoperator : operator = .mark .plus
    · subst hoperator
      exact .inr h
    · exact .inl (beq_eq_false_iff_ne.mpr hoperator)
  · rw [Bool.and_eq_false_iff]
    by_cases hoperator : operator = .mark .minus
    · subst hoperator
      exact .inr h
    · exact .inl (beq_eq_false_iff_ne.mpr hoperator)

/-!
## Layouts
-/

variable {fuel : Nat} {quotes : Text.QuoteStyle} {place : Place}

theorem Holds.needsParentheses (he : f.Holds s e) (hc : f.cell? s = some c) :
    Printer.needsParentheses f place c = e.needsParentheses place := by
  rcases he.describes with ⟨n, hs, hn⟩
  have hnode : c.node = n := by
    rw [node?_eq, hc] at hs
    exact Option.some.inj hs
  rw [Printer.needsParentheses, he.isAmbiguousStart hc, hnode, hn.precedence, hn.isIn,
    Bool.and_false, Bool.or_false]
  rfl

/-- Only parentheses come to what a node writes. -/
theorem Holds.writes_of_plain (he : f.Holds s e) {n : Node Slot} (hs : f.node? s = some n)
    (hplain : ∀ place, (Printer.plain ⟨f, quotes, f.layout quotes fuel⟩ place n).Writes
      (e.plainWords place) NameEnds) :
    (f.layout quotes (fuel + 1) place s).Writes (e.words place) NameEnds := by
  rw [node?_eq] at hs
  rcases Option.map_eq_some_iff.mp hs with ⟨c, hc, rfl⟩
  rw [layout, hc]
  dsimp only
  rw [Printer.cell, he.needsParentheses hc]
  cases hneeded : e.needsParentheses place with
  | true =>
      rw [if_pos rfl, ExpressionTree.words_of_needsParentheses hneeded]
      rcases e.exists_plainWords place.unwrapped with ⟨w, ws, hws, _⟩
      refine ((hplain place.unwrapped).parenthesized ?_).mono fun _ _ => trivial
      rw [hws]
      exact List.cons_ne_nil _ _
  | false =>
      rw [if_neg Bool.false_ne_true, ExpressionTree.words_of_not_needsParentheses hneeded]
      exact hplain place

theorem writes_name (name : OrdinaryName) :
    (text name.text).Writes [.name name] NameEnds :=
  writes_nonempty_word (.name name)

/-- A unary operator, with a space behind it where its operand would change it. -/
theorem writes_before {operator : UnaryOperator} {operand : ExpressionTree} {L : Layout}
    {needsSpace : Bool} (hL : L.Writes (operand.words place) NameEnds)
    (hplace : place.minimum = .unary)
    (hspace : needsSpace = false → operator.kind.isKeyword = false ∧
      ∀ k, operand.front? = some k → joinsSign operator.kind k = false) :
    (text (Printer.operatorText operator.kind) ++ Printer.modifier needsSpace " " ++ L).Writes
      (.of operator.kind :: operand.words place) NameEnds := by
  have hoperator := writes_nonempty_word operator.proper
  cases needsSpace with
  | true =>
      have hspaced := hoperator.appendText continues_space (List.cons_ne_nil _ _) fun rest =>
        operator.proper.endsBefore_space rest
      exact hspaced.append hL (by simp) (fun _ _ _ => trivial) (operand.words_ne_nil place)
  | false =>
      have happend := hoperator.append hL (List.cons_ne_nil _ _)
        (operator.endsBefore_operand hplace (hspace rfl).1 (hspace rfl).2)
        (operand.words_ne_nil place)
      exact happend.congr fun _ _ _ => rfl

theorem UpdateOperator.mem_finalMarks (operator : UpdateOperator) :
    ∃ p ∈ finalMarks, operator.kind = .mark p ∧ p.isPlain = true := by
  rcases operator.mark with hmark | hmark
  · exact ⟨.increment, by decide, hmark, rfl⟩
  · exact ⟨.decrement, by decide, hmark, rfl⟩

theorem writes_updateBefore {operator : UpdateOperator} {target : OrdinaryName} {L : Layout}
    (hL : L.Writes [.name target] NameEnds) :
    (text (Printer.operatorText operator.kind) ++ nothing ++ L).Writes
      [.of operator.kind, .name target] NameEnds := by
  rcases UpdateOperator.mem_finalMarks operator with ⟨p, hp, hkind, _⟩
  rw [hkind]
  have happend := (writes_mark hp).append hL (by simp) (fun _ _ _ => trivial) (by simp)
  exact happend.congr fun _ _ _ => rfl

theorem writes_updateAfter {operator : UpdateOperator} {target : OrdinaryName} {L : Layout}
    (hL : L.Writes [.name target] NameEnds) :
    (L ++ text (Printer.operatorText operator.kind)).Writes
      [.name target, .attached operator.kind] NameEnds := by
  rcases UpdateOperator.mem_finalMarks operator with ⟨p, hp, hkind, hplain⟩
  have hends : ∀ rest, NameEnds (p.text.toList ++ rest) := by
    intro rest
    rcases operator.mark with hmark | hmark <;> cases hkind.symm.trans hmark <;>
      exact nameEnds_cons (by decide +kernel)
  have hoperator : Continues p.text.toList [.attached (.mark p)] NameEnds :=
    (continues_word (.attached hplain)).mono fun rest _ ch _ => goesOn_of_mem_finalMarks hp ch
  rw [hkind]
  exact hL.appendText hoperator (by simp) hends

theorem writes_infix {kind : TokenKind} {L M : Layout} {ws ws' : List Word}
    (hL : L.Writes ws NameEnds) (hM : M.Writes ws' NameEnds) (hkind : (Word.of kind).Proper)
    (hws : ws ≠ []) (hws' : ws' ≠ []) :
    (L ++ text " " ++ text (Printer.operatorText kind) ++ text " " ++ M).Writes
      (ws ++ .of kind :: ws') NameEnds := by
  have hspace := hL.appendText continues_space hws fun rest => nameEnds_cons continuesName_space
  have hoperator := hspace.appendText (continues_word hkind) (by simp [hws]) fun _ => trivial
  have hbehind := hoperator.appendText continues_space (by simp [hws]) fun rest =>
    hkind.endsBefore_space rest
  have hall := hbehind.append hM (by simp [hws]) (fun _ _ _ => trivial) hws'
  rwa [List.append_nil, List.append_nil, ← List.append_cons] at hall

theorem writes_listed {L : Layout} {ws : List Word} {items : List Layout}
    {trees : List ExpressionTree} (hL : L.Writes ws NameEnds) (hws : ws ≠ [])
    (hitems : List.Forall₂ (fun item (e : ExpressionTree) => item.Writes (e.words place) NameEnds)
      items trees) :
    (listed (L :: items)).Writes (ws ++ wordsAfterCommas trees place) NameEnds := by
  rw [ExpressionTree.wordsAfterCommas_eq]
  induction hitems generalizing L ws with
  | nil => exact (List.append_nil ws).symm ▸ hL
  | @cons item e items trees hitem hitems ih =>
      exact hL.comma (ih hitem (e.words_ne_nil place)) hws (by simp [e.words_ne_nil])

theorem Holds.writes_name {name : OrdinaryName} (he : f.Holds s (.name name))
    (hheight : f.EndsWithin fuel s) (hplace : place.isWrapped = false) :
    (f.layout quotes fuel place s).Writes [.name name] NameEnds := by
  obtain ⟨fuel, rfl⟩ := hheight.exists_succ
  rw [← ExpressionTree.words_name name hplace]
  cases id he with
  | name hs => exact he.writes_of_plain hs fun place => Forest.writes_name _

theorem isKeyword_of_not_spelled (operator : UnaryOperator)
    (h : [TokenKind.word .typeof, .word .void, .word .delete].contains operator.kind = false) :
    operator.kind.isKeyword = false := by
  obtain ⟨kind, hkind⟩ := operator
  cases kind with
  | word k => cases k <;> cases hkind <;> cases h
  | _ => rfl

theorem modifier_update {operator : UpdateOperator} :
    Printer.modifier ([TokenKind.word .typeof, .word .void, .word .delete].contains operator.kind ||
      f.repeatsSign operator.kind s) " " = nothing := by
  have hsign : f.repeatsSign operator.kind s = false := by
    unfold repeatsSign satisfies
    rcases operator.mark with hmark | hmark <;> rw [hmark] <;> cases f.node? s <;> rfl
  rw [hsign]
  rcases operator.mark with hmark | hmark <;> rw [hmark] <;> rfl

theorem plain_binary (p : Printer) (place : Place) (operator : BinaryOperator) (a b : Slot) :
    Printer.plain p place (.binary (Descent.binaryForm operator.kind) a operator.kind b) =
      p.binary place a operator.kind b := by
  unfold Descent.binaryForm
  split <;> rfl

/-- The layout of an expression writes the words of the expression. -/
theorem Holds.writes (he : f.Holds s e) (hheight : f.EndsWithin fuel s) (place : Place) :
    (f.layout quotes fuel place s).Writes (e.words place) NameEnds := by
  induction e generalizing fuel s place with
  | name name =>
      obtain ⟨fuel, rfl⟩ := hheight.exists_succ
      cases id he with
      | name hs => exact he.writes_of_plain hs fun place => Forest.writes_name _
  | unary operator operand ih =>
      obtain ⟨fuel, rfl⟩ := hheight.exists_succ
      cases id he with
      | unary hs hc =>
          have hlow := hheight.child hs (by simp [Node.slots]) hc.exists_endsWithin
          refine he.writes_of_plain hs fun place => ?_
          refine writes_before (ih hc hlow _) rfl fun hspace => ?_
          rw [Bool.or_eq_false_iff] at hspace
          exact ⟨isKeyword_of_not_spelled operator hspace.1, hc.joinsSign hspace.2⟩
  | update form operator target =>
      obtain ⟨fuel, rfl⟩ := hheight.exists_succ
      cases id he with
      | update hs hc =>
          have hlow := hheight.child hs (by simp [Node.slots]) hc.exists_endsWithin
          refine he.writes_of_plain hs fun place => ?_
          cases form with
          | before =>
              rw [Printer.plain, Printer.before]
              dsimp only
              rw [modifier_update]
              exact writes_updateBefore (hc.writes_name hlow rfl)
          | after => exact writes_updateAfter (hc.writes_name hlow rfl)
  | binary left operator right ihleft ihright =>
      obtain ⟨fuel, rfl⟩ := hheight.exists_succ
      cases id he with
      | binary hs ha hb =>
          have hlowa := hheight.child hs (by simp [Node.slots]) ha.exists_endsWithin
          have hlowb := hheight.child hs (by simp [Node.slots]) hb.exists_endsWithin
          refine he.writes_of_plain hs fun place => ?_
          rw [plain_binary, Printer.binary, operator.binds]
          dsimp only
          rw [ha.mixesCoalesce, hb.mixesCoalesce]
          exact writes_infix (ihleft ha hlowa _) (ihright hb hlowb _) operator.proper
            (left.words_ne_nil _) (right.words_ne_nil _)
  | assignment target operator value ih =>
      obtain ⟨fuel, rfl⟩ := hheight.exists_succ
      cases id he with
      | assignment hs ha hb =>
          have hlowa := hheight.child hs (by simp [Node.slots]) ha.exists_endsWithin
          have hlowb := hheight.child hs (by simp [Node.slots]) hb.exists_endsWithin
          refine he.writes_of_plain hs fun place => ?_
          have htext : operator.kind.text?.getD "=" = Printer.operatorText operator.kind := by
            obtain ⟨kind, hkind⟩ := operator
            cases kind with
            | mark p => rfl
            | _ => cases hkind
          rw [Printer.plain, Printer.assignment, htext]
          exact writes_infix (ha.writes_name hlowa rfl) (ih hb hlowb _) operator.proper
            (by simp) (value.words_ne_nil _)
  | conditional condition whenTrue whenFalse ihcondition ihtrue ihfalse =>
      obtain ⟨fuel, rfl⟩ := hheight.exists_succ
      cases id he with
      | conditional hs ha hb hc =>
          have hlowa := hheight.child hs (by simp [Node.slots]) ha.exists_endsWithin
          have hlowb := hheight.child hs (by simp [Node.slots]) hb.exists_endsWithin
          have hlowc := hheight.child hs (by simp [Node.slots]) hc.exists_endsWithin
          refine he.writes_of_plain hs fun place => ?_
          have hquestion := (ihcondition ha hlowa (place.leading .coalesce)).spacedMark
            (ihtrue hb hlowb (.enclosed .assignment)) (by rfl : Punctuator.question.isPlain = true)
            (by rfl : " ? ".toList = _) (condition.words_ne_nil _) (whenTrue.words_ne_nil _)
          have hcolon := hquestion.spacedMark (ihfalse hc hlowc (place.inner .assignment))
            (by rfl : Punctuator.colon.isPlain = true) (by rfl : " : ".toList = _) (by simp)
            (whenFalse.words_ne_nil _)
          rw [List.append_assoc, List.cons_append] at hcolon
          exact hcolon
  | sequence first second rest ihfirst ihsecond ihrest =>
      obtain ⟨fuel, rfl⟩ := hheight.exists_succ
      cases id he with
      | @sequence _ a b slots _ _ _ hs ha hb hslots =>
          have hlowa := hheight.child hs (by simp [Node.slots]) ha.exists_endsWithin
          have hlowb := hheight.child hs (by simp [Node.slots]) hb.exists_endsWithin
          refine he.writes_of_plain hs fun place => ?_
          refine writes_listed (ihfirst ha hlowa _) (first.words_ne_nil _)
            (.cons (ihsecond hb hlowb _) (List.forall₂_map_left_iff.mpr ?_))
          refine forall₂_imp_of_mem (fun c hc e he hheld => ?_) hslots
          have hmem : c ∈ a :: b :: slots := List.mem_cons_of_mem _ (List.mem_cons_of_mem _ hc)
          exact ihrest e he hheld (hheight.child hs hmem hheld.exists_endsWithin) _

end Forest
end Untangle
