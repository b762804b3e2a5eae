import Untangle.Proofs.Printing.ExpressionLayouts
import Untangle.Proofs.Printing.PrintedWords

/-!
# Layouts of statements

The layout of a statement that a forest holds writes the words of the statement, with braces
where an `else` would be mistaken.
-/

namespace Untangle

open Layout

/-!
## Pieces of statements
-/

namespace Layout

variable {L M : Layout} {ws ws' : List Word} {ends : List Char → Prop}

theorem Writes.nameEnds (h : L.Writes ws Anything) : L.Writes ws NameEnds :=
  h.mono fun _ _ => trivial

/-- A punctuator that ends anywhere and starts behind anything. -/
theorem Writes.appendMark {p : Punctuator} (h : L.Writes ws NameEnds) (hws : ws ≠ [])
    (hp : p ∈ finalMarks) : (L ++ text p.text).Writes (ws ++ [.mark p]) Anything := by
  refine h.appendText (continues_mark hp) hws fun rest => ?_
  have hall : ∀ p ∈ finalMarks,
      p.text.toList.head?.any (fun ch => !continuesName ch) = true := by
    decide +kernel
  obtain ⟨ch, hch, hends⟩ : ∃ ch, p.text.toList.head? = some ch ∧ continuesName ch = false := by
    simpa [Option.any_eq_true] using hall p hp
  intro next hnext
  rcases List.head?_eq_some_iff.mp hch with ⟨more, hmore⟩
  rw [hmore] at hnext
  obtain rfl := Option.some.inj hnext
  exact hends

/-- A keyword and an opening parenthesis. -/
theorem continues_opening (k : Keyword) :
    Continues (k.text.toList ++ [' ', '(']) [.keyword k, .mark .openParen] Anything := by
  have hopen : Continues [' ', '('] [.mark .openParen] Anything :=
    (continues_mark (by decide : Punctuator.openParen ∈ finalMarks)).space
  have hword := hopen.cons (.keyword k) fun rest => Word.Proper.endsBefore_space (.keyword k) _
  exact hword

theorem writes_opening {s : String} {k : Keyword} (hs : s.toList = k.text.toList ++ [' ', '(']) :
    (text s).Writes [.keyword k, .mark .openParen] Anything := by
  have hne : s ≠ "" := by
    rintro rfl
    exact absurd hs.symm (by simp)
  refine writes_text hne (fun w hw => ?_) (hs ▸ continues_opening k)
  obtain rfl := Option.some.inj hw
  exact ⟨_, hs⟩

/-- A keyword and words in parentheses. -/
theorem writes_head {s : String} {k : Keyword} (hs : s.toList = k.text.toList ++ [' ', '('])
    (hL : L.Writes ws NameEnds) (hws : ws ≠ []) :
    (text s ++ L ++ text ")").Writes (headWords k ws) Anything := by
  have hinside := (writes_opening hs).append hL (by simp) (fun _ _ _ => trivial) hws
  exact hinside.appendMark (by simp) (by decide : Punctuator.closeParen ∈ finalMarks)

/-- The clauses of a loop behind the first, which are empty. -/
theorem Writes.loopHead (h : L.Writes ws NameEnds) (hws : ws ≠ []) :
    (L ++ text ";" ++ nothing ++ text ";" ++ nothing ++ text ")").Writes
      (ws ++ [.mark .semicolon, .mark .semicolon, .mark .closeParen]) Anything := by
  have hsemicolon : Punctuator.semicolon ∈ finalMarks := by decide
  have hfirst := h.appendMark hws hsemicolon
  have hsecond := hfirst.nameEnds.appendMark (by simp) hsemicolon
  have hclose := hsecond.nameEnds.appendMark (by simp)
    (by decide : Punctuator.closeParen ∈ finalMarks)
  rw [List.append_assoc, List.append_assoc] at hclose
  exact hclose.congr fun _ _ _ => rfl

theorem Page.put_break {indentation inner : String} {chars chars' : List Char}
    (hchars : chars ≠ []) (hchars' : chars' ≠ []) (page : Page) :
    (page.put indentation (String.ofList chars)).break.put inner (String.ofList chars') =
      page.put indentation (String.ofList (chars ++ '\n' :: (inner.toList ++ chars'))) := by
  obtain ⟨written, atLineStart⟩ := page
  have hisEmpty : ∀ {cs : List Char}, cs ≠ [] → (String.ofList cs).isEmpty = false := by
    intro cs hcs
    simpa [String.isEmpty_iff] using hcs
  have happend : chars ++ '\n' :: (inner.toList ++ chars') ≠ [] := by simp
  cases atLineStart <;>
    simp only [put, Page.break, hisEmpty hchars, hisEmpty hchars', hisEmpty happend, if_true,
      Bool.false_eq_true, if_false, Page.mk.injEq, and_true] <;>
    rw [← String.toList_inj] <;> simp

/-- A layout on the line below, which may be indented more. -/
theorem WritesAt.line {unit indentation inner : String} {chars chars' : List Char}
    (h : L.WritesAt unit indentation ws Anything chars)
    (h' : M.WritesAt unit inner ws' ends chars') (hinner : Page.OnlySpaces inner) (hws : ws ≠ [])
    (hws' : ∃ w ws, ws' = w :: ws ∧ w.isAttached = false) {N : Layout}
    (hN : ∀ page, N.writeTo unit indentation page =
      M.writeTo unit inner (L.writeTo unit indentation page).break) :
    N.WritesAt unit indentation (ws ++ ws') ends (chars ++ '\n' :: (inner.toList ++ chars')) := by
  obtain ⟨w, ws', rfl, hw⟩ := hws'
  have hline : Continues ('\n' :: (inner.toList ++ chars')) (w :: ws') ends := by
    intro rest after hrest hspells
    rw [List.cons_append, List.append_assoc]
    refine ((h'.continues hrest hspells).spaces hinner).line fun first hfirst => ?_
    obtain rfl := Option.some.inj hfirst
    exact hw
  refine ⟨by simp, ?_, ?_, h.continues.append hline fun _ => trivial⟩
  · intro first hfirst
    rw [List.head?_append_of_ne_nil _ hws] at hfirst
    rcases h.starts first hfirst with ⟨more, hmore⟩
    exact ⟨more ++ '\n' :: (inner.toList ++ chars'), by rw [hmore, List.append_assoc]⟩
  · intro page
    rw [hN, h.writeTo, h'.writeTo, Page.put_break h.ne_nil h'.ne_nil]

theorem Writes.line (h : L.Writes ws Anything) (h' : M.Writes ws' ends) (hws : ws ≠ [])
    (hws' : ∃ w ws, ws' = w :: ws ∧ w.isAttached = false) :
    (L ++ newline ++ M).Writes (ws ++ ws') ends := by
  intro unit indentation hunit hindentation
  rcases h hunit hindentation with ⟨chars, hchars⟩
  rcases h' hunit hindentation with ⟨chars', hchars'⟩
  exact ⟨_, hchars.line hchars' hindentation hws hws' fun _ => rfl⟩

theorem Writes.nestedLine (h : L.Writes ws Anything) (h' : M.Writes ws' ends) (hws : ws ≠ [])
    (hws' : ∃ w ws, ws' = w :: ws ∧ w.isAttached = false) :
    (L ++ nest (newline ++ M)).Writes (ws ++ ws') ends := by
  intro unit indentation hunit hindentation
  have hinner : Page.OnlySpaces (indentation ++ unit) := by
    rw [Page.OnlySpaces, String.toList_append, List.all_append, hunit, hindentation]
    rfl
  rcases h hunit hindentation with ⟨chars, hchars⟩
  rcases h' hunit hinner with ⟨chars', hchars'⟩
  exact ⟨_, hchars.line hchars' hinner hws hws' fun _ => rfl⟩

theorem Writes.braced (h : L.Writes ws Anything)
    (hws : ∃ w ws', ws = w :: ws' ∧ w.isAttached = false) :
    (braced L).Writes (.mark .openBrace :: (ws ++ [.mark .closeBrace])) Anything := by
  have hopen := writes_mark (by decide : Punctuator.openBrace ∈ finalMarks)
  have hclose := writes_mark (by decide : Punctuator.closeBrace ∈ finalMarks)
  exact (hopen.nestedLine h (by simp) hws).line hclose (by simp) ⟨_, _, rfl, rfl⟩

theorem writes_lines {items : List Layout} {trees : List StatementTree} (htrees : trees ≠ [])
    (hitems : List.Forall₂ (fun item (t : StatementTree) => item.Writes t.words Anything)
      items trees) : (lines items).Writes (wordsOfAll trees) Anything := by
  rw [wordsOfAll_eq]
  induction hitems with
  | nil => exact absurd rfl htrees
  | @cons item t items trees hitem hitems ih =>
      cases hitems with
      | nil => simpa [lines, joined] using hitem
      | @cons item' t' items trees hitem' hitems =>
          refine hitem.line (ih (by simp)) t.words_ne_nil ?_
          rcases t'.exists_words with ⟨w, ws, hws, hw⟩
          refine ⟨w, ws ++ trees.flatMap StatementTree.words, ?_, hw⟩
          rw [← List.flatMap_def, List.flatMap_cons, hws, List.cons_append]

end Layout

/-!
## Questions of the printer
-/

namespace Forest

variable {f : Forest} {s : Slot} {t : StatementTree} {e : ExpressionTree} {n fuel : Nat}
  {quotes : Text.QuoteStyle}

/-- An expression starts with an expression. -/
theorem Holds.leftmostFrom (he : f.Holds s e) : ∃ e', f.Holds (f.leftmostFrom n s) e' := by
  induction n generalizing s e with
  | zero => exact ⟨e, he⟩
  | succ n ih =>
      rw [Forest.leftmostFrom]
      cases id he with
      | name hs => simpa [hs, Node.leading?] using ⟨_, he⟩
      | unary hs hc => simpa [hs, Node.leading?] using ⟨_, he⟩
      | @update _ _ form _ _ hs hc =>
          cases form with
          | before => simpa [hs, Node.leading?] using ⟨_, he⟩
          | after => simpa [hs, Node.leading?] using ih hc
      | @binary _ _ _ _ operator _ hs ha hb =>
          unfold Descent.binaryForm at hs
          split at hs <;> simpa [hs, Node.leading?] using ih ha
      | assignment hs ha hb => simpa [hs, Node.leading?] using ih ha
      | conditional hs ha hb hc => simpa [hs, Node.leading?] using ih ha
      | sequence hs ha hb hslots => simpa [hs, Node.leading?] using ih ha

theorem Holds.startsWithObjectPattern (he : f.Holds s e) : f.startsWithObjectPattern s = false := by
  rcases he.leftmostFrom (n := f.size) with ⟨e', he'⟩
  unfold Forest.startsWithObjectPattern leftmost satisfies
  cases he' with
  | name hs => rw [hs]; rfl
  | unary hs hc => rw [hs]; rfl
  | update hs hc => rw [hs]; rfl
  | binary hs ha hb => rw [hs]; rfl
  | assignment hs ha hb => rw [hs]; rfl
  | conditional hs ha hb hc => rw [hs]; rfl
  | sequence hs ha hb hslots => rw [hs]; rfl

theorem HoldsStatement.isSome (ht : f.HoldsStatement s t) : s.isSome :=
  ht.endsWithin.isSome

theorem HoldsStatement.endsWithOpenIfFrom (ht : f.HoldsStatement s t) (hheight : f.EndsWithin n s) :
    f.endsWithOpenIfFrom n s = t.endsWithOpenIf := by
  induction t generalizing s n with
  | expression e =>
      obtain ⟨n, rfl⟩ := hheight.exists_succ
      cases ht with
      | expression hs hc => simp [Forest.endsWithOpenIfFrom, hs, StatementTree.endsWithOpenIf]
  | empty =>
      obtain ⟨n, rfl⟩ := hheight.exists_succ
      cases ht with
      | empty hs => simp [Forest.endsWithOpenIfFrom, hs, StatementTree.endsWithOpenIf]
  | block statements =>
      obtain ⟨n, rfl⟩ := hheight.exists_succ
      cases ht with
      | block hs hslots => simp [Forest.endsWithOpenIfFrom, hs, StatementTree.endsWithOpenIf]
  | ifThen condition whenTrue =>
      obtain ⟨n, rfl⟩ := hheight.exists_succ
      cases ht with
      | ifThen hs ha hb => simp [Forest.endsWithOpenIfFrom, hs, StatementTree.endsWithOpenIf]
  | ifElse condition whenTrue whenFalse _ ih =>
      obtain ⟨n, rfl⟩ := hheight.exists_succ
      cases ht with
      | ifElse hs ha hb hc =>
          have hlow := hheight.child hs (by simp [Node.slots]) hc.exists_endsWithin
          obtain ⟨i, rfl⟩ := Option.isSome_iff_exists.mp hc.isSome
          simp [Forest.endsWithOpenIfFrom, hs, StatementTree.endsWithOpenIf, ih hc hlow]
  | guarded form condition body ih =>
      obtain ⟨n, rfl⟩ := hheight.exists_succ
      cases ht with
      | guarded hs ha hb =>
          have hlow := hheight.child hs (by cases form <;> simp [Node.slots]) hb.exists_endsWithin
          cases form <;>
            simp [Forest.endsWithOpenIfFrom, hs, StatementTree.endsWithOpenIf, ih hb hlow]
  | forLoop initializer body ih =>
      obtain ⟨n, rfl⟩ := hheight.exists_succ
      cases ht with
      | forEver hs hb =>
          have hlow := hheight.child hs (by simp [Node.slots]) hb.exists_endsWithin
          simp [Forest.endsWithOpenIfFrom, hs, StatementTree.endsWithOpenIf, ih hb hlow]
      | forLoop hs ha hb =>
          have hlow := hheight.child hs (by simp [Node.slots]) hb.exists_endsWithin
          simp [Forest.endsWithOpenIfFrom, hs, StatementTree.endsWithOpenIf, ih hb hlow]
  | labeled label body ih =>
      obtain ⟨n, rfl⟩ := hheight.exists_succ
      cases ht with
      | labeled hs ha hb =>
          have hlow := hheight.child hs (by simp [Node.slots]) hb.exists_endsWithin
          simp [Forest.endsWithOpenIfFrom, hs, StatementTree.endsWithOpenIf, ih hb hlow]

theorem HoldsStatement.endsWithOpenIf (ht : f.HoldsStatement s t) :
    f.endsWithOpenIf s = t.endsWithOpenIf :=
  ht.endsWithOpenIfFrom (ht.endsWithin.mono (Nat.le_succ _))

/-!
## Nested statements
-/

end Forest

section Nested

variable {p : Printer} {L : Layout} {ws : List Word} {s : Slot} {t : StatementTree}

theorem embedded_eq (ht : p.forest.HoldsStatement s t) (hne : t ≠ .empty) (place : Place) :
    p.embedded place s = text " " ++ p.child (place.inner .comma) s := by
  unfold Printer.embedded
  cases ht with
  | empty hs => exact absurd rfl hne
  | expression hs hc => rw [hs]
  | block hs hslots => rw [hs]
  | ifThen hs ha hb => rw [hs]
  | ifElse hs ha hb hc => rw [hs]
  | guarded hs ha hb => rw [hs]
  | forEver hs hb => rw [hs]
  | forLoop hs ha hb => rw [hs]
  | labeled hs ha hb => rw [hs]

theorem embeddedInBraces_eq (ht : p.forest.HoldsStatement s t) (hopen : t.endsWithOpenIf = true)
    (place : Place) :
    p.embeddedInBraces place s = text " " ++ braced (p.child (place.inner .comma) s) := by
  unfold Printer.embeddedInBraces
  cases ht with
  | empty hs => cases hopen
  | expression hs hc => cases hopen
  | block hs hslots => cases hopen
  | ifThen hs ha hb => rw [hs]
  | ifElse hs ha hb hc => rw [hs]
  | guarded hs ha hb => rw [hs]
  | forEver hs hb => rw [hs]
  | forLoop hs ha hb => rw [hs]
  | labeled hs ha hb => rw [hs]

/-- A layout and a space in front of another one. -/
theorem Layout.Writes.spaced {M : Layout} {ws' : List Word} {ends : List Char → Prop}
    (h : L.Writes ws NameEnds) (h' : M.Writes ws' ends) (hws : ws ≠ []) (hws' : ws' ≠ []) :
    (L ++ (text " " ++ M)).Writes (ws ++ ws') ends := by
  have hleft := h.appendText continues_space hws fun rest => nameEnds_cons continuesName_space
  have happend := hleft.append h' (by simp [hws]) (fun _ _ _ => trivial) hws'
  rw [List.append_nil] at happend
  exact happend.congr fun _ _ _ => rfl

theorem Layout.Writes.embedded (h : L.Writes ws NameEnds) (hws : ws ≠ [])
    (ht : p.forest.HoldsStatement s t)
    (hchild : (p.child (.enclosed .comma) s).Writes t.braced.words Anything) :
    (L ++ p.embedded (.enclosed .comma) s).Writes (ws ++ t.braced.words) Anything := by
  by_cases hempty : t = .empty
  · subst hempty
    have hsemicolon : p.embedded (.enclosed .comma) s = text ";" := by
      cases ht with
      | empty hs =>
          unfold Printer.embedded
          rw [hs]
    rw [hsemicolon]
    exact h.appendMark hws (by decide : Punctuator.semicolon ∈ finalMarks)
  · rw [embedded_eq ht hempty]
    exact h.spaced hchild hws t.braced.words_ne_nil

/-- What stands in front of an `else`. -/
theorem Layout.Writes.consequent (h : L.Writes ws NameEnds) (hws : ws ≠ [])
    (ht : p.forest.HoldsStatement s t)
    (hchild : (p.child (.enclosed .comma) s).Writes t.braced.words Anything) :
    (L ++ if p.forest.endsWithOpenIf s then p.embeddedInBraces (.enclosed .comma) s
      else p.embedded (.enclosed .comma) s).Writes
      (ws ++ (t.braced.inBracesIf t.endsWithOpenIf).words) Anything := by
  rw [ht.endsWithOpenIf]
  cases hopen : t.endsWithOpenIf with
  | false => exact h.embedded hws ht hchild
  | true =>
      rw [if_pos rfl, embeddedInBraces_eq ht hopen]
      have hbraces := hchild.braced t.braced.exists_words
      have hwords : (t.braced.inBracesIf true).words =
          .mark .openBrace :: (t.braced.words ++ [.mark .closeBrace]) := by
        rw [StatementTree.inBracesIf, if_pos rfl, StatementTree.words, wordsOfAll, wordsOfAll,
          List.append_nil]
      rw [hwords]
      exact h.spaced hbraces hws (List.cons_ne_nil _ _)

end Nested

/-!
## Statements
-/

namespace Forest

theorem writes_bracedLines {p : Printer} {slots : List Slot} {statements : List StatementTree}
    (hslots : List.Forall₂ (fun item (t : StatementTree) => item.Writes t.words Anything)
      (slots.map (p.child (.enclosed .comma))) statements) :
    (p.bracedLines slots).Writes
      (.mark .openBrace :: (wordsOfAll statements ++ [.mark .closeBrace])) Anything := by
  cases slots with
  | nil =>
      cases hslots
      have hopen : Continues "\x7b\x7d".toList [.mark .openBrace, .mark .closeBrace] Anything :=
        (continues_mark (by decide : Punctuator.openBrace ∈ finalMarks)).append
          (continues_mark (by decide : Punctuator.closeBrace ∈ finalMarks)) fun _ => trivial
      refine writes_text (by decide) (fun w hw => ?_) hopen
      obtain rfl := Option.some.inj hw
      exact ⟨_, rfl⟩
  | cons s slots =>
      cases hslots with
      | @cons _ t _ statements hfirst hrest =>
          have hlines := writes_lines (List.cons_ne_nil _ _) (.cons hfirst hrest)
          refine hlines.braced ?_
          rcases t.exists_words with ⟨w, ws, hws, hw⟩
          exact ⟨w, ws ++ wordsOfAll statements, by rw [wordsOfAll, hws, List.cons_append], hw⟩

theorem writes_doLoop {p : Printer} {L : Layout} {ws : List Word} {s : Slot} {t : StatementTree}
    (ht : p.forest.HoldsStatement s t)
    (hchild : (p.child (.enclosed .comma) s).Writes t.braced.words Anything)
    (hL : L.Writes ws NameEnds) (hws : ws ≠ []) :
    (text "do" ++ p.embedded (.enclosed .comma) s ++ text " while (" ++ L ++ text ");").Writes
      (.keyword .«do» :: (t.braced.words ++ (headWords .«while» ws ++ [.mark .semicolon])))
      Anything := by
  have hdo := (writes_nonempty_word (.keyword .«do»)).embedded (List.cons_ne_nil _ _) ht hchild
  have hwhile := hdo.appendText (s := " while (") (continues_opening .«while»).space
    (List.cons_ne_nil _ _) fun _ => trivial
  have hinside := hwhile.append hL (by simp) (fun _ _ _ => trivial) hws
  have hclose : Continues ");".toList [.mark .closeParen, .mark .semicolon] Anything :=
    (continues_mark (by decide : Punctuator.closeParen ∈ finalMarks)).append
      (continues_mark (by decide : Punctuator.semicolon ∈ finalMarks)) fun _ => trivial
  have hall := hinside.appendText hclose (by simp) fun rest => nameEnds_cons (by decide +kernel)
  have hwords :
      .keyword .«do» :: (t.braced.words ++ (headWords .«while» ws ++ [.mark .semicolon])) =
        [.keyword .«do»] ++ t.braced.words ++ [.keyword .«while», .mark .openParen] ++ ws ++
        [.mark .closeParen, .mark .semicolon] := by
    simp [headWords]
  exact hwords ▸ hall

variable {f : Forest} {s : Slot} {t : StatementTree} {fuel : Nat} {quotes : Text.QuoteStyle}

theorem loopTarget_eq {p : Printer} {e : ExpressionTree} (he : p.forest.Holds s e) :
    p.loopTarget (.enclosed .comma) .comma s = p.child loopPlace s := by
  unfold Printer.loopTarget
  cases he with
  | name hs => rw [hs]; rfl
  | unary hs hc => rw [hs]; rfl
  | update hs hc => rw [hs]; rfl
  | binary hs ha hb => rw [hs]; rfl
  | assignment hs ha hb => rw [hs]; rfl
  | conditional hs ha hb hc => rw [hs]; rfl
  | sequence hs ha hb hslots => rw [hs]; rfl

theorem layout_enclosed {n : Node Slot} (hs : f.node? s = some n) :
    f.layout quotes (fuel + 1) (.enclosed .comma) s =
      Printer.plain ⟨f, quotes, f.layout quotes fuel⟩ (.enclosed .comma) n := by
  rw [node?_eq] at hs
  rcases Option.map_eq_some_iff.mp hs with ⟨c, hc, rfl⟩
  rw [layout, hc]
  dsimp only
  have hplain : Printer.needsParentheses f (.enclosed .comma) c = false := by
    have hlow : ¬ c.node.precedence < Precedence.comma := Nat.not_lt_zero _
    simp [Printer.needsParentheses, Place.enclosed, hlow]
  rw [Printer.cell, hplain]
  rfl

/-- The layout of a statement writes the words of the statement, in braces where an `else` would be
mistaken. -/
theorem HoldsStatement.writes (ht : f.HoldsStatement s t) (hheight : f.EndsWithin fuel s) :
    (f.layout quotes fuel (.enclosed .comma) s).Writes t.braced.words Anything := by
  induction t generalizing fuel s with
  | expression e =>
      obtain ⟨fuel, rfl⟩ := hheight.exists_succ
      cases ht with
      | expression hs hc =>
          have hlow := hheight.child hs (by simp [Node.slots]) hc.exists_endsWithin
          rw [layout_enclosed hs, Printer.plain, Printer.operand, Printer.expressionStatement]
          dsimp only
          rw [hc.startsWithObjectPattern, if_neg Bool.false_ne_true]
          exact (hc.writes hlow statementPlace).appendMark (e.words_ne_nil _)
            (by decide : Punctuator.semicolon ∈ finalMarks)
  | empty =>
      obtain ⟨fuel, rfl⟩ := hheight.exists_succ
      cases ht with
      | empty hs =>
          rw [layout_enclosed hs]
          exact writes_mark (by decide : Punctuator.semicolon ∈ finalMarks)
  | block statements ih =>
      obtain ⟨fuel, rfl⟩ := hheight.exists_succ
      cases ht with
      | @block _ slots _ hs hslots =>
          rw [layout_enclosed hs, StatementTree.braced, StatementTree.words, bracedAll_eq]
          have hchild : List.Forall₂
              (fun item (t : StatementTree) => item.Writes t.words Anything)
              (slots.map (f.layout quotes fuel (.enclosed .comma)))
              (statements.map StatementTree.braced) := by
            rw [List.forall₂_map_left_iff, List.forall₂_map_right_iff]
            refine forall₂_imp_of_mem (fun c hc t ht hheld => ?_) hslots
            exact ih t ht hheld (hheight.child hs hc hheld.exists_endsWithin)
          exact writes_bracedLines hchild
  | ifThen condition whenTrue ih =>
      obtain ⟨fuel, rfl⟩ := hheight.exists_succ
      cases ht with
      | ifThen hs ha hb =>
          have hlowa := hheight.child hs (by simp [Node.slots]) ha.exists_endsWithin
          have hlowb := hheight.child hs (by simp [Node.slots]) hb.exists_endsWithin
          rw [layout_enclosed hs]
          have htest : Layout.Writes (f.layout quotes fuel (.enclosed .comma) _) _ NameEnds :=
            ha.writes hlowa _
          have hhead := writes_head (s := "if (") (k := .«if») (by rfl) htest
            (condition.words_ne_nil _)
          exact hhead.nameEnds.embedded (List.cons_ne_nil _ _) hb (ih hb hlowb)
  | ifElse condition whenTrue whenFalse ihtrue ihfalse =>
      obtain ⟨fuel, rfl⟩ := hheight.exists_succ
      cases ht with
      | ifElse hs ha hb hc =>
          have hlowa := hheight.child hs (by simp [Node.slots]) ha.exists_endsWithin
          have hlowb := hheight.child hs (by simp [Node.slots]) hb.exists_endsWithin
          have hlowc := hheight.child hs (by simp [Node.slots]) hc.exists_endsWithin
          rw [layout_enclosed hs]
          obtain ⟨i, rfl⟩ := Option.isSome_iff_exists.mp hc.isSome
          have htest : Layout.Writes (f.layout quotes fuel (.enclosed .comma) _) _ NameEnds :=
            ha.writes hlowa _
          have hhead := writes_head (s := "if (") (k := .«if») (by rfl) htest
            (condition.words_ne_nil _)
          have hconsequent := hhead.nameEnds.consequent (p := ⟨f, quotes, f.layout quotes fuel⟩)
            (List.cons_ne_nil _ _) hb (ihtrue hb hlowb)
          have helse := hconsequent.appendText (s := " else")
            (continues_word (.keyword .«else»)).space (List.cons_ne_nil _ _) fun _ => trivial
          have hall := helse.embedded (p := ⟨f, quotes, f.layout quotes fuel⟩)
            (List.cons_ne_nil _ _) hc (ihfalse hc hlowc)
          rw [List.append_assoc, List.append_assoc] at hall
          exact hall
  | guarded form condition body ih =>
      obtain ⟨fuel, rfl⟩ := hheight.exists_succ
      cases ht with
      | guarded hs ha hb =>
          have hlowa := hheight.child hs (by cases form <;> simp [Node.slots]) ha.exists_endsWithin
          have hlowb := hheight.child hs (by cases form <;> simp [Node.slots]) hb.exists_endsWithin
          have htest : Layout.Writes (f.layout quotes fuel (.enclosed .comma) _) _ NameEnds :=
            ha.writes hlowa _
          rw [layout_enclosed hs]
          cases form with
          | whileLoop =>
              have hhead := writes_head (s := "while (") (k := .«while») (by rfl) htest
                (condition.words_ne_nil _)
              exact hhead.nameEnds.embedded (List.cons_ne_nil _ _) hb (ih hb hlowb)
          | withObject =>
              have hhead := writes_head (s := "with (") (k := .«with») (by rfl) htest
                (condition.words_ne_nil _)
              exact hhead.nameEnds.embedded (List.cons_ne_nil _ _) hb (ih hb hlowb)
          | doLoop =>
              exact writes_doLoop (p := ⟨f, quotes, f.layout quotes fuel⟩) hb (ih hb hlowb) htest
                (condition.words_ne_nil _)
  | forLoop initializer body ih =>
      obtain ⟨fuel, rfl⟩ := hheight.exists_succ
      cases ht with
      | forEver hs hb =>
          have hlowb := hheight.child hs (by simp [Node.slots]) hb.exists_endsWithin
          rw [layout_enclosed hs]
          have hnothing : Printer.loopTarget ⟨f, quotes, f.layout quotes fuel⟩ (.enclosed .comma)
              .comma none = nothing := by
            cases fuel <;> rfl
          rw [Printer.plain, Printer.forLoop, hnothing]
          have hopen := writes_opening (s := "for (") (k := .«for») (by rfl)
          have hhead := hopen.nameEnds.loopHead (by simp)
          have hall := hhead.nameEnds.embedded (p := ⟨f, quotes, f.layout quotes fuel⟩) (by simp) hb
            (ih hb hlowb)
          exact hall.congr fun _ _ _ => rfl
      | @forLoop _ a b e _ hs ha hb =>
          have hlowa := hheight.child hs (by simp [Node.slots]) ha.exists_endsWithin
          have hlowb := hheight.child hs (by simp [Node.slots]) hb.exists_endsWithin
          rw [layout_enclosed hs, Printer.plain, Printer.forLoop, loopTarget_eq ha]
          have htest : Layout.Writes (f.layout quotes fuel loopPlace _) _ NameEnds :=
            ha.writes hlowa _
          have hopen := writes_opening (s := "for (") (k := .«for») (by rfl)
          have hhead := (hopen.append htest (by simp) (fun _ _ _ => trivial)
            (ExpressionTree.words_ne_nil _ _)).loopHead (by simp)
          have hall := hhead.nameEnds.embedded (p := ⟨f, quotes, f.layout quotes fuel⟩) (by simp) hb
            (ih hb hlowb)
          have hwords : (StatementTree.forLoop (some e) body).braced.words =
              [.keyword .«for», .mark .openParen] ++ e.words loopPlace ++
                [.mark .semicolon, .mark .semicolon, .mark .closeParen] ++ body.braced.words := by
            simp [StatementTree.braced, StatementTree.words, headWords]
          rw [hwords]
          exact hall
  | labeled label body ih =>
      obtain ⟨fuel, rfl⟩ := hheight.exists_succ
      cases ht with
      | @labeled _ a b _ _ hs ha hb =>
          have hlowb := hheight.child hs (by simp [Node.slots]) hb.exists_endsWithin
          rw [layout_enclosed hs]
          have hlabel :
              Printer.identifier ⟨f, quotes, f.layout quotes fuel⟩ a = text label.text := by
            cases ha with
            | name ha => simp [Printer.identifier, identifierText?, ha, Node.identifierText?]
          rw [Printer.plain, hlabel]
          have hcolon := (writes_name label).appendMark (List.cons_ne_nil _ _)
            (by decide : Punctuator.colon ∈ finalMarks)
          exact hcolon.nameEnds.embedded (List.cons_ne_nil _ _) hb (ih hb hlowb)

/-- The text of a statement spells the words of the statement. -/
theorem HoldsStatement.spells_print (ht : f.HoldsStatement s t) (style : Style) :
    Spells (f.print style s).toList t.braced.words := by
  have hunit : Page.OnlySpaces (String.ofList (List.replicate style.indent ' ')) := by
    simp [Page.OnlySpaces]
  have hheight := ht.endsWithin.mono (Nat.le_succ _)
  have hwrites : (f.layout style.quotes _ (.enclosed .comma) s).Writes _ _ := ht.writes hheight
  rcases hwrites hunit (by rfl : Page.OnlySpaces "") with ⟨chars, hchars⟩
  have htext : f.print style s = String.ofList chars := by
    rw [Forest.print, render, hchars.writeTo]
    have hne : (String.ofList chars).isEmpty = false := by
      simpa [String.isEmpty_iff] using hchars.ne_nil
    simp [Page.put, Page.blank, hne]
  rw [htext, String.toList_ofList]
  have hspells := hchars.continues trivial (.done (by rfl : ([] : List Char).all isGap = true))
  rwa [List.append_nil, List.append_nil] at hspells

end Forest
end Untangle
