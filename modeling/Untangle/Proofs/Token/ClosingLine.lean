import Untangle.Proofs.Token.NextLine
import Untangle.Proofs.Token.Safety

/-!
# Scanning in front of a closing line

In front of a line of closing marks a scanner goes through the tokens of a text as it does when the
text stands alone. Where that text ends it finds the first of the marks, at the beginning of a line.
-/

namespace Untangle

open Cursor

variable {c d : Cursor} {before : Nat} {below : List Char}

/-!
## Punctuators
-/

theorem startsWith_append_newline {w : List Char} (h : '\n' ∉ w) (text : List Char) :
    startsWith w (text ++ '\n' :: below) = startsWith w text := by
  induction w generalizing text with
  | nil => rfl
  | cons a w ih =>
      rw [List.mem_cons, not_or] at h
      cases text with
      | nil =>
          have hne : (a == '\n') = false := beq_false_of_ne (Ne.symm h.1)
          rw [List.nil_append, startsWith, startsWith, hne, Bool.false_and]
      | cons b text => simp [startsWith, ih h.2]

theorem length_le_of_startsWith {w text : List Char} (h : startsWith w text = true) :
    w.length ≤ text.length := by
  induction w generalizing text with
  | nil => exact Nat.zero_le _
  | cons a w ih =>
      cases text with
      | nil => cases h
      | cons b text => exact Nat.succ_le_succ (ih ((Bool.and_eq_true _ _).mp h).2)

theorem Punctuator.newline_notMem (p : Punctuator) : '\n' ∉ p.text.toList := by
  cases p <;> decide

theorem Punctuator.fits_append_newline (p : Punctuator) (text : List Char) :
    p.fits (text ++ '\n' :: below) = p.fits text := by
  unfold fits
  rw [startsWith_append_newline p.newline_notMem]
  by_cases hp : p = .optionalDot
  · subst hp
    rcases text with _ | ⟨first, _ | ⟨second, rest⟩⟩
    · rfl
    · simp [startsWith, text]
    · have hhead :
          (rest ++ '\n' :: below).head?.any Char.isDigit = rest.head?.any Char.isDigit := by
        cases rest <;> rfl
      simp only [List.cons_append, List.drop_succ_cons, List.drop_zero, hhead]
  · have hother : (p == .optionalDot) = false := beq_false_of_ne hp
    rw [hother]
    rfl

theorem readPunctuator_stays :
    (readPunctuator c).Stays before ('\n' :: below)
      (readPunctuator (c.inside before ('\n' :: below))) := by
  have hfits : (Punctuator.longestFirst.find? (·.fits (c.inside before ('\n' :: below)).rest)) =
      Punctuator.longestFirst.find? (·.fits c.rest) := by
    simp only [inside, Punctuator.fits_append_newline]
  unfold readPunctuator
  rw [hfits]
  cases hfound : Punctuator.longestFirst.find? (·.fits c.rest) with
  | none => exact .malformed rfl rfl rfl rfl
  | some p =>
      have hlength : p.text.length ≤ c.rest.length := by
        have hfit := List.find?_some hfound
        rw [Punctuator.fits, Bool.and_eq_true] at hfit
        rw [← String.length_toList]
        exact length_le_of_startsWith hfit.1
      dsimp only
      rw [skip_inside hlength]
      exact .complete (by rintro ⟨⟩)

/-!
## Regular expressions
-/

theorem regularExpressionBody_cons (inClass : Bool) (ch : Char) (rest : List Char)
    (offset : Nat) :
    regularExpressionBody inClass (ch :: rest) offset =
      if Text.isLineBreak ch then .error ⟨ch :: rest, offset⟩
      else if ch = '\\' then
        match rest with
        | [] => .error ⟨[], offset + ch.utf8Size⟩
        | escaped :: rest' =>
            if Text.isLineBreak escaped then .error ⟨rest, offset + ch.utf8Size⟩
            else regularExpressionBody inClass rest' (offset + ch.utf8Size + escaped.utf8Size)
      else if ch = '[' then regularExpressionBody true rest (offset + ch.utf8Size)
      else if ch = ']' then regularExpressionBody false rest (offset + ch.utf8Size)
      else if ch = '/' ∧ !inClass then .ok ⟨rest, offset + ch.utf8Size⟩
      else regularExpressionBody inClass rest (offset + ch.utf8Size) := by
  exact (regularExpressionBody.eq_def inClass (ch :: rest) offset).trans rfl

/-- A regular expression ends with its line. -/
theorem regularExpressionBody_inside (inClass : Bool) (chars : List Char) (offset : Nat) :
    regularExpressionBody inClass (chars ++ '\n' :: below) (offset + before) =
      match regularExpressionBody inClass chars offset with
      | .ok next => .ok (next.inside before ('\n' :: below))
      | .error stop => .error (stop.inside before ('\n' :: below)) := by
  have hbreak : Text.isLineBreak '\n' = true := rfl
  fun_induction regularExpressionBody inClass chars offset with
  | case1 =>
      rw [List.nil_append, regularExpressionBody_cons, if_pos hbreak]
      rfl
  | case2 inClass offset ch rest hstop =>
      rw [List.cons_append, regularExpressionBody_cons, if_pos hstop]
      rfl
  | case3 inClass offset behind hplain =>
      rw [List.cons_append, regularExpressionBody_cons, if_neg hplain, if_pos rfl,
        List.nil_append]
      dsimp only
      rw [if_pos hbreak, Nat.add_right_comm]
      rfl
  | case4 inClass offset escaped rest hstop behind hplain =>
      rw [List.cons_append, regularExpressionBody_cons, if_neg hplain, if_pos rfl,
        List.cons_append]
      dsimp only
      rw [if_pos hstop, Nat.add_right_comm]
      rfl
  | case5 inClass offset escaped rest hbreak behind hplain ih =>
      rw [List.cons_append, regularExpressionBody_cons, if_neg hplain, if_pos rfl,
        List.cons_append]
      dsimp only
      rw [if_neg hbreak, Nat.add_right_comm offset, Nat.add_right_comm (offset + _)]
      exact ih
  | case6 inClass rest offset behind hplain hescape ih =>
      rw [List.cons_append, regularExpressionBody_cons, if_neg hplain, if_neg hescape, if_pos rfl,
        Nat.add_right_comm]
      exact ih
  | case7 inClass rest offset behind hplain hescape hopen ih =>
      rw [List.cons_append, regularExpressionBody_cons, if_neg hplain, if_neg hescape,
        if_neg hopen, if_pos rfl, Nat.add_right_comm]
      exact ih
  | case8 inClass ch rest offset behind hplain hescape hopen hclose hslash =>
      rw [List.cons_append, regularExpressionBody_cons, if_neg hplain, if_neg hescape,
        if_neg hopen, if_neg hclose, if_pos hslash, Nat.add_right_comm]
      rfl
  | case9 inClass ch rest offset behind hplain hescape hopen hclose hslash ih =>
      rw [List.cons_append, regularExpressionBody_cons, if_neg hplain, if_neg hescape,
        if_neg hopen, if_neg hclose, if_neg hslash, Nat.add_right_comm]
      exact ih

theorem readRegularExpression_inside (hne : c.rest ≠ []) :
    readRegularExpression (c.inside before ('\n' :: below)) =
      match readRegularExpression c with
      | .ok next => .ok (next.inside before ('\n' :: below))
      | .error stop => .error (stop.inside before ('\n' :: below)) := by
  have hpart : Text.isIdentifierPart '\n' = false := by decide
  have hbody := @regularExpressionBody_inside before below false c.advance.rest c.advance.offset
  unfold readRegularExpression
  rw [advance_inside hne]
  dsimp only [inside] at hbody ⊢
  rw [hbody]
  cases regularExpressionBody false c.advance.rest c.advance.offset with
  | error stop => rfl
  | ok next => exact congrArg Except.ok (dropWhile_inside hpart)

/-!
## Gaps
-/

namespace Gap

/-- Comments in a block may be opened in different places. -/
inductive Mode.Same : Mode → Mode → Prop
  | between : Same .between .between
  | lineComment : Same .lineComment .lineComment
  | blockComment {start start' : Cursor} : Same (.blockComment start) (.blockComment start')

/-- What comes behind a gap when there is a closing line below the text. -/
inductive End.Stays (before : Nat) (below : List Char) : End → End → Prop
  | token {start : Cursor} {lineBreak : Bool} (h : start.rest ≠ []) :
      Stays before below (.token start lineBreak)
        (.token (start.inside before ('\n' :: below)) lineBreak)
  | ends {offset offset' : Nat} {lineBreak : Bool} :
      Stays before below (.token ⟨[], offset⟩ lineBreak) (.token ⟨below, offset'⟩ true)
  | openComment {start start' stop stop' : Cursor} {lineBreak lineBreak' : Bool} :
      Stays before below (.openComment start stop lineBreak)
        (.openComment start' stop' lineBreak')

theorem skip_closingLine (hbelow : ClosingLine below) (lineBreak : Bool) (offset : Nat) :
    skip .between lineBreak below offset = .token ⟨below, offset⟩ lineBreak := by
  cases below with
  | nil => rfl
  | cons ch below =>
      have hmem := hbelow ch List.mem_cons_self
      simp only [List.mem_cons, List.not_mem_nil, or_false] at hmem
      rcases hmem with rfl | rfl | rfl <;> rfl

/-- A closing line closes no comment. -/
theorem skip_blockComment_closingLine (hbelow : ClosingLine below) (start : Cursor)
    (lineBreak : Bool) (offset : Nat) :
    ∃ stop lineBreak', skip (.blockComment start) lineBreak below offset =
      .openComment start stop lineBreak' := by
  induction below generalizing lineBreak offset with
  | nil => exact ⟨_, _, rfl⟩
  | cons ch below ih =>
      have hrest : ClosingLine below := fun ch' hch' => hbelow ch' (List.mem_cons_of_mem _ hch')
      have hmem := hbelow ch List.mem_cons_self
      simp only [List.mem_cons, List.not_mem_nil, or_false] at hmem
      rcases hmem with rfl | rfl | rfl <;> exact ih hrest _ _

theorem skip_between_cons {ch : Char} {rest : List Char} {offset : Nat} {lineBreak : Bool}
    (hline : ∀ more, ch = '/' → rest = '/' :: more → False)
    (hblock : ∀ more, ch = '/' → rest = '*' :: more → False)
    (hhash : ∀ more, offset = 0 → ch = '#' → rest = '!' :: more → False) :
    skip .between lineBreak (ch :: rest) offset =
      if Text.isLineBreak ch then skip .between true rest (offset + ch.utf8Size)
      else if Text.isBlank ch then skip .between lineBreak rest (offset + ch.utf8Size)
      else .token ⟨ch :: rest, offset⟩ lineBreak := by
  rw [skip]
  · exact hline
  · exact hblock
  · exact hhash

/-- The next line gives no mark of two characters its second one. -/
theorem not_marked_append {first second ch : Char} {rest : List Char} (hsecond : second ≠ '\n')
    (h : ∀ more, ch = first → rest = second :: more → False) :
    ∀ more, ch = first → rest ++ '\n' :: below = second :: more → False := by
  intro more hch hrest
  cases rest with
  | nil => exact hsecond (List.cons.inj hrest).1.symm
  | cons next rest => exact h rest hch (by rw [(List.cons.inj hrest).1])

theorem skip_stays {mode mode' : Mode} (hmode : mode.Same mode') (hbelow : ClosingLine below)
    {lineBreak : Bool} {chars : List Char} {offset : Nat} (hoffset : 0 < offset) :
    (skip mode lineBreak chars offset).Stays before below
      (skip mode' lineBreak (chars ++ '\n' :: below) (offset + before)) := by
  fun_induction skip mode lineBreak chars offset generalizing mode' with
  | case1 lineBreak rest offset ih =>
      cases hmode
      rw [List.cons_append, List.cons_append, skip, Nat.add_right_comm]
      exact ih .lineComment (Nat.add_pos_left hoffset 2)
  | case2 lineBreak rest offset ih =>
      cases hmode
      rw [List.cons_append, List.cons_append, skip, Nat.add_right_comm]
      exact ih .blockComment (Nat.add_pos_left hoffset 2)
  | case3 lineBreak rest ih => exact absurd hoffset (Nat.lt_irrefl 0)
  | case4 lineBreak ch rest offset hline hblock hhash hch ih =>
      cases hmode
      rw [List.cons_append, skip_between_cons (not_marked_append (by decide) hline)
        (not_marked_append (by decide) hblock)
        (fun _ hzero => absurd hzero (by omega)), if_pos hch, Nat.add_right_comm]
      exact ih .between (Nat.add_pos_left hoffset _)
  | case5 lineBreak ch rest offset hline hblock hhash hch hblank ih =>
      cases hmode
      rw [List.cons_append, skip_between_cons (not_marked_append (by decide) hline)
        (not_marked_append (by decide) hblock)
        (fun _ hzero => absurd hzero (by omega)), if_neg hch, if_pos hblank,
        Nat.add_right_comm]
      exact ih .between (Nat.add_pos_left hoffset _)
  | case6 lineBreak ch rest offset hline hblock hhash hch hblank =>
      cases hmode
      rw [List.cons_append, skip_between_cons (not_marked_append (by decide) hline)
        (not_marked_append (by decide) hblock)
        (fun _ hzero => absurd hzero (by omega)), if_neg hch, if_neg hblank]
      exact .token (List.cons_ne_nil ch rest)
  | case7 lineBreak ch rest offset hch ih =>
      cases hmode
      rw [List.cons_append, skip, if_pos hch, Nat.add_right_comm]
      exact ih .between (Nat.add_pos_left hoffset _)
  | case8 lineBreak ch rest offset hch ih =>
      cases hmode
      rw [List.cons_append, skip, if_neg hch, Nat.add_right_comm]
      exact ih .lineComment (Nat.add_pos_left hoffset _)
  | case9 opening lineBreak rest offset ih =>
      cases hmode
      rw [List.cons_append, List.cons_append, skip, Nat.add_right_comm]
      exact ih .between (Nat.add_pos_left hoffset 2)
  | case10 opening lineBreak ch rest offset hclose ih =>
      cases hmode
      rw [List.cons_append, skip, Nat.add_right_comm]
      · exact ih .blockComment (Nat.add_pos_left hoffset _)
      · exact not_marked_append (by decide) hclose
  | case11 lineBreak offset =>
      cases hmode
      have hskip : skip .between lineBreak ('\n' :: below) (offset + before) =
          skip .between true below (offset + before + 1) := rfl
      rw [List.nil_append, hskip, skip_closingLine hbelow]
      exact .ends
  | case12 lineBreak offset =>
      cases hmode
      have hskip : skip .lineComment lineBreak ('\n' :: below) (offset + before) =
          skip .between true below (offset + before + 1) := rfl
      rw [List.nil_append, hskip, skip_closingLine hbelow]
      exact .ends
  | case13 opening lineBreak offset =>
      cases hmode with
      | @blockComment _ opening' =>
          have hskip : skip (.blockComment opening') lineBreak ('\n' :: below) (offset + before) =
              skip (.blockComment opening') (lineBreak || true) below (offset + before + 1) := rfl
          obtain ⟨stop, lineBreak', hopen⟩ := skip_blockComment_closingLine hbelow opening'
            (lineBreak || true) (offset + before + 1)
          rw [List.nil_append, hskip, hopen]
          exact .openComment

end Gap

/-!
## Tokens
-/

theorem readTemplate_stays {kinds : PieceKinds} (hkinds : kinds.Known)
    (hbelow : ClosingLine below) (hne : c.rest ≠ []) :
    (readTemplate kinds c).Stays before ('\n' :: below)
      (readTemplate kinds (c.inside before ('\n' :: below))) := by
  unfold readTemplate
  rw [advance_inside hne]
  exact readTemplateFrom_stays hkinds hbelow (.refl _)

theorem readToken_stays (depths : List Nat) (hbelow : ClosingLine below) (hne : c.rest ≠ []) :
    (readToken depths c).Stays before ('\n' :: below)
      (readToken depths (c.inside before ('\n' :: below))) := by
  obtain ⟨ch, rest, hrest⟩ := List.exists_cons_of_ne_nil hne
  have hdigit : (rest ++ '\n' :: below).head?.any Char.isDigit = rest.head?.any Char.isDigit := by
    cases rest <;> rfl
  unfold readToken
  rw [hrest, rest_inside_of_cons hrest]
  dsimp only
  rw [hdigit]
  split
  · rename_i hquote
    unfold readString
    rw [advance_inside hne]
    exact readStringFrom_stays hquote hbelow _
  split
  · exact readTemplate_stays ⟨nofun, nofun⟩ hbelow hne
  split
  · exact readNumber_stays stops_newline nofun
  split
  · exact readTemplate_stays ⟨nofun, nofun⟩ hbelow hne
  split
  · exact readPrivateName_stays hne
  split
  · exact readNameFrom_stays .empty c
  · exact readPunctuator_stays

/-!
## Scanning
-/

namespace Scanner

/-- The same scanner in a longer text. -/
def inside (s : Scanner) (before : Nat) (after : List Char) : Scanner :=
  { token :=
      { s.token with
        start := s.token.start.inside before after
        next := s.token.next.inside before after }
    depths := s.depths
    error := s.error }

/-- A scanner of a text and one of a longer text stand at the same place, in front of the rest of
the text. -/
structure Matches (s t : Scanner) (before : Nat) (after : List Char) : Prop where
  next : t.token.next = s.token.next.inside before after
  depths : t.depths = s.depths
  error : s.error = none
  error' : t.error = none
  offset : 0 < s.token.next.offset

/-- At a token that is complete. -/
structure Standing (s : Scanner) : Prop where
  known : s.token.kind ≠ .unknown
  more : s.token.kind ≠ .endOfFile
  error : s.error = none
  start : s.token.start.rest ≠ []
  reaches : s.token.start.Reaches s.token.next
  offset : 0 < s.token.start.offset
  spelled : ∀ p, s.token.kind = .mark p → s.token.start.rest = p.text.toList ++ s.token.next.rest

theorem Standing.matches {s : Scanner} (h : s.Standing) (before : Nat) (after : List Char) :
    s.Matches (s.inside before after) before after := by
  rcases h.reaches with ⟨w, hw⟩
  exact ⟨rfl, rfl, h.error, h.error, Nat.lt_of_lt_of_le h.offset hw.offset_le⟩

/-- The mark that a character of a closing line is. -/
def closingMark (ch : Char) : Punctuator :=
  if ch = ')' then .closeParen else if ch = ']' then .closeBracket else .semicolon

/-- The token at the beginning of what is left of a closing line. -/
def closingToken (chars : List Char) (offset : Nat) (lineBreak : Bool) : Token :=
  match chars with
  | [] =>
      { kind := .endOfFile
        start := ⟨[], offset⟩
        next := ⟨[], offset⟩
        lineBreakBefore := lineBreak }
  | ch :: rest =>
      { kind := .mark (closingMark ch)
        start := ⟨ch :: rest, offset⟩
        next := ⟨rest, offset + 1⟩
        lineBreakBefore := lineBreak }

/-- The token of a closing line is no start of anything. -/
theorem kind_closingToken (chars : List Char) (offset : Nat) (lineBreak : Bool) :
    (closingToken chars offset lineBreak).kind ∈
      [.mark .closeParen, .mark .closeBracket, .mark .semicolon, .endOfFile] := by
  cases chars with
  | nil => simp [closingToken]
  | cons ch rest =>
      simp only [closingToken, closingMark]
      split
      · simp
      split
      · simp
      · simp

theorem readToken_closingLine (hbelow : ClosingLine below) (depths : List Nat) (offset : Nat) :
    readToken depths ⟨below, offset⟩ =
      .ok (closingToken below offset true).toLexeme (closingToken below offset true).next := by
  cases below with
  | nil => rfl
  | cons ch below =>
      have hmem := hbelow ch List.mem_cons_self
      simp only [List.mem_cons, List.not_mem_nil, or_false] at hmem
      rcases hmem with rfl | rfl | rfl <;> rfl

theorem scan_of_skip {s : Scanner} {start : Cursor} {lineBreak : Bool}
    (h : Gap.skip .between false s.token.next.rest s.token.next.offset = .token start lineBreak) :
    s.scan =
      { token :=
          { (readToken s.depths start).lexeme with
            start := start
            next := (readToken s.depths start).next
            lineBreakBefore := lineBreak }
        depths := depthsAfter s.depths start (readToken s.depths start).lexeme.kind
        error := s.error <|> (readToken s.depths start).error } := by
  rw [scan, h]

theorem scan_of_openComment {s : Scanner} {start stop : Cursor} {lineBreak : Bool}
    (h : Gap.skip .between false s.token.next.rest s.token.next.offset =
      .openComment start stop lineBreak) :
    s.scan.token.kind = .unknown ∧ s.scan.error.isSome = true := by
  rw [scan, h]
  cases s.error <;> exact ⟨rfl, rfl⟩

/-- Inside a closing line. -/
theorem scan_closingLine {t : Scanner} (hbelow : ClosingLine t.token.next.rest) :
    t.scan.token = closingToken t.token.next.rest t.token.next.offset false ∧
      t.scan.error = t.error := by
  have hskip := Gap.skip_closingLine hbelow false t.token.next.offset
  rw [scan_of_skip hskip, readToken_closingLine hbelow]
  constructor
  · cases t.token.next.rest <;> rfl
  · cases t.error <;> rfl

namespace Matches

variable {s t : Scanner}

theorem skip_stays (h : s.Matches t before ('\n' :: below)) (hbelow : ClosingLine below) :
    (Gap.skip .between false s.token.next.rest s.token.next.offset).Stays before below
      (Gap.skip .between false t.token.next.rest t.token.next.offset) := by
  rw [h.next]
  exact Gap.skip_stays .between hbelow h.offset

theorem depthsAfter_inside {start : Cursor} (hne : start.rest ≠ []) (depths : List Nat)
    (kind : TokenKind) :
    depthsAfter depths (start.inside before ('\n' :: below)) kind =
      depthsAfter depths start kind := by
  obtain ⟨ch, rest, hrest⟩ := List.exists_cons_of_ne_nil hne
  have hhead : (start.inside before ('\n' :: below)).head? = start.head? := by
    simp [head?, Cursor.inside, hrest]
  unfold depthsAfter
  rw [hhead]

theorem start_scan_pos (h : s.Matches t before ('\n' :: below))
    {start : Cursor} {lineBreak : Bool}
    (hskip : Gap.skip .between false s.token.next.rest s.token.next.offset =
      .token start lineBreak) : 0 < start.offset := by
  obtain ⟨gap, hgap⟩ := Gap.skipped_of_skip hskip
  exact Nat.lt_of_lt_of_le h.offset hgap.spans.offset_le

/-- The scanner reads a token that is complete. -/
theorem scan_known (h : s.Matches t before ('\n' :: below)) (hbelow : ClosingLine below)
    (hknown : s.scan.token.kind ≠ .unknown) (hmore : s.scan.token.kind ≠ .endOfFile) :
    s.scan.Standing ∧ t.scan = s.scan.inside before ('\n' :: below) := by
  have hstays := h.skip_stays hbelow
  generalize hs : Gap.skip .between false s.token.next.rest s.token.next.offset = gap at hstays
  generalize ht : Gap.skip .between false t.token.next.rest t.token.next.offset = gap' at hstays
  cases hstays with
  | openComment => exact absurd (scan_of_openComment hs).1 hknown
  | ends =>
      rw [scan_of_skip hs, readToken_end _ rfl] at hmore
      exact absurd rfl hmore
  | @token start lineBreak hne =>
      have hoffset := h.start_scan_pos hs
      have hreaches := reaches_readToken s.depths start
      have hspelled := fun p hp => (@rest_of_readToken start s.depths p hp).2
      have hread := @readToken_stays start before below s.depths hbelow hne
      rw [scan_of_skip hs] at hknown hmore ⊢
      rw [scan_of_skip ht, h.depths, h.error, h.error']
      generalize readToken s.depths start = r at hread hreaches hspelled hknown hmore
      generalize readToken s.depths (start.inside before ('\n' :: below)) = r' at hread
      cases hread with
      | malformed hkind => exact absurd hkind hknown
      | complete _ =>
          refine ⟨⟨hknown, hmore, rfl, hne, hreaches, hoffset, hspelled⟩, ?_⟩
          dsimp only [Reading.ok]
          rw [depthsAfter_inside hne]
          rfl

/-- At the end of the text stands the first closing mark. -/
theorem scan_end (h : s.Matches t before ('\n' :: below)) (hbelow : ClosingLine below)
    (hend : s.scan.token.kind = .endOfFile) :
    ∃ offset, t.scan.token = closingToken below offset true ∧ t.scan.error = none := by
  have hstays := h.skip_stays hbelow
  generalize hs : Gap.skip .between false s.token.next.rest s.token.next.offset = gap at hstays
  generalize ht : Gap.skip .between false t.token.next.rest t.token.next.offset = gap' at hstays
  cases hstays with
  | openComment => exact nomatch (scan_of_openComment hs).1.symm.trans hend
  | token hne =>
      rw [scan_of_skip hs] at hend
      exact absurd hend (advances_readToken _ hne).notEnd
  | @ends _ offset =>
      refine ⟨offset, ?_, ?_⟩
      · rw [scan_of_skip ht, readToken_closingLine hbelow]
        cases below <;> rfl
      · rw [scan_of_skip ht, readToken_closingLine hbelow, h.error']
        rfl

/-- What is malformed stays so. -/
theorem scan_unknown (h : s.Matches t before ('\n' :: below)) (hbelow : ClosingLine below)
    (hunknown : s.scan.token.kind = .unknown) :
    t.scan.token.kind = .unknown ∧ t.scan.error.isSome = true := by
  have hstays := h.skip_stays hbelow
  generalize hs : Gap.skip .between false s.token.next.rest s.token.next.offset = gap at hstays
  generalize ht : Gap.skip .between false t.token.next.rest t.token.next.offset = gap' at hstays
  cases hstays with
  | openComment => exact scan_of_openComment ht
  | ends =>
      rw [scan_of_skip hs, readToken_end _ rfl] at hunknown
      cases hunknown
  | @token start lineBreak hne =>
      have hread := @readToken_stays start before below s.depths hbelow hne
      rw [scan_of_skip hs] at hunknown
      rw [scan_of_skip ht, h.depths, h.error']
      generalize readToken s.depths start = r at hread hunknown
      generalize readToken s.depths (start.inside before ('\n' :: below)) = r' at hread
      cases hread with
      | complete hknown => exact absurd hunknown hknown
      | malformed hkind herror hkind' herror' => exact ⟨hkind', herror'⟩

end Matches

section Slash

variable {s : Scanner}

theorem rescanSlash_of_not_slash
    (h : ¬ (s.token.kind = .mark .divide ∨ s.token.kind = .mark .divideAssign)) :
    s.rescanSlash = s := by
  rw [rescanSlash, if_neg h]

/-- A regular expression that is complete is read alike. -/
theorem rescanSlash_inside (hs : s.Standing) (hknown : s.rescanSlash.token.kind ≠ .unknown) :
    s.rescanSlash.Standing ∧ (s.inside before ('\n' :: below)).rescanSlash =
      s.rescanSlash.inside before ('\n' :: below) := by
  by_cases hslash : s.token.kind = .mark .divide ∨ s.token.kind = .mark .divideAssign
  · have hread := @readRegularExpression_inside s.token.start before below hs.start
    have hlonger : (s.inside before ('\n' :: below)).token.kind = .mark .divide ∨
        (s.inside before ('\n' :: below)).token.kind = .mark .divideAssign := hslash
    rw [rescanSlash, if_pos hslash] at hknown ⊢
    rw [rescanSlash, if_pos hlonger]
    change readRegularExpression (s.inside before ('\n' :: below)).token.start = _ at hread
    rw [hread]
    cases hbase : readRegularExpression s.token.start with
    | error stop =>
        rw [hbase] at hknown
        exact absurd rfl hknown
    | ok next =>
        have hreaches : s.token.start.Reaches next :=
          s.token.start.reaches_advance.trans (advance_reaches_readRegularExpression hbase)
        have htext : (s.inside before ('\n' :: below)).token.start.textTo
            (next.inside before ('\n' :: below)) = s.token.start.textTo next :=
          hreaches.textTo_inside
        refine ⟨⟨nofun, nofun, hs.error, hs.start, hreaches, hs.offset, nofun⟩, ?_⟩
        dsimp only
        rw [htext]
        rfl
  · have hlonger : ¬ ((s.inside before ('\n' :: below)).token.kind = .mark .divide ∨
        (s.inside before ('\n' :: below)).token.kind = .mark .divideAssign) := hslash
    rw [rescanSlash_of_not_slash hslash, rescanSlash_of_not_slash hlonger]
    exact ⟨hs, rfl⟩

/-- A regular expression that is open at the end of its line stays open. -/
theorem rescanSlash_unknown (hs : s.Standing) (hunknown : s.rescanSlash.token.kind = .unknown) :
    (s.inside before ('\n' :: below)).rescanSlash.token.kind = .unknown ∧
      (s.inside before ('\n' :: below)).rescanSlash.error.isSome = true := by
  by_cases hslash : s.token.kind = .mark .divide ∨ s.token.kind = .mark .divideAssign
  · have hread := @readRegularExpression_inside s.token.start before below hs.start
    have hlonger : (s.inside before ('\n' :: below)).token.kind = .mark .divide ∨
        (s.inside before ('\n' :: below)).token.kind = .mark .divideAssign := hslash
    rw [rescanSlash, if_pos hslash] at hunknown
    rw [rescanSlash, if_pos hlonger]
    change readRegularExpression (s.inside before ('\n' :: below)).token.start = _ at hread
    rw [hread]
    cases hbase : readRegularExpression s.token.start with
    | ok next =>
        rw [hbase] at hunknown
        cases hunknown
    | error stop =>
        dsimp only
        cases (s.inside before ('\n' :: below)).error <;> exact ⟨rfl, rfl⟩
  · rw [rescanSlash_of_not_slash hslash] at hunknown
    exact absurd hunknown hs.known

end Slash

end Scanner
end Untangle
