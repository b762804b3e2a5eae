import Untangle.Proofs.Token.Gap
import Untangle.Proofs.Token.Reach
import Untangle.Proofs.Token.Slicing

/-!
# Slices always exist

Wherever a cursor stands on the source, each slice that the scanner takes from there exists, and
it holds what the cursor sees. So scanning by slices never fails, and it reads the same tokens.
-/

namespace Untangle

open Cursor

/-!
## Cursors on the source
-/

/-- The cursor stands at a character boundary of the source and sees the rest of it. -/
def OnText (source : String) (c : Cursor) : Prop :=
  (Cursor.ofString source).Reaches c

variable {source : String} {c d : Cursor}

namespace OnText

theorem start (source : String) : OnText source (.ofString source) :=
  .refl _

theorem reaches (h : OnText source c) (hreach : c.Reaches d) : OnText source d :=
  Cursor.Reaches.trans h hreach

theorem advance (h : OnText source c) : OnText source c.advance :=
  h.reaches c.reaches_advance

theorem skip (h : OnText source c) (n : Nat) : OnText source (c.skip n) :=
  h.reaches (c.reaches_skip n)

theorem utf8ByteSize_ofList (w : List Char) : (String.ofList w).utf8ByteSize = byteLength w := by
  rw [← byteLength_toList, String.toList_ofList]

/-- The byte of the cursor is a position of the source, which splits it there. -/
theorem splits (h : OnText source c) :
    ∃ p : source.Pos, Slicing.position? source c.offset = some p ∧
      p.offset.byteIdx = c.offset ∧ ∃ w, (Cursor.ofString source).Spans w c ∧
        p.Splits (String.ofList w) (String.ofList c.rest) := by
  rcases h with ⟨w, hw⟩
  have happend : source = String.ofList w ++ String.ofList c.rest := by
    rw [← String.ofList_append, ← hw.rest]
    exact String.ofList_toList.symm
  have hoffset : c.offset = byteLength w := by
    rw [hw.offset]
    exact Nat.zero_add _
  have hend : (⟨c.offset⟩ : String.Pos.Raw) = (String.ofList w).rawEndPos := by
    rw [String.Pos.Raw.ext_iff, String.byteIdx_rawEndPos, utf8ByteSize_ofList, hoffset]
  have hvalid : (⟨c.offset⟩ : String.Pos.Raw).IsValid source :=
    String.Pos.Raw.isValid_iff_exists_append.mpr ⟨_, _, happend, hend⟩
  refine ⟨⟨⟨c.offset⟩, hvalid⟩, dif_pos hvalid, rfl, w, hw, happend, hend⟩

theorem isValid (h : OnText source c) : (⟨c.offset⟩ : String.Pos.Raw).IsValid source := by
  rcases h.splits with ⟨p, _, hoffset, _⟩
  rw [← hoffset]
  exact p.isValid

theorem slice? (h : OnText source c) (hreach : c.Reaches d) :
    Slicing.slice? source c.offset d.offset = some (c.textTo d) := by
  rcases h.splits with ⟨p, hp, _, w, hw, hsplits⟩
  rcases (h.reaches hreach).splits with ⟨q, hq, _, w', hw', hsplits'⟩
  rcases hreach with ⟨v, hv⟩
  have hboth : ∃ hle : p ≤ q, (source.slice p q hle).copy = String.ofList v := by
    refine String.copy_slice_eq_iff_splits.mpr ⟨String.ofList w, String.ofList d.rest, ?_, ?_⟩
    · rw [← String.ofList_append, ← hv.rest]
      exact hsplits
    · have hwhole : w' = w ++ v := by
        have hrest := hw'.rest.symm.trans (hw.trans hv).rest
        exact List.append_cancel_right hrest
      rw [← String.ofList_append, ← hwhole]
      exact hsplits'
  rcases hboth with ⟨hle, hcopy⟩
  rw [Cursor.textTo, hv.charsTo, ← hcopy]
  simp [Slicing.slice?, hp, hq, String.slice?, hle]

theorem reaches_end (h : OnText source c) :
    c.Reaches ⟨[], source.utf8ByteSize⟩ := by
  rcases h with ⟨w, hw⟩
  refine ⟨c.rest, (List.append_nil _).symm, ?_⟩
  rw [hw.offset, Nat.add_assoc, ← byteLength_append, ← hw.rest, ← byteLength_toList]
  exact (Nat.zero_add _).symm

theorem offset_le (h : OnText source c) : c.offset ≤ source.utf8ByteSize := by
  rcases h.reaches_end with ⟨w, hw⟩
  exact hw.offset_le

theorem from? (h : OnText source c) : Slicing.from? source c.offset = some c.rest := by
  have hend : c.Spans c.rest ⟨[], source.utf8ByteSize⟩ := by
    rcases h.reaches_end with ⟨w, hw⟩
    have hrest : c.rest = w := by simpa using hw.rest
    exact hrest ▸ hw
  rw [Slicing.from?, h.slice? ⟨_, hend⟩, Cursor.textTo, hend.charsTo]
  simp

theorem at? (h : OnText source c) : Slicing.at? source c.offset = some c := by
  rw [Slicing.at?, h.from?]
  rfl

theorem current (h : OnText source c) : Slicing.current source c.offset = some c.head? := by
  rw [Slicing.current, h.from?]
  rfl

theorem advance_eq (h : OnText source c) :
    Slicing.advance source c.offset = some c.advance.offset := by
  rw [Slicing.advance, h.current]
  unfold Cursor.advance head?
  cases c.rest <;> rfl

/-- Two bytes behind two characters of one byte each. -/
theorem offset_skip_two {a b : Char} {rest : List Char} (hrest : c.rest = a :: b :: rest)
    (ha : a.utf8Size = 1) (hb : b.utf8Size = 1) : c.offset + 2 = (c.skip 2).offset := by
  simp [Cursor.skip, Cursor.advance, hrest, ha, hb]

theorem length_lt_turns (h : OnText source c) : c.rest.length < Slicing.turns source := by
  have hlength : source.toList.length ≤ source.utf8ByteSize := by
    rw [← byteLength_toList]
    exact length_le_byteLength _
  exact Nat.lt_succ_of_le (Nat.le_trans (Cursor.Reaches.length_le h) hlength)

end OnText

namespace Slicing

/-!
## Escape sequences
-/

theorem readDigits_eq (h : OnText source c) (radix max value count : Nat) :
    readDigits source radix max value count c.offset =
      some (Untangle.readDigits radix max value count c) := by
  induction max generalizing c value count with
  | zero => simp [readDigits, Untangle.readDigits, h.at?]
  | succ max ih =>
      rw [readDigits, Untangle.readDigits, h.current]
      cases hdigit : c.head?.bind (Text.digitValue? radix) with
      | none => simp [hdigit, h.at?]
      | some digit => simp [hdigit, h.advance_eq, ih h.advance]

theorem readCodeUnit_eq (h : OnText source c) :
    readCodeUnit source c.offset = some (Untangle.readCodeUnit c) := by
  simp [readCodeUnit, Untangle.readCodeUnit, readDigits_eq h]

theorem readBracedCodePoint_eq (h : OnText source c) :
    readBracedCodePoint source c.offset = some (Untangle.readBracedCodePoint c) := by
  have hnext := h.reaches (reaches_readDigits 16 6 0 0 c)
  unfold readBracedCodePoint Untangle.readBracedCodePoint
  rw [readDigits_eq h]
  simp only [Option.bind_eq_bind, Option.bind_some, hnext.current]
  split
  · rfl
  · simp [hnext.advance_eq, hnext.advance.at?]

theorem readUnicodeEscape_eq (h : OnText source c) :
    readUnicodeEscape source c.offset = some (Untangle.readUnicodeEscape c) := by
  unfold readUnicodeEscape Untangle.readUnicodeEscape
  simp only [Option.bind_eq_bind, h.current, Option.bind_some]
  split
  · simp [h.advance_eq, readBracedCodePoint_eq h.advance]
  · exact readCodeUnit_eq h

theorem readLowSurrogate_eq_none (h : ∀ tail, c.rest = '\\' :: 'u' :: tail → False) :
    Untangle.readLowSurrogate c = none := by
  unfold Untangle.readLowSurrogate
  split
  · rename_i hrest
    exact absurd hrest (h _)
  · rfl

theorem readLowSurrogate_eq (h : OnText source c) :
    readLowSurrogate source c.offset = some (Untangle.readLowSurrogate c) := by
  unfold readLowSurrogate
  rw [h.from?, Option.bind_eq_bind, Option.bind_some]
  split
  · rename_i hrest
    rw [OnText.offset_skip_two hrest rfl rfl, readCodeUnit_eq (h.skip 2)]
    unfold Untangle.readLowSurrogate
    cases hunit : Untangle.readCodeUnit (c.skip 2) with
    | mk low? next => cases low? <;> simp [hrest]
  · rename_i hother
    rw [readLowSurrogate_eq_none hother]
    rfl

theorem readCodePoint_eq (h : OnText source c) (code : Nat) :
    readCodePoint source code c.offset = some (.ofCodePoint code c) := by
  unfold readCodePoint EscapeReading.ofCodePoint
  cases hhigh : isHighSurrogate code with
  | false => cases hcode : charOfCode? code <;> simp [h.at?]
  | true =>
      simp only [if_true, readLowSurrogate_eq h, Option.bind_eq_bind, Option.bind_some]
      cases hlow : Untangle.readLowSurrogate c with
      | none => cases hcode : charOfCode? code <;> simp [h.at?]
      | some pair => rfl

theorem readOctalEscape_eq (h : OnText source c) (first : Nat) :
    readOctalEscape source first c.offset = some (Untangle.readOctalEscape first c) := by
  simp [readOctalEscape, Untangle.readOctalEscape, readDigits_eq h]

theorem readHexEscape_eq (h : OnText source c) :
    readHexEscape source c.offset = some (Untangle.readHexEscape c) := by
  simp [readHexEscape, Untangle.readHexEscape, readDigits_eq h]

theorem readLineContinuation_eq (h : OnText source c) (ch : Char) :
    readLineContinuation source ch c.offset = some (Untangle.readLineContinuation ch c) := by
  unfold readLineContinuation Untangle.readLineContinuation
  simp only [Option.bind_eq_bind, h.current, Option.bind_some]
  split
  · simp [h.advance_eq, h.advance.at?]
  · simp [h.at?]

theorem readCodePointEscape_eq (h : OnText source c) :
    readCodePointEscape source c.offset = some (Untangle.readCodePointEscape c) := by
  have hnext := h.reaches (reaches_readUnicodeEscape c)
  unfold readCodePointEscape Untangle.readCodePointEscape
  rw [readUnicodeEscape_eq h]
  cases hcode : (Untangle.readUnicodeEscape c).1 with
  | none => simp [hcode]
  | some code => simp [hcode, readCodePoint_eq hnext]

theorem readEscapeAfter_eq (h : OnText source c) (inTemplate : Bool) (ch : Char) (offset : Nat) :
    readEscapeAfter source inTemplate ch offset c.offset =
      some (Untangle.readEscapeAfter inTemplate ch offset c) := by
  unfold readEscapeAfter Untangle.readEscapeAfter
  simp only [Option.bind_eq_bind, h.current, h.at?, Option.bind_some, readOctalEscape_eq h,
    readHexEscape_eq h, readCodePointEscape_eq h, readLineContinuation_eq h]
  repeat' split
  all_goals rfl

theorem readEscape_eq (h : OnText source c) (inTemplate : Bool) :
    readEscape source inTemplate c.offset = some (Untangle.readEscape inTemplate c) := by
  unfold readEscape Untangle.readEscape
  rw [h.current]
  cases c.head? with
  | none => simp [h.at?]
  | some ch => simp [h.advance_eq, readEscapeAfter_eq h.advance]

/-!
## Strings, templates and regular expressions
-/

/-- A loop that has not run out of turns has one for the next step. -/
theorem exists_turns {n turns : Nat} (h : n < turns) : ∃ rest, turns = rest + 1 ∧ n ≤ rest :=
  ⟨turns - 1, by omega, by omega⟩

theorem readStringFrom_eq {quote : Char} {opening turns : Nat} {reversed : List Char}
    {surrogate : Bool} (h : OnText source c) (hturns : c.rest.length < turns) :
    readStringFrom source quote opening turns reversed surrogate c.offset =
      some (Untangle.readStringFrom quote opening reversed surrogate c) := by
  fun_induction Untangle.readStringFrom quote opening reversed surrogate c generalizing turns with
  | case1 reversed surrogate c fail =>
      rename_i hrest
      obtain ⟨turns, rfl, _⟩ := exists_turns hturns
      simp [readStringFrom, h.current, h.at?, head?, hrest, fail]
  | case2 reversed surrogate c rest hrest =>
      obtain ⟨turns, rfl, _⟩ := exists_turns hturns
      simp [readStringFrom, h.current, h.advance_eq, h.advance.at?, head?, hrest]
  | case3 reversed surrogate c fail ch rest hrest hquote =>
      rename_i hbreak
      obtain ⟨turns, rfl, _⟩ := exists_turns hturns
      simp [readStringFrom, h.current, h.at?, head?, hrest, hquote, hbreak, fail]
  | case4 reversed surrogate c fail rest error herror hrest hquote =>
      obtain ⟨turns, rfl, _⟩ := exists_turns hturns
      simp [readStringFrom, h.current, h.advance_eq, readEscape_eq h.advance, head?, hrest, hquote,
        herror, fail]
  | case5 reversed surrogate c rest hread hrest hquote hbreak ih =>
      obtain ⟨turns, rfl, hlength⟩ := exists_turns hturns
      have hnext := h.advance.reaches (reaches_readEscape false c.advance)
      have hless := (reaches_readEscape false c.advance).length_lt (by simp [hrest])
      have hstep := ih hnext (Nat.lt_of_lt_of_le hless hlength)
      simp [readStringFrom, h.current, h.advance_eq, readEscape_eq h.advance, head?, hrest, hquote,
        hread, hstep]
  | case6 reversed surrogate c ch rest hrest hquote hbreak hplain ih =>
      obtain ⟨turns, rfl, hlength⟩ := exists_turns hturns
      have hless := length_advance_lt (c := c) (by simp [hrest])
      have hstep := ih h.advance (Nat.lt_of_lt_of_le hless hlength)
      simp [readStringFrom, h.current, h.advance_eq, head?, hrest, hquote, hbreak, hplain, hstep]

theorem readString_eq (h : OnText source c) (quote : Char) :
    readString source quote c.offset = some (Untangle.readString quote c) := by
  simp [readString, Untangle.readString, h.advance_eq,
    readStringFrom_eq h.advance h.advance.length_lt_turns]

theorem readTemplateFrom_eq {kinds : PieceKinds} {opening turns : Nat} {content : Cursor}
    {piece : TemplatePiece} (hcontent : OnText source content) (hreach : content.Reaches c)
    (hturns : c.rest.length < turns) :
    readTemplateFrom source kinds opening content.offset turns piece c.offset =
      some (Untangle.readTemplateFrom kinds opening content piece c) := by
  fun_induction Untangle.readTemplateFrom kinds opening content piece c generalizing turns with
  | case1 piece c hrest =>
      obtain ⟨turns, rfl, _⟩ := exists_turns hturns
      have h := hcontent.reaches hreach
      simp [readTemplateFrom, h.from?, h.at?, hrest]
  | case2 piece c rest hrest =>
      obtain ⟨turns, rfl, _⟩ := exists_turns hturns
      have h := hcontent.reaches hreach
      simp [readTemplateFrom, h.from?, h.advance_eq, h.advance.at?, hcontent.slice? hreach,
        Cursor.textTo, hrest]
  | case3 piece c ch rest hrest hclosing =>
      rename_i hopens
      obtain ⟨turns, rfl, _⟩ := exists_turns hturns
      have h := hcontent.reaches hreach
      obtain ⟨rfl, hhead⟩ := hopens
      obtain ⟨after, rfl⟩ := List.head?_eq_some_iff.mp hhead
      simp [readTemplateFrom, h.from?, OnText.offset_skip_two hrest rfl rfl, (h.skip 2).at?,
        hcontent.slice? hreach, Cursor.textTo, hrest]
  | case4 piece c rest hrest hfinished hunfinished ih =>
      obtain ⟨turns, rfl, hlength⟩ := exists_turns hturns
      have h := hcontent.reaches hreach
      have hnext := reaches_readEscape true c.advance
      have hless := hnext.length_lt (by simp [hrest])
      have hstep := ih ((hreach.trans c.reaches_advance).trans hnext)
        (Nat.lt_of_lt_of_le hless hlength)
      simp [readTemplateFrom, h.from?, h.advance_eq, readEscape_eq h.advance, hrest, hstep]
  | case5 piece c ch rest hrest hfinished hunfinished hplain hpair ih =>
      obtain ⟨turns, rfl, hlength⟩ := exists_turns hturns
      have h := hcontent.reaches hreach
      have hless := (c.advance.reaches_skip 1).length_lt (by simp [hrest])
      have hstep := ih (hreach.trans (c.reaches_skip 2)) (Nat.lt_of_lt_of_le hless hlength)
      obtain ⟨rfl, hfeed⟩ := hpair
      simp [readTemplateFrom, h.from?, h.advance_eq, h.advance.advance_eq, hrest, hfeed]
      exact hstep
  | case6 piece c rest hrest hfinished hunfinished hplain hpair ih =>
      obtain ⟨turns, rfl, hlength⟩ := exists_turns hturns
      have h := hcontent.reaches hreach
      have hless := length_advance_lt (c := c) (by simp [hrest])
      have hstep := ih (hreach.trans c.reaches_advance) (Nat.lt_of_lt_of_le hless hlength)
      have hfeed : rest.head? ≠ some '\n' := fun hhead => hpair ⟨rfl, hhead⟩
      simp [readTemplateFrom, h.from?, h.advance_eq, hrest, hfeed, hstep]
  | case7 piece c ch rest hrest hfinished hunfinished hplain hpair hreturn ih =>
      obtain ⟨turns, rfl, hlength⟩ := exists_turns hturns
      have h := hcontent.reaches hreach
      have hless := length_advance_lt (c := c) (by simp [hrest])
      have hstep := ih (hreach.trans c.reaches_advance) (Nat.lt_of_lt_of_le hless hlength)
      simp [readTemplateFrom, h.from?, h.advance_eq, hrest, hfinished, hunfinished, hplain,
        hreturn, hstep]

theorem readTemplate_eq (h : OnText source c) (kinds : PieceKinds) :
    readTemplate source kinds c.offset = some (Untangle.readTemplate kinds c) := by
  simp [readTemplate, Untangle.readTemplate, h.advance_eq,
    readTemplateFrom_eq h.advance (.refl _) h.advance.length_lt_turns]

theorem dropWhile_eq {p : Char → Bool} {turns : Nat} (h : OnText source c)
    (hturns : c.rest.length < turns) :
    dropWhile source p turns c.offset = some (c.dropWhile p) := by
  induction turns generalizing c with
  | zero => exact absurd hturns (Nat.not_lt_zero _)
  | succ turns ih =>
      rcases c with ⟨_ | ⟨ch, rest⟩, offset⟩
      · simp [dropWhile, h.current, h.at?, head?, Cursor.dropWhile, dropWhileFrom]
      · have hstep := ih h.advance (Nat.lt_of_succ_lt_succ hturns)
        simp only [Cursor.advance, Cursor.dropWhile] at hstep
        by_cases hch : p ch <;>
          simp [dropWhile, h.current, h.at?, h.advance_eq, head?, Cursor.advance,
            Cursor.dropWhile, dropWhileFrom, hch, hstep]

theorem regularExpressionBody_eq {inClass : Bool} {turns : Nat} (h : OnText source c)
    (hturns : c.rest.length < turns) :
    regularExpressionBody source turns inClass c.offset =
      some (Untangle.regularExpressionBody inClass c.rest c.offset) := by
  rcases c with ⟨chars, offset⟩
  dsimp only at hturns ⊢
  fun_induction Untangle.regularExpressionBody inClass chars offset generalizing turns with
  | case1 inClass offset =>
      obtain ⟨turns, rfl, _⟩ := exists_turns hturns
      simp [regularExpressionBody, h.current, h.at?, head?]
  | case2 inClass ch rest offset hbreak =>
      obtain ⟨turns, rfl, _⟩ := exists_turns hturns
      simp [regularExpressionBody, h.current, h.at?, head?, hbreak]
  | case3 inClass offset behind =>
      obtain ⟨turns, rfl, _⟩ := exists_turns hturns
      have hnext := h.advance
      simp only [Cursor.advance] at hnext
      have hplain : Text.isLineBreak '\\' = false := by decide
      simp [regularExpressionBody, h.current, h.advance_eq, hnext.current, hnext.at?, head?,
        Cursor.advance, hplain, behind]
  | case4 inClass offset escaped rest hbreak behind =>
      obtain ⟨turns, rfl, _⟩ := exists_turns hturns
      have hnext := h.advance
      simp only [Cursor.advance] at hnext
      have hplain : Text.isLineBreak '\\' = false := by decide
      simp [regularExpressionBody, h.current, h.advance_eq, hnext.current, hnext.at?, head?,
        Cursor.advance, hplain, hbreak, behind]
  | case5 inClass offset escaped rest hbreak behind hplain =>
      rename_i ih
      obtain ⟨turns, rfl, hlength⟩ := exists_turns hturns
      have hnext := h.advance
      simp only [Cursor.advance] at hnext
      have hstep := ih hnext.advance (Nat.lt_of_succ_le (Nat.le_of_succ_le hlength))
      simp [regularExpressionBody, h.current, h.advance_eq, hnext.current, hnext.advance_eq, head?,
        Cursor.advance, hplain, hbreak]
      exact hstep
  | case6 inClass rest offset behind hplain hescape =>
      rename_i ih
      obtain ⟨turns, rfl, hlength⟩ := exists_turns hturns
      have hstep := ih h.advance (Nat.lt_of_succ_le hlength)
      simp [regularExpressionBody, h.current, h.advance_eq, head?, Cursor.advance, hplain]
      exact hstep
  | case7 inClass rest offset behind hplain hescape hopen =>
      rename_i ih
      obtain ⟨turns, rfl, hlength⟩ := exists_turns hturns
      have hstep := ih h.advance (Nat.lt_of_succ_le hlength)
      simp [regularExpressionBody, h.current, h.advance_eq, head?, Cursor.advance, hplain]
      exact hstep
  | case8 inClass ch rest offset behind hplain hescape hopen hclose =>
      rename_i hslash
      obtain ⟨turns, rfl, _⟩ := exists_turns hturns
      obtain ⟨rfl, houtside⟩ := hslash
      have hnext := h.advance
      simp only [Cursor.advance] at hnext
      simp [regularExpressionBody, h.current, h.advance_eq, hnext.at?, head?, Cursor.advance,
        hplain, houtside, behind]
  | case9 inClass ch rest offset behind hplain hescape hopen hclose hslash =>
      rename_i ih
      obtain ⟨turns, rfl, hlength⟩ := exists_turns hturns
      have hstep := ih h.advance (Nat.lt_of_succ_le hlength)
      have hinside : ¬(ch = '/' ∧ inClass = false) := by simpa using hslash
      simp [regularExpressionBody, h.current, h.advance_eq, head?, Cursor.advance, hplain, hescape,
        hopen, hclose, hinside]
      exact hstep

theorem readRegularExpression_eq {rest : List Char} (h : OnText source c)
    (hrest : c.rest = '/' :: rest) :
    readRegularExpression source c.offset = some (Untangle.readRegularExpression c) := by
  have hsize : ('/' : Char).utf8Size = 1 := rfl
  have hbody : c.offset + 1 = c.advance.offset := by simp [Cursor.advance, hrest, hsize]
  unfold readRegularExpression Untangle.readRegularExpression
  rw [hbody, regularExpressionBody_eq h.advance h.advance.length_lt_turns]
  cases hread : Untangle.regularExpressionBody false c.advance.rest c.advance.offset with
  | error stop => simp [hread, Except.map]
  | ok body =>
      have hend := h.advance.reaches (reaches_regularExpressionBody _ _ _ hread)
      simp [hread, Except.map, dropWhile_eq hend hend.length_lt_turns]

/-!
## Numbers
-/

theorem decimalRun_eq {reversed : List Char} {turns : Nat} (h : OnText source c)
    (hturns : c.rest.length < turns) :
    decimalRun source turns reversed c.offset =
      some (decimalRunFrom reversed c.rest c.offset) := by
  induction turns generalizing c reversed with
  | zero => exact absurd hturns (Nat.not_lt_zero _)
  | succ turns ih =>
      rcases c with ⟨_ | ⟨ch, rest⟩, offset⟩
      · simp [decimalRun, h.from?, h.at?, decimalRunFrom]
      · have hstep := fun reversed => @ih _ reversed h.advance (Nat.lt_of_succ_lt_succ hturns)
        simp only [Cursor.advance] at hstep
        by_cases hdigit : ch.isDigit
        · simp only [utf8Size_of_isDigit hdigit] at hstep
          simp [decimalRun, h.from?, h.advance_eq, Cursor.advance, decimalRunFrom, hdigit, hstep,
            utf8Size_of_isDigit hdigit]
        · by_cases hseparator : ch = '_' ∧ rest.head?.any Char.isDigit
          · obtain ⟨rfl, hnext⟩ := hseparator
            have hsize : ('_' : Char).utf8Size = 1 := rfl
            simp only [hsize] at hstep
            simp [decimalRun, h.from?, h.advance_eq, Cursor.advance, decimalRunFrom, hdigit, hnext,
              hstep, hsize]
          · simp [decimalRun, h.from?, h.at?, decimalRunFrom, hdigit, hseparator]

theorem radixRun_eq {radix : Nat} {reversed : List Nat} {turns : Nat} (h : OnText source c)
    (hturns : c.rest.length < turns) :
    radixRun source radix turns reversed c.offset =
      some (radixRunFrom radix reversed c.rest c.offset) := by
  induction turns generalizing c reversed with
  | zero => exact absurd hturns (Nat.not_lt_zero _)
  | succ turns ih =>
      rcases c with ⟨_ | ⟨ch, rest⟩, offset⟩
      · simp [radixRun, h.current, h.at?, head?, radixRunFrom]
      · have hstep := fun reversed => @ih _ reversed h.advance (Nat.lt_of_succ_lt_succ hturns)
        simp only [Cursor.advance] at hstep
        by_cases hseparator : ch = '_' ∧ reversed ≠ []
        · obtain ⟨rfl, hnext⟩ := hseparator
          have hsize : ('_' : Char).utf8Size = 1 := rfl
          simp only [hsize] at hstep
          simp [radixRun, h.current, h.advance_eq, head?, Cursor.advance, radixRunFrom, hnext,
            hstep, hsize]
        · cases hdigit : Text.digitValue? radix ch with
          | none => simp [radixRun, h.current, h.at?, head?, radixRunFrom, hdigit, hseparator]
          | some digit =>
              simp only [utf8Size_of_digitValue? hdigit] at hstep
              simp [radixRun, h.current, h.advance_eq, head?, Cursor.advance, radixRunFrom, hdigit,
                hseparator, hstep, utf8Size_of_digitValue? hdigit]

theorem readRadixNumeral_eq {radix : Nat} (h : OnText source c)
    (hradix : radixOf? c.rest = some radix) :
    readRadixNumeral source radix c.offset = some (Untangle.readRadixNumeral radix c) := by
  have hdigits : c.offset + 2 = (c.skip 2).offset := by
    unfold radixOf? at hradix
    split at hradix <;> first
      | exact OnText.offset_skip_two ‹_› rfl rfl
      | cases hradix
  have hnext := h.skip 2
  simp [readRadixNumeral, Untangle.readRadixNumeral, Untangle.radixRun, hdigits,
    radixRun_eq hnext hnext.length_lt_turns]

theorem readLeadingZero_eq (h : OnText source c) :
    readLeadingZero source c.offset = some (Untangle.readLeadingZero c) := by
  simp [readLeadingZero, Untangle.readLeadingZero, dropWhile_eq h h.length_lt_turns,
    h.slice? (c.reaches_dropWhile _), Cursor.textTo]

/-- The cursor behind a character that may be there. -/
theorem advanceIf_eq (h : OnText source c) (passes : Bool) :
    advanceIf source passes c.offset = some (if passes then c.advance else c).offset := by
  cases passes with
  | false => rfl
  | true => exact h.advance_eq

theorem reaches_advanceIf (passes : Bool) (c : Cursor) :
    c.Reaches (if passes then c.advance else c) := by
  cases passes with
  | false => exact .refl c
  | true => exact c.reaches_advance

theorem decimalRun_whole (h : OnText source c) :
    decimalRun source (turns source) [] c.offset = some (Untangle.decimalRun c) :=
  decimalRun_eq h h.length_lt_turns

theorem readExponent_eq (h : OnText source c) :
    readExponent source c.offset = some (readExponent? c) := by
  have hdigits := h.reaches (reaches_advanceIf (c.head? == some '-' || c.head? == some '+') c)
  unfold readExponent readExponent?
  simp only [h.current, advanceIf_eq h, hdigits.current, Option.bind_eq_bind, Option.bind_some,
    decimalRun_whole hdigits, Option.pure_def, ← apply_ite some]

theorem readFraction_eq (h : OnText source c) (hasPoint : Bool) :
    readFraction source hasPoint c =
      some (if hasPoint then Untangle.decimalRun c.advance else ([], c)) := by
  cases hasPoint with
  | false => rfl
  | true => simp [readFraction, h.advance_eq, decimalRun_whole h.advance]

theorem reaches_fraction (hasPoint : Bool) (c : Cursor) :
    c.Reaches (if hasPoint then Untangle.decimalRun c.advance else ([], c)).2 := by
  cases hasPoint with
  | false => exact .refl c
  | true => exact c.reaches_advance.trans (reaches_decimalRun _)

theorem readDecimalNumeral_eq (h : OnText source c) :
    readDecimalNumeral source c.offset = some (Untangle.readDecimalNumeral c) := by
  have hwhole := reaches_decimalRun c
  unfold readDecimalNumeral Untangle.readDecimalNumeral
  rw [decimalRun_whole h]
  generalize Untangle.decimalRun c = run at hwhole ⊢
  obtain ⟨whole, afterWhole⟩ := run
  have hpoint := h.reaches hwhole
  have hfraction := hwhole.trans (reaches_fraction (afterWhole.head? == some '.') afterWhole)
  simp only [Option.bind_eq_bind, Option.bind_some, hpoint.current, readFraction_eq hpoint]
  generalize (if afterWhole.head? == some '.' then Untangle.decimalRun afterWhole.advance
    else ([], afterWhole)) = run at hfraction ⊢
  obtain ⟨fraction, afterFraction⟩ := run
  have hletter := h.reaches hfraction
  simp only [Option.bind_some, hletter.current, hletter.advance_eq, readExponent_eq hletter.advance,
    h.slice? hfraction]
  cases hexponent : readExponent? afterFraction.advance with
  | none => split <;> rfl
  | some reading =>
      obtain ⟨exponent, next⟩ := reading
      have hnext := (hfraction.trans afterFraction.reaches_advance).trans
        (reaches_readExponent? hexponent)
      simp only [h.slice? hnext]
      split <;> rfl

theorem readNumeral_eq (h : OnText source c) :
    readNumeral source c.offset = some (Untangle.readNumeral c) := by
  unfold readNumeral Untangle.readNumeral
  rw [h.from?, Option.bind_eq_bind, Option.bind_some]
  cases hradix : radixOf? c.rest with
  | some radix => exact readRadixNumeral_eq h hradix
  | none =>
      have hsecond : c.rest.tail.head? = c.advance.head? := by
        cases hrest : c.rest <;> simp [head?, Cursor.advance, hrest]
      simp only [hsecond, readLeadingZero_eq h, readDecimalNumeral_eq h, ← apply_ite some]
      rfl

theorem readNumber_eq (h : OnText source c) :
    readNumber source c.offset = some (Untangle.readNumber c) := by
  have hnumeral := reaches_readNumeral c
  unfold readNumber Untangle.readNumber
  rw [readNumeral_eq h, Option.bind_eq_bind, Option.bind_some]
  cases hread : Untangle.readNumeral c with
  | digitExpected next => rfl
  | value number integer behind =>
      rw [hread] at hnumeral
      have hbehind : OnText source behind := h.reaches hnumeral
      have hreach := hnumeral.trans
        (reaches_advanceIf (integer && behind.head? == some 'n') behind)
      have hnext := h.reaches hreach
      simp only [Option.bind_eq_bind, hbehind.current, advanceIf_eq hbehind, hnext.current,
        hnext.at?, Option.bind_some, h.slice? hreach, Option.pure_def, ← apply_ite some]

/-!
## Names and punctuators
-/

theorem readNameFrom_eq {name : PartialName} {turns : Nat} (h : OnText source c)
    (hturns : c.rest.length < turns) :
    readNameFrom source turns name c.offset = some (Untangle.readNameFrom name c) := by
  fun_induction Untangle.readNameFrom name c generalizing turns with
  | case1 name c hrest =>
      obtain ⟨turns, rfl, _⟩ := exists_turns hturns
      simp [readNameFrom, h.from?, h.at?, hrest]
  | case2 name c rest hmark code? next hread decoded haccepts hrest ih =>
      obtain ⟨turns, rfl, hlength⟩ := exists_turns hturns
      obtain ⟨after, rfl⟩ := List.head?_eq_some_iff.mp hmark
      have hescape := reaches_readUnicodeEscape (c.skip 2)
      have hless := ((c.advance.reaches_skip 1).trans hescape).length_lt (by simp [hrest])
      have hstep := ih ((h.skip 2).reaches hescape) (Nat.lt_of_lt_of_le hless hlength)
      rw [hread] at hstep
      simp [readNameFrom, h.from?, OnText.offset_skip_two hrest rfl rfl,
        readUnicodeEscape_eq (h.skip 2), hrest, hread, haccepts, hstep]
  | case3 name c rest hmark code? next hread hrejects hrest =>
      obtain ⟨turns, rfl, _⟩ := exists_turns hturns
      obtain ⟨after, rfl⟩ := List.head?_eq_some_iff.mp hmark
      simp [readNameFrom, h.from?, OnText.offset_skip_two hrest rfl rfl,
        readUnicodeEscape_eq (h.skip 2), hrest, hread, hrejects]
  | case4 name c rest hmark hrest =>
      obtain ⟨turns, rfl, _⟩ := exists_turns hturns
      simp [readNameFrom, h.from?, h.at?, hrest, hmark]
  | case5 name c ch rest hrest hplain haccepts ih =>
      obtain ⟨turns, rfl, hlength⟩ := exists_turns hturns
      have hless := length_advance_lt (c := c) (by simp [hrest])
      have hstep := ih h.advance (Nat.lt_of_lt_of_le hless hlength)
      simp [readNameFrom, h.from?, h.advance_eq, hrest, hplain, haccepts, hstep]
  | case6 name c ch rest hrest hplain hrejects =>
      obtain ⟨turns, rfl, _⟩ := exists_turns hturns
      simp [readNameFrom, h.from?, h.at?, hrest, hplain, hrejects]

theorem readName_eq (h : OnText source c) :
    readNameFrom source (turns source) .empty c.offset = some (Untangle.readName c) :=
  readNameFrom_eq h h.length_lt_turns

theorem readPrivateName_eq (h : OnText source c) :
    readPrivateName source c.offset = some (Untangle.readPrivateName c) := by
  unfold readPrivateName Untangle.readPrivateName
  simp only [Option.bind_eq_bind, h.advance_eq, h.advance.current, h.advance.at?,
    readName_eq h.advance, Option.bind_some, Option.pure_def, ← apply_ite some]

theorem spans_of_startsWith {w chars : List Char} {offset : Nat} (h : startsWith w chars) :
    Spans ⟨chars, offset⟩ w (Cursor.skip w.length ⟨chars, offset⟩) := by
  induction w generalizing chars offset with
  | nil => exact .refl _
  | cons ch w ih =>
      cases chars with
      | nil => cases h
      | cons first rest =>
          obtain ⟨hfirst, hrest⟩ : ch = first ∧ startsWith w rest := by
            simpa [startsWith] using h
          subst hfirst
          exact (spans_advance rfl).trans (ih hrest)

theorem readPunctuator_eq (h : OnText source c) :
    readPunctuator source c.offset = some (Untangle.readPunctuator c) := by
  unfold readPunctuator Untangle.readPunctuator
  rw [h.from?, Option.bind_eq_bind, Option.bind_some]
  cases hfind : Punctuator.longestFirst.find? (·.fits c.rest) with
  | none => simp [h.at?, head?]
  | some p =>
      have hfits : startsWith p.text.toList c.rest := by
        have hp := List.find?_some hfind
        exact (Bool.and_eq_true_iff.mp hp).1
      have hspans : Spans c p.text.toList (c.skip p.text.length) := spans_of_startsWith hfits
      have hoffset : c.offset + p.text.utf8ByteSize = (c.skip p.text.length).offset := by
        rw [← byteLength_toList]
        exact hspans.offset.symm
      simp [hoffset, (h.skip _).at?]

/-!
## Tokens
-/

theorem skip_eq {mode : Gap.Mode} {lineBreak : Bool} {turns : Nat} (h : OnText source c)
    (hturns : c.rest.length < turns) :
    skip source turns mode lineBreak c.offset =
      some (Gap.skip mode lineBreak c.rest c.offset) := by
  rcases c with ⟨chars, offset⟩
  dsimp only at hturns ⊢
  fun_induction Gap.skip mode lineBreak chars offset generalizing turns with
  | case1 lineBreak rest offset ih =>
      obtain ⟨turns, rfl, hlength⟩ := exists_turns hturns
      have hstep := ih (h.skip 2) (Nat.lt_of_succ_le (Nat.le_of_succ_le hlength))
      simp [skip, h.from?, hstep]
  | case2 lineBreak rest offset ih =>
      obtain ⟨turns, rfl, hlength⟩ := exists_turns hturns
      have hstep := ih (h.skip 2) (Nat.lt_of_succ_le (Nat.le_of_succ_le hlength))
      simp [skip, h.from?, h.at?, hstep]
  | case3 lineBreak rest ih =>
      obtain ⟨turns, rfl, hlength⟩ := exists_turns hturns
      have hstep := ih (h.skip 2) (Nat.lt_of_succ_le (Nat.le_of_succ_le hlength))
      simp [skip, h.from?, hstep]
  | case4 lineBreak ch rest offset hline hblock hshebang hbreak ih =>
      obtain ⟨turns, rfl, hlength⟩ := exists_turns hturns
      have hstep := ih h.advance (Nat.lt_of_succ_le hlength)
      simp [skip, h.from?, h.advance_eq, Cursor.advance, hbreak, hstep]
  | case5 lineBreak ch rest offset hline hblock hshebang hplain hblank ih =>
      obtain ⟨turns, rfl, hlength⟩ := exists_turns hturns
      have hstep := ih h.advance (Nat.lt_of_succ_le hlength)
      simp [skip, h.from?, h.advance_eq, Cursor.advance, hplain, hblank, hstep]
  | case6 lineBreak ch rest offset hline hblock hshebang hplain hvisible =>
      obtain ⟨turns, rfl, _⟩ := exists_turns hturns
      simp [skip, h.from?, h.at?, hplain, hvisible]
  | case7 lineBreak ch rest offset hbreak ih =>
      obtain ⟨turns, rfl, hlength⟩ := exists_turns hturns
      have hstep := ih h.advance (Nat.lt_of_succ_le hlength)
      simp [skip, h.current, h.advance_eq, head?, Cursor.advance, hbreak, hstep]
  | case8 lineBreak ch rest offset hplain ih =>
      obtain ⟨turns, rfl, hlength⟩ := exists_turns hturns
      have hstep := ih h.advance (Nat.lt_of_succ_le hlength)
      simp [skip, h.current, h.advance_eq, head?, Cursor.advance, hplain, hstep]
  | case9 start lineBreak rest offset ih =>
      obtain ⟨turns, rfl, hlength⟩ := exists_turns hturns
      have hstep := ih (h.skip 2) (Nat.lt_of_succ_le (Nat.le_of_succ_le hlength))
      simp [skip, h.from?, hstep]
  | case10 start lineBreak ch rest offset hopen ih =>
      obtain ⟨turns, rfl, hlength⟩ := exists_turns hturns
      have hstep := ih h.advance (Nat.lt_of_succ_le hlength)
      simp [skip, h.from?, h.advance_eq, Cursor.advance, hstep]
  | case11 | case12 | case13 =>
      obtain ⟨turns, rfl, _⟩ := exists_turns hturns
      simp [skip, h.from?, h.current, h.at?, head?]

theorem readToken_eq (h : OnText source c) (depths : List Nat) :
    readToken source depths c.offset = some (Untangle.readToken depths c) := by
  unfold readToken Untangle.readToken
  rw [h.from?, Option.bind_eq_bind, Option.bind_some]
  cases hrest : c.rest with
  | nil => simp [h.at?]
  | cons ch rest =>
      simp only [readString_eq h, readTemplate_eq h, readNumber_eq h, readPrivateName_eq h,
        readName_eq h, readPunctuator_eq h, ← apply_ite some]
      rfl

theorem scan_eq {s : Scanner} (h : OnText source s.token.next) : scan source s = some s.scan := by
  unfold scan Scanner.scan
  rw [skip_eq h h.length_lt_turns]
  cases hskip : Gap.skip .between false s.token.next.rest s.token.next.offset with
  | openComment start stop lineBreak => rfl
  | token start lineBreak =>
      rcases Gap.skipped_of_skip hskip with ⟨gap, hgap⟩
      have hstart : OnText source start := h.reaches ⟨gap, hgap.spans⟩
      simp [readToken_eq hstart]

theorem rescanSlash_eq {s : Scanner} (h : OnText source s.token.start)
    (hslash : s.token.kind = .mark .divide ∨ s.token.kind = .mark .divideAssign →
      ∃ rest, s.token.start.rest = '/' :: rest) :
    rescanSlash source s = some s.rescanSlash := by
  unfold rescanSlash Scanner.rescanSlash
  split
  · rename_i hkind
    rcases hslash hkind with ⟨rest, hrest⟩
    rw [readRegularExpression_eq h hrest]
    cases hread : Untangle.readRegularExpression s.token.start with
    | error stop => rfl
    | ok next =>
        have hnext := s.token.start.reaches_advance.trans
          (advance_reaches_readRegularExpression hread)
        simp [h.slice? hnext]
  · rfl

theorem text_eq {s : Scanner} (h : OnText source s.token.start)
    (hreach : s.token.start.Reaches s.token.next) : text source s = some s.token.text :=
  h.slice? hreach

end Slicing
end Untangle
