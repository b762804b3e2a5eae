import Untangle.Proofs.Token.Span
import Untangle.Token.Scanner

/-!
# What stands between tokens

Between two tokens lie blanks, line ends and whole comments. A comment of one line reaches up to
the end of its line, one in a block up to the first mark that closes it, and only the very
beginning of a text may be a line that starts with `#!`.
-/

namespace Untangle
namespace Gap

open Cursor

/-!
## Blank text
-/

/-- The mark that starts a comment of one line at a byte of the text. -/
def OpensLine (offset : Nat) (mark : List Char) : Prop :=
  mark = ['/', '/'] ∨ mark = ['#', '!'] ∧ offset = 0

/-- A line ends here, by a line break or with the whole text. -/
def EndsLine (chars : List Char) : Prop :=
  ∀ ch ∈ chars.head?, Text.isLineBreak ch

/-- The characters at a byte of a text hold nothing but blanks, line ends and whole comments; the
text goes on with the last argument. -/
inductive Blank : (offset : Nat) → (gap behind : List Char) → Prop
  | nil {offset : Nat} {behind : List Char} : Blank offset [] behind
  | char {offset : Nat} {ch : Char} {gap behind : List Char}
      (hch : Text.isLineBreak ch ∨ Text.isBlank ch)
      (h : Blank (offset + ch.utf8Size) gap behind) : Blank offset (ch :: gap) behind
  | lineComment {offset : Nat} {mark content gap behind : List Char}
      (hmark : OpensLine offset mark) (hcontent : ∀ ch ∈ content, Text.isLineBreak ch = false)
      (hend : EndsLine (gap ++ behind))
      (h : Blank (offset + byteLength (mark ++ content)) gap behind) :
      Blank offset (mark ++ content ++ gap) behind
  | blockComment {offset : Nat} {content gap behind : List Char}
      (hcontent : ¬ ['*', '/'] <:+: content)
      (h : Blank (offset + byteLength (['/', '*'] ++ content ++ ['*', '/'])) gap behind) :
      Blank offset (['/', '*'] ++ content ++ ['*', '/'] ++ gap) behind

/-!
## Skipping
-/

/-- The rest of a line that is a comment, and blank text behind it. -/
def LineRest (offset : Nat) (gap behind : List Char) : Prop :=
  ∃ content rest, gap = content ++ rest ∧ (∀ ch ∈ content, Text.isLineBreak ch = false) ∧
    EndsLine (rest ++ behind) ∧ Blank (offset + byteLength content) rest behind

/-- The rest of a comment in a block, and blank text behind it. -/
def BlockRest (offset : Nat) (gap behind : List Char) : Prop :=
  ∃ content rest, gap = content ++ '*' :: '/' :: rest ∧ ¬ ['*', '/'] <:+: content ∧
    Blank (offset + byteLength (content ++ ['*', '/'])) rest behind

/-- What is skipped before the next token, by what surrounds the place where skipping starts. -/
def Mode.Skips (mode : Mode) (offset : Nat) (gap behind : List Char) : Prop :=
  match mode with
  | .between => Blank offset gap behind
  | .lineComment => LineRest offset gap behind
  | .blockComment _ => BlockRest offset gap behind

/-- Skipping goes on behind some characters that were skipped. -/
structure Skipped (mode : Mode) (lineBreak : Bool) (chars : List Char) (offset : Nat)
    (start : Cursor) (lineBreak' : Bool) (gap : List Char) : Prop where
  spans : Spans ⟨chars, offset⟩ gap start
  skips : mode.Skips offset gap start.rest
  lineBreak : lineBreak' = (lineBreak || gap.any Text.isLineBreak)

variable {offset : Nat} {ch : Char} {gap behind mark rest chars : List Char}
  {lineBreak lineBreak' : Bool} {start opening : Cursor} {mode : Mode}

theorem LineRest.opens (hmark : OpensLine offset mark)
    (h : LineRest (offset + byteLength mark) gap behind) : Blank offset (mark ++ gap) behind := by
  rcases h with ⟨content, rest, rfl, hcontent, hend, hrest⟩
  rw [← List.append_assoc]
  refine .lineComment hmark hcontent hend ?_
  rwa [byteLength_append, ← Nat.add_assoc]

theorem LineRest.cons (hch : Text.isLineBreak ch = false)
    (h : LineRest (offset + ch.utf8Size) gap behind) : LineRest offset (ch :: gap) behind := by
  rcases h with ⟨content, rest, rfl, hcontent, hend, hrest⟩
  refine ⟨ch :: content, rest, rfl, List.forall_mem_cons.mpr ⟨hch, hcontent⟩, hend, ?_⟩
  rwa [byteLength, ← Nat.add_assoc]

theorem LineRest.of_blank (hend : EndsLine (gap ++ behind)) (h : Blank offset gap behind) :
    LineRest offset gap behind :=
  ⟨[], gap, rfl, by simp, hend, h⟩

theorem BlockRest.opens (h : BlockRest (offset + 2) gap behind) :
    Blank offset ('/' :: '*' :: gap) behind := by
  rcases h with ⟨content, rest, rfl, hcontent, hrest⟩
  have heq : '/' :: '*' :: (content ++ '*' :: '/' :: rest) =
      ['/', '*'] ++ content ++ ['*', '/'] ++ rest := by simp
  have hlength : byteLength (['/', '*'] ++ content ++ ['*', '/']) =
      2 + byteLength (content ++ ['*', '/']) := by
    rw [List.append_assoc, byteLength_append]
    rfl
  rw [heq]
  refine .blockComment hcontent ?_
  rwa [hlength, ← Nat.add_assoc]

/-- A star in front of a slash closes the comment, so neither may be part of it. -/
theorem BlockRest.cons (hclose : ∀ rest', ch = '*' → rest = '/' :: rest' → False)
    (hrest : rest = gap ++ behind) (h : BlockRest (offset + ch.utf8Size) gap behind) :
    BlockRest offset (ch :: gap) behind := by
  rcases h with ⟨content, after, rfl, hcontent, hafter⟩
  refine ⟨ch :: content, after, rfl, ?_, ?_⟩
  · rw [List.infix_cons_iff]
    rintro (⟨tail, hprefix⟩ | hinfix)
    · obtain ⟨rfl, hcontent'⟩ := List.cons.inj hprefix
      refine hclose (tail ++ '*' :: '/' :: after ++ behind) rfl ?_
      rw [hrest, ← hcontent']
      simp
    · exact hcontent hinfix
  · rwa [List.cons_append, byteLength, ← Nat.add_assoc]

theorem BlockRest.of_blank (h : Blank (offset + 2) gap behind) :
    BlockRest offset ('*' :: '/' :: gap) behind := by
  refine ⟨[], gap, rfl, ?_, h⟩
  rw [List.infix_nil]
  exact List.cons_ne_nil _ _

/-- One more character was skipped first. -/
theorem Skipped.cons {mode' : Mode} {wasLineBreak : Bool}
    (h : Skipped mode' lineBreak rest (offset + ch.utf8Size) start lineBreak' gap)
    (hskips : mode'.Skips (offset + ch.utf8Size) gap start.rest →
      mode.Skips offset (ch :: gap) start.rest)
    (hbreak : lineBreak = (wasLineBreak || Text.isLineBreak ch)) :
    Skipped mode wasLineBreak (ch :: rest) offset start lineBreak' (ch :: gap) := by
  refine ⟨(spans_advance rfl).trans h.spans, hskips h.skips, ?_⟩
  rw [h.lineBreak, hbreak, List.any_cons, Bool.or_assoc]

/-- A mark of two characters was skipped first. -/
theorem Skipped.marked {mode' : Mode} {first second : Char}
    (h : Skipped mode' lineBreak rest (offset + 2) start lineBreak' gap)
    (hskips : mode'.Skips (offset + 2) gap start.rest →
      mode.Skips offset (first :: second :: gap) start.rest)
    (hsize : byteLength [first, second] = 2)
    (hbreak : [first, second].any Text.isLineBreak = false) :
    Skipped mode lineBreak (first :: second :: rest) offset start lineBreak'
      (first :: second :: gap) := by
  have hmark : Spans ⟨first :: second :: rest, offset⟩ [first, second] ⟨rest, offset + 2⟩ :=
    ⟨rfl, by rw [hsize]⟩
  refine ⟨hmark.trans h.spans, hskips h.skips, ?_⟩
  have hany : ([first, second] ++ gap).any Text.isLineBreak = gap.any Text.isLineBreak := by
    rw [List.any_append, hbreak, Bool.false_or]
  exact h.lineBreak.trans (congrArg (lineBreak || ·) hany.symm)

/-- Everything that is skipped before a token is blank, and the flag tells whether a line ends in
it. -/
theorem skipped_of_skip (h : skip mode lineBreak chars offset = .token start lineBreak') :
    ∃ gap, Skipped mode lineBreak chars offset start lineBreak' gap := by
  fun_induction skip mode lineBreak chars offset with
  | case1 lineBreak rest offset ih =>
      rcases ih h with ⟨gap, hgap⟩
      exact ⟨_, hgap.marked (LineRest.opens (.inl rfl)) rfl rfl⟩
  | case2 lineBreak rest offset ih =>
      rcases ih h with ⟨gap, hgap⟩
      exact ⟨_, hgap.marked BlockRest.opens rfl rfl⟩
  | case3 lineBreak rest ih =>
      rcases ih h with ⟨gap, hgap⟩
      exact ⟨_, hgap.marked (LineRest.opens (.inr ⟨rfl, rfl⟩)) rfl rfl⟩
  | case4 lineBreak ch rest offset _ _ _ hch ih =>
      rcases ih h with ⟨gap, hgap⟩
      exact ⟨_, hgap.cons (.char (.inl hch)) (by simp [hch])⟩
  | case5 lineBreak ch rest offset _ _ _ hch hblank ih =>
      rcases ih h with ⟨gap, hgap⟩
      exact ⟨_, hgap.cons (.char (.inr hblank)) (by simp [hch])⟩
  | case6 =>
      cases h
      exact ⟨[], .refl _, .nil, by simp⟩
  | case7 lineBreak ch rest offset hch ih =>
      rcases ih h with ⟨gap, hgap⟩
      refine ⟨_, hgap.cons (fun hskips => ?_) (by simp [hch])⟩
      exact LineRest.of_blank (by simpa [EndsLine] using hch) (.char (.inl hch) hskips)
  | case8 lineBreak ch rest offset hch ih =>
      rcases ih h with ⟨gap, hgap⟩
      exact ⟨_, hgap.cons (LineRest.cons (by simpa using hch)) (by simp [hch])⟩
  | case9 opening lineBreak rest offset ih =>
      rcases ih h with ⟨gap, hgap⟩
      exact ⟨_, hgap.marked BlockRest.of_blank rfl rfl⟩
  | case10 opening lineBreak ch rest offset hclose ih =>
      rcases ih h with ⟨gap, hgap⟩
      exact ⟨_, hgap.cons (BlockRest.cons hclose hgap.spans.rest) rfl⟩
  | case11 =>
      cases h
      exact ⟨[], .refl _, .nil, by simp⟩
  | case12 =>
      cases h
      exact ⟨[], .refl _, LineRest.of_blank (by simp [EndsLine]) .nil, by simp⟩
  | case13 => cases h

/-- A comment that is never closed starts where it was opened and reaches the end. -/
theorem reaches_of_openComment {c stop : Cursor} (hreach : c.Reaches ⟨chars, offset⟩)
    (hopened : ∀ opening, mode = .blockComment opening →
      c.Reaches opening ∧ opening.Reaches ⟨chars, offset⟩)
    (h : skip mode lineBreak chars offset = .openComment start stop lineBreak') :
    c.Reaches start ∧ start.Reaches stop := by
  fun_induction skip mode lineBreak chars offset with
  | case1 lineBreak rest offset ih => exact ih (hreach.trans (reaches_skip 2 _)) nofun h
  | case2 lineBreak rest offset ih =>
      have hcontent := reaches_skip 2 ⟨'/' :: '*' :: rest, offset⟩
      refine ih (hreach.trans hcontent) ?_ h
      rintro _ ⟨⟩
      exact ⟨hreach, hcontent⟩
  | case3 lineBreak rest ih => exact ih (hreach.trans (reaches_skip 2 _)) nofun h
  | case4 lineBreak ch rest offset _ _ _ hch ih =>
      exact ih (hreach.trans (reaches_advance _)) nofun h
  | case5 lineBreak ch rest offset _ _ _ hch hblank ih =>
      exact ih (hreach.trans (reaches_advance _)) nofun h
  | case6 => cases h
  | case7 lineBreak ch rest offset hch ih => exact ih (hreach.trans (reaches_advance _)) nofun h
  | case8 lineBreak ch rest offset hch ih => exact ih (hreach.trans (reaches_advance _)) nofun h
  | case9 opening lineBreak rest offset ih => exact ih (hreach.trans (reaches_skip 2 _)) nofun h
  | case10 opening lineBreak ch rest offset hclose ih =>
      refine ih (hreach.trans (reaches_advance _)) ?_ h
      rintro _ ⟨⟩
      exact ⟨(hopened opening rfl).1, (hopened opening rfl).2.trans (reaches_advance _)⟩
  | case11 | case12 => cases h
  | case13 opening =>
      cases h
      exact hopened _ rfl

end Gap
end Untangle
