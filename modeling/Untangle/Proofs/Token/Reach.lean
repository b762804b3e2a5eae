import Untangle.Proofs.Token.Numeral

/-!
# How far tokens reach

Every reader of a token stops on the text it was given. A token that is known and is not the end
of the text takes at least one character.
-/

namespace Untangle

open Cursor

variable {c d : Cursor}

/-!
## Readings
-/

/-- A token in front of the end of the text; only a malformed one may be empty. -/
structure Reading.Advances (c : Cursor) (r : Reading) : Prop where
  reaches : c.Reaches r.next
  progress : r.lexeme.kind ≠ .unknown → r.next.rest.length < c.rest.length
  notEnd : r.lexeme.kind ≠ .endOfFile

namespace Reading.Advances

variable {r : Reading}

/-- A reader that begins by passing one character. -/
theorem behind (hne : c.rest ≠ []) (h : c.advance.Reaches r.next)
    (hkind : r.lexeme.kind ≠ .endOfFile) : Advances c r :=
  ⟨c.reaches_advance.trans h, fun _ => h.length_lt hne, hkind⟩

theorem of_unknown (h : c.Reaches r.next) (hkind : r.lexeme.kind = .unknown) : Advances c r :=
  ⟨h, fun hne => absurd hkind hne, by simp [hkind]⟩

end Reading.Advances

/-!
## Names
-/

theorem reaches_readNameFrom (n : PartialName) (c : Cursor) :
    c.Reaches (readNameFrom n c).next := by
  fun_induction readNameFrom n c with
  | case1 => exact .refl _
  | case2 n c rest hmark code? next hread decoded haccepts hrest ih =>
      exact ((reaches_skip 2 c).trans (reaches_readUnicodeEscape _)).trans ih
  | case3 n c rest hmark code? next hread hrejects hrest =>
      have hnext : (readUnicodeEscape (c.skip 2)).2 = next := congrArg Prod.snd hread
      exact hnext ▸ (reaches_skip 2 c).trans (reaches_readUnicodeEscape _)
  | case4 => exact .refl _
  | case5 n c ch rest hrest hplain haccepts ih => exact c.reaches_advance.trans ih
  | case6 => exact .refl _

/-- A name is an identifier or a keyword, unless it is malformed. -/
theorem kind_readNameFrom (kind : TokenKind) (hunknown : kind ≠ .unknown)
    (hidentifier : kind ≠ .identifier) (hword : ∀ k, kind ≠ .word k) (n : PartialName)
    (c : Cursor) : (readNameFrom n c).lexeme.kind ≠ kind := by
  have hfinish : ∀ (n : PartialName) (c : Cursor), (n.finish c).lexeme.kind ≠ kind := by
    intro n c
    unfold PartialName.finish
    dsimp only [Reading.ok]
    cases (if n.escaped then none else Keyword.ofText? n.text) with
    | none => exact hidentifier.symm
    | some k => exact (hword k).symm
  fun_induction readNameFrom n c with
  | case1 n c => exact hfinish n c
  | case2 n c rest hmark code? next hread decoded haccepts hrest ih => exact ih
  | case3 | case4 => exact hunknown.symm
  | case5 n c ch rest hrest hplain haccepts ih => exact ih
  | case6 n c => exact hfinish n c

/-- A name has at least the character that it starts with. -/
theorem advances_readName {ch : Char} {rest : List Char} (hrest : c.rest = ch :: rest)
    (hch : ch = '\\' ∨ Text.isIdentifierStart ch) : (readName c).Advances c := by
  have hne : c.rest ≠ [] := by simp [hrest]
  unfold readName
  fun_cases readNameFrom .empty c with
  | case1 hend => exact absurd hend hne
  | case2 after hmark code? next hread decoded haccepts hfirst =>
      refine .behind hne ?_ (kind_readNameFrom .endOfFile nofun nofun nofun _ _)
      refine ((c.advance.reaches_skip 1).trans ?_).trans (reaches_readNameFrom _ _)
      exact reaches_readUnicodeEscape _
  | case3 after hmark code? next hread hrejects hfirst =>
      have hnext : (readUnicodeEscape (c.skip 2)).2 = next := congrArg Prod.snd hread
      exact .of_unknown (hnext ▸ (reaches_skip 2 c).trans (reaches_readUnicodeEscape _)) rfl
  | case4 => exact .of_unknown (.refl c) rfl
  | case5 =>
      refine .behind hne (reaches_readNameFrom _ _) ?_
      exact kind_readNameFrom .endOfFile nofun nofun nofun _ _
  | case6 first after hfirst hplain hrejects =>
      obtain ⟨rfl, rfl⟩ := List.cons.inj (hrest.symm.trans hfirst)
      exact absurd (hch.resolve_left hplain) hrejects

theorem advances_readPrivateName (hne : c.rest ≠ []) : (readPrivateName c).Advances c := by
  unfold readPrivateName
  dsimp only
  split
  · have hreach := reaches_readNameFrom .empty c.advance
    split
    · exact .behind hne hreach (kind_readNameFrom .endOfFile nofun nofun nofun _ _)
    · exact .behind hne hreach nofun
  · exact .behind hne (.refl _) nofun

/-!
## Strings and templates
-/

theorem reaches_readStringFrom (quote : Char) (opening : Nat) (reversed : List Char)
    (surrogate : Bool) (c : Cursor) :
    c.Reaches (readStringFrom quote opening reversed surrogate c).next := by
  fun_induction readStringFrom quote opening reversed surrogate c with
  | case1 => exact .refl _
  | case2 reversed surrogate c => exact c.reaches_advance
  | case3 => exact .refl _
  | case4 reversed surrogate c => exact c.reaches_advance.trans (reaches_readEscape _ _)
  | case5 reversed surrogate c rest hread hrest hquote hbreak ih =>
      exact (c.reaches_advance.trans (reaches_readEscape _ _)).trans ih
  | case6 reversed surrogate c ch rest hrest hquote hbreak hplain ih =>
      exact c.reaches_advance.trans ih

theorem kind_readStringFrom (kind : TokenKind) (hunknown : kind ≠ .unknown)
    (hstring : kind ≠ .string) (quote : Char) (opening : Nat) (reversed : List Char)
    (surrogate : Bool) (c : Cursor) :
    (readStringFrom quote opening reversed surrogate c).lexeme.kind ≠ kind := by
  fun_induction readStringFrom quote opening reversed surrogate c with
  | case1 | case3 | case4 => exact hunknown.symm
  | case2 => exact hstring.symm
  | case5 reversed surrogate c rest hread hrest hquote hbreak ih => exact ih
  | case6 reversed surrogate c ch rest hrest hquote hbreak hplain ih => exact ih

theorem advances_readString (quote : Char) (hne : c.rest ≠ []) :
    (readString quote c).Advances c :=
  .behind hne (reaches_readStringFrom _ _ _ _ _)
    (kind_readStringFrom .endOfFile nofun nofun _ _ _ _ _)

theorem reaches_readTemplateFrom (kinds : PieceKinds) (opening : Nat) (content : Cursor)
    (piece : TemplatePiece) (c : Cursor) :
    c.Reaches (readTemplateFrom kinds opening content piece c).next := by
  fun_induction readTemplateFrom kinds opening content piece c with
  | case1 => exact .refl _
  | case2 piece c => exact c.reaches_advance
  | case3 piece c => exact c.reaches_skip 2
  | case4 piece c rest hrest hfinished hunfinished ih =>
      exact (c.reaches_advance.trans (reaches_readEscape _ _)).trans ih
  | case5 piece c ch rest hrest hfinished hunfinished hplain hpair ih =>
      exact (c.reaches_skip 2).trans ih
  | case6 piece c rest hrest hfinished hunfinished hplain hpair ih =>
      exact c.reaches_advance.trans ih
  | case7 piece c ch rest hrest hfinished hunfinished hplain hpair hreturn ih =>
      exact c.reaches_advance.trans ih

theorem kind_readTemplateFrom {kinds : PieceKinds} (kind : TokenKind) (hunknown : kind ≠ .unknown)
    (hfinished : kinds.finished ≠ kind) (hunfinished : kinds.unfinished ≠ kind) (opening : Nat)
    (content : Cursor) (piece : TemplatePiece) (c : Cursor) :
    (readTemplateFrom kinds opening content piece c).lexeme.kind ≠ kind := by
  fun_induction readTemplateFrom kinds opening content piece c with
  | case1 => exact hunknown.symm
  | case2 => exact hfinished
  | case3 => exact hunfinished
  | case4 piece c rest hrest hfinished hunfinished ih => exact ih
  | case5 piece c ch rest hrest hfinished hunfinished hplain hpair ih => exact ih
  | case6 piece c rest hrest hfinished hunfinished hplain hpair ih => exact ih
  | case7 piece c ch rest hrest hfinished hunfinished hplain hpair hreturn ih => exact ih

theorem advances_readTemplate {kinds : PieceKinds} (hne : c.rest ≠ [])
    (hfinished : kinds.finished ≠ .endOfFile) (hunfinished : kinds.unfinished ≠ .endOfFile) :
    (readTemplate kinds c).Advances c :=
  .behind hne (reaches_readTemplateFrom _ _ _ _ _)
    (kind_readTemplateFrom .endOfFile nofun hfinished hunfinished _ _ _ _)

/-!
## Numbers and punctuators
-/

theorem advance_reaches_dropWhile {p : Char → Bool} (h : c.head?.any p) :
    c.advance.Reaches (c.dropWhile p) := by
  unfold head? at h
  unfold dropWhile
  cases hrest : c.rest with
  | nil => simp [hrest] at h
  | cons ch rest =>
      have hch : p ch := by simpa [hrest] using h
      have hadvance : c.advance = ⟨rest, c.offset + ch.utf8Size⟩ := by simp [advance, hrest]
      rw [hadvance, dropWhileFrom, if_pos hch]
      exact reaches_dropWhileFrom p rest _

theorem advance_reaches_decimalRun (h : c.head?.any Char.isDigit) :
    c.advance.Reaches (decimalRun c).2 := by
  unfold head? at h
  unfold decimalRun
  cases hrest : c.rest with
  | nil => simp [hrest] at h
  | cons ch rest =>
      have hch : ch.isDigit := by simpa [hrest] using h
      have hadvance : c.advance = ⟨rest, c.offset + 1⟩ := by
        simp [advance, hrest, utf8Size_of_isDigit hch]
      rw [hadvance, decimalRunFrom, if_pos hch]
      rcases spans_decimalRunFrom [ch] rest (c.offset + 1) with ⟨w, hw, _⟩
      exact ⟨w, hw⟩

/-- A numeral takes its first digit, or the dot before it. -/
theorem advance_reaches_readNumeral (h : StartsNumeral c.rest) :
    c.advance.Reaches (readNumeral c).next := by
  unfold readNumeral
  split
  · unfold readRadixNumeral
    dsimp only
    split <;> exact (c.advance.reaches_skip 1).trans (reaches_radixRun _ _)
  · split
    · rename_i hzero
      refine advance_reaches_dropWhile ?_
      rw [hzero.1]
      rfl
    · rcases h with hdigit | ⟨hdot, _⟩
      · exact (advance_reaches_decimalRun hdigit).trans (decimalRun_reaches c)
      · have hrun : (decimalRun c).2 = c := by
          obtain ⟨rest, hrest⟩ := List.head?_eq_some_iff.mp hdot
          cases c
          cases hrest
          rfl
        have hpoint := reaches_of_point (c := c) (by rw [hrun]; exact hdot)
        rwa [hrun] at hpoint

theorem kind_readNumber (kind : TokenKind) (hunknown : kind ≠ .unknown)
    (hnumeric : kind ≠ .numeric) (hbig : kind ≠ .bigInt) (c : Cursor) :
    (readNumber c).lexeme.kind ≠ kind := by
  unfold readNumber
  split
  · exact hunknown.symm
  · dsimp only
    split <;> split
    · exact hunknown.symm
    · exact hbig.symm
    · exact hunknown.symm
    · exact hnumeric.symm

theorem advances_readNumber (h : StartsNumeral c.rest) : (readNumber c).Advances c := by
  rcases h.first with ⟨ch, rest, hrest, _⟩
  refine .behind (by simp [hrest]) ?_ (kind_readNumber .endOfFile nofun nofun nofun c)
  exact (advance_reaches_readNumeral h).trans (reaches_readNumber c)

theorem Punctuator.text_length_pos (p : Punctuator) : 0 < p.text.length := by
  cases p <;> decide

theorem advances_readPunctuator (hne : c.rest ≠ []) : (readPunctuator c).Advances c := by
  unfold readPunctuator
  split
  · rename_i p _
    obtain ⟨n, hn⟩ := Nat.exists_eq_add_one_of_ne_zero (Nat.ne_of_gt p.text_length_pos)
    rw [hn]
    exact .behind hne (c.advance.reaches_skip n) nofun
  · exact .of_unknown (.refl c) rfl

/-!
## Tokens
-/

theorem advances_readToken (depths : List Nat) (hne : c.rest ≠ []) :
    (readToken depths c).Advances c := by
  unfold readToken
  split
  · contradiction
  · rename_i ch rest hrest
    split
    · exact advances_readString ch hne
    split
    · exact advances_readTemplate hne (by rintro ⟨⟩) (by rintro ⟨⟩)
    split
    · rename_i hnumber
      refine advances_readNumber ?_
      rw [hrest]
      simpa [StartsNumeral] using hnumber
    split
    · exact advances_readTemplate hne (by rintro ⟨⟩) (by rintro ⟨⟩)
    split
    · exact advances_readPrivateName hne
    split
    · exact advances_readName hrest ‹_›
    · exact advances_readPunctuator hne

theorem reaches_readToken (depths : List Nat) (c : Cursor) :
    c.Reaches (readToken depths c).next := by
  cases hrest : c.rest with
  | nil =>
      unfold readToken
      rw [hrest]
      exact .refl c
  | cons ch rest => exact (advances_readToken depths (by simp [hrest])).reaches

theorem readToken_end (depths : List Nat) (h : c.rest = []) :
    readToken depths c = .ok { kind := .endOfFile } c := by
  unfold readToken
  rw [h]

/-!
## Regular expressions
-/

theorem reaches_regularExpressionBody (inClass : Bool) (chars : List Char) (offset : Nat)
    (h : regularExpressionBody inClass chars offset = .ok d) : Reaches ⟨chars, offset⟩ d := by
  fun_induction regularExpressionBody inClass chars offset with
  | case1 | case2 | case3 | case4 => cases h
  | case5 inClass offset escaped rest hbreak behind hplain ih =>
      exact ((reaches_advance _).trans (reaches_advance _)).trans (ih h)
  | case6 inClass rest offset behind hplain hescape ih => exact (reaches_advance _).trans (ih h)
  | case7 inClass rest offset behind hplain hescape hopen ih =>
      exact (reaches_advance _).trans (ih h)
  | case8 inClass ch rest offset =>
      cases h
      exact reaches_advance ⟨ch :: rest, offset⟩
  | case9 inClass ch rest offset behind hplain hescape hopen hclose hslash ih =>
      exact (reaches_advance _).trans (ih h)

theorem advance_reaches_readRegularExpression (h : readRegularExpression c = .ok d) :
    c.advance.Reaches d := by
  unfold readRegularExpression at h
  dsimp only at h
  cases hbody : regularExpressionBody false c.advance.rest c.advance.offset with
  | error stop =>
      rw [hbody] at h
      cases h
  | ok behind =>
      rw [hbody] at h
      cases h
      exact (reaches_regularExpressionBody _ _ _ hbody).trans (behind.reaches_dropWhile _)

/-- Without a closing slash the body stops on the text all the same. -/
theorem reaches_stop_regularExpressionBody (inClass : Bool) (chars : List Char) (offset : Nat)
    (h : regularExpressionBody inClass chars offset = .error d) : Reaches ⟨chars, offset⟩ d := by
  fun_induction regularExpressionBody inClass chars offset with
  | case1 | case2 =>
      cases h
      exact .refl _
  | case3 | case4 =>
      cases h
      exact reaches_advance _
  | case5 inClass offset escaped rest hbreak behind hplain ih =>
      exact ((reaches_advance _).trans (reaches_advance _)).trans (ih h)
  | case6 inClass rest offset behind hplain hescape ih => exact (reaches_advance _).trans (ih h)
  | case7 inClass rest offset behind hplain hescape hopen ih =>
      exact (reaches_advance _).trans (ih h)
  | case8 => cases h
  | case9 inClass ch rest offset behind hplain hescape hopen hclose hslash ih =>
      exact (reaches_advance _).trans (ih h)

theorem reaches_stop_readRegularExpression (h : readRegularExpression c = .error d) :
    c.Reaches d := by
  unfold readRegularExpression at h
  dsimp only at h
  cases hbody : regularExpressionBody false c.advance.rest c.advance.offset with
  | ok behind =>
      rw [hbody] at h
      cases h
  | error stop =>
      rw [hbody] at h
      cases h
      exact c.reaches_advance.trans (reaches_stop_regularExpressionBody _ _ _ hbody)

end Untangle
