import Untangle.Grammar.Lookahead
import Untangle.Proofs.Token.Safety
import Untangle.Proofs.Token.Words

/-!
# Names without escapes

The text of an identifier or a keyword without escapes is its value. It is a name that may follow
a dot, and the character behind it, if there is one, does not go on with it. In the other direction
every such name is scanned as one token.
-/

namespace Untangle

open Text Cursor

variable {c : Cursor} {n : PartialName} {k : Keyword}

namespace PartialName

/-- The characters are accepted one after another. -/
def Reads (n : PartialName) : List Char → Prop
  | [] => True
  | ch :: w => n.accepts ch = true ∧ (n.push ch).Reads w

/-- The name with more characters. -/
def extend (n : PartialName) (w : List Char) : PartialName :=
  { n with reversed := w.reverse ++ n.reversed }

theorem extend_push (n : PartialName) (ch : Char) (w : List Char) :
    (n.push ch).extend w = n.extend (ch :: w) := by
  simp [extend, push]

theorem reads_iff {w : List Char} (hn : n.reversed ≠ []) :
    n.Reads w ↔ w.all isIdentifierPart = true := by
  induction w generalizing n with
  | nil => simp [Reads]
  | cons ch w ih =>
      have haccepts : n.accepts ch = isIdentifierPart ch := by simp [accepts, hn]
      rw [Reads, ih (List.cons_ne_nil _ _), haccepts, List.all_cons, Bool.and_eq_true]

theorem reads_empty_iff {w : List Char} (hw : w ≠ []) :
    empty.Reads w ↔ isIdentifierName (String.ofList w) = true := by
  obtain ⟨ch, w, rfl⟩ := List.exists_cons_of_ne_nil hw
  rw [Reads, reads_iff (List.cons_ne_nil _ _), isIdentifierName, String.toList_ofList,
    Bool.and_eq_true]
  rfl

theorem text_extend_empty (w : List Char) : (empty.extend w).text = String.ofList w := by
  simp [extend, empty, text]

end PartialName

/-!
## Reading
-/

/-- An escape is remembered. -/
theorem escaped_readNameFrom (n : PartialName) (c : Cursor) (hn : n.escaped = true) :
    (readNameFrom n c).lexeme.escaped = true := by
  fun_induction readNameFrom n c with
  | case1 | case3 | case4 | case6 => exact hn
  | case2 n c rest hmark code? next hread decoded haccepts hrest ih => exact ih rfl
  | case5 n c ch rest hrest hplain haccepts ih => exact ih hn

theorem escaped_of_word (h : (readNameFrom n c).lexeme.kind = .word k) :
    (readNameFrom n c).lexeme.escaped = false := by
  have hfinish : ∀ (n : PartialName) (c : Cursor), (n.finish c).lexeme.kind = .word k →
      (n.finish c).lexeme.escaped = false := by
    intro n c h
    unfold PartialName.finish at h ⊢
    dsimp only [Reading.ok] at h ⊢
    cases hescaped : n.escaped with
    | false => rfl
    | true =>
        rw [hescaped] at h
        cases h
  fun_induction readNameFrom n c with
  | case1 n c => exact hfinish n c h
  | case2 n c rest hmark code? next hread decoded haccepts hrest ih => exact ih h
  | case3 | case4 => cases h
  | case5 n c ch rest hrest hplain haccepts ih => exact ih h
  | case6 n c => exact hfinish n c h

/-- Only a malformed name is reported. -/
theorem kind_of_error (h : (readNameFrom n c).error.isSome = true) :
    (readNameFrom n c).lexeme.kind = .unknown := by
  fun_induction readNameFrom n c with
  | case1 | case6 => cases h
  | case2 n c rest hmark code? next hread decoded haccepts hrest ih => exact ih h
  | case3 | case4 => rfl
  | case5 n c ch rest hrest hplain haccepts ih => exact ih h

/-- Without escapes the characters of the text are the ones that are accepted, up to one that is
not. -/
theorem readNameFrom_plain (hkind : (readNameFrom n c).lexeme.kind ≠ .unknown)
    (hplain : (readNameFrom n c).lexeme.escaped = false) :
    ∃ w next, c.Spans w next ∧ n.Reads w ∧
      (∀ ch ∈ next.rest.head?, ch ≠ '\\' ∧ (n.extend w).accepts ch = false) ∧
      readNameFrom n c = (n.extend w).finish next := by
  fun_induction readNameFrom n c with
  | case1 n c hrest => exact ⟨[], c, .refl c, trivial, by simp [hrest], rfl⟩
  | case2 n c rest hmark code? next hread decoded haccepts hrest ih =>
      rw [escaped_readNameFrom _ _ rfl] at hplain
      cases hplain
  | case3 | case4 => exact absurd rfl hkind
  | case5 n c ch rest hrest hescape haccepts ih =>
      rcases ih hkind hplain with ⟨w, next, hspans, hreads, hends, hread⟩
      rw [PartialName.extend_push] at hends hread
      exact ⟨ch :: w, next, (spans_advance hrest).trans hspans, ⟨haccepts, hreads⟩, hends, hread⟩
  | case6 n c ch rest hrest hescape hrejects =>
      refine ⟨[], c, .refl c, trivial, ?_, rfl⟩
      rw [hrest]
      rintro _ ⟨⟩
      exact ⟨hescape, Bool.eq_false_iff.mpr hrejects⟩

/-- A name that was read from its own text. -/
structure Reading.Names (c : Cursor) (name : String) (r : Reading) : Prop where
  isName : isIdentifierName name = true
  spans : c.Spans name.toList r.next
  ends : ∀ ch ∈ r.next.rest.head?, continuesName ch = false
  kind : r.lexeme.kind = ((Keyword.ofText? name).map TokenKind.word).getD .identifier
  value : r.lexeme.value = name
  escaped : r.lexeme.escaped = false

theorem names_readName {ch : Char} {rest : List Char} (hrest : c.rest = ch :: rest)
    (hch : ch = '\\' ∨ isIdentifierStart ch = true)
    (hkind : (readName c).lexeme.kind ≠ .unknown) (hplain : (readName c).lexeme.escaped = false) :
    ∃ name, (readName c).Names c name := by
  rcases readNameFrom_plain hkind hplain with ⟨w, next, hspans, hreads, hends, hread⟩
  have hw : w ≠ [] := by
    rintro rfl
    have hnext : next.rest = ch :: rest := hspans.rest.symm.trans hrest
    rcases hends ch (by rw [hnext]; rfl) with ⟨hescape, hrejects⟩
    exact Bool.false_ne_true (hrejects.symm.trans (hch.resolve_left hescape))
  refine ⟨String.ofList w, (PartialName.reads_empty_iff hw).mp hreads, ?_, ?_, ?_, ?_, ?_⟩
  · rw [readName, hread, String.toList_ofList]
    exact hspans
  · intro other hother
    rw [readName, hread] at hother
    rcases hends other hother with ⟨hescape, hrejects⟩
    have hpart : isIdentifierPart other = false := by
      simpa [PartialName.accepts, PartialName.extend, hw] using hrejects
    simp [continuesName, hpart, hescape]
  · rw [readName, hread]
    unfold PartialName.finish
    rw [PartialName.text_extend_empty]
    rfl
  · rw [readName, hread]
    exact PartialName.text_extend_empty w
  · rw [readName, hread]
    rfl

/-!
## Tokens
-/

theorem isName_kind_of_text (name : String) :
    (((Keyword.ofText? name).map TokenKind.word).getD .identifier).isName = true := by
  cases Keyword.ofText? name with
  | none => rfl
  | some k => rfl

theorem kind_ne_of_isName {kind : TokenKind} (h : kind.isName = true) :
    kind ≠ .unknown ∧ kind ≠ .endOfFile ∧ kind ≠ .numeric ∧ kind ≠ .bigInt ∧ kind ≠ .string ∧
      kind ≠ .wholeTemplate ∧ kind ≠ .templateHead ∧ kind ≠ .templateMiddle ∧
      kind ≠ .templateTail ∧ kind ≠ .privateName ∧ ∀ p, kind ≠ .mark p := by
  cases kind <;> first | (cases h; done) | exact ⟨nofun, nofun, nofun, nofun, nofun, nofun, nofun,
    nofun, nofun, nofun, nofun⟩

/-- Only a name is read as one. -/
theorem readToken_eq_readName {depths : List Nat}
    (h : (readToken depths c).lexeme.kind.isName = true) :
    ∃ ch rest, c.rest = ch :: rest ∧ (ch = '\\' ∨ isIdentifierStart ch = true) ∧
      readToken depths c = readName c := by
  obtain ⟨hunknown, hend, hnumeric, hbig, hstring, hwhole, hhead, hmiddle, htail, hprivate,
    hmark⟩ := kind_ne_of_isName h
  generalize hkind : (readToken depths c).lexeme.kind = kind at *
  unfold readToken at hkind ⊢
  split at hkind
  · exact absurd hkind.symm hend
  · rename_i ch rest hrest
    split at hkind
    · exact absurd hkind (kind_readStringFrom kind hunknown hstring _ _ _ _ _)
    split at hkind
    · exact absurd hkind (kind_readTemplateFrom kind hunknown hwhole.symm hhead.symm _ _ _ _)
    split at hkind
    · exact absurd hkind (kind_readNumber kind hunknown hnumeric hbig c)
    split at hkind
    · exact absurd hkind (kind_readTemplateFrom kind hunknown htail.symm hmiddle.symm _ _ _ _)
    split at hkind
    · unfold readPrivateName at hkind
      dsimp only at hkind
      split at hkind
      · split at hkind
        · rename_i herror
          exact absurd (hkind.symm.trans (kind_of_error herror)) hunknown
        · exact absurd hkind.symm hprivate
      · exact absurd hkind.symm hunknown
    split at hkind
    · rename_i hstring htemplate hnumber hclose hhash hname
      refine ⟨ch, rest, hrest, hname, ?_⟩
      rw [if_neg hstring, if_neg htemplate, if_neg hnumber, if_neg hclose, if_neg hhash,
        if_pos hname]
    · unfold readPunctuator at hkind
      split at hkind
      · exact absurd hkind.symm (hmark _)
      · exact absurd hkind.symm hunknown

theorem names_readToken {depths : List Nat}
    (hkind : (readToken depths c).lexeme.kind.isName = true)
    (hplain : (readToken depths c).lexeme.escaped = false) :
    ∃ name, (readToken depths c).Names c name := by
  rcases readToken_eq_readName hkind with ⟨ch, rest, hrest, hch, hread⟩
  rw [hread] at hkind hplain ⊢
  exact names_readName hrest hch (kind_ne_of_isName hkind).1 hplain

/-- A keyword is read without escapes. -/
theorem names_readToken_of_word {depths : List Nat}
    (h : (readToken depths c).lexeme.kind = .word k) :
    (readToken depths c).Names c k.text := by
  have hname : (readToken depths c).lexeme.kind.isName = true := by
    rw [h]
    rfl
  have hplain : (readToken depths c).lexeme.escaped = false := by
    rcases readToken_eq_readName hname with ⟨-, -, -, -, hread⟩
    rw [hread] at h ⊢
    exact escaped_of_word h
  rcases names_readToken hname hplain with ⟨name, hread⟩
  have hkind := hread.kind.symm.trans h
  cases htext : Keyword.ofText? name with
  | none =>
      rw [htext] at hkind
      cases hkind
  | some k' =>
      rw [htext] at hkind
      obtain rfl : k' = k := TokenKind.word.inj hkind
      have htext' : k'.text = name := by simpa using List.find?_some htext
      exact htext' ▸ hread

/-!
## Scanning
-/

namespace Scanner

variable {s : Scanner}

/-- What a scan has read, unless a comment is not closed. -/
theorem scan_reads (hkind : s.scan.token.kind ≠ .unknown) :
    (readToken s.depths s.scan.token.start).lexeme = s.scan.token.toLexeme ∧
      (readToken s.depths s.scan.token.start).next = s.scan.token.next := by
  unfold scan at hkind ⊢
  split
  · rename_i hskip
    rw [hskip] at hkind
    exact absurd rfl hkind
  · exact ⟨rfl, rfl⟩

theorem text_of_spans {w : String} (h : s.token.start.Spans w.toList s.token.next) :
    s.token.text = w := by
  rw [Token.text, textTo, h.charsTo, String.ofList_toList]

/-- The token of a scan that is a name without escapes. -/
theorem names_scan (hkind : s.scan.token.kind.isName = true)
    (hplain : s.scan.token.escaped = false) :
    ∃ name, isIdentifierName name = true ∧ s.scan.token.text = name ∧
      s.scan.token.value = name := by
  obtain ⟨hlexeme, hnext⟩ := scan_reads (kind_ne_of_isName hkind).1
  have hkind' : (readToken s.depths s.scan.token.start).lexeme.kind.isName = true := by
    rw [hlexeme]
    exact hkind
  have hplain' : (readToken s.depths s.scan.token.start).lexeme.escaped = false := by
    rw [hlexeme]
    exact hplain
  rcases names_readToken hkind' hplain' with ⟨name, hname⟩
  refine ⟨name, hname.isName, text_of_spans (hnext ▸ hname.spans), ?_⟩
  rw [← hname.value, hlexeme]

/-- In front of a text that does not go on with it, a name is the first token. -/
theorem scan_of_isIdentifierName {name after : String} (h : isIdentifierName name = true)
    (hafter : ∀ ch ∈ after.toList.head?, continuesName ch = false) :
    let t := (ofString (name ++ after)).scan.token
    t.kind.isName = true ∧ t.escaped = false ∧ t.text = name ∧ t.value = name := by
  have hskip : Gap.skip .between false (ofString (name ++ after)).token.next.rest 0 =
      .token ⟨name.toList ++ after.toList, 0⟩ false := by
    have hrest : (ofString (name ++ after)).token.next.rest = name.toList ++ after.toList :=
      String.toList_append
    rw [hrest]
    exact skip_startsWord (startsWord_of_isIdentifierName h _) false 0
  rcases readToken_of_isIdentifierName h hafter 0 with ⟨next, hnext, hread⟩
  have hspans : Spans ⟨name.toList ++ after.toList, 0⟩ name.toList next := by
    rcases reaches_readToken [] ⟨name.toList ++ after.toList, 0⟩ with ⟨w, hw⟩
    rw [hread] at hw
    have hw' : Spans ⟨name.toList ++ after.toList, 0⟩ w next := hw
    have hsame : name.toList ++ after.toList = w ++ after.toList := hnext ▸ hw'.rest
    exact List.append_cancel_right hsame ▸ hw'
  have htext : PartialName.text ⟨name.toList.reverse, false⟩ = name := by
    simp [PartialName.text]
  have htoken : (ofString (name ++ after)).scan.token =
      { (PartialName.finish ⟨name.toList.reverse, false⟩ next).lexeme with
        start := ⟨name.toList ++ after.toList, 0⟩
        next := next
        lineBreakBefore := false } := by
    unfold scan
    rw [show (ofString (name ++ after)).token.next.offset = 0 from rfl, hskip]
    dsimp only
    rw [show (ofString (name ++ after)).depths = [] from rfl, hread]
    rfl
  intro t
  have ht : t = _ := htoken
  refine ⟨?_, ?_, ?_, ?_⟩
  · rw [ht, ← isName_kind_of_text name]
    unfold PartialName.finish
    rw [htext]
    rfl
  · rw [ht]
    rfl
  · rw [ht, Token.text, textTo, hspans.charsTo, String.ofList_toList]
  · rw [ht]
    exact htext

/-- A name with a text behind it that does not go on with it is scanned back, and nothing else
is. -/
theorem isIdentifierName_iff_scan {name after : String}
    (hafter : ∀ ch ∈ after.toList.head?, continuesName ch = false) :
    isIdentifierName name = true ↔
      let t := (ofString (name ++ after)).scan.token
      t.kind.isName = true ∧ t.escaped = false ∧ t.text = name ∧ t.value = name := by
  refine ⟨fun h => scan_of_isIdentifierName h hafter, fun ⟨hkind, hplain, htext, _⟩ => ?_⟩
  rcases names_scan hkind hplain with ⟨name', hname, htext', -⟩
  obtain rfl : name' = name := htext'.symm.trans htext
  exact hname

end Scanner
end Untangle
