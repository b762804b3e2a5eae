import Mathlib.Data.List.Find
import Untangle.Proofs.Token.PlainNames

/-!
# Longest tokens

A token of a kind with one spelling has that spelling. A punctuator is the longest one that its
text starts with, except that `?.` is two punctuators in front of a digit, and a keyword ends where
a name does.
-/

namespace Untangle

open Text Cursor

variable {c : Cursor} {p q : Punctuator} {text : List Char}

namespace Punctuator

/-!
## The table of punctuators
-/

/-- A question mark is read apart from the dot behind it when a digit follows. -/
def DotsNumber (text : List Char) : Prop :=
  ∃ digit rest, text = '?' :: '.' :: digit :: rest ∧ digit.isDigit = true

theorem pairwise_length : longestFirst.Pairwise fun p q => q.text.length ≤ p.text.length := by
  decide +kernel

theorem fits_iff : p.fits text = true ↔
    p.text.toList <+: text ∧ ¬ (p = .optionalDot ∧ DotsNumber text) := by
  rw [fits, Bool.and_eq_true, startsWith_iff]
  refine and_congr_right fun hstarts => ?_
  by_cases hp : p = .optionalDot
  · subst hp
    rcases hstarts with ⟨rest, rfl⟩
    cases rest with
    | nil => simp [DotsNumber, Punctuator.text]
    | cons ch rest => simp [DotsNumber, Punctuator.text]
  · simp [hp]

theorem fits_or_prefix (h : q.text.toList <+: text) :
    q.fits text = true ∨ q = .optionalDot ∧ DotsNumber text := by
  by_cases hdots : q = .optionalDot ∧ DotsNumber text
  · exact .inr hdots
  · exact .inl (fits_iff.mpr ⟨h, hdots⟩)

/-- The first punctuator of the table that fits is the longest one. -/
theorem length_le_of_find? (h : longestFirst.find? (·.fits text) = some p)
    (hq : q.fits text = true) : q.text.length ≤ p.text.length := by
  rcases List.find?_eq_some_iff_append.mp h with ⟨-, before, behind, hsplit, hbefore⟩
  have hmem := mem_longestFirst q
  rw [hsplit] at hmem
  rcases List.mem_append.mp hmem with hfront | hback
  · exact absurd hq (by simpa using hbefore q hfront)
  · rcases List.mem_cons.mp hback with rfl | hback
    · exact Nat.le_refl _
    · have hpairwise := pairwise_length
      rw [hsplit] at hpairwise
      exact List.rel_of_pairwise_cons (List.pairwise_append.mp hpairwise).2.1 hback

theorem find?_eq_some (hp : p.fits text = true)
    (hlongest : ∀ q : Punctuator, q.fits text = true → q = p ∨ q.text.length < p.text.length) :
    longestFirst.find? (·.fits text) = some p := by
  cases hfind : longestFirst.find? (·.fits text) with
  | none =>
      have hnone := List.find?_eq_none.mp hfind p (mem_longestFirst p)
      exact absurd hp hnone
  | some q =>
      have hq : q.fits text = true := by simpa using List.find?_some hfind
      rcases hlongest q hq with rfl | hshorter
      · rfl
      · exact absurd (length_le_of_find? hfind hp) (Nat.not_le.mpr hshorter)

theorem eq_of_dotsNumber (h : p.text.toList <+: text) (hdots : DotsNumber text) :
    p = .question ∨ p = .optionalDot := by
  rcases hdots with ⟨digit, rest, rfl, -⟩
  cases p <;> simp_all [Punctuator.text]

theorem find?_of_dotsNumber (h : DotsNumber text) :
    longestFirst.find? (·.fits text) = some .question := by
  have hquestion : fits .question text = true := by
    refine fits_iff.mpr ⟨?_, nofun⟩
    rcases h with ⟨digit, rest, rfl, -⟩
    exact ⟨'.' :: digit :: rest, rfl⟩
  refine find?_eq_some hquestion fun q hq => .inl ?_
  obtain ⟨hstarts, hdots⟩ := fits_iff.mp hq
  rcases eq_of_dotsNumber hstarts h with rfl | rfl
  · rfl
  · exact absurd ⟨rfl, h⟩ hdots

/-!
## Telling punctuators by their first characters
-/

/-- The punctuators that are looked up in a table. The others begin like numbers, comments or the
ends of substitutions, and are told apart by the characters behind the first one. -/
def isListed : Punctuator → Bool
  | divide | divideAssign | dot | ellipsis | optionalDot | openBrace | closeBrace => false
  | _ => true

/-- The punctuator that a text starts with, looked up only where its first characters leave it
open. -/
def ofText? : List Char → Option Punctuator
  | '/' :: '=' :: _ => some divideAssign
  | '/' :: _ => some divide
  | '.' :: '.' :: '.' :: _ => some ellipsis
  | '.' :: _ => some dot
  | '\x7b' :: _ => some openBrace
  | '\x7d' :: _ => some closeBrace
  | text =>
      if startsWith ['?', '.'] text ∧ ¬ (text.drop 2).head?.any Char.isDigit then some optionalDot
      else (longestFirst.filter isListed).find? fun p => startsWith p.text.toList text

theorem startsWith_eq_false {w : List Char} (h : ∀ rest, text = w ++ rest → False) :
    startsWith w text = false := by
  rw [← Bool.not_eq_true, startsWith_iff]
  rintro ⟨rest, hrest⟩
  exact h rest hrest.symm

/-- A punctuator that is not listed fits only where `ofText?` looks for it. -/
theorem not_fits_of_not_listed (hlisted : p.isListed = false)
    (hfirst : ∀ first ∈ ['/', '.', '\x7b', '\x7d'], startsWith [first] text = false)
    (hoptional : fits .optionalDot text = false) : p.fits text = false := by
  by_contra hfits
  rw [Bool.not_eq_false] at hfits
  obtain ⟨⟨rest, rfl⟩, -⟩ := fits_iff.mp hfits
  cases p <;> first
    | (cases hlisted; done)
    | exact Bool.false_ne_true (hoptional.symm.trans hfits)
    | simp [startsWith, Punctuator.text] at hfirst

theorem fits_of_listed (h : p.isListed = true) :
    p.fits text = startsWith p.text.toList text := by
  have hne : p ≠ .optionalDot := by rintro rfl; cases h
  simp [fits, hne]

/-- Either way the same punctuator is found: none that is looked up begins like the others. -/
theorem find?_eq_ofText? (text : List Char) :
    longestFirst.find? (·.fits text) = ofText? text := by
  unfold ofText?
  split
  case h_2 rest hequal =>
    have hequal : startsWith ['='] rest = false := startsWith_eq_false hequal
    refine find?_eq_some rfl fun q => ?_
    cases q <;> simp +decide [fits, startsWith, Punctuator.text, hequal]
  case h_4 rest hdots =>
    have hdots : startsWith ['.', '.'] rest = false := startsWith_eq_false hdots
    refine find?_eq_some rfl fun q => ?_
    cases q <;> simp +decide [fits, startsWith, Punctuator.text, hdots]
  case h_7 _ hdivide _ hdot hopen hclose =>
    split
    case isTrue hoptional =>
      obtain ⟨rest, rfl⟩ := startsWith_iff.mp hoptional.1
      refine find?_eq_some ?_ fun q => ?_
      · simpa [fits, Punctuator.text] using hoptional
      · cases q <;> simp +decide [fits, startsWith, Punctuator.text]
    case isFalse hoptional =>
      have hoptional : fits .optionalDot text = false := by
        rw [fits, Bool.and_eq_false_iff]
        simpa [Punctuator.text, imp_iff_not_or] using hoptional
      have hfirst : ∀ first ∈ ['/', '.', '\x7b', '\x7d'], startsWith [first] text = false := by
        simp only [List.forall_mem_cons]
        exact ⟨startsWith_eq_false hdivide, startsWith_eq_false hdot,
          startsWith_eq_false hopen, startsWith_eq_false hclose, List.forall_mem_nil _⟩
      rw [List.find?_filter]
      refine List.find?_congr fun q _ => ?_
      cases hlisted : q.isListed with
      | true => simp [fits_of_listed hlisted]
      | false => simp [not_fits_of_not_listed hlisted hfirst hoptional]
  all_goals
    refine find?_eq_some rfl fun q => ?_
    cases q <;> simp +decide [fits, startsWith, Punctuator.text]

end Punctuator

/-!
## Tokens
-/

theorem find?_of_readToken {depths : List Nat}
    (h : (readToken depths c).lexeme.kind = .mark p) :
    Punctuator.longestFirst.find? (·.fits c.rest) = some p := by
  rw [readToken_eq_readPunctuator h] at h
  unfold readPunctuator at h
  split at h
  · rename_i q hfind
    rw [hfind]
    exact congrArg some (TokenKind.mark.inj h)
  · cases h

theorem spans_of_readToken {depths : List Nat}
    (h : (readToken depths c).lexeme.kind = .mark p) :
    c.Spans p.text.toList (readToken depths c).next := by
  rcases reaches_readToken depths c with ⟨w, hw⟩
  have hsame := (rest_of_readToken h).2.symm.trans hw.rest
  exact List.append_cancel_right hsame ▸ hw

theorem readToken_of_dotsNumber {depths : List Nat} (h : Punctuator.DotsNumber c.rest) :
    (readToken depths c).lexeme.kind = .mark .question := by
  have hread : readToken depths c = readPunctuator c := by
    rcases h with ⟨digit, rest, hrest, -⟩
    unfold readToken
    rw [hrest]
    have hstart : isIdentifierStart '?' = false := by decide +kernel
    simp [hstart, show Char.isDigit '?' = false from rfl]
  rw [hread, readPunctuator, Punctuator.find?_of_dotsNumber h]
  rfl

/-!
## Scanning
-/

namespace Scanner

variable {s : Scanner}

theorem kind_scan_eq (h : s.scan.token.kind ≠ .unknown) :
    (readToken s.depths s.scan.token.start).lexeme.kind = s.scan.token.kind :=
  congrArg Lexeme.kind (scan_reads h).1

theorem text_of_scan {word : String} (h : s.scan.token.kind.text? = some word) :
    s.scan.token.text = word := by
  have hknown : s.scan.token.kind ≠ .unknown := by
    intro hkind
    rw [hkind] at h
    cases h
  have hkind := kind_scan_eq hknown
  have hnext := (scan_reads hknown).2
  cases hscan : s.scan.token.kind with
  | mark p =>
      rw [hscan] at h hkind
      obtain rfl : p.text = word := Option.some.inj h
      exact text_of_spans (hnext ▸ spans_of_readToken hkind)
  | word k =>
      rw [hscan] at h hkind
      obtain rfl : k.text = word := Option.some.inj h
      exact text_of_spans (hnext ▸ (names_readToken_of_word hkind).spans)
  | _ =>
      rw [hscan] at h
      cases h

theorem longest_of_scan (h : s.scan.token.kind = .mark p)
    (hlength : p.text.length < q.text.length)
    (hstarts : q.text.toList <+: s.scan.token.start.rest) :
    p = .question ∧ q = .optionalDot ∧ Punctuator.DotsNumber s.scan.token.start.rest := by
  have hkind := (kind_scan_eq (by simp [h])).trans h
  have hfind := find?_of_readToken hkind
  rcases Punctuator.fits_or_prefix hstarts with hfits | ⟨hq, hdots⟩
  · exact absurd (Punctuator.length_le_of_find? hfind hfits) (Nat.not_le.mpr hlength)
  · rw [Punctuator.find?_of_dotsNumber hdots] at hfind
    exact ⟨(Option.some.inj hfind).symm, hq, hdots⟩

theorem ends_of_scan {k : Keyword} (h : s.scan.token.kind = .word k) :
    ∀ ch ∈ s.scan.token.next.rest.head?, isIdentifierPart ch = false := by
  have hknown : s.scan.token.kind ≠ .unknown := by simp [h]
  have hname := names_readToken_of_word ((kind_scan_eq hknown).trans h)
  intro ch hch
  rw [← (scan_reads hknown).2] at hch
  have hends := hname.ends ch hch
  rw [continuesName, Bool.or_eq_false_iff] at hends
  exact hends.1

end Scanner

namespace Session

/-- Whatever a scanner was asked for before, the next token it scans on the source is as long as
its kind allows. -/
theorem scan_munches (source : String) (requests : List Scanner.Request) :
    let t := (run source requests).scanner.scan.token
    OnText source t.start ∧
      (∀ word, t.kind.text? = some word → t.text = word) ∧
      (∀ p, t.kind = .mark p → ∀ q : Punctuator, p.text.length < q.text.length →
        q.text.toList <+: t.start.rest →
          p = .question ∧ q = .optionalDot ∧ Punctuator.DotsNumber t.start.rest) ∧
      (t.kind ≠ .unknown → Punctuator.DotsNumber t.start.rest → t.kind = .mark .question) ∧
      ∀ k, t.kind = .word k → ∀ ch ∈ t.next.rest.head?, isIdentifierPart ch = false := by
  have hsafe := ((safe_start source).foldl requests).1.scanner.scan
  refine ⟨hsafe.start, fun word => Scanner.text_of_scan,
    fun p hp q => Scanner.longest_of_scan hp, fun hknown hdots => ?_,
    fun k => Scanner.ends_of_scan⟩
  rw [← Scanner.kind_scan_eq hknown]
  exact readToken_of_dotsNumber hdots

/-- In front of `?.5` the question mark is read alone, and `this` ends at the dot. -/
theorem scan_munches_beforeDigit :
    let mark := (run "?.5" []).scanner.scan.token
    let word := (run "this.x" []).scanner.scan.token
    mark.kind = .mark .question ∧ mark.text = "?" ∧
      (∀ q : Punctuator, 1 < q.text.length → q.text.toList <+: mark.start.rest →
        q = .optionalDot) ∧
      word.kind = .word .this ∧ word.text = "this" ∧
      ∀ ch ∈ word.next.rest.head?, isIdentifierPart ch = false := by
  obtain ⟨-, hmark, hlongest, hdots, -⟩ := scan_munches "?.5" []
  obtain ⟨-, hword, -, -, hend⟩ := scan_munches "this.x" []
  have hquestion := hdots (by decide +kernel) ⟨'5', [], by decide +kernel, rfl⟩
  have hthis : (run "this.x" []).scanner.scan.token.kind = .word .this := by decide +kernel
  exact ⟨hquestion, hmark _ (by rw [hquestion]; rfl),
    fun q hlength hstarts => (hlongest _ hquestion q hlength hstarts).2.1, hthis,
    hword _ (by rw [hthis]; rfl), hend _ hthis⟩

end Session
end Untangle
