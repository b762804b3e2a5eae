import Mathlib.Data.List.Forall2
import Untangle.Proofs.Token.Quoted
import Untangle.Proofs.Token.Reach
import Untangle.Text.Units

/-!
# Values of string literals

The value of a literal is a sequence of code units. Each escape contributes its own, so that two
escapes may spell the halves of one character; whoever decodes a literal into characters has to
join them. The grammar of ECMAScript says what a literal contains, legacy octal escapes included,
and leaves no choice: a text starts with at most one literal, which has one value.
-/

namespace Untangle

open Cursor Text

namespace Text

/-- The code units of a code point. A surrogate is a unit of its own. -/
def codeUnits (code : Nat) : List Nat :=
  if code < 0x10000 then [code]
  else [0xD800 + (code - 0x10000) / 0x400, 0xDC00 + (code - 0x10000) % 0x400]

theorem charUnits_eq (ch : Char) : charUnits ch = codeUnits ch.toNat :=
  rfl

def IsDigit (radix : Nat) (ch : Char) (value : Nat) : Prop :=
  digitValue? radix ch = some value

/-- The number that digits continue. -/
def continued (radix : Nat) : Nat → List Nat → Nat :=
  List.foldl fun number digit => radix * number + digit

/-!
## The grammar
-/

/-- The letters that stand for a control character. -/
def letterEscapes : List (Char × Nat) :=
  [('b', 8), ('t', 9), ('n', 10), ('v', 11), ('f', 12), ('r', 13)]

/-- An octal escape takes as many digits as a byte has room for. `\0` is one of them, and the second
digit of `\08` is no longer part of it. -/
inductive OctalEscape : List Char → Nat → List Char → Prop
  | one {a x after} (ha : IsDigit 8 a x) (hafter : after.head?.bind (digitValue? 8) = none) :
      OctalEscape (a :: after) x after
  | two {a b x y after} (ha : IsDigit 8 a x) (hb : IsDigit 8 b y)
      (hafter : 4 ≤ x ∨ after.head?.bind (digitValue? 8) = none) :
      OctalEscape (a :: b :: after) (8 * x + y) after
  | three {a b c x y z after} (ha : IsDigit 8 a x) (hb : IsDigit 8 b y) (hc : IsDigit 8 c z)
      (hx : x ≤ 3) : OctalEscape (a :: b :: c :: after) (8 * (8 * x + y) + z) after

/-- What may stand behind `\u`. -/
inductive UnicodeEscape : List Char → Nat → List Char → Prop
  | unit {a b c d x y z w after} (ha : IsDigit 16 a x) (hb : IsDigit 16 b y) (hc : IsDigit 16 c z)
      (hd : IsDigit 16 d w) :
      UnicodeEscape (a :: b :: c :: d :: after) (16 * (16 * (16 * x + y) + z) + w) after
  | codePoint {digits values after} (hdigits : List.Forall₂ (IsDigit 16) digits values)
      (hne : digits ≠ []) (hle : continued 16 0 values ≤ 0x10FFFF) :
      UnicodeEscape ('\x7b' :: (digits ++ '\x7d' :: after)) (continued 16 0 values) after

/-- The end of a line, which a carriage return and a line feed make together. -/
inductive LineEnd : List Char → List Char → Prop
  | returnAndFeed {after} : LineEnd ('\r' :: '\n' :: after) after
  | single {ch after} (h : isLineBreak ch = true) (hafter : ch = '\r' → after.head? ≠ some '\n') :
      LineEnd (ch :: after) after

/-- A character without a meaning of its own behind a backslash. The digits 8 and 9 have none. -/
def IsUnescaped (ch : Char) : Prop :=
  ch ∉ letterEscapes.map Prod.fst ∧ ch ≠ 'x' ∧ ch ≠ 'u' ∧ digitValue? 8 ch = none ∧
    isLineBreak ch = false

/-- What may stand behind a backslash, the code units it contributes, and what follows it. -/
inductive Escape : List Char → List Nat → List Char → Prop
  | letter {ch unit after} (h : (ch, unit) ∈ letterEscapes) : Escape (ch :: after) [unit] after
  | octal {text unit after} (h : OctalEscape text unit after) : Escape text [unit] after
  | byte {a b x y after} (ha : IsDigit 16 a x) (hb : IsDigit 16 b y) :
      Escape ('x' :: a :: b :: after) [16 * x + y] after
  | unicode {text code after} (h : UnicodeEscape text code after) :
      Escape ('u' :: text) (codeUnits code) after
  | lineEnd {text after} (h : LineEnd text after) : Escape text [] after
  | self {ch after} (h : IsUnescaped ch) : Escape (ch :: after) (charUnits ch) after

/-- The characters of a literal up to its closing quote, the code units of its value, and what
follows the quote. -/
inductive StringCharacters (quote : Char) : List Char → List Nat → List Char → Prop
  | quote {after} : StringCharacters quote (quote :: after) [] after
  | plain {ch text units after} (h : IsPlain quote ch)
      (hrest : StringCharacters quote text units after) :
      StringCharacters quote (ch :: text) (charUnits ch ++ units) after
  | escape {text middle after units units'} (h : Escape text units middle)
      (hrest : StringCharacters quote middle units' after) :
      StringCharacters quote ('\\' :: text) (units ++ units') after

/-- The text starts with a string literal. -/
def StringLiteral (text : List Char) (units : List Nat) (after : List Char) : Prop :=
  ∃ quote body, quote ∈ ['"', '\''] ∧ text = quote :: body ∧
    StringCharacters quote body units after

/-!
## Unambiguity
-/

variable {text after after' : List Char}

theorem OctalEscape.unique {n n' : Nat} (h : OctalEscape text n after)
    (h' : OctalEscape text n' after') : n = n' ∧ after = after' := by
  cases h <;> cases h' <;> simp_all [IsDigit] <;> omega

theorem LineEnd.unique (h : LineEnd text after) (h' : LineEnd text after') : after = after' := by
  cases h <;> cases h' <;> simp_all

theorem forall₂_isDigit_unique {ds ds' : List Char} {vs vs' : List Nat}
    (h : List.Forall₂ (IsDigit 16) ds vs) (h' : List.Forall₂ (IsDigit 16) ds' vs')
    (heq : ds ++ '\x7d' :: after = ds' ++ '\x7d' :: after') : vs = vs' ∧ after = after' := by
  have hbrace : ∀ x, ¬ IsDigit 16 '\x7d' x := by simp [IsDigit, digitValue?, Char.isDigit]
  induction h generalizing ds' vs' with
  | nil =>
      cases h' with
      | nil => exact ⟨rfl, (List.cons.inj heq).2⟩
      | cons hd _ => exact absurd ((List.cons.inj heq).1 ▸ hd) (hbrace _)
  | cons hd _ ih =>
      cases h' with
      | nil => exact absurd ((List.cons.inj heq).1 ▸ hd) (hbrace _)
      | cons hd' hds' =>
          obtain ⟨hhead, htail⟩ := List.cons.inj heq
          obtain ⟨rfl, hafter⟩ := ih hds' htail
          subst hhead
          exact ⟨congrArg (· :: _) (Option.some.inj (hd.symm.trans hd')), hafter⟩

theorem UnicodeEscape.unique {n n' : Nat} (h : UnicodeEscape text n after)
    (h' : UnicodeEscape text n' after') : n = n' ∧ after = after' := by
  have hbrace : ∀ x, ¬ IsDigit 16 '\x7b' x := by simp [IsDigit, digitValue?, Char.isDigit]
  cases h with
  | unit ha hb hc hd =>
      generalize htext : _ :: _ :: _ :: _ :: after = text at h'
      cases h' with
      | unit ha' hb' hc' hd' => simp_all [IsDigit]
      | codePoint => exact absurd ((List.cons.inj htext).1 ▸ ha) (hbrace _)
  | codePoint hdigits =>
      generalize htext : '\x7b' :: (_ ++ '\x7d' :: after) = text at h'
      cases h' with
      | unit ha' => exact absurd ((List.cons.inj htext).1 ▸ ha') (hbrace _)
      | codePoint hdigits' =>
          obtain ⟨rfl, hafter⟩ := forall₂_isDigit_unique hdigits hdigits' (List.cons.inj htext).2
          exact ⟨rfl, hafter⟩

theorem letterEscapes_unique : ∀ p ∈ letterEscapes, ∀ q ∈ letterEscapes, p.1 = q.1 → p = q := by
  decide

/-- The letters are neither digits nor ends of lines, nor do they start longer escapes. -/
theorem letterEscapes_apart : ∀ p ∈ letterEscapes,
    digitValue? 8 p.1 = none ∧ isLineBreak p.1 = false ∧ p.1 ≠ 'x' ∧ p.1 ≠ 'u' := by
  decide

/-- Which kind of escape it is can be told from its first character. -/
inductive EscapeKind
  | letter
  | octal
  | byte
  | unicode
  | lineEnd
  | self

def escapeKind (ch : Char) : EscapeKind :=
  if ch ∈ letterEscapes.map Prod.fst then .letter
  else if (digitValue? 8 ch).isSome then .octal
  else if isLineBreak ch then .lineEnd
  else if ch = 'x' then .byte
  else if ch = 'u' then .unicode
  else .self

theorem escapeKind_of_isDigit {ch : Char} {x : Nat} (h : IsDigit 8 ch x) :
    escapeKind ch = .octal := by
  have hletter : ch ∉ letterEscapes.map Prod.fst := by
    intro hmem
    obtain ⟨p, hp, rfl⟩ := List.mem_map.mp hmem
    exact absurd h (by simp [IsDigit, (letterEscapes_apart p hp).1])
  rw [escapeKind, if_neg hletter, if_pos (Option.isSome_of_eq_some h)]

theorem escapeKind_of_isLineBreak {ch : Char} (h : isLineBreak ch = true) :
    escapeKind ch = .lineEnd := by
  simp only [isLineBreak, Bool.or_eq_true, beq_iff_eq] at h
  rcases h with ((rfl | rfl) | rfl) | rfl <;> rfl

/-- What an escape is when its first character is known. -/
def EscapeOf (ch : Char) (text : List Char) (us : List Nat) (after : List Char) :
    EscapeKind → Prop
  | .letter => ∃ unit, (ch, unit) ∈ letterEscapes ∧ us = [unit] ∧ after = text
  | .octal => ∃ n, OctalEscape (ch :: text) n after ∧ us = [n]
  | .byte => ∃ a b x y, IsDigit 16 a x ∧ IsDigit 16 b y ∧ us = [16 * x + y] ∧
      text = a :: b :: after
  | .unicode => ∃ n, UnicodeEscape text n after ∧ us = codeUnits n
  | .lineEnd => LineEnd (ch :: text) after ∧ us = []
  | .self => us = charUnits ch ∧ after = text

theorem Escape.inv {us : List Nat} (h : Escape text us after) :
    ∃ ch rest, text = ch :: rest ∧ EscapeOf ch rest us after (escapeKind ch) := by
  cases h with
  | @letter ch unit _ hunit =>
      have hkind : escapeKind ch = .letter := if_pos (List.mem_map_of_mem hunit)
      exact ⟨_, _, rfl, hkind ▸ ⟨unit, hunit, rfl, rfl⟩⟩
  | octal hoctal =>
      obtain ⟨ch, rest, x, rfl, hx⟩ : ∃ ch rest x, text = ch :: rest ∧ IsDigit 8 ch x := by
        cases hoctal with
        | one ha => exact ⟨_, _, _, rfl, ha⟩
        | two ha => exact ⟨_, _, _, rfl, ha⟩
        | three ha => exact ⟨_, _, _, rfl, ha⟩
      exact ⟨_, _, rfl, escapeKind_of_isDigit hx ▸ ⟨_, hoctal, rfl⟩⟩
  | byte ha hb => exact ⟨_, _, rfl, _, _, _, _, ha, hb, rfl, rfl⟩
  | unicode hunicode => exact ⟨_, _, rfl, _, hunicode, rfl⟩
  | lineEnd hline =>
      obtain ⟨ch, rest, rfl, hch⟩ : ∃ ch rest, text = ch :: rest ∧ isLineBreak ch = true := by
        cases hline with
        | returnAndFeed => exact ⟨_, _, rfl, rfl⟩
        | single hch => exact ⟨_, _, rfl, hch⟩
      exact ⟨_, _, rfl, escapeKind_of_isLineBreak hch ▸ ⟨hline, rfl⟩⟩
  | @self ch _ hself =>
      obtain ⟨hletter, hx, hu, hdigit, hline⟩ := hself
      have hkind : escapeKind ch = .self := by
        rw [escapeKind, if_neg hletter, hdigit, hline, if_neg (by simp), if_neg (by simp),
          if_neg hx, if_neg hu]
      exact ⟨_, _, rfl, hkind ▸ ⟨rfl, rfl⟩⟩

theorem Escape.unique {us us' : List Nat} (h : Escape text us after)
    (h' : Escape text us' after') : us = us' ∧ after = after' := by
  obtain ⟨ch, rest, rfl, hof⟩ := h.inv
  obtain ⟨_, _, heq, hof'⟩ := h'.inv
  obtain ⟨rfl, rfl⟩ := List.cons.inj heq
  cases hkind : escapeKind ch <;> rw [hkind] at hof hof'
  · obtain ⟨unit, hunit, rfl, rfl⟩ := hof
    obtain ⟨unit', hunit', rfl, rfl⟩ := hof'
    have hsame := letterEscapes_unique _ hunit _ hunit' rfl
    exact ⟨congrArg (fun p => [p.2]) hsame, rfl⟩
  · obtain ⟨n, hn, rfl⟩ := hof
    obtain ⟨n', hn', rfl⟩ := hof'
    obtain ⟨rfl, hafter⟩ := hn.unique hn'
    exact ⟨rfl, hafter⟩
  · obtain ⟨a, b, x, y, ha, hb, rfl, rfl⟩ := hof
    obtain ⟨a', b', x', y', ha', hb', rfl, heq⟩ := hof'
    simp_all [IsDigit]
  · obtain ⟨n, hn, rfl⟩ := hof
    obtain ⟨n', hn', rfl⟩ := hof'
    obtain ⟨rfl, hafter⟩ := hn.unique hn'
    exact ⟨rfl, hafter⟩
  · obtain ⟨hline, rfl⟩ := hof
    obtain ⟨hline', rfl⟩ := hof'
    exact ⟨rfl, hline.unique hline'⟩
  · obtain ⟨rfl, rfl⟩ := hof
    obtain ⟨rfl, rfl⟩ := hof'
    exact ⟨rfl, rfl⟩

theorem StringCharacters.unique {quote : Char} {us us' : List Nat} (hquote : quote ≠ '\\')
    (h : StringCharacters quote text us after) (h' : StringCharacters quote text us' after') :
    us = us' ∧ after = after' := by
  induction h generalizing us' with
  | quote =>
      cases h' with
      | quote => exact ⟨rfl, rfl⟩
      | plain hplain => exact absurd rfl hplain.1
      | escape => exact absurd rfl hquote
  | plain hplain _ ih =>
      cases h' with
      | quote => exact absurd rfl hplain.1
      | plain _ hrest =>
          obtain ⟨rfl, hafter⟩ := ih hrest
          exact ⟨rfl, hafter⟩
      | escape => exact absurd rfl hplain.2.2.2
  | escape hescape _ ih =>
      cases h' with
      | quote => exact absurd rfl hquote
      | plain hplain => exact absurd rfl hplain.2.2.2
      | escape hescape' hrest =>
          obtain ⟨rfl, rfl⟩ := hescape.unique hescape'
          obtain ⟨rfl, hafter⟩ := ih hrest
          exact ⟨rfl, hafter⟩

theorem StringLiteral.unique {us us' : List Nat} (h : StringLiteral text us after)
    (h' : StringLiteral text us' after') : us = us' ∧ after = after' := by
  obtain ⟨quote, body, hquote, rfl, hbody⟩ := h
  obtain ⟨_, _, _, heq, hbody'⟩ := h'
  obtain ⟨rfl, rfl⟩ := List.cons.inj heq
  refine hbody.unique ?_ hbody'
  rintro rfl
  simp at hquote

end Text

/-!
## Reading escapes
-/

theorem readDigits_spec (radix max value count : Nat) (c : Cursor) :
    ∃ ds vs next, readDigits radix max value count c =
        (continued radix value vs, count + ds.length, next) ∧
      List.Forall₂ (IsDigit radix) ds vs ∧ c.rest = ds ++ next.rest ∧ ds.length ≤ max ∧
      (ds.length < max → next.rest.head?.bind (digitValue? radix) = none) := by
  induction max generalizing value count c with
  | zero => exact ⟨[], [], c, rfl, .nil, rfl, Nat.le_refl _, fun h => absurd h (Nat.lt_irrefl _)⟩
  | succ max ih =>
      rw [readDigits]
      split
      · rename_i digit hdigit
        obtain ⟨ch, hhead, hch⟩ := Option.bind_eq_some_iff.mp hdigit
        obtain ⟨rest, hrest⟩ : ∃ rest, c.rest = ch :: rest := List.head?_eq_some_iff.mp hhead
        obtain ⟨ds, vs, next, hread, hvs, hds, hle, hmax⟩ :=
          ih (radix * value + digit) (count + 1) c.advance
        refine ⟨ch :: ds, digit :: vs, next, ?_, .cons hch hvs, ?_, Nat.succ_le_succ hle, ?_⟩
        · rw [hread, List.length_cons, Nat.add_assoc, Nat.add_comm 1]
          rfl
        · rw [List.cons_append, ← hds, advance, hrest]
        · exact fun h => hmax (Nat.lt_of_succ_lt_succ h)
      · rename_i hnone
        exact ⟨[], [], c, rfl, .nil, rfl, Nat.zero_le _, fun _ => hnone⟩

theorem octalEscape_of_readDigits {ch : Char} {first : Nat} {c : Cursor}
    (hfirst : IsDigit 8 ch first) :
    OctalEscape (ch :: c.rest) (readDigits 8 (if first ≤ 3 then 2 else 1) first 1 c).1
      (readDigits 8 (if first ≤ 3 then 2 else 1) first 1 c).2.2.rest := by
  obtain ⟨ds, vs, next, hread, hvs, hrest, hle, hmax⟩ :=
    readDigits_spec 8 (if first ≤ 3 then 2 else 1) first 1 c
  rw [hread, hrest]
  cases hvs with
  | nil => exact .one hfirst (hmax (by simp; split <;> omega))
  | cons hb hvs =>
      cases hvs with
      | nil =>
          refine .two hfirst hb ?_
          by_cases hlow : first ≤ 3
          · exact .inr (hmax (by simp [hlow]))
          · exact .inl (Nat.lt_of_not_le hlow)
      | cons hc hvs =>
          by_cases hlow : first ≤ 3
          · cases hvs with
            | nil => exact .three hfirst hb hc hlow
            | cons => simp [hlow] at hle
          · simp [hlow] at hle

theorem Text.IsDigit.lt {radix x : Nat} {ch : Char} (h : IsDigit radix ch x) : x < radix := by
  rw [IsDigit, digitValue?, Option.filter_eq_some_iff] at h
  exact of_decide_eq_true h.2

theorem unicodeEscape_of_readCodeUnit {c next : Cursor} {code : Nat}
    (h : readCodeUnit c = (some code, next)) :
    UnicodeEscape c.rest code next.rest ∧ code < 0x10000 := by
  obtain ⟨ds, vs, next', hread, hvs, hrest, -, -⟩ := readDigits_spec 16 4 0 0 c
  simp only [readCodeUnit, hread, Nat.zero_add, Prod.mk.injEq, Option.ite_none_right_eq_some,
    Option.some.injEq] at h
  obtain ⟨⟨hlength, rfl⟩, rfl⟩ := h
  obtain ⟨a, b, d, e, rfl⟩ := List.length_eq_four.mp hlength
  rcases hvs with _ | ⟨ha, _ | ⟨hb, _ | ⟨hd, _ | ⟨he, ⟨⟩⟩⟩⟩⟩
  rename_i x y z w
  have hvalue : continued 16 0 [x, y, z, w] = 16 * (16 * (16 * x + y) + z) + w := by
    simp [continued]
  rw [hrest, hvalue]
  refine ⟨.unit ha hb hd he, ?_⟩
  have := Text.IsDigit.lt ha
  have := Text.IsDigit.lt hb
  have := Text.IsDigit.lt hd
  have := Text.IsDigit.lt he
  omega

theorem unicodeEscape_of_readBracedCodePoint {c next : Cursor} {code : Nat}
    (h : readBracedCodePoint c = (some code, next)) :
    UnicodeEscape ('\x7b' :: c.rest) code next.rest ∧ code ≤ 0x10FFFF := by
  obtain ⟨ds, vs, next', hread, hvs, hrest, -, -⟩ := readDigits_spec 16 6 0 0 c
  simp only [readBracedCodePoint, hread, Nat.zero_add] at h
  split at h
  · cases h
  · rename_i hgood
    cases h
    simp only [not_or, List.length_eq_zero_iff, Nat.not_lt, Decidable.not_not] at hgood
    obtain ⟨hne, hle, hbrace⟩ := hgood
    obtain ⟨rest, hafter⟩ : ∃ rest, next'.rest = '\x7d' :: rest := List.head?_eq_some_iff.mp hbrace
    have hadvance : next'.advance.rest = rest := by rw [advance, hafter]
    rw [hrest, hafter, hadvance]
    exact ⟨.codePoint hvs hne hle, hle⟩

theorem unicodeEscape_of_readUnicodeEscape {c next : Cursor} {code : Nat}
    (h : readUnicodeEscape c = (some code, next)) : UnicodeEscape c.rest code next.rest := by
  rw [readUnicodeEscape] at h
  split at h
  · rename_i hbrace
    obtain ⟨rest, hrest⟩ : ∃ rest, c.rest = '\x7b' :: rest := List.head?_eq_some_iff.mp hbrace
    have hadvance : c.advance.rest = rest := by rw [advance, hrest]
    rw [hrest, ← hadvance]
    exact (unicodeEscape_of_readBracedCodePoint h).1
  · exact (unicodeEscape_of_readCodeUnit h).1

/-- A low surrogate is only read from an escape of its own. -/
theorem escape_of_readLowSurrogate {c next : Cursor} {low : Nat}
    (h : readLowSurrogate c = some (low, next)) :
    ∃ text, c.rest = '\\' :: text ∧ Escape text [low] next.rest ∧ isLowSurrogate low = true := by
  rw [readLowSurrogate] at h
  split at h
  · rename_i rest hrest
    split at h
    · rename_i value next' hunit
      simp only [Option.ite_none_right_eq_some, Option.some.injEq, Prod.mk.injEq] at h
      obtain ⟨hlow, rfl, rfl⟩ := h
      have hskip : (c.skip 2).rest = rest := by simp [skip, advance, hrest]
      obtain ⟨hescape, hlt⟩ := unicodeEscape_of_readCodeUnit hunit
      have hunits : codeUnits value = [value] := if_pos hlt
      rw [hskip] at hescape
      exact ⟨_, hrest, hunits ▸ .unicode hescape, hlow⟩
    · cases h
  · cases h

/-!
## Characters of escapes
-/

/-- The code units of what an escape was read as. -/
def units? (ch? : Option Char) : List Nat :=
  ch?.toList.flatMap charUnits

theorem units?_charOfCode? {code : Nat} {ch : Char} (h : charOfCode? code = some ch) :
    units? (some ch) = codeUnits code := by
  have htoNat : ch.toNat = code := by
    by_cases hvalid : code.isValidChar
    · rw [charOfCode?, dif_pos hvalid] at h
      cases h
      rfl
    · rw [charOfCode?, dif_neg hvalid] at h
      cases h
  simp [units?, charUnits_eq, htoNat]

theorem exists_charOfCode? {code : Nat} (h : code.isValidChar) :
    ∃ ch, charOfCode? code = some ch :=
  ⟨_, dif_pos h⟩

theorem units?_charOfCode?_of_lt {code : Nat} (h : code < 0x100) :
    units? (charOfCode? code) = [code] := by
  have hvalid : code < 0xD800 := by omega
  obtain ⟨ch, hch⟩ := exists_charOfCode? (.inl hvalid)
  rw [hch, units?_charOfCode? hch, codeUnits, if_pos (by omega)]

/-- Two surrogates make one character, whose code units they are. -/
theorem codeUnits_combineSurrogates {high low : Nat} (hhigh : isHighSurrogate high = true)
    (hlow : isLowSurrogate low = true) :
    codeUnits (combineSurrogates high low) = [high, low] := by
  simp only [isHighSurrogate, Bool.and_eq_true, decide_eq_true_eq] at hhigh
  simp only [isLowSurrogate, Bool.and_eq_true, decide_eq_true_eq] at hlow
  have hfirst : 0xD800 + (combineSurrogates high low - 0x10000) / 0x400 = high := by
    unfold combineSurrogates
    omega
  have hsecond : 0xDC00 + (combineSurrogates high low - 0x10000) % 0x400 = low := by
    unfold combineSurrogates
    omega
  have hlarge : ¬ combineSurrogates high low < 0x10000 := by
    unfold combineSurrogates
    omega
  rw [codeUnits, if_neg hlarge, hfirst, hsecond]

theorem units?_combineSurrogates {high low : Nat} (hhigh : isHighSurrogate high = true)
    (hlow : isLowSurrogate low = true) :
    units? (charOfCode? (combineSurrogates high low)) = [high, low] := by
  have hunits := codeUnits_combineSurrogates hhigh hlow
  have hvalid : (combineSurrogates high low).isValidChar := by
    simp only [isHighSurrogate, Bool.and_eq_true, decide_eq_true_eq] at hhigh
    simp only [isLowSurrogate, Bool.and_eq_true, decide_eq_true_eq] at hlow
    unfold combineSurrogates Nat.isValidChar
    omega
  generalize combineSurrogates high low = code at hunits hvalid
  obtain ⟨ch, hch⟩ := exists_charOfCode? hvalid
  rw [hch, units?_charOfCode? hch, hunits]

theorem Text.OctalEscape.lt {text after : List Char} {n : Nat} (h : OctalEscape text n after) :
    n < 0x100 := by
  cases h with
  | one ha =>
      have := ha.lt
      omega
  | two ha hb =>
      have := ha.lt
      have := hb.lt
      omega
  | three ha hb hc =>
      have := hb.lt
      have := hc.lt
      omega

/-!
## What an escape contributes
-/

/-- One escape, or two that stand for one character together. -/
def Contributes (text : List Char) (us : List Nat) (after : List Char) : Prop :=
  ∀ ⦃quote us' stop⦄, StringCharacters quote after us' stop →
    StringCharacters quote ('\\' :: text) (us ++ us') stop

variable {text : List Char} {c next : Cursor}

theorem Text.Escape.contributes {us : List Nat} {after : List Char} (h : Escape text us after) :
    Contributes text us after :=
  fun _ _ _ hrest => .escape h hrest

theorem contributes_ofCodePoint {code : Nat} (h : UnicodeEscape text code next.rest)
    (hpaired : (EscapeReading.ofCodePoint code next).loneSurrogate = false) :
    Contributes ('u' :: text) (units? (EscapeReading.ofCodePoint code next).char?)
      (EscapeReading.ofCodePoint code next).next.rest := by
  have hfirst := Escape.unicode h
  cases hpair : (if isHighSurrogate code then readLowSurrogate next else none) with
  | some pair =>
      obtain ⟨low, behind⟩ := pair
      obtain ⟨hhigh, hlow⟩ := Option.ite_none_right_eq_some.mp hpair
      obtain ⟨text', hrest, hescape, hislow⟩ := escape_of_readLowSurrogate hlow
      have hread : (EscapeReading.ofCodePoint code next).char? =
          charOfCode? (combineSurrogates code low) ∧
          (EscapeReading.ofCodePoint code next).next = behind := by
        simp only [EscapeReading.ofCodePoint, hpair, EscapeReading.of, and_self]
      have hunits : codeUnits code = [code] := by
        simp only [isHighSurrogate, Bool.and_eq_true, decide_eq_true_eq] at hhigh
        exact if_pos (by omega)
      rw [hunits, hrest] at hfirst
      rw [hread.1, hread.2, units?_combineSurrogates hhigh hislow]
      intro quote us stop hstop
      have hpaired := StringCharacters.escape hfirst (.escape hescape hstop)
      rwa [List.singleton_append, List.singleton_append] at hpaired
  | none =>
      cases hch : charOfCode? code with
      | some ch =>
          have hread : EscapeReading.ofCodePoint code next = .of (some ch) next := by
            simp only [EscapeReading.ofCodePoint, hpair, hch]
          have hchar : units? (EscapeReading.ofCodePoint code next).char? = codeUnits code := by
            rw [hread]
            exact units?_charOfCode? hch
          rw [hchar, hread]
          exact hfirst.contributes
      | none => simp [EscapeReading.ofCodePoint, hpair, hch] at hpaired

/-!
## Reading an escape
-/

theorem mem_letterEscapes_of_singleEscape? {ch value : Char} (h : singleEscape? ch = some value) :
    ∃ unit, (ch, unit) ∈ letterEscapes ∧ units? (some value) = [unit] := by
  unfold singleEscape? at h
  split_ifs at h with hn ht hr hb hf hv <;> cases h <;> subst ch <;>
    exact ⟨_, by decide, rfl⟩

theorem not_mem_letterEscapes {ch : Char} (h : singleEscape? ch = none) :
    ch ∉ letterEscapes.map Prod.fst := by
  intro hmem
  simp only [letterEscapes, List.map_cons, List.map_nil, List.mem_cons, List.not_mem_nil,
    or_false] at hmem
  rcases hmem with rfl | rfl | rfl | rfl | rfl | rfl <;> cases h

theorem isDigit_of_isOctalDigit {ch : Char} (h : isOctalDigit ch = true) :
    IsDigit 8 ch (ch.toNat - '0'.toNat) := by
  rw [isOctalDigit_iff] at h
  have hdigit : ch.isDigit = true := (isDigit_iff ch).mpr (by omega)
  have hlt : ch.toNat - '0'.toNat < 8 := by
    change ch.toNat - 48 < 8
    omega
  rw [IsDigit, digitValue?, if_pos hdigit, Option.filter_some, if_pos (decide_eq_true hlt)]

theorem isOctalDigit_of_isDigit {ch : Char} {x : Nat} (h : IsDigit 8 ch x) :
    isOctalDigit ch = true := by
  rw [IsDigit, digitValue?] at h
  by_cases hdigit : ch.isDigit = true
  · rw [if_pos hdigit, Option.filter_some] at h
    rw [isDigit_iff] at hdigit
    rw [isOctalDigit_iff]
    have hzero : '0'.toNat = 48 := rfl
    split at h
    · rename_i hlt
      have := of_decide_eq_true hlt
      omega
    · cases h
  · rw [if_neg hdigit] at h
    split_ifs at h <;> simp at h <;> omega

theorem digitValue?_eq_none {ch : Char} (h : isOctalDigit ch = false) :
    digitValue? 8 ch = none := by
  cases hvalue : digitValue? 8 ch with
  | none => rfl
  | some x => exact absurd (isOctalDigit_of_isDigit hvalue) (by simp [h])

theorem lineEnd_of_readLineContinuation {ch : Char} (h : isLineBreak ch = true) :
    LineEnd (ch :: c.rest) (readLineContinuation ch c).next.rest := by
  unfold readLineContinuation EscapeReading.of
  dsimp only
  split
  · rename_i hpair
    obtain ⟨rfl, hfeed⟩ := hpair
    obtain ⟨rest, hrest⟩ : ∃ rest, c.rest = '\n' :: rest := List.head?_eq_some_iff.mp hfeed
    rw [advance, hrest]
    exact .returnAndFeed
  · rename_i hpair
    exact .single h fun hreturn hfeed => hpair ⟨hreturn, hfeed⟩

theorem contributes_readOctalEscape {ch : Char} {first : Nat} (hfirst : IsDigit 8 ch first) :
    Contributes (ch :: c.rest) (units? (readOctalEscape first c).char?)
      (readOctalEscape first c).next.rest := by
  have hoctal := octalEscape_of_readDigits (c := c) hfirst
  have hunits := units?_charOfCode?_of_lt hoctal.lt
  unfold readOctalEscape EscapeReading.of
  dsimp only
  rw [hunits]
  exact (Escape.octal hoctal).contributes

theorem contributes_readHexEscape (herror : (readHexEscape c).error = none) :
    Contributes ('x' :: c.rest) (units? (readHexEscape c).char?) (readHexEscape c).next.rest := by
  obtain ⟨ds, vs, next, hread, hvs, hrest, -, -⟩ := readDigits_spec 16 2 0 0 c
  by_cases hlength : ds.length = 2
  · have hhex : readHexEscape c = .of (charOfCode? (continued 16 0 vs)) next := by
      simp [readHexEscape, hread, hlength]
    obtain ⟨a, b, rfl⟩ := List.length_eq_two.mp hlength
    rcases hvs with _ | ⟨ha, _ | ⟨hb, ⟨⟩⟩⟩
    rename_i x y
    have hvalue : continued 16 0 [x, y] = 16 * x + y := by simp [continued]
    have hlt : 16 * x + y < 0x100 := by
      have := Text.IsDigit.lt ha
      have := Text.IsDigit.lt hb
      omega
    rw [hhex, hrest, hvalue]
    dsimp only [EscapeReading.of]
    rw [units?_charOfCode?_of_lt hlt]
    exact (Escape.byte ha hb).contributes
  · simp [readHexEscape, hread, hlength, EscapeReading.fail] at herror

theorem contributes_readCodePointEscape (herror : (readCodePointEscape c).error = none)
    (hpaired : (readCodePointEscape c).loneSurrogate = false) :
    Contributes ('u' :: c.rest) (units? (readCodePointEscape c).char?)
      (readCodePointEscape c).next.rest := by
  cases hread : readUnicodeEscape c with
  | mk code? next =>
      cases code? with
      | none => simp [readCodePointEscape, hread, EscapeReading.fail] at herror
      | some code =>
          have hcode : readCodePointEscape c = .ofCodePoint code next := by
            simp only [readCodePointEscape, hread]
          rw [hcode] at hpaired ⊢
          exact contributes_ofCodePoint (unicodeEscape_of_readUnicodeEscape hread) hpaired

/-- Outside of templates. -/
theorem contributes_readEscapeAfter {ch : Char} {offset : Nat}
    (herror : (readEscapeAfter false ch offset c).error = none)
    (hpaired : (readEscapeAfter false ch offset c).loneSurrogate = false) :
    Contributes (ch :: c.rest) (units? (readEscapeAfter false ch offset c).char?)
      (readEscapeAfter false ch offset c).next.rest := by
  unfold readEscapeAfter at herror hpaired ⊢
  split
  · rename_i hletter
    obtain ⟨value, hvalue⟩ := Option.isSome_iff_exists.mp hletter
    obtain ⟨unit, hmem, hunits⟩ := mem_letterEscapes_of_singleEscape? hvalue
    dsimp only [EscapeReading.of]
    rw [hvalue, hunits]
    exact (Escape.letter hmem).contributes
  rename_i hletter
  rw [if_neg hletter] at herror hpaired
  split
  · rename_i hzero
    obtain ⟨rfl, hafter⟩ := hzero
    refine (Escape.octal (.one (isDigit_of_isOctalDigit rfl) ?_)).contributes
    cases hhead : c.rest.head? with
    | none => rfl
    | some next =>
        rw [head?, hhead] at hafter
        rw [Option.bind_some]
        refine digitValue?_eq_none ?_
        rw [Bool.eq_false_iff, Ne, isOctalDigit_iff]
        have hdigit : ¬ next.isDigit = true := Bool.eq_false_iff.mp hafter
        rw [isDigit_iff] at hdigit
        omega
  rename_i hzero
  rw [if_neg hzero, if_neg (fun h => Bool.false_ne_true h.2)] at herror hpaired
  rw [if_neg (fun h => Bool.false_ne_true h.2)]
  split
  · rename_i hoctal
    exact contributes_readOctalEscape (isDigit_of_isOctalDigit hoctal)
  rename_i hoctal
  rw [if_neg hoctal] at herror hpaired
  split
  · rename_i hx
    subst hx
    exact contributes_readHexEscape (by rwa [if_pos rfl] at herror)
  rename_i hx
  rw [if_neg hx] at herror hpaired
  split
  · rename_i hu
    subst hu
    rw [if_pos rfl] at herror hpaired
    exact contributes_readCodePointEscape herror hpaired
  rename_i hu
  split
  · rename_i hline
    exact (Escape.lineEnd (lineEnd_of_readLineContinuation hline)).contributes
  · rename_i hline
    have hunits : units? (some ch) = charUnits ch := List.append_nil _
    dsimp only [EscapeReading.of]
    rw [hunits]
    have hself : IsUnescaped ch :=
      ⟨not_mem_letterEscapes (by simpa using hletter), hx, hu,
        digitValue?_eq_none (Bool.eq_false_iff.mpr hoctal), Bool.eq_false_iff.mpr hline⟩
    exact (Escape.self hself).contributes

theorem contributes_readEscape (herror : (readEscape false c).error = none)
    (hpaired : (readEscape false c).loneSurrogate = false) :
    Contributes c.rest (units? (readEscape false c).char?) (readEscape false c).next.rest := by
  unfold readEscape at herror hpaired ⊢
  split
  · rename_i hend
    rw [hend] at herror
    cases herror
  · rename_i ch hhead
    rw [hhead] at herror hpaired
    obtain ⟨rest, hrest⟩ : ∃ rest, c.rest = ch :: rest := List.head?_eq_some_iff.mp hhead
    have hadvance : c.advance.rest = rest := by rw [advance, hrest]
    have hcontributes := contributes_readEscapeAfter herror hpaired
    rwa [hadvance, ← hrest] at hcontributes

/-!
## Whole literals
-/

/-- The rest of a literal has the value that is missing. -/
theorem stringCharacters_of_readStringFrom {quote : Char} {opening : Nat} {reversed : List Char}
    {surrogate : Bool} {r : Reading} (hr : readStringFrom quote opening reversed surrogate c = r)
    (hkind : r.lexeme.kind = .string) (hpaired : r.lexeme.loneSurrogate = false) :
    surrogate = false ∧ ∃ us, StringCharacters quote c.rest us r.next.rest ∧
      units r.lexeme.value = reversed.reverse.flatMap charUnits ++ us := by
  subst hr
  fun_induction readStringFrom quote opening reversed surrogate c with
  | case1 | case3 | case4 => cases hkind
  | case2 reversed surrogate c rest hrest =>
      have hadvance : c.advance.rest = rest := by rw [advance, hrest]
      refine ⟨hpaired, [], ?_, ?_⟩
      · rw [hrest]
        exact hadvance ▸ .quote
      · simp [Reading.ok, units]
  | case5 reversed surrogate c rest hread hrest hquote hbreak ih =>
      obtain ⟨hsurrogate, us, hus, hvalue⟩ := ih hkind hpaired
      rw [Bool.or_eq_false_iff] at hsurrogate
      have hadvance : c.advance.rest = rest := by rw [advance, hrest]
      have hescape := contributes_readEscape hread hsurrogate.2
      rw [hadvance] at hescape
      refine ⟨hsurrogate.1, _, hrest ▸ hescape hus, ?_⟩
      rw [hvalue]
      cases (readEscape false c.advance).char? <;> simp [units?]
  | case6 reversed surrogate c ch rest hrest hquote hbreak hplain ih =>
      obtain ⟨hsurrogate, us, hus, hvalue⟩ := ih hkind hpaired
      have hadvance : c.advance.rest = rest := by rw [advance, hrest]
      rw [hadvance] at hus
      rw [not_or] at hbreak
      have hch : IsPlain quote ch := ⟨hquote, hbreak.1, hbreak.2, hplain⟩
      refine ⟨hsurrogate, charUnits ch ++ us, hrest ▸ StringCharacters.plain hch hus, ?_⟩
      rw [hvalue]
      simp

theorem stringLiteral_of_readString {quote : Char} {rest : List Char}
    (hquote : quote = '"' ∨ quote = '\'') (hrest : c.rest = quote :: rest)
    (hkind : (readString quote c).lexeme.kind = .string)
    (hpaired : (readString quote c).lexeme.loneSurrogate = false) :
    StringLiteral c.rest (units (readString quote c).lexeme.value)
      (readString quote c).next.rest := by
  obtain ⟨-, us, hus, hvalue⟩ := stringCharacters_of_readStringFrom rfl hkind hpaired
  have hadvance : c.advance.rest = rest := by rw [advance, hrest]
  have hunits : units (readString quote c).lexeme.value = us := hvalue
  rw [hadvance] at hus
  exact ⟨quote, rest, by simpa using hquote, hrest, hunits ▸ hus⟩

/-- Only quotes start strings. -/
theorem quote_of_readToken {depths : List Nat} {ch : Char} {rest : List Char}
    (hrest : c.rest = ch :: rest) (hkind : (readToken depths c).lexeme.kind = .string) :
    ch = '"' ∨ ch = '\'' := by
  by_contra hquote
  unfold readToken at hkind
  rw [hrest] at hkind
  dsimp only at hkind
  rw [if_neg hquote] at hkind
  split at hkind
  · exact kind_readTemplateFrom .string nofun (by rintro ⟨⟩) (by rintro ⟨⟩) _ _ _ _ hkind
  split at hkind
  · exact kind_readNumber .string nofun nofun nofun _ hkind
  split at hkind
  · exact kind_readTemplateFrom .string nofun (by rintro ⟨⟩) (by rintro ⟨⟩) _ _ _ _ hkind
  split at hkind
  · unfold readPrivateName at hkind
    dsimp only at hkind
    split at hkind
    · split at hkind
      · exact kind_readNameFrom .string nofun nofun nofun _ _ hkind
      · cases hkind
    · cases hkind
  split at hkind
  · exact kind_readNameFrom .string nofun nofun nofun _ _ hkind
  · unfold readPunctuator at hkind
    split at hkind <;> cases hkind

theorem stringLiteral_of_readToken {depths : List Nat}
    (hkind : (readToken depths c).lexeme.kind = .string)
    (hpaired : (readToken depths c).lexeme.loneSurrogate = false) :
    StringLiteral c.rest (units (readToken depths c).lexeme.value)
      (readToken depths c).next.rest := by
  cases hrest : c.rest with
  | nil => simp [readToken, hrest, Reading.ok] at hkind
  | cons ch rest =>
      have hquote := quote_of_readToken hrest hkind
      have hread : readToken depths c = readString ch c := by
        unfold readToken
        rw [hrest]
        exact if_pos hquote
      rw [hread] at hkind hpaired ⊢
      rw [← hrest]
      exact stringLiteral_of_readString hquote hrest hkind hpaired

namespace Scanner

/-- A string token is the one literal that the text starts with where the token does. Without
surrogates that lack their other half, the code units of what was decoded are its value. -/
theorem scan_stringLiteral_iff {s : Scanner} (hkind : s.scan.token.kind = .string)
    (hpaired : s.scan.token.loneSurrogate = false) (us : List Nat) (after : List Char) :
    StringLiteral s.scan.token.start.rest us after ↔
      us = units s.scan.token.value ∧ after = s.scan.token.next.rest := by
  have hliteral : StringLiteral s.scan.token.start.rest (units s.scan.token.value)
      s.scan.token.next.rest := by
    unfold scan at hkind hpaired ⊢
    cases hgap : Gap.skip .between false s.token.next.rest s.token.next.offset with
    | openComment start stop lineBreak =>
        rw [hgap] at hkind
        cases hkind
    | token start lineBreak =>
        rw [hgap] at hkind hpaired
        exact stringLiteral_of_readToken hkind hpaired
  constructor
  · exact fun h => h.unique hliteral
  · rintro ⟨rfl, rfl⟩
    exact hliteral

/-- A literal whose first two escapes spell one character, with octal escapes of one and of three
digits and a line continuation behind them. -/
def escapesSource : String :=
  "'\\uD83D\\uDE00\\08\\377\\\r\n\\u\x7b41\x7d' + a"

theorem scan_stringLiteral_escapes :
    (ofString escapesSource).scan.token.kind = .string ∧
    (ofString escapesSource).scan.token.loneSurrogate = false ∧
    StringLiteral escapesSource.toList [0xD83D, 0xDE00, 0, 0x38, 0xFF, 0x41] " + a".toList := by
  have hscan : (ofString escapesSource).scan.token.kind = .string ∧
      (ofString escapesSource).scan.token.loneSurrogate = false ∧
      (ofString escapesSource).scan.token.start.rest = escapesSource.toList ∧
      [0xD83D, 0xDE00, 0, 0x38, 0xFF, 0x41] =
        units (ofString escapesSource).scan.token.value ∧
      " + a".toList = (ofString escapesSource).scan.token.next.rest := by
    decide +kernel
  obtain ⟨hkind, hpaired, hstart, hvalue⟩ := hscan
  refine ⟨hkind, hpaired, ?_⟩
  rw [← hstart]
  exact (scan_stringLiteral_iff hkind hpaired _ _).mpr hvalue

end Scanner
end Untangle
