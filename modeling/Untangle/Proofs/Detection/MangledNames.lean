import Untangle.Detection.Detection
import Untangle.Proofs.Text.Bytes
import Untangle.Proofs.Token.Sliced

/-!
# Mangled names

The characters of a text that may belong to identifiers form runs, each as long as it can be. A
text has a mangled name exactly when one of these runs is made of `_0x` and hexadecimal digits.
The same answer comes from a search among the bytes of the text: every place that is found is a
place between characters, and so is the end of the digits behind it.
-/

namespace Untangle

open Text
open Cursor (byteLength byteLength_append)

variable {chars before behind w v : List Char}

/-!
## Runs
-/

/-- The part of a text between two others is a run of characters of a class, and none of the
neighbours belongs to it. -/
structure IsRunBetween (p : Char → Bool) (before run behind : List Char) : Prop where
  nonempty : run ≠ []
  inside : ∀ ch ∈ run, p ch = true
  starts : ∀ ch ∈ before.getLast?, p ch = false
  ends : ∀ ch ∈ behind.head?, p ch = false

/-- The maximal runs of a text. -/
def IsRunOf (p : Char → Bool) (text run : List Char) : Prop :=
  ∃ before behind, before ++ run ++ behind = text ∧ IsRunBetween p before run behind

namespace Encoding

def mark : List Char :=
  ['_', '0', 'x']

/-- A whole name of `_0x` and hexadecimal digits. -/
def IsMangledName (name : List Char) : Prop :=
  ∃ digits, name = mark ++ digits ∧ digits ≠ [] ∧ ∀ ch ∈ digits, isHexDigit ch = true

/-!
## Mangled names among characters
-/

theorem isAscii_of_isHexDigit {ch : Char} (h : isHexDigit ch = true) : isAscii ch = true := by
  simp only [isHexDigit, Char.isDigit, Bool.or_eq_true, Bool.and_eq_true, decide_eq_true_eq,
    Char.le_def, UInt32.le_iff_toNat_le] at h
  refine decide_eq_true ?_
  rcases h with (h | h) | h <;> exact Nat.lt_of_le_of_lt h.2 (by decide)

theorem isIdentifierPart_of_isHexDigit {ch : Char} (h : isHexDigit ch = true) :
    isIdentifierPart ch = true := by
  have hall : ∀ n < 0x80, isHexDigit (Char.ofNat n) = true →
      isIdentifierPart (Char.ofNat n) = true := by decide +kernel
  have hch := hall ch.toNat (of_decide_eq_true (isAscii_of_isHexDigit h))
  rw [Char.ofNat_toNat] at hch
  exact hch h

theorem IsMangledName.isIdentifierPart {name : List Char} (h : IsMangledName name) :
    ∀ ch ∈ name, isIdentifierPart ch = true := by
  rcases h with ⟨digits, rfl, -, hdigits⟩
  intro ch hch
  rcases List.mem_append.mp hch with hmark | hdigit
  · have hall : mark.all Text.isIdentifierPart = true := by decide +kernel
    exact List.all_eq_true.mp hall ch hmark
  · exact isIdentifierPart_of_isHexDigit (hdigits ch hdigit)

theorem takeWhile_digits {digits : List Char} (hdigits : ∀ ch ∈ digits, isHexDigit ch = true)
    (hend : ∀ ch ∈ behind.head?, isIdentifierPart ch = false) :
    (digits ++ behind).takeWhile isHexDigit = digits ∧
      (digits ++ behind).dropWhile isHexDigit = behind := by
  rw [List.takeWhile_append_of_pos hdigits, List.dropWhile_append_of_pos hdigits]
  cases behind with
  | nil => simp
  | cons ch behind =>
      have hch : isHexDigit ch = false := Bool.eq_false_iff.mpr fun hhex =>
        Bool.false_ne_true ((hend ch rfl).symm.trans (isIdentifierPart_of_isHexDigit hhex))
      simp [hch]

theorem startsWithMangledName_mark (rest : List Char) :
    startsWithMangledName (mark ++ rest) =
      (!(rest.takeWhile isHexDigit).isEmpty &&
        !(rest.dropWhile isHexDigit).head?.any isIdentifierPart) :=
  rfl

theorem startsWithMangledName_iff :
    startsWithMangledName chars = true ↔
      ∃ name behind, chars = name ++ behind ∧ IsMangledName name ∧
        ∀ ch ∈ behind.head?, isIdentifierPart ch = false := by
  constructor
  · intro h
    unfold startsWithMangledName at h
    split at h
    · rename_i rest
      obtain ⟨hdigits, hend⟩ := Bool.and_eq_true_iff.mp h
      refine ⟨mark ++ rest.takeWhile isHexDigit, rest.dropWhile isHexDigit, ?_,
        ⟨_, rfl, by simpa using hdigits, List.all_eq_true.mp List.all_takeWhile⟩, ?_⟩
      · rw [List.append_assoc, List.takeWhile_append_dropWhile]
        rfl
      · intro ch hch
        rw [Option.mem_def.mp hch] at hend
        simpa using hend
    · cases h
  · rintro ⟨_, behind, rfl, ⟨digits, rfl, hne, hdigits⟩, hend⟩
    obtain ⟨htake, hdrop⟩ := takeWhile_digits hdigits hend
    rw [List.append_assoc, startsWithMangledName_mark, htake, hdrop]
    cases hhead : behind.head? with
    | none => simpa using hne
    | some ch => simpa [hend ch hhead] using hne

/-- What is asked of the last character, or else of the one in front of all. -/
theorem elim_getLast?_cons {α : Type} (ch : Char) (before : List Char) (otherwise : α)
    (p : Char → α) :
    (ch :: before).getLast?.elim otherwise p = before.getLast?.elim (p ch) p := by
  rw [List.getLast?_cons]
  cases before.getLast? with
  | none => rfl
  | some last => rfl

theorem hasMangledNameFrom_iff {afterPart : Bool} :
    hasMangledNameFrom afterPart chars = true ↔
      ∃ before rest, chars = before ++ rest ∧ startsWithMangledName rest = true ∧
        before.getLast?.elim afterPart isIdentifierPart = false := by
  induction chars generalizing afterPart with
  | nil =>
      simp only [hasMangledNameFrom, Bool.false_eq_true, false_iff]
      rintro ⟨before, rest, hsplit, hstarts, -⟩
      obtain ⟨-, rfl⟩ := List.append_eq_nil_iff.mp hsplit.symm
      cases hstarts
  | cons ch chars ih =>
      rw [hasMangledNameFrom, Bool.or_eq_true, Bool.and_eq_true, ih]
      constructor
      · rintro (⟨hpart, hstarts⟩ | ⟨before, rest, rfl, hstarts, hbefore⟩)
        · exact ⟨[], ch :: chars, rfl, hstarts, by simpa using hpart⟩
        · refine ⟨ch :: before, rest, rfl, hstarts, ?_⟩
          rw [elim_getLast?_cons]
          exact hbefore
      · rintro ⟨_ | ⟨first, before⟩, rest, hsplit, hstarts, hbefore⟩
        · obtain rfl : ch :: chars = rest := hsplit
          exact .inl ⟨by simpa using hbefore, hstarts⟩
        · obtain ⟨rfl, rfl⟩ := List.cons.inj hsplit
          rw [elim_getLast?_cons] at hbefore
          exact .inr ⟨before, rest, rfl, hstarts, hbefore⟩

/-- A run of the text is a mangled name exactly where one starts behind a character that belongs to
no identifier. -/
theorem hasMangledName_iff {text : String} :
    hasMangledName text = true ↔
      ∃ run, IsRunOf Text.isIdentifierPart text.toList run ∧ IsMangledName run := by
  rw [hasMangledName, hasMangledNameFrom_iff]
  constructor
  · rintro ⟨before, rest, hsplit, hstarts, hbefore⟩
    rcases startsWithMangledName_iff.mp hstarts with ⟨name, behind, rfl, hname, hend⟩
    have hne : name ≠ [] := by
      rcases hname with ⟨digits, rfl, -⟩
      exact List.cons_ne_nil _ _
    refine ⟨name, ⟨before, behind, ?_, hne, hname.isIdentifierPart, fun ch hch => ?_, hend⟩, hname⟩
    · rw [hsplit, List.append_assoc]
    · rw [Option.mem_def.mp hch] at hbefore
      exact hbefore
  · rintro ⟨name, ⟨before, behind, hsplit, hrun⟩, hname⟩
    refine ⟨before, name ++ behind, ?_, ?_, ?_⟩
    · rw [← hsplit, List.append_assoc]
    · exact startsWithMangledName_iff.mpr ⟨name, behind, rfl, hname, hrun.ends⟩
    · cases hlast : before.getLast? with
      | none => rfl
      | some ch => exact hrun.starts ch hlast

end Encoding

/-!
## Mangled names among bytes
-/

namespace Slicing

def isHexByte (b : UInt8) : Bool :=
  (0x30 ≤ b && b ≤ 0x39) || (0x61 ≤ b && b ≤ 0x66) || (0x41 ≤ b && b ≤ 0x46)

/-- Whether a name that starts with the mark at a byte is a mangled one, with nothing of an
identifier in front of it or behind it. -/
def isMangledNameAt (source : String) (start : Nat) : Option Bool := do
  let before ← slice? source 0 start
  if before.toList.getLast?.any isIdentifierPart then return false
  else
    let rest ← slice? source (start + 3) source.utf8ByteSize
    let digits := ((bytesOf rest).takeWhile isHexByte).length
    if digits = 0 then return false
    else
      let behind ← from? rest digits
      return !behind.head?.any isIdentifierPart

/-- Look at each place at which the mark is found among the bytes. -/
def hasMangledName (find : (bytes needle : List UInt8) → List Nat) (source : String) :
    Option Bool :=
  (find (bytesOf source) (bytesOf "_0x")).anyM (isMangledNameAt source)

/-!
### Digits
-/

theorem isHexByte_asciiByte {ch : Char} (h : isAscii ch = true) :
    isHexByte (asciiByte ch) = isHexDigit ch := by
  have hall : ∀ n < 0x80, isHexByte (asciiByte (Char.ofNat n)) = isHexDigit (Char.ofNat n) := by
    decide +kernel
  have hch := hall ch.toNat (of_decide_eq_true h)
  rwa [Char.ofNat_toNat] at hch

theorem toNat_lt_of_isHexByte {b : UInt8} (h : isHexByte b = true) : b.toNat < 0x80 := by
  simp only [isHexByte, Bool.or_eq_true, Bool.and_eq_true, decide_eq_true_eq,
    UInt8.le_iff_toNat_le] at h
  rcases h with (h | h) | h <;> exact Nat.lt_of_le_of_lt h.2 (by decide)

/-- The digits take the same characters as bytes. -/
theorem takeWhile_isHexByte (chars : List Char) :
    (encode chars).takeWhile isHexByte = encode (chars.takeWhile isHexDigit) := by
  induction chars with
  | nil => rfl
  | cons ch chars ih =>
      by_cases hch : isHexDigit ch = true
      · have hascii := Encoding.isAscii_of_isHexDigit hch
        rw [List.takeWhile_cons_of_pos hch, encode_cons, encode_cons, utf8EncodeChar_ascii hascii,
          List.singleton_append, List.takeWhile_cons_of_pos, ih]
        · rfl
        · rw [isHexByte_asciiByte hascii, hch]
      · rw [List.takeWhile_cons_of_neg hch, encode_cons]
        cases hbytes : String.utf8EncodeChar ch with
        | nil => exact absurd hbytes String.utf8EncodeChar_ne_nil
        | cons b bytes =>
            refine List.takeWhile_cons_of_neg fun hb => hch ?_
            have hmem : b ∈ String.utf8EncodeChar ch := by simp [hbytes]
            obtain ⟨hascii, rfl⟩ := utf8EncodeChar_of_mem hmem (toNat_lt_of_isHexByte hb)
            rwa [isHexByte_asciiByte hascii] at hb

/-!
### Places
-/

theorem onText_split {source : String} (h : w ++ v = source.toList) :
    OnText source ⟨v, byteLength w⟩ :=
  ⟨w, h.symm, (Nat.zero_add _).symm⟩

theorem slice?_of_split {source : String} (h : w ++ chars ++ v = source.toList) :
    slice? source (byteLength w) (byteLength (w ++ chars)) = some (String.ofList chars) := by
  have hspans : Cursor.Spans ⟨chars ++ v, byteLength w⟩ chars ⟨v, byteLength (w ++ chars)⟩ :=
    ⟨rfl, byteLength_append w chars⟩
  have honText : OnText source ⟨chars ++ v, byteLength w⟩ :=
    onText_split (by rw [← h, List.append_assoc])
  rw [honText.slice? ⟨chars, hspans⟩, Cursor.textTo, hspans.charsTo]

theorem from?_of_split (w v : List Char) :
    from? (String.ofList (w ++ v)) (byteLength w) = some v :=
  OnText.from? (onText_split String.toList_ofList.symm)

/-- At a place where the mark stands every slice exists. -/
theorem isMangledNameAt_eq {source : String} (h : w ++ Encoding.mark ++ v = source.toList) :
    isMangledNameAt source (byteLength w) =
      some (!w.getLast?.any isIdentifierPart &&
        Encoding.startsWithMangledName (Encoding.mark ++ v)) := by
  have hbefore : slice? source 0 (byteLength w) = some (String.ofList w) :=
    slice?_of_split (w := []) (v := Encoding.mark ++ v) (by simpa using h)
  have hrest : slice? source (byteLength w + 3) source.utf8ByteSize = some (String.ofList v) := by
    have hmark : byteLength w + 3 = byteLength (w ++ Encoding.mark) :=
      (byteLength_append w Encoding.mark).symm
    have hend : source.utf8ByteSize = byteLength (w ++ Encoding.mark ++ v) := by
      rw [h, Cursor.byteLength_toList]
    rw [hmark, hend]
    exact slice?_of_split (v := []) (by rw [List.append_nil, h])
  have hdigits : ((bytesOf (String.ofList v)).takeWhile isHexByte).length =
      byteLength (v.takeWhile isHexDigit) := by
    rw [bytesOf_eq, String.toList_ofList, takeWhile_isHexByte, length_encode]
  have hbehind : from? (String.ofList v) (byteLength (v.takeWhile isHexDigit)) =
      some (v.dropWhile isHexDigit) := by
    have hfrom := from?_of_split (v.takeWhile isHexDigit) (v.dropWhile isHexDigit)
    rwa [List.takeWhile_append_dropWhile] at hfrom
  rw [Encoding.startsWithMangledName_mark]
  unfold isMangledNameAt
  simp only [hbefore, hrest, hdigits, hbehind, String.toList_ofList, Option.bind_eq_bind,
    Option.bind_some]
  cases hpart : w.getLast?.any isIdentifierPart with
  | true => rfl
  | false =>
      cases htake : v.takeWhile isHexDigit with
      | nil => rfl
      | cons digit digits =>
          have hpos : byteLength (digit :: digits) ≠ 0 := by
            have := digit.utf8Size_pos
            rw [byteLength]
            omega
          simp [hpos]

/-!
### The search
-/

theorem anyM_eq_some {α : Type} {f : α → Option Bool} {l : List α}
    (h : ∀ a ∈ l, (f a).isSome = true) : l.anyM f = some (l.any (f · == some true)) := by
  induction l with
  | nil => rfl
  | cons a l ih =>
      obtain ⟨ha, hl⟩ := List.forall_mem_cons.mp h
      obtain ⟨found, hfound⟩ := Option.isSome_iff_exists.mp ha
      rw [List.anyM, hfound, List.any_cons, hfound, Option.bind_eq_bind, Option.bind_some]
      cases found with
      | true => rfl
      | false => exact ih hl

/-- The places that are found are those at which the mark stands among the characters. -/
theorem mem_find_iff {find : (bytes needle : List UInt8) → List Nat}
    (hfind : FindsOccurrences find) (source : String) (n : Nat) :
    n ∈ find (bytesOf source) (bytesOf "_0x") ↔
      ∃ w v, w ++ Encoding.mark ++ v = source.toList ∧ n = byteLength w := by
  have hneedle : bytesOf "_0x" = [0x5f, 0x30, 0x78] := by decide +kernel
  have hmark : encode Encoding.mark = [0x5f, 0x30, 0x78] := by decide +kernel
  have hascii : ∀ ch ∈ Encoding.mark, isAscii ch = true := List.all_eq_true.mp rfl
  have hfound := hfind (bytesOf source) [0x5f, 0x30, 0x78] (List.cons_ne_nil _ _)
  rw [hneedle, hfound.mem_iff (by decide), bytesOf_eq]
  constructor
  · rintro ⟨before, behind, hsplit, rfl⟩
    rw [← hmark] at hsplit
    rcases infix_of_encode_eq hsplit.symm hascii with ⟨w, v, hw, rfl⟩
    exact ⟨w, v, hw.symm, by rw [Nat.zero_add, length_encode]⟩
  · rintro ⟨w, v, hsplit, rfl⟩
    refine ⟨encode w, encode v, ?_, by rw [Nat.zero_add, length_encode]⟩
    rw [← hmark, ← hsplit, encode_append, encode_append]

theorem hasMangledName_eq {find : (bytes needle : List UInt8) → List Nat}
    (hfind : FindsOccurrences find) (source : String) :
    hasMangledName find source = some (Encoding.hasMangledName source) := by
  have hplace : ∀ n ∈ find (bytesOf source) (bytesOf "_0x"),
      (isMangledNameAt source n).isSome = true := by
    intro n hn
    rcases (mem_find_iff hfind source n).mp hn with ⟨w, v, hsplit, rfl⟩
    rw [isMangledNameAt_eq hsplit]
    rfl
  rw [hasMangledName, anyM_eq_some hplace]
  congr 1
  rw [Bool.eq_iff_iff, List.any_eq_true, Encoding.hasMangledName, Encoding.hasMangledNameFrom_iff]
  constructor
  · rintro ⟨n, hn, hname⟩
    rcases (mem_find_iff hfind source n).mp hn with ⟨w, v, hsplit, rfl⟩
    rw [isMangledNameAt_eq hsplit, beq_iff_eq, Option.some_inj, Bool.and_eq_true] at hname
    refine ⟨w, Encoding.mark ++ v, by rw [← hsplit, List.append_assoc], hname.2, ?_⟩
    cases hlast : w.getLast? with
    | none => rfl
    | some ch => simpa [hlast] using hname.1
  · rintro ⟨w, rest, hsplit, hstarts, hbefore⟩
    obtain ⟨v, rfl⟩ : ∃ v, rest = Encoding.mark ++ v := by
      rcases Encoding.startsWithMangledName_iff.mp hstarts with
        ⟨_, behind, rfl, ⟨digits, rfl, -⟩, -⟩
      exact ⟨digits ++ behind, by rw [List.append_assoc]⟩
    have hsplit' : w ++ Encoding.mark ++ v = source.toList := by rw [hsplit, List.append_assoc]
    refine ⟨byteLength w, (mem_find_iff hfind source _).mpr ⟨w, v, hsplit', rfl⟩, ?_⟩
    rw [isMangledNameAt_eq hsplit', beq_iff_eq, hstarts, Bool.and_true]
    cases hlast : w.getLast? with
    | none => rfl
    | some ch => simpa [hlast] using hbefore

end Slicing

/-!
## Detection
-/

namespace Encoding

/-- Among the maximal runs of characters that may belong to identifiers there is a mangled name
exactly when one is detected. A search among the bytes comes to the same answer, and never asks for
a slice that does not exist. -/
theorem hasMangledName_exact {find : (bytes needle : List UInt8) → List Nat}
    (hfind : FindsOccurrences find) (text : String) :
    Slicing.hasMangledName find text = some (hasMangledName text) ∧
      (hasMangledName text = true ↔
        ∃ run, IsRunOf Text.isIdentifierPart text.toList run ∧ IsMangledName run) :=
  ⟨Slicing.hasMangledName_eq hfind text, hasMangledName_iff⟩

/-- The first two marks stand in one run, and the third one behind a character of three bytes. -/
theorem hasMangledName_exact_afterEuro :
    FindsOccurrences occurrences ∧
      occurrences (bytesOf "_0x1_0x2g €_0xaF") (bytesOf "_0x") = [0, 4, 13] ∧
      Slicing.hasMangledName occurrences "_0x1_0x2g €_0xaF" = some true ∧
      ∃ run, IsRunOf Text.isIdentifierPart "_0x1_0x2g €_0xaF".toList run ∧ IsMangledName run := by
  obtain ⟨hsearch, hruns⟩ :=
    hasMangledName_exact findsOccurrences_occurrences "_0x1_0x2g €_0xaF"
  have hdetected : hasMangledName "_0x1_0x2g €_0xaF" = true := by decide +kernel
  exact ⟨findsOccurrences_occurrences, by decide +kernel, hsearch.trans (congrArg some hdetected),
    hruns.mp hdetected⟩

end Encoding
end Untangle
