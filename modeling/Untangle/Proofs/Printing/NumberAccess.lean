import Untangle.Printing.Program
import Untangle.Proofs.Token.Numeral
import Untangle.Proofs.Tree.WellFormed

/-!
# Members of number literals

The dot of a member access may be read as part of the number in front of it. The printer encloses
a number in parentheses if its text consists of digits, which misses integers with separators.
-/

namespace Untangle

open Cursor

variable {f : Forest} {i object key : NodeId} {value : Float} {raw name : String}
  {inChain : Bool} {style : Style}

/-!
## Printing
-/

namespace Layout

@[simp]
theorem written_text (unit s : String) (page : Page) :
    (writeTo unit (.text s) "" page).written = page.written ++ s := by
  rcases page with ⟨written, atLineStart⟩
  rw [writeTo, Page.put]
  split
  · rename_i hempty
    rw [String.isEmpty_iff.mp hempty, String.append_empty]
  · split
    · rw [String.append_empty]
    · rfl

@[simp]
theorem writeTo_append (unit indentation : String) (first second : Layout) (page : Page) :
    writeTo unit (first ++ second) indentation page =
      writeTo unit second indentation (writeTo unit first indentation page) :=
  rfl

end Layout

namespace Forest

theorem isIntegerLiteral_of_number
    (hobject : f.node? (some object) = some (.number value (some raw))) :
    f.isIntegerLiteral (some object) = raw.toList.all Char.isDigit := by
  simp [isIntegerLiteral, satisfies, hobject, numberText]

/-- The number is enclosed in parentheses if its text consists of digits. -/
def numberOwner (raw : String) : String :=
  if raw.toList.all Char.isDigit then "(" ++ raw ++ ")" else raw

theorem not_primary_lt (minimum : Precedence) : ¬ Precedence.primary < minimum := by
  cases minimum <;> decide

theorem layout_of_node? {fuel : Nat} {quotes : Text.QuoteStyle} {place : Place} {n : Node Slot}
    (hi : f.node? (some i) = some n) :
    ∃ c, c.node = n ∧ f.layout quotes (fuel + 1) place (some i) =
      Printer.cell ⟨f, quotes, f.layout quotes fuel⟩ place c := by
  rcases Option.map_eq_some_iff.mp hi with ⟨c, hc, hnode⟩
  refine ⟨c, hnode, ?_⟩
  rw [layout, hc]

theorem layout_number {fuel : Nat} {quotes : Text.QuoteStyle} {place : Place}
    (hobject : f.node? (some object) = some (.number value (some raw))) :
    f.layout quotes (fuel + 1) place (some object) =
      if place.isWrapped then .parenthesized (.text raw) else .text raw := by
  rcases layout_of_node? hobject with ⟨c, hnode, hlayout⟩
  have hparentheses : Printer.needsParentheses f place c = place.isWrapped := by
    simp [Printer.needsParentheses, isAmbiguousStart, Printer.isInOperator, hnode,
      Node.precedence, not_primary_lt]
  rw [hlayout, Printer.cell, hparentheses, hnode]
  rfl

theorem layout_name {fuel : Nat} {quotes : Text.QuoteStyle} {place : Place}
    (hkey : f.node? (some key) = some (.name .identifier name))
    (hstart : place.opensStatement = false) (hwrapped : place.isWrapped = false) :
    f.layout quotes (fuel + 1) place (some key) = .text name := by
  rcases layout_of_node? hkey with ⟨c, hnode, hlayout⟩
  have hparentheses : Printer.needsParentheses f place c = false := by
    simp [Printer.needsParentheses, Printer.isInOperator, hnode, hstart, hwrapped,
      Node.precedence, not_primary_lt]
  rw [hlayout, Printer.cell, hparentheses, hnode]
  rfl

/-- The text of a member of a number literal. -/
theorem print_numberAccess
    (hi : f.node? (some i) = some (.access .property (some object) (some key) false inChain))
    (hobject : f.node? (some object) = some (.number value (some raw)))
    (hkey : f.node? (some key) = some (.name .identifier name)) :
    f.print style (some i) = numberOwner raw ++ "." ++ name := by
  rcases layout_of_node? hi with ⟨c, hnode, hlayout⟩
  have hparentheses : Printer.needsParentheses f (.enclosed .comma) c = false := by
    simp [Printer.needsParentheses, Printer.isInOperator, Place.enclosed, hnode,
      Node.precedence]
    decide
  have hlink : f.isChainLink (some object) = false := by
    simp [isChainLink, satisfies, hobject]
  obtain ⟨fuel, hsize⟩ := Nat.exists_eq_add_one.mpr (Nat.zero_lt_of_lt (lt_size_of_node? hi))
  rw [print, hlayout, Printer.cell, hparentheses, hnode, if_neg Bool.false_ne_true, hsize]
  simp only [Printer.plain, Printer.propertyAccess, Printer.chainObject, Printer.propertyName,
    isIntegerLiteral_of_number hobject, layout_number hobject, hlink]
  rw [layout_name hkey rfl rfl]
  unfold numberOwner
  by_cases hdigits : raw.toList.all Char.isDigit
  · simp [hdigits, Place.wrappedIf, Layout.parenthesized, Layout.render, Layout.Page.blank,
      String.append_assoc]
  · simp [hdigits, Place.wrappedIf, Layout.render, Layout.Page.blank]

end Forest

/-!
## Reading the text back
-/

/-- The token that a scanner finds for the number in front of a dot. -/
def ownerToken (raw text : String) : Token :=
  if raw.toList.all Char.isDigit then (Scanner.ofString text).scan.scan.token
  else (Scanner.ofString text).scan.token

/-- What stands behind the number. -/
def ownerRest (raw name : String) : String :=
  (if raw.toList.all Char.isDigit then ")" else "") ++ "." ++ name

section Owner

variable {lexeme : Lexeme} {d : Cursor}

theorem scan_inside {s : Scanner} {before : Nat} {stop : Char} {after : List Char}
    (hnext : s.token.next = (Cursor.ofString raw).inside before (stop :: after))
    (hstart : StartsNumeral raw.toList) (hstop : Stops stop)
    (hwhole : stop = '.' → ¬ EndsInWhole (.ofString raw))
    (hread : readNumber (.ofString raw) = .ok lexeme d) :
    s.scan.token.toLexeme = lexeme ∧ s.scan.token.next = d.inside before (stop :: after) := by
  have hscan : StartsNumeral s.token.next.rest := by
    rw [hnext]
    exact hstart.append _
  have hnumber := @readNumber_inside _ _ before after _ hstop hwhole _ hread
  rcases Scanner.scan_of_startsNumeral hscan with ⟨hlexeme, hbehind⟩
  rw [hlexeme, hbehind, hnext, hnumber]
  exact ⟨rfl, rfl⟩

/-- A closing parenthesis ends every number. -/
theorem ownerToken_of_digits (hdigits : raw.toList.all Char.isDigit)
    (hstart : StartsNumeral raw.toList) (hread : readNumber (.ofString raw) = .ok lexeme d)
    (hend : d.rest = []) :
    (ownerToken raw (Forest.numberOwner raw ++ "." ++ name)).toLexeme = lexeme ∧
      (ownerToken raw (Forest.numberOwner raw ++ "." ++ name)).next.rest =
        (ownerRest raw name).toList := by
  have htext : (Forest.numberOwner raw ++ "." ++ name).toList =
      '(' :: (raw.toList ++ ')' :: '.' :: name.toList) := by
    simp [Forest.numberOwner, hdigits]
  have hopen : (Scanner.ofString (Forest.numberOwner raw ++ "." ++ name)).scan.token.next =
      (Cursor.ofString raw).inside 1 (')' :: '.' :: name.toList) :=
    Scanner.scan_openParen htext
  rcases scan_inside hopen hstart (Or.inr (Or.inl rfl)) (fun hdot => by cases hdot) hread with
    ⟨hlexeme, hbehind⟩
  rw [ownerToken, if_pos hdigits, hlexeme, hbehind]
  refine ⟨rfl, ?_⟩
  simp [Cursor.inside, hend, ownerRest, hdigits]

theorem next_ofString_number (hdigits : ¬ raw.toList.all Char.isDigit) :
    (Scanner.ofString (Forest.numberOwner raw ++ "." ++ name)).token.next =
      (Cursor.ofString raw).inside 0 ('.' :: name.toList) := by
  simp [Scanner.ofString, Cursor.ofString, Cursor.inside, Forest.numberOwner, hdigits]

/-- A dot ends every number but a decimal integer. -/
theorem ownerToken_of_not_endsInWhole (hdigits : ¬ raw.toList.all Char.isDigit)
    (hwhole : ¬ EndsInWhole (.ofString raw))
    (hstart : StartsNumeral raw.toList) (hread : readNumber (.ofString raw) = .ok lexeme d)
    (hend : d.rest = []) :
    (ownerToken raw (Forest.numberOwner raw ++ "." ++ name)).toLexeme = lexeme ∧
      (ownerToken raw (Forest.numberOwner raw ++ "." ++ name)).next.rest =
        (ownerRest raw name).toList := by
  rcases scan_inside (next_ofString_number hdigits) hstart (Or.inl rfl) (fun _ => hwhole) hread
    with ⟨hlexeme, hbehind⟩
  rw [ownerToken, if_neg hdigits, hlexeme, hbehind]
  refine ⟨rfl, ?_⟩
  simp [Cursor.inside, hend, ownerRest, hdigits]

/-- A decimal integer takes the dot. -/
theorem ownerToken_of_endsInWhole (hdigits : ¬ raw.toList.all Char.isDigit)
    (hwhole : EndsInWhole (.ofString raw)) (hstart : StartsNumeral raw.toList) :
    (ownerToken raw (Forest.numberOwner raw ++ "." ++ name)).next.rest ≠
      (ownerRest raw name).toList := by
  intro heq
  have hnext := @next_ofString_number raw name hdigits
  have hscan : StartsNumeral
      (Scanner.ofString (Forest.numberOwner raw ++ "." ++ name)).token.next.rest := by
    rw [hnext]
    exact hstart.append _
  have hlt := @length_readNumber_lt _ 0 name.toList hwhole
  rw [ownerToken, if_neg hdigits, (Scanner.scan_of_startsNumeral hscan).2, hnext] at heq
  rw [heq] at hlt
  simp [ownerRest, hdigits] at hlt

end Owner

/-- The number in front of a dot is read back, and nothing more than the number, unless it is a
decimal integer with separators. -/
theorem numberAccess_reads_back_iff
    (hi : f.node? (some i) = some (.access .property (some object) (some key) false inChain))
    (hobject : f.node? (some object) = some (.number value (some raw)))
    (hkey : f.node? (some key) = some (.name .identifier name))
    (hstart : StartsNumeral raw.toList) {lexeme : Lexeme} {d : Cursor}
    (hread : readNumber (.ofString raw) = .ok lexeme d) (hend : d.rest = []) :
    ((ownerToken raw (f.print style (some i))).toLexeme = lexeme ∧
      (ownerToken raw (f.print style (some i))).next.rest = (ownerRest raw name).toList) ↔
      ¬ ((∀ ch ∈ raw.toList, ch.isDigit ∨ ch = '_') ∧ '_' ∈ raw.toList) := by
  rw [Forest.print_numberAccess hi hobject hkey]
  by_cases hdigits : raw.toList.all Char.isDigit
  · refine iff_of_true (ownerToken_of_digits hdigits hstart hread hend) ?_
    rintro ⟨_, hseparator⟩
    cases List.all_eq_true.mp hdigits '_' hseparator
  · by_cases hwhole : EndsInWhole (.ofString raw)
    · have hall : ∀ ch ∈ raw.toList, ch.isDigit ∨ ch = '_' := hwhole.forall_mem
      refine iff_of_false (fun h => ownerToken_of_endsInWhole hdigits hwhole hstart h.2) ?_
      refine not_not_intro ⟨hall, ?_⟩
      by_contra hseparator
      refine hdigits (List.all_eq_true.mpr fun ch hch => (hall ch hch).resolve_right ?_)
      rintro rfl
      exact hseparator hch
    · refine iff_of_true (ownerToken_of_not_endsInWhole hdigits hwhole hstart hread hend) ?_
      rintro ⟨hall, hseparator⟩
      exact hwhole (endsInWhole_of_forall_mem hread hall hseparator)

/-- The dot behind `1_0` becomes a decimal point. -/
theorem numberAccess_reads_back_iff_separator :
    ∃ (f : Forest) (value : Float) (lexeme : Lexeme) (d : Cursor),
      f.node? (some 2) = some (.access .property (some 0) (some 1) false false) ∧
        f.node? (some 0) = some (.number value (some "1_0")) ∧
        f.node? (some 1) = some (.name .identifier "a") ∧
        readNumber (.ofString "1_0") = .ok lexeme d ∧ d.rest = [] ∧
        ¬ ((ownerToken "1_0" (f.print {} (some 2))).toLexeme = lexeme ∧
          (ownerToken "1_0" (f.print {} (some 2))).next.rest = (ownerRest "1_0" "a").toList) := by
  let leaves := ((Forest.empty.add (.number 10 (some "1_0")) 1 4).2.add (.name .identifier "a") 6 7).2
  let f := (leaves.add (.access .property (some 0) (some 1) false false) 0 7).2
  have hi : f.node? (some 2) = some (.access .property (some 0) (some 1) false false) := rfl
  have hobject : f.node? (some 0) = some (.number 10 (some "1_0")) := rfl
  have hkey : f.node? (some 1) = some (.name .identifier "a") := rfl
  obtain ⟨lexeme, d, hread, hend⟩ :
      ∃ lexeme d, readNumber (.ofString "1_0") = .ok lexeme d ∧ d.rest = [] := ⟨_, _, rfl, rfl⟩
  have hiff := @numberAccess_reads_back_iff f 2 0 1 10 "1_0" "a" false {} hi hobject hkey
    (Or.inl (by decide +kernel)) lexeme d hread hend
  refine ⟨f, 10, lexeme, d, hi, hobject, hkey, hread, hend, fun h => hiff.mp h ?_⟩
  simp

/-- A program whose text, once printed, is no program. -/
theorem not_isOk_parse_print :
    ∃ p, Program.parse "(1_0).a" = .ok p ∧ (Program.parse (p.print {})).isOk = false := by
  have hfails : (Program.parse "(1_0).a").toOption.any
      (fun p => !(Program.parse (p.print {})).isOk) = true := by
    decide +kernel
  cases hparse : Program.parse "(1_0).a" with
  | error e =>
      rw [hparse] at hfails
      cases hfails
  | ok p =>
      rw [hparse] at hfails
      refine ⟨p, rfl, ?_⟩
      simpa [Except.toOption] using hfails

end Untangle
