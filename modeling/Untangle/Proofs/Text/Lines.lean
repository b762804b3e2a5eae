import Mathlib.Data.Set.Card
import Mathlib.Order.Interval.Finset.Nat
import Untangle.Proofs.Token.Span
import Untangle.Text.Position

/-!
# Lines of a text

A line terminator is a line feed, a carriage return, or both in this order. The table of line
starts holds the ends of the terminators in increasing order, and binary search finds the last of
them that is not behind an offset. So the line of a place is told by the number of terminators that
end in front of it, and its column by the characters behind the last of them.
-/

namespace Untangle
namespace Text

open Cursor (byteLength byteLength_append takeBytes_append)

variable {text before behind w v : List Char} {base n : Nat}

/-!
## Terminators
-/

/-- A line terminator with what is in front of it and behind it. A line feed behind a carriage
return belongs to the same terminator. -/
inductive Terminates : (before mark behind : List Char) → Prop
  | lineFeed {before behind : List Char} (h : before.getLast? ≠ some '\r') :
      Terminates before ['\n'] behind
  | carriageReturn {before behind : List Char} (h : behind.head? ≠ some '\n') :
      Terminates before ['\r'] behind
  | pair {before behind : List Char} : Terminates before ['\r', '\n'] behind

/-- A line terminator at its place in a text. -/
@[ext]
structure LineEnding (text : List Char) where
  before : List Char
  mark : List Char
  behind : List Char
  split : before ++ mark ++ behind = text
  terminates : Terminates before mark behind

/-- The byte at which a terminator ends. -/
def LineEnding.offset (e : LineEnding text) : Nat :=
  byteLength (e.before ++ e.mark)

/-- The terminators that end at an offset or in front of it. -/
def lineEndingsUpTo (text : List Char) (n : Nat) : Set (LineEnding text) :=
  {e | e.offset ≤ n}

theorem mem_lineEndingsUpTo {e : LineEnding text} : e ∈ lineEndingsUpTo text n ↔ e.offset ≤ n :=
  Iff.rfl

/-- The characters between the last of these terminators, or the start of the text, and the
offset. -/
structure IsLineTo (text : List Char) (n : Nat) (before line behind : List Char) : Prop where
  split : before ++ line ++ behind = text
  reaches : byteLength (before ++ line) = n
  opened : before = [] ∨ ∃ e : LineEnding text, e.offset = byteLength before
  last : ∀ e ∈ lineEndingsUpTo text n, e.offset ≤ byteLength before

/-!
## Places
-/

theorem eq_of_byteLength_eq (h : w ++ before = v ++ behind)
    (hlength : byteLength w = byteLength v) :
    w = v := by
  rw [← takeBytes_append w before, h, hlength, takeBytes_append]

theorem prefix_of_byteLength_le (hw : w <+: text) (hv : v <+: text)
    (hle : byteLength w ≤ byteLength v) : w <+: v := by
  rcases List.prefix_or_prefix_of_prefix hw hv with hstarts | ⟨more, rfl⟩
  · exact hstarts
  · rcases hw with ⟨rest, hrest⟩
    rcases hv with ⟨rest', hrest'⟩
    have hlength := byteLength_append v more
    have heq : v ++ more = v := eq_of_byteLength_eq (hrest.trans hrest'.symm) (by omega)
    rw [heq]

theorem byteLength_lt_of_prefix (h : w <+: v) (hne : byteLength w ≠ byteLength v) :
    w.length < v.length := by
  refine Nat.lt_of_le_of_ne h.length_le fun hlength => hne ?_
  rw [h.eq_of_length hlength]

/-- A character boundary splits the text. -/
theorem split_of_isValid {source : String} (h : (⟨n⟩ : String.Pos.Raw).IsValid source) :
    ∃ before behind, before ++ behind = source.toList ∧ byteLength before = n := by
  rcases String.Pos.Raw.isValid_iff_exists_append.mp h with ⟨s, t, rfl, hoffset⟩
  refine ⟨s.toList, t.toList, String.toList_append.symm, ?_⟩
  rw [Cursor.byteLength_toList]
  exact (congrArg String.Pos.Raw.byteIdx hoffset).symm

/-!
## The table of line starts
-/

/-- A terminator ends between the two parts of a text. -/
def EndsBetween (before behind : List Char) : Prop :=
  before.getLast? = some '\n' ∨ before.getLast? = some '\r' ∧ behind.head? ≠ some '\n'

theorem endsBetween_iff :
    EndsBetween before behind ↔ ∃ w mark, w ++ mark = before ∧ Terminates w mark behind := by
  constructor
  · rintro (hlast | ⟨hlast, hhead⟩)
    · rcases List.getLast?_eq_some_iff.mp hlast with ⟨w, rfl⟩
      by_cases hreturn : w.getLast? = some '\r'
      · rcases List.getLast?_eq_some_iff.mp hreturn with ⟨v, rfl⟩
        exact ⟨v, ['\r', '\n'], by simp, .pair⟩
      · exact ⟨w, ['\n'], rfl, .lineFeed hreturn⟩
    · rcases List.getLast?_eq_some_iff.mp hlast with ⟨w, rfl⟩
      exact ⟨w, ['\r'], rfl, .carriageReturn hhead⟩
  · rintro ⟨w, mark, rfl, h⟩
    cases h with
    | lineFeed => exact .inl (by simp)
    | carriageReturn hhead => exact .inr ⟨by simp, hhead⟩
    | pair => exact .inl (by simp)

/-- The table holds the ends of the terminators. -/
theorem mem_lineStartsAfter :
    n ∈ lineStartsAfter base text ↔
      ∃ before behind, before ++ behind = text ∧ EndsBetween before behind ∧
        n = base + byteLength before := by
  induction text generalizing base with
  | nil =>
      simp only [lineStartsAfter, List.not_mem_nil, List.append_eq_nil_iff, false_iff]
      rintro ⟨_, _, ⟨rfl, rfl⟩, h, _⟩
      simp [EndsBetween] at h
  | cons ch rest ih =>
      have hhere : EndsBetween [ch] rest ↔ ch = '\n' ∨ ch = '\r' ∧ rest.head? ≠ some '\n' := by
        simp [EndsBetween]
      have hlater : (∃ before behind, before ++ behind = ch :: rest ∧ EndsBetween before behind ∧
          n = base + byteLength before) ↔
          (EndsBetween [ch] rest ∧ n = base + ch.utf8Size) ∨
            n ∈ lineStartsAfter (base + ch.utf8Size) rest := by
        rw [ih]
        constructor
        · rintro ⟨_ | ⟨first, before⟩, behind, hsplit, hends, rfl⟩
          · simp [EndsBetween] at hends
          obtain ⟨rfl, rfl⟩ := List.cons.inj hsplit
          cases before with
          | nil => exact .inl ⟨hends, by simp [byteLength]⟩
          | cons second before =>
              exact .inr ⟨second :: before, behind, rfl, by simpa [EndsBetween] using hends,
                by simp [byteLength, Nat.add_assoc]⟩
        · rintro (⟨hends, rfl⟩ | ⟨before, behind, rfl, hends, rfl⟩)
          · exact ⟨[ch], rest, rfl, hends, by simp [byteLength]⟩
          · refine ⟨ch :: before, behind, rfl, ?_, by simp [byteLength, Nat.add_assoc]⟩
            cases before with
            | nil => simp [EndsBetween] at hends
            | cons second before => simpa [EndsBetween] using hends
      rw [hlater, hhere, lineStartsAfter]
      split
      · rename_i hends
        simp [hends]
      · rename_i hends
        simp [hends]

theorem lt_of_mem_lineStartsAfter (h : n ∈ lineStartsAfter base text) : base < n := by
  rcases mem_lineStartsAfter.mp h with ⟨before, behind, -, hends, rfl⟩
  cases before with
  | nil => simp [EndsBetween] at hends
  | cons ch before =>
      have hpos := ch.utf8Size_pos
      rw [byteLength]
      omega

theorem pairwise_lineStartsAfter (base : Nat) (text : List Char) :
    (lineStartsAfter base text).Pairwise (· < ·) := by
  induction text generalizing base with
  | nil => exact .nil
  | cons ch rest ih =>
      rw [lineStartsAfter]
      split
      · exact .cons (fun n hn => lt_of_mem_lineStartsAfter hn) (ih _)
      · exact ih _

theorem pairwise_lineStarts (text : List Char) :
    (0 :: lineStartsAfter 0 text).Pairwise (· < ·) :=
  .cons (fun _ hn => lt_of_mem_lineStartsAfter hn) (pairwise_lineStartsAfter 0 text)

/-!
## Counting terminators
-/

theorem Terminates.unique {mark mark' : List Char} (h : Terminates w mark behind)
    (h' : Terminates v mark' behind) (heq : w ++ mark = v ++ mark') : w = v ∧ mark = mark' := by
  replace heq := congrArg List.reverse heq
  cases h <;> cases h' <;> simp_all [List.getLast?_eq_head?_reverse, -List.head?_reverse]
  case pair.lineFeed hlast => simp [← heq] at hlast

theorem LineEnding.offset_injective : Function.Injective (@LineEnding.offset text) := by
  intro e e' hoffset
  have hends : e.before ++ e.mark = e'.before ++ e'.mark :=
    eq_of_byteLength_eq (e.split.trans e'.split.symm) hoffset
  have hbehind : e.behind = e'.behind := by
    have hsplit := e.split.trans e'.split.symm
    rw [hends] at hsplit
    exact List.append_cancel_left hsplit
  obtain ⟨hbefore, hmark⟩ := (hbehind ▸ e.terminates).unique e'.terminates hends
  exact LineEnding.ext hbefore hmark hbehind

theorem exists_lineEnding_iff :
    (∃ e : LineEnding text, e.offset = n) ↔ n ∈ lineStartsAfter 0 text := by
  rw [mem_lineStartsAfter]
  constructor
  · rintro ⟨e, rfl⟩
    refine ⟨e.before ++ e.mark, e.behind, e.split, ?_, (Nat.zero_add _).symm⟩
    exact endsBetween_iff.mpr ⟨e.before, e.mark, rfl, e.terminates⟩
  · rintro ⟨before, behind, hsplit, hends, rfl⟩
    rcases endsBetween_iff.mp hends with ⟨w, mark, rfl, hmark⟩
    exact ⟨⟨w, mark, behind, hsplit, hmark⟩, (Nat.zero_add _).symm⟩

theorem finite_lineEndingsUpTo (text : List Char) (n : Nat) : (lineEndingsUpTo text n).Finite :=
  (Set.finite_Iic n).preimage LineEnding.offset_injective.injOn

theorem ncard_lineEndingsUpTo (text : List Char) (n : Nat) :
    (lineEndingsUpTo text n).ncard = ((lineStartsAfter 0 text).filter (· ≤ n)).length := by
  have himage : LineEnding.offset '' lineEndingsUpTo text n =
      ((lineStartsAfter 0 text).filter (· ≤ n)).toFinset := by
    ext m
    simp only [Set.mem_image, mem_lineEndingsUpTo, List.coe_toFinset, Set.mem_ofPred_eq,
      List.mem_filter, decide_eq_true_eq, ← exists_lineEnding_iff]
    constructor
    · rintro ⟨e, he, rfl⟩
      exact ⟨⟨e, rfl⟩, he⟩
    · rintro ⟨⟨e, rfl⟩, he⟩
      exact ⟨e, he, rfl⟩
  have hnodup : ((lineStartsAfter 0 text).filter (· ≤ n)).Nodup :=
    ((pairwise_lineStartsAfter 0 text).imp Nat.ne_of_lt).filter _
  rw [← Set.ncard_image_of_injective _ LineEnding.offset_injective, himage, Set.ncard_coe_finset,
    List.toFinset_card_of_nodup hnodup]

/-!
## Binary search
-/

/-- What an answer says about a table in increasing order. -/
def Place.Answers (table : Array Nat) (value : Nat) : Place → Prop
  | found index => ∃ h : index < table.size, table[index] = value
  | missing index => index ≤ table.size ∧
      (∀ (i : Nat) (h : i < table.size), i < index → table[i] < value) ∧
      ∀ (i : Nat) (h : i < table.size), index ≤ i → value < table[i]

theorem searchBetween_answers {table : Array Nat} {value low high : Nat} {hhigh : high ≤ table.size}
    (hsorted : ∀ (i j : Nat) (hi : i < table.size) (hj : j < table.size), i < j →
      table[i] < table[j])
    (hle : low ≤ high)
    (hbelow : ∀ (i : Nat) (h : i < table.size), i < low → table[i] < value)
    (habove : ∀ (i : Nat) (h : i < table.size), high ≤ i → value < table[i]) :
    (searchBetween table value low high hhigh).Answers table value := by
  fun_induction searchBetween table value low high hhigh with
  | case1 low high hhigh hlow middle hmiddle heq => exact ⟨by omega, heq⟩
  | case2 low high hhigh hlow middle hmiddle hne hlt ih =>
      refine ih (by omega) (fun i hi hi' => ?_) habove
      rcases Nat.lt_or_eq_of_le (Nat.le_of_lt_succ hi') with hi' | rfl
      · exact (hsorted i middle hi (by omega) hi').trans hlt
      · exact hlt
  | case3 low high hhigh hlow middle hmiddle hne hlt ih =>
      refine ih (by omega) hbelow (fun i hi hi' => ?_)
      have hvalue : value < table[middle] := by omega
      rcases Nat.lt_or_eq_of_le hi' with hi' | rfl
      · exact hvalue.trans (hsorted middle i (by omega) hi hi')
      · exact hvalue
  | case4 low high hhigh hlow =>
      exact ⟨by omega, hbelow, fun i hi hi' => habove i hi (by omega)⟩

theorem search_answers {table : Array Nat} (value : Nat)
    (hsorted : table.toList.Pairwise (· < ·)) : (search table value).Answers table value := by
  refine searchBetween_answers ?_ (Nat.zero_le _) (by omega) (by omega)
  intro i j hi hj hij
  exact List.pairwise_iff_getElem.mp hsorted i j hi hj hij

/-- The table is split at the last line that starts at the offset or in front of it. -/
theorem lineIndex_splits {starts : List Nat} (hsorted : (0 :: starts).Pairwise (· < ·)) (n : Nat) :
    ∃ front start back, 0 :: starts = front ++ start :: back ∧
      front.length = lineIndex (0 :: starts).toArray n ∧ start ≤ n ∧ ∀ m ∈ back, n < m := by
  have hsplit : ∀ (i : Nat) (hi : i < (0 :: starts).length), (0 :: starts)[i] ≤ n →
      (∀ (j : Nat) (hj : j < (0 :: starts).length), i < j → n < (0 :: starts)[j]) →
      ∃ front start back, 0 :: starts = front ++ start :: back ∧ front.length = i ∧ start ≤ n ∧
        ∀ m ∈ back, n < m := by
    intro i hi hle hback
    refine ⟨(0 :: starts).take i, (0 :: starts)[i], (0 :: starts).drop (i + 1), ?_,
      List.length_take_of_le hi.le, hle, fun m hm => ?_⟩
    · rw [← List.drop_eq_getElem_cons hi, List.take_append_drop]
    · rcases List.getElem_of_mem hm with ⟨j, hj, rfl⟩
      rw [List.getElem_drop]
      exact hback _ _ (by omega)
  have hanswers : (search (0 :: starts).toArray n).Answers (0 :: starts).toArray n :=
    search_answers n hsorted
  unfold lineIndex
  cases hsearch : search (0 :: starts).toArray n with
  | found index =>
      rw [hsearch] at hanswers
      rcases hanswers with ⟨hindex, heq⟩
      refine hsplit index hindex (Nat.le_of_eq heq) fun j hj hij => ?_
      exact heq ▸ List.pairwise_iff_getElem.mp hsorted index j hindex hj hij
  | missing index =>
      rw [hsearch] at hanswers
      rcases hanswers with ⟨hindex, hbelow, habove⟩
      have hpos : 0 < index := by
        by_contra hzero
        exact Nat.not_lt_zero n (habove 0 (by simp) (by omega))
      have hsize : (0 :: starts).toArray.size = (0 :: starts).length := rfl
      refine hsplit (index - 1) (by omega) (hbelow (index - 1) (by omega) (by omega)).le ?_
      exact fun j hj hij => habove j hj (by omega)

/-!
## Columns
-/

theorem charsBefore?_append (w v : List Char) :
    charsBefore? (w ++ v) (byteLength w) = some w.length := by
  induction w with
  | nil => simp [byteLength, charsBefore?]
  | cons ch w ih =>
      have hpos := ch.utf8Size_pos
      have hne : byteLength (ch :: w) ≠ 0 := by
        rw [byteLength]
        omega
      rw [List.cons_append, charsBefore?.eq_3 _ _ _ hne, byteLength, if_neg (by omega),
        Nat.add_sub_cancel_left, ih]
      rfl

theorem charsBetween_eq {source : String} (h : w ++ v ++ behind = source.toList) :
    charsBetween source (byteLength w) (byteLength (w ++ v)) = v.length := by
  have hstart : charsBefore? source.toList (byteLength w) = some w.length := by
    rw [← h, List.append_assoc, charsBefore?_append]
  have hstop : charsBefore? source.toList (byteLength (w ++ v)) = some (w ++ v).length := by
    rw [← h, charsBefore?_append]
  rw [charsBetween, hstart, hstop]
  simp

/-!
## Positions
-/

/-- The order of places in a text: by line, then by column. -/
def Position.Before (p q : Position) : Prop :=
  p.line < q.line ∨ p.line = q.line ∧ p.column < q.column

/-- The line is the number of terminators that end in front of the place, the column the number of
characters behind the last of them, each counted from one. -/
theorem position_eq {source : String} (h : before ++ behind = source.toList) :
    ∃ start line, IsLineTo source.toList (byteLength before) start line behind ∧
      position source (byteLength before) =
        ⟨(lineEndingsUpTo source.toList (byteLength before)).ncard + 1, line.length + 1⟩ := by
  have hsorted := pairwise_lineStarts source.toList
  rcases lineIndex_splits hsorted (byteLength before) with
    ⟨front, n, back, hsplit, hfront, hle, hback⟩
  have hmem : n = 0 ∨ n ∈ lineStartsAfter 0 source.toList := by
    have hn : n ∈ 0 :: lineStartsAfter 0 source.toList := by simp [hsplit]
    exact List.mem_cons.mp hn
  have hlt : ∀ m ∈ front, m < n := by
    rw [hsplit] at hsorted
    exact fun m hm => (List.pairwise_append.mp hsorted).2.2 m hm n List.mem_cons_self
  have hstart : ∃ start, start <+: source.toList ∧ byteLength start = n ∧
      (start = [] ∨ ∃ e : LineEnding source.toList, e.offset = byteLength start) := by
    rcases hmem with rfl | hn
    · exact ⟨[], List.nil_prefix, rfl, .inl rfl⟩
    · rcases exists_lineEnding_iff.mpr hn with ⟨e, rfl⟩
      exact ⟨e.before ++ e.mark, ⟨e.behind, e.split⟩, rfl, .inr ⟨e, rfl⟩⟩
  rcases hstart with ⟨start, hstarts, rfl, hopened⟩
  rcases prefix_of_byteLength_le hstarts ⟨behind, h⟩ hle with ⟨line, rfl⟩
  refine ⟨start, line, ⟨h, rfl, hopened, fun e he => ?_⟩, ?_⟩
  · have he' : e.offset ∈ front ++ byteLength start :: back :=
      hsplit ▸ List.mem_cons_of_mem 0 (exists_lineEnding_iff.mp ⟨e, rfl⟩)
    rcases List.mem_append.mp he' with hm | hm
    · exact (hlt _ hm).le
    · rcases List.mem_cons.mp hm with hm | hm
      · exact hm.le
      · exact absurd he (Nat.not_le.mpr (hback _ hm))
  · have hfilter : (0 :: lineStartsAfter 0 source.toList).filter (· ≤ byteLength (start ++ line)) =
        front ++ [byteLength start] := by
      rw [hsplit, List.filter_append, List.filter_cons_of_pos (by simpa using hle),
        List.filter_eq_self.mpr (fun m hm => by simpa using (hlt m hm).le.trans hle),
        List.filter_eq_nil_iff.mpr (fun m hm => by simpa using hback m hm)]
    have hlength := congrArg List.length hfilter
    rw [List.filter_cons_of_pos (by simp), List.length_cons, List.length_append,
      List.length_singleton, hfront, Nat.add_right_cancel_iff] at hlength
    have hentry : (lineStarts source)[lineIndex (lineStarts source) (byteLength (start ++ line))]? =
        some (byteLength start) := by
      rw [lineStarts, ← hfront, hsplit]
      simp
    rw [ncard_lineEndingsUpTo, hlength, position]
    rw [hentry, Option.getD_some, charsBetween_eq h]
    rfl

/-- With more terminators in front of a place its line does not start earlier. -/
theorem IsLineTo.start_le {line line' behind' before' : List Char} {m : Nat}
    (h : IsLineTo text n before line behind) (h' : IsLineTo text m before' line' behind')
    (hsubset : lineEndingsUpTo text n ⊆ lineEndingsUpTo text m) :
    byteLength before ≤ byteLength before' := by
  rcases h.opened with rfl | ⟨e, he⟩
  · exact Nat.zero_le _
  · have hreaches := h.reaches
    rw [byteLength_append] at hreaches
    have hmem : e ∈ lineEndingsUpTo text n := he.le.trans (by omega)
    exact he ▸ h'.last e (hsubset hmem)

theorem IsLineTo.position_before {line line' behind' before' : List Char} {m : Nat}
    (h : IsLineTo text n before line behind) (h' : IsLineTo text m before' line' behind')
    (hlt : n < m) :
    Position.Before ⟨(lineEndingsUpTo text n).ncard + 1, line.length + 1⟩
      ⟨(lineEndingsUpTo text m).ncard + 1, line'.length + 1⟩ := by
  have hsubset : lineEndingsUpTo text n ⊆ lineEndingsUpTo text m := fun e he => le_trans he hlt.le
  have hfinite := finite_lineEndingsUpTo text m
  rcases (Set.ncard_le_ncard hsubset hfinite).lt_or_eq with hcard | hcard
  · exact .inl (Nat.succ_lt_succ hcard)
  · refine .inr ⟨congrArg (· + 1) hcard, Nat.succ_lt_succ ?_⟩
    -- No terminator ends between the two places, so both are on one line.
    have hsame := Set.eq_of_subset_of_ncard_le hsubset hcard.ge hfinite
    have hstart : byteLength before = byteLength before' :=
      le_antisymm (h.start_le h' hsubset) (h'.start_le h hsame.ge)
    obtain rfl : before = before' := by
      have hsplit : before ++ (line ++ behind) = before' ++ (line' ++ behind') := by
        rw [← List.append_assoc, ← List.append_assoc, h.split, h'.split]
      exact eq_of_byteLength_eq hsplit hstart
    have hstarts : before ++ line <+: before ++ line' := by
      refine prefix_of_byteLength_le ⟨behind, h.split⟩ ⟨behind', h'.split⟩ ?_
      rw [h.reaches, h'.reaches]
      exact hlt.le
    refine byteLength_lt_of_prefix ((List.prefix_append_right_inj _).mp hstarts) fun heq => ?_
    have hn := h.reaches
    have hm := h'.reaches
    rw [byteLength_append] at hn hm
    omega

theorem exists_isLineTo {source : String} (h : (⟨n⟩ : String.Pos.Raw).IsValid source) :
    ∃ before line behind, IsLineTo source.toList n before line behind ∧
      position source n = ⟨(lineEndingsUpTo source.toList n).ncard + 1, line.length + 1⟩ := by
  rcases split_of_isValid h with ⟨w, behind, hsplit, rfl⟩
  rcases position_eq hsplit with ⟨before, line, hline, hposition⟩
  exact ⟨before, line, behind, hline, hposition⟩

theorem position_before {source : String} {m : Nat} (h : (⟨n⟩ : String.Pos.Raw).IsValid source)
    (h' : (⟨m⟩ : String.Pos.Raw).IsValid source) (hlt : n < m) :
    (position source n).Before (position source m) := by
  rcases exists_isLineTo h with ⟨before, line, behind, hline, hposition⟩
  rcases exists_isLineTo h' with ⟨before', line', behind', hline', hposition'⟩
  rw [hposition, hposition']
  exact hline.position_before hline' hlt

/-!
### Bounds

Words that hold every offset of a text hold the table and all positions too.
-/

theorem le_of_mem_lineStarts {source : String} (h : n ∈ lineStarts source) :
    n ≤ source.utf8ByteSize := by
  have hmem : n ∈ 0 :: lineStartsAfter 0 source.toList := by simpa [lineStarts] using h
  rcases List.mem_cons.mp hmem with rfl | hmem
  · exact Nat.zero_le _
  · rcases mem_lineStartsAfter.mp hmem with ⟨before, behind, hsplit, -, rfl⟩
    rw [← Cursor.byteLength_toList, ← hsplit, byteLength_append, Nat.zero_add]
    exact Nat.le_add_right _ _

theorem ncard_lineEndingsUpTo_le (text : List Char) (n : Nat) :
    (lineEndingsUpTo text n).ncard ≤ n := by
  have hsubset : LineEnding.offset '' lineEndingsUpTo text n ⊆ Finset.Ioc 0 n := by
    rintro _ ⟨e, he, rfl⟩
    have hpos := lt_of_mem_lineStartsAfter (exists_lineEnding_iff.mp ⟨e, rfl⟩)
    exact Finset.mem_coe.mpr (Finset.mem_Ioc.mpr ⟨hpos, he⟩)
  calc (lineEndingsUpTo text n).ncard
      = (LineEnding.offset '' lineEndingsUpTo text n).ncard :=
        (Set.ncard_image_of_injective _ LineEnding.offset_injective).symm
    _ ≤ (Finset.Ioc 0 n : Set Nat).ncard := Set.ncard_le_ncard hsubset (Finset.finite_toSet _)
    _ = n := by rw [Set.ncard_coe_finset, Nat.card_Ioc, Nat.sub_zero]

theorem position_le {source : String} (h : (⟨n⟩ : String.Pos.Raw).IsValid source) :
    (position source n).line ≤ n + 1 ∧ (position source n).column ≤ n + 1 := by
  rcases exists_isLineTo h with ⟨before, line, behind, hline, hposition⟩
  have hreaches := hline.reaches
  rw [byteLength_append] at hreaches
  have hlength := Cursor.length_le_byteLength line
  rw [hposition]
  exact ⟨Nat.succ_le_succ (ncard_lineEndingsUpTo_le _ _), by dsimp only; omega⟩

/-!
### Order
-/

theorem Position.Before.ne {p q : Position} (h : p.Before q) : p ≠ q := by
  rintro rfl
  rcases h with h | ⟨-, h⟩ <;> exact Nat.lt_irrefl _ h

/-- At every character boundary the line is one more than the number of terminators that end in
front of it or there, and the column one more than the number of characters behind the last of
them. So two boundaries have different positions, in the order of the boundaries. -/
theorem position_exact {source : String} {n : Nat}
    (h : (⟨n⟩ : String.Pos.Raw).IsValid source) :
    (∃ before line behind, IsLineTo source.toList n before line behind ∧
      position source n = ⟨(lineEndingsUpTo source.toList n).ncard + 1, line.length + 1⟩) ∧
    ∀ m, (⟨m⟩ : String.Pos.Raw).IsValid source →
      (position source n = position source m → n = m) ∧
      (n < m → (position source n).Before (position source m)) := by
  refine ⟨exists_isLineTo h, fun m hm => ⟨fun hsame => ?_, position_before h hm⟩⟩
  rcases Nat.lt_trichotomy n m with hlt | heq | hlt
  · exact absurd hsame (position_before h hm hlt).ne
  · exact heq
  · exact absurd hsame.symm (position_before hm h hlt).ne

/-- Between a carriage return and the line feed that belongs to it, one terminator is in front of
the place, and two characters are behind that. -/
theorem position_exact_insidePair :
    (⟨4⟩ : String.Pos.Raw).IsValid "\ré\r\n" ∧
      (∃ before line behind, IsLineTo "\ré\r\n".toList 4 before line behind ∧
        (lineEndingsUpTo "\ré\r\n".toList 4).ncard = 1 ∧ line.length = 2) ∧
      (position "\ré\r\n" 4).Before (position "\ré\r\n" 5) := by
  have hinside : (⟨4⟩ : String.Pos.Raw).IsValid "\ré\r\n" := by decide +kernel
  have hend : (⟨5⟩ : String.Pos.Raw).IsValid "\ré\r\n" := by decide +kernel
  have hposition : position "\ré\r\n" 4 = ⟨2, 3⟩ := by decide +kernel
  obtain ⟨⟨before, line, behind, hline, hexact⟩, hothers⟩ := position_exact hinside
  obtain ⟨hline', hcolumn⟩ := Position.mk.inj (hexact.symm.trans hposition)
  exact ⟨hinside, ⟨before, line, behind, hline, Nat.succ.inj hline', Nat.succ.inj hcolumn⟩,
    (hothers 5 hend).2 (by decide)⟩

end Text
end Untangle
