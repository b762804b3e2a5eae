import Untangle.Printing.Expression
import Untangle.Proofs.Token.Words

/-!
# Writing words

A layout is followed word by word. What it writes is one text at every indentation, and in front of
any text that does not go on with its last word it spells the words.
-/

namespace Untangle

variable {chars chars' rest : List Char} {w : Word} {ws ws' after : List Word}
  {ends ends' : List Char → Prop} {s : String}

/-!
## Ends of words
-/

/-- Any text may follow. -/
def Anything (_ : List Char) : Prop :=
  True

/-- Any text may follow that does not go on with a name. -/
def NameEnds (rest : List Char) : Prop :=
  ∀ ch ∈ rest.head?, continuesName ch = false

theorem nameEnds_cons {ch : Char} (h : continuesName ch = false) : NameEnds (ch :: rest) := by
  intro next hnext
  obtain rfl := Option.some.inj hnext
  exact h

/-- The punctuators that no longer one starts with, as far as printed texts need them. -/
def finalMarks : List Punctuator :=
  [.openBrace, .closeBrace, .openParen, .closeParen, .semicolon, .comma, .colon, .increment,
    .decrement]

theorem goesOn_of_mem_finalMarks {p : Punctuator} (hp : p ∈ finalMarks) (ch : Char) :
    p.goesOn ch = false := by
  have hlonger : ∀ p ∈ finalMarks, p ≠ .divide ∧ ∀ q ∈ Punctuator.longestFirst,
      p.text.toList.isPrefixOf q.text.toList = true →
        q.text.toList.length = p.text.toList.length := by
    decide +kernel
  rw [Punctuator.goesOn, Bool.or_eq_false_iff]
  refine ⟨by simp [(hlonger p hp).1], List.any_eq_false.mpr fun q hq hprefix => ?_⟩
  rcases List.isPrefixOf_iff_prefix.mp hprefix with ⟨more, hmore⟩
  have hlength := (hlonger p hp).2 q hq
    (List.isPrefixOf_iff_prefix.mpr ⟨ch :: more, by rw [← hmore, List.append_assoc]; rfl⟩)
  rw [← hmore] at hlength
  simp at hlength

theorem endsBefore_of_mem_finalMarks {p : Punctuator} (hp : p ∈ finalMarks) (rest : List Char) :
    (Word.mark p).EndsBefore rest :=
  fun ch _ => goesOn_of_mem_finalMarks hp ch

theorem goesOn_space (p : Punctuator) : p.goesOn ' ' = false := by
  have hall : ∀ p ∈ Punctuator.longestFirst, p.goesOn ' ' = false := by decide +kernel
  exact hall p (mem_longestFirst p)

theorem continuesName_space : continuesName ' ' = false := by
  decide +kernel

theorem Word.Proper.endsBefore_space (hw : w.Proper) (rest : List Char) :
    w.EndsBefore (' ' :: rest) := by
  intro ch hch
  obtain rfl := Option.some.inj hch
  cases hw with
  | name name => exact continuesName_space
  | keyword k => exact continuesName_space
  | mark hp => exact goesOn_space _
  | attached hp => exact goesOn_space _

/-!
## Texts
-/

theorem Spells.spaces {gap : List Char} (h : Spells chars ws) (hgap : gap.all (· == ' ') = true) :
    Spells (gap ++ chars) ws := by
  have hall : gap.all isGap = true := by
    simp only [List.all_eq_true, isGap, Bool.or_eq_true] at hgap ⊢
    exact fun ch hch => .inl (hgap ch hch)
  cases h with
  | done hgap' => exact .done (by rw [List.all_append, hall, hgap']; rfl)
  | word hw hgap' hattached hend hrest =>
      rw [← List.append_assoc, ← List.append_assoc]
      refine .word hw (by rw [List.all_append, hall, hgap']; rfl) (fun hw => ?_) hend hrest
      rw [List.all_append, hgap, hattached hw]
      rfl

theorem Spells.line (h : Spells chars ws) (hws : ∀ w ∈ ws.head?, w.isAttached = false) :
    Spells ('\n' :: chars) ws := by
  cases h with
  | done hgap =>
      have hgap' : ('\n' :: chars).all isGap = true := by simpa [isGap] using hgap
      exact .done hgap'
  | @word gap rest w ws hw hgap hattached hend hrest =>
      have hgap' : ('\n' :: gap).all isGap = true := by simpa [isGap] using hgap
      refine .word hw hgap' (fun hw => ?_) hend hrest
      cases hw.symm.trans (hws w rfl)

/-- The characters spell the words, and what follows them is spelled as by itself. -/
def Continues (chars : List Char) (ws : List Word) (ends : List Char → Prop) : Prop :=
  ∀ ⦃rest after⦄, ends rest → Spells rest after → Spells (chars ++ rest) (ws ++ after)

theorem continues_nil : Continues [] [] ends :=
  fun _ _ _ h => h

theorem continues_word (hw : w.Proper) : Continues w.text.toList [w] w.EndsBefore :=
  fun _ _ hend h => @Spells.word [] _ _ _ hw rfl (fun _ => rfl) hend h

theorem Continues.append (h : Continues chars ws ends) (h' : Continues chars' ws' ends')
    (hends : ∀ rest, ends (chars' ++ rest)) : Continues (chars ++ chars') (ws ++ ws') ends' := by
  intro rest after hrest hspells
  rw [List.append_assoc, List.append_assoc]
  exact h (hends rest) (h' hrest hspells)

theorem Continues.mono (h : Continues chars ws ends) (hends : ∀ rest, ends' rest → ends rest) :
    Continues chars ws ends' :=
  fun _ _ hrest hspells => h (hends _ hrest) hspells

/-- A word and then more text. -/
theorem Continues.cons (h : Continues chars ws ends) (hw : w.Proper)
    (hend : ∀ rest, w.EndsBefore (chars ++ rest)) :
    Continues (w.text.toList ++ chars) (w :: ws) ends :=
  (continues_word hw).append h hend

theorem Continues.space (h : Continues chars ws ends) : Continues (' ' :: chars) ws ends :=
  fun _ _ hrest hspells => @Spells.spaces _ _ [' '] (h hrest hspells) rfl

theorem continues_space : Continues " ".toList [] Anything :=
  continues_nil.space

/-!
## Layouts
-/

namespace Layout

variable {L M : Layout}

def Page.OnlySpaces (s : String) : Prop :=
  s.toList.all (· == ' ') = true

/-- The layout writes one text that starts with the first of the words and spells all of them. -/
structure WritesAt (L : Layout) (unit indentation : String) (ws : List Word)
    (ends : List Char → Prop) (chars : List Char) : Prop where
  ne_nil : chars ≠ []
  starts : ∀ w ∈ ws.head?, ∃ more, chars = w.text.toList ++ more
  writeTo : ∀ page, L.writeTo unit indentation page = page.put indentation (String.ofList chars)
  continues : Continues chars ws ends

def Writes (L : Layout) (ws : List Word) (ends : List Char → Prop) : Prop :=
  ∀ ⦃unit indentation⦄, Page.OnlySpaces unit → Page.OnlySpaces indentation →
    ∃ chars, L.WritesAt unit indentation ws ends chars

theorem Page.put_put {indentation : String} (hchars : chars ≠ []) (chars' : List Char)
    (page : Page) :
    (page.put indentation (String.ofList chars)).put indentation (String.ofList chars') =
      page.put indentation (String.ofList (chars ++ chars')) := by
  obtain ⟨written, atLineStart⟩ := page
  have hisEmpty : ∀ {cs : List Char}, cs ≠ [] → (String.ofList cs).isEmpty = false := by
    intro cs hcs
    simpa [String.isEmpty_iff] using hcs
  by_cases hempty : chars' = []
  · subst hempty
    cases atLineStart <;> simp [put, hisEmpty hchars]
  · have happend : chars ++ chars' ≠ [] := by simp [hchars]
    cases atLineStart <;>
      simp only [put, hisEmpty hchars, hisEmpty hempty, hisEmpty happend, if_true,
        Bool.false_eq_true, if_false, String.append_assoc, ← String.ofList_append]

theorem Writes.mono (h : L.Writes ws ends) (hends : ∀ rest, ends' rest → ends rest) :
    L.Writes ws ends' := by
  intro unit indentation hunit hindentation
  rcases h hunit hindentation with ⟨chars, hchars⟩
  exact ⟨chars, hchars.ne_nil, hchars.starts, hchars.writeTo, hchars.continues.mono hends⟩

theorem writes_text (hs : s ≠ "")
    (hstarts : ∀ w ∈ ws.head?, ∃ more, s.toList = w.text.toList ++ more)
    (h : Continues s.toList ws ends) : (text s).Writes ws ends := by
  intro unit indentation _ _
  refine ⟨s.toList, by simpa using hs, hstarts, fun page => ?_, h⟩
  rw [String.ofList_toList]
  rfl

theorem writes_word {w : Word} (hw : w.Proper) (hne : w.text ≠ "") :
    (text w.text).Writes [w] w.EndsBefore := by
  refine writes_text hne (fun w' hw' => ?_) (continues_word hw)
  obtain rfl := Option.some.inj hw'
  exact ⟨[], (List.append_nil _).symm⟩

theorem Writes.append (h : L.Writes ws ends) (h' : M.Writes ws' ends') (hws : ws ≠ [])
    (hends : ∀ w ∈ ws'.head?, ∀ more, ends (w.text.toList ++ more)) (hws' : ws' ≠ []) :
    (L ++ M).Writes (ws ++ ws') ends' := by
  intro unit indentation hunit hindentation
  rcases h hunit hindentation with ⟨chars, hchars⟩
  rcases h' hunit hindentation with ⟨chars', hchars'⟩
  refine ⟨chars ++ chars', ?_, ?_, ?_, ?_⟩
  · simp [hchars.ne_nil]
  · intro w hw
    rw [List.head?_append_of_ne_nil _ hws] at hw
    rcases hchars.starts w hw with ⟨more, hmore⟩
    exact ⟨more ++ chars', by rw [hmore, List.append_assoc]⟩
  · intro page
    refine (congrArg (M.writeTo unit indentation) (hchars.writeTo page)).trans ?_
    rw [hchars'.writeTo, Page.put_put hchars.ne_nil]
  · obtain ⟨w, ws', rfl⟩ := List.exists_cons_of_ne_nil hws'
    rcases hchars'.starts w rfl with ⟨more, hmore⟩
    refine hchars.continues.append hchars'.continues fun rest => ?_
    rw [hmore, List.append_assoc]
    exact hends w rfl _

theorem Writes.appendText (h : L.Writes ws ends) (hs : Continues s.toList ws' ends')
    (hws : ws ≠ []) (hends : ∀ rest, ends (s.toList ++ rest)) :
    (L ++ text s).Writes (ws ++ ws') ends' := by
  intro unit indentation hunit hindentation
  rcases h hunit hindentation with ⟨chars, hchars⟩
  refine ⟨chars ++ s.toList, ?_, ?_, ?_, hchars.continues.append hs hends⟩
  · simp [hchars.ne_nil]
  · intro w hw
    rw [List.head?_append_of_ne_nil _ hws] at hw
    rcases hchars.starts w hw with ⟨more, hmore⟩
    exact ⟨more ++ s.toList, by rw [hmore, List.append_assoc]⟩
  · intro page
    refine (congrArg (fun page => page.put indentation s) (hchars.writeTo page)).trans ?_
    have hput : (page.put indentation (String.ofList chars)).put indentation
        (String.ofList s.toList) = _ := Page.put_put hchars.ne_nil s.toList page
    rwa [String.ofList_toList] at hput

theorem Writes.congr (h : L.Writes ws ends)
    (heq : ∀ unit indentation page,
      M.writeTo unit indentation page = L.writeTo unit indentation page) :
    M.Writes ws ends := by
  intro unit indentation hunit hindentation
  rcases h hunit hindentation with ⟨chars, hchars⟩
  exact ⟨chars, hchars.ne_nil, hchars.starts,
    fun page => (heq _ _ page).trans (hchars.writeTo page), hchars.continues⟩

end Layout
end Untangle
