import Untangle.Proofs.Grammar.Continuations
import Untangle.Proofs.Grammar.Parallel
import Untangle.Proofs.Grammar.SpannedPrograms

/-!
# The element of an array

A program may be nothing but an array literal with one element. How it was read is taken apart, up
to the assignment expression that the element is and the marks behind it.
-/

namespace Untangle

open Parse

/-!
## The two texts
-/

namespace Program

/-- An array with the text between its brackets. -/
def inBrackets (text : String) : String :=
  "[" ++ text ++ "\n];"

/-- An array with the text in parentheses between its brackets. -/
def inParentheses (text : String) : String :=
  "[(" ++ text ++ "\n)];"

end Program

namespace Scanner

variable {t : Scanner} {rest : List Char} {offset : Nat}

/-- An opening bracket or parenthesis. -/
theorem scan_opening {ch : Char} {p : Punctuator}
    (hch : ch = '[' ∧ p = .openBracket ∨ ch = '(' ∧ p = .openParen)
    (hnext : t.token.next = ⟨ch :: rest, offset⟩) (hdepths : t.depths = [])
    (herror : t.error = none) :
    t.scan.token.kind = .mark p ∧ t.scan.token.next = ⟨rest, offset + 1⟩ ∧ t.scan.depths = [] ∧
      t.scan.error = none := by
  have hskip : Gap.skip .between false t.token.next.rest t.token.next.offset =
      .token t.token.next false := by
    rw [hnext]
    rcases hch with ⟨rfl, -⟩ | ⟨rfl, -⟩
    · exact Gap.skip_between_cons nofun nofun nofun
    · exact Gap.skip_between_cons nofun nofun nofun
  have hread : readToken [] t.token.next = .ok { kind := .mark p } ⟨rest, offset + 1⟩ := by
    rw [hnext]
    rcases hch with ⟨rfl, rfl⟩ | ⟨rfl, rfl⟩ <;> rfl
  have hinner : depthsAfter [] t.token.next (.mark p) = [] := by
    rcases hch with ⟨-, rfl⟩ | ⟨-, rfl⟩ <;> simp [depthsAfter]
  rw [scan_of_skip hskip, hdepths, hread, herror]
  exact ⟨rfl, rfl, hinner, rfl⟩

/-- In front of a text that stands alone. -/
def before (text : List Char) (offset : Nat) : Scanner :=
  { token :=
      { kind := .unknown
        start := ⟨text, offset⟩
        next := ⟨text, offset⟩
        lineBreakBefore := false }
    depths := []
    error := none }

variable (text : String)

theorem toList_inBrackets :
    (Program.inBrackets text).toList = '[' :: (text.toList ++ '\n' :: bareLine) := by
  simp [Program.inBrackets, bareLine]

theorem toList_inParentheses :
    (Program.inParentheses text).toList = '[' :: '(' :: (text.toList ++ '\n' :: wrappedLine) := by
  simp [Program.inParentheses, wrappedLine]

/-- At the bracket. -/
theorem scan_inBrackets :
    (ofString (Program.inBrackets text)).scan.token.kind = .mark .openBracket ∧
      (before text.toList 1).Matches (ofString (Program.inBrackets text)).scan 0
        ('\n' :: bareLine) := by
  have hnext : (ofString (Program.inBrackets text)).token.next =
      ⟨'[' :: (text.toList ++ '\n' :: bareLine), 0⟩ := by
    rw [← toList_inBrackets]
    rfl
  obtain ⟨hkind, hnext, hdepths, herror⟩ := scan_opening (.inl ⟨rfl, rfl⟩) hnext rfl rfl
  exact ⟨hkind, hnext, hdepths, rfl, herror, Nat.one_pos⟩

/-- At the bracket and at the parenthesis. -/
theorem scan_inParentheses :
    (ofString (Program.inParentheses text)).scan.token.kind = .mark .openBracket ∧
      (ofString (Program.inParentheses text)).scan.error = none ∧
      (ofString (Program.inParentheses text)).scan.scan.token.kind = .mark .openParen ∧
      (ofString (Program.inParentheses text)).scan.scan.error = none ∧
      (before text.toList 1).Matches (ofString (Program.inParentheses text)).scan.scan 1
        ('\n' :: wrappedLine) := by
  have hnext : (ofString (Program.inParentheses text)).token.next =
      ⟨'[' :: '(' :: (text.toList ++ '\n' :: wrappedLine), 0⟩ := by
    rw [← toList_inParentheses]
    rfl
  obtain ⟨hkind, hnext, hdepths, herror⟩ := scan_opening (.inl ⟨rfl, rfl⟩) hnext rfl rfl
  obtain ⟨hkind', hnext', hdepths', herror'⟩ :=
    scan_opening (.inr ⟨rfl, rfl⟩) hnext hdepths herror
  exact ⟨hkind, herror, hkind', herror', hnext', hdepths', rfl, herror', Nat.one_pos⟩

/-- Both readings start the element alike. -/
theorem twins_element :
    Twins (ofString (Program.inBrackets text)).scan.scan
        (ofString (Program.inParentheses text)).scan.scan.scan ∨
      (ofString (Program.inBrackets text)).scan.scan.Malformed ∧
        (ofString (Program.inParentheses text)).scan.scan.scan.Malformed :=
  twins_of_matches (scan_inBrackets text).2 (scan_inParentheses text).2.2.2.2

end Scanner

/-!
## The tree around an element
-/

namespace Forest

variable {f g : Forest} {x : NodeId} {p q : Program}

/-- The program is one statement, an array literal with the element `x` of the forest. -/
def Framed (f : Forest) (x : NodeId) (p : Program) : Prop :=
  ∃ start stop start' stop' stop'' statement, ∃ h : Forest,
    (f.add (.list .arrayLiteral [some x]) start stop).2.add
      (.operand .expressionStatement (some f.size)) start' stop' = (statement, h) ∧
    h.cells.find? (isStrayShorthand h) = none ∧
    h.add (.body .program [some statement]) 0 stop'' = (p.root, p.forest)

theorem isStrayShorthand_withoutSpans (f : Forest) (c : Cell) :
    isStrayShorthand f.withoutSpans c.withoutSpan = isStrayShorthand f c := by
  unfold isStrayShorthand
  simp only [satisfies, node?_withoutSpans]
  rfl

theorem find?_isStrayShorthand_eq (h : f.withoutSpans = g.withoutSpans)
    (hnone : f.cells.find? (isStrayShorthand f) = none) :
    g.cells.find? (isStrayShorthand g) = none := by
  have hsame : ∀ f : Forest, (f.withoutSpans.cells.find? (isStrayShorthand f.withoutSpans)) =
      (f.cells.find? (isStrayShorthand f)).map Cell.withoutSpan := by
    intro f
    change (f.cells.map Cell.withoutSpan).find? _ = _
    rw [Array.find?_map]
    congr 2
    funext c
    exact isStrayShorthand_withoutSpans f c
  have hnone' := hsame g
  rw [← h, hsame f, hnone, Option.map_none] at hnone'
  exact Option.map_eq_none_iff.mp hnone'.symm

/-- The statement around an element is the same wherever it stands. -/
theorem statement_eq_of_withoutSpans {f' g' : Forest} {statement statement' : NodeId}
    {start stop start' stop' start₂ stop₂ start₂' stop₂' : Nat}
    (h : f.withoutSpans = g.withoutSpans)
    (hf : (f.add (.list .arrayLiteral [some x]) start stop).2.add
      (.operand .expressionStatement (some f.size)) start' stop' = (statement, f'))
    (hg : (g.add (.list .arrayLiteral [some x]) start₂ stop₂).2.add
      (.operand .expressionStatement (some g.size)) start₂' stop₂' = (statement', g')) :
    statement' = statement ∧ f'.withoutSpans = g'.withoutSpans := by
  have harray := (add_eq_of_withoutSpans h (.list .arrayLiteral [some x]) start stop start₂
    stop₂).2
  obtain ⟨hid, hforest⟩ := add_eq_of_withoutSpans harray
    (.operand .expressionStatement (some g.size)) start' stop' start₂' stop₂'
  rw [size_eq_of_withoutSpans h] at hf
  rw [hf, hg] at hid hforest
  exact ⟨hid.symm, hforest⟩

/-- The frame says nothing about positions. -/
theorem Framed.same (h : f.withoutSpans = g.withoutSpans) (hf : f.Framed x p)
    (hg : g.Framed x q) : q.root = p.root ∧ q.forest.withoutSpans = p.forest.withoutSpans := by
  obtain ⟨_, _, _, _, stop, statement, f', hstatement, -, hroot⟩ := hf
  obtain ⟨_, _, _, _, stop', statement', g', hstatement', -, hroot'⟩ := hg
  obtain ⟨rfl, hforest⟩ := statement_eq_of_withoutSpans h hstatement hstatement'
  have hadd := add_eq_of_withoutSpans hforest (.body .program [some statement']) 0 stop 0 stop'
  rw [hroot, hroot'] at hadd
  exact ⟨hadd.1.symm, hadd.2.symm⟩

/-- A node of the forest stays below the frame. -/
theorem Framed.node?_of_some {i : NodeId} {n : Node Slot} (hf : f.Framed x p)
    (hi : f.node? (some i) = some n) : p.forest.node? (some i) = some n := by
  obtain ⟨start, stop, start', stop', stop'', statement, h, hstatement, -, hroot⟩ := hf
  have hlt := lt_size_of_node? hi
  have hbelow := congrArg Prod.snd hstatement
  have hforest := congrArg Prod.snd hroot
  dsimp only at hbelow hforest
  have hsize : h.size = f.size + 2 := by rw [← hbelow, size_add, size_add]
  have hne : ∀ k, i ≠ f.size + k := fun k => Nat.ne_of_lt (Nat.lt_add_right k hlt)
  rw [← hforest, node?_add_of_ne (by rw [hsize]; exact hne 2), ← hbelow,
    node?_add_of_ne (by rw [size_add]; exact hne 1), node?_add_of_ne (hne 0), hi]

theorem Framed.is {i : NodeId} {pred : Node Slot → Bool} (hf : f.Framed x p)
    (hi : f.Is pred i) : p.forest.Is pred i := by
  rw [Forest.Is, Forest.satisfies, Option.any_eq_true] at hi ⊢
  obtain ⟨n, hn, hpred⟩ := hi
  exact ⟨n, hf.node?_of_some hn, hpred⟩

/-- A node is new or was there before. -/
theorem node?_of_add {n m : Node Slot} {start stop : Nat} {i : NodeId}
    (hi : (f.add n start stop).2.node? (some i) = some m) (hne : n ≠ m) :
    f.node? (some i) = some m := by
  by_cases hnew : i = f.size
  · subst hnew
    rw [node?_add_self] at hi
    exact absurd (Option.some.inj hi) hne
  · rwa [node?_add_of_ne hnew] at hi

end Forest

/-- The node stands for several elements or for none. -/
def Node.isSpreadOrHole : Node Slot → Bool
  | .operand .spread _ | .bare .omitted => true
  | _ => false

namespace Program

/-- The element of a program that is one expression statement, an array literal with one element
that is neither a spread nor a hole. -/
def element? (p : Program) : Option NodeId := do
  let .body .program [some statement] ← p.forest.node? (some p.root) | none
  let .operand .expressionStatement (some array) ← p.forest.node? (some statement) | none
  let .list .arrayLiteral [some x] ← p.forest.node? (some array) | none
  if p.forest.satisfies (some x) Node.isSpreadOrHole then none else some x

theorem nodes_of_element? {p : Program} {x : NodeId} (h : p.element? = some x) :
    ∃ statement array,
      p.forest.node? (some p.root) = some (.body .program [some statement]) ∧
      p.forest.node? (some statement) = some (.operand .expressionStatement (some array)) ∧
      p.forest.node? (some array) = some (.list .arrayLiteral [some x]) ∧
      p.forest.satisfies (some x) Node.isSpreadOrHole = false := by
  obtain ⟨root, hroot, h⟩ := Option.bind_eq_some_iff.mp h
  split at h
  · rename_i statement
    obtain ⟨st, hst, h⟩ := Option.bind_eq_some_iff.mp h
    split at h
    · rename_i array
      obtain ⟨a, ha, h⟩ := Option.bind_eq_some_iff.mp h
      split at h
      · split at h
        · cases h
        · rename_i hplain
          cases h
          exact ⟨statement, array, hroot, hst, ha, Bool.eq_false_iff.mpr hplain⟩
      · cases h
    · cases h
  · cases h

end Program

/-!
## Marks behind the element
-/

namespace Scanner

variable {c c₁ c₂ : Scanner}

/-- Nothing but a bracket stands in front of the end, and perhaps a semicolon behind it. -/
structure EndsProgram (c : Scanner) : Prop where
  kind : c.token.kind = .mark .closeBracket
  next : ¬ c.scan.Malformed
  ends : c.scan.token.kind = .endOfFile ∨
    ¬ c.scan.scan.Malformed ∧ c.scan.scan.token.kind = .endOfFile

theorem Twins.kind_ne_end (h : Twins c₁ c₂) : c₁.token.kind ≠ .endOfFile := by
  cases h with
  | within h =>
      obtain ⟨s, hs, rfl, -⟩ := h
      exact hs.more
  | behind h₁ h₂ =>
      rw [h₁.kind_bareLine]
      nofun

theorem Within.scan_of_not_malformed (h : Within c₁ c₂) (hknown : ¬ c₁.scan.Malformed) :
    Twins c₁.scan c₂.scan := by
  rcases h.scan with htwins | ⟨hmalformed, -⟩
  · exact htwins
  · exact absurd hmalformed hknown

/-- The bracket in front of the end is the one behind the element. -/
theorem Twins.behind_of_endsProgram (h : Twins c₁ c₂) (hends : c₁.EndsProgram) :
    c₁.Behind bareLine ∧ c₂.Behind wrappedLine := by
  cases h with
  | behind h₁ h₂ => exact ⟨h₁, h₂⟩
  | within h =>
      exfalso
      have hnext := h.scan_of_not_malformed hends.next
      rcases hends.ends with hend | ⟨hknown, hend⟩
      · exact hnext.kind_ne_end hend
      · cases hnext with
        | within hnext => exact (hnext.scan_of_not_malformed hknown).kind_ne_end hend
        | behind h₁ h₂ =>
            obtain ⟨offset, htoken⟩ := h₁.token
            have hscan := (scan_closingLine (h₁.closingLine closingLine_bareLine)).1
            rw [htoken] at hscan
            rw [hscan] at hend
            cases hend

end Scanner

/-!
## Taking the reading apart
-/

namespace Parse

variable {α β : Type} {act : Parse α} {ctx : Context} {s s' : ParseState} {a : α} {u : Unit}

theorem run_of_deeper (hrun : deeper act ctx s = .ok (a, s')) :
    ctx.depth < Limits.parseDepth ∧ act { ctx with depth := ctx.depth + 1 } s = .ok (a, s') := by
  rw [run_deeper] at hrun
  split at hrun
  · cases hrun
  · rename_i hdepth
    exact ⟨Nat.lt_of_not_le hdepth, hrun⟩

theorem run_add {n : Node Slot} {start stop : Nat} {i : NodeId}
    (hrun : add n start stop ctx s = .ok (i, s')) :
    s'.scanner = s.scanner ∧ s.forest.add n start stop = (i, s'.forest) := by
  cases hrun
  exact ⟨rfl, rfl⟩

theorem node?_of_run_add {n : Node Slot} {start stop : Nat} {i : NodeId}
    (hrun : add n start stop ctx s = .ok (i, s')) : s'.forest.node? (some i) = some n := by
  obtain ⟨hid, hforest⟩ := Prod.mk.inj (run_add hrun).2
  rw [← hid, ← hforest]
  exact Forest.node?_add_self

/-- Nothing malformed is installed. -/
theorem not_malformed_of_advance (hrun : advance ctx s = .ok (u, s')) :
    ¬ s.scanner.scan.Malformed := by
  intro hmalformed
  obtain ⟨e, he⟩ := @run_install_malformed ctx s _ hmalformed
  have hadvance : advance ctx s = .error e := he
  rw [hadvance] at hrun
  cases hrun

theorem advance_of_expect {k : TokenKind} {stop : Nat} (hrun : expect k ctx s = .ok (stop, s')) :
    s.scanner.token.kind = k ∧ advance ctx s = .ok ((), s') := by
  by_cases hkind : s.scanner.token.kind = k
  · obtain ⟨found, _, hfound, htake⟩ := run_bind.mp hrun
    rw [run_isAt_of_eq hkind] at hfound
    cases hfound
    obtain ⟨_, t, hstop, hadvances⟩ := run_bind.mp htake
    obtain rfl := still_tokenEnd hstop
    obtain ⟨_, t', hadvance, hpure⟩ := run_bind.mp hadvances
    obtain ⟨-, rfl⟩ := run_pure.mp hpure
    exact ⟨hkind, hadvance⟩
  · have hfails : expect k ctx s =
        (Parse.fail (.expected (k.text?.getD "token")) : Parse Nat) ctx s :=
      run_bind_of_ok (run_isAt_of_ne hkind)
    rw [hfails] at hrun
    cases hrun

/-- A token is taken where it stands, or there is another one. -/
theorem advance_of_eat {k : TokenKind} {found : Bool} (hrun : eat k ctx s = .ok (found, s')) :
    found = true ∧ s.scanner.token.kind = k ∧ advance ctx s = .ok ((), s') ∨
      found = false ∧ s' = s := by
  cases found with
  | false => exact .inr ⟨rfl, state_of_eat_false hrun⟩
  | true =>
      by_cases hkind : s.scanner.token.kind = k
      · obtain ⟨found, t, hfound, hrest⟩ := run_bind.mp hrun
        rw [run_isAt_of_eq hkind] at hfound
        cases hfound
        obtain ⟨_, t, hadvance, hpure⟩ := run_bind.mp hrest
        obtain ⟨-, rfl⟩ := run_pure.mp hpure
        exact .inl ⟨rfl, hkind, hadvance⟩
      · have hfails : eat k ctx s = (pure false : Parse Bool) ctx s :=
          run_bind_of_ok (run_isAt_of_ne hkind)
        rw [hfails] at hrun
        cases hrun

theorem advance_of_semicolon (hrun : semicolon ctx s = .ok (u, s')) :
    advance ctx s = .ok ((), s') ∨ s' = s := by
  obtain ⟨found, t, heat, hrest⟩ := run_bind.mp hrun
  rcases advance_of_eat heat with ⟨rfl, -, hadvance⟩ | ⟨rfl, rfl⟩
  · obtain ⟨-, rfl⟩ := run_pure.mp hrest
    exact .inl hadvance
  · obtain ⟨token, t', htoken, hends⟩ := run_bind.mp hrest
    obtain rfl := still_token htoken
    revert hends
    split
    · exact fun hends => .inr (run_pure.mp hends).2.symm
    · exact fun hends => nomatch hends

end Parse

namespace Descent

variable {d : Descent} {ctx : Context} {s s' : ParseState} {x : NodeId} {p : Punctuator}

theorem run_primary_bracket (hs : s.Opening .openBracket) :
    d.primary ctx s = d.arrayLiteral ctx s := by
  rw [primary]
  refine (run_bind_of_ok rfl).trans ((run_bind_of_ok rfl).trans ?_)
  rw [isContextual_of_opening hs, Bool.false_and, if_neg Bool.false_ne_true]
  refine (run_bind_of_ok (run_isAtIdentifier_of_opening hs)).trans ?_
  rw [hs.kind]
  rfl

theorem run_statement_bracket (hs : s.Opening .openBracket) :
    d.statementProduction ctx s = d.expressionStatement ctx s := by
  rw [statementProduction]
  refine (run_bind_of_ok rfl).trans ?_
  rw [hs.kind]
  change d.otherStatement ctx s = _
  rw [otherStatement]
  refine (run_bind_of_ok (run_isAtIdentifier_of_opening hs)).trans ((run_bind_of_ok rfl).trans ?_)
  rw [Bool.false_and, if_neg Bool.false_ne_true]

/-- An array literal that is a whole statement. -/
theorem array_of_statement {n : Nat} {st a : NodeId} {elements : List Slot}
    (hs : s.Opening .openBracket) (hrun : parseGoal (n + 2) .statement ctx s = .ok (st, s'))
    (hst : s'.forest.node? (some st) = some (.operand .expressionStatement (some a)))
    (ha : s'.forest.node? (some a) = some (.list .arrayLiteral elements)) :
    ∃ v w start stop,
      arrayLiteral ⟨parseGoal n, n⟩ { ctx with depth := ctx.depth + 2 } s = .ok (a, v) ∧
      semicolon { ctx with depth := ctx.depth + 1 } v = .ok ((), w) ∧
      v.forest.node? (some a) = some (.list .arrayLiteral elements) ∧
      w.scanner = s'.scanner ∧
      v.forest.add (.operand .expressionStatement (some a)) start stop = (st, s'.forest) := by
  obtain ⟨-, hstatement⟩ := run_of_deeper hrun
  rw [run_statement_bracket hs] at hstatement
  obtain ⟨start, s₀, hoffset, hread⟩ := run_bind.mp hstatement
  obtain rfl := still_offset hoffset
  obtain ⟨e, v, hexpression, hstop⟩ := run_bind.mp hread
  obtain ⟨stop, v', hend, hclose⟩ := run_bind.mp hstop
  obtain rfl : v' = v := still_endOf e hend
  obtain ⟨_, w, hsemicolon, hadd⟩ := run_bind.mp hclose
  obtain ⟨hscanner, hforest⟩ := run_add hadd
  rw [quiet_semicolon hsemicolon] at hforest
  obtain ⟨hid, hbelow⟩ := Prod.ext_iff.mp hforest
  dsimp only at hid hbelow
  rw [← hbelow] at hst ha
  obtain rfl : e = a := by
    rw [← hid] at hst
    have hnode := hst.symm.trans Forest.node?_add_self
    cases hnode
    rfl
  have harray := Forest.node?_of_add ha (by rintro ⟨⟩)
  refine ⟨v', w, start, stop, ?_, hsemicolon, harray, hscanner.symm, hforest⟩
  -- An operation is no array literal.
  have hliteral : ¬ v'.forest.Is Node.isOperation e := by
    rw [Forest.Is, Forest.satisfies, harray]
    rintro ⟨⟩
  rw [run_expression] at hexpression
  obtain ⟨i, t, hassignment, hsequence⟩ := run_bind.mp hexpression
  obtain ⟨rfl, rfl⟩ := (extends_sequenceBehind _ _ hsequence).resolve_right hliteral
  obtain ⟨-, hassignment⟩ := run_of_deeper hassignment
  rw [run_assignment_of_opening hs] at hassignment
  obtain ⟨j, t, hprimary, hbehind⟩ := run_bind.mp hassignment
  obtain ⟨rfl, rfl⟩ := (extends_behindPrimary _ _ hbehind).resolve_right hliteral
  rwa [run_primary_bracket hs] at hprimary

theorem ensures_spread : Ensures (Forest.Is Node.isSpreadOrHole) d.spread :=
  .next fun _ => .next fun _ => .next fun _ => .next fun _ => .add rfl

/-- What a turn in an array reads. -/
theorem arrayTurn_cases {t : Turn NodeId} (hrun : d.arrayTurn ctx s = .ok (t, s')) :
    t = .stop ∧ s' = s ∨
    (∃ i, t = .item i ∧ s'.forest.Is Node.isSpreadOrHole i) ∨
    ∃ i v, (t = .last i ∧ s' = v ∨
        t = .item i ∧ v.scanner.token.kind = .mark .comma ∧ advance ctx v = .ok ((), s')) ∧
      (v.forest.Is Node.isSpreadOrHole i ∨
        allowingIn d.assignment ctx s = .ok (i, v)) := by
  obtain ⟨kind, s₀, hkind, hrest⟩ := run_bind.mp hrun
  obtain rfl : s₀ = s := still_kind hkind
  revert hrest
  split
  · intro hrest
    obtain ⟨rfl, rfl⟩ := run_pure.mp hrest
    exact .inl ⟨rfl, rfl⟩
  · intro hrest
    obtain ⟨i, v, hhole, hpure⟩ := run_bind.mp hrest
    obtain ⟨rfl, rfl⟩ := run_pure.mp hpure
    obtain ⟨start, s₁, hoffset, hadds⟩ := run_bind.mp hhole
    obtain ⟨j, w, hadd, hmoves⟩ := run_bind.mp hadds
    obtain ⟨_, w', hadvance, hpure'⟩ := run_bind.mp hmoves
    obtain ⟨rfl, rfl⟩ := run_pure.mp hpure'
    refine .inr (.inl ⟨j, rfl, ?_⟩)
    rw [quiet_advance hadvance]
    exact Ensures.add rfl hadd
  · intro hrest
    obtain ⟨i, v, hread, hcomma⟩ := run_bind.mp hrest
    refine .inr (.inr ⟨i, v, ?_, ?_⟩)
    · obtain ⟨found, w, heat, hpure⟩ := run_bind.mp hcomma
      rcases advance_of_eat heat with ⟨rfl, hmark, hadvance⟩ | ⟨rfl, rfl⟩
      · obtain ⟨rfl, rfl⟩ := run_pure.mp hpure
        exact .inr ⟨rfl, hmark, hadvance⟩
      · obtain ⟨rfl, rfl⟩ := run_pure.mp hpure
        exact .inl ⟨rfl, rfl⟩
    · obtain ⟨found, s₁, hfound, hchoice⟩ := run_bind.mp hread
      obtain rfl : s₁ = s₀ := still_isAtMark _ hfound
      cases found with
      | false => exact .inr hchoice
      | true => exact .inl (ensures_spread hchoice)

theorem neverSkips_arrayTurn : NeverSkips d.arrayTurn := by
  intro ctx s t s' hrun
  rcases arrayTurn_cases hrun with ⟨rfl, -⟩ | ⟨i, rfl, -⟩ | ⟨i, v, ⟨rfl, -⟩ | ⟨rfl, -⟩, -⟩ <;> nofun

/-- The one element of a list is a spread or a hole, or an assignment expression, and perhaps a
comma behind it. -/
theorem element_of_elements {fuel : Nat} {u : ParseState}
    (hrun : repeated fuel d.arrayTurn ctx s = .ok ([x], u)) :
    u.forest.Is Node.isSpreadOrHole x ∨ ∃ v, allowingIn d.assignment ctx s = .ok (x, v) ∧
      (u = v ∨ v.scanner.token.kind = .mark .comma ∧ advance ctx v = .ok ((), u)) := by
  rcases run_turn_of_singleton neverSkips_arrayTurn hrun with hlast | ⟨w, hitem, hstop⟩
  · rcases arrayTurn_cases hlast with ⟨hturn, -⟩ | ⟨i, hturn, -⟩ | ⟨i, v, hend, hread⟩
    · cases hturn
    · cases hturn
    · rcases hend with ⟨hturn, rfl⟩ | ⟨hturn, -⟩
      · cases hturn
        exact hread.imp id fun hread => ⟨u, hread, .inl rfl⟩
      · cases hturn
  · obtain rfl : u = w := by
      rcases arrayTurn_cases hstop with
        ⟨-, hstate⟩ | ⟨i, hturn, -⟩ | ⟨i, v, ⟨hturn, -⟩ | ⟨hturn, -⟩, -⟩
      · exact hstate
      · cases hturn
      · cases hturn
      · cases hturn
    rcases arrayTurn_cases hitem with ⟨hturn, -⟩ | ⟨i, hturn, hhole⟩ | ⟨i, v, hend, hread⟩
    · cases hturn
    · cases hturn
      exact .inl hhole
    · rcases hend with ⟨hturn, -⟩ | ⟨hturn, hcomma, hadvance⟩
      · cases hturn
      · cases hturn
        rw [← quiet_advance hadvance] at hread
        exact hread.imp id fun hread => ⟨v, hread, .inr ⟨hcomma, hadvance⟩⟩

/-- The elements of an array literal stand between brackets. -/
theorem elements_of_array {a : NodeId} (elements : List NodeId)
    (hrun : d.arrayLiteral ctx s = .ok (a, s'))
    (ha : s'.forest.node? (some a) = some (.list .arrayLiteral (elements.map some))) :
    ∃ u start stop, ¬ s.scanner.scan.Malformed ∧
      repeated d.fuel d.arrayTurn ctx ⟨s.scanner.scan, s.forest⟩ = .ok (elements, u) ∧
      u.scanner.token.kind = .mark .closeBracket ∧ ¬ u.scanner.scan.Malformed ∧
      s'.scanner = u.scanner.scan ∧
      u.forest.add (.list .arrayLiteral (elements.map some)) start stop = (a, s'.forest) := by
  obtain ⟨start, s₀, hoffset, hopens⟩ := run_bind.mp hrun
  obtain rfl : s₀ = s := still_offset hoffset
  obtain ⟨_, s₁, hopen, hlist⟩ := run_bind.mp hopens
  have hopening := (advance_of_expect hopen).2
  obtain rfl := run_advance hopening
  obtain ⟨items, u, hrepeated, hcloses⟩ := run_bind.mp hlist
  obtain ⟨stop, s₂, hclose, hadd⟩ := run_bind.mp hcloses
  obtain ⟨hmark, hclosing⟩ := advance_of_expect hclose
  obtain rfl := run_advance hclosing
  obtain ⟨hscanner, hforest⟩ := run_add hadd
  have hnode := (node?_of_run_add hadd).symm.trans ha
  simp only [Option.some.injEq, Node.list.injEq, true_and] at hnode
  rw [hnode] at hforest
  obtain rfl := List.map_injective_iff.mpr (Option.some_injective _) hnode
  exact ⟨u, start, stop, not_malformed_of_advance hopening, hrepeated, hmark,
    not_malformed_of_advance hclosing, hscanner, hforest⟩

end Descent

section Turns

variable {d : Descent} {ctx : Context} {s s' : ParseState} {t : Parse.Turn NodeId}

/-- A turn reads one statement, unless the text ends. -/
theorem programTurn_cases (hrun : programTurn d ctx s = .ok (t, s')) :
    t = .stop ∧ s.scanner.token.kind = .endOfFile ∧ s' = s ∨
      ∃ i, t = .item i ∧ d.statement ctx s = .ok (i, s') := by
  by_cases hend : s.scanner.token.kind = .endOfFile
  · have hstop : programTurn d ctx s = .ok (.stop, s) := run_bind_of_ok (run_isAt_of_eq hend)
    rw [hstop] at hrun
    cases hrun
    exact .inl ⟨rfl, hend, rfl⟩
  · obtain ⟨found, s₀, hfound, hread⟩ := run_bind.mp hrun
    rw [run_isAt_of_ne hend] at hfound
    cases hfound
    obtain ⟨i, v, hstatement, hpure⟩ := run_bind.mp hread
    obtain ⟨rfl, rfl⟩ := run_pure.mp hpure
    exact .inr ⟨i, rfl, hstatement⟩

theorem neverSkips_programTurn : NeverSkips (programTurn d) := by
  intro ctx s t s' hrun
  rcases programTurn_cases hrun with ⟨rfl, -⟩ | ⟨i, rfl, -⟩ <;> nofun

end Turns

namespace Program

variable {source text : String} {p : Program}

/-- The one statement of a program, and the end of the text behind it. -/
theorem statement_of_parse {st : NodeId} (h : parse source = .ok p)
    (hroot : p.forest.node? (some p.root) = some (.body .program [some st])) :
    ∃ s' stop, parseGoal (parseFuel source) .statement .outermost
        ⟨(Scanner.ofString source).scan, .empty⟩ = .ok (st, s') ∧
      s'.scanner.token.kind = .endOfFile ∧
      s'.forest.cells.find? (isStrayShorthand s'.forest) = none ∧
      s'.forest.add (.body .program [some st]) 0 stop = (p.root, p.forest) := by
  obtain ⟨state, hrun, hforest⟩ := run_of_parse h
  obtain ⟨_, s₁, hadvance, hread⟩ := run_bind.mp hrun
  obtain rfl := run_advance hadvance
  obtain ⟨statements, s₂, hrepeated, hcheck⟩ := run_bind.mp hread
  obtain ⟨_, s₃, hcheck, hstop⟩ := run_bind.mp hcheck
  obtain ⟨hnone, rfl⟩ := run_checkShorthands hcheck
  obtain ⟨stop, s₄, hstop, hadd⟩ := run_bind.mp hstop
  obtain rfl : s₄ = s₂ := still_tokenEnd hstop
  have hadded := (run_add hadd).2
  rw [hforest] at hadded
  obtain rfl : statements = [st] := by
    have hnode := (node?_of_run_add hadd).symm.trans (hforest ▸ hroot)
    simpa using hnode
  rcases run_turn_of_singleton neverSkips_programTurn hrepeated with hlast | ⟨t, hitem, hend⟩
  · rcases programTurn_cases hlast with ⟨hturn, -⟩ | ⟨i, hturn, -⟩ <;> cases hturn
  · rcases programTurn_cases hend with ⟨-, hkind, rfl⟩ | ⟨i, hturn, -⟩
    · rcases programTurn_cases hitem with ⟨hturn, -⟩ | ⟨i, hturn, hstatement⟩
      · cases hturn
      · cases hturn
        exact ⟨s₄, stop, hstatement, hkind, hnone, hadded⟩
    · cases hturn

/-- In a program that is an array with one element, an assignment expression has been read behind
the bracket, perhaps a comma, and then the marks in front of the end. -/
theorem element_of_parse {x : NodeId} (h : parse (inBrackets text) = .ok p)
    (hp : p.element? = some x) :
    ∃ n v u, ¬ (Scanner.ofString (inBrackets text)).scan.scan.Malformed ∧
      parseGoal n .assignment ⟨2, false, false, false⟩
        ⟨(Scanner.ofString (inBrackets text)).scan.scan, .empty⟩ = .ok (x, v) ∧
      (u = v ∨ v.scanner.token.kind = .mark .comma ∧ u.scanner = v.scanner.scan ∧
        ¬ v.scanner.scan.Malformed) ∧
      u.scanner.EndsProgram ∧ v.forest.Framed x p := by
  obtain ⟨st, a, hroot, hst, ha, hx⟩ := nodes_of_element? hp
  obtain ⟨s', stop'', hstatement, hend, hnone, hframe⟩ := statement_of_parse h hroot
  have hforest := congrArg Prod.snd hframe
  dsimp only at hforest
  rw [← hforest] at hst ha
  have hopening : ParseState.Opening ⟨(Scanner.ofString (inBrackets text)).scan, .empty⟩
      .openBracket := ⟨(Scanner.scan_inBrackets text).1, by decide, nofun⟩
  obtain ⟨n, hfuel⟩ : ∃ n, parseFuel (inBrackets text) = n + 2 :=
    Nat.exists_eq_add_of_le' (by unfold parseFuel; omega)
  rw [hfuel] at hstatement
  obtain ⟨v', w, start', stop', harray, hsemicolon, hnode, hscanner, hbelow⟩ :=
    Descent.array_of_statement hopening hstatement (Forest.node?_of_add hst (by rintro ⟨⟩))
      (Forest.node?_of_add ha (by rintro ⟨⟩))
  obtain ⟨u, start, stop, hfirst, helements, hmark, hnext, hbehind, hliteral⟩ :=
    Descent.elements_of_array [x] harray hnode
  obtain ⟨hid, hinner⟩ := Prod.ext_iff.mp hliteral
  dsimp only at hid hinner
  have hframed : u.forest.Framed x p := by
    refine ⟨start, stop, start', stop', stop'', st, s'.forest, ?_, hnone, hframe⟩
    rw [← hid, ← hinner] at hbelow
    exact hbelow
  have hends : u.scanner.EndsProgram := by
    refine ⟨hmark, hnext, ?_⟩
    rcases advance_of_semicolon hsemicolon with hadvance | rfl
    · have hknown := not_malformed_of_advance hadvance
      rw [hbehind] at hknown
      rw [← hscanner, run_advance hadvance, hbehind] at hend
      exact .inr ⟨hknown, hend⟩
    · rw [← hscanner, hbehind] at hend
      exact .inl hend
  rcases Descent.element_of_elements helements with hother | ⟨v, helement, hcomma⟩
  · exact absurd (hframed.is hother) (Bool.eq_false_iff.mp hx)
  · refine ⟨n, v, u, hfirst, helement, ?_, hends, ?_⟩
    · refine hcomma.imp_right fun ⟨hkind, hadvance⟩ => ?_
      exact ⟨hkind, congrArg ParseState.scanner (run_advance hadvance),
        not_malformed_of_advance hadvance⟩
    · rcases hcomma with rfl | ⟨-, hadvance⟩
      · exact hframed
      · rwa [quiet_advance hadvance] at hframed

end Program
end Untangle
