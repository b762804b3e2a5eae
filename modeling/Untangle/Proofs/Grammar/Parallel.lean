import Untangle.Proofs.Grammar.Closing
import Untangle.Proofs.Tree.Positions

/-!
# Parallel actions

One action runs on an element of an array, another on the same element in parentheses. As long as
they are inside the element they do the same, up to positions and limits. Behind it stand different
marks. An action that takes the bracket there goes on behind the array and never comes back, so
that nothing needs to be said of the other one.
-/

namespace Untangle

/-- Contexts that differ in the depth only. -/
structure Context.Alike (ctx₁ ctx₂ : Context) : Prop where
  noIn : ctx₁.noIn = ctx₂.noIn
  inGenerator : ctx₁.inGenerator = ctx₂.inGenerator
  inAsync : ctx₁.inAsync = ctx₂.inAsync

theorem Context.Alike.refl (ctx : Context) : ctx.Alike ctx :=
  ⟨rfl, rfl, rfl⟩

/-!
## Tokens and scanners
-/

/-- The marks behind the element, a bracket and a parenthesis, or the same kind twice. -/
def TokenKind.Agree (k₁ k₂ : TokenKind) : Prop :=
  k₁ = k₂ ∨ k₁ = .mark .closeBracket ∧ k₂ = .mark .closeParen

/-- Tokens that differ in their places, or the marks behind the element. -/
structure Token.Agree (t₁ t₂ : Token) : Prop where
  kind : t₁.kind.Agree t₂.kind
  value : t₁.value = t₂.value
  number : t₁.number = t₂.number
  raw : t₁.raw = t₂.raw
  invalidEscape : t₁.invalidEscape = t₂.invalidEscape
  loneSurrogate : t₁.loneSurrogate = t₂.loneSurrogate
  escaped : t₁.escaped = t₂.escaped
  lineBreakBefore : t₁.lineBreakBefore = t₂.lineBreakBefore
  text : t₁.kind = t₂.kind → t₁.text = t₂.text

theorem Token.Agree.refl (t : Token) : t.Agree t :=
  ⟨.inl rfl, rfl, rfl, rfl, rfl, rfl, rfl, rfl, fun _ => rfl⟩

/-- Scanners that answer all questions about the tokens that follow alike. -/
structure Scanner.Agree (c₁ c₂ : Scanner) : Prop where
  token : c₁.token.Agree c₂.token
  arrowFollows : c₁.arrowFollows = c₂.arrowFollows
  parametersFollow : c₁.parametersFollow = c₂.parametersFollow
  asyncArrowFollows : c₁.asyncArrowFollows = c₂.asyncArrowFollows
  asyncFunctionFollows : c₁.asyncFunctionFollows = c₂.asyncFunctionFollows
  asyncModifies : c₁.asyncModifies = c₂.asyncModifies
  accessorFollows : c₁.accessorFollows = c₂.accessorFollows
  staticModifies : c₁.staticModifies = c₂.staticModifies
  letDeclares : c₁.letDeclares = c₂.letDeclares
  nextKind : ∀ k ∉ Scanner.closingKinds, (c₁.nextKind == k) = (c₂.nextKind == k)

theorem Scanner.Agree.refl (c : Scanner) : c.Agree c :=
  ⟨.refl _, rfl, rfl, rfl, rfl, rfl, rfl, rfl, rfl, fun _ _ => rfl⟩

namespace Scanner

variable {t₁ t₂ : Scanner}

theorem Within.token (h : Within t₁ t₂) : t₁.token.Agree t₂.token := by
  obtain ⟨s, hs, rfl, rfl⟩ := h
  refine ⟨.inl rfl, rfl, rfl, rfl, rfl, rfl, rfl, rfl, fun _ => ?_⟩
  exact (hs.reaches.textTo_inside).trans (hs.reaches.textTo_inside).symm

theorem Twins.token (h : Twins t₁ t₂) : t₁.token.Agree t₂.token := by
  cases h with
  | within h => exact h.token
  | behind h₁ h₂ =>
      obtain ⟨offset₁, htoken₁⟩ := h₁.token
      obtain ⟨offset₂, htoken₂⟩ := h₂.token
      rw [htoken₁, htoken₂]
      exact ⟨.inr ⟨rfl, rfl⟩, rfl, rfl, rfl, rfl, rfl, rfl, rfl, nofun⟩

theorem Twins.agree (h : Twins t₁ t₂) : t₁.Agree t₂ where
  token := h.token
  arrowFollows := h.arrowFollows
  parametersFollow := h.parametersFollow
  asyncArrowFollows := h.asyncArrowFollows
  asyncFunctionFollows := h.asyncFunctionFollows
  asyncModifies := h.asyncModifies
  accessorFollows := h.accessorFollows
  staticModifies := h.staticModifies
  letDeclares := h.letDeclares
  nextKind _ hk := h.nextKind_beq hk

theorem Behind.kind_bareLine (h : t₁.Behind bareLine) : t₁.token.kind = .mark .closeBracket := by
  obtain ⟨offset, htoken⟩ := h.token
  rw [htoken]
  rfl

theorem Behind.kind_wrappedLine (h : t₁.Behind wrappedLine) :
    t₁.token.kind = .mark .closeParen := by
  obtain ⟨offset, htoken⟩ := h.token
  rw [htoken]
  rfl

end Scanner

namespace Token.Agree

variable {t₁ t₂ : Token}

theorem isContextual (h : t₁.Agree t₂) (word : String) :
    t₁.isContextual word = t₂.isContextual word := by
  unfold Token.isContextual
  rw [h.escaped, h.value]
  rcases h.kind with hkind | ⟨hkind₁, hkind₂⟩
  · rw [hkind]
  · rw [hkind₁, hkind₂]
    rfl

theorem endsStatement (h : t₁.Agree t₂) : t₁.endsStatement = t₂.endsStatement := by
  unfold Token.endsStatement
  rw [h.lineBreakBefore]
  rcases h.kind with hkind | ⟨hkind₁, hkind₂⟩
  · rw [hkind]
  · rw [hkind₁, hkind₂]
    rfl

theorem hidesKeyword (h : t₁.Agree t₂) : Parse.hidesKeyword t₁ = Parse.hidesKeyword t₂ := by
  rw [Parse.hidesKeyword, Parse.hidesKeyword, h.escaped, h.value]

end Token.Agree

/-!
## States
-/

namespace ParseState

/-- Twin scanners, and the same trees up to their positions. -/
structure Twins (s₁ s₂ : ParseState) : Prop where
  scanner : s₁.scanner.Twins s₂.scanner
  forest : s₁.forest.withoutSpans = s₂.forest.withoutSpans

/-- Both behind the element. -/
structure Ended (s₁ s₂ : ParseState) : Prop where
  bare : s₁.scanner.Behind Scanner.bareLine
  wrapped : s₂.scanner.Behind Scanner.wrappedLine
  forest : s₁.forest.withoutSpans = s₂.forest.withoutSpans

theorem Ended.twins {s₁ s₂ : ParseState} (h : s₁.Ended s₂) : s₁.Twins s₂ :=
  ⟨.behind h.bare h.wrapped, h.forest⟩

/-- At the bracket behind the element. -/
def AtBracket (s : ParseState) : Prop :=
  s.scanner.Behind Scanner.bareLine

/-- The bracket behind the element has been taken. -/
structure Past (s : ParseState) : Prop where
  kind : s.scanner.token.kind = .mark .semicolon ∨ s.scanner.token.kind = .endOfFile
  next : s.scanner.token.next.rest = []

end ParseState

namespace Parse

variable {α β : Type}

/-!
## Parallel runs
-/

/-- How the runs of both actions end. Nothing is said when the first one fails or is past the
element; `leaves` tells in which other states it may end alone. -/
inductive Outcomes (leaves : α → ParseState → Prop) (R : α → α → Prop) :
    Except SyntaxError (α × ParseState) → Except SyntaxError (α × ParseState) → Prop
  | fails {e r} : Outcomes leaves R (.error e) r
  | past {a s r} (h : s.Past) : Outcomes leaves R (.ok (a, s)) r
  | alone {a s r} (h : leaves a s) : Outcomes leaves R (.ok (a, s)) r
  | tooDeep {a s e} (h : e.cause = .nestedTooDeeply) : Outcomes leaves R (.ok (a, s)) (.error e)
  | both {a b s₁ s₂} (h : R a b) (hs : s₁.Twins s₂) : Outcomes leaves R (.ok (a, s₁)) (.ok (b, s₂))

/-- From twin states the actions come to twin states and related answers. -/
structure Parallel (leaves : α → ParseState → Prop) (R : α → α → Prop) (act₁ act₂ : Parse α) :
    Prop where
  past : ∀ ⦃ctx s a s'⦄, s.Past → act₁ ctx s = .ok (a, s') → s'.Past
  twins : ∀ ⦃ctx₁ ctx₂ s₁ s₂⦄, ctx₁.Alike ctx₂ → s₁.Twins s₂ →
    Outcomes leaves R (act₁ ctx₁ s₁) (act₂ ctx₂ s₂)

/-- Behind the element the actions end in one of these ways. -/
def AtEnd (leaves : α → ParseState → Prop) (R : α → α → Prop) (act₁ act₂ : Parse α) : Prop :=
  ∀ ⦃ctx₁ ctx₂ s₁ s₂⦄, ctx₁.Alike ctx₂ → s₁.Ended s₂ →
    Outcomes leaves R (act₁ ctx₁ s₁) (act₂ ctx₂ s₂)

theorem Parallel.atEnd {leaves : α → ParseState → Prop} {R : α → α → Prop} {act₁ act₂ : Parse α}
    (h : Parallel leaves R act₁ act₂) : AtEnd leaves R act₁ act₂ :=
  fun _ _ _ _ hctx hs => h.twins hctx hs.twins

/-- The first action never ends alone. -/
def noLeave (_ : α) (_ : ParseState) : Prop :=
  False

/-- The actions do the same. -/
abbrev Same (act₁ act₂ : Parse α) : Prop :=
  Parallel noLeave Eq act₁ act₂

/-- The actions do the same, apart from their answers. -/
abbrev SameButAnswers (act₁ act₂ : Parse α) : Prop :=
  Parallel noLeave (fun _ _ => True) act₁ act₂

namespace Parallel

variable {leaves : β → ParseState → Prop} {R : β → β → Prop} {Q : α → α → Prop}
  {act₁ act₂ : Parse α} {k₁ k₂ : α → Parse β} {run₁ run₂ : Parse β}

/-!
## Composition
-/

theorem pure {a b : β} (h : R a b) : Parallel leaves R (pure a) (pure b) where
  past := by
    intro ctx s a' s' hs hrun
    obtain ⟨-, rfl⟩ := run_pure.mp hrun
    exact hs
  twins _ _ _ _ _ hs := .both h hs

theorem failAt (offset : Nat) (cause : SyntaxError.Cause) :
    Parallel leaves R (Parse.failAt offset cause) run₂ where
  past _ _ _ _ _ hrun := nomatch hrun
  twins _ _ _ _ _ _ := .fails

theorem fail (cause : SyntaxError.Cause) : Parallel leaves R (Parse.fail cause) run₂ where
  past _ _ _ _ _ hrun := nomatch hrun
  twins _ _ _ _ _ _ := .fails

/-- Where the first action of the one sequence ends alone, the rest of it takes the bracket, or
ends alone as well. -/
theorem bindLeaving {leaves' : α → ParseState → Prop} (hact : Parallel leaves' Q act₁ act₂)
    (hQ : ∀ a, ∃ b, Q a b) (hk : ∀ a b, Q a b → Parallel leaves R (k₁ a) (k₂ b))
    (hleave : ∀ ⦃ctx a s b s'⦄, leaves' a s → k₁ a ctx s = .ok (b, s') → s'.Past ∨ leaves b s') :
    Parallel leaves R (act₁ >>= k₁) (act₂ >>= k₂) where
  past := by
    intro ctx s b s'' hs hrun
    obtain ⟨a, s', ha, hb⟩ := run_bind.mp hrun
    obtain ⟨a', hq⟩ := hQ a
    exact (hk a a' hq).past (hact.past hs ha) hb
  twins := by
    intro ctx₁ ctx₂ s₁ s₂ hctx hs
    have hout := hact.twins hctx hs
    change Outcomes leaves R (act₁ ctx₁ s₁ >>= fun r => k₁ r.1 ctx₁ r.2)
      (act₂ ctx₂ s₂ >>= fun r => k₂ r.1 ctx₂ r.2)
    generalize act₁ ctx₁ s₁ = out₁ at hout
    generalize act₂ ctx₂ s₂ = out₂ at hout
    have hpast : ∀ {a s r}, s.Past → Outcomes leaves R (k₁ a ctx₁ s) r := by
      intro a s r hs
      obtain ⟨a', hq⟩ := hQ a
      cases hrun : k₁ a ctx₁ s with
      | error e => exact .fails
      | ok out => exact .past ((hk a a' hq).past hs hrun)
    have halone : ∀ {a s r}, leaves' a s → Outcomes leaves R (k₁ a ctx₁ s) r := by
      intro a s r hleaves
      cases hrun : k₁ a ctx₁ s with
      | error e => exact .fails
      | ok out =>
          rcases hleave hleaves hrun with h | h
          · exact .past h
          · exact .alone h
    cases hout with
    | fails => exact .fails
    | past h => exact hpast h
    | alone h => exact halone h
    | @tooDeep a s e h =>
        change Outcomes leaves R (k₁ a ctx₁ s) (.error e)
        cases k₁ a ctx₁ s with
        | error e => exact .fails
        | ok out => exact .tooDeep h
    | both h hs => exact (hk _ _ h).twins hctx hs

theorem bind (hact : Parallel noLeave Q act₁ act₂) (hQ : ∀ a, ∃ b, Q a b)
    (hk : ∀ a b, Q a b → Parallel leaves R (k₁ a) (k₂ b)) :
    Parallel leaves R (act₁ >>= k₁) (act₂ >>= k₂) :=
  bindLeaving hact hQ hk fun _ _ _ _ _ h => h.elim

theorem next (hact : Same act₁ act₂) (hk : ∀ a, Parallel leaves R (k₁ a) (k₂ a)) :
    Parallel leaves R (act₁ >>= k₁) (act₂ >>= k₂) :=
  bind hact (fun a => ⟨a, rfl⟩) fun a _ hab => hab ▸ hk a

theorem any (hact : SameButAnswers act₁ act₂) (hk : ∀ a b, Parallel leaves R (k₁ a) (k₂ b)) :
    Parallel leaves R (act₁ >>= k₁) (act₂ >>= k₂) :=
  bind hact (fun a => ⟨a, trivial⟩) fun a b _ => hk a b

theorem ite {c : Prop} [Decidable c] {other₁ other₂ : Parse β} (h : Parallel leaves R run₁ run₂)
    (hother : Parallel leaves R other₁ other₂) :
    Parallel leaves R (if c then run₁ else other₁) (if c then run₂ else other₂) := by
  split
  · exact h
  · exact hother

/-- An action that only runs in some cases. -/
theorem optionally {c : Prop} [Decidable c] {act₁ act₂ : Parse Unit} {k₁ k₂ : Unit → Parse β}
    (hact : Same act₁ act₂) (hk : ∀ u, Parallel leaves R (k₁ u) (k₂ u)) :
    Parallel leaves R (if c then act₁ >>= k₁ else k₁ ()) (if c then act₂ >>= k₂ else k₂ ()) :=
  ite (next hact hk) (hk ())

/-- Values that are already there, as behind a choice of several. -/
theorem given {a b : α} (h : Parallel leaves R (k₁ a) (k₂ b)) :
    Parallel leaves R (Pure.pure a >>= k₁) (Pure.pure b >>= k₂) := by
  rwa [pure_bind, pure_bind]

/-- The second action may give up. -/
theorem giveUp (h : Parallel leaves R run₁ run₂) :
    Parallel leaves R run₁ (Parse.fail .nestedTooDeeply) where
  past := h.past
  twins := by
    intro ctx₁ ctx₂ s₁ s₂ _ _
    change Outcomes leaves R (run₁ ctx₁ s₁) (.error _)
    cases run₁ ctx₁ s₁ with
    | error e => exact .fails
    | ok out => exact .tooDeep rfl

theorem mono {leaves' : β → ParseState → Prop} {R' : β → β → Prop}
    (h : Parallel leaves R run₁ run₂) (hleaves : ∀ a s, leaves a s → leaves' a s)
    (hR : ∀ a b, R a b → R' a b) : Parallel leaves' R' run₁ run₂ where
  past := h.past
  twins := by
    intro ctx₁ ctx₂ s₁ s₂ hctx hs
    have hout := h.twins hctx hs
    generalize run₁ ctx₁ s₁ = out₁ at hout
    generalize run₂ ctx₂ s₂ = out₂ at hout
    cases hout with
    | fails => exact .fails
    | past h => exact .past h
    | alone h => exact .alone (hleaves _ _ h)
    | tooDeep h => exact .tooDeep h
    | both h hs => exact .both (hR _ _ h) hs

/-- Actions that never end alone may stand where one may. -/
theorem staying (h : Parallel noLeave R run₁ run₂) : Parallel leaves R run₁ run₂ :=
  h.mono (fun _ _ => False.elim) fun _ _ => id

/-!
## Contexts
-/

theorem withReader {change : Context → Context} (h : Parallel leaves R run₁ run₂)
    (hchange : ∀ ⦃ctx₁ ctx₂⦄, ctx₁.Alike ctx₂ → (change ctx₁).Alike (change ctx₂)) :
    Parallel leaves R (withReader change run₁) (withReader change run₂) where
  past _ _ _ _ hs hrun := h.past hs hrun
  twins _ _ _ _ hctx hs := h.twins (hchange hctx) hs

theorem allowingIn (h : Parallel leaves R run₁ run₂) :
    Parallel leaves R (Parse.allowingIn run₁) (Parse.allowingIn run₂) :=
  h.withReader fun _ _ hctx => ⟨rfl, hctx.inGenerator, hctx.inAsync⟩

theorem withoutIn (h : Parallel leaves R run₁ run₂) :
    Parallel leaves R (Parse.withoutIn run₁) (Parse.withoutIn run₂) :=
  h.withReader fun _ _ hctx => ⟨rfl, hctx.inGenerator, hctx.inAsync⟩

theorem inFunction (isAsync isGenerator : Bool) (h : Parallel leaves R run₁ run₂) :
    Parallel leaves R (Parse.inFunction isAsync isGenerator run₁)
      (Parse.inFunction isAsync isGenerator run₂) :=
  h.withReader fun _ _ hctx => ⟨hctx.noIn, rfl, rfl⟩

/-- One action may be nested more deeply than the other, and give up. -/
theorem deeper (h : Parallel leaves R run₁ run₂) :
    Parallel leaves R (Parse.deeper run₁) (Parse.deeper run₂) := by
  constructor
  · intro ctx s a s' hs hrun
    rw [run_deeper] at hrun
    split at hrun
    · cases hrun
    · exact h.past hs hrun
  · intro ctx₁ ctx₂ s₁ s₂ hctx hs
    have hnested : Context.Alike { ctx₁ with depth := ctx₁.depth + 1 }
        { ctx₂ with depth := ctx₂.depth + 1 } := ⟨hctx.noIn, hctx.inGenerator, hctx.inAsync⟩
    rw [run_deeper, run_deeper]
    split
    · exact .fails
    split
    · have hout := h.giveUp.twins hnested hs
      exact hout
    · exact h.twins hnested hs

/-!
## Looking
-/

section Looking

variable {act : Parse α} {v : Context → ParseState → α}

/-- An action that only looks. -/
theorem query (hv : ∀ ctx s, act ctx s = .ok (v ctx s, s))
    (hQ : ∀ ⦃ctx₁ ctx₂ s₁ s₂⦄, ctx₁.Alike ctx₂ → s₁.Twins s₂ → Q (v ctx₁ s₁) (v ctx₂ s₂)) :
    Parallel noLeave Q act act where
  past := by
    intro ctx s a s' hs hrun
    rw [hv] at hrun
    cases hrun
    exact hs
  twins := by
    intro ctx₁ ctx₂ s₁ s₂ hctx hs
    rw [hv, hv]
    exact .both (hQ hctx hs) hs

theorem read {k₁ k₂ : Context → Parse β}
    (hk : ∀ ctx₁ ctx₂, ctx₁.Alike ctx₂ → Parallel leaves R (k₁ ctx₁) (k₂ ctx₂)) :
    Parallel leaves R (MonadReader.read >>= k₁) (MonadReader.read >>= k₂) :=
  bind (query (v := fun ctx _ => ctx) (fun _ _ => rfl) fun _ _ _ _ hctx _ => hctx)
    (fun ctx => ⟨ctx, .refl ctx⟩) hk

theorem scanner {k₁ k₂ : Scanner → Parse β}
    (hk : ∀ c₁ c₂, c₁.Agree c₂ → Parallel leaves R (k₁ c₁) (k₂ c₂)) :
    Parallel leaves R (Parse.scanner >>= k₁) (Parse.scanner >>= k₂) :=
  bind (query (v := fun _ s => s.scanner) (fun _ _ => rfl) fun _ _ _ _ _ hs => hs.scanner.agree)
    (fun c => ⟨c, .refl c⟩) hk

theorem token {k₁ k₂ : Token → Parse β}
    (hk : ∀ t₁ t₂, t₁.Agree t₂ → Parallel leaves R (k₁ t₁) (k₂ t₂)) :
    Parallel leaves R (Parse.token >>= k₁) (Parse.token >>= k₂) :=
  bind (query (v := fun _ s => s.scanner.token) (fun _ _ => rfl) fun _ _ _ _ _ hs =>
    hs.scanner.token) (fun t => ⟨t, .refl t⟩) hk

theorem get {k₁ k₂ : ParseState → Parse β}
    (hk : ∀ s₁ s₂ : ParseState, s₁.forest.withoutSpans = s₂.forest.withoutSpans →
      Parallel leaves R (k₁ s₁) (k₂ s₂)) :
    Parallel leaves R (MonadState.get >>= k₁) (MonadState.get >>= k₂) :=
  bind (query (v := fun _ s => s) (fun _ _ => rfl) fun _ _ _ _ _ hs => hs.forest)
    (fun s => ⟨s, rfl⟩) hk

/-- Only behind the element the kinds of the tokens differ. -/
theorem kind {k₁ k₂ : TokenKind → Parse β} (hk : ∀ k, Parallel leaves R (k₁ k) (k₂ k))
    (hend : AtEnd leaves R (k₁ (.mark .closeBracket)) (k₂ (.mark .closeParen))) :
    Parallel leaves R (Parse.kind >>= k₁) (Parse.kind >>= k₂) where
  past := by
    intro ctx s b s' hs hrun
    exact (hk s.scanner.token.kind).past hs hrun
  twins := by
    intro ctx₁ ctx₂ s₁ s₂ hctx hs
    change Outcomes leaves R (k₁ s₁.scanner.token.kind ctx₁ s₁) (k₂ s₂.scanner.token.kind ctx₂ s₂)
    cases hs.scanner with
    | within h =>
        rw [h.kind]
        exact (hk _).twins hctx hs
    | behind h₁ h₂ =>
        rw [h₁.kind_bareLine, h₂.kind_wrappedLine]
        exact hend hctx ⟨h₁, h₂, hs.forest⟩

end Looking

end Parallel

theorem Refuses.atEnd {leaves : β → ParseState → Prop} {R : β → β → Prop} {run₁ run₂ : Parse β}
    {cause : SyntaxError.Cause} (h : Refuses cause run₁) : AtEnd leaves R run₁ run₂ := by
  intro ctx₁ ctx₂ s₁ s₂ _ hs
  obtain ⟨e, he, -⟩ := h hs.bare.kind_mem
  rw [he]
  exact .fails

/-!
## Positions
-/

theorem any_offset : SameButAnswers offset offset :=
  .query (v := fun _ s => s.scanner.token.start.offset) (fun _ _ => rfl) fun _ _ _ _ _ _ => trivial

theorem any_tokenEnd : SameButAnswers tokenEnd tokenEnd :=
  .query (v := fun _ s => s.scanner.token.next.offset) (fun _ _ => rfl) fun _ _ _ _ _ _ => trivial

theorem any_startOf (i : NodeId) : SameButAnswers (startOf i) (startOf i) :=
  .query (v := fun _ s => ((s.forest.cell? (some i)).map Cell.start).getD 0) (fun _ _ => rfl)
    fun _ _ _ _ _ _ => trivial

theorem any_endOf (i : NodeId) : SameButAnswers (endOf i) (endOf i) :=
  .query (v := fun _ s => ((s.forest.cell? (some i)).map Cell.stop).getD 0) (fun _ _ => rfl)
    fun _ _ _ _ _ _ => trivial

/-!
## The current token
-/

/-- The marks behind the element. -/
def outerKinds : List TokenKind :=
  [.mark .closeBracket, .mark .closeParen]

theorem same_isAt {k : TokenKind} (hk : k ∉ outerKinds) : Same (isAt k) (isAt k) := by
  simp only [outerKinds, List.mem_cons, List.not_mem_nil, or_false, not_or] at hk
  refine .kind (fun kind => .pure rfl) (Parallel.atEnd (.pure ?_))
  rw [beq_false_of_ne (Ne.symm hk.1), beq_false_of_ne (Ne.symm hk.2)]

theorem same_isAtMark {p : Punctuator} (hp : .mark p ∉ outerKinds) :
    Same (isAtMark p) (isAtMark p) :=
  same_isAt hp

theorem same_isAtWord (word : String) : Same (isAtWord word) (isAtWord word) :=
  .token fun _ _ ht => .pure (ht.isContextual word)

theorem same_isAtIdentifier : Same isAtIdentifier isAtIdentifier := by
  refine .kind (fun kind => ?_) (Parallel.atEnd (.pure rfl))
  split
  · exact .pure rfl
  · exact .pure rfl
  · exact .read fun ctx₁ ctx₂ hctx => .pure (congrArg not hctx.inGenerator)
  · exact .pure rfl

theorem same_isAtAwait : Same isAtAwait isAtAwait :=
  .read fun _ _ hctx => .token fun _ _ ht => .pure (by rw [hctx.inAsync, ht.isContextual])

/-!
## Moving on
-/

section Moving

variable {ctx : Context} {s : ParseState} {c : Scanner}

theorem run_install_known (h : c.token.kind ≠ .unknown ∨ c.error = none) :
    install c ctx s = .ok ((), { s with scanner := c }) := by
  have hinstall : install c = modify fun state => { state with scanner := c } := by
    unfold install
    split
    · rename_i error hkind herror
      rcases h with h | h
      · exact absurd hkind h
      · exact nomatch herror.symm.trans h
    · rfl
  rw [hinstall]
  rfl

theorem run_install_malformed (h : c.Malformed) : ∃ e, install c ctx s = .error e := by
  obtain ⟨error, herror⟩ := Option.isSome_iff_exists.mp h.error
  unfold install
  rw [h.kind, herror]
  exact ⟨_, rfl⟩

theorem run_advance_past (h : s.Past) :
    advance ctx s = .ok ((), { s with scanner := s.scanner.scan }) ∧
      ParseState.Past { s with scanner := s.scanner.scan } := by
  have hline : ClosingLine s.scanner.token.next.rest := by
    rw [h.next]
    exact fun _ hch => nomatch hch
  have htoken := (Scanner.scan_closingLine hline).1
  rw [h.next] at htoken
  have hkind : s.scanner.scan.token.kind = .endOfFile := by
    rw [htoken]
    rfl
  refine ⟨run_install_known (.inl (by rw [hkind]; nofun)), .inr hkind, ?_⟩
  change s.scanner.scan.token.next.rest = []
  rw [htoken]
  rfl

/-- The bracket behind the element is taken. -/
theorem run_advance_bracket (h : s.AtBracket) :
    advance ctx s = .ok ((), { s with scanner := s.scanner.scan }) ∧
      ParseState.Past { s with scanner := s.scanner.scan } := by
  obtain ⟨offset, htoken⟩ := h.token
  have hnext : s.scanner.token.next.rest = [';'] := by
    rw [htoken]
    rfl
  have hscan := Scanner.scan_closingLine (h.closingLine Scanner.closingLine_bareLine)
  rw [hnext] at hscan
  have hkind : s.scanner.scan.token.kind = .mark .semicolon := by
    rw [hscan.1]
    rfl
  refine ⟨run_install_known (.inl (by rw [hkind]; nofun)), .inl hkind, ?_⟩
  change s.scanner.scan.token.next.rest = []
  rw [hscan.1]
  rfl

/-- Taking a token and noting where it ends. -/
theorem past_take {stop : Nat} {s' : ParseState} (h : s.AtBracket)
    (hrun : (tokenEnd >>= fun stop => advance >>= fun _ => Pure.pure stop : Parse Nat) ctx s =
      .ok (stop, s')) : s'.Past := by
  obtain ⟨stop', s'', hstop, htake⟩ := run_bind.mp hrun
  obtain rfl := still_tokenEnd hstop
  obtain ⟨_, t, hadvance, hpure⟩ := run_bind.mp htake
  obtain ⟨-, rfl⟩ := run_pure.mp hpure
  rw [(@run_advance_bracket ctx _ h).1] at hadvance
  cases hadvance
  exact (@run_advance_bracket ctx _ h).2

theorem past_expect {stop : Nat} {s' : ParseState} (h : s.AtBracket)
    (hrun : expectMark .closeBracket ctx s = .ok (stop, s')) : s'.Past := by
  have hkind : isAt (.mark .closeBracket) ctx s = .ok (true, s) := by
    change Except.ok (s.scanner.token.kind == .mark .closeBracket, s) = _
    rw [h.kind_bareLine]
    rfl
  exact past_take h ((run_bind_of_ok hkind).symm.trans hrun)

end Moving

theorem same_advance : Same advance advance where
  past := by
    intro ctx s a s' hs hrun
    rw [(@run_advance_past ctx s hs).1] at hrun
    cases hrun
    exact (@run_advance_past ctx s hs).2
  twins := by
    intro ctx₁ ctx₂ s₁ s₂ _ hs
    cases hs.scanner with
    | behind h₁ h₂ =>
        rw [(@run_advance_bracket ctx₁ s₁ h₁).1]
        exact .past (@run_advance_bracket ctx₁ s₁ h₁).2
    | within h =>
        rcases h.scan with htwins | ⟨hmalformed, -⟩
        · have hrun : ∀ {ctx : Context} {s : ParseState}, s.scanner.scan.error = none →
              advance ctx s = .ok ((), { s with scanner := s.scanner.scan }) :=
            fun herror => run_install_known (.inr herror)
          rw [hrun htwins.error.1, hrun htwins.error.2]
          exact .both rfl ⟨htwins, hs.forest⟩
        · obtain ⟨e, he⟩ := run_install_malformed hmalformed
          have hrun : advance ctx₁ s₁ = .error e := he
          rw [hrun]
          exact .fails

/-- Behind the element the bracket is taken. -/
theorem AtEnd.advance {leaves : β → ParseState → Prop} {R : β → β → Prop} {k₁ : Unit → Parse β}
    {run₂ other : Parse β} (hk : Parallel leaves R (k₁ ()) other) :
    AtEnd leaves R (advance >>= k₁) run₂ := by
  intro ctx₁ ctx₂ s₁ s₂ _ hs
  rw [run_bind_of_ok (@run_advance_bracket ctx₁ s₁ hs.bare).1]
  cases hrun : k₁ () ctx₁ { s₁ with scanner := s₁.scanner.scan } with
  | error e => exact .fails
  | ok out => exact .past (hk.past (@run_advance_bracket ctx₁ s₁ hs.bare).2 hrun)

/-- A token is kept and taken. -/
theorem Parallel.tokenThenAdvance {leaves : β → ParseState → Prop} {R : β → β → Prop}
    {k₁ k₂ : Token → Unit → Parse β}
    (hk : ∀ t₁ t₂, t₁.Agree t₂ → t₁.kind = t₂.kind → Parallel leaves R (k₁ t₁ ()) (k₂ t₂ ())) :
    Parallel leaves R (Parse.token >>= fun t => Parse.advance >>= k₁ t)
      (Parse.token >>= fun t => Parse.advance >>= k₂ t) where
  past := by
    intro ctx s b s' hs hrun
    have ht := hk s.scanner.token s.scanner.token (.refl _) rfl
    exact (next same_advance fun _ => ht).past hs hrun
  twins := by
    intro ctx₁ ctx₂ s₁ s₂ hctx hs
    have htoken := hs.scanner.token
    cases hs.scanner with
    | within h =>
        have ht := hk s₁.scanner.token s₂.scanner.token htoken h.kind
        exact (next same_advance fun _ => ht).twins hctx hs
    | behind h₁ h₂ =>
        have ht := hk s₁.scanner.token s₁.scanner.token (.refl _) rfl
        exact AtEnd.advance ht hctx ⟨h₁, h₂, hs.forest⟩

theorem same_eat {k : TokenKind} (hk : k ∉ outerKinds) : Same (eat k) (eat k) :=
  .next (same_isAt hk) fun _ => .ite (.next same_advance fun _ => .pure rfl) (.pure rfl)

theorem same_eatMark {p : Punctuator} (hp : .mark p ∉ outerKinds) : Same (eatMark p) (eatMark p) :=
  same_eat hp

/-- A mark behind the element is expected in one text at most. The first action takes it, or
fails. -/
theorem any_expect (k : TokenKind) : SameButAnswers (expect k) (expect k) := by
  have hfound : SameButAnswers
      (tokenEnd >>= fun stop => advance >>= fun _ => Pure.pure stop : Parse Nat)
      (tokenEnd >>= fun stop => advance >>= fun _ => Pure.pure stop : Parse Nat) :=
    .any any_tokenEnd fun _ _ => .next same_advance fun _ => .pure trivial
  rw [expect, isAt, bind_assoc]
  refine .kind (fun kind => .ite hfound (.fail _)) ?_
  rw [pure_bind, pure_bind]
  by_cases hk : .mark .closeBracket = k
  · subst hk
    intro ctx₁ ctx₂ s₁ s₂ _ hs
    rw [beq_self_eq_true, if_pos rfl]
    cases hrun : (tokenEnd >>= fun stop => advance >>= fun _ => Pure.pure stop : Parse Nat)
        ctx₁ s₁ with
    | error e => exact .fails
    | ok out => exact .past (past_take hs.bare hrun)
  · rw [beq_false_of_ne hk]
    exact Parallel.atEnd (.fail _)

theorem any_expectMark (p : Punctuator) : SameButAnswers (expectMark p) (expectMark p) :=
  any_expect _

namespace Parallel

variable {leaves : β → ParseState → Prop} {R : β → β → Prop}

/-- The mark that closes an argument list is looked for. Without one something must start here. -/
theorem isAtParen {k₁ k₂ : Bool → Parse β} {cause : SyntaxError.Cause}
    (hk : ∀ found, Parallel leaves R (k₁ found) (k₂ found)) (hrefuses : Refuses cause (k₁ false)) :
    Parallel leaves R (isAtMark .closeParen >>= k₁) (isAtMark .closeParen >>= k₂) := by
  rw [isAtMark, isAt, bind_assoc, bind_assoc]
  exact .kind (fun kind => hk _) hrefuses.atEnd

/-- The mark that closes an array is looked for. -/
theorem isAtBracket {k₁ k₂ : Bool → Parse β}
    (hk : ∀ found, Parallel leaves R (k₁ found) (k₂ found))
    (hend : AtEnd leaves R (k₁ true) (k₂ false)) :
    Parallel leaves R (isAtMark .closeBracket >>= k₁) (isAtMark .closeBracket >>= k₂) := by
  rw [isAtMark, isAt, bind_assoc, bind_assoc]
  exact .kind (fun kind => hk _) hend

end Parallel

/-!
## Nodes
-/

theorem same_add (n : Node Slot) (start stop start' stop' : Nat) :
    Same (add n start stop) (add n start' stop') where
  past := by
    intro ctx s a s' hs hrun
    cases hrun
    exact ⟨hs.kind, hs.next⟩
  twins := by
    intro ctx₁ ctx₂ s₁ s₂ _ hs
    have hadd := Forest.add_eq_of_withoutSpans hs.forest n start stop start' stop'
    exact .both hadd.1 ⟨hs.scanner, hadd.2⟩

/-- A node that ends where another one ends. -/
theorem same_addEnding (n : Node Slot) (start start' : Nat) (last : NodeId) :
    Same (endOf last >>= add n start) (endOf last >>= add n start') :=
  .any (any_endOf last) fun _ _ => same_add ..

theorem same_setNode (i : NodeId) (n : Node Slot) : Same (setNode i n) (setNode i n) where
  past := by
    intro ctx s a s' hs hrun
    cases hrun
    exact ⟨hs.kind, hs.next⟩
  twins _ _ _ _ _ hs := .both rfl ⟨hs.scanner, Forest.setNode_eq_of_withoutSpans hs.forest i n⟩

theorem same_node? (i : NodeId) : Same (node? i) (node? i) :=
  .get fun _ _ hforest => .pure (Forest.node?_eq_of_withoutSpans hforest _)

theorem same_isTargetAt (i : NodeId) : Same (Pattern.isTargetAt i) (Pattern.isTargetAt i) :=
  .get fun _ _ hforest => .pure (Forest.satisfies_eq_of_withoutSpans hforest _ _)

/-!
## Repetition
-/

section Repetition

variable {turn₁ turn₂ : Parse (Turn α)} {leaves : ParseState → Prop}

/-- No turn follows. -/
def Turn.Ends : Turn α → Prop
  | .stop | .last _ => True
  | .skip | .item _ => False

/-- The first repetition may end alone where its turn does. -/
theorem parallel_repeated (hturn : Parallel (fun t s => t.Ends ∧ leaves s) Eq turn₁ turn₂)
    (fuel₁ fuel₂ : Nat) :
    Parallel (fun _ s => leaves s) Eq (repeated fuel₁ turn₁) (repeated fuel₂ turn₂) := by
  have hfrom : ∀ reversed, Parallel (fun _ s => leaves s) Eq (repeatFrom turn₁ fuel₁ reversed)
      (repeatFrom turn₂ fuel₂ reversed) := by
    induction fuel₁ generalizing fuel₂ with
    | zero => exact fun _ => .fail _
    | succ fuel₁ ih =>
        intro reversed
        have hmore : ∀ fuel₂, Parallel (fun _ s => leaves s) Eq
            (repeatFrom turn₁ (fuel₁ + 1) reversed) (repeatFrom turn₂ (fuel₂ + 1) reversed) := by
          intro fuel₂
          refine .bindLeaving hturn (fun t => ⟨t, rfl⟩) (fun t _ ht => ?_) ?_
          · subst ht
            cases t with
            | stop => exact .pure rfl
            | skip => exact ih fuel₂ reversed
            | last item => exact .pure rfl
            | item item => exact ih fuel₂ (item :: reversed)
          · intro ctx t s items s' ht hrun
            obtain ⟨hends, hs⟩ := ht
            cases t with
            | stop =>
                cases hrun
                exact .inr hs
            | last item =>
                cases hrun
                exact .inr hs
            | skip => exact hends.elim
            | item item => exact hends.elim
        cases fuel₂ with
        | zero => exact (hmore 0).giveUp
        | succ fuel₂ => exact hmore fuel₂
  exact hfrom []

theorem same_repeated (hturn : Same turn₁ turn₂) (fuel₁ fuel₂ : Nat) :
    Same (repeated fuel₁ turn₁) (repeated fuel₂ turn₂) :=
  @parallel_repeated _ _ _ (fun _ => False) hturn.staying fuel₁ fuel₂

theorem same_beforeComma (item : α) : Same (beforeComma item) (beforeComma item) :=
  .next (same_eatMark (by decide)) fun _ => .ite (.pure rfl) (.pure rfl)

end Repetition

theorem same_forM {items : List α} {act₁ act₂ : α → Parse PUnit}
    (hact : ∀ a, Same (act₁ a) (act₂ a)) : Same (items.forM act₁) (items.forM act₂) := by
  induction items with
  | nil => exact .pure rfl
  | cons a items ih => exact .next (hact a) fun _ => ih

end Parse
end Untangle
