import Untangle.Grammar.Program
import Untangle.Proofs.Grammar.Attachment
import Untangle.Proofs.Grammar.Twins

/-!
# Actions at closing marks

Where a closing mark or the end of the text stands, the grammar finds nothing: whatever must start
there is refused, and whatever may go on there does not.
-/

namespace Untangle

/-- At a token that starts nothing. -/
def ParseState.Closing (s : ParseState) : Prop :=
  s.scanner.token.kind ∈ Scanner.closingKinds

theorem TokenKind.ne_of_closing {k k' : TokenKind} (h : k ∈ Scanner.closingKinds)
    (h' : k' ∉ Scanner.closingKinds) : k ≠ k' :=
  fun heq => h' (heq ▸ h)

namespace Parse

variable {α β : Type} {act : Parse α} {k : α → Parse β} {a : α} {b : β}
  {cause : SyntaxError.Cause}

/-!
## Runs
-/

theorem run_bind_of_ok {ctx : Context} {s s' : ParseState} (h : act ctx s = .ok (a, s')) :
    (act >>= k) ctx s = k a ctx s' := by
  change (act ctx s >>= fun r => k r.1 ctx r.2) = _
  rw [h]
  rfl

theorem run_bind_of_error {ctx : Context} {s : ParseState} {e : SyntaxError}
    (h : act ctx s = .error e) : (act >>= k) ctx s = .error e := by
  change (act ctx s >>= fun r => k r.1 ctx r.2) = _
  rw [h]
  rfl

theorem run_deeper (act : Parse α) (ctx : Context) (s : ParseState) :
    deeper act ctx s =
      if Limits.parseDepth ≤ ctx.depth then (fail .nestedTooDeeply : Parse α) ctx s
      else act { ctx with depth := ctx.depth + 1 } s := by
  change (if Limits.parseDepth ≤ ctx.depth then fail .nestedTooDeeply
    else MonadWithReader.withReader (fun ctx : Context => { ctx with depth := ctx.depth + 1 })
      act : Parse α) ctx s = _
  split <;> rfl

/-!
## Answers
-/

/-- At a closing token the action answers this, and leaves the state as it is. -/
def Answers (act : Parse α) (a : α) : Prop :=
  ∀ ⦃ctx s⦄, s.Closing → act ctx s = .ok (a, s)

namespace Answers

theorem pure (a : α) : Answers (pure a : Parse α) a :=
  fun _ _ _ => rfl

theorem bind (h : Answers act a) (hk : Answers (k a) b) : Answers (act >>= k) b :=
  fun _ _ hs => (run_bind_of_ok (h hs)).trans (hk hs)

theorem query {v : Context → ParseState → α} (hv : ∀ ctx s, act ctx s = .ok (v ctx s, s))
    (hk : ∀ ctx s, s.Closing → Answers (k (v ctx s)) b) : Answers (act >>= k) b :=
  fun ctx s hs => (run_bind_of_ok (hv ctx s)).trans (hk ctx s hs hs)

theorem read {k : Context → Parse β} (hk : ∀ ctx, Answers (k ctx) b) :
    Answers (MonadReader.read >>= k) b :=
  query (v := fun ctx _ => ctx) (fun _ _ => rfl) fun ctx _ _ => hk ctx

theorem scanner {k : Scanner → Parse β}
    (hk : ∀ c : Scanner, c.token.kind ∈ Scanner.closingKinds → Answers (k c) b) :
    Answers (Parse.scanner >>= k) b :=
  query (v := fun _ s => s.scanner) (fun _ _ => rfl) fun _ s hs => hk s.scanner hs

theorem token {k : Token → Parse β}
    (hk : ∀ t : Token, t.kind ∈ Scanner.closingKinds → Answers (k t) b) :
    Answers (Parse.token >>= k) b :=
  query (v := fun _ s => s.scanner.token) (fun _ _ => rfl) fun _ s hs => hk s.scanner.token hs

theorem kind {k : TokenKind → Parse β}
    (hk : ∀ kind ∈ Scanner.closingKinds, Answers (k kind) b) : Answers (Parse.kind >>= k) b :=
  query (v := fun _ s => s.scanner.token.kind) (fun _ _ => rfl) fun _ _ hs => hk _ hs

theorem offset {k : Nat → Parse β} (hk : ∀ n, Answers (k n) b) : Answers (Parse.offset >>= k) b :=
  query (v := fun _ s => s.scanner.token.start.offset) (fun _ _ => rfl) fun _ _ _ => hk _

end Answers

theorem answers_isAt {k : TokenKind} (hk : k ∉ Scanner.closingKinds) : Answers (isAt k) false := by
  refine .kind fun kind hkind => ?_
  rw [beq_false_of_ne (TokenKind.ne_of_closing hkind hk)]
  exact .pure false

theorem answers_isAtMark {p : Punctuator} (hp : .mark p ∉ Scanner.closingKinds) :
    Answers (isAtMark p) false :=
  answers_isAt hp

theorem answers_eat {k : TokenKind} (hk : k ∉ Scanner.closingKinds) : Answers (eat k) false :=
  (answers_isAt hk).bind (.pure false)

theorem answers_eatMark {p : Punctuator} (hp : .mark p ∉ Scanner.closingKinds) :
    Answers (eatMark p) false :=
  answers_eat hp

theorem isContextual_of_closing {t : Token} (h : t.kind ∈ Scanner.closingKinds) (word : String) :
    t.isContextual word = false := by
  have hne : t.kind ≠ .identifier := TokenKind.ne_of_closing h (by decide)
  simp [Token.isContextual, beq_false_of_ne hne]

theorem answers_isAtIdentifier : Answers isAtIdentifier false := by
  refine .kind fun kind hkind => ?_
  split
  · exact absurd hkind (by decide)
  · exact absurd hkind (by decide)
  · exact absurd hkind (by decide)
  · exact .pure false

theorem answers_isAtAwait : Answers isAtAwait false := by
  refine .read fun ctx => .token fun t ht => ?_
  rw [isContextual_of_closing ht, Bool.and_false]
  exact .pure false

theorem answers_beforeComma (item : α) : Answers (beforeComma item) (.last item) :=
  (answers_eatMark (by decide)).bind (.pure _)

/-!
## Refusals
-/

/-- At a closing token the action fails, for this reason or because it is nested too deeply. -/
def Refuses (cause : SyntaxError.Cause) (act : Parse α) : Prop :=
  ∀ ⦃ctx s⦄, s.Closing →
    ∃ e, act ctx s = .error e ∧ (e.cause = cause ∨ e.cause = .nestedTooDeeply)

namespace Refuses

theorem fail (cause : SyntaxError.Cause) : Refuses cause (fail cause : Parse α) :=
  fun _ _ _ => ⟨_, rfl, .inl rfl⟩

theorem giveUp : Refuses cause (Parse.fail .nestedTooDeeply : Parse α) :=
  fun _ _ _ => ⟨_, rfl, .inr rfl⟩

theorem bind (h : Refuses cause act) : Refuses cause (act >>= k) := by
  intro ctx s hs
  obtain ⟨e, he, hcause⟩ := h hs
  exact ⟨e, run_bind_of_error he, hcause⟩

/-- What is asked first has an answer. -/
theorem asked (h : Answers act a) (hk : Refuses cause (k a)) : Refuses cause (act >>= k) := by
  intro ctx s hs
  rw [run_bind_of_ok (h hs)]
  exact hk hs

theorem query {v : Context → ParseState → α} (hv : ∀ ctx s, act ctx s = .ok (v ctx s, s))
    (hk : ∀ ctx s, s.Closing → Refuses cause (k (v ctx s))) : Refuses cause (act >>= k) := by
  intro ctx s hs
  rw [run_bind_of_ok (hv ctx s)]
  exact hk ctx s hs hs

theorem read {k : Context → Parse β} (hk : ∀ ctx, Refuses cause (k ctx)) :
    Refuses cause (MonadReader.read >>= k) :=
  query (v := fun ctx _ => ctx) (fun _ _ => rfl) fun ctx _ _ => hk ctx

theorem scanner {k : Scanner → Parse β}
    (hk : ∀ c : Scanner, c.token.kind ∈ Scanner.closingKinds → Refuses cause (k c)) :
    Refuses cause (Parse.scanner >>= k) :=
  query (v := fun _ s => s.scanner) (fun _ _ => rfl) fun _ s hs => hk s.scanner hs

theorem token {k : Token → Parse β}
    (hk : ∀ t : Token, t.kind ∈ Scanner.closingKinds → Refuses cause (k t)) :
    Refuses cause (Parse.token >>= k) :=
  query (v := fun _ s => s.scanner.token) (fun _ _ => rfl) fun _ s hs => hk s.scanner.token hs

theorem kind {k : TokenKind → Parse β}
    (hk : ∀ kind ∈ Scanner.closingKinds, Refuses cause (k kind)) :
    Refuses cause (Parse.kind >>= k) :=
  query (v := fun _ s => s.scanner.token.kind) (fun _ _ => rfl) fun _ _ hs => hk _ hs

theorem offset {k : Nat → Parse β} (hk : ∀ n, Refuses cause (k n)) :
    Refuses cause (Parse.offset >>= k) :=
  query (v := fun _ s => s.scanner.token.start.offset) (fun _ _ => rfl) fun _ _ _ => hk _

theorem allowingIn (h : Refuses cause act) : Refuses cause (Parse.allowingIn act) :=
  fun _ _ hs => h hs

theorem deeper (h : Refuses cause act) : Refuses cause (Parse.deeper act) := by
  refine .read fun ctx => ?_
  split
  · exact giveUp
  · exact fun _ _ hs => h hs

end Refuses

theorem refuses_identifier : Refuses .identifierExpected identifier := by
  refine .token fun t ht => .asked answers_isAtIdentifier ?_
  have hword : t.kind.isKeyword = false := by
    revert ht
    generalize t.kind = k
    revert k
    decide
  rw [hword]
  exact .fail _

end Parse

/-!
## Productions
-/

namespace Descent

open Parse

variable {d : Descent} {cause : SyntaxError.Cause}

theorem refuses_bindingTargetProduction :
    Refuses .identifierExpected d.bindingTargetProduction := by
  refine .kind fun kind hkind => ?_
  split
  · exact absurd hkind (by decide)
  · exact absurd hkind (by decide)
  · exact refuses_identifier

theorem refuses_primary : Refuses .expressionExpected d.primary := by
  refine .token fun t ht => .scanner fun c _ => ?_
  rw [isContextual_of_closing ht, Bool.false_and]
  refine .asked answers_isAtIdentifier ?_
  revert ht
  generalize t.kind = k
  intro hk
  simp only [Scanner.closingKinds, List.mem_cons, List.not_mem_nil, or_false] at hk
  rcases hk with rfl | rfl | rfl | rfl | rfl <;> exact .fail _

theorem refuses_leftHandSideProduction : Refuses .expressionExpected d.leftHandSideProduction :=
  .offset fun _ => .asked (answers_isAt (by decide)) refuses_primary.bind

theorem refuses_unaryProduction : Refuses .expressionExpected d.unaryProduction := by
  refine .kind fun kind hkind => .asked answers_isAtAwait ?_
  have hoperator : (kind.isUnaryOperator || kind.isUpdate) = false := by
    revert kind
    decide
  rw [hoperator]
  exact .offset fun _ => refuses_leftHandSideProduction.bind

theorem refuses_binaryProduction (bound : Option Precedence) :
    Refuses .expressionExpected (d.binaryProduction bound) :=
  .offset fun _ => .kind fun _ _ => .asked answers_isAtAwait <|
    .asked (answers_isAt (by decide)) refuses_unaryProduction.bind

theorem refuses_conditional : Refuses .expressionExpected d.conditional :=
  .offset fun _ => (refuses_binaryProduction none).bind

theorem answers_arrowStart? : Answers arrowStart? none := by
  refine .scanner fun c hc => ?_
  have hparen : (c.token.kind == .mark .openParen) = false :=
    beq_false_of_ne (TokenKind.ne_of_closing hc (by decide))
  rw [isContextual_of_closing hc, hparen]
  exact answers_isAtIdentifier.bind (.pure none)

theorem refuses_assignmentProduction : Refuses .expressionExpected d.assignmentProduction := by
  refine .read fun ctx => .asked (answers_isAt (by decide)) ?_
  rw [Bool.and_false]
  exact .asked answers_arrowStart? (.offset fun _ => refuses_conditional.bind)

end Descent

theorem refuses_parseGoal_assignment (fuel : Nat) :
    Parse.Refuses .expressionExpected (parseGoal fuel .assignment) := by
  cases fuel with
  | zero => exact .giveUp
  | succ fuel => exact .deeper Descent.refuses_assignmentProduction

theorem refuses_parseGoal_bindingTarget (fuel : Nat) :
    Parse.Refuses .identifierExpected (parseGoal fuel .bindingTarget) := by
  cases fuel with
  | zero => exact .giveUp
  | succ fuel => exact Descent.refuses_bindingTargetProduction

end Untangle
