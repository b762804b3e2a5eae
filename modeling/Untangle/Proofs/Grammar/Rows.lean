import Untangle.Grammar.Class
import Untangle.Proofs.Grammar.Functions
import Untangle.Proofs.Token.Safety
import Untangle.Proofs.Tree.Grown
import Untangle.Proofs.Tree.Spans

/-!
# Actions that read rows

A parsing action passes over the source from left to right. What it has read is a row of pieces
in front of the current token, and a node is added above the last of them. A production is
followed piece by piece, whatever row it starts behind. On the way it is counted how many literals
may still be nested in each other before the limit on the depth is met.
-/

namespace Untangle

open Forest

theorem OnText.boundary {source : String} {c : Cursor} (h : OnText source c) :
    Boundary source c.offset :=
  ⟨h.offset_le, h.isValid⟩

/-- So many literals may be nested in what is read, until the limit on the depth is met. -/
def Context.room (ctx : Context) : Nat :=
  Limits.parseDepth - ctx.depth

namespace Scanner

variable {source : String} {s : Scanner}

theorem Safe.start_le (h : s.Safe source) : s.token.start.offset ≤ s.token.next.offset := by
  rcases h.reaches with ⟨w, hw⟩
  exact hw.offset_le

theorem next_le_scan (s : Scanner) : s.token.next.offset ≤ s.scan.token.start.offset := by
  unfold scan
  split
  · rename_i start stop lineBreak hskip
    obtain ⟨⟨w, hw⟩, _⟩ := Gap.reaches_of_openComment (.refl _) (by rintro _ ⟨⟩) hskip
    exact hw.offset_le
  · rename_i start lineBreak hskip
    rcases Gap.skipped_of_skip hskip with ⟨gap, hgap⟩
    exact hgap.spans.offset_le

theorem start_rescanSlash (s : Scanner) : s.rescanSlash.token.start = s.token.start := by
  unfold rescanSlash
  split
  · split <;> rfl
  · rfl

end Scanner

/-!
## Literals that become patterns
-/

namespace Parse

variable {α β : Type}

/-- The action makes no node a literal. -/
def AddsNoCollection (act : Parse α) : Prop :=
  ∀ ⦃ctx s a s'⦄, act ctx s = .ok (a, s') →
    ∀ i, s'.forest.satisfies (some i) Node.isCollection = true →
      s.forest.satisfies (some i) Node.isCollection = true

namespace AddsNoCollection

variable {act : Parse α} {k : α → Parse β}

theorem still (h : Still act) : AddsNoCollection act := by
  intro ctx s a s' hrun i hi
  exact h hrun ▸ hi

theorem bind (hact : AddsNoCollection act) (hk : ∀ a, AddsNoCollection (k a)) :
    AddsNoCollection (act >>= k) := by
  intro ctx s b s'' hrun i hi
  rcases run_bind.mp hrun with ⟨a, s', ha, hb⟩
  exact hact ha i (hk a hb i hi)

theorem ite {c : Prop} [Decidable c] {other : Parse α} (h : AddsNoCollection act)
    (hother : AddsNoCollection other) : AddsNoCollection (if c then act else other) := by
  split
  · exact h
  · exact hother

theorem setNode {i : NodeId} {m : Node Slot} (hm : m.isCollection = false) :
    AddsNoCollection (setNode i m) := by
  intro ctx s a s' hrun j hj
  cases hrun
  by_cases hij : j = i
  · subst hij
    cases hcell : s.forest.cell? (some j) with
    | none => simp [satisfies, node?_eq, cell?_setNode, hcell] at hj
    | some c => simp [satisfies, node?_eq, cell?_setNode, hcell, hm] at hj
  · simpa [satisfies, node?_eq, cell?_setNode, hij, Function.comp_def] using hj

end AddsNoCollection

end Parse

namespace Pattern

open Parse

variable {convert : NodeId → Parse Unit}

theorem addsNoCollection_convertElement (hconvert : ∀ i, AddsNoCollection (convert i))
    (element : NodeId) : AddsNoCollection (convertElement convert element) := by
  refine .bind (.still (still_node? _)) fun node => ?_
  extract_lets value
  refine .bind (.still (still_node? _)) fun node => ?_
  split
  · exact .setNode rfl
  · exact hconvert value

theorem addsNoCollection_convertRest (hconvert : ∀ i, AddsNoCollection (convert i))
    (inObject isLast : Bool) (element target : NodeId) :
    AddsNoCollection (convertRest convert inObject isLast element target) := by
  refine .ite (.still (.bind (still_startOf _) fun _ => .failAt _ _)) ?_
  extract_lets put
  have hput : ∀ u, AddsNoCollection (put u) := fun u => .setNode rfl
  refine .ite ?_ (.bind (hconvert target) hput)
  refine .bind (.still (still_isTargetAt target)) fun found => .ite ?_ ?_
  · exact .bind (.still (.pure ())) hput
  · exact .bind (.still (still_invalidAt target)) hput

theorem addsNoCollection_convertMember (hconvert : ∀ i, AddsNoCollection (convert i))
    (inObject isLast : Bool) (element : NodeId) :
    AddsNoCollection (convertMember convert inObject isLast element) := by
  refine .bind (.still (still_node? _)) fun node => ?_
  split
  · exact addsNoCollection_convertRest hconvert inObject isLast element _
  · exact addsNoCollection_convertElement hconvert element
  · exact .still (.pure ())
  · exact .still (.pure ())
  · exact addsNoCollection_convertElement hconvert element
  · exact .still (still_invalidAt element)

theorem addsNoCollection_convertMembers (hconvert : ∀ i, AddsNoCollection (convert i))
    (inObject : Bool) (elements : List Slot) :
    AddsNoCollection (convertMembers convert inObject elements) := by
  induction elements with
  | nil => exact .still (.pure ())
  | cons element rest ih =>
      cases element with
      | none => exact .bind (.still (.pure ())) fun _ => ih
      | some i =>
          exact .bind (addsNoCollection_convertMember hconvert inObject rest.isEmpty i) fun _ => ih

/-- A literal becomes a pattern, and nothing becomes a literal. -/
theorem addsNoCollection_convertWith (depth : Nat) (i : NodeId) :
    AddsNoCollection (convertWith depth i) := by
  induction depth generalizing i with
  | zero => exact .still (still_fail _)
  | succ depth ih =>
      refine .bind (.still (still_node? _)) fun node => ?_
      split
      · exact .bind (addsNoCollection_convertMembers ih true _) fun _ => .setNode rfl
      · exact .bind (addsNoCollection_convertMembers ih false _) fun _ => .setNode rfl
      · exact .ite (.still (.pure ())) (.still (still_invalidAt i))
      · exact .still (still_invalidAt i)

theorem addsNoCollection_convert (i : NodeId) : AddsNoCollection (Pattern.convert i) :=
  .bind (.still .read) fun _ => addsNoCollection_convertWith _ i

end Pattern

namespace Parse

variable {α β : Type}

/-!
## Moving on
-/

section Runs

variable {ctx : Context} {s s' : ParseState} {c : Scanner} {u : Unit}

theorem install_cases (c : Scanner) :
    (∃ offset cause, install c = failAt offset cause) ∨
      install c = modify fun state => { state with scanner := c } := by
  unfold install
  split
  · exact .inl ⟨_, _, rfl⟩
  · exact .inr rfl

theorem run_install (h : install c ctx s = .ok (u, s')) : s' = ⟨c, s.forest⟩ := by
  rcases install_cases c with ⟨offset, cause, heq⟩ | heq
  · rw [heq] at h
    exact absurd h run_throw
  · rw [heq] at h
    cases h
    rfl

theorem run_advance (h : advance ctx s = .ok (u, s')) : s' = ⟨s.scanner.scan, s.forest⟩ := by
  rcases run_bind.mp h with ⟨_, _, hscanner, hinstall⟩
  cases hscanner
  exact run_install hinstall

theorem run_expect {k : TokenKind} {stop : Nat} (h : expect k ctx s = .ok (stop, s')) :
    stop = s.scanner.token.next.offset ∧ s' = ⟨s.scanner.scan, s.forest⟩ := by
  rcases run_bind.mp h with ⟨found, _, hfound, h⟩
  obtain rfl := still_isAt k hfound
  cases found with
  | false => cases h
  | true =>
      rcases run_bind.mp h with ⟨_, _, hstop, h⟩
      cases hstop
      rcases run_bind.mp h with ⟨_, _, hadvance, h⟩
      obtain rfl := run_advance hadvance
      obtain ⟨rfl, rfl⟩ := run_pure.mp h
      exact ⟨rfl, rfl⟩

end Runs

/-- The action moves on in the source and leaves the shape of the forest as it is. -/
def Steady (act : Parse α) : Prop :=
  ∀ ⦃source ctx s a s'⦄, s.scanner.Safe source → act ctx s = .ok (a, s') →
    s'.scanner.Safe source ∧ s.scanner.token.start.offset ≤ s'.scanner.token.start.offset ∧
      s.forest.Alike s'.forest ∧ s.forest.Eases s'.forest

namespace Steady

variable {act : Parse α} {k : α → Parse β}

theorem still (h : Still act) : Steady act := by
  intro source ctx s a s' hsafe hrun
  obtain rfl := h hrun
  exact ⟨hsafe, Nat.le_refl _, .refl _, .refl _⟩

theorem keeps (h : ∀ f, Keeps f act) (hnone : AddsNoCollection act) : Steady act := by
  intro source ctx s a s' hsafe hrun
  obtain ⟨halike, hscanner⟩ := h s.forest (.refl _) hrun
  rw [hscanner]
  exact ⟨hsafe, Nat.le_refl _, halike, halike.eases (hnone hrun)⟩

theorem bind (hact : Steady act) (hk : ∀ a, Steady (k a)) : Steady (act >>= k) := by
  intro source ctx s b s'' hsafe hrun
  rcases run_bind.mp hrun with ⟨a, s', ha, hb⟩
  obtain ⟨hsafe', hle, halike, heases⟩ := hact hsafe ha
  obtain ⟨hsafe'', hle', halike', heases'⟩ := hk a hsafe' hb
  exact ⟨hsafe'', Nat.le_trans hle hle', halike.trans halike', heases.trans heases'⟩

theorem ite {c : Prop} [Decidable c] {other : Parse α} (h : Steady act) (hother : Steady other) :
    Steady (if c then act else other) := by
  split
  · exact h
  · exact hother

theorem optionally {c : Prop} [Decidable c] {act : Parse Unit} {k : Unit → Parse β}
    (hact : Steady act) (hk : ∀ u, Steady (k u)) : Steady (if c then act >>= k else k ()) :=
  ite (bind hact hk) (hk ())

end Steady

theorem steady_advance : Steady advance := by
  intro source ctx s a s' hsafe hrun
  obtain rfl := run_advance hrun
  exact ⟨hsafe.scan, Nat.le_trans hsafe.start_le s.scanner.next_le_scan, .refl _, .refl _⟩

theorem steady_eat (k : TokenKind) : Steady (eat k) :=
  .bind (.still (still_isAt k)) fun _ =>
    .ite (.bind steady_advance fun _ => .still (.pure _)) (.still (.pure _))

theorem steady_eatMark (p : Punctuator) : Steady (eatMark p) :=
  steady_eat _

theorem steady_expect (k : TokenKind) : Steady (expect k) :=
  .bind (.still (still_isAt k)) fun _ => .ite
    (.bind (.still still_tokenEnd) fun _ => .bind steady_advance fun _ => .still (.pure _))
    (.still (still_fail _))

theorem steady_expectMark (p : Punctuator) : Steady (expectMark p) :=
  steady_expect _

theorem steady_semicolon : Steady semicolon :=
  .bind (steady_eatMark _) fun _ => .ite (.still (.pure _)) <|
    .still <| .bind still_token fun _ => .ite (.pure _) (still_fail _)

/-!
## Actions behind a row
-/

/-- Pieces in front of the current token, behind the rest of a row. No more literals are nested in
them than the bound allows. -/
structure Behind (source : String) (bound : Nat) (s : ParseState) (pieces rest : List Piece) :
    Prop where
  safe : s.scanner.Safe source
  row : s.forest.Row source s.scanner.token.start.offset (pieces ++ rest)
  shallow : ∀ i ∈ nodesIn pieces, s.forest.Shallow bound i

namespace Behind

variable {source : String} {bound : Nat} {s : ParseState} {pieces pieces' rest : List Piece}
  {p q : Piece}

theorem mark {offset : Nat} (h : Behind source bound s pieces rest)
    (hrow : s.forest.Row source s.scanner.token.start.offset (.mark offset :: (pieces ++ rest))) :
    Behind source bound s (.mark offset :: pieces) rest :=
  ⟨h.safe, hrow, by simpa using h.shallow⟩

theorem pass (h : Behind source bound s pieces rest) :
    Behind source bound ⟨s.scanner.scan, s.forest⟩
      (.mark s.scanner.token.next.offset :: .mark s.scanner.token.start.offset :: pieces) rest := by
  have hstart := h.row.mark (Nat.le_refl _) (Nat.le_refl _) h.safe.start.boundary
  refine ⟨h.safe.scan, ?_, by simpa using h.shallow⟩
  exact hstart.mark h.safe.start_le s.scanner.next_le_scan h.safe.next.boundary

theorem sublist (h : Behind source bound s pieces rest) (hsub : pieces'.Sublist pieces) :
    Behind source bound s pieces' rest := by
  refine ⟨h.safe, h.row.sublist (hsub.append_right rest), fun i hi => h.shallow i ?_⟩
  obtain ⟨p, hp, hnode⟩ := mem_nodesIn.mp hi
  exact mem_nodesIn.mpr ⟨p, hsub.subset hp, hnode⟩

theorem recast {i : NodeId} (h : Behind source bound s (p :: pieces) rest)
    (hp : p.node? = some i) (hq : q.node? = some i) (htold : s.forest.Told q) :
    Behind source bound s (q :: pieces) rest :=
  ⟨h.safe, h.row.recast hp hq htold, by simpa [hp, hq] using h.shallow⟩

end Behind

/-- From a scanner, and behind the given pieces, the action leaves the pieces `made` of its answer
in their place. As many literals may be nested in the pieces as there is room for, and `inner` more
in those that are given, `outer` more in those that are made. -/
def LaysFrom (inner outer : Nat) (c : Scanner) (given : List Piece) (act : Parse α)
    (made : α → List Piece) : Prop :=
  ∀ ⦃source rest ctx s a s'⦄, s.scanner = c → ctx.depth ≤ Limits.parseDepth →
    Behind source (ctx.room + inner) s given rest → act ctx s = .ok (a, s') →
      Behind source (ctx.room + outer) s' (made a) rest ∧ s.forest.Eases s'.forest

/-- The same from every scanner, with the same number of literals before and after. -/
def Lays (more : Nat) (given : List Piece) (act : Parse α) (made : α → List Piece) : Prop :=
  ∀ c, LaysFrom more more c given act made

/-- The action reads one node. -/
abbrev LaysNode (more : Nat) (act : Parse NodeId) : Prop :=
  Lays more [] act fun i => [.node i]

abbrev LaysNodeFrom (more : Nat) (c : Scanner) (given : List Piece) (act : Parse NodeId) : Prop :=
  LaysFrom more more c given act fun i => [.node i]

namespace LaysFrom

variable {act : Parse α} {k : α → Parse β} {inner outer more : Nat} {c : Scanner}
  {given kept : List Piece} {made : α → List Piece} {result : β → List Piece}

theorem pure {a : α} (h : (made a).Sublist given) :
    LaysFrom more more c given (pure a) made := by
  intro source rest ctx s b s' _ _ hbehind hrun
  obtain ⟨rfl, rfl⟩ := run_pure.mp hrun
  exact ⟨hbehind.sublist h, .refl _⟩

theorem throw (e : SyntaxError) : LaysFrom inner outer c given (throw e) made :=
  fun _ _ _ _ _ _ _ _ _ hrun => absurd hrun run_throw

theorem fail (cause : SyntaxError.Cause) : LaysFrom inner outer c given (fail cause) made := by
  intro source rest ctx s a s' _ _ _ hrun
  cases hrun

theorem failAt (offset : Nat) (cause : SyntaxError.Cause) :
    LaysFrom inner outer c given (failAt offset cause) made :=
  throw _

/-- An action that takes the last pieces, followed by one that takes what it leaves. -/
theorem bind (hact : LaysFrom inner inner c given act made)
    (hk : ∀ a c, LaysFrom inner outer c (made a ++ kept) (k a) result) :
    LaysFrom inner outer c (given ++ kept) (act >>= k) result := by
  intro source rest ctx s b s'' hc hdepth ⟨hsafe, hrow, hshallow⟩ hrun
  rcases run_bind.mp hrun with ⟨a, s', ha, hb⟩
  rw [List.append_assoc] at hrow
  have hgiven : ∀ i ∈ nodesIn given, s.forest.Shallow (ctx.room + inner) i :=
    fun i hi => hshallow i (by simp [hi])
  obtain ⟨⟨hsafe', hrow', hmade⟩, heases⟩ := hact hc hdepth ⟨hsafe, hrow, hgiven⟩ ha
  rw [← List.append_assoc] at hrow'
  have hkept : ∀ i ∈ nodesIn (made a ++ kept), s'.forest.Shallow (ctx.room + inner) i := by
    intro i hi
    rw [nodesIn_append, List.mem_append] at hi
    rcases hi with hi | hi
    · exact (hshallow i (by simp [hi])).eased heases
    · exact hmade i hi
  obtain ⟨hbehind, heases'⟩ := hk a _ rfl hdepth ⟨hsafe', hrow', hkept⟩ hb
  exact ⟨hbehind, heases.trans heases'⟩

/-- An action that reads on behind the pieces. -/
theorem next (hact : LaysFrom inner inner c [] act made)
    (hk : ∀ a c, LaysFrom inner outer c (made a ++ given) (k a) result) :
    LaysFrom inner outer c given (act >>= k) result :=
  @bind _ _ _ _ _ _ _ [] given _ _ hact hk

/-- An action that takes the last piece only. -/
theorem take {p : Piece} (hact : LaysFrom inner inner c [p] act made)
    (hk : ∀ a c, LaysFrom inner outer c (made a ++ given) (k a) result) :
    LaysFrom inner outer c (p :: given) (act >>= k) result :=
  @bind _ _ _ _ _ _ _ [p] given _ _ hact hk

/-- An action that takes all pieces. -/
theorem whole (hact : LaysFrom inner inner c given act made)
    (hk : ∀ a c, LaysFrom inner outer c (made a) (k a) result) :
    LaysFrom inner outer c given (act >>= k) result := by
  intro source rest ctx s b s'' hc hdepth hbehind hrun
  rcases run_bind.mp hrun with ⟨a, s', ha, hb⟩
  obtain ⟨hbehind', heases⟩ := hact hc hdepth hbehind ha
  obtain ⟨hbehind'', heases'⟩ := hk a _ rfl hdepth hbehind' hb
  exact ⟨hbehind'', heases.trans heases'⟩

theorem still (hact : Still act) (hk : ∀ a, LaysFrom inner outer c given (k a) result) :
    LaysFrom inner outer c given (act >>= k) result := by
  intro source rest ctx s b s'' hc hdepth hbehind hrun
  rcases run_bind.mp hrun with ⟨a, s', ha, hb⟩
  obtain rfl := hact ha
  exact hk a hc hdepth hbehind hb

theorem steady (hact : Steady act) (hk : ∀ a c, LaysFrom inner outer c given (k a) result) :
    LaysFrom inner outer c given (act >>= k) result := by
  intro source rest ctx s b s'' hc hdepth hbehind hrun
  rcases run_bind.mp hrun with ⟨a, s', ha, hb⟩
  obtain ⟨hsafe, hle, halike, heases⟩ := hact hbehind.safe ha
  have hbehind' : Behind source (ctx.room + inner) s' given rest :=
    ⟨hsafe, (hbehind.row.of_alike halike).raise hle,
      fun i hi => (hbehind.shallow i hi).eased heases⟩
  obtain ⟨hbehind'', heases'⟩ := hk a _ rfl hdepth hbehind' hb
  exact ⟨hbehind'', heases.trans heases'⟩

theorem ite {p : Prop} [Decidable p] {other : Parse α}
    (h : LaysFrom inner outer c given act made)
    (hother : LaysFrom inner outer c given other made) :
    LaysFrom inner outer c given (if p then act else other) made := by
  split
  · exact h
  · exact hother

/-- A move that is only made in some cases. -/
theorem optionally {p : Prop} [Decidable p] {act : Parse Unit} {k : Unit → Parse β}
    (hact : Steady act) (hk : ∀ u c, LaysFrom inner outer c given (k u) result) :
    LaysFrom inner outer c given (if p then act >>= k else k ()) result :=
  ite (steady hact hk) (hk () c)

theorem withReader {f : Context → Context} (h : LaysFrom inner outer c given act made)
    (hf : ∀ ctx, (f ctx).depth = ctx.depth) :
    LaysFrom inner outer c given (withReader f act) made := by
  intro source rest ctx s a s' hc hdepth hbehind hrun
  have hroom : (f ctx).room = ctx.room := by rw [Context.room, hf, Context.room]
  rw [← hf] at hdepth
  rw [← hroom] at hbehind ⊢
  exact h hc hdepth hbehind hrun

/-- One level deeper there is room for one literal less. -/
theorem deeper (h : LaysFrom (inner + 1) (outer + 1) c given act made) :
    LaysFrom inner outer c given (deeper act) made := by
  intro source rest ctx s a s' hc hdepth hbehind hrun
  rcases run_bind.mp hrun with ⟨_, _, hread, hrun⟩
  cases hread
  by_cases hlimit : Limits.parseDepth ≤ ctx.depth
  · rw [if_pos hlimit] at hrun
    cases hrun
  · rw [if_neg hlimit] at hrun
    have hroom : ∀ more, ctx.room + more =
        Context.room { ctx with depth := ctx.depth + 1 } + (more + 1) := by
      simp only [Context.room]
      omega
    rw [hroom] at hbehind ⊢
    exact h hc (Nat.lt_of_not_le hlimit) hbehind hrun

/-- A value that is already there, as behind a choice of several. -/
theorem chosen {a : α} (h : LaysFrom inner outer c given (k a) result) :
    LaysFrom inner outer c given (Pure.pure a >>= k) result := by
  rwa [pure_bind]

/-- Some of the pieces are not looked at again. -/
theorem drop {given' : List Piece} (h : LaysFrom inner outer c given act made)
    (hsub : given.Sublist given') : LaysFrom inner outer c given' act made :=
  fun _ _ _ _ _ _ hc hdepth hbehind hrun => h hc hdepth (hbehind.sublist hsub) hrun

theorem mono {made' : α → List Piece} (h : LaysFrom inner outer c given act made)
    (hsub : ∀ a, (made' a).Sublist (made a)) : LaysFrom inner outer c given act made' := by
  intro source rest ctx s a s' hc hdepth hbehind hrun
  obtain ⟨hbehind', heases⟩ := h hc hdepth hbehind hrun
  exact ⟨hbehind'.sublist (hsub a), heases⟩

/-- More literals may be nested in what is made; nothing is nested in what is not given. -/
theorem lift {inner' outer' : Nat} (h : LaysFrom inner outer c [] act made)
    (hle : outer ≤ outer') : LaysFrom inner' outer' c [] act made := by
  intro source rest ctx s a s' hc hdepth hbehind hrun
  obtain ⟨⟨hsafe, hrow, hshallow⟩, heases⟩ := h hc hdepth ⟨hbehind.safe, hbehind.row, nofun⟩ hrun
  refine ⟨⟨hsafe, hrow, fun i hi => ?_⟩, heases⟩
  exact (hshallow i hi).mono (Nat.add_le_add_left hle _)

/-- What stands inside of a literal leaves room for it. -/
theorem inside (h : LaysFrom more (more + 1) c [] act made) :
    LaysFrom (more + 1) (more + 1) c [] act made :=
  h.lift (Nat.le_refl _)

/-!
### The current token
-/

theorem token {k : Token → Parse β} (h : LaysFrom inner outer c given (k c.token) result) :
    LaysFrom inner outer c given (token >>= k) result := by
  rintro source rest ctx s b s' rfl hdepth hbehind hrun
  exact h rfl hdepth hbehind hrun

theorem scanner {k : Scanner → Parse β} (h : LaysFrom inner outer c given (k c) result) :
    LaysFrom inner outer c given (scanner >>= k) result := by
  rintro source rest ctx s b s' rfl hdepth hbehind hrun
  exact h rfl hdepth hbehind hrun

theorem kind {k : TokenKind → Parse β}
    (h : LaysFrom inner outer c given (k c.token.kind) result) :
    LaysFrom inner outer c given (kind >>= k) result := by
  rintro source rest ctx s b s' rfl hdepth hbehind hrun
  exact h rfl hdepth hbehind hrun

theorem isAtIdentifier {k : Bool → Parse β}
    (h : ∀ found, (found = true → c.token.kind.startsBindingName = true) →
      LaysFrom inner outer c given (k found) result) :
    LaysFrom inner outer c given (isAtIdentifier >>= k) result := by
  rintro source rest ctx s b s'' rfl hdepth hbehind hrun
  rcases run_bind.mp hrun with ⟨found, s', ha, hb⟩
  obtain rfl := still_isAtIdentifier ha
  refine h found (fun hfound => ?_) rfl hdepth hbehind hb
  rcases run_bind.mp ha with ⟨kind, _, hkind, ha⟩
  cases hkind
  have hother : ∀ {result : Bool}, (Pure.pure result : Parse Bool) ctx s' = .ok (found, s') →
      result = true := fun hpure => (run_pure.mp hpure).1.trans hfound
  revert ha
  generalize s'.scanner.token.kind = kind
  intro ha
  cases kind with
  | identifier => rfl
  | word word =>
      cases word with
      | «let» => rfl
      | «yield» => rfl
      | _ => cases hother ha
  | _ => cases hother ha

theorem tokenEnd {k : Nat → Parse β}
    (h : LaysFrom inner outer c given (k c.token.next.offset) result) :
    LaysFrom inner outer c given (tokenEnd >>= k) result := by
  rintro source rest ctx s b s' rfl hdepth hbehind hrun
  exact h rfl hdepth hbehind hrun

/-- The place where the current token starts is noted. -/
theorem offset {k : Nat → Parse β}
    (h : LaysFrom inner outer c (.mark c.token.start.offset :: given) (k c.token.start.offset)
      result) : LaysFrom inner outer c given (offset >>= k) result := by
  rintro source rest ctx s b s' rfl hdepth hbehind hrun
  have hrow := hbehind.row.mark (Nat.le_refl _) (Nat.le_refl _) hbehind.safe.start.boundary
  exact h rfl hdepth (hbehind.mark hrow) hrun

/-- Passing the current token, the places before and behind it are noted. -/
theorem pass {k : Unit → Parse β}
    (h : ∀ c', LaysFrom inner outer c'
      (.mark c.token.next.offset :: .mark c.token.start.offset :: given) (k ()) result) :
    LaysFrom inner outer c given (advance >>= k) result := by
  rintro source rest ctx s b s'' rfl hdepth hbehind hrun
  rcases run_bind.mp hrun with ⟨u, s', ha, hb⟩
  obtain rfl := run_advance ha
  exact (h _ rfl hdepth hbehind.pass hb :)

/-- Passing a token that must stand here. -/
theorem expect {kind : TokenKind} {k : Nat → Parse β}
    (h : ∀ c', LaysFrom inner outer c'
      (.mark c.token.next.offset :: .mark c.token.start.offset :: given)
      (k c.token.next.offset) result) :
    LaysFrom inner outer c given (expect kind >>= k) result := by
  rintro source rest ctx s b s'' rfl hdepth hbehind hrun
  rcases run_bind.mp hrun with ⟨stop, s', ha, hb⟩
  obtain ⟨rfl, rfl⟩ := run_expect ha
  exact (h _ rfl hdepth hbehind.pass hb :)

/-- The current token is read in another way. -/
theorem install {c' : Scanner} {k : Unit → Parse β}
    (hsafe : ∀ source, c.Safe source → c'.Safe source)
    (hstart : c'.token.start = c.token.start)
    (h : LaysFrom inner outer c' given (k ()) result) :
    LaysFrom inner outer c given (install c' >>= k) result := by
  rintro source rest ctx s b s'' rfl hdepth hbehind hrun
  rcases run_bind.mp hrun with ⟨u, s', ha, hb⟩
  obtain rfl := run_install ha
  have hrow := hbehind.row
  rw [← hstart] at hrow
  have hbehind' : Behind source (ctx.room + inner) ⟨c', s.forest⟩ given rest :=
    ⟨hsafe source hbehind.safe, hrow, hbehind.shallow⟩
  exact (h rfl hdepth hbehind' hb :)

/-!
### Nodes
-/

/-- The place where the last node ends is noted. -/
theorem endOf {last : NodeId} {k : Nat → Parse β}
    (h : ∀ stop, LaysFrom inner outer c (.mark stop :: .node last :: given) (k stop) result) :
    LaysFrom inner outer c (.node last :: given) (endOf last >>= k) result := by
  intro source rest ctx s b s' hc hdepth hbehind hrun
  exact h (s.forest.stopAt last) hc hdepth (hbehind.mark hbehind.row.markStop) hrun

/-- A place is noted once more. -/
theorem again {place : Nat}
    (h : LaysFrom inner outer c (.mark place :: .mark place :: given) act made) :
    LaysFrom inner outer c (.mark place :: given) act made := by
  intro source rest ctx s a s' hc hdepth hbehind hrun
  exact h hc hdepth (hbehind.mark hbehind.row.markStop) hrun

variable {n : Node Slot} {start stop : Nat}

/-- A node above the pieces between two places, the first of which is kept. -/
theorem addBehind (core : List Piece) (h : childrenOf n = nodesIn core)
    (hgiven : given = .mark stop :: (core ++ [.mark start]))
    (hroom : inner + n.isCollection.toNat ≤ outer) :
    LaysFrom inner outer c given (Parse.add n start stop) fun i => [.node i, .mark start] := by
  intro source rest ctx s i s' _ _ hbehind hrun
  cases hrun
  have hrow := hbehind.row
  simp only [hgiven, List.cons_append, List.append_assoc, List.nil_append] at hrow
  have hchildren : ∀ c ∈ childrenOf n, s.forest.Shallow (ctx.room + inner) c :=
    fun c hc => hbehind.shallow c (by simp [hgiven, ← h, hc])
  refine ⟨⟨hbehind.safe, hrow.encloses_marks.row_add h, ?_⟩, eases_add⟩
  intro c hc
  obtain rfl := List.mem_singleton.mp hc
  exact shallow_add_self hchildren (by omega)

/-- A node above the pieces between two places. -/
theorem add (core : List Piece) (h : childrenOf n = nodesIn core)
    (hgiven : given = .mark stop :: (core ++ [.mark start]))
    (hroom : inner + n.isCollection.toNat ≤ outer) :
    LaysFrom inner outer c given (Parse.add n start stop) fun i => [.node i] :=
  (addBehind core h hgiven hroom).mono fun _ => by simp

/-- A node that ends where its last child ends. -/
theorem addEndingBehind {last : NodeId} (core : List Piece)
    (h : childrenOf n = nodesIn (.node last :: core))
    (hgiven : given = .node last :: (core ++ [.mark start]))
    (hroom : inner + n.isCollection.toNat ≤ outer) :
    LaysFrom inner outer c given (Parse.endOf last >>= Parse.add n start)
      fun i => [.node i, .mark start] :=
  hgiven ▸ endOf fun _ => addBehind (.node last :: core) h rfl hroom

theorem addEnding {last : NodeId} (core : List Piece)
    (h : childrenOf n = nodesIn (.node last :: core))
    (hgiven : given = .node last :: (core ++ [.mark start]))
    (hroom : inner + n.isCollection.toNat ≤ outer) :
    LaysFrom inner outer c given (Parse.endOf last >>= Parse.add n start) fun i => [.node i] :=
  (addEndingBehind core h hgiven hroom).mono fun _ => by simp

/-- The last node is known by its start from now on. -/
theorem startOf {i : NodeId} {k : Nat → Parse β}
    (h : ∀ start, LaysFrom inner outer c (.since start i :: given) (k start) result) :
    LaysFrom inner outer c (.node i :: given) (startOf i >>= k) result := by
  intro source rest ctx s b s' hc hdepth hbehind hrun
  exact h (s.forest.startAt i) hc hdepth (hbehind.recast rfl rfl rfl) hrun

/-- A node that starts with one node and ends with the next. -/
theorem addSince {first last : NodeId} (h : childrenOf n = [first, last])
    (hroom : inner + n.isCollection.toNat ≤ outer) :
    LaysFrom inner outer c [.node last, .since start first]
      (Parse.endOf last >>= Parse.add n start) fun i => [.node i] := by
  refine endOf fun stop => ?_
  intro source rest ctx s i s' _ _ hbehind hrun
  cases hrun
  have hrow := hbehind.row
  simp only [List.cons_append, List.nil_append] at hrow
  have hchildren : ∀ c ∈ childrenOf n, s.forest.Shallow (ctx.room + inner) c :=
    fun c hc => hbehind.shallow c (by simpa [h, Piece.node?] using hc)
  refine ⟨⟨hbehind.safe, hrow.encloses_since.row_add h, ?_⟩, eases_add⟩
  intro c hc
  obtain rfl := List.mem_singleton.mp hc
  exact shallow_add_self hchildren (by omega)

/-- Behind an action that leaves a node without children. -/
theorem asNode {act : Parse NodeId} (h : LaysFrom inner outer c given act fun i => [.leaf i]) :
    LaysFrom inner outer c given act fun i => [.node i] := by
  intro source rest ctx s i s' hc hdepth hbehind hrun
  obtain ⟨hafter, heases⟩ := h hc hdepth hbehind hrun
  exact ⟨hafter.recast rfl rfl trivial, heases⟩

theorem addLeaf (h : childrenOf n = [])
    (hroom : inner + n.isCollection.toNat ≤ outer) :
    LaysFrom inner outer c [.mark stop, .mark start] (Parse.add n start stop)
      fun i => [.leaf i] := by
  intro source rest ctx s i s' hc hdepth hbehind hrun
  obtain ⟨hafter, heases⟩ := add [] h rfl hroom hc hdepth hbehind hrun
  cases hrun
  have hnone : (s.forest.add n start stop).2.children (some s.forest.size) = [] :=
    children_add_self.trans h
  exact ⟨hafter.recast rfl rfl hnone, heases⟩

end LaysFrom

/-!
## Repetitions
-/

/-- A turn of a repetition reads its item. -/
abbrev LaysTurn (more : Nat) (turn : Parse (Turn NodeId)) : Prop :=
  Lays more [] turn fun t => rowOf t.items

abbrev LaysList (more : Nat) (act : Parse (List NodeId)) : Prop :=
  Lays more [] act rowOf

variable {more : Nat}

theorem laysList_repeated {turn : Parse (Turn NodeId)} (hturn : LaysTurn more turn) (fuel : Nat) :
    LaysList more (repeated fuel turn) := by
  have hfrom : ∀ reversed,
      Lays more (rowOf reversed.reverse) (repeatFrom turn fuel reversed) rowOf := by
    induction fuel with
    | zero => exact fun _ _ => .fail _
    | succ fuel ih =>
        intro reversed c
        refine .next (hturn c) fun t c => ?_
        cases t with
        | stop => exact .pure (.refl _)
        | skip => exact ih reversed c
        | last item => exact .pure (by simp [rowOf, Turn.items])
        | item item => simpa [rowOf, Turn.items] using ih (item :: reversed) c
  exact hfrom []

theorem lays_beforeComma (i : NodeId) :
    Lays more [.node i] (beforeComma i) fun t => rowOf t.items := fun _ =>
  .steady (steady_eatMark _) fun _ _ => .ite (.pure (.refl _)) (.pure (.refl _))

/-!
## Names
-/

theorem laysLeaf_anyName : Lays more [] anyName fun i => [.leaf i] := fun _ =>
  .token (.pass fun _ => .addLeaf rfl .refl)

theorem laysNode_identifier : LaysNode more identifier := by
  intro c
  refine .token (.still still_isAtIdentifier fun found => ?_)
  refine .ite ?_ (.ite (.fail _) (.fail _))
  refine .ite (.fail _) (.still .read fun ctx => .ite (.fail _) ?_)
  exact .asNode (laysLeaf_anyName c)

theorem laysNode_privateName : LaysNode more privateName := by
  intro c
  exact .token (.expect fun _ => .add [] rfl rfl .refl)

theorem laysNode_memberName : LaysNode more memberName := by
  intro c
  refine .kind (.ite (laysNode_privateName c) ?_)
  exact .ite (.asNode (laysLeaf_anyName c)) (.fail _)

/-- The value of a shorthand property stands on the text of its key. -/
theorem lays_copyIdentifier (i : NodeId) :
    Lays more [.leaf i] (copyIdentifier i) fun value => [.node value, .leaf i] := by
  intro c
  refine .still .get fun state => ?_
  extract_lets text
  intro source rest ctx s value s' _ _ hbehind hrun
  rcases run_bind.mp hrun with ⟨start, s₁, hstart, hrun⟩
  cases hstart
  rcases run_bind.mp hrun with ⟨stop, s₂, hstop, hrun⟩
  cases hstop
  cases hrun
  refine ⟨⟨hbehind.safe, hbehind.row.encloses_copy.row_add rfl, fun j hj => ?_⟩, eases_add⟩
  rcases List.mem_pair.mp hj with rfl | rfl
  · exact (hbehind.shallow j (List.mem_singleton_self j)).eased eases_add
  · exact shallow_add_self nofun (Nat.le_refl _)

end Parse
end Untangle
