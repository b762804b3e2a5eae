import Untangle.Proofs.Token.MaximalMunch
import Untangle.Proofs.Token.Partition

/-!
# Braces of substitutions

The scanner goes on with a template at the brace that closes a substitution and nowhere else. To
know that brace it counts the braces that are open in each substitution around it. The same counts
come out of the kinds of the tokens alone, in whatever order tokens are scanned, read again and
gone back to.
-/

namespace Untangle

open Cursor

variable {c : Cursor} {depths : List Nat}

/-!
## Replaying kinds
-/

namespace Substitutions

/-- The numbers of braces that are open in the substitutions behind a token, the innermost first.
There are none when a brace is closed that is not open, or when a template goes on where no
substitution ends. -/
def after? : TokenKind → List Nat → Option (List Nat)
  | .templateHead, stack => some (0 :: stack)
  | .templateMiddle, stack => if stack.head? = some 0 then some stack else none
  | .templateTail, stack => if stack.head? = some 0 then some stack.tail else none
  | .mark .openBrace, depth :: outer => some ((depth + 1) :: outer)
  | .mark .closeBrace, depth :: outer => if depth = 0 then none else some ((depth - 1) :: outer)
  | _, stack => some stack

/-- Replay kinds of tokens, the last one first. -/
def replay? : List TokenKind → Option (List Nat)
  | [] => some []
  | kind :: earlier => (replay? earlier).bind (after? kind)

end Substitutions

open Substitutions

/-!
## Tokens
-/

/-- The brace at the cursor closes the innermost substitution. -/
def Closes (depths : List Nat) (c : Cursor) : Prop :=
  c.head? = some '\x7d' ∧ depths.head? = some 0

theorem readToken_of_closes (h : Closes depths c) :
    readToken depths c = readTemplateContinuation c := by
  obtain ⟨rest, hrest⟩ := List.head?_eq_some_iff.mp h.1
  unfold readToken
  rw [hrest]
  simp [h.2, show Char.isDigit '\x7d' = false from rfl]

theorem kind_readTemplateContinuation (c : Cursor) :
    (readTemplateContinuation c).lexeme.kind = .templateTail ∨
      (readTemplateContinuation c).lexeme.kind = .templateMiddle ∨
      (readTemplateContinuation c).lexeme.kind = .unknown := by
  by_contra hkind
  rw [not_or, not_or] at hkind
  exact kind_readTemplateFrom _ hkind.2.2 (Ne.symm hkind.1) (Ne.symm hkind.2.1) _ _ _ _ rfl

/-- A template goes on only behind a substitution. -/
theorem closes_of_kind {kind : TokenKind} (hkind : kind = .templateMiddle ∨ kind = .templateTail)
    (h : (readToken depths c).lexeme.kind = kind) : Closes depths c := by
  have hne : ∀ other : TokenKind, other ≠ .templateMiddle → other ≠ .templateTail →
      kind ≠ other := by
    rintro other hmiddle htail rfl
    exact hkind.elim hmiddle htail
  have hunknown := hne .unknown (by decide) (by decide)
  have hname : ∀ name c, (readNameFrom name c).lexeme.kind ≠ kind :=
    kind_readNameFrom kind hunknown (hne _ (by decide) (by decide))
      fun k => hne (.word k) (by simp) (by simp)
  unfold readToken at h
  split at h
  · exact absurd h.symm (hne .endOfFile (by decide) (by decide))
  · rename_i ch rest hrest
    split at h
    · exact absurd h (kind_readStringFrom kind hunknown (hne _ (by decide) (by decide)) _ _ _ _ _)
    split at h
    · exact absurd h (kind_readTemplateFrom kind hunknown (hne _ (by decide) (by decide)).symm
        (hne _ (by decide) (by decide)).symm _ _ _ _)
    split at h
    · exact absurd h (kind_readNumber kind hunknown (hne _ (by decide) (by decide))
        (hne _ (by decide) (by decide)) c)
    split at h
    · rename_i hcloses
      exact ⟨by rw [head?, hrest, hcloses.1]; rfl, hcloses.2⟩
    split at h
    · unfold readPrivateName at h
      dsimp only at h
      split at h
      · split at h
        · exact absurd h (hname _ _)
        · exact absurd h.symm (hne .privateName (by decide) (by decide))
      · exact absurd h.symm hunknown
    split at h
    · exact absurd h (hname _ _)
    · unfold readPunctuator at h
      split at h
      · exact absurd h.symm (hne (.mark _) (by simp) (by simp))
      · exact absurd h.symm hunknown

theorem after?_of_not_closes {kind : TokenKind} (h : ¬Closes depths c)
    (hmiddle : kind ≠ .templateMiddle) (htail : kind ≠ .templateTail)
    (hbrace : kind = .mark .closeBrace → depths.head? ≠ some 0) :
    after? kind depths = some (depthsAfter depths c kind) := by
  have houter : (if c.head? = some '\x7d' ∧ depths.head? = some 0 then depths.tail else depths) =
      depths := if_neg h
  simp only [depthsAfter, houter]
  fun_cases after? kind depths with
  | case1 | case6 | case8 => rfl
  | case2 | case3 => exact absurd rfl hmiddle
  | case4 | case5 => exact absurd rfl htail
  | case7 => exact absurd rfl (hbrace rfl)
  | case9 => grind

/-- The scanner counts as the replay does. -/
theorem after?_readToken (h : (readToken depths c).lexeme.kind ≠ .unknown) :
    after? (readToken depths c).lexeme.kind depths =
      some (depthsAfter depths c (readToken depths c).lexeme.kind) := by
  by_cases hcloses : Closes depths c
  · obtain ⟨outer, rfl⟩ := List.head?_eq_some_iff.mp hcloses.2
    have hhead := hcloses.1
    rw [readToken_of_closes hcloses] at h ⊢
    rcases kind_readTemplateContinuation c with hkind | hkind | hkind
    · simp [hkind, after?, depthsAfter, hhead]
    · simp [hkind, after?, depthsAfter, hhead]
    · exact absurd hkind h
  · refine after?_of_not_closes hcloses (fun hkind => hcloses (closes_of_kind (.inl rfl) hkind))
      (fun hkind => hcloses (closes_of_kind (.inr rfl) hkind)) fun hkind hzero => ?_
    obtain ⟨rest, hrest⟩ : ∃ rest, c.rest = '\x7d' :: rest := ⟨_, (rest_of_readToken hkind).2⟩
    exact hcloses ⟨by rw [head?, hrest]; rfl, hzero⟩

/-- A brace that closes no substitution is read as one that closes a block. -/
theorem kind_readToken_closeBrace (hhead : c.head? = some '\x7d') :
    (readToken depths c).lexeme.kind = .mark .closeBrace ↔ depths.head? ≠ some 0 := by
  constructor
  · intro hkind hzero
    rw [readToken_of_closes ⟨hhead, hzero⟩] at hkind
    rcases kind_readTemplateContinuation c with hother | hother | hother
    all_goals cases hkind.symm.trans hother
  · intro hne
    obtain ⟨rest, hrest⟩ := List.head?_eq_some_iff.mp hhead
    have hread : readToken depths c = readPunctuator c := by
      have hstart : Text.isIdentifierStart '\x7d' = false := by decide +kernel
      unfold readToken
      rw [hrest]
      simp [hne, hstart, show Char.isDigit '\x7d' = false from rfl]
    rw [hread, readPunctuator, hrest, Punctuator.find?_eq_ofText?]
    rfl

theorem head?_ne_some_zero_iff {stack : List Nat} :
    stack.head? ≠ some 0 ↔ stack = [] ∨ ∃ depth ∈ stack.head?, 0 < depth := by
  cases stack with
  | nil => simp
  | cons depth outer => simp [Nat.pos_iff_ne_zero]

/-!
## Scanning
-/

/-- A comment that is never closed starts with a slash. -/
theorem Gap.head?_of_openComment {mode : Mode} {lineBreak lineBreak' : Bool} {chars : List Char}
    {offset : Nat} {start stop : Cursor}
    (hopened : ∀ opening, mode = .blockComment opening → opening.head? = some '/')
    (h : skip mode lineBreak chars offset = .openComment start stop lineBreak') :
    start.head? = some '/' := by
  fun_induction skip mode lineBreak chars offset with
  | case1 _ _ _ ih | case3 _ _ ih | case4 _ _ _ _ _ _ _ _ ih | case5 _ _ _ _ _ _ _ _ _ ih
  | case7 _ _ _ _ _ ih | case8 _ _ _ _ _ ih | case9 _ _ _ _ ih => exact ih (by simp) h
  | case2 _ _ _ ih =>
      refine ih (fun opening hopening => ?_) h
      rw [← Mode.blockComment.inj hopening]
      rfl
  | case10 _ _ _ _ _ _ ih => exact ih hopened h
  | case6 | case11 | case12 => cases h
  | case13 =>
      cases h
      exact hopened _ rfl

namespace Scanner

variable {s : Scanner}

theorem after?_scan (h : s.scan.token.kind ≠ .unknown) :
    after? s.scan.token.kind s.depths = some s.scan.depths := by
  unfold scan at h ⊢
  split
  · rename_i hskip
    rw [hskip] at h
    exact absurd rfl h
  · rename_i hskip
    rw [hskip] at h
    exact after?_readToken h

/-- A slash is read again without a change to the braces. -/
theorem after?_rescanSlash (h : s.rescanSlash.token.kind ≠ .unknown) :
    s.rescanSlash.depths = s.depths ∧ s.token.kind ≠ .unknown ∧
      after? s.rescanSlash.token.kind = after? s.token.kind := by
  unfold rescanSlash at h ⊢
  split
  · rename_i hslash
    rw [if_pos hslash] at h
    cases hread : readRegularExpression s.token.start with
    | ok next =>
        rcases hslash with hkind | hkind
        all_goals exact ⟨rfl, by simp [hkind], by rw [hkind]; rfl⟩
    | error stop =>
        rw [hread] at h
        exact absurd rfl h
  · rename_i hslash
    rw [if_neg hslash] at h
    exact ⟨rfl, h, rfl⟩

/-- The brace in front closes a substitution when no brace is open in it. -/
theorem kind_scan_closeBrace (hhead : s.scan.token.start.head? = some '\x7d') :
    s.scan.token.kind = .mark .closeBrace ↔
      s.depths = [] ∨ ∃ depth ∈ s.depths.head?, 0 < depth := by
  rw [← head?_ne_some_zero_iff]
  unfold scan at hhead ⊢
  split
  · rename_i hskip
    rw [hskip] at hhead
    cases hhead.symm.trans (Gap.head?_of_openComment (by simp) hskip)
  · rename_i hskip
    rw [hskip] at hhead
    exact kind_readToken_closeBrace hhead

end Scanner

/-!
## Courses of sessions
-/

/-- The tokens, the last one first, lead to the moment of the snapshot. -/
structure Snapshot.Follows (s : Snapshot) (read : List Token) : Prop where
  last : ∀ token ∈ read.head?, token = s.token
  fresh : read = [] → s.token.kind = .unknown
  replayed : (∀ token ∈ read, token.kind ≠ .unknown) →
    replay? (read.map (·.kind)) = some s.depths

namespace Scanner

variable {s : Scanner} {read : List Token}

theorem follows_ofString (source : String) : (ofString source).toSnapshot.Follows [] :=
  ⟨fun _ h => absurd h (Option.not_mem_none _), fun _ => rfl, fun _ => rfl⟩

theorem scan_follows (h : s.toSnapshot.Follows read) :
    s.scan.toSnapshot.Follows (s.scan.token :: read) := by
  refine ⟨fun token htoken => (Option.some.inj htoken).symm, nofun, fun hknown => ?_⟩
  rcases List.forall_mem_cons.mp hknown with ⟨hlast, hearlier⟩
  rw [List.map_cons, replay?, h.replayed hearlier]
  exact after?_scan hlast

theorem rescanSlash_follows (h : s.toSnapshot.Follows read) :
    s.rescanSlash.toSnapshot.Follows (read.modifyHead fun _ => s.rescanSlash.token) := by
  cases read with
  | nil =>
      rw [rescanSlash_of_unknown (h.fresh rfl)]
      exact h
  | cons token earlier =>
      obtain rfl : token = s.token := h.last token rfl
      refine ⟨fun token htoken => (Option.some.inj htoken).symm, nofun, fun hknown => ?_⟩
      rcases List.forall_mem_cons.mp hknown with ⟨hlast, hearlier⟩
      obtain ⟨hdepths, hold, hsame⟩ := after?_rescanSlash hlast
      have hreplayed := h.replayed (List.forall_mem_cons.mpr ⟨hold, hearlier⟩)
      rw [List.modifyHead_cons, List.map_cons, replay?, hsame, hdepths]
      exact hreplayed

end Scanner

namespace Session

/-- A session with the tokens on the way to the present moment and to each of its snapshots, the
last ones first. -/
structure Course where
  session : Session
  read : List Token
  saved : List (List Token)

namespace Course

def start (source : String) : Course :=
  ⟨.start source, [], []⟩

/-- A token that is read again takes the place of the last one. -/
def step (t : Course) (request : Scanner.Request) : Course where
  session := t.session.step request
  read :=
    match request with
    | .scan => t.session.scanner.scan.token :: t.read
    | .rescanSlash => t.read.modifyHead fun _ => t.session.scanner.rescanSlash.token
    | .restore index => t.saved[index]?.getD t.read
    | .snapshot | .takeError => t.read
  saved :=
    match request with
    | .snapshot => t.read :: t.saved
    | _ => t.saved

def run (source : String) (requests : List Scanner.Request) : Course :=
  requests.foldl step (start source)

theorem session_foldl (t : Course) (requests : List Scanner.Request) :
    (requests.foldl step t).session = requests.foldl Session.step t.session := by
  induction requests generalizing t with
  | nil => rfl
  | cons request requests ih => exact ih (t.step request)

/-- The tokens lead to the present moment and to each snapshot. -/
structure Sound (t : Course) : Prop where
  present : t.session.scanner.toSnapshot.Follows t.read
  saved : ∀ index : Nat, Option.Rel Snapshot.Follows t.session.saved[index]? t.saved[index]?

variable {t : Course}

theorem sound_start (source : String) : (start source).Sound :=
  ⟨Scanner.follows_ofString source, fun _ => .none⟩

theorem Sound.step (h : t.Sound) (request : Scanner.Request) : (t.step request).Sound := by
  cases request with
  | scan => exact ⟨Scanner.scan_follows h.present, h.saved⟩
  | rescanSlash => exact ⟨Scanner.rescanSlash_follows h.present, h.saved⟩
  | takeError => exact ⟨h.present, h.saved⟩
  | snapshot =>
      refine ⟨h.present, fun index => ?_⟩
      cases index with
      | zero => exact .some h.present
      | succ index => exact h.saved index
  | restore index =>
      have hindex := h.saved index
      unfold Course.step Session.step
      dsimp only
      generalize t.session.saved[index]? = saved? at hindex ⊢
      generalize t.saved[index]? = read? at hindex ⊢
      cases hindex with
      | none => exact h
      | some hfollows => exact ⟨hfollows, h.saved⟩

theorem Sound.foldl (h : t.Sound) (requests : List Scanner.Request) :
    (requests.foldl Course.step t).Sound := by
  induction requests generalizing t with
  | nil => exact h
  | cons request requests ih => exact ih (h.step request)

/-- Later snapshots stand in front of the earlier ones. -/
theorem saved_foldl (t : Course) (requests : List Scanner.Request) (index : Nat) :
    (requests.foldl step t).session.saved[requests.count .snapshot + index]? =
        t.session.saved[index]? ∧
      (requests.foldl step t).saved[requests.count .snapshot + index]? = t.saved[index]? := by
  induction requests generalizing t index with
  | nil => simp
  | cons request requests ih =>
      rw [List.foldl_cons, List.count_cons, Nat.add_right_comm]
      cases request with
      | snapshot => exact ih (t.step .snapshot) (index + 1)
      | scan | rescanSlash | takeError => exact ih _ index
      | restore back =>
          have hsaved : (t.step (.restore back)).session.saved = t.session.saved := by
            unfold step Session.step
            dsimp only
            split <;> rfl
          rw [← hsaved]
          exact ih _ index

/-- Going back to a snapshot leads to the moment at which it was taken. -/
theorem run_restore (source : String) (earlier later : List Scanner.Request) :
    let back := run source (earlier ++ .snapshot :: later ++ [.restore (later.count .snapshot)])
    back.read = (run source earlier).read ∧
      back.session.scanner.depths = (run source earlier).session.scanner.depths := by
  intro back
  let t := later.foldl step ((run source earlier).step .snapshot)
  have hback : back = t.step (.restore (later.count .snapshot)) := by
    simp [back, t, run]
  obtain ⟨hsession, hread⟩ := saved_foldl ((run source earlier).step .snapshot) later 0
  have hsession : t.session.saved[later.count .snapshot]? =
      some (run source earlier).session.scanner.snapshot := hsession
  have hread : t.saved[later.count .snapshot]? = some (run source earlier).read := hread
  rw [hback]
  constructor
  · exact congrArg (·.getD t.read) hread
  · unfold step Session.step
    dsimp only
    rw [hsession]
    rfl

end Course

/-- The tokens that a session has read up to the present moment, the last one first. Tokens behind
a snapshot that was gone back to are not among them. -/
def tokens (source : String) (requests : List Scanner.Request) : List Token :=
  (Course.run source requests).read

/-- Whatever a scanner is asked for, without a malformed token on the way the kinds of its tokens
can be replayed and yield the braces that it counts. It reads a closing brace as such exactly where
no substitution ends, and a snapshot restores the count of the moment at which it was taken. -/
theorem run_braces_replayed (source : String) (requests : List Scanner.Request) :
    let scanner := (run source requests).scanner
    let read := tokens source requests
    ((∀ token ∈ read, token.kind ≠ .unknown) →
      ∃ stack, replay? (read.map (·.kind)) = some stack ∧ scanner.depths = stack ∧
        (scanner.scan.token.start.head? = some '\x7d' →
          (scanner.scan.token.kind = .mark .closeBrace ↔
            stack = [] ∨ ∃ depth ∈ stack.head?, 0 < depth))) ∧
    ∀ earlier later, requests = earlier ++ .snapshot :: later →
      let back := requests ++ [.restore (later.count .snapshot)]
      tokens source back = tokens source earlier ∧
        (run source back).scanner.depths = (run source earlier).scanner.depths := by
  have hsession : ∀ requests, (Course.run source requests).session = run source requests :=
    Course.session_foldl (Course.start source)
  have hsound := (Course.sound_start source).foldl requests
  refine ⟨fun hknown => ⟨_, hsound.present.replayed hknown, ?_, ?_⟩, ?_⟩
  · rw [← hsession]
    rfl
  · rw [← hsession]
    exact Scanner.kind_scan_closeBrace
  · rintro earlier later rfl back
    rw [← hsession, ← hsession]
    exact Course.run_restore source earlier later

/-- Behind the block in a substitution the next brace closes the substitution. Going back leads to
the open block. -/
theorem run_braces_replayed_block :
    let source := "\x60$\x7b\x7b\x7d\x7d$\x7b0\x7d\x60"
    let earlier : List Scanner.Request := [.scan, .scan]
    let later : List Scanner.Request := [.scan]
    let requests := earlier ++ .snapshot :: later
    let back := requests ++ [.restore (later.count .snapshot)]
    let scanner := (run source requests).scanner
    (∀ token ∈ tokens source requests, token.kind ≠ .unknown) ∧
      scanner.scan.token.start.head? = some '\x7d' ∧
      (∃ stack, replay? ((tokens source requests).map (·.kind)) = some stack ∧
        scanner.depths = stack ∧
        (scanner.scan.token.kind = .mark .closeBrace ↔
          stack = [] ∨ ∃ depth ∈ stack.head?, 0 < depth)) ∧
      tokens source back = tokens source earlier ∧
      (run source back).scanner.depths = (run source earlier).scanner.depths := by
  intro source earlier later requests back scanner
  have hknown : ∀ token ∈ tokens source requests, token.kind ≠ .unknown := by decide +kernel
  have hhead : scanner.scan.token.start.head? = some '\x7d' := by decide +kernel
  have hrequests : requests = earlier ++ .snapshot :: later := rfl
  clear_value requests
  obtain ⟨hbraces, hrestore⟩ := run_braces_replayed source requests
  obtain ⟨stack, hreplay, hdepths, hclose⟩ := hbraces hknown
  exact ⟨hknown, hhead, ⟨stack, hreplay, hdepths, hclose hhead⟩, hrestore earlier later hrequests⟩

end Session
end Untangle
