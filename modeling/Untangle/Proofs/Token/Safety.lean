import Untangle.Proofs.Token.Sliced

/-!
# Safe scanning

However a scanner is used, its token lies on the source between two character boundaries, every
slice that it takes exists, and every error is reported at a character boundary. This also holds
of a scanner that goes back to an earlier moment, and of one that goes on behind an error.
-/

namespace Untangle

open Cursor

variable {source : String} {b c d : Cursor}

/-!
## Where errors are reported
-/

/-- The error is reported at a cursor on the text that is still to be read. -/
def LexicalError.Behind (c : Cursor) (e : LexicalError) : Prop :=
  ∃ d, c.Reaches d ∧ e.offset = d.offset

theorem LexicalError.Behind.trans {e : LexicalError} (hreach : c.Reaches d) (h : e.Behind d) :
    e.Behind c := by
  rcases h with ⟨place, hplace, hoffset⟩
  exact ⟨place, hreach.trans hplace, hoffset⟩

/-- All that a reader reports lies on the text that it was given. -/
def Reports (c : Cursor) (error : Option LexicalError) : Prop :=
  ∀ e ∈ error, e.Behind c

namespace Reports

theorem nothing : Reports c none := by
  nofun

theorem at_cursor {cause : LexicalError.Cause} (hreach : c.Reaches d) :
    Reports c (some ⟨cause, d.offset⟩) := by
  rintro e ⟨⟩
  exact ⟨d, hreach, rfl⟩

theorem trans {error : Option LexicalError} (hreach : c.Reaches d) (h : Reports d error) :
    Reports c error :=
  fun e he => (h e he).trans hreach

end Reports

theorem reports_readCodePointEscape (c : Cursor) : Reports c (readCodePointEscape c).error := by
  unfold readCodePointEscape
  dsimp only
  split
  · rename_i code hcode
    unfold EscapeReading.ofCodePoint
    dsimp only
    split
    · exact .nothing
    · split <;> exact .nothing
  · exact .at_cursor (reaches_readUnicodeEscape c)

theorem reports_readHexEscape (c : Cursor) : Reports c (readHexEscape c).error := by
  unfold readHexEscape
  dsimp only
  split
  · exact .nothing
  · exact .at_cursor (reaches_readDigits 16 2 0 0 c)

theorem reports_readEscapeAfter (inTemplate : Bool) (ch : Char) (hreach : b.Reaches c) :
    Reports b (readEscapeAfter inTemplate ch b.offset c).error := by
  unfold readEscapeAfter
  split
  · exact .nothing
  split
  · exact .nothing
  split
  · exact .at_cursor (.refl b)
  split
  · exact .nothing
  split
  · exact (reports_readHexEscape c).trans hreach
  split
  · exact (reports_readCodePointEscape c).trans hreach
  split <;> exact .nothing

theorem reports_readEscape (inTemplate : Bool) (c : Cursor) :
    Reports c (readEscape inTemplate c).error := by
  unfold readEscape
  split
  · exact .at_cursor (.refl c)
  · exact reports_readEscapeAfter inTemplate _ c.reaches_advance

theorem reports_readStringFrom (quote : Char) (reversed : List Char) (surrogate : Bool)
    (hreach : b.Reaches c) :
    Reports b (readStringFrom quote b.offset reversed surrogate c).error := by
  generalize hopening : b.offset = opening
  fun_induction readStringFrom quote opening reversed surrogate c with
  | case1 | case3 => exact hopening ▸ .at_cursor (.refl b)
  | case2 => exact .nothing
  | case4 reversed surrogate c fail rest error herror =>
      intro e he
      obtain rfl : e = error := by simpa [fail] using he.symm
      exact (reports_readEscape false c.advance _ herror).trans (hreach.trans c.reaches_advance)
  | case5 reversed surrogate c rest hread hrest hquote hbreak ih =>
      exact ih ((hreach.trans c.reaches_advance).trans (reaches_readEscape false c.advance))
  | case6 reversed surrogate c ch rest hrest hquote hbreak hplain ih =>
      exact ih (hreach.trans c.reaches_advance)

theorem reports_readString (quote : Char) (c : Cursor) : Reports c (readString quote c).error :=
  reports_readStringFrom quote [] false c.reaches_advance

/-- A template only reports that it has no end. -/
theorem reports_readTemplateFrom (kinds : PieceKinds) (content : Cursor) (piece : TemplatePiece)
    (c : Cursor) : Reports b (readTemplateFrom kinds b.offset content piece c).error := by
  generalize hopening : b.offset = opening
  fun_induction readTemplateFrom kinds opening content piece c with
  | case1 => exact hopening ▸ .at_cursor (.refl b)
  | case2 | case3 => exact .nothing
  | case4 piece c rest hrest hfinished hunfinished ih => exact ih
  | case5 piece c ch rest hrest hfinished hunfinished hplain hpair ih => exact ih
  | case6 piece c rest hrest hfinished hunfinished hplain hpair ih => exact ih
  | case7 piece c ch rest hrest hfinished hunfinished hplain hpair hreturn ih => exact ih

theorem reports_readNumber (c : Cursor) : Reports c (readNumber c).error := by
  have hnumeral := reaches_readNumeral c
  unfold readNumber
  split
  · rename_i next hread
    rw [hread] at hnumeral
    exact .at_cursor hnumeral
  · rename_i number integer behind hread
    rw [hread] at hnumeral
    have hreach := hnumeral.trans
      (Slicing.reaches_advanceIf (integer && behind.head? == some 'n') behind)
    dsimp only
    generalize (if integer && behind.head? == some 'n' then behind.advance else behind) = next
      at hreach ⊢
    split
    · exact .at_cursor hreach
    · exact .nothing

theorem reports_readNameFrom (name : PartialName) (c : Cursor) :
    Reports c (readNameFrom name c).error := by
  fun_induction readNameFrom name c with
  | case1 | case6 => exact .nothing
  | case2 name c rest hmark code? next hread decoded haccepts hrest ih =>
      exact ih.trans ((c.reaches_skip 2).trans (reaches_readUnicodeEscape _))
  | case3 | case4 => exact .at_cursor (.refl _)
  | case5 name c ch rest hrest hplain haccepts ih => exact ih.trans c.reaches_advance

theorem reports_readPrivateName (c : Cursor) : Reports c (readPrivateName c).error := by
  unfold readPrivateName
  dsimp only
  split
  · split
    · exact (reports_readNameFrom .empty _).trans c.reaches_advance
    · exact (reports_readNameFrom .empty _).trans c.reaches_advance
  · exact .at_cursor (.refl c)

theorem reports_readPunctuator (c : Cursor) : Reports c (readPunctuator c).error := by
  unfold readPunctuator
  split
  · exact .nothing
  · exact .at_cursor (.refl c)

theorem reports_readToken (depths : List Nat) (c : Cursor) :
    Reports c (readToken depths c).error := by
  unfold readToken
  split
  · exact .nothing
  split
  · exact reports_readString _ c
  split
  · exact reports_readTemplateFrom _ _ _ _
  split
  · exact reports_readNumber c
  split
  · exact reports_readTemplateFrom _ _ _ _
  split
  · exact reports_readPrivateName c
  split
  · exact reports_readNameFrom .empty c
  · exact reports_readPunctuator c

/-!
## Punctuators
-/

/-- Only a punctuator is read as a mark. -/
theorem readToken_eq_readPunctuator {depths : List Nat} {p : Punctuator} :
    (readToken depths c).lexeme.kind = .mark p → readToken depths c = readPunctuator c := by
  unfold readToken
  split
  · nofun
  · split
    · exact fun h => absurd h (kind_readStringFrom (.mark p) nofun nofun _ _ _ _ _)
    split
    · exact fun h => absurd h (kind_readTemplateFrom (.mark p) nofun
        (by rintro ⟨⟩) (by rintro ⟨⟩) _ _ _ _)
    split
    · exact fun h => absurd h (kind_readNumber (.mark p) nofun nofun nofun c)
    split
    · exact fun h => absurd h (kind_readTemplateFrom (.mark p) nofun
        (by rintro ⟨⟩) (by rintro ⟨⟩) _ _ _ _)
    split
    · intro h
      unfold readPrivateName at h
      dsimp only at h
      split at h
      · split at h
        · exact absurd h (kind_readNameFrom (.mark p) nofun nofun nofun _ _)
        · cases h
      · cases h
    split
    · exact fun h => absurd h (kind_readNameFrom (.mark p) nofun nofun nofun _ _)
    · exact fun _ => rfl

theorem rest_of_startsWith {w : List Char} (h : startsWith w c.rest = true) :
    c.rest = w ++ (c.skip w.length).rest := by
  induction w generalizing c with
  | nil => rfl
  | cons a w ih =>
      rcases c with ⟨_ | ⟨b, rest⟩, offset⟩
      · cases h
      · obtain ⟨rfl, hrest⟩ : a = b ∧ startsWith w rest = true := by simpa [startsWith] using h
        exact congrArg (a :: ·) (@ih (Cursor.advance ⟨a :: rest, offset⟩) hrest)

/-- The text of a mark stands on the source. -/
theorem rest_of_readToken {depths : List Nat} {p : Punctuator}
    (h : (readToken depths c).lexeme.kind = .mark p) :
    startsWith p.text.toList c.rest ∧
      c.rest = p.text.toList ++ (readToken depths c).next.rest := by
  have heq := readToken_eq_readPunctuator h
  rw [heq] at h ⊢
  unfold readPunctuator at h ⊢
  split at h
  · rename_i q hfind
    obtain rfl : q = p := by simpa [Reading.ok] using h
    have hfits : q.fits c.rest := by simpa using List.find?_some hfind
    have hstarts := (Bool.and_eq_true_iff.mp hfits).1
    exact ⟨hstarts, rest_of_startsWith hstarts⟩
  · cases h

/-- The token starts with the slash that may be read again as a regular expression. -/
def Token.Slashed (t : Token) : Prop :=
  t.kind = .mark .divide ∨ t.kind = .mark .divideAssign →
    ∃ rest, t.start.rest = '/' :: rest

theorem exists_cons_of_startsWith {w chars : List Char} (h : startsWith w chars)
    (hhead : w.head? = some '/') : ∃ rest, chars = '/' :: rest := by
  obtain ⟨w', rfl⟩ := List.head?_eq_some_iff.mp hhead
  cases chars with
  | nil => cases h
  | cons first rest =>
      obtain ⟨rfl, _⟩ : '/' = first ∧ startsWith w' rest := by simpa [startsWith] using h
      exact ⟨rest, rfl⟩

/-!
## Safe scanners
-/

/-- The token lies on the source, and a slash that may be read again is one. -/
structure Snapshot.Safe (source : String) (s : Snapshot) : Prop where
  start : OnText source s.token.start
  reaches : s.token.start.Reaches s.token.next
  slashed : s.token.Slashed

/-- The error is reported at a character boundary of the source. -/
def LexicalError.Within (source : String) (e : LexicalError) : Prop :=
  e.offset ≤ source.utf8ByteSize ∧ (⟨e.offset⟩ : String.Pos.Raw).IsValid source

theorem Reports.within {error : Option LexicalError} (h : Reports c error)
    (hc : OnText source c) : ∀ e ∈ error, e.Within source := by
  intro e he
  rcases h e he with ⟨d, hreach, hoffset⟩
  rw [LexicalError.Within, hoffset]
  exact ⟨(hc.reaches hreach).offset_le, (hc.reaches hreach).isValid⟩

structure Scanner.Safe (source : String) (s : Scanner) : Prop extends
    Snapshot.Safe source s.toSnapshot where
  error : ∀ e ∈ s.error, e.Within source

namespace Scanner

variable {s : Scanner}

theorem Safe.next (h : Safe source s) : OnText source s.token.next :=
  h.start.reaches h.reaches

theorem safe_ofString (source : String) : Safe source (ofString source) :=
  ⟨⟨.start source, .refl _, nofun⟩, nofun⟩

/-- Whatever is read last, the first error stays. -/
theorem forall_orElse {P : LexicalError → Prop} {pending new : Option LexicalError}
    (hpending : ∀ e ∈ pending, P e) (hnew : ∀ e ∈ new, P e) : ∀ e ∈ (pending <|> new), P e := by
  cases pending with
  | none => simpa using hnew
  | some e => simpa using hpending

theorem Safe.scan (h : Safe source s) : Safe source s.scan := by
  unfold Scanner.scan
  split
  · rename_i start stop lineBreak hskip
    obtain ⟨hstart, hstop⟩ := Gap.reaches_of_openComment (.refl _) (by rintro _ ⟨⟩) hskip
    have hon : OnText source start := h.next.reaches hstart
    have hreports : Reports start (some ⟨.unterminatedComment, start.offset⟩) :=
      .at_cursor (.refl start)
    exact ⟨⟨hon, hstop, nofun⟩, forall_orElse h.error (hreports.within hon)⟩
  · rename_i start lineBreak hskip
    rcases Gap.skipped_of_skip hskip with ⟨gap, hgap⟩
    have hon : OnText source start := h.next.reaches ⟨gap, hgap.spans⟩
    refine ⟨⟨hon, reaches_readToken s.depths start, ?_⟩,
      forall_orElse h.error ((reports_readToken s.depths start).within hon)⟩
    rintro (hkind | hkind)
    · exact exists_cons_of_startsWith (rest_of_readToken hkind).1 (by decide)
    · exact exists_cons_of_startsWith (rest_of_readToken hkind).1 (by decide)

theorem Safe.rescanSlash (h : Safe source s) : Safe source s.rescanSlash := by
  unfold Scanner.rescanSlash
  split
  · split
    · rename_i next hread
      have hreach := s.token.start.reaches_advance.trans
        (advance_reaches_readRegularExpression hread)
      exact ⟨⟨h.start, hreach, nofun⟩, h.error⟩
    · rename_i stop hread
      have hreports : Reports s.token.start
          (some ⟨.unterminatedRegularExpression, s.token.start.offset⟩) := .at_cursor (.refl _)
      exact ⟨⟨h.start, reaches_stop_readRegularExpression hread, nofun⟩,
        forall_orElse h.error (hreports.within h.start)⟩
  · exact h

theorem Safe.takeError (h : Safe source s) : Safe source s.takeError.2 :=
  ⟨h.toSafe, nofun⟩

theorem Safe.restore (h : Safe source s) {saved : Snapshot} (hsaved : saved.Safe source) :
    Safe source (s.restore saved) :=
  ⟨hsaved, h.error⟩

end Scanner

/-!
## Sessions
-/

/-- What a client may ask for. A snapshot is kept, and any that was kept may be restored, as often
as wanted. -/
inductive Scanner.Request
  | scan
  | rescanSlash
  | snapshot
  | restore (index : Nat)
  | takeError
  deriving DecidableEq

/-- A scanner with the snapshots and the errors that were taken from it, the last ones first. -/
structure Session where
  scanner : Scanner
  saved : List Snapshot
  taken : List LexicalError

namespace Session

def start (source : String) : Session :=
  ⟨.ofString source, [], []⟩

def step (t : Session) : Scanner.Request → Session
  | .scan => { t with scanner := t.scanner.scan }
  | .rescanSlash => { t with scanner := t.scanner.rescanSlash }
  | .snapshot => { t with saved := t.scanner.snapshot :: t.saved }
  | .restore index =>
      match t.saved[index]? with
      | some saved => { t with scanner := t.scanner.restore saved }
      | none => t
  | .takeError =>
      let (error, scanner) := t.scanner.takeError
      { t with scanner := scanner, taken := error.toList ++ t.taken }

def run (source : String) (requests : List Scanner.Request) : Session :=
  requests.foldl step (start source)

end Session

/-- The scanner after a request. Only scanning reads the source. -/
def Slicing.scanner (source : String) (t : Session) : Scanner.Request → Option Scanner
  | .scan => Slicing.scan source t.scanner
  | .rescanSlash => Slicing.rescanSlash source t.scanner
  | request => some (t.step request).scanner

/-- A step of the scanner that reads by slices. The text of the token is taken each time. -/
def Slicing.step (source : String) (t : Session) (request : Scanner.Request) : Option Session := do
  let scanner ← Slicing.scanner source t request
  let _ ← Slicing.text source scanner
  return { t.step request with scanner := scanner }

def Slicing.run (source : String) (requests : List Scanner.Request) : Option Session :=
  requests.foldlM (Slicing.step source) (Session.start source)

namespace Session

/-- The scanner and all that was taken from it are safe. -/
structure Safe (source : String) (t : Session) : Prop where
  scanner : t.scanner.Safe source
  saved : ∀ saved ∈ t.saved, saved.Safe source
  taken : ∀ e ∈ t.taken, e.Within source

variable {t : Session}

theorem safe_start (source : String) : Safe source (start source) :=
  ⟨Scanner.safe_ofString source, List.forall_mem_nil _, List.forall_mem_nil _⟩

theorem Safe.step (h : Safe source t) (request : Scanner.Request) :
    Safe source (t.step request) := by
  cases request with
  | scan => exact ⟨h.scanner.scan, h.saved, h.taken⟩
  | rescanSlash => exact ⟨h.scanner.rescanSlash, h.saved, h.taken⟩
  | snapshot =>
      exact ⟨h.scanner, List.forall_mem_cons.mpr ⟨h.scanner.toSafe, h.saved⟩, h.taken⟩
  | restore index =>
      unfold Session.step
      dsimp only
      split
      · rename_i saved hsaved
        exact ⟨h.scanner.restore (h.saved saved (List.mem_of_getElem? hsaved)), h.saved, h.taken⟩
      · exact h
  | takeError =>
      refine ⟨h.scanner.takeError, h.saved, fun e he => ?_⟩
      rcases List.mem_append.mp he with hnew | hold
      · exact h.scanner.error e (by simpa [Scanner.takeError] using hnew)
      · exact h.taken e hold

theorem Safe.scanner_eq (h : Safe source t) (request : Scanner.Request) :
    Slicing.scanner source t request = some (t.step request).scanner := by
  cases request with
  | scan => exact Slicing.scan_eq h.scanner.next
  | rescanSlash => exact Slicing.rescanSlash_eq h.scanner.start h.scanner.slashed
  | snapshot | restore | takeError => rfl

/-- Whatever a safe session is asked for, every slice that it takes exists. -/
theorem Safe.sliced (h : Safe source t) (request : Scanner.Request) :
    Slicing.step source t request = some (t.step request) := by
  have hstep := (h.step request).scanner
  unfold Slicing.step
  rw [h.scanner_eq, Option.bind_eq_bind, Option.bind_some,
    Slicing.text_eq hstep.start hstep.reaches]
  rfl

theorem Safe.foldl (h : Safe source t) (requests : List Scanner.Request) :
    Safe source (requests.foldl Session.step t) ∧
      requests.foldlM (Slicing.step source) t = some (requests.foldl Session.step t) := by
  induction requests generalizing t with
  | nil => exact ⟨h, rfl⟩
  | cons request requests ih =>
      obtain ⟨hsafe, hsliced⟩ := ih (h.step request)
      refine ⟨hsafe, ?_⟩
      rw [List.foldlM_cons, h.sliced, Option.bind_eq_bind, Option.bind_some, hsliced]
      rfl

/-- In every session all slices exist, the token lies on the source between two character
boundaries, and so do the places at which errors are reported. -/
theorem run_safe (source : String) (requests : List Scanner.Request) :
    let t := run source requests
    Slicing.run source requests = some t ∧
      t.scanner.token.start.offset ≤ t.scanner.token.next.offset ∧
      t.scanner.token.next.offset ≤ source.utf8ByteSize ∧
      (⟨t.scanner.token.start.offset⟩ : String.Pos.Raw).IsValid source ∧
      (⟨t.scanner.token.next.offset⟩ : String.Pos.Raw).IsValid source ∧
      ∀ e, e ∈ t.scanner.error ∨ e ∈ t.taken →
        e.offset ≤ source.utf8ByteSize ∧ (⟨e.offset⟩ : String.Pos.Raw).IsValid source := by
  obtain ⟨hsafe, hsliced⟩ := (safe_start source).foldl requests
  rcases hsafe.scanner.reaches with ⟨word, hword⟩
  refine ⟨hsliced, hword.offset_le, hsafe.scanner.next.offset_le, hsafe.scanner.start.isValid,
    hsafe.scanner.next.isValid, ?_⟩
  rintro e (hpending | htaken)
  · exact hsafe.scanner.error e hpending
  · exact hsafe.taken e htaken

end Session

end Untangle
