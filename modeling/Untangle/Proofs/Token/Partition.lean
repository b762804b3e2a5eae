import Untangle.Proofs.Token.Gap
import Untangle.Proofs.Token.Reach

/-!
# Tokens and gaps partition the source

A run scans a source and may read a slash again as a regular expression. As long as it meets no
malformed token, the source is cut into gaps and tokens in turn: the gaps are blank, the flag of
each token tells whether a line ends in the gap before it, and every token but the end of the text
takes at least one character. So a run comes to an end.
-/

namespace Untangle

open Cursor

/-!
## Runs
-/

/-- What may be asked of a scanner. -/
inductive Scanner.Action
  | scan
  | rescanSlash
  deriving DecidableEq

/-- A scanner with the tokens it has read, the last one first. -/
structure Scanning where
  scanner : Scanner
  read : List Token

namespace Scanning

def start (source : String) : Scanning :=
  ⟨.ofString source, []⟩

/-- A token that is read again takes the place of the last one. -/
def step (t : Scanning) : Scanner.Action → Scanning
  | .scan => ⟨t.scanner.scan, t.scanner.scan.token :: t.read⟩
  | .rescanSlash =>
      ⟨t.scanner.rescanSlash,
        match t.read with
        | [] => []
        | _ :: earlier => t.scanner.rescanSlash.token :: earlier⟩

def run (source : String) (actions : List Scanner.Action) : Scanning :=
  actions.foldl step (start source)

/-- No malformed token was read. -/
def Known (t : Scanning) : Prop :=
  ∀ token ∈ t.read, token.kind ≠ .unknown

end Scanning

/-!
## Partitions
-/

/-- A token and the gap before it, which starts at the cursor. -/
structure Token.Follows (t : Token) (c : Cursor) (gap word : List Char) : Prop where
  before : c.Spans gap t.start
  blank : Gap.Blank c.offset gap t.start.rest
  lineBreak : t.lineBreakBefore = gap.any Text.isLineBreak
  spans : t.start.Spans word t.next
  nonempty : t.kind ≠ .endOfFile → word ≠ []
  atEnd : t.kind = .endOfFile → t.start.rest = []

/-- The place behind tokens that were read from a cursor, the last one first. -/
def Cursor.behind (c : Cursor) : List Token → Cursor
  | [] => c
  | t :: _ => t.next

/-- The text from a cursor is made up of tokens, the last one first, with gaps before them. -/
def Cursor.Partitioned (c : Cursor) : List Token → Prop
  | [] => True
  | t :: earlier => c.Partitioned earlier ∧ ∃ gap word, t.Follows (c.behind earlier) gap word

namespace Scanner

variable {s : Scanner}

/-- A scan passes a gap and reads the token behind it. -/
theorem follows_scan (hknown : s.scan.token.kind ≠ .unknown) :
    ∃ gap word, s.scan.token.Follows s.token.next gap word := by
  unfold scan at *
  split at *
  · exact absurd rfl hknown
  · rename_i start lineBreak heq
    rcases Gap.skipped_of_skip heq with ⟨gap, hgap⟩
    have hbreak : lineBreak = gap.any Text.isLineBreak := by simpa using hgap.lineBreak
    cases hrest : start.rest with
    | nil =>
        dsimp only
        rw [readToken_end s.depths hrest]
        exact ⟨gap, [], hgap.spans, hgap.skips, hbreak, .refl start, fun hne => absurd rfl hne,
          fun _ => hrest⟩
    | cons ch rest =>
        have hadvances := @advances_readToken start s.depths (by simp [hrest])
        rcases hadvances.reaches with ⟨word, hword⟩
        refine ⟨gap, word, hgap.spans, hgap.skips, hbreak, hword, ?_, ?_⟩
        · rintro - rfl
          have hsame := congrArg List.length hword.rest
          exact Nat.ne_of_gt (hadvances.progress hknown) (by simpa using hsame)
        · exact fun hend => absurd hend hadvances.notEnd

theorem rescanSlash_of_unknown (h : s.token.kind = .unknown) : s.rescanSlash = s := by
  unfold rescanSlash
  rw [if_neg (by simp [h])]

/-- Reading a token again changes neither its start nor what is before it. -/
theorem follows_rescanSlash {c : Cursor} {gap word : List Char}
    (h : s.token.Follows c gap word) (hknown : s.rescanSlash.token.kind ≠ .unknown) :
    ∃ word', s.rescanSlash.token.Follows c gap word' := by
  unfold rescanSlash at *
  by_cases hslash : s.token.kind = .mark .divide ∨ s.token.kind = .mark .divideAssign
  · rw [if_pos hslash] at hknown ⊢
    have hkind : s.token.kind ≠ .endOfFile := by
      rcases hslash with hslash | hslash <;> simp [hslash]
    have hne : s.token.start.rest ≠ [] := by
      rw [h.spans.rest]
      exact List.append_ne_nil_of_left_ne_nil (h.nonempty hkind) _
    cases hread : readRegularExpression s.token.start with
    | error stop =>
        rw [hread] at hknown
        exact absurd rfl hknown
    | ok next =>
        have hreach := advance_reaches_readRegularExpression hread
        rcases s.token.start.reaches_advance.trans hreach with ⟨word', hword'⟩
        refine ⟨word', h.before, h.blank, h.lineBreak, hword', ?_, nofun⟩
        rintro - rfl
        have hsame := congrArg List.length hword'.rest
        exact Nat.ne_of_gt (hreach.length_lt hne) (by simpa using hsame)
  · rw [if_neg hslash]
    exact ⟨word, h⟩

end Scanner

/-!
## Partitioned texts
-/

namespace Cursor

variable {c d : Cursor} {gap word w : List Char} {read : List Token} {t : Token}

theorem Partitioned.reaches_behind (h : c.Partitioned read) : c.Reaches (c.behind read) := by
  induction read with
  | nil => exact .refl c
  | cons t earlier ih =>
      rcases h with ⟨hearlier, gap, word, ht⟩
      have hgap : (c.behind earlier).Reaches t.start := ⟨gap, ht.before⟩
      have hword : t.start.Reaches t.next := ⟨word, ht.spans⟩
      exact ((ih hearlier).trans hgap).trans hword

/-- No token ends behind the place that was reached. -/
theorem Partitioned.next_le (h : c.Partitioned read) :
    ∀ t ∈ read, t.next.offset ≤ (c.behind read).offset := by
  induction read with
  | nil => exact List.forall_mem_nil _
  | cons t earlier ih =>
      rcases h with ⟨hearlier, gap, word, ht⟩
      refine List.forall_mem_cons.mpr ⟨Nat.le_refl _, fun t' ht' => ?_⟩
      have hgap := Nat.le_trans (ih hearlier t' ht') ht.before.offset_le
      exact Nat.le_trans hgap ht.spans.offset_le

/-- Tokens do not overlap, and later ones stand further behind. -/
theorem Partitioned.pairwise (h : c.Partitioned read) :
    read.Pairwise fun later earlier => earlier.next.offset ≤ later.start.offset := by
  induction read with
  | nil => exact .nil
  | cons t earlier ih =>
      rcases h with ⟨hearlier, gap, word, ht⟩
      refine .cons (fun t' ht' => ?_) (ih hearlier)
      exact Nat.le_trans (hearlier.next_le t' ht') ht.before.offset_le

/-- Every token in front of the end takes a byte at least. -/
theorem Partitioned.length_le (h : c.Partitioned read) (hkind : ∀ t ∈ read, t.kind ≠ .endOfFile) :
    c.offset + read.length ≤ (c.behind read).offset := by
  induction read with
  | nil => exact Nat.le_refl _
  | cons t earlier ih =>
      rcases h with ⟨hearlier, gap, word, ht⟩
      rcases List.forall_mem_cons.mp hkind with ⟨hlast, hkind⟩
      have hlength : 0 < word.length := List.length_pos_iff.mpr (ht.nonempty hlast)
      have hword : t.start.offset < t.next.offset := by
        rw [ht.spans.offset]
        exact Nat.lt_add_of_pos_right (Nat.lt_of_lt_of_le hlength (length_le_byteLength word))
      have hgap := Nat.le_trans (ih hearlier hkind) ht.before.offset_le
      exact Nat.lt_of_le_of_lt hgap hword

end Cursor

/-!
## What a run preserves
-/

/-- The scanner stands behind the last token that was read. -/
structure Scanning.Sound (source : String) (t : Scanning) : Prop where
  next : t.scanner.token.next = (Cursor.ofString source).behind t.read
  last : ∀ token ∈ t.read.head?, token = t.scanner.token
  fresh : t.read = [] → t.scanner.token.kind = .unknown
  partitioned : t.Known → (Cursor.ofString source).Partitioned t.read

namespace Scanning

variable {source : String} {t : Scanning}

theorem sound_start (source : String) : Sound source (start source) :=
  ⟨rfl, fun _ h => absurd h (Option.not_mem_none _), fun _ => rfl, fun _ => trivial⟩

theorem Sound.scan (h : Sound source t) : Sound source (t.step .scan) := by
  refine ⟨rfl, fun token htoken => (Option.some.inj htoken).symm, nofun, fun hknown => ?_⟩
  rcases List.forall_mem_cons.mp hknown with ⟨hnew, hearlier⟩
  refine ⟨h.partitioned hearlier, ?_⟩
  rw [← h.next]
  exact Scanner.follows_scan hnew

theorem Sound.rescanSlash (h : Sound source t) : Sound source (t.step .rescanSlash) := by
  obtain ⟨scanner, read⟩ := t
  cases read with
  | nil =>
      have hsame : scanner.rescanSlash = scanner := Scanner.rescanSlash_of_unknown (h.fresh rfl)
      rw [step, hsame]
      exact h
  | cons token earlier =>
      obtain rfl : token = scanner.token := h.last token rfl
      refine ⟨rfl, fun token htoken => (Option.some.inj htoken).symm, nofun, fun hknown => ?_⟩
      rcases List.forall_mem_cons.mp hknown with ⟨hnew, hearlier⟩
      have hold : scanner.token.kind ≠ .unknown := fun hold =>
        hnew ((congrArg (·.token.kind) (Scanner.rescanSlash_of_unknown hold)).trans hold)
      rcases h.partitioned (List.forall_mem_cons.mpr ⟨hold, hearlier⟩) with
        ⟨hbefore, gap, word, hlast⟩
      rcases Scanner.follows_rescanSlash hlast hnew with ⟨word', hlast'⟩
      exact ⟨hbefore, gap, word', hlast'⟩

theorem Sound.step (h : Sound source t) (action : Scanner.Action) :
    Sound source (t.step action) := by
  cases action with
  | scan => exact h.scan
  | rescanSlash => exact h.rescanSlash

theorem Sound.foldl (h : Sound source t) (actions : List Scanner.Action) :
    Sound source (actions.foldl Scanning.step t) := by
  induction actions generalizing t with
  | nil => exact h
  | cons action actions ih => exact ih (h.step action)

theorem sound_run (source : String) (actions : List Scanner.Action) :
    Sound source (run source actions) :=
  (sound_start source).foldl actions

/-- Only scans add tokens. -/
theorem length_foldl_step (t : Scanning) (actions : List Scanner.Action) :
    (actions.foldl step t).read.length = t.read.length + actions.count .scan := by
  induction actions generalizing t with
  | nil => rfl
  | cons action actions ih =>
      rw [List.foldl_cons, ih]
      cases action with
      | scan => simp [step, Nat.add_assoc, Nat.add_comm 1]
      | rescanSlash =>
          obtain ⟨scanner, read⟩ := t
          cases read <;> simp [step]

end Scanning

/-!
## Every run
-/

namespace Scanning

/-- The tokens of a run without malformed ones partition what was read of the source, and the end
of the source or a malformed token comes after at most as many scans as there are bytes, plus
one. -/
theorem run_partitions (source : String) (actions : List Scanner.Action) :
    ((run source actions).Known →
      (Cursor.ofString source).Partitioned (run source actions).read ∧
        (run source actions).read.Pairwise fun later earlier =>
          earlier.next.offset ≤ later.start.offset) ∧
      (source.utf8ByteSize < actions.count .scan →
        ∃ t ∈ (run source actions).read, t.kind = .endOfFile ∨ t.kind = .unknown) := by
  have hsound := sound_run source actions
  refine ⟨fun hknown => ⟨hsound.partitioned hknown, (hsound.partitioned hknown).pairwise⟩, ?_⟩
  intro hlong
  apply Classical.byContradiction
  intro hnone
  have hpartitioned := hsound.partitioned fun t ht hkind => hnone ⟨t, ht, .inr hkind⟩
  have hlength : (run source actions).read.length = actions.count .scan := by
    rw [run, length_foldl_step]
    exact Nat.zero_add _
  have hcount := hpartitioned.length_le fun t ht hkind => hnone ⟨t, ht, .inl hkind⟩
  rcases hpartitioned.reaches_behind with ⟨w, hw⟩
  have hbytes : byteLength w ≤ source.utf8ByteSize := by
    rw [← byteLength_toList, show source.toList = _ from hw.rest, byteLength_append]
    exact Nat.le_add_right _ _
  rw [hw.offset, hlength] at hcount
  exact Nat.not_lt.mpr (Nat.le_trans (Nat.add_le_add_iff_left.mp hcount) hbytes) hlong

/-- A regular expression, a line end and a parenthesis, scanned beyond the end. -/
theorem run_partitions_regularExpression :
    let actions : List Scanner.Action :=
      [.scan, .rescanSlash, .scan, .scan, .scan, .scan, .scan]
    let t := run "/=/\n(" actions
    t.Known ∧ (Cursor.ofString "/=/\n(").Partitioned t.read ∧
      "/=/\n(".utf8ByteSize < actions.count .scan ∧
      ∃ token ∈ t.read, token.kind = .endOfFile ∨ token.kind = .unknown := by
  intro actions t
  have hkinds : t.read.map (·.kind) =
      [.endOfFile, .endOfFile, .endOfFile, .endOfFile, .mark .openParen, .regularExpression] := by
    decide +kernel
  have hknown : t.Known := by
    intro token htoken
    have hmem := List.mem_map_of_mem (f := (·.kind)) htoken
    rw [hkinds] at hmem
    rintro hkind
    simp [hkind] at hmem
  have hlong : "/=/\n(".utf8ByteSize < actions.count .scan := by decide
  have h := run_partitions "/=/\n(" actions
  exact ⟨hknown, (h.1 hknown).1, hlong, h.2 hlong⟩

end Scanning
end Untangle
