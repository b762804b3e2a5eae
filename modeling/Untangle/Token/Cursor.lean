/-!
# Reading positions

A cursor is the unread rest of a text together with the byte offset at which that rest starts.
-/

namespace Untangle

structure Cursor where
  rest : List Char
  offset : Nat
  deriving Repr, DecidableEq, Inhabited

namespace Cursor

def ofString (source : String) : Cursor :=
  ⟨source.toList, 0⟩

def head? (c : Cursor) : Option Char :=
  c.rest.head?

/-- Past one character; the end stays where it is. -/
def advance (c : Cursor) : Cursor :=
  match c.rest with
  | [] => c
  | ch :: rest => ⟨rest, c.offset + ch.utf8Size⟩

def skip : Nat → Cursor → Cursor
  | 0, c => c
  | n + 1, c => c.advance.skip n

/-!
## Spans
-/

def dropWhileFrom (p : Char → Bool) : List Char → Nat → Cursor
  | [], offset => ⟨[], offset⟩
  | ch :: rest, offset =>
      if p ch then dropWhileFrom p rest (offset + ch.utf8Size) else ⟨ch :: rest, offset⟩

def dropWhile (p : Char → Bool) (c : Cursor) : Cursor :=
  dropWhileFrom p c.rest c.offset

/-- The leading characters of a text that fit into a number of bytes. -/
def takeBytes : Nat → List Char → List Char
  | _, [] => []
  | bytes, ch :: rest =>
      if bytes = 0 then [] else ch :: takeBytes (bytes - ch.utf8Size) rest

/-- The characters from one cursor up to a later one on the same text. -/
def charsTo (start stop : Cursor) : List Char :=
  takeBytes (stop.offset - start.offset) start.rest

def textTo (start stop : Cursor) : String :=
  String.ofList (start.charsTo stop)

/-!
## Two places on one text
-/

def byteLength : List Char → Nat
  | [] => 0
  | ch :: w => ch.utf8Size + byteLength w

/-- The characters between two cursors. -/
structure Spans (c : Cursor) (w : List Char) (d : Cursor) : Prop where
  rest : c.rest = w ++ d.rest
  offset : d.offset = c.offset + byteLength w

/-- One cursor stands behind the other on one text. -/
def Reaches (c d : Cursor) : Prop :=
  ∃ w, c.Spans w d

variable {c d e : Cursor} {w v : List Char}

theorem byteLength_append (w v : List Char) :
    byteLength (w ++ v) = byteLength w + byteLength v := by
  induction w with
  | nil => exact (Nat.zero_add _).symm
  | cons ch w ih => rw [List.cons_append, byteLength, ih, byteLength, Nat.add_assoc]

theorem Spans.refl (c : Cursor) : c.Spans [] c :=
  ⟨rfl, rfl⟩

theorem Spans.trans (h : c.Spans w d) (h' : d.Spans v e) : c.Spans (w ++ v) e := by
  constructor
  · rw [h.rest, h'.rest, List.append_assoc]
  · rw [h'.offset, h.offset, byteLength_append, Nat.add_assoc]

theorem spans_advance {ch : Char} {rest : List Char} (h : c.rest = ch :: rest) :
    c.Spans [ch] c.advance := by
  constructor
  · simp [advance, h]
  · simp [advance, h, byteLength]

theorem Reaches.refl (c : Cursor) : c.Reaches c :=
  ⟨[], .refl c⟩

theorem Reaches.trans (h : c.Reaches d) (h' : d.Reaches e) : c.Reaches e := by
  rcases h with ⟨w, hw⟩
  rcases h' with ⟨v, hv⟩
  exact ⟨w ++ v, hw.trans hv⟩

theorem reaches_advance (c : Cursor) : c.Reaches c.advance := by
  cases hrest : c.rest with
  | nil =>
      have hadvance : c.advance = c := by simp [advance, hrest]
      rw [hadvance]
      exact .refl c
  | cons ch rest => exact ⟨[ch], spans_advance hrest⟩

theorem reaches_skip (n : Nat) (c : Cursor) : c.Reaches (c.skip n) := by
  induction n generalizing c with
  | zero => exact .refl c
  | succ n ih => exact c.reaches_advance.trans (ih c.advance)

/-!
## Progress
-/

theorem Reaches.length_le (h : c.Reaches d) : d.rest.length ≤ c.rest.length := by
  rcases h with ⟨w, hw⟩
  rw [hw.rest, List.length_append]
  exact Nat.le_add_left _ _

theorem length_advance_lt (h : c.rest ≠ []) : c.advance.rest.length < c.rest.length := by
  unfold advance
  split <;> simp_all

/-- A reader that starts behind the first character leaves less than there was. -/
theorem Reaches.length_lt (h : c.advance.Reaches d) (hne : c.rest ≠ []) :
    d.rest.length < c.rest.length :=
  Nat.lt_of_le_of_lt h.length_le (length_advance_lt hne)

end Cursor
end Untangle
