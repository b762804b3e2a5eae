import Untangle.Token.Cursor

/-!
# Spans of text

What a reader consumes lies between two cursors on one text. The same characters are consumed
wherever the text stands in a longer one.
-/

namespace Untangle
namespace Cursor

variable {c d e : Cursor} {w v after : List Char} {before : Nat} {p : Char → Bool}

/-!
## Consumed text
-/

theorem takeBytes_append (w rest : List Char) : takeBytes (byteLength w) (w ++ rest) = w := by
  induction w with
  | nil => cases rest <;> rfl
  | cons ch w ih =>
      have hpos := ch.utf8Size_pos
      rw [byteLength, List.cons_append, takeBytes, if_neg (by omega), Nat.add_sub_cancel_left, ih]

theorem Spans.charsTo (h : c.Spans w d) : c.charsTo d = w := by
  rw [Cursor.charsTo, h.offset, Nat.add_sub_cancel_left, h.rest, takeBytes_append]

theorem Spans.offset_le (h : c.Spans w d) : c.offset ≤ d.offset := by
  rw [h.offset]
  exact Nat.le_add_right _ _

theorem length_le_byteLength (w : List Char) : w.length ≤ byteLength w := by
  induction w with
  | nil => exact Nat.le_refl _
  | cons ch w ih =>
      rw [List.length_cons, byteLength, Nat.add_comm]
      exact Nat.add_le_add ch.utf8Size_pos ih

theorem size_utf8Encode (w : List Char) : w.utf8Encode.size = byteLength w := by
  induction w with
  | nil => rfl
  | cons ch w ih =>
      rw [List.utf8Encode_cons, ByteArray.size_append, ih, List.utf8Encode_singleton, byteLength,
        List.size_toByteArray, String.length_utf8EncodeChar]

theorem byteLength_toList (s : String) : byteLength s.toList = s.utf8ByteSize := by
  rw [← size_utf8Encode, String.utf8Encode_toList, String.utf8ByteSize]

/-!
## Longer texts
-/

/-- The same place in a longer text, which has some bytes before and some characters after. -/
def inside (c : Cursor) (before : Nat) (after : List Char) : Cursor :=
  ⟨c.rest ++ after, c.offset + before⟩

theorem Spans.inside (h : c.Spans w d) (before : Nat) (after : List Char) :
    (c.inside before after).Spans w (d.inside before after) := by
  constructor
  · simp [Cursor.inside, h.rest]
  · simp [Cursor.inside, h.offset, Nat.add_right_comm]

theorem Reaches.charsTo_inside (h : c.Reaches d) :
    (c.inside before after).charsTo (d.inside before after) = c.charsTo d := by
  rcases h with ⟨w, hw⟩
  rw [(hw.inside before after).charsTo, hw.charsTo]

theorem Reaches.textTo_inside (h : c.Reaches d) :
    (c.inside before after).textTo (d.inside before after) = c.textTo d := by
  rw [textTo, h.charsTo_inside, textTo]

/-- Only the first character of what comes after may take the place of a missing one. -/
theorem head?_inside {ch stop : Char} (hne : ch ≠ stop) :
    (c.inside before (stop :: after)).head? = some ch ↔ c.head? = some ch := by
  cases hrest : c.rest with
  | nil => simp [head?, inside, hrest, hne.symm]
  | cons first rest => simp [head?, inside, hrest]

theorem head?_beq_inside {ch stop : Char} (hne : ch ≠ stop) :
    ((c.inside before (stop :: after)).head? == some ch) = (c.head? == some ch) := by
  rw [Bool.eq_iff_iff, beq_iff_eq, beq_iff_eq, head?_inside hne]

theorem any_head?_inside {stop : Char} (hstop : p stop = false) :
    (c.inside before (stop :: after)).head?.any p = c.head?.any p := by
  cases hrest : c.rest with
  | nil => simp [head?, inside, hrest, hstop]
  | cons first rest => simp [head?, inside, hrest]

theorem ne_nil_of_head? {ch : Char} (h : c.head? = some ch) : c.rest ≠ [] := by
  intro hrest
  rw [head?, hrest] at h
  cases h

theorem advance_inside (h : c.rest ≠ []) :
    (c.inside before after).advance = c.advance.inside before after := by
  obtain ⟨ch, rest, hrest⟩ := List.exists_cons_of_ne_nil h
  simp [advance, inside, hrest, Nat.add_right_comm]

theorem skip_inside {n : Nat} (h : n ≤ c.rest.length) :
    (c.inside before after).skip n = (c.skip n).inside before after := by
  induction n generalizing c with
  | zero => rfl
  | succ n ih =>
      have hne : c.rest ≠ [] := List.ne_nil_of_length_pos (Nat.lt_of_lt_of_le n.succ_pos h)
      rw [skip, skip, advance_inside hne]
      obtain ⟨ch, rest, hrest⟩ := List.exists_cons_of_ne_nil hne
      exact ih (by simpa [advance, hrest] using h)

theorem advance_inside_of {condition : Bool} (h : condition = true → c.rest ≠ []) :
    (if condition then (c.inside before after).advance else c.inside before after) =
      (if condition then c.advance else c).inside before after := by
  cases condition with
  | false => rfl
  | true => exact advance_inside (h rfl)

/-!
## Runs of one class
-/

theorem spans_dropWhileFrom (p : Char → Bool) (chars : List Char) (offset : Nat) :
    ∃ w, Spans ⟨chars, offset⟩ w (dropWhileFrom p chars offset) ∧ ∀ ch ∈ w, p ch := by
  induction chars generalizing offset with
  | nil => exact ⟨[], .refl _, by simp⟩
  | cons ch rest ih =>
      rw [dropWhileFrom]
      split
      · rename_i hch
        rcases ih (offset + ch.utf8Size) with ⟨w, hw, hall⟩
        have hfirst : Spans ⟨ch :: rest, offset⟩ [ch] ⟨rest, offset + ch.utf8Size⟩ :=
          spans_advance rfl
        exact ⟨ch :: w, hfirst.trans hw, List.forall_mem_cons.mpr ⟨hch, hall⟩⟩
      · exact ⟨[], .refl _, by simp⟩

theorem reaches_dropWhileFrom (p : Char → Bool) (chars : List Char) (offset : Nat) :
    Reaches ⟨chars, offset⟩ (dropWhileFrom p chars offset) := by
  rcases spans_dropWhileFrom p chars offset with ⟨w, hw, _⟩
  exact ⟨w, hw⟩

theorem reaches_dropWhile (p : Char → Bool) (c : Cursor) : c.Reaches (c.dropWhile p) :=
  reaches_dropWhileFrom p c.rest c.offset

theorem dropWhileFrom_inside {stop : Char} (hstop : p stop = false) (chars : List Char)
    (offset before : Nat) (after : List Char) :
    dropWhileFrom p (chars ++ stop :: after) (offset + before) =
      (dropWhileFrom p chars offset).inside before (stop :: after) := by
  induction chars generalizing offset with
  | nil => simp [dropWhileFrom, hstop, inside]
  | cons ch rest ih =>
      rw [List.cons_append, dropWhileFrom, dropWhileFrom]
      split
      · rw [Nat.add_right_comm, ih]
      · rfl

theorem dropWhile_inside {stop : Char} (hstop : p stop = false) :
    (c.inside before (stop :: after)).dropWhile p =
      (c.dropWhile p).inside before (stop :: after) :=
  dropWhileFrom_inside hstop c.rest c.offset before after

end Cursor
end Untangle
