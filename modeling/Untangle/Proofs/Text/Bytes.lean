import Untangle.Proofs.Token.Span
import Untangle.Text.CharClass

/-!
# Bytes of a text

A byte below 128 stands for a character of its own wherever it occurs in an encoded text. So an
occurrence of some bytes of this kind is an occurrence of their characters, and if the first of
them does not come again among the others, a search for occurrences that do not overlap finds all
there are.
-/

namespace Untangle
namespace Text

open Cursor (byteLength)

variable {chars w v : List Char} {ch : Char} {before behind bytes needle : List UInt8} {b : UInt8}

/-!
## Encoded characters
-/

def encode (chars : List Char) : List UInt8 :=
  chars.flatMap String.utf8EncodeChar

/-- The bytes of a string. -/
def bytesOf (s : String) : List UInt8 :=
  s.toByteArray.data.toList

theorem bytesOf_eq (s : String) : bytesOf s = encode s.toList := by
  have hencode : s.toByteArray = s.toList.utf8Encode := String.utf8Encode_toList.symm
  rw [bytesOf, hencode, List.utf8Encode, List.data_toByteArray]
  rfl

theorem encode_cons (ch : Char) (chars : List Char) :
    encode (ch :: chars) = String.utf8EncodeChar ch ++ encode chars :=
  List.flatMap_cons

theorem encode_append (w v : List Char) : encode (w ++ v) = encode w ++ encode v :=
  List.flatMap_append

theorem length_encode (chars : List Char) : (encode chars).length = byteLength chars := by
  induction chars with
  | nil => rfl
  | cons ch chars ih =>
      rw [encode_cons, List.length_append, String.length_utf8EncodeChar, ih, byteLength]

theorem encode_eq_nil (h : encode chars = []) : chars = [] := by
  cases chars with
  | nil => rfl
  | cons ch chars =>
      rw [encode_cons, List.append_eq_nil_iff] at h
      exact absurd h.1 String.utf8EncodeChar_ne_nil

/-- The byte of an ASCII character. -/
def asciiByte (ch : Char) : UInt8 :=
  UInt8.ofNat ch.toNat

theorem utf8EncodeChar_ascii (h : isAscii ch = true) :
    String.utf8EncodeChar ch = [asciiByte ch] := by
  have hle : ch.val.toNat ≤ 0x7f := Nat.le_of_lt_succ (of_decide_eq_true h)
  exact if_pos hle

/-- A byte below 128 is a whole character. -/
theorem utf8EncodeChar_of_mem (hb : b ∈ String.utf8EncodeChar ch) (hlt : b.toNat < 0x80) :
    isAscii ch = true ∧ b = asciiByte ch := by
  by_cases hascii : isAscii ch = true
  · rw [utf8EncodeChar_ascii hascii, List.mem_singleton] at hb
    exact ⟨hascii, hb⟩
  · have hgt : ¬ ch.val.toNat ≤ 0x7f := fun hle =>
      hascii (decide_eq_true (Nat.lt_succ_of_le hle))
    have hlarge : ∀ n, 0x80 ≤ n → n < 0x100 → b ≠ UInt8.ofNat n := by
      rintro n hn hn' rfl
      rw [UInt8.toNat_ofNat', Nat.mod_eq_of_lt hn'] at hlt
      omega
    unfold String.utf8EncodeChar at hb
    dsimp only at hb
    rw [if_neg hgt] at hb
    split at hb
    · simp only [List.mem_cons, List.not_mem_nil, or_false] at hb
      rcases hb with hb | hb <;> exact absurd hb (hlarge _ (by omega) (by omega))
    split at hb
    · simp only [List.mem_cons, List.not_mem_nil, or_false] at hb
      rcases hb with hb | hb | hb <;> exact absurd hb (hlarge _ (by omega) (by omega))
    · simp only [List.mem_cons, List.not_mem_nil, or_false] at hb
      rcases hb with hb | hb | hb | hb <;> exact absurd hb (hlarge _ (by omega) (by omega))

theorem asciiByte_toNat (h : isAscii ch = true) : (asciiByte ch).toNat = ch.toNat := by
  have hlt : ch.toNat < 0x80 := of_decide_eq_true h
  rw [asciiByte, UInt8.toNat_ofNat', Nat.mod_eq_of_lt (by omega)]

theorem asciiByte_inj {other : Char} (h : isAscii ch = true) (h' : isAscii other = true)
    (heq : asciiByte ch = asciiByte other) : ch = other := by
  rw [← Char.ofNat_toNat ch, ← asciiByte_toNat h, heq, asciiByte_toNat h', Char.ofNat_toNat]

/-!
## Occurrences of characters
-/

theorem split_of_encode_eq (h : encode chars = before ++ asciiByte ch :: behind)
    (hch : isAscii ch = true) :
    ∃ w v, chars = w ++ ch :: v ∧ encode w = before ∧ encode v = behind := by
  have hlt : (asciiByte ch).toNat < 0x80 := asciiByte_toNat hch ▸ of_decide_eq_true hch
  induction chars generalizing before with
  | nil =>
      rw [encode, List.flatMap_nil] at h
      exact absurd h.symm (by simp)
  | cons first chars ih =>
      rw [encode_cons] at h
      rcases List.append_eq_append_iff.mp h with ⟨more, hbefore, hmore⟩ | ⟨more, hfirst, hmore⟩
      · rcases ih hmore with ⟨w, v, rfl, rfl, rfl⟩
        exact ⟨first :: w, v, rfl, (encode_cons _ _).trans hbefore.symm, rfl⟩
      · cases more with
        | nil =>
            rcases @ih [] hmore.symm with ⟨w, v, rfl, hw, rfl⟩
            obtain rfl := encode_eq_nil hw
            refine ⟨[first], v, rfl, ?_, rfl⟩
            rw [encode_cons, hfirst]
            simp [encode]
        | cons byte more =>
            obtain ⟨rfl, hbehind⟩ := List.cons.inj hmore
            have hmem : asciiByte ch ∈ String.utf8EncodeChar first := by simp [hfirst]
            obtain ⟨hascii, heq⟩ := utf8EncodeChar_of_mem hmem hlt
            obtain rfl := asciiByte_inj hch hascii heq
            rw [utf8EncodeChar_ascii hascii] at hfirst
            obtain ⟨rfl, hone⟩ : before = [] ∧ more = [] := by
              cases before with
              | nil => simpa using hfirst
              | cons byte before => simp at hfirst
            subst hone
            exact ⟨[], chars, rfl, rfl, hbehind.symm⟩

theorem prefix_of_encode_eq (h : encode chars = encode w ++ behind)
    (hw : ∀ ch ∈ w, isAscii ch = true) : ∃ v, chars = w ++ v ∧ encode v = behind := by
  induction w generalizing chars with
  | nil => exact ⟨chars, rfl, h⟩
  | cons first w ih =>
      obtain ⟨hfirst, hw⟩ := List.forall_mem_cons.mp hw
      rw [encode_cons, utf8EncodeChar_ascii hfirst, List.append_assoc] at h
      rcases @split_of_encode_eq _ _ [] _ h hfirst with ⟨u, v, rfl, hu, hv⟩
      obtain rfl := encode_eq_nil hu
      rcases ih hv hw with ⟨v, rfl, hbehind⟩
      exact ⟨v, rfl, hbehind⟩

/-- Where the bytes of ASCII characters occur, the characters do. -/
theorem infix_of_encode_eq (h : encode chars = before ++ encode (ch :: w) ++ behind)
    (hw : ∀ c ∈ ch :: w, isAscii c = true) :
    ∃ u v, chars = u ++ (ch :: w) ++ v ∧ encode u = before := by
  obtain ⟨hch, hw⟩ := List.forall_mem_cons.mp hw
  rw [encode_cons, utf8EncodeChar_ascii hch, List.append_assoc, List.append_assoc] at h
  rcases split_of_encode_eq h hch with ⟨u, v, rfl, hu, hv⟩
  rcases prefix_of_encode_eq hv hw with ⟨v, rfl, -⟩
  exact ⟨u, v, by simp, hu⟩

/-!
## Searching
-/

/-- The places at which some bytes occur in others, which stand at an offset: from left to right,
each the first one behind the end of the one before it. -/
inductive Occurrences (needle : List UInt8) :
    (offset : Nat) → (bytes : List UInt8) → List Nat → Prop
  | nil {offset : Nat} {bytes : List UInt8} (h : ¬ needle <:+: bytes) :
      Occurrences needle offset bytes []
  | cons {offset : Nat} {before behind : List UInt8} {places : List Nat}
      (hfirst : ∀ w v, w ++ needle ++ v = before ++ needle ++ behind → before.length ≤ w.length)
      (h : Occurrences needle (offset + before.length + needle.length) behind places) :
      Occurrences needle offset (before ++ needle ++ behind) ((offset + before.length) :: places)

/-- A search that finds the occurrences that do not overlap, the leftmost first. -/
def FindsOccurrences (find : (bytes needle : List UInt8) → List Nat) : Prop :=
  ∀ bytes needle, needle ≠ [] → Occurrences needle 0 bytes (find bytes needle)

/-- Two occurrences do not overlap if the first byte does not come again. -/
theorem disjoint_of_not_mem {rest x v : List UInt8} (hrest : b ∉ rest) (hx : x ≠ [])
    (h : x ++ b :: rest ++ v = b :: rest ++ behind) : ∃ w, x = b :: rest ++ w := by
  rw [List.append_assoc] at h
  rcases List.append_eq_append_iff.mp h with ⟨more, hsplit, hmore⟩ | ⟨more, hsplit, -⟩
  · cases x with
    | nil => exact absurd rfl hx
    | cons first x =>
        obtain ⟨rfl, rfl⟩ := List.cons.inj hsplit
        cases more with
        | nil => exact ⟨[], by simp⟩
        | cons byte more =>
            obtain ⟨rfl, -⟩ := List.cons.inj hmore
            exact absurd (by simp) hrest
  · exact ⟨more, hsplit⟩

/-- Every occurrence is found if the first byte does not come again. -/
theorem Occurrences.mem_iff {rest : List UInt8} {offset : Nat} {places : List Nat} {n : Nat}
    (h : Occurrences (b :: rest) offset bytes places) (hrest : b ∉ rest) :
    n ∈ places ↔ ∃ w v, w ++ b :: rest ++ v = bytes ∧ n = offset + w.length := by
  induction h with
  | nil hnone =>
      simp only [List.not_mem_nil, false_iff]
      rintro ⟨w, v, hsplit, -⟩
      exact hnone ⟨w, v, hsplit⟩
  | @cons offset before behind places hfirst _ ih =>
      rw [List.mem_cons, ih]
      constructor
      · rintro (rfl | ⟨w, v, rfl, rfl⟩)
        · exact ⟨before, behind, rfl, rfl⟩
        · refine ⟨before ++ b :: rest ++ w, v, by simp, ?_⟩
          simp only [List.length_append, Nat.add_assoc]
      · rintro ⟨w, v, hsplit, rfl⟩
        have hle := hfirst w v hsplit
        rw [List.append_assoc w, List.append_assoc before] at hsplit
        rcases List.append_eq_append_iff.mp hsplit with ⟨x, rfl, hx⟩ | ⟨x, rfl, hx⟩
        · rw [List.length_append] at hle
          obtain rfl := List.eq_nil_of_length_eq_zero (by omega : x.length = 0)
          exact .inl (by rw [List.append_nil])
        · by_cases hnil : x = []
          · exact .inl (by rw [hnil, List.append_nil])
          · rw [← List.append_assoc] at hx
            rcases disjoint_of_not_mem hrest hnil hx.symm with ⟨w, rfl⟩
            refine .inr ⟨w, v, ?_, ?_⟩
            · simpa using hx.symm
            · simp only [List.length_append, Nat.add_assoc]

/-!
## A search
-/

/-- Go through the bytes; behind an occurrence some of them are skipped. -/
def occurrencesFrom (needle : List UInt8) : (skip offset : Nat) → List UInt8 → List Nat
  | _, _, [] => []
  | skip + 1, offset, _ :: rest => occurrencesFrom needle skip (offset + 1) rest
  | 0, offset, b :: rest =>
      if needle.isPrefixOf (b :: rest) then
        offset :: occurrencesFrom needle (needle.length - 1) (offset + 1) rest
      else occurrencesFrom needle 0 (offset + 1) rest

def occurrences (bytes needle : List UInt8) : List Nat :=
  occurrencesFrom needle 0 0 bytes

/-- A byte at which no occurrence starts may be put in front. -/
theorem Occurrences.cons_byte {offset : Nat} {places : List Nat}
    (h : Occurrences needle (offset + 1) bytes places) (hb : ¬ needle <+: b :: bytes) :
    Occurrences needle offset (b :: bytes) places := by
  cases h with
  | nil hnone =>
      refine .nil fun hinfix => ?_
      rcases List.infix_cons_iff.mp hinfix with hstarts | hinfix
      · exact hb hstarts
      · exact hnone hinfix
  | @cons _ before behind places hfirst h =>
      have hplace : offset + (b :: before).length = offset + 1 + before.length := by
        rw [List.length_cons]
        omega
      rw [← hplace] at h ⊢
      have hsplit : b :: (before ++ needle ++ behind) = b :: before ++ needle ++ behind := rfl
      rw [hsplit]
      refine .cons ?_ h
      rintro (_ | ⟨first, w⟩) v hsplit
      · exact absurd ⟨v, hsplit⟩ hb
      · exact Nat.succ_le_succ (hfirst w v (List.cons.inj hsplit).2)

theorem occurrencesFrom_spec (hne : needle ≠ []) {skip offset : Nat}
    (hskip : skip ≤ bytes.length) :
    Occurrences needle (offset + skip) (bytes.drop skip)
      (occurrencesFrom needle skip offset bytes) := by
  induction bytes generalizing skip offset with
  | nil =>
      rw [List.drop_nil, occurrencesFrom]
      exact .nil fun hinfix => hne (List.infix_nil.mp hinfix)
  | cons b rest ih =>
      cases skip with
      | succ skip =>
          rw [List.drop_succ_cons, occurrencesFrom, ← Nat.add_assoc, Nat.add_right_comm]
          exact ih (Nat.le_of_succ_le_succ hskip)
      | zero =>
          rw [occurrencesFrom]
          split
          · rename_i hstarts
            rcases List.isPrefixOf_iff_prefix.mp hstarts with ⟨behind, hsplit⟩
            obtain ⟨first, needle, rfl⟩ := List.exists_cons_of_ne_nil hne
            obtain ⟨rfl, rfl⟩ := List.cons.inj hsplit
            have hrest := @ih needle.length (offset + 1) (by simp)
            rw [List.append_eq, List.drop_left, Nat.add_assoc, Nat.add_comm 1] at hrest
            exact @Occurrences.cons _ _ [] _ _ (fun _ _ _ => Nat.zero_le _) hrest
          · rename_i hstarts
            refine (ih (Nat.zero_le _)).cons_byte fun h => hstarts ?_
            exact List.isPrefixOf_iff_prefix.mpr h

theorem findsOccurrences_occurrences : FindsOccurrences occurrences := by
  intro bytes needle hne
  exact @occurrencesFrom_spec _ _ hne 0 0 (Nat.zero_le bytes.length)

end Text
end Untangle
