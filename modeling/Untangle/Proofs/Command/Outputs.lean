import Mathlib.Data.List.TakeWhile
import Untangle.Command.Execution

/-!
# Sources and results

A directory walk finds sources by their names and leaves the results of earlier runs alone. A
result lies next to its source under a name of its own.
-/

namespace Untangle

/-!
## Paths
-/

namespace Path

variable {separator : Char} {directory name stem extension : List Char}

/-- A name that a directory gives to a file. -/
structure IsName (name : List Char) : Prop where
  ne_nil : name ≠ []
  ne_here : name ≠ ['.']
  ne_above : name ≠ ['.', '.']
  not_slash : '/' ∉ name

instance (name : List Char) : Decidable (IsName name) :=
  decidable_of_iff (name ≠ [] ∧ name ≠ ['.'] ∧ name ≠ ['.', '.'] ∧ '/' ∉ name)
    ⟨fun ⟨hnil, hhere, habove, hslash⟩ => ⟨hnil, hhere, habove, hslash⟩,
      fun h => ⟨h.ne_nil, h.ne_here, h.ne_above, h.not_slash⟩⟩

/-- The front of a path, behind which a name may stand. -/
def IsPlace (directory : List Char) : Prop :=
  directory = [] ∨ ∃ front, directory = front ++ ['/']

theorem takeWhile_reverse (h : separator ∉ name) :
    name.reverse.takeWhile (· != separator) = name.reverse := by
  rw [List.takeWhile_eq_self_iff]
  intro ch hch
  rw [bne_iff_ne]
  rintro rfl
  exact h (List.mem_reverse.mp hch)

theorem takeWhile_reverse_append (front : List Char) (h : separator ∉ name) :
    (front ++ separator :: name).reverse.takeWhile (· != separator) = name.reverse := by
  have hkept := List.takeWhile_eq_self_iff.mp (takeWhile_reverse h)
  rw [List.reverse_append, List.reverse_cons, List.append_assoc,
    List.takeWhile_append_of_pos hkept]
  simp

theorem lastComponent_append (hplace : IsPlace directory) (hslash : '/' ∉ name) :
    lastComponent (directory ++ name) = name := by
  rw [lastComponent]
  rcases hplace with rfl | ⟨front, rfl⟩
  · rw [List.nil_append, takeWhile_reverse hslash, List.reverse_reverse]
  · rw [List.append_assoc, List.singleton_append, takeWhile_reverse_append front hslash,
      List.reverse_reverse]

theorem dropTrailing_of_last {last : Char} {rest : List Char} (hslash : last ≠ '/')
    (hdot : last = '.' → rest.head? ≠ some '/') :
    dropTrailing (last :: rest) = last :: rest := by
  refine dropTrailing.eq_3 _ (fun _ h => hslash (List.cons.inj h).1) fun _ h => ?_
  obtain ⟨hlast, hrest⟩ := List.cons.inj h
  exact hdot hlast (congrArg List.head? hrest)

theorem trimmed_append (directory : List Char) (hne : name ≠ []) (hhere : name ≠ ['.'])
    (hslash : '/' ∉ name) : trimmed (directory ++ name) = directory ++ name := by
  have hkept : dropTrailing (directory ++ name).reverse = (directory ++ name).reverse := by
    rw [List.reverse_append]
    rw [← List.mem_reverse] at hslash
    cases hname : name.reverse with
    | nil => exact absurd (List.reverse_eq_nil_iff.mp hname) hne
    | cons last front =>
        rw [hname, List.mem_cons, not_or] at hslash
        refine dropTrailing_of_last (Ne.symm hslash.1) ?_
        rintro rfl
        cases front with
        | nil => exact absurd (List.reverse_eq_iff.mp hname) hhere
        | cons second front =>
            have hsecond := (not_or.mp (List.mem_cons.not.mp hslash.2)).1
            exact fun hhead => hsecond (Option.some.inj hhead).symm
  rw [trimmed, hkept, List.reverse_reverse]

theorem fileNameChars?_append (hplace : IsPlace directory) (hname : IsName name) :
    fileNameChars? (directory ++ name) = some name := by
  rw [fileNameChars?, trimmed_append directory hname.ne_nil hname.ne_here hname.not_slash,
    lastComponent_append hplace hname.not_slash, if_neg]
  rintro (hnil | hhere | habove)
  · exact hname.ne_nil hnil
  · exact hname.ne_here hhere
  · exact hname.ne_above habove

theorem fileNameChars?_above (hplace : IsPlace directory) :
    fileNameChars? (directory ++ ['.', '.']) = none := by
  rw [fileNameChars?, trimmed_append directory (by decide) (by decide) (by decide),
    lastComponent_append hplace (by decide)]
  rfl

/-!
## Extensions
-/

theorem splitName_append (hstem : stem ≠ []) (hextension : '.' ∉ extension) :
    splitName (stem ++ '.' :: extension) = (stem, some extension) := by
  have hlength : (stem ++ '.' :: extension).length - extension.length - 1 = stem.length := by
    rw [List.length_append, List.length_cons]
    omega
  rw [splitName, takeWhile_reverse_append stem hextension, List.reverse_reverse, hlength,
    List.take_left, if_neg hstem]

/-- A name without a dot behind its first character is all stem. -/
theorem splitName_of_not_mem (h : '.' ∉ name.tail) : splitName name = (name, none) := by
  have hextension : name.length ≤ (name.reverse.takeWhile (· != '.')).reverse.length + 1 := by
    cases name with
    | nil => exact Nat.zero_le _
    | cons first rest =>
        by_cases hfirst : first = '.'
        · subst hfirst
          have hbehind := takeWhile_reverse_append [] h
          rw [List.nil_append, List.tail_cons] at hbehind
          rw [hbehind, List.reverse_reverse]
          exact Nat.le_refl _
        · have hall : '.' ∉ first :: rest := List.not_mem_cons_of_ne_of_not_mem (Ne.symm hfirst) h
          rw [takeWhile_reverse hall, List.reverse_reverse]
          exact Nat.le_succ _
  have hzero : name.length - (name.reverse.takeWhile (· != '.')).reverse.length - 1 = 0 := by
    omega
  rw [splitName, hzero, List.take_zero, if_pos rfl]

/-- A name is cut at its last dot or not at all. -/
theorem splitName_cases (name : List Char) :
    (∃ stem extension, stem ≠ [] ∧ '.' ∉ extension ∧ name = stem ++ '.' :: extension) ∨
      '.' ∉ name.tail := by
  by_cases hdot : '.' ∈ name.tail
  · refine .inl ?_
    obtain ⟨behind, before, hsplit, hbehind⟩ :=
      List.eq_append_cons_of_mem (List.mem_reverse.mpr hdot)
    cases name with
    | nil => cases hdot
    | cons first rest =>
        refine ⟨first :: before.reverse, behind.reverse, List.cons_ne_nil _ _,
          fun h => hbehind (List.mem_reverse.mp h), ?_⟩
        rw [List.tail_cons, List.reverse_eq_iff] at hsplit
        rw [hsplit]
        simp
  · exact .inr hdot

theorem withoutExtension_append (hplace : IsPlace directory)
    (hname : IsName (stem ++ '.' :: extension)) (hstem : stem ≠ []) (hextension : '.' ∉ extension) :
    withoutExtension (directory ++ (stem ++ '.' :: extension)) = directory ++ (stem ++ ['.']) := by
  have hsplit : directory ++ (stem ++ '.' :: extension) =
      directory ++ (stem ++ ['.']) ++ extension := by simp
  rw [withoutExtension, fileNameChars?_append hplace hname, Option.bind_some,
    splitName_append hstem hextension]
  dsimp only
  rw [hsplit, List.length_append, Nat.add_sub_cancel, List.take_left]

theorem withoutExtension_of_not_mem (hplace : IsPlace directory) (hname : IsName name)
    (h : '.' ∉ name.tail) : withoutExtension (directory ++ name) = directory ++ name := by
  rw [withoutExtension, fileNameChars?_append hplace hname, Option.bind_some,
    splitName_of_not_mem h]

theorem setExtension_append (hplace : IsPlace directory) (hname : IsName name) :
    setExtension extension (directory ++ name) =
      directory ++ ((splitName name).1 ++ '.' :: extension) := by
  rw [setExtension, fileNameChars?_append hplace hname]
  dsimp only
  rw [trimmed_append directory hname.ne_nil hname.ne_here hname.not_slash, List.length_append,
    Nat.add_sub_cancel, List.take_left, List.append_assoc]

theorem setExtension_above (hplace : IsPlace directory) :
    setExtension extension (directory ++ ['.', '.']) = directory ++ ['.', '.'] := by
  rw [setExtension, fileNameChars?_above hplace]

/-- What becomes of a name with this stem. Without its extension the name of a lone dot leads to the
directory above, which has none. -/
def extended (extension stem : List Char) : List Char :=
  if stem = ['.'] then ['.', '.'] else stem ++ '.' :: extension

theorem setExtension_withoutExtension (hplace : IsPlace directory) (hname : IsName name) :
    setExtension extension (withoutExtension (directory ++ name)) =
      directory ++ extended extension (splitName name).1 := by
  rcases splitName_cases name with ⟨stem, old, hstem, hold, rfl⟩ | hdot
  · rw [withoutExtension_append hplace hname hstem hold, splitName_append hstem hold, extended]
    by_cases hhere : stem = ['.']
    · rw [if_pos hhere, hhere]
      exact setExtension_above hplace
    · have hbare : IsName (stem ++ ['.']) := by
        refine ⟨by simp, by simpa using hstem, ?_, ?_⟩
        · exact fun h => hhere (List.append_cancel_right (h.trans (List.singleton_append).symm))
        · intro h
          exact hname.not_slash (List.mem_append_left _ (by simpa using h))
      rw [if_neg hhere, setExtension_append hplace hbare,
        splitName_append hstem (List.not_mem_nil)]
  · rw [withoutExtension_of_not_mem hplace hname hdot, setExtension_append hplace hname,
      splitName_of_not_mem hdot, extended, if_neg hname.ne_here]

theorem stem_ne_nil_and_not_slash (hname : IsName name) :
    (splitName name).1 ≠ [] ∧ '/' ∉ (splitName name).1 := by
  rcases splitName_cases name with ⟨stem, old, hstem, hold, rfl⟩ | hdot
  · rw [splitName_append hstem hold]
    exact ⟨hstem, fun h => hname.not_slash (List.mem_append_left _ h)⟩
  · rw [splitName_of_not_mem hdot]
    exact ⟨hname.ne_nil, hname.not_slash⟩

theorem not_slash_extended (hextension : '/' ∉ extension) (hstem : '/' ∉ stem) :
    '/' ∉ extended extension stem := by
  unfold extended
  split
  · decide
  · simp [hextension, hstem]

/-- Names with different stems become different names. -/
theorem extended_inj (hextension : extension ≠ []) (hstem : stem ≠ []) (hother : name ≠ []) :
    extended extension stem = extended extension name ↔ stem = name := by
  refine ⟨fun h => ?_, congrArg _⟩
  have hlong : ∀ chars : List Char, chars ≠ [] → chars ++ '.' :: extension ≠ ['.', '.'] := by
    intro chars hchars h
    have hlength := congrArg List.length h
    have hone := List.length_pos_iff.mpr hchars
    have htwo := List.length_pos_iff.mpr hextension
    simp at hlength
    omega
  unfold extended at h
  split at h <;> split at h
  · simp_all
  · exact absurd h.symm (hlong name hother)
  · exact absurd h (hlong stem hstem)
  · exact List.append_cancel_right h

/-!
## Joining
-/

theorem endsWith_iff {text ending : String} :
    text.endsWith ending = true ↔ ending.toList <:+ text.toList := by
  rw [String.endsWith_eq_endsWith_toSlice, String.Slice.endsWith_string_iff, String.copy_toSlice]

theorem exists_toList_join (directory : String) :
    ∃ place, IsPlace place ∧
      ∀ name : String, (join directory name).toList = place ++ name.toList := by
  by_cases hslash : directory.endsWith "/" = true
  · obtain ⟨front, hfront⟩ := endsWith_iff.mp hslash
    refine ⟨directory.toList, .inr ⟨front, hfront.symm⟩, fun name => ?_⟩
    rw [join, if_pos hslash, String.toList_append]
  · refine ⟨directory.toList ++ ['/'], .inr ⟨_, rfl⟩, fun name => ?_⟩
    rw [join, if_neg hslash, String.toList_append, String.toList_append]
    rfl

theorem join_eq_iff {directory other name name' : String} (hname : '/' ∉ name.toList)
    (hname' : '/' ∉ name'.toList) :
    join directory name = join other name' ↔
      (∀ below, join directory below = join other below) ∧ name = name' := by
  obtain ⟨place, hplace, hjoin⟩ := exists_toList_join directory
  obtain ⟨place', hplace', hjoin'⟩ := exists_toList_join other
  constructor
  · intro h
    have hchars : place ++ name.toList = place' ++ name'.toList := by
      rw [← hjoin, ← hjoin', h]
    have hsame : name.toList = name'.toList := by
      rw [← lastComponent_append hplace hname, hchars, lastComponent_append hplace' hname']
    rw [hsame] at hchars
    obtain rfl : place = place' := List.append_cancel_right hchars
    refine ⟨fun below => ?_, String.toList_inj.mp hsame⟩
    rw [← String.toList_inj, hjoin, hjoin']
  · rintro ⟨hbelow, rfl⟩
    exact hbelow name

end Path

open Untangle.Path

variable {name name' : String}

/-!
## Results
-/

theorem toList_outputPath_append {place : List Char} {path : String} (hplace : IsPlace place)
    (hname : IsName name.toList) (hpath : path.toList = place ++ name.toList) :
    (outputPath path).toList =
      place ++ extended "deobfuscated.js".toList (splitName name.toList).1 := by
  rw [outputPath, withExtension, String.toList_ofList, hpath,
    setExtension_withoutExtension hplace hname]

theorem toList_outputPath (hname : IsName name.toList) :
    (outputPath name).toList = extended "deobfuscated.js".toList (splitName name.toList).1 :=
  toList_outputPath_append (.inl rfl) hname rfl

theorem isName_source {front : List Char} (hslash : '/' ∉ front) :
    IsName (front ++ ['.', 'j', 's']) where
  ne_nil := by simp
  ne_here := fun h => by simpa using congrArg List.length h
  ne_above := fun h => by simpa using congrArg List.length h
  not_slash := by simp [hslash]

/-- A result lies in the directory of its source. -/
theorem outputPath_join (directory : String) (hname : IsName name.toList) :
    outputPath (join directory name) = join directory (outputPath name) := by
  obtain ⟨place, hplace, hjoin⟩ := exists_toList_join directory
  rw [← String.toList_inj, hjoin, toList_outputPath hname,
    toList_outputPath_append hplace hname (hjoin name)]

theorem not_slash_outputPath (hname : IsName name.toList) : '/' ∉ (outputPath name).toList := by
  rw [toList_outputPath hname]
  exact not_slash_extended (by decide) (stem_ne_nil_and_not_slash hname).2

theorem outputPath_eq_iff_stem (hname : IsName name.toList) (hname' : IsName name'.toList) :
    outputPath name = outputPath name' ↔
      (splitName name.toList).1 = (splitName name'.toList).1 := by
  have hstem := (stem_ne_nil_and_not_slash hname).1
  have hstem' := (stem_ne_nil_and_not_slash hname').1
  rw [← String.toList_inj, toList_outputPath hname, toList_outputPath hname',
    extended_inj (by decide) hstem hstem']

/-- The name of the result of some file. -/
def IsResultName (name : String) : Prop :=
  ∃ source : String, IsName source.toList ∧ outputPath source = name

theorem toList_resultEnding (stem : String) :
    (stem ++ ".deobfuscated.js").toList = stem.toList ++ '.' :: "deobfuscated.js".toList := by
  have hending : ".deobfuscated.js".toList = '.' :: "deobfuscated.js".toList := by decide +kernel
  rw [String.toList_append, hending]

theorem isResultName_iff (hname : IsName name.toList) :
    IsResultName name ↔
      ∃ stem, stem ≠ "" ∧ stem ≠ "." ∧ name = stem ++ ".deobfuscated.js" := by
  constructor
  · rintro ⟨source, hsource, rfl⟩
    have hchars := toList_outputPath hsource
    have hhere : (splitName source.toList).1 ≠ ['.'] := by
      intro hhere
      rw [hhere] at hchars
      exact hname.ne_above hchars
    have hstem : (String.ofList (splitName source.toList).1).toList = (splitName source.toList).1 :=
      String.toList_ofList
    refine ⟨String.ofList (splitName source.toList).1, ?_, ?_, ?_⟩
    · rw [Ne, ← String.toList_inj, hstem]
      exact (stem_ne_nil_and_not_slash hsource).1
    · rw [Ne, ← String.toList_inj, hstem]
      exact hhere
    · rw [← String.toList_inj, hchars, extended, if_neg hhere, toList_resultEnding, hstem]
  · rintro ⟨stem, hempty, hhere, rfl⟩
    have hempty : stem.toList ≠ [] := fun h => hempty (String.toList_inj.mp h)
    have hhere : stem.toList ≠ ['.'] := fun h => hhere (String.toList_inj.mp h)
    have hslash : '/' ∉ stem.toList := by
      intro hslash
      refine hname.not_slash ?_
      rw [String.toList_append]
      exact List.mem_append_left _ hslash
    have hchars : (stem ++ ".js").toList = stem.toList ++ ['.', 'j', 's'] := String.toList_append
    have hsource : IsName (stem ++ ".js").toList := hchars ▸ isName_source hslash
    refine ⟨stem ++ ".js", hsource, ?_⟩
    rw [← String.toList_inj, toList_outputPath hsource, hchars,
      splitName_append hempty (by decide), extended, if_neg hhere, toList_resultEnding]

/-- The name ends as those of results do, but nothing or only a dot is left of it in front of the
ending, or no dot divides them. -/
def ResemblesResult (name : String) : Prop :=
  ∃ front, name = front ++ "deobfuscated.js" ∧
    (front ∈ ["", ".", ".."] ∨ front.endsWith "." = false)

theorem endsWith_iff_exists {text ending : String} :
    text.endsWith ending = true ↔ ∃ front, text = front ++ ending := by
  rw [endsWith_iff]
  constructor
  · rintro ⟨front, hfront⟩
    refine ⟨String.ofList front, ?_⟩
    rw [← String.toList_inj, String.toList_append, String.toList_ofList, hfront]
  · rintro ⟨front, rfl⟩
    exact ⟨front.toList, String.toList_append.symm⟩

theorem isSourceName_eq_false_iff (hjs : name.endsWith ".js" = true) :
    isSourceName name = false ↔ ∃ front, name = front ++ "deobfuscated.js" := by
  rw [isSourceName, hjs, Bool.true_and, Bool.not_eq_false', endsWith_iff_exists]

theorem resultEnding (stem : String) :
    stem ++ ".deobfuscated.js" = (stem ++ ".") ++ "deobfuscated.js" := by
  rw [String.append_assoc]
  rfl

/-- What discovery skips are the names of results and those that resemble them. -/
theorem isSourceName_eq_false_iff_result (hname : IsName name.toList)
    (hjs : name.endsWith ".js" = true) :
    (isSourceName name = false ↔ IsResultName name ∨ ResemblesResult name) ∧
      ¬(IsResultName name ∧ ResemblesResult name) := by
  rw [isSourceName_eq_false_iff hjs, isResultName_iff hname]
  constructor
  · constructor
    · rintro ⟨front, rfl⟩
      by_cases hdot : front.endsWith "." = true
      · obtain ⟨stem, rfl⟩ := endsWith_iff_exists.mp hdot
        by_cases hempty : stem = ""
        · subst hempty
          exact .inr ⟨_, rfl, .inl (by decide)⟩
        by_cases hhere : stem = "."
        · subst hhere
          exact .inr ⟨_, rfl, .inl (by decide)⟩
        exact .inl ⟨stem, hempty, hhere, (resultEnding stem).symm⟩
      · exact .inr ⟨front, rfl, .inr (Bool.not_eq_true _ ▸ hdot)⟩
    · rintro (⟨stem, -, -, rfl⟩ | ⟨front, rfl, -⟩)
      · exact ⟨_, resultEnding stem⟩
      · exact ⟨front, rfl⟩
  · rintro ⟨⟨stem, hempty, hhere, rfl⟩, front, heq, hfront⟩
    rw [resultEnding, String.append_left_inj] at heq
    subst heq
    rcases hfront with hfront | hfront
    · simp only [List.mem_cons, List.not_mem_nil, or_false] at hfront
      rcases hfront with hnone | hone | htwo
      · exact absurd (String.append_eq_empty_iff.mp hnone).2 (by decide)
      · exact hempty (String.append_eq_right_iff.mp hone)
      · exact hhere ((String.append_left_inj ".").mp htwo)
    · rw [endsWith_iff_exists.mpr ⟨stem, rfl⟩] at hfront
      cases hfront

/-!
## Walks
-/

/-- The whole name of a source is its stem if nothing is in front of the dot. -/
theorem stem_of_endsWith (hjs : name.endsWith ".js" = true) :
    ∃ front : String, name = front ++ ".js" ∧
      (splitName name.toList).1 = (if front = "" then ".js" else front).toList := by
  obtain ⟨front, rfl⟩ := endsWith_iff_exists.mp hjs
  refine ⟨front, rfl, ?_⟩
  split
  · rename_i hempty
    subst hempty
    rfl
  · rename_i hempty
    have hempty : front.toList ≠ [] := fun h => hempty (String.toList_inj.mp h)
    have hchars : (front ++ ".js").toList = front.toList ++ ['.', 'j', 's'] := String.toList_append
    rw [hchars, splitName_append hempty (by decide)]

/-- Two sources of one directory have the same result only if one has nothing in front of its ending
and the other has the ending twice. -/
theorem outputPath_eq_iff (hname : IsName name.toList) (hname' : IsName name'.toList)
    (hjs : name.endsWith ".js" = true) (hjs' : name'.endsWith ".js" = true) :
    outputPath name = outputPath name' ↔
      name = name' ∨ (name = ".js" ∧ name' = ".js.js") ∨ (name = ".js.js" ∧ name' = ".js") := by
  rw [outputPath_eq_iff_stem hname hname']
  obtain ⟨front, rfl, hstem⟩ := stem_of_endsWith hjs
  obtain ⟨front', rfl, hstem'⟩ := stem_of_endsWith hjs'
  have hnone : ∀ front, front ++ ".js" = ".js" ↔ front = "" := fun _ => String.append_eq_right_iff
  have htwice : ∀ front, front ++ ".js" = ".js.js" ↔ front = ".js" := fun front => by
    rw [show ".js.js" = ".js" ++ ".js" from rfl, String.append_left_inj]
  rw [hstem, hstem', String.toList_inj, String.append_left_inj, hnone, hnone, htwice, htwice]
  have hne : ".js" ≠ "" := by decide
  grind

/-- Names below different directories have different results. -/
theorem outputPath_join_eq_iff {parent parent' : String} (hname : IsName name.toList)
    (hname' : IsName name'.toList) :
    outputPath (join parent name) = outputPath (join parent' name') ↔
      (∀ below, join parent below = join parent' below) ∧ outputPath name = outputPath name' := by
  rw [outputPath_join parent hname, outputPath_join parent' hname',
    join_eq_iff (not_slash_outputPath hname) (not_slash_outputPath hname')]

/-- The ending alone has the result of the ending twice. -/
theorem outputPath_join_ending (parent : String) :
    outputPath (join parent ".js") = outputPath (join parent ".js.js") := by
  have hname : IsName ".js".toList := by decide +kernel
  have hname' : IsName ".js.js".toList := by decide +kernel
  exact (outputPath_join_eq_iff hname hname').mpr ⟨fun _ => rfl, by decide +kernel⟩

namespace Discovery

theorem mem_sourcesBelow {directory path : String} {below : List (List String)} :
    path ∈ sourcesBelow directory below ↔
      ∃ parents name, parents ++ [name] ∈ below ∧ isSourceName name = true ∧
        path = join (parents.foldl join directory) name := by
  unfold sourcesBelow
  simp only [List.mem_map, List.mem_mergeSort, List.mem_filter]
  constructor
  · rintro ⟨names, ⟨hbelow, hsource⟩, rfl⟩
    rcases List.eq_nil_or_concat names with rfl | ⟨parents, name, rfl⟩
    · cases hsource
    · rw [List.concat_eq_append] at hbelow hsource ⊢
      rw [List.getLast?_concat] at hsource
      exact ⟨parents, name, hbelow, hsource, List.foldl_append ..⟩
  · rintro ⟨parents, name, hbelow, hsource, rfl⟩
    refine ⟨parents ++ [name], ⟨hbelow, ?_⟩, List.foldl_append ..⟩
    rw [List.getLast?_concat]
    exact hsource

/-- Discovery leaves out the names of results and those that resemble them, which are not the names
of results. The results of two sources below a directory are told apart unless their names are the
ending alone and the ending twice. -/
theorem results_told_apart (directory : String) (below : List (List String))
    (hnames : ∀ names ∈ below, ∀ name ∈ names, IsName name.toList) :
    (∀ name : String, IsName name.toList → name.endsWith ".js" = true →
      (IsResultName name ↔ ∃ stem, stem ≠ "" ∧ stem ≠ "." ∧ name = stem ++ ".deobfuscated.js") ∧
        (isSourceName name = false ↔ IsResultName name ∨ ResemblesResult name) ∧
        ¬(IsResultName name ∧ ResemblesResult name)) ∧
      ∀ path ∈ sourcesBelow directory below, ∀ path' ∈ sourcesBelow directory below,
        path ≠ path' →
          (outputPath path = outputPath path' ↔
            ∃ parent, (path = join parent ".js" ∧ path' = join parent ".js.js") ∨
              (path = join parent ".js.js" ∧ path' = join parent ".js")) := by
  refine ⟨fun name hname hjs => ?_, fun path hpath path' hpath' hne => ?_⟩
  · exact ⟨isResultName_iff hname, isSourceName_eq_false_iff_result hname hjs⟩
  constructor
  · intro hsame
    obtain ⟨parents, name, hbelow, hsource, rfl⟩ := mem_sourcesBelow.mp hpath
    obtain ⟨parents', name', hbelow', hsource', rfl⟩ := mem_sourcesBelow.mp hpath'
    have hname := hnames _ hbelow name (List.mem_append_right _ List.mem_cons_self)
    have hname' := hnames _ hbelow' name' (List.mem_append_right _ List.mem_cons_self)
    obtain ⟨hparent, hresult⟩ := (outputPath_join_eq_iff hname hname').mp hsame
    have hjs := (Bool.and_eq_true_iff.mp hsource).1
    have hjs' := (Bool.and_eq_true_iff.mp hsource').1
    rcases (outputPath_eq_iff hname hname' hjs hjs').mp hresult with
      rfl | ⟨rfl, rfl⟩ | ⟨rfl, rfl⟩
    · exact absurd (hparent name) hne
    · exact ⟨_, .inl ⟨rfl, (hparent _).symm⟩⟩
    · exact ⟨_, .inr ⟨rfl, (hparent _).symm⟩⟩
  · rintro ⟨parent, ⟨rfl, rfl⟩ | ⟨rfl, rfl⟩⟩
    · exact outputPath_join_ending parent
    · exact (outputPath_join_ending parent).symm

/-- A result of an earlier run, and the two sources of a directory with one result. -/
theorem results_told_apart_ending :
    let below := [[".js"], ["sub", "a.js"], [".js.js"]]
    (∀ names ∈ below, ∀ name ∈ names, IsName name.toList) ∧
      IsName "a.deobfuscated.js".toList ∧ "a.deobfuscated.js".endsWith ".js" = true ∧
      (isSourceName "a.deobfuscated.js" = false ↔
        IsResultName "a.deobfuscated.js" ∨ ResemblesResult "a.deobfuscated.js") ∧
      "d/.js" ∈ sourcesBelow "d" below ∧ "d/.js.js" ∈ sourcesBelow "d" below ∧
      "d/.js" ≠ "d/.js.js" ∧
      (outputPath "d/.js" = outputPath "d/.js.js" ↔
        ∃ parent, ("d/.js" = join parent ".js" ∧ "d/.js.js" = join parent ".js.js") ∨
          ("d/.js" = join parent ".js.js" ∧ "d/.js.js" = join parent ".js")) := by
  intro below
  have hnames : ∀ names ∈ below, ∀ name ∈ names, IsName name.toList := by decide +kernel
  have hname : IsName "a.deobfuscated.js".toList := by decide +kernel
  have hjs : "a.deobfuscated.js".endsWith ".js" = true := by decide +kernel
  have hfirst : "d/.js" ∈ sourcesBelow "d" below :=
    mem_sourcesBelow.mpr ⟨[], ".js", by decide, by decide +kernel, by decide +kernel⟩
  have hsecond : "d/.js.js" ∈ sourcesBelow "d" below :=
    mem_sourcesBelow.mpr ⟨[], ".js.js", by decide, by decide +kernel, by decide +kernel⟩
  have hne : "d/.js" ≠ "d/.js.js" := by decide
  obtain ⟨hskipped, happart⟩ := results_told_apart "d" below hnames
  exact ⟨hnames, hname, hjs, (hskipped _ hname hjs).2.1, hfirst, hsecond, hne,
    happart _ hfirst _ hsecond hne⟩

/-- A source is skipped although no file has this name for its result. -/
theorem skipped_not_result :
    IsName "undeobfuscated.js".toList ∧ "undeobfuscated.js".endsWith ".js" = true ∧
      isSourceName "undeobfuscated.js" = false ∧ ¬IsResultName "undeobfuscated.js" := by
  have hname : IsName "undeobfuscated.js".toList := by decide +kernel
  have hjs : "undeobfuscated.js".endsWith ".js" = true := by decide +kernel
  have hresembles : ResemblesResult "undeobfuscated.js" :=
    ⟨"un", by decide, .inr (by decide +kernel)⟩
  obtain ⟨hskipped, hnot⟩ := isSourceName_eq_false_iff_result hname hjs
  exact ⟨hname, hjs, hskipped.mpr (.inr hresembles), fun hresult => hnot ⟨hresult, hresembles⟩⟩

end Discovery

end Untangle
