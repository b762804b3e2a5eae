import Untangle.Proofs.Tree.Grown

/-!
# Spans of nodes

Every node stands for a stretch of the source. A reader that passes over the source once leaves
behind it a row of pieces, and a new node takes the last pieces of the row below it. So the span
of a node holds the spans of its children, and these stand in the order of the children.
-/

namespace Untangle

/-- A place between two characters of the source, or at one of its ends. -/
structure Boundary (source : String) (n : Nat) : Prop where
  le : n ≤ source.utf8ByteSize
  isValid : (⟨n⟩ : String.Pos.Raw).IsValid source

/-- Something that was read: a place in the source or a node. Of a node it may be told that it
has no children, or where it starts. -/
inductive Piece
  | mark (offset : Nat)
  | leaf (i : NodeId)
  | since (start : Nat) (i : NodeId)
  | node (i : NodeId)

def Piece.node? : Piece → Option NodeId
  | .mark _ => none
  | .leaf i => some i
  | .since _ i => some i
  | .node i => some i

namespace Piece

@[simp] theorem node?_mark (offset : Nat) : (mark offset).node? = none :=
  rfl

@[simp] theorem node?_leaf (i : NodeId) : (leaf i).node? = some i :=
  rfl

@[simp] theorem node?_node (i : NodeId) : (node i).node? = some i :=
  rfl

end Piece

namespace Forest

variable {f g : Forest} {source : String} {i j c : NodeId} {p q : Piece} {n : Node Slot}
  {start stop limit : Nat} {pieces : List Piece}

/-!
## Where nodes stand
-/

def startAt (f : Forest) (i : NodeId) : Nat :=
  ((f.cell? (some i)).map Cell.start).getD 0

def stopAt (f : Forest) (i : NodeId) : Nat :=
  ((f.cell? (some i)).map Cell.stop).getD 0

theorem startAt_add_self : (f.add n start stop).2.startAt f.size = start := by
  rw [startAt, cell?_add, if_pos rfl]
  rfl

theorem stopAt_add_self : (f.add n start stop).2.stopAt f.size = stop := by
  rw [stopAt, cell?_add, if_pos rfl]
  rfl

/-- Every node of the first forest has its span and its children in the second. -/
structure Stays (f g : Forest) (i : NodeId) : Prop where
  lt : i < g.size
  start : g.startAt i = f.startAt i
  stop : g.stopAt i = f.stopAt i
  children : g.children (some i) = f.children (some i)

theorem stays_add (hi : i < f.size) : f.Stays (f.add n start stop).2 i := by
  have hne := Nat.ne_of_lt hi
  refine ⟨?_, ?_, ?_, children_add_of_ne hne⟩
  · rw [size_add]
    exact Nat.lt_succ_of_lt hi
  · rw [startAt, cell?_add, if_neg hne, Option.map_map]
    rfl
  · rw [stopAt, cell?_add, if_neg hne, Option.map_map]
    rfl

theorem Alike.stays (h : f.Alike g) (hi : i < f.size) : f.Stays g i := by
  have hstart : ∀ k : Forest,
      k.startAt i = (((k.cell? (some i)).map outline).map (·.1.1)).getD 0 := by
    intro k
    rw [startAt, Option.map_map]
    rfl
  have hstop : ∀ k : Forest,
      k.stopAt i = (((k.cell? (some i)).map outline).map (·.1.2)).getD 0 := by
    intro k
    rw [stopAt, Option.map_map]
    rfl
  refine ⟨h.lt_size hi, ?_, ?_, h.children⟩
  · rw [hstart, hstart, h]
  · rw [hstop, hstop, h]

/-!
## Pieces
-/

def pieceStart (f : Forest) : Piece → Nat
  | .mark offset => offset
  | .leaf i => f.startAt i
  | .since _ i => f.startAt i
  | .node i => f.startAt i

def pieceStop (f : Forest) : Piece → Nat
  | .mark offset => offset
  | .leaf i => f.stopAt i
  | .since _ i => f.stopAt i
  | .node i => f.stopAt i

def pieceChildren (f : Forest) : Piece → List NodeId
  | .mark _ => []
  | .leaf i => f.children (some i)
  | .since _ i => f.children (some i)
  | .node i => f.children (some i)

/-- The second piece stands behind the first. Only a piece without anything inside may share its
text with the second, as a shorthand key does with the value. -/
structure Before (f : Forest) (p q : Piece) : Prop where
  start : f.pieceStart p ≤ f.pieceStart q
  stop : f.pieceStop p ≤ f.pieceStop q
  apart : f.pieceStop p ≤ f.pieceStart q ∨ f.pieceChildren p = []

/-- What a piece tells of its node. -/
def Told (f : Forest) : Piece → Prop
  | .leaf i => f.children (some i) = []
  | .since start i => f.startAt i = start
  | _ => True

structure Sound (f : Forest) (source : String) (p : Piece) : Prop where
  lt : ∀ i ∈ p.node?, i < f.size
  le : f.pieceStart p ≤ f.pieceStop p
  start : Boundary source (f.pieceStart p)
  stop : Boundary source (f.pieceStop p)
  told : f.Told p

theorem sound_mark (h : Boundary source start) : f.Sound source (.mark start) :=
  ⟨nofun, Nat.le_refl _, h, h, trivial⟩

theorem pieceStart_eq (h : p.node? = some i) : f.pieceStart p = f.startAt i := by
  cases p <;> cases h <;> rfl

theorem pieceStop_eq (h : p.node? = some i) : f.pieceStop p = f.stopAt i := by
  cases p <;> cases h <;> rfl

theorem pieceChildren_eq (h : p.node? = some i) : f.pieceChildren p = f.children (some i) := by
  cases p <;> cases h <;> rfl

theorem Before.nodes (h : f.Before p q) (hi : p.node? = some i) (hj : q.node? = some j) :
    f.Before (.node i) (.node j) := by
  have hstart := h.start
  have hstop := h.stop
  have hapart := h.apart
  rw [pieceStart_eq hi, pieceStart_eq hj] at hstart
  rw [pieceStop_eq hi, pieceStop_eq hj] at hstop
  rw [pieceStop_eq hi, pieceStart_eq hj, pieceChildren_eq hi] at hapart
  exact ⟨hstart, hstop, hapart⟩

/-- What is told of a piece does not change when its node is kept. -/
theorem pieces_kept (hkept : ∀ i < f.size, f.Stays g i) (hp : ∀ i ∈ p.node?, i < f.size) :
    g.pieceStart p = f.pieceStart p ∧ g.pieceStop p = f.pieceStop p ∧
      g.pieceChildren p = f.pieceChildren p := by
  cases p with
  | mark offset => exact ⟨rfl, rfl, rfl⟩
  | leaf i | since start i | node i =>
      have hi := hkept i (hp i rfl)
      exact ⟨hi.start, hi.stop, hi.children⟩

theorem told_kept (hkept : ∀ i < f.size, f.Stays g i) (hp : ∀ i ∈ p.node?, i < f.size)
    (h : f.Told p) : g.Told p := by
  cases p with
  | mark offset => trivial
  | leaf i => exact (hkept i (hp i rfl)).children.trans h
  | since start i => exact (hkept i (hp i rfl)).start.trans h
  | node i => trivial

theorem Before.kept (hkept : ∀ i < f.size, f.Stays g i) (hp : ∀ i ∈ p.node?, i < f.size)
    (hq : ∀ i ∈ q.node?, i < f.size) (h : f.Before p q) : g.Before p q := by
  obtain ⟨hstart, hstop, hchildren⟩ := pieces_kept hkept hp
  obtain ⟨hstart', hstop', _⟩ := pieces_kept hkept hq
  constructor
  · rw [hstart, hstart']
    exact h.start
  · rw [hstop, hstop']
    exact h.stop
  · rw [hstop, hstart', hchildren]
    exact h.apart

theorem Sound.kept (hkept : ∀ i < f.size, f.Stays g i) (h : f.Sound source p) :
    g.Sound source p := by
  obtain ⟨hstart, hstop, _⟩ := pieces_kept hkept h.lt
  refine ⟨fun i hi => (hkept i (h.lt i hi)).lt, ?_, hstart ▸ h.start, hstop ▸ h.stop,
    told_kept hkept h.lt h.told⟩
  rw [hstart, hstop]
  exact h.le

/-!
## Nested nodes
-/

/-- The node has a span in the source, with the spans of its children inside and in order. -/
structure Spanned (f : Forest) (source : String) (i : NodeId) : Prop where
  le : f.startAt i ≤ f.stopAt i
  start : Boundary source (f.startAt i)
  stop : Boundary source (f.stopAt i)
  exist : ∀ c ∈ f.children (some i), c < f.size
  within : ∀ c ∈ f.children (some i), f.startAt i ≤ f.startAt c ∧ f.stopAt c ≤ f.stopAt i
  ordered : (f.children (some i)).Pairwise fun c c' => f.Before (.node c) (.node c')

def Nested (f : Forest) (source : String) : Prop :=
  ∀ i < f.size, f.Spanned source i

theorem Spanned.kept (hkept : ∀ i < f.size, f.Stays g i) (hi : i < f.size)
    (h : f.Spanned source i) : g.Spanned source i := by
  obtain ⟨_, hstart, hstop, hchildren⟩ := hkept i hi
  refine ⟨?_, hstart ▸ h.start, hstop ▸ h.stop, ?_, ?_, ?_⟩
  · rw [hstart, hstop]
    exact h.le
  · intro c hc
    rw [hchildren] at hc
    exact (hkept c (h.exist c hc)).lt
  · intro c hc
    rw [hchildren] at hc
    have hkeptc := hkept c (h.exist c hc)
    rw [hstart, hstop, hkeptc.start, hkeptc.stop]
    exact h.within c hc
  · rw [hchildren]
    refine h.ordered.imp_of_mem fun hc hc' hbefore => hbefore.kept hkept ?_ ?_
    · rintro _ ⟨⟩
      exact h.exist _ hc
    · rintro _ ⟨⟩
      exact h.exist _ hc'

theorem Nested.of_alike (h : f.Alike g) (hf : f.Nested source) : g.Nested source := fun i hi =>
  (hf i (h.symm.lt_size hi)).kept (fun _ => h.stays) (h.symm.lt_size hi)

theorem nested_empty (source : String) : Forest.empty.Nested source :=
  fun _ hi => absurd hi (Nat.not_lt_zero _)

/-!
## Rows
-/

/-- Pieces that have been read in front of the limit, the last one first. -/
structure Row (f : Forest) (source : String) (limit : Nat) (pieces : List Piece) : Prop where
  nested : f.Nested source
  sound : ∀ p ∈ pieces, f.Sound source p
  ordered : pieces.Pairwise fun later earlier => f.Before earlier later
  limited : ∀ p ∈ pieces, f.pieceStop p ≤ limit

namespace Row

theorem sublist {pieces' : List Piece} (h : f.Row source limit pieces)
    (hsub : pieces'.Sublist pieces) : f.Row source limit pieces' :=
  ⟨h.nested, fun p hp => h.sound p (hsub.subset hp), h.ordered.sublist hsub,
    fun p hp => h.limited p (hsub.subset hp)⟩

theorem of_alike (halike : f.Alike g) (h : f.Row source limit pieces) :
    g.Row source limit pieces := by
  have hkept : ∀ i < f.size, f.Stays g i := fun _ => halike.stays
  refine ⟨h.nested.of_alike halike, fun p hp => (h.sound p hp).kept hkept, ?_, ?_⟩
  · exact h.ordered.imp_of_mem fun hq hp hbefore =>
      hbefore.kept hkept (h.sound _ hp).lt (h.sound _ hq).lt
  · intro p hp
    rw [(pieces_kept hkept (h.sound p hp).lt).2.1]
    exact h.limited p hp

/-- The reader has moved on and notes the place. -/
theorem mark {offset limit' : Nat} (h : f.Row source limit pieces) (hle : limit ≤ offset)
    (hle' : offset ≤ limit') (hoffset : Boundary source offset) :
    f.Row source limit' (.mark offset :: pieces) := by
  refine ⟨h.nested, ?_, ?_, ?_⟩
  · exact List.forall_mem_cons.mpr ⟨sound_mark hoffset, h.sound⟩
  · refine .cons (fun p hp => ?_) h.ordered
    have hstop : f.pieceStop p ≤ offset := Nat.le_trans (h.limited p hp) hle
    exact ⟨Nat.le_trans (h.sound p hp).le hstop, hstop, .inl hstop⟩
  · refine List.forall_mem_cons.mpr ⟨hle', fun p hp => ?_⟩
    exact Nat.le_trans (h.limited p hp) (Nat.le_trans hle hle')

/-- The place where the last piece ends. -/
theorem markStop (h : f.Row source limit (p :: pieces)) :
    f.Row source limit (.mark (f.pieceStop p) :: p :: pieces) := by
  have hp := h.sound p List.mem_cons_self
  refine ⟨h.nested, ?_, ?_, ?_⟩
  · exact List.forall_mem_cons.mpr ⟨sound_mark hp.stop, h.sound⟩
  · refine .cons (fun q hq => ?_) h.ordered
    have hstop : f.pieceStop q ≤ f.pieceStop p := by
      rcases List.mem_cons.mp hq with rfl | hq
      · exact Nat.le_refl _
      · exact ((List.pairwise_cons.mp h.ordered).1 q hq).stop
    exact ⟨Nat.le_trans (h.sound q hq).le hstop, hstop, .inl hstop⟩
  · exact List.forall_mem_cons.mpr ⟨h.limited p List.mem_cons_self, h.limited⟩

theorem raise {limit' : Nat} (h : f.Row source limit pieces) (hle : limit ≤ limit') :
    f.Row source limit' pieces :=
  ⟨h.nested, h.sound, h.ordered, fun p hp => Nat.le_trans (h.limited p hp) hle⟩

end Row

/-!
## New nodes
-/

/-- The nodes of a row in the order of the source. -/
def nodesIn (pieces : List Piece) : List NodeId :=
  (pieces.filterMap Piece.node?).reverse

theorem mem_nodesIn : i ∈ nodesIn pieces ↔ ∃ p ∈ pieces, p.node? = some i := by
  simp [nodesIn]

@[simp] theorem nodesIn_nil : nodesIn [] = [] :=
  rfl

@[simp] theorem nodesIn_cons (p : Piece) (pieces : List Piece) :
    nodesIn (p :: pieces) = nodesIn pieces ++ p.node?.toList := by
  cases hp : p.node? <;> simp [nodesIn, hp]

@[simp] theorem nodesIn_append (later earlier : List Piece) :
    nodesIn (later ++ earlier) = nodesIn earlier ++ nodesIn later := by
  simp [nodesIn]

/-- The pieces of a list of nodes, the last one first. -/
def rowOf (items : List NodeId) : List Piece :=
  (items.map .node).reverse

@[simp] theorem nodesIn_rowOf (items : List NodeId) : nodesIn (rowOf items) = items := by
  simp [nodesIn, rowOf, Function.comp_def, Piece.node?]

@[simp] theorem rowOf_nil : rowOf [] = [] :=
  rfl

theorem rowOf_concat (items : List NodeId) (i : NodeId) :
    rowOf (items ++ [i]) = .node i :: rowOf items := by
  simp [rowOf]

section Add

variable {before core : List Piece}

/-- A span that holds the last pieces of a row and lies behind the others. -/
structure Encloses (f : Forest) (source : String) (limit start stop : Nat)
    (core before : List Piece) : Prop where
  row : f.Row source limit (core ++ before)
  le : start ≤ stop
  starts : Boundary source start
  stops : Boundary source stop
  limited : stop ≤ limit
  inside : ∀ p ∈ core, start ≤ f.pieceStart p ∧ f.pieceStop p ≤ stop
  behind : ∀ p ∈ before, f.pieceStart p ≤ start ∧ f.pieceStop p ≤ stop ∧
    (f.pieceStop p ≤ start ∨ f.pieceChildren p = [])

namespace Encloses

theorem spanned_add (h : f.Encloses source limit start stop core before)
    (hchildren : childrenOf n = nodesIn core) :
    (f.add n start stop).2.Spanned source f.size := by
  have hsound : ∀ p ∈ core, f.Sound source p := fun p hp => h.row.sound p (by simp [hp])
  have hkept : ∀ i < f.size, f.Stays (f.add n start stop).2 i := fun _ => stays_add
  have hself : (f.add n start stop).2.children (some f.size) = nodesIn core :=
    children_add_self.trans hchildren
  have hexist : ∀ c ∈ nodesIn core, c < f.size := by
    intro c hc
    rcases mem_nodesIn.mp hc with ⟨p, hp, hnode⟩
    exact (hsound p hp).lt c hnode
  refine ⟨?_, ?_, ?_, ?_, ?_, ?_⟩
  · rw [startAt_add_self, stopAt_add_self]
    exact h.le
  · rw [startAt_add_self]
    exact h.starts
  · rw [stopAt_add_self]
    exact h.stops
  · intro c hc
    rw [hself] at hc
    exact (hkept c (hexist c hc)).lt
  · intro c hc
    rw [hself] at hc
    rcases mem_nodesIn.mp hc with ⟨p, hp, hnode⟩
    have hc := hkept c (hexist c hc)
    rw [startAt_add_self, stopAt_add_self, hc.start, hc.stop, ← pieceStart_eq hnode,
      ← pieceStop_eq hnode]
    exact h.inside p hp
  · have hcore := (List.pairwise_append.mp h.row.ordered).1
    rw [hself, nodesIn, List.pairwise_reverse]
    refine (hcore.imp_of_mem fun hq hp hbefore => ?_).filterMap _ fun _ _ hbefore => hbefore
    intro i hi j hj
    refine (hbefore.nodes hj hi).kept hkept ?_ ?_
    · rintro _ ⟨⟩
      exact (hsound _ hp).lt j hj
    · rintro _ ⟨⟩
      exact (hsound _ hq).lt i hi

theorem nested_add (h : f.Encloses source limit start stop core before)
    (hchildren : childrenOf n = nodesIn core) : (f.add n start stop).2.Nested source := by
  intro i hi
  rw [size_add] at hi
  by_cases hnew : i = f.size
  · exact hnew ▸ h.spanned_add hchildren
  · have hold : i < f.size := Nat.lt_of_le_of_ne (Nat.le_of_lt_succ hi) hnew
    exact (h.row.nested i hold).kept (fun _ => stays_add) hold

/-- The new node takes the place of the pieces inside it. -/
theorem row_add (h : f.Encloses source limit start stop core before)
    (hchildren : childrenOf n = nodesIn core) :
    (f.add n start stop).2.Row source limit (.node f.size :: before) := by
  have hkept : ∀ i < f.size, f.Stays (f.add n start stop).2 i := fun _ => stays_add
  have hold := h.row.sublist (List.sublist_append_right _ _)
  have hspanned := h.spanned_add hchildren
  refine ⟨h.nested_add hchildren, ?_, ?_, ?_⟩
  · refine List.forall_mem_cons.mpr ⟨?_, fun p hp => (hold.sound p hp).kept hkept⟩
    refine ⟨?_, hspanned.le, hspanned.start, hspanned.stop, trivial⟩
    rintro _ ⟨⟩
    rw [size_add]
    exact Nat.lt_succ_self _
  · refine .cons (fun p hp => ?_) (hold.ordered.imp_of_mem fun hq hp hbefore =>
      hbefore.kept hkept (hold.sound _ hp).lt (hold.sound _ hq).lt)
    obtain ⟨hstart, hstop, hchildren⟩ := pieces_kept hkept (hold.sound p hp).lt
    obtain ⟨hle, hle', hapart⟩ := h.behind p hp
    have hself : (f.add n start stop).2.pieceStart (.node f.size) = start := startAt_add_self
    have hself' : (f.add n start stop).2.pieceStop (.node f.size) = stop := stopAt_add_self
    refine ⟨?_, ?_, ?_⟩
    · rwa [hstart, hself]
    · rwa [hstop, hself']
    · rwa [hstop, hself, hchildren]
  · refine List.forall_mem_cons.mpr ⟨?_, fun p hp => ?_⟩
    · change (f.add n start stop).2.stopAt f.size ≤ limit
      rw [stopAt_add_self]
      exact h.limited
    · rw [(pieces_kept hkept (hold.sound p hp).lt).2.1]
      exact hold.limited p hp

end Encloses

namespace Row

/-- Two places enclose what was read between them. -/
theorem encloses_marks (h : f.Row source limit (.mark stop :: (core ++ .mark start :: before))) :
    f.Encloses source limit start stop core (.mark start :: before) := by
  obtain ⟨hlast, hrest⟩ := List.pairwise_cons.mp h.ordered
  obtain ⟨_, hordered, hcross⟩ := List.pairwise_append.mp hrest
  refine ⟨h.sublist (List.sublist_cons_self _ _), (hlast (.mark start) (by simp)).start,
    (h.sound (.mark start) (by simp)).start, (h.sound (.mark stop) (by simp)).start,
    h.limited (.mark stop) (by simp), fun p hp => ?_, fun p hp => ?_⟩
  · exact ⟨(hcross p hp _ List.mem_cons_self).start, (hlast p (by simp [hp])).stop⟩
  · have hstop := (hlast p (List.mem_append_right _ hp)).stop
    rcases List.mem_cons.mp hp with rfl | hp
    · exact ⟨Nat.le_refl _, hstop, .inl (Nat.le_refl _)⟩
    · have hbefore := (List.pairwise_cons.mp hordered).1 p hp
      exact ⟨hbefore.start, hstop, hbefore.apart⟩

/-- Two nodes are enclosed from the start of the first to the end of the last. -/
theorem encloses_since {first last : NodeId}
    (h : f.Row source limit (.mark stop :: .node last :: .since start first :: before)) :
    f.Encloses source limit start stop [.node last, .since start first] before := by
  obtain ⟨hstop, hrest⟩ := List.pairwise_cons.mp h.ordered
  obtain ⟨hlast, hrest⟩ := List.pairwise_cons.mp hrest
  obtain ⟨hfirst, _⟩ := List.pairwise_cons.mp hrest
  have hsound := h.sound (.since start first) (by simp)
  have hstart : f.pieceStart (.since start first) = start := hsound.told
  refine ⟨h.sublist (List.sublist_cons_self _ _), ?_, hstart ▸ hsound.start,
    (h.sound (.mark stop) List.mem_cons_self).start, h.limited (.mark stop) List.mem_cons_self,
    fun p hp => ?_, fun p hp => ?_⟩
  · exact hstart ▸ (hstop (.since start first) (by simp)).start
  · rcases List.mem_pair.mp hp with rfl | rfl
    · refine ⟨?_, (hstop _ List.mem_cons_self).stop⟩
      exact hstart ▸ (hlast (.since start first) List.mem_cons_self).start
    · exact ⟨Nat.le_of_eq hstart.symm, (hstop (.since start first) (by simp)).stop⟩
  · have hbefore := hfirst p hp
    refine ⟨hstart ▸ hbefore.start, (hstop p (by simp [hp])).stop, ?_⟩
    rw [← hstart]
    exact hbefore.apart

/-- A node without children may have a copy on the same text. -/
theorem encloses_copy (h : f.Row source limit (.leaf i :: before)) :
    f.Encloses source limit (f.startAt i) (f.stopAt i) [] (.leaf i :: before) := by
  have hsound := h.sound (.leaf i) List.mem_cons_self
  refine ⟨h, hsound.le, hsound.start, hsound.stop, h.limited (.leaf i) List.mem_cons_self, nofun,
    fun p hp => ?_⟩
  rcases List.mem_cons.mp hp with rfl | hp
  · exact ⟨Nat.le_refl _, Nat.le_refl _, .inr hsound.told⟩
  · have hbefore := (List.pairwise_cons.mp h.ordered).1 p hp
    exact ⟨hbefore.start, hbefore.stop, hbefore.apart⟩

/-- The last piece makes way for another one that stands for the same node. -/
theorem recast (h : f.Row source limit (p :: pieces)) (hp : p.node? = some i)
    (hq : q.node? = some i) (htold : f.Told q) :
    f.Row source limit (q :: pieces) := by
  have hstart : f.pieceStart q = f.pieceStart p := (pieceStart_eq hq).trans (pieceStart_eq hp).symm
  have hstop : f.pieceStop q = f.pieceStop p := (pieceStop_eq hq).trans (pieceStop_eq hp).symm
  obtain ⟨hlt, hle, hbegin, hend, _⟩ := h.sound p List.mem_cons_self
  obtain ⟨hlast, hordered⟩ := List.pairwise_cons.mp h.ordered
  refine ⟨h.nested, ?_, ?_, ?_⟩
  · refine List.forall_mem_cons.mpr ⟨⟨?_, ?_, hstart ▸ hbegin, hstop ▸ hend, htold⟩, ?_⟩
    · rw [hq, ← hp]
      exact hlt
    · rw [hstart, hstop]
      exact hle
    · exact fun r hr => h.sound r (List.mem_cons_of_mem _ hr)
  · refine .cons (fun r hr => ?_) hordered
    have hbefore := hlast r hr
    refine ⟨?_, ?_, ?_⟩
    · rw [hstart]
      exact hbefore.start
    · rw [hstop]
      exact hbefore.stop
    · rw [hstart]
      exact hbefore.apart
  · refine List.forall_mem_cons.mpr ⟨?_, fun r hr => h.limited r (List.mem_cons_of_mem _ hr)⟩
    rw [hstop]
    exact h.limited p List.mem_cons_self

end Row

end Add

/-!
## Subtrees
-/

/-- A node stands inside every node above it. -/
theorem Nested.within (hn : f.Nested source) (hf : f.WellFormed) (h : f.Within j i) :
    f.startAt i ≤ f.startAt j ∧ f.stopAt j ≤ f.stopAt i := by
  induction h with
  | refl => exact ⟨Nat.le_refl _, Nat.le_refl _⟩
  | tail _ hlink ih =>
      have hchild := (hn _ (hf.lt_size_of_link hlink)).within _ (hf.linked.mp hlink)
      exact ⟨Nat.le_trans hchild.1 ih.1, Nat.le_trans ih.2 hchild.2⟩

/-- Walking over a subtree, the places where nodes start never go back. -/
theorem Nested.pairwise_preorder (hn : f.Nested source) (hf : f.WellFormed) (hi : i < f.size) :
    (f.preorder (some i)).Pairwise fun a b => f.startAt a ≤ f.startAt b := by
  induction hk : f.weight i using Nat.strong_induction_on generalizing i with
  | h k ih =>
      have hchild : ∀ c ∈ f.children (some i), c < f.size := (hn i hi).exist
      rw [hf.preorder_children hi, List.pairwise_cons, List.pairwise_flatMap]
      refine ⟨?_, ?_, ?_⟩
      · intro b hb
        rcases List.mem_flatMap.mp hb with ⟨c, hc, hb⟩
        have hwithin := (hf.mem_preorder (hchild c hc)).mp hb
        exact (hn.within hf (hwithin.tail (hf.linked.mpr hc))).1
      · intro c hc
        exact ih (f.weight c) (hk ▸ hf.weight_lt (hf.linked.mpr hc)) (hchild c hc) rfl
      · refine (hn i hi).ordered.imp_of_mem fun {c c'} hc hc' hbefore a ha b hb => ?_
        have hb := hn.within hf ((hf.mem_preorder (hchild c' hc')).mp hb)
        rw [hf.mem_preorder (hchild c hc)] at ha
        refine Nat.le_trans ?_ hb.1
        rcases hbefore.apart with hapart | halone
        · have ha' := hn.within hf ha
          have hle := (hn a (lt_size_of_within ha (hchild c hc))).le
          exact Nat.le_trans hle (Nat.le_trans ha'.2 hapart)
        · rcases within_iff.mp ha with rfl | ⟨d, hlink, _⟩
          · exact hbefore.start
          · have hd := hf.linked.mp hlink
            change f.children (some c) = [] at halone
            rw [halone] at hd
            cases hd

end Forest
end Untangle
