import Untangle.Proofs.Scope.ResolutionWalk

/-!
# What the walk that resolves names does

The walk comes to a node for its value or as a target. What it does there, and which children it
goes on to, depends on the node alone, so that the whole walk is a list of stops which is known
before any name is looked up.
-/

namespace Untangle

variable {f : Forest} {i : NodeId} {n : Node Slot}

/-!
## Errands
-/

/-- What the walk comes to a node for. A target without a kind declares its names. -/
inductive Purpose
  | value (kind : ReferenceKind)
  | target (kind : Option ReferenceKind)
  deriving Repr, DecidableEq

/-- How a name is used by a walk that comes to it, unless it is declared there. -/
def Purpose.use? : Purpose → Option ReferenceKind
  | value kind => some kind
  | target kind => kind

/-- A child that the walk goes on to. -/
structure Errand where
  purpose : Purpose
  /-- The child is the body of a `with` statement. -/
  withBody : Bool
  slot : Slot
  deriving Repr, DecidableEq

namespace Errand

def toValue (slot : Slot) : Errand :=
  ⟨.value .read, false, slot⟩

def toTarget (kind : Option ReferenceKind) (slot : Slot) : Errand :=
  ⟨.target kind, false, slot⟩

def toValueIf (condition : Bool) (slot : Slot) : List Errand :=
  if condition then [toValue slot] else []

end Errand

namespace Node

/-- A node that comes up for its value although it is a target, or the other way round, is taken
up once more. -/
def again? (n : Node Slot) : Purpose → Option Purpose
  | .value _ =>
      match n with
      | .list .objectPattern _ | .list .arrayPattern _ | .binary .default _ _ _
      | .operand .rest _ => some (.target (some .write))
      | _ => none
  | .target kind =>
      match n with
      | .name .identifier _ | .list .objectPattern _ | .list .arrayPattern _
      | .property _ _ _ _ | .binary .default _ _ _ | .operand .rest _ | .bare .omitted => none
      | _ => some (.value (kind.getD .read))

/-- The children that the walk goes on to from a node that it came to for its value. -/
def valueErrands (n : Node Slot) : List Errand :=
  match n with
  | .declarator ident initializer => [.toTarget none ident, .toValue initializer]
  | .function _ _ parameters code _ _ => parameters.map (.toTarget none) ++ [.toValue code]
  | .catchClause parameter block => [.toTarget none parameter, .toValue block]
  | .classLike _ _ heritage members => (heritage :: members).map .toValue
  | .method _ key value computed _ => Errand.toValueIf computed key ++ [.toValue value]
  | .field key value computed _ => Errand.toValueIf computed key ++ [.toValue value]
  | .guarded .withObject object statement =>
      [.toValue object, ⟨.value .read, true, statement⟩]
  | .labeled _ statement => [.toValue statement]
  | .jump _ _ => []
  | .access .property object _ _ _ => [.toValue object]
  | .property _ key value computed => Errand.toValueIf computed key ++ [.toValue value]
  | .binary .assignment target _ value =>
      [⟨.value .write, false, target⟩, .toValue value]
  | .unary _ operator argument =>
      [⟨.value (if operator.isUpdate then .write else .read), false, argument⟩]
  | .call .call callee arguments _ _ =>
      ⟨.value .call, false, callee⟩ :: arguments.map .toValue
  | .iteration _ target subject statement _ =>
      [⟨.value .write, false, target⟩, .toValue subject, .toValue statement]
  | n => (Forest.childrenOf n).map fun i => .toValue (some i)

def targetErrands (n : Node Slot) (kind : Option ReferenceKind) : List Errand :=
  match n with
  | .list _ elements => elements.map (.toTarget kind)
  | .property _ key value computed => Errand.toValueIf computed key ++ [.toTarget kind value]
  | .binary _ target _ value => [.toTarget kind target, .toValue value]
  | .operand _ target => [.toTarget kind target]
  | _ => []

def errands (n : Node Slot) : Purpose → List Errand
  | .value _ => n.valueErrands
  | .target kind => n.targetErrands kind

end Node

/-!
## Stops
-/

/-- One thing that the walk does to the bindings. -/
inductive Stop
  | use (scope : ScopeId) (inWith : Bool) (kind : ReferenceKind) (name : String) (node : NodeId)
  /-- A declared name inside the body of a `with` statement. -/
  | mark (inWith : Bool) (nameNode : Slot)
  /-- The walk gives up. -/
  | cut
  deriving Repr, DecidableEq

def Stop.apply : Stop → Bindings → Bindings
  | use scope inWith kind name node, b => b.addReference scope inWith kind name node
  | mark inWith nameNode, b => b.markDynamic inWith nameNode
  | cut, b => b.truncate

def Node.stops (n : Node Slot) (o : Outlook) (i : NodeId) (purpose : Purpose) : List Stop :=
  match n, purpose with
  | .name .identifier text, purpose =>
      match purpose.use? with
      | some kind => [.use o.scope o.inWith kind text i]
      | none => [.mark o.inWith (some i)]
  | .function .declaration ident _ _ _ _, .value _ => [.mark o.inWith ident]
  | _, _ => []

/-- The scope in which the walk deals with a node. A target opens none. -/
def Outlook.enter (o : Outlook) (opened : Option ScopeId) : Purpose → Outlook
  | .value _ => { o with scope := opened.getD o.scope }
  | .target _ => o

def Outlook.follow (o : Outlook) (e : Errand) : Outlook :=
  { o with inWith := o.inWith || e.withBody }

/-- Everything the walk does in a subtree, in order. -/
def Forest.itinerary (f : Forest) (opened : NodeId → Option ScopeId) :
    (depth : Nat) → Purpose → Outlook → Slot → List Stop
  | 0, _, _, _ => [.cut]
  | depth + 1, purpose, o, s =>
      match s, f.node? s with
      | some i, some n =>
          let o := o.enter (opened i) purpose
          match n.again? purpose with
          | some purpose => f.itinerary opened depth purpose o (some i)
          | none =>
              n.stops o i purpose ++
                (n.errands purpose).flatMap fun e =>
                  f.itinerary opened depth e.purpose (o.follow e) e.slot
      | _, _ => []

/-!
## The walk as its stops
-/

namespace Bindings

variable {b b' c : Bindings}

theorem SameScopes.refl (b : Bindings) : b.SameScopes b :=
  ⟨rfl, rfl⟩

theorem SameScopes.trans (h : b.SameScopes b') (h' : b'.SameScopes c) : b.SameScopes c :=
  ⟨h'.scopes.trans h.scopes, h'.opened.trans h.opened⟩

theorem sameScopes_apply (b : Bindings) (stop : Stop) : b.SameScopes (stop.apply b) := by
  cases stop with
  | use scope inWith kind name node => exact b.sameScopes_addReference ..
  | mark inWith nameNode => exact b.sameScopes_markDynamic ..
  | cut => exact ⟨rfl, rfl⟩

/-- The bindings after a number of stops. -/
def after (b : Bindings) (stops : List Stop) : Bindings :=
  stops.foldl (fun b stop => stop.apply b) b

theorem sameScopes_after (b : Bindings) (stops : List Stop) : b.SameScopes (b.after stops) := by
  induction stops generalizing b with
  | nil => exact .refl b
  | cons stop stops ih => exact (b.sameScopes_apply stop).trans (ih (stop.apply b))

theorem after_append (b : Bindings) (stops stops' : List Stop) :
    b.after (stops ++ stops') = (b.after stops).after stops' :=
  List.foldl_append ..

end Bindings

/-- The action does what the stops say, provided that these scopes were opened before. -/
def Makes (opened : Std.HashMap NodeId ScopeId) (act : Bind Unit) (stops : List Stop) : Prop :=
  ∀ ⦃b : Bindings⦄, b.opened = opened → act.run b = ((), b.after stops)

namespace Makes

variable {opened : Std.HashMap NodeId ScopeId} {act act' : Bind Unit} {stops stops' : List Stop}

theorem pure : Makes opened (pure ()) [] :=
  fun _ _ => rfl

theorem stop (stop : Stop) : Makes opened (modifyThe Bindings stop.apply) [stop] :=
  fun _ _ => rfl

theorem bind (h : Makes opened act stops) (h' : Makes opened act' stops') :
    Makes opened (act >>= fun _ => act') (stops ++ stops') := by
  intro b hb
  have hthen := h' ((b.sameScopes_after stops).opened.trans hb)
  rw [Bindings.after_append, ← hthen]
  exact congrArg (fun r : Unit × Bindings => act'.run r.2) (h hb)

theorem forM {α : Type} {items : List α} {act : α → Bind PUnit} {stops : α → List Stop}
    (h : ∀ a ∈ items, Makes opened (act a) (stops a)) :
    Makes opened (items.forM act) (items.flatMap stops) := by
  induction items with
  | nil => exact pure
  | cons a items ih =>
      refine bind (h a List.mem_cons_self) (ih fun c hc => ?_)
      exact h c (List.mem_cons_of_mem a hc)

end Makes

namespace ResolutionWalk

variable (w : ResolutionWalk Bind) (o : Outlook)

def run (purpose : Purpose) (o : Outlook) (s : Slot) : Bind Unit :=
  match purpose with
  | .value kind => w.node o kind s
  | .target kind => w.pattern o kind s

/-- Go on to the children of a node. -/
def goOn (errands : List Errand) : Bind Unit :=
  errands.forM fun e => w.run e.purpose (o.follow e) e.slot

def make (stops : List Stop) : Bind Unit :=
  stops.forM fun stop => modifyThe Bindings stop.apply

/-- What the walk does at a node. -/
def level (purpose : Purpose) (i : NodeId) (n : Node Slot) : Bind Unit :=
  match n.again? purpose with
  | some purpose => w.run purpose o (some i)
  | none => do
      make (n.stops o i purpose)
      w.goOn o (n.errands purpose)

section Lists

variable (errands errands' : List Errand) (s : Slot)

@[simp] theorem nodes_nil : w.nodes o [] = pure () :=
  rfl

@[simp] theorem nodes_cons (slots : List Slot) :
    w.nodes o (s :: slots) = (do w.node o .read s; w.nodes o slots) := by
  simp [nodes]

@[simp] theorem make_nil : make [] = pure () :=
  rfl

@[simp] theorem make_singleton (stop : Stop) :
    make [stop] = modifyThe Bindings stop.apply := by
  simp [make]

@[simp] theorem goOn_nil : w.goOn o [] = pure () :=
  rfl

@[simp] theorem goOn_value (kind : ReferenceKind) :
    w.goOn o (⟨.value kind, false, s⟩ :: errands) = (do
      w.node o kind s
      w.goOn o errands) := by
  simp [goOn, run, Outlook.follow]

@[simp] theorem goOn_withBody (kind : ReferenceKind) :
    w.goOn o (⟨.value kind, true, s⟩ :: errands) = (do
      w.node { o with inWith := true } kind s
      w.goOn o errands) := by
  simp [goOn, run, Outlook.follow]

@[simp] theorem goOn_toValue :
    w.goOn o (.toValue s :: errands) = (do w.node o .read s; w.goOn o errands) := by
  simp [Errand.toValue]

@[simp] theorem goOn_toTarget (kind : Option ReferenceKind) :
    w.goOn o (.toTarget kind s :: errands) = (do w.pattern o kind s; w.goOn o errands) := by
  simp [goOn, run, Outlook.follow, Errand.toTarget]

@[simp] theorem goOn_append :
    w.goOn o (errands ++ errands') = (do w.goOn o errands; w.goOn o errands') := by
  simp [goOn]

@[simp] theorem goOn_toValueIf (condition : Bool) :
    w.goOn o (Errand.toValueIf condition s) = w.nodeIf condition o s := by
  cases condition <;> simp [Errand.toValueIf, nodeIf]

@[simp] theorem goOn_map_toValue (slots : List Slot) :
    w.goOn o (slots.map .toValue) = w.nodes o slots := by
  induction slots with
  | nil => rfl
  | cons s slots ih => simp [ih]

@[simp] theorem goOn_map_toTarget (kind : Option ReferenceKind) (slots : List Slot) :
    w.goOn o (slots.map (.toTarget kind)) = slots.forM (w.pattern o kind) := by
  induction slots with
  | nil => rfl
  | cons s slots ih => simp [ih]

@[simp] theorem goOn_map_some (children : List NodeId) :
    w.goOn o (children.map fun i => .toValue (some i)) =
      children.forM fun i => w.node o .read (some i) := by
  induction children with
  | nil => rfl
  | cons i children ih => simp [ih]

end Lists

/-- Coming to a node for its value is one of the answers of the walk. -/
theorem resolveNode_eq (kind : ReferenceKind) (i : NodeId) (n : Node Slot) :
    w.resolveNode o kind i n = w.level o (.value kind) i n := by
  cases n with
  | name form text =>
      cases form with
      | identifier =>
          simp [resolveNode, level, Node.again?, Node.stops, Purpose.use?, Node.errands,
            Node.valueErrands, Forest.childrenOf, Node.slots]
          rfl
      | privateName => rfl
  | function form ident parameters code isAsync isGenerator =>
      cases form <;>
        simp [resolveNode, function, level, Node.again?, Node.stops, Stop.apply, Node.errands,
          Node.valueErrands]
  | bare form | body form statements | operand form argument | guarded form condition statement
  | list form elements | call form callee arguments isOptional inChain
  | access form object key isOptional inChain | binary form left operator right =>
      cases form <;>
        simp [resolveNode, children, level, Node.again?, Node.stops, Node.errands,
          Node.valueErrands, run]
  | _ => 
    simp [resolveNode, children, level, Node.again?, Node.stops, Node.errands, Node.valueErrands]

/-- Coming to a node as a target is the other one. -/
theorem resolvePattern_eq (kind : Option ReferenceKind) (i : NodeId) (n : Node Slot) :
    w.resolvePattern o kind i n = w.level o (.target kind) i n := by
  cases n with
  | name form text =>
      cases form with
      | identifier =>
          cases kind <;>
            simp [resolvePattern, level, Node.again?, Node.stops, Purpose.use?, Node.errands,
              Node.targetErrands] <;>
            rfl
      | privateName => rfl
  | bare form | operand form argument | list form elements | binary form left operator right =>
      cases form <;>
        simp [resolvePattern, level, Node.again?, Node.stops, Node.errands, Node.targetErrands, run]
  | _ => 
    simp [resolvePattern, level, Node.again?, Node.stops, Node.errands, Node.targetErrands, run]

/-!
## The whole walk
-/

variable {w} {o} {opened : Std.HashMap NodeId ScopeId} {purpose : Purpose}

theorem makes_make (stops : List Stop) : Makes opened (make stops) stops := by
  have h := @Makes.forM opened _ stops _ _ fun stop _ => .stop stop
  rwa [List.flatMap_singleton'] at h

theorem makes_level {plan : Purpose → Outlook → Slot → List Stop}
    (hw : ∀ purpose o s, Makes opened (w.run purpose o s) (plan purpose o s)) :
    Makes opened (w.level o purpose i n)
      (match n.again? purpose with
      | some purpose => plan purpose o (some i)
      | none =>
          n.stops o i purpose ++
            (n.errands purpose).flatMap fun e => plan e.purpose (o.follow e) e.slot) := by
  unfold level
  cases n.again? purpose with
  | some purpose => exact hw ..
  | none => exact .bind (makes_make _) (.forM fun e _ => hw ..)

theorem run_level (depth : Nat) (hn : f.node? (some i) = some n) (b : Bindings) :
    ((ofDepth .silent f (depth + 1)).run purpose o (some i)).run b =
      ((ofDepth .silent f depth).level (o.enter b.opened[i]? purpose) purpose i n).run b := by
  cases purpose with
  | value kind =>
      rw [← resolveNode_eq, run, ofDepth]
      simp only [hn]
      rfl
  | target kind =>
      rw [← resolvePattern_eq, run, ofDepth]
      simp only [hn]
      rfl

theorem run_missing (depth : Nat) {s : Slot} (hs : f.node? s = none) :
    (ofDepth .silent f (depth + 1)).run purpose o s = pure () := by
  cases purpose <;> (rw [run, ofDepth]; cases s <;> simp only [hs])

/-- The walk that resolves names is the list of its stops. -/
theorem makes_ofDepth (f : Forest) (opened : Std.HashMap NodeId ScopeId) (depth : Nat)
    (purpose : Purpose) (o : Outlook) (s : Slot) :
    Makes opened ((ofDepth .silent f depth).run purpose o s)
      (f.itinerary (opened[·]?) depth purpose o s) := by
  induction depth generalizing purpose o s with
  | zero => cases purpose <;> exact .stop .cut
  | succ depth ih =>
      intro b hb
      unfold Forest.itinerary
      cases hs : f.node? s with
      | none =>
          rw [run_missing depth hs]
          cases s <;> exact Makes.pure hb
      | some n =>
          cases s with
          | none => cases hs
          | some i =>
              rw [run_level depth hs, hb]
              exact makes_level ih hb

end ResolutionWalk
end Untangle
