/-
  Finished routines and the builder that produces them.
-/
import Arbor.Code.Instr

set_option autoImplicit false

namespace Arbor

/-- The routines that auto-extension shares, one for every element type. -/
inductive HelperKind where
  /-- Grows an array so that an index is in range. -/
  | ensureArrayLength
  /-- Appends default elements until a list holds a number of items. -/
  | ensureListCount
  deriving DecidableEq, Inhabited

/-- Identity of a routine: the unit it was compiled from, or the shared helper it is. -/
inductive RoutineKey where
  | unit (index : Nat)
  | helper (kind : HelperKind) (elem : Ty)
  deriving DecidableEq, Inhabited

/-- An executable unit. -/
structure Routine where
  key : RoutineKey
  name : String
  params : List Ty
  ret : Ty
  locals : Array Ty
  code : Array Instr
  /-- Instruction index of every label. -/
  labels : Array Nat
  /-- Protected regions, inner ones first. -/
  regions : List (Region Nat)
  /-- Nested functions and helpers. -/
  children : List Routine

namespace Routine

instance : Inhabited Routine := ⟨⟨.unit 0, "", [], .void, #[], #[], #[], [], []⟩⟩

/-- Instruction index of a label. -/
def target? (r : Routine) (l : Label) : Option Nat := r.labels[l.index]?

end Routine

/-- Why a routine cannot be finished. -/
inductive BuildError where
  | unmarkedLabel (index : Nat)
  | labelMarkedTwice (index : Nat)
  deriving DecidableEq

/-- Text of a build error. -/
def BuildError.message : BuildError → String
  | unmarkedLabel i => s!"label L{i} is referenced but never marked"
  | labelMarkedTwice i => s!"label L{i} is marked more than once"

/-- A routine under construction. -/
structure Builder where
  name : String
  params : List Ty
  ret : Ty
  locals : Array Ty
  code : Array Instr
  /-- Position of every label, once it is marked. -/
  labels : Array (Option Nat)
  regions : Array (Region Label)
  children : Array Routine

namespace Builder

/-- An empty routine. -/
def empty (name : String) (params : List Ty) (ret : Ty) : Builder :=
  ⟨name, params, ret, #[], #[], #[], #[], #[]⟩

/-- Appends an instruction. -/
def emit (b : Builder) (i : Instr) : Builder := { b with code := b.code.push i }

/-- Index of the next instruction. -/
def position (b : Builder) : Nat := b.code.size

/-- Replaces an instruction; a position without one is ignored. -/
def patch (b : Builder) (position : Nat) (i : Instr) : Builder :=
  { b with code := b.code.setIfInBounds position i }

/-- Adds a label that is not marked yet. -/
def defineLabel (b : Builder) : Label × Builder :=
  (⟨b.labels.size⟩, { b with labels := b.labels.push none })

/-- Binds a label to the next instruction. -/
def markLabel (b : Builder) (l : Label) : Except BuildError Builder :=
  match b.labels[l.index]? with
  | some none => .ok { b with labels := b.labels.setIfInBounds l.index (some b.code.size) }
  | some (some _) => .error (.labelMarkedTwice l.index)
  | none => .error (.unmarkedLabel l.index)

/-- Number of slots that instructions can name. -/
def slotLimit : Nat := 0x10000

/-- Adds a local; its slot is its position, in the 16 bits that instructions have for it. -/
def declareLocal (b : Builder) (ty : Ty) : Nat × Builder :=
  (b.locals.size % slotLimit, { b with locals := b.locals.push ty })

/-- Adds a protected region; inner regions come before those around them. -/
def addRegion (b : Builder) (r : Region Label) : Builder :=
  { b with regions := b.regions.push r }

/-- Position of the routine among the children, which holds every routine once. -/
def addChild (b : Builder) (child : Routine) : Nat × Builder :=
  match b.children.findIdx? fun c => c.key == child.key with
  | some i => (i, b)
  | none => (b.children.size, { b with children := b.children.push child })

/-- A child changes the children only. -/
theorem addChild_eq (b : Builder) (child : Routine) :
    (b.addChild child).2 = { b with children := (b.addChild child).2.children } := by
  unfold addChild
  split <;> rfl

@[simp] theorem addChild_code (b : Builder) (child : Routine) :
    (b.addChild child).2.code = b.code := by rw [addChild_eq]

@[simp] theorem addChild_labels (b : Builder) (child : Routine) :
    (b.addChild child).2.labels = b.labels := by rw [addChild_eq]

@[simp] theorem addChild_locals (b : Builder) (child : Routine) :
    (b.addChild child).2.locals = b.locals := by rw [addChild_eq]

@[simp] theorem addChild_regions (b : Builder) (child : Routine) :
    (b.addChild child).2.regions = b.regions := by rw [addChild_eq]

/-- Position of a label after all labels have been marked. -/
def resolve (labels : Array Nat) (l : Label) : Except BuildError Nat :=
  match labels[l.index]? with
  | some pc => .ok pc
  | none => .error (.unmarkedLabel l.index)

/-- Replaces the labels of a region by positions. -/
def resolveRegion (labels : Array Nat) (r : Region Label) : Except BuildError (Region Nat) := do
  let tryStart ← resolve labels r.tryStart
  let tryEnd ← resolve labels r.tryEnd
  let handlerStart ← resolve labels r.handlerStart
  let handlerEnd ← resolve labels r.handlerEnd
  let kind ←
    match r.kind with
    | .catch ty => pure (RegionKind.catch ty)
    | .filter start => (resolve labels start).map RegionKind.filter
    | .finally => pure RegionKind.finally
    | .fault => pure RegionKind.fault
  pure ⟨tryStart, tryEnd, handlerStart, handlerEnd, kind, r.stackMark⟩

/-- Positions of labels numbered from `index` on; every one has to be marked. -/
def markedLabels : Nat → List (Option Nat) → Except BuildError (List Nat)
  | _, [] => .ok []
  | index, none :: _ => .error (.unmarkedLabel index)
  | index, some pc :: rest => (markedLabels (index + 1) rest).map (pc :: ·)

/-- Resolves all labels and yields the finished routine. -/
def finish (b : Builder) (key : RoutineKey) : Except BuildError Routine := do
  let marked ← markedLabels 0 b.labels.toList
  let labels := marked.toArray
  let regions ← b.regions.toList.mapM (resolveRegion labels)
  pure ⟨key, b.name, b.params, b.ret, b.locals, b.code, labels, regions, b.children.toList⟩

end Builder

end Arbor
