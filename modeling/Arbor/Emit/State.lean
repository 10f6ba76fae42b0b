/-
  Emitters, and the small steps that they are made of.

  An emitter carries the proof that the state grows where it succeeds, so that
  whatever is built from the steps below only adds to the unit.
-/
import Arbor.Emit.Emission

set_option autoImplicit false

namespace Arbor

/-- The outcome of an emitter; the state is there also when it fails. -/
abbrev EmitResult (α : Type) := EStateM.Result CompileError Emission α

/-- An emitter. -/
structure Emit (α : Type) where
  /-- Emits in a setting from a state on. -/
  run : Setting → Emission → EmitResult α
  /-- Where the emitter succeeds, the state has grown. -/
  grows : ∀ {setting : Setting} {s t : Emission} {a : α}, run setting s = .ok a t → s.Grows t

/-- Argument that holds the table of hoisted constants. -/
def HiddenParams.constantsArg? (h : HiddenParams) : Option Nat :=
  if h.constants then some 0 else .none

/-- Argument that holds the closure environment. -/
def HiddenParams.closureArg? (h : HiddenParams) : Option Nat :=
  if h.closure then some h.constants.toNat else .none

namespace Emit

/-! ## Composition -/

/-- Emits nothing. -/
def done {α : Type} (a : α) : Emit α where
  run _ s := .ok a s
  grows h := by cases h; exact .refl _

/-- Emits one thing after the other. -/
def andThen {α β : Type} (x : Emit α) (f : α → Emit β) : Emit β where
  run setting s :=
    match x.run setting s with
    | .ok a t => (f a).run setting t
    | .error e t => .error e t
  grows h := by
    split at h
    · next hx => exact (x.grows hx).trans ((f _).grows h)
    · cases h

instance : Monad Emit where
  pure := done
  bind := andThen

/-- What every successful run of an emitter yields. -/
def Yields {α : Type} (x : Emit α) (P : α → Emission → Prop) : Prop :=
  ∀ (setting : Setting) (s t : Emission) (a : α), x.run setting s = .ok a t → P a t

/-- What the second emitter yields is what both yield. -/
theorem Yields.andThen {α β : Type} {x : Emit α} {f : α → Emit β} {P : β → Emission → Prop}
    (h : ∀ a, (f a).Yields P) : (x >>= f).Yields P := by
  intro setting s t b hrun
  change (Emit.andThen x f).run setting s = .ok b t at hrun
  simp only [Emit.andThen] at hrun
  split at hrun
  · exact h _ _ _ _ _ hrun
  · cases hrun

/-- Ends the compilation with an error. -/
def fail {α : Type} (e : CompileError) : Emit α where
  run _ s := .error e s
  grows h := by cases h

/-- A value that depends on the setting and the state; nothing is emitted. -/
def read {α : Type} (f : Setting → Emission → Except CompileError α) : Emit α where
  run setting s :=
    match f setting s with
    | .ok a => .ok a s
    | .error e => .error e s
  grows h := by
    split at h
    · cases h; exact .refl _
    · cases h

/-! ## The setting -/

/-- The registry of the compilation. -/
def registry : Emit Registry := read fun setting _ => .ok setting.registry

/-- The options of the compilation. -/
def options : Emit Options := read fun setting _ => .ok setting.options

/-- Surface text of a type. -/
def tyText (t : Ty) : Emit String := do return (← registry).tyText t

/-- Ends the compilation because a construct is not supported. -/
def unsupported {α : Type} (what : String) : Emit α := fail (.notSupported what)

/-- Ends the compilation because of a type other than the expected one. -/
def mismatch {α : Type} (context expected : String) (found : Ty) : Emit α := do
  fail (.typeMismatch context expected (← tyText found))

/-- The result of a lookup. -/
def lookup {α : Type} (query : Registry → Except MetadataError α) : Emit α := do
  match query (← registry) with
  | .ok a => pure a
  | .error e => fail (.metadata e)

/-! ## Code -/

/-- Appends an instruction. -/
def instr (i : Instr) : Emit Unit where
  run _ s := .ok () { s with builder := s.builder.emit i }
  grows h := by cases h; exact .emit _ _

/-- Appends instructions. -/
def instrs (is : List Instr) : Emit Unit := is.forM instr

/-- Appends an integer constant. -/
def int (n : Int) : Emit Unit := instr (.const (.num (.i32 n)))

/-- Emits behind a placeholder, which becomes an instruction if the result calls for one. -/
def reserved {α : Type} (act : Emit α) (fill : α → Option Instr) : Emit α where
  run setting s :=
    match act.run setting { s with builder := s.builder.emit .nop } with
    | .ok a t =>
        match fill a with
        | some i => .ok a { t with builder := t.builder.patch s.builder.position i }
        | none => .ok a t
    | .error e t => .error e t
  grows h := by
    split at h
    · next hact =>
        have hgrows := (Emission.Grows.emit _ _).trans (act.grows hact)
        split at h
        · cases h; exact hgrows.patch (Nat.le_refl _) _
        · cases h; exact hgrows
    · cases h

/-- A new label. -/
def newLabel : Emit Label where
  run _ s := .ok s.builder.defineLabel.1 { s with builder := s.builder.defineLabel.2 }
  grows h := by cases h; exact .defineLabel _

/-- Binds a label to the next instruction. -/
def mark (l : Label) : Emit Unit where
  run _ s :=
    match s.builder.markLabel l with
    | .ok builder => .ok () { s with builder }
    | .error e => .error (.build e) s
  grows h := by
    split at h
    · next hmark => cases h; exact .markLabel hmark
    · cases h

/-- The helper routine for an element type, as a child of the unit. -/
def helper (kind : HelperKind) (elem : Ty) : Emit Nat where
  run _ s :=
    let (routine, helpers) := s.session.helpers.get kind elem
    let (i, builder) := s.builder.addChild routine
    .ok i { s with session := { s.session with helpers }, builder }
  grows h := by
    cases h
    exact .helper _ _ _

/-- Appends a protected region. -/
def addRegion (r : Region Label) : Emit Unit where
  run _ s := .ok () { s with builder := s.builder.addRegion r }
  grows h := by cases h; exact .addRegion _ _

/-- Pushes the default of a type; void has none. -/
def pushDefault (t : Ty) : Emit Unit :=
  if t.isVoid then pure ()
  else if t.isValueType then instr (.loadDefault t)
  else instr (.const .null)

/-- Wraps the value on the stack when an optional is expected and it is none. -/
def wrapIf (condition : Bool) : Emit Unit := if condition then instr .optWrap else pure ()

/-- Takes what is inside the optional on the stack, where one is there and none is expected. -/
def unwrapIf (condition : Bool) : Emit Unit := if condition then instr .optValue else pure ()

/-! ## Temporaries -/

/-- Acquires a temporary until the enclosing section ends. -/
def temp (ty : Ty) : Emit Nat where
  run _ s :=
    let (slot, pool, builder) := s.pool.acquire s.builder ty
    .ok slot { s with pool, builder }
  grows h := by cases h; exact .acquire _ _

/-- Pops the top of the stack into a temporary. -/
def spill (ty : Ty) : Emit Nat := do
  let slot ← temp ty
  instr (.storeLocal slot)
  pure slot

/-- A section that frees the temporaries acquired in it when it ends, in whatever way. -/
def withTemps {α : Type} (act : Emit α) : Emit α where
  run setting s :=
    let mark := s.pool.live.length
    match act.run setting s with
    | .ok a t => .ok a (t.releaseTo mark)
    | .error e t => .error e (t.releaseTo mark)
  grows h := by
    dsimp only at h
    split at h
    · next hact => cases h; exact (act.grows hact).releaseTo
    · cases h

/-! ## Variables -/

/-- Loads a variable. -/
def loadVar : VarSlot → Emit Unit
  | .arg i => instr (.loadArg i)
  | .local i => instr (.loadLocal i)

/-- Loads the address of a variable. -/
def loadVarAddr : VarSlot → Emit Unit
  | .arg i => instr (.loadArgAddr i)
  | .local i => instr (.loadLocalAddr i)

/-- Stores into a variable. -/
def storeVar : VarSlot → Emit Unit
  | .arg i => instr (.storeArg i)
  | .local i => instr (.storeLocal i)

/-- The innermost variable of a number. -/
def varSlot (id : VarId) : Emit (VarSlot × Ty) := read fun _ s =>
  match s.scope.lookup id with
  | some v => .ok v
  | none => .error (.unknownVariable id)

/-- The hidden parameters of the unit. -/
def hiddenParams : Emit HiddenParams := read fun _ s => .ok s.hidden

/-- A section with further variables in scope, the last of them innermost. -/
def inScope {α : Type} (vars : Scope) (act : Emit α) : Emit α where
  run setting s :=
    match act.run setting { s with scope := vars.reverse ++ s.scope } with
    | .ok a t => .ok a { t with scope := s.scope }
    | .error e t => .error e { t with scope := s.scope }
  grows h := by
    split at h
    · next hact => cases h; exact (act.grows hact).withScope
    · cases h

/-- A zeroed local for a variable. -/
def bindLocal (v : Variable) : Emit (VarId × VarSlot × Ty) := do
  let slot ← temp v.ty
  pushDefault v.ty
  instr (.storeLocal slot)
  pure (v.id, .local slot, v.ty)

/-- Zeroed locals for variables. -/
def bindLocals : List Variable → Emit Scope
  | [] => pure []
  | v :: vars => do
      let first ← bindLocal v
      let rest ← bindLocals vars
      pure (first :: rest)

/-- A section in which the variables are in scope. -/
def withLocals {α : Type} (vars : List Variable) (act : Emit α) : Emit α := do
  let bound ← bindLocals vars
  inScope bound act

/-! ## Labels -/

/-- Records what is known of a label, unless one of its number is known. -/
def recordTarget (id : LabelId) (info : LabelInfo) : Emit Unit where
  run _ s :=
    if (s.labels.lookup id).isSome then .ok () s
    else .ok () { s with labels := (id, info) :: s.labels }
  grows h := by
    split at h
    · cases h; exact .refl _
    · next hknown => cases h; exact .target _ (Bool.eq_false_iff.mpr hknown)

/-- Makes a label of the tree known, unless one of its number is. -/
def defineTarget (target : LabelTarget) (depth : Nat) : Emit Unit := do
  let known ← read fun _ s => .ok (s.labels.lookup target.id).isSome
  if known then pure ()
  else
    let label ← newLabel
    let valueSlot ← if target.ty.isVoid then pure none else some <$> temp target.ty
    recordTarget target.id ⟨label, target.ty, valueSlot, depth⟩

/-- What is known of a label. -/
def labelInfo (id : LabelId) : Emit LabelInfo := read fun _ s =>
  match s.labels.lookup id with
  | some info => .ok info
  | none => .error (.unknownLabel id)

/-- Number of protected regions around the point of emission. -/
def depth : Emit Nat := read fun _ s => .ok s.tryDepth

/-- Jumps to a label of the tree, leaving the protected regions that it lies outside of. -/
def jumpTo (info : LabelInfo) : Emit Unit := do
  if info.depth < (← depth) then instr (.leave info.label) else instr (.jump info.label)

/-- A section inside one protected region more. -/
def inRegion (act : Emit Unit) : Emit Unit where
  run setting s :=
    match act.run setting { s with tryDepth := s.tryDepth + 1 } with
    | .ok () t => .ok () { t with tryDepth := s.tryDepth }
    | .error e t => .error e t
  grows h := by
    split at h
    · next hact => cases h; exact (act.grows hact).atDepth
    · cases h

end Emit

end Arbor
