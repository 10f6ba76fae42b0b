/-
  Emitters of switches: a chain of equality tests, or dispatch through a table of
  buckets.

  The table is used when all tests are constant integers, truth values, texts or
  nulls, no comparison method is given, and there are enough of them.  Keys are
  put into buckets while compiling and the code computes the bucket of the value
  with the same function; within a bucket every key is compared, so that a
  collision cannot select a wrong case.  Either way the first case with an equal
  test is selected.
-/
import Arbor.Bucket
import Arbor.Emit.Control
import Arbor.Emit.Lifted

set_option autoImplicit false

namespace Arbor

/-- A constant test of a case. -/
inductive CaseKey where
  | null
  | int (value : Num)
  | bool (value : Bool)
  | text (value : String)

namespace CaseKey

/-- The key of a test, if it is a constant that a table takes. -/
def ofExpr? (test : Expr) : Option CaseKey :=
  match test.kind with
  | .constant .null => some null
  | .constant (.num n) => if n.kind.isIntegral then some (int n) else none
  | .constant (.bool b) => some (bool b)
  | .constant (.str s) => some (text s)
  | _ => none

/-- What the bucket of the key is computed from; null is in none. -/
def switchKey? : CaseKey → Option SwitchKey
  | null => none
  | int n => some (.int n.toIndex)
  | bool b => some (.bool b)
  | text s => some (.text s)

/-- The constant that the value is compared with. -/
def literal : CaseKey → Literal
  | null => .null
  | int n => .num n
  | bool b => .bool b
  | text s => .str s

/-- Whether the key is null. -/
def isNull : CaseKey → Bool
  | null => true
  | _ => false

end CaseKey

/-- Whether a table can hold the values of the type. -/
def Ty.isTabular (ty : Ty) : Bool := ty.isIntegral || ty.underlying = .bool || ty.underlying = .str

/-- Whether values of a type can be compared with a value to switch on. -/
def Ty.isTestOf (test value : Ty) : Bool :=
  test.underlying = value.underlying || (test.isReference && value.isReference)

/-- A key in its bucket, with the label of its case. -/
structure BucketEntry where
  bucket : Nat
  key : CaseKey
  target : Label

namespace Emit

/-- Pairs the keys of cases with the labels of the cases, in order. -/
def keyTargets (keys : List (List CaseKey)) (labels : List Label) : List (CaseKey × Label) :=
  (keys.zip labels).flatMap fun (ks, l) => ks.map fun k => (k, l)

/-- The keys that have a bucket in a table of `size` buckets, in order. -/
def bucketEntries (size : Nat) (keys : List (CaseKey × Label)) : List BucketEntry :=
  keys.filterMap fun (k, l) => k.switchKey?.map fun s => ⟨Bucket.of s size, k, l⟩

/-- The keys of the cases, if the switch can dispatch through a table. -/
def tableKeys? (o : Options) (ty : Ty) (cases : List (SwitchCase Node))
    (comparison : Option MethodRef) : Option (List (List CaseKey)) :=
  if !o.hashSwitch || comparison.isSome then none
  else if !ty.isTabular then none
  else
    match cases.mapM fun c => c.tests.mapM fun t => CaseKey.ofExpr? t.expr with
    | none => none
    | some keys =>
        if max o.hashSwitchThreshold 1 ≤ keys.flatten.length then some keys else none

/-- Labels of the buckets: a new one for every bucket with keys, the default for the others. -/
def bucketLabels (fallback : Label) : List (List BucketEntry) → Emit (List Label)
  | [] => pure []
  | b :: rest => do
      let l ← if b.isEmpty then pure fallback else newLabel
      let ls ← bucketLabels fallback rest
      pure (l :: ls)

/-- The code of a bucket: a comparison with every key of it. -/
def bucketCode (plain : Nat) (fallback : Label) (bucket : List BucketEntry) (l : Label) :
    Emit Unit := do
  if bucket.isEmpty then pure ()
  else
    mark l
    bucket.forM fun e =>
      instrs [.loadLocal plain, .const e.key.literal, .compare .eq, .jumpIfTrue e.target]
    instr (.jump fallback)

/-- The label of the first case with a null test, or the default. -/
def nullTarget (targets : List (CaseKey × Label)) (fallback : Label) : Label :=
  ((targets.find? fun (k, _) => k.isNull).map (·.2)).getD fallback

/-- Jumps when an operand that can be absent is. -/
def jumpIfNull (subject : Operand) (target : Label) : Emit Unit :=
  if subject.ty.canBeAbsent then instrs [.loadLocal subject.slot, .jumpIfAbsent target] else pure ()

/-- Dispatch through a table. -/
def tableDispatch (subject : Operand) (keys : List (List CaseKey)) (labels : List Label)
    (fallback : Label) : Emit Unit := do
  let targets := keyTargets keys labels
  jumpIfNull subject (nullTarget targets fallback)
  loadInner subject
  let plain ← spill subject.ty.underlying
  let size := Bucket.count (targets.filter fun (k, _) => !k.isNull).length
  let entries := bucketEntries size targets
  let buckets := (List.range size).map fun b => entries.filter fun e => e.bucket == b
  let starts ← bucketLabels fallback buckets
  instrs [.loadLocal plain, .hashBucket size, .switch starts, .jump fallback]
  (buckets.zip starts).forM fun (bucket, l) => bucketCode plain fallback bucket l

/-- Dispatch by a chain of tests. -/
def linearDispatch (subject : Operand) (cases : List (SwitchCase Node))
    (comparison : Option MethodRef) (labels : List Label) (fallback : Label) : Emit Unit := do
  (cases.zip labels).forM fun (c, l) =>
    c.tests.forM fun test =>
      withTemps do
        let _ ← test.guarded .value
        let t ← spillOperand test.ty
        binarySlots .eq false comparison subject t .bool
        instr (.jumpIfTrue l)
  instr (.jump fallback)

/-- New labels, one for every item. -/
def newLabels {α : Type} : List α → Emit (List Label)
  | [] => pure []
  | _ :: rest => do
      let l ← newLabel
      let ls ← newLabels rest
      pure (l :: ls)

/-- The bodies of the cases, each at its label. -/
def caseBodies (ty : Ty) (exit : Option Label) (done : Label) :
    List (SwitchCase Node × Label) → Emit Bool
  | [] => pure false
  | (c, l) :: rest => do
      mark l
      let used ← c.body.branch ty exit ty.isVoid
      instr (.jump done)
      let usedRest ← caseBodies ty exit done rest
      pure (used || usedRest)

/-- Tests have to be of the type of the value, or references as it is. -/
def checkTests (value : Ty) (cases : List (SwitchCase Node)) : Emit Unit :=
  cases.forM fun c => c.tests.forM fun test => do
    if test.ty.isTestOf value then pure ()
    else mismatch "switch case" (← tyText value) test.ty

/-- Tests and bodies of a switch have to fit; with a comparison method tests are not checked. -/
def checkSwitch (value : Ty) (cases : List (SwitchCase Node)) (default : Option Node)
    (comparison : Option MethodRef) (ty : Ty) : Emit Unit := do
  if comparison.isNone then checkTests value cases else pure ()
  checkBranches ty (cases.map (·.body) ++ default.toList)

/-- Dispatch to the cases, through a table where one can be used. -/
def dispatch (subject : Operand) (cases : List (SwitchCase Node)) (comparison : Option MethodRef)
    (labels : List Label) (fallback : Label) : Emit Unit := do
  match tableKeys? (← options) subject.ty cases comparison with
  | some keys => tableDispatch subject keys labels fallback
  | none => linearDispatch subject cases comparison labels fallback

/-- What a switch does where no case is selected. -/
def defaultBody (default : Option Node) (ty : Ty) (exit : Option Label) : Emit Bool := do
  match default with
  | some body => body.branch ty exit ty.isVoid
  | none =>
      pushDefault ty
      pure false

/-- A switch. -/
def switch (value : Node) (cases : List (SwitchCase Node)) (default : Option Node)
    (comparison : Option MethodRef) (ty : Ty) (exit : Option Label) : Emit Emitted := do
  checkSwitch value.ty cases default comparison ty
  withTemps do
    let usedValue ← value.value exit
    let subject ← spillOperand value.ty
    let labels ← newLabels cases
    let fallback ← newLabel
    let done ← newLabel
    dispatch subject cases comparison labels fallback
    let usedCases ← caseBodies ty exit done (cases.zip labels)
    mark fallback
    let usedDefault ← defaultBody default ty exit
    mark done
    pure (.ofTy ty (usedValue || usedCases || usedDefault))

end Emit

end Arbor
