/-
  Assembly: routines written as JSON.

  An instruction is an array with its mnemonic and its operands.  Labels are
  numbered and defined up front; an entry can mark a label, or replace an earlier
  instruction.
-/
import Arbor.Tree.Json
import Arbor.Code.Routine

set_option autoImplicit false

namespace Arbor.Assembly

open Arbor.Json

/-- Reads a label. -/
def label? (j : Json) : Option Label := (u32? j).map Label.mk

/-- Instructions without operands. -/
def plain? : String → Option Instr
  | "nop" => some .nop
  | "dup" => some .dup
  | "pop" => some .pop
  | "not" => some .not
  | "endfinally" => some .endFinally
  | "endfilter" => some .endFilter
  | "throw" => some .throw
  | "rethrow" => some .rethrow
  | "ret" => some .ret
  | "ldlen" => some .loadLength
  | "ldelem" => some .loadElem
  | "ldelema" => some .loadElemAddr
  | "stelem" => some .storeElem
  | "ldind" => some .loadIndirect
  | "stind" => some .storeIndirect
  | "opt.has_value" => some .optHasValue
  | "opt.get_value" => some .optValue
  | "opt.wrap" => some .optWrap
  | _ => none

/-- Instructions with a number. -/
def numbered? : String → Option (Nat → Instr)
  | "ldarg" => some .loadArg
  | "ldarga" => some .loadArgAddr
  | "starg" => some .storeArg
  | "ldloc" => some .loadLocal
  | "ldloca" => some .loadLocalAddr
  | "stloc" => some .storeLocal
  | "callchild" => some .callChild
  | "ldftn" => some .loadFunction
  | "newinvoker" => some .newInvoker
  | "callinvoker" => some .callInvoker
  | "markstack" => some .markStack
  | "resetstack" => some .resetStack
  | "hashbucket" => some .hashBucket
  | _ => none

/-- Instructions with a label. -/
def branching? : String → Option (Label → Instr)
  | "br" => some .jump
  | "brtrue" => some .jumpIfTrue
  | "brfalse" => some .jumpIfFalse
  | "brnull" => some .jumpIfAbsent
  | "brinst" => some .jumpIfPresent
  | "leave" => some .leave
  | _ => none

/-- Instructions with a type. -/
def typed? : String → Option (Ty → Instr)
  | "lddefault" => some .loadDefault
  | "initobj" => some .initObject
  | "newarr" => some .newArray
  | "newlist" => some .newList
  | "opt.get_value_or_default" => some .optValueOrDefault
  | "castclass" => some .castClass
  | "box" => some .box
  | "unbox.any" => some .unbox
  | _ => none

/-- Instructions with a field. -/
def fielded? : String → Option (FieldRef → Instr)
  | "ldfld" => some .loadField
  | "ldflda" => some .loadFieldAddr
  | "stfld" => some .storeField
  | "ldsfld" => some .loadStatic
  | "ldsflda" => some .loadStaticAddr
  | "stsfld" => some .storeStatic
  | _ => none

/-- Reads the operands of the remaining instructions. -/
def special? : String → List Json → Option Instr
  | "ldc", [c] => (Literal.ofJson? c).map .const
  | "arith", [op, c] => do pure (.arith (← byName? ArithOp.all ArithOp.tag op) (← bool? c))
  | "bit", [op] => (byName? BitOp.all BitOp.tag op).map .bitwise
  | "neg", [c] => (bool? c).map .neg
  | "conv", [k, c] => do pure (.conv (← NumKind.ofJson? k) (← bool? c))
  | "cmp", [op] => (byName? CmpOp.all CmpOp.tag op).map .compare
  | "switch", [ls] => (list? label? ls).map .switch
  | "newobj", [m] => (MethodRef.ofJson? .value m).map .newObject
  | "call", [m] => (MethodRef.ofJson? .value m).map .call
  | "newmdarr", [t, n] => do pure (.newMdArray (← Ty.ofJson? .value t) (← u32? n))
  | "isinst", [t, e] => do pure (.isInstance (← Ty.ofJson? .value t) (← bool? e))
  | _, _ => none

/-- Reads an instruction. -/
def instr? (name : String) (operands : List Json) : Option Instr :=
  match operands with
  | [] => plain? name
  | [j] =>
      ((numbered? name).bind fun f => (u32? j).map f)
        <|> ((branching? name).bind fun f => (label? j).map f)
        <|> ((typed? name).bind fun f => (Ty.ofJson? .value j).map f)
        <|> ((fielded? name).bind fun f => (FieldRef.ofJson? j).map f)
        <|> special? name [j]
  | operands => special? name operands

/-- Why a routine cannot be assembled: a build error, or text that is no routine. -/
abbrev Failure := Option BuildError

/-- What was read, or the failure of a text that is no routine. -/
def ofOption {α : Type} (o : Option α) : Except Failure α :=
  match o with
  | some a => .ok a
  | none => .error none

/-- Carries out one entry of the code. -/
def entry (b : Builder) (j : Json) : Except Failure Builder :=
  match j with
  | .arr [.str "mark", l] => do (b.markLabel (← ofOption (label? l))).mapError some
  | .arr [.str "patch", n, .arr (.str name :: operands)] => do
      pure (b.patch (← ofOption (u32? n)) (← ofOption (instr? name operands)))
  | .arr (.str name :: operands) => do pure (b.emit (← ofOption (instr? name operands)))
  | _ => .error none

/-- Reads two labels. -/
def labelPair? (j : Json) : Option (Label × Label) := do
  match ← list? label? j with
  | [a, b] => pure (a, b)
  | _ => none

/-- Reads the kind of a region. -/
def regionKind? : Json → Option (RegionKind Label)
  | .arr [.str "catch", t] => (Ty.ofJson? .value t).map .catch
  | .arr [.str "filter", l] => (label? l).map .filter
  | .arr [.str "finally"] => some .finally
  | .arr [.str "fault"] => some .fault
  | _ => none

/-- Reads a region. -/
def region? (j : Json) : Option (Region Label) := do
  let (tryStart, tryEnd) ← (j.get? "try").bind labelPair?
  let (handlerStart, handlerEnd) ← (j.get? "handler").bind labelPair?
  let kind ← (j.get? "kind").bind regionKind?
  let mark ← (j.get? "mark").bind u16?
  pure ⟨tryStart, tryEnd, handlerStart, handlerEnd, kind, mark⟩

/-- Reads a list that may be missing. -/
def listOf? {α : Type} (j : Json) (name : String) (item? : Json → Option α) : Option (List α) :=
  match j.get? name with
  | some l => list? item? l
  | none => some []

/-- A builder with labels, locals and children, before any code. -/
def prepared? (earlier : List Routine) (j : Json) : Option Builder := do
  let name ← (j.get? "name").bind str?
  let params ← listOf? j "params" (Ty.ofJson? .value)
  let ret ← (j.get? "ret").bind (Ty.ofJson? .value)
  let labels ← (j.get? "labels").elim (some 0) u32?
  let locals ← listOf? j "locals" (Ty.ofJson? .value)
  let children ← listOf? j "children" fun c => (u32? c).bind (earlier[·]?)
  let b := (List.range labels).foldl (fun b _ => b.defineLabel.2) (Builder.empty name params ret)
  let b := locals.foldl (fun b t => (b.declareLocal t).2) b
  pure (children.foldl (fun b c => (b.addChild c).2) b)

/-- Assembles a routine, numbered `index`, whose children are among the earlier ones. -/
def routine (index : Nat) (earlier : List Routine) (j : Json) : Except Failure Routine := do
  let b ← ofOption (prepared? earlier j)
  let code ← ofOption (listOf? j "code" some)
  let b ← code.foldlM entry b
  let regions ← ofOption (listOf? j "regions" region?)
  ((regions.foldl Builder.addRegion b).finish (.unit index)).mapError some

end Arbor.Assembly
