/-
  Listings of routines: a header, the locals, one line for every instruction,
  then the protected regions and the children.
-/
import Arbor.Registry.Lookup
import Arbor.Decimal.Text
import Arbor.Text.Quoted

set_option autoImplicit false

namespace Arbor

namespace Listing

/-- Hexadecimal text of a position, with at least four digits. -/
def hex4 (n : Nat) : String :=
  let digits := Nat.toDigits 16 n
  zeros (4 - digits.length) ++ String.ofList digits

/-- An instruction position. -/
def position (pc : Nat) : String := "IL_" ++ hex4 pc

/-- The position shown for a label that has none. -/
def missingPosition : Nat := 0xffffffffffffffff

/-- A constant operand with its mnemonic. -/
def literal : Literal → String
  | .null => "ldnull"
  | .bool b => s!"ldc.bool {b}"
  | .num n => s!"ldc.{n.kind.suffix} {n.text}"
  | .str s => "ldstr " ++ Text.quoted s

/-- One instruction. -/
def instr (r : Registry) (labels : Array Nat) (i : Instr) : String :=
  let target (l : Label) : String := position (labels[l.index]?.getD missingPosition)
  match i with
  | .nop => "nop"
  | .const c => literal c
  | .loadDefault t => "lddefault " ++ r.tyText t
  | .loadArg n => s!"ldarg.{n}"
  | .loadArgAddr n => s!"ldarga.{n}"
  | .storeArg n => s!"starg.{n}"
  | .loadLocal n => s!"ldloc.{n}"
  | .loadLocalAddr n => s!"ldloca.{n}"
  | .storeLocal n => s!"stloc.{n}"
  | .dup => "dup"
  | .pop => "pop"
  | .arith op true => op.mnemonic ++ ".ovf"
  | .arith op false => op.mnemonic
  | .bitwise op => op.mnemonic
  | .neg true => "neg.ovf"
  | .neg false => "neg"
  | .not => "not"
  | .conv k true => "conv.ovf." ++ k.suffix
  | .conv k false => "conv." ++ k.suffix
  | .compare op => op.mnemonic
  | .jump l => "br " ++ target l
  | .jumpIfTrue l => "brtrue " ++ target l
  | .jumpIfFalse l => "brfalse " ++ target l
  | .jumpIfAbsent l => "brnull " ++ target l
  | .jumpIfPresent l => "brinst " ++ target l
  | .switch ls => "switch (" ++ ", ".intercalate (ls.map target) ++ ")"
  | .leave l => "leave " ++ target l
  | .endFinally => "endfinally"
  | .endFilter => "endfilter"
  | .throw => "throw"
  | .rethrow => "rethrow"
  | .ret => "ret"
  | .newObject m => "newobj " ++ r.methodName m
  | .initObject t => "initobj " ++ r.tyText t
  | .loadField f => "ldfld " ++ r.fieldName f
  | .loadFieldAddr f => "ldflda " ++ r.fieldName f
  | .storeField f => "stfld " ++ r.fieldName f
  | .loadStatic f => "ldsfld " ++ r.fieldName f
  | .loadStaticAddr f => "ldsflda " ++ r.fieldName f
  | .storeStatic f => "stsfld " ++ r.fieldName f
  | .call m => "call " ++ r.methodName m
  | .callChild n => s!"call #{n}"
  | .newArray t => "newarr " ++ r.tyText t
  | .newMdArray t rank => "newarr " ++ r.tyText (.mdArray t rank)
  | .newList t => "newlist " ++ r.tyText t
  | .loadLength => "ldlen"
  | .loadElem => "ldelem"
  | .loadElemAddr => "ldelema"
  | .storeElem => "stelem"
  | .loadIndirect => "ldind"
  | .storeIndirect => "stind"
  | .optHasValue => "opt.has_value"
  | .optValueOrDefault t => "opt.get_value_or_default " ++ r.tyText t
  | .optValue => "opt.get_value"
  | .optWrap => "opt.wrap"
  | .isInstance t true => "isinst.exact " ++ r.tyText t
  | .isInstance t false => "isinst " ++ r.tyText t
  | .castClass t => "castclass " ++ r.tyText t
  | .box t => "box " ++ r.tyText t
  | .unbox t => "unbox.any " ++ r.tyText t
  | .loadFunction n => s!"ldftn #{n}"
  | .newInvoker n => s!"newinvoker {n}"
  | .callInvoker n => s!"callinvoker {n}"
  | .markStack n => s!"markstack {n}"
  | .resetStack n => s!"resetstack {n}"
  | .hashBucket n => s!"hashbucket {n}"

/-- The kind of a handler. -/
def handler (r : Registry) : RegionKind Nat → String
  | .catch t => "catch " ++ r.tyText t
  | .filter start => "filter " ++ position start
  | .finally => "finally"
  | .fault => "fault"

/-- One protected region. -/
def region (r : Registry) (g : Region Nat) : String :=
  ".try " ++ position g.tryStart ++ " to " ++ position g.tryEnd ++ " " ++ handler r g.kind ++
    " handler " ++ position g.handlerStart ++ " to " ++ position g.handlerEnd

end Listing

/-- The lines of a routine's listing. -/
def Routine.listing (r : Registry) (routine : Routine) : List String :=
  let header :=
    ".routine " ++ routine.name ++ "(" ++ ", ".intercalate (r.tyTexts routine.params) ++ ") -> " ++
      r.tyText routine.ret
  let locals := routine.locals.toList.mapIdx fun i t => s!"[{i}] " ++ r.tyText t
  let localLines :=
    if locals.isEmpty then [] else [".locals (" ++ ", ".intercalate locals ++ ")"]
  let code := routine.code.toList.mapIdx fun pc i =>
    Listing.position pc ++ ": " ++ Listing.instr r routine.labels i
  let regions := routine.regions.map (Listing.region r)
  let children := routine.children.mapIdx fun i c => s!".child #{i} " ++ c.name
  header :: localLines ++ code ++ regions ++ children

end Arbor
