/-
  Developer texts of instructions and routines, as they appear inside messages
  about malformed programs.
-/
import Arbor.Code.Routine
import Arbor.Decimal.Text
import Arbor.Text.Quoted

set_option autoImplicit false

namespace Arbor

namespace Describe

/-- A name with one argument. -/
def app (name arg : String) : String := name ++ "(" ++ arg ++ ")"

/-- A name with named parts. -/
def struct (name : String) (parts : List (String × String)) : String :=
  name ++ " \x7b " ++ ", ".intercalate (parts.map fun (k, v) => k ++ ": " ++ v) ++ " \x7d"

/-- A bracketed list. -/
def list (items : List String) : String := "[" ++ ", ".intercalate items ++ "]"

/-- A number with its kind. -/
def num (n : Num) : String := app n.kind.tag n.text

/-- A constant. -/
def literal : Literal → String
  | .null => "Null"
  | .bool b => app "Bool" (toString b)
  | .num n => app "Num" (num n)
  | .str s => app "Str" (Text.quoted s)

/-- A field reference. -/
def field (f : FieldRef) : String :=
  struct "FieldRef" [("ty", toString f.ty), ("index", toString f.index)]

/-- An operation on multi-dimensional arrays. -/
def md (name : String) (elem : Ty) (rank : Nat) : String :=
  struct name [("elem", elem.describe), ("rank", toString rank)]

/-- An intrinsic. -/
def intrinsic : Intrinsic → String
  | .listAdd t => app "ListAdd" t.describe
  | .listGet t => app "ListGet" t.describe
  | .listSet t => app "ListSet" t.describe
  | .listCount t => app "ListCount" t.describe
  | .arrayResize t => app "ArrayResize" t.describe
  | .mdGet t rank => md "MdGet" t rank
  | .mdSet t rank => md "MdSet" t rank
  | .mdLength t rank => md "MdLength" t rank
  | .strConcat => "StrConcat"
  | .strLength => "StrLength"
  | .objEquals => "ObjEquals"

/-- A method reference. -/
def method : MethodRef → String
  | .method ty index => struct "Method" [("ty", toString ty), ("index", toString index)]
  | .intrinsic op => app "Intrinsic" (intrinsic op)

/-- A label. -/
def label (l : Label) : String := app "Label" (toString l.index)

/-- An instruction. -/
def instr : Instr → String
  | .nop => "Nop"
  | .const c => app "Ldc" (literal c)
  | .loadDefault t => app "LdDefault" t.describe
  | .loadArg n => app "LdArg" (toString n)
  | .loadArgAddr n => app "LdArgA" (toString n)
  | .storeArg n => app "StArg" (toString n)
  | .loadLocal n => app "LdLoc" (toString n)
  | .loadLocalAddr n => app "LdLocA" (toString n)
  | .storeLocal n => app "StLoc" (toString n)
  | .dup => "Dup"
  | .pop => "Pop"
  | .arith op checked => struct "Arith" [("op", op.tag), ("checked", toString checked)]
  | .bitwise op => app "Bitwise" op.tag
  | .neg checked => struct "Neg" [("checked", toString checked)]
  | .not => "Not"
  | .conv k checked => struct "Conv" [("to", k.tag), ("checked", toString checked)]
  | .compare op => app "Cmp" op.tag
  | .jump l => app "Br" (label l)
  | .jumpIfTrue l => app "BrTrue" (label l)
  | .jumpIfFalse l => app "BrFalse" (label l)
  | .jumpIfAbsent l => app "BrNull" (label l)
  | .jumpIfPresent l => app "BrInst" (label l)
  | .switch ls => app "Switch" (list (ls.map label))
  | .leave l => app "Leave" (label l)
  | .endFinally => "EndFinally"
  | .endFilter => "EndFilter"
  | .throw => "Throw"
  | .rethrow => "Rethrow"
  | .ret => "Ret"
  | .newObject m => app "NewObj" (method m)
  | .initObject t => app "InitObj" t.describe
  | .loadField f => app "LdFld" (field f)
  | .loadFieldAddr f => app "LdFldA" (field f)
  | .storeField f => app "StFld" (field f)
  | .loadStatic f => app "LdSFld" (field f)
  | .loadStaticAddr f => app "LdSFldA" (field f)
  | .storeStatic f => app "StSFld" (field f)
  | .call m => app "Call" (method m)
  | .callChild n => app "CallChild" (toString n)
  | .newArray t => app "NewArr" t.describe
  | .newMdArray t rank => md "NewMdArr" t rank
  | .newList t => app "NewList" t.describe
  | .loadLength => "LdLen"
  | .loadElem => "LdElem"
  | .loadElemAddr => "LdElemA"
  | .storeElem => "StElem"
  | .loadIndirect => "LdInd"
  | .storeIndirect => "StInd"
  | .optHasValue => "OptHasValue"
  | .optValueOrDefault t => app "OptGetValueOrDefault" t.describe
  | .optValue => "OptGetValue"
  | .optWrap => "OptWrap"
  | .isInstance t exact => struct "IsInst" [("ty", t.describe), ("exact", toString exact)]
  | .castClass t => app "CastClass" t.describe
  | .box t => app "Box" t.describe
  | .unbox t => app "UnboxAny" t.describe
  | .loadFunction n => app "LdFtn" (toString n)
  | .newInvoker n => struct "NewInvoker" [("captured", toString n)]
  | .callInvoker n => struct "CallInvoker" [("argc", toString n)]
  | .markStack n => app "MarkStack" (toString n)
  | .resetStack n => app "ResetStack" (toString n)
  | .hashBucket n => struct "HashBucket" [("size", toString n)]

/-- The kind of a handler. -/
def regionKind : RegionKind Nat → String
  | .catch t => app "Catch" t.describe
  | .filter start => app "Filter" (toString start)
  | .finally => "Finally"
  | .fault => "Fault"

/-- A protected region. -/
def region (r : Region Nat) : String :=
  struct "Region"
    [("try_start", toString r.tryStart), ("try_end", toString r.tryEnd),
      ("handler_start", toString r.handlerStart), ("handler_end", toString r.handlerEnd),
      ("kind", regionKind r.kind), ("stack_mark", toString r.stackMark)]

mutual

/-- A routine with everything in it. -/
def routine : Routine → String
  | ⟨_, name, params, ret, locals, code, labels, regions, children⟩ =>
      struct "Routine"
        [("name", Text.quoted name), ("params", list (Ty.describeList params)),
          ("ret", ret.describe), ("locals", list (Ty.describeList locals.toList)),
          ("code", list (code.toList.map instr)), ("labels", list (labels.toList.map toString)),
          ("regions", list (regions.map region)), ("children", list (routines children))]
  termination_by structural r => r

/-- Routines with everything in them. -/
def routines : List Routine → List String
  | [] => []
  | r :: rs => routine r :: routines rs
  termination_by structural rs => rs

end

end Describe

end Arbor
