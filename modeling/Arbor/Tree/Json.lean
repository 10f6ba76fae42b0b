/-
  JSON form of expression trees.  Writing works one layer at a time; reading is
  bounded by the nesting of the value.
-/
import Arbor.Tree.Fold
import Arbor.Tree.Names
import Arbor.Ty.Json

set_option autoImplicit false

namespace Arbor

open Json

/-! ## Leaves -/

/-- The operator or kind with the given name. -/
def byName? {α : Type} (all : List α) (name : α → String) (j : Json) : Option α :=
  (unitVariant? j).bind fun text => all.find? fun a => name a == text

namespace Num

/-- Writes a double; infinities and NaN are null. -/
def floatJson (x : Float) : Json := if x.isFinite then .float x else .null

/-- Writes a number with its kind; a single is written as the double of the same value. -/
def toJson : Num → Json
  | int k w => tagged (NumKind.int k).tag (.int w.val)
  | single x => tagged NumKind.single.tag (floatJson x.toFloat)
  | double x => tagged NumKind.double.tag (floatJson x)

/-- Reads a number with its kind. -/
def ofJson? (j : Json) : Option Num :=
  match variant? j with
  | some (tag, some content) =>
      match NumKind.ofTag? tag with
      | some (.int k) => (word? k content).map (int k)
      | some .single => (single? content).map single
      | some .double => (double? content).map double
      | none => none
  | _ => none

end Num

namespace Literal

/-- Writes a constant. -/
def toJson : Literal → Json
  | null => .str "null"
  | bool b => tagged "bool" (.bool b)
  | num n => tagged "num" n.toJson
  | str s => tagged "str" (.str s)

/-- Reads a constant. -/
def ofJson? (j : Json) : Option Literal :=
  match variant? j with
  | some ("null", none) => some null
  | some ("null", some .null) => some null
  | some ("bool", some content) => (bool? content).map bool
  | some ("num", some content) => (Num.ofJson? content).map num
  | some ("str", some content) => (str? content).map str
  | _ => none

end Literal

namespace Variable

/-- Writes a variable. -/
def toJson (v : Variable) : Json :=
  .obj [("id", .ofNat v.id), ("name", .str v.name), ("ty", v.ty.toJson)]

/-- Reads a variable. -/
def ofJson? (src : Source) (j : Json) : Option Variable := do
  let r ← record? ["id", "name", "ty"] j
  pure ⟨← r.required? "id" u32?, ← r.required? "name" str?, ← r.required? "ty" (Ty.ofJson? src)⟩

end Variable

namespace LabelTarget

/-- Writes a label. -/
def toJson (l : LabelTarget) : Json := .obj [("id", .ofNat l.id), ("ty", l.ty.toJson)]

/-- Reads a label. -/
def ofJson? (src : Source) (j : Json) : Option LabelTarget := do
  let r ← record? ["id", "ty"] j
  pure ⟨← r.required? "id" u32?, ← r.required? "ty" (Ty.ofJson? src)⟩

end LabelTarget

namespace Member

/-- Writes a member. -/
def toJson : Member → Json
  | field f => tagged "field" f.toJson
  | property p => tagged "property" p.toJson
  | arrayLength => .str "array_length"
  | listCount => .str "list_count"
  | strLength => .str "str_length"
  | hasValue => .str "has_value"
  | value => .str "value"

/-- The member of a variant without content. -/
def ofName? : String → Option Member
  | "array_length" => some arrayLength
  | "list_count" => some listCount
  | "str_length" => some strLength
  | "has_value" => some hasValue
  | "value" => some value
  | _ => none

/-- Reads a member. -/
def ofJson? (j : Json) : Option Member :=
  match variant? j with
  | none => none
  | some (name, none) => ofName? name
  | some (name, some .null) => ofName? name
  | some ("field", some content) => (FieldRef.ofJson? content).map field
  | some ("property", some content) => (PropertyRef.ofJson? content).map property
  | some _ => none

end Member

namespace MemberTarget

/-- Writes the member of a binding. -/
def toJson : MemberTarget → Json
  | field f => tagged "field" f.toJson
  | property p => tagged "property" p.toJson

/-- Reads the member of a binding. -/
def ofJson? (j : Json) : Option MemberTarget :=
  match variant? j with
  | some ("field", some content) => (FieldRef.ofJson? content).map field
  | some ("property", some content) => (PropertyRef.ofJson? content).map property
  | _ => none

end MemberTarget

namespace HiddenParams

/-- No hidden parameters. -/
def none : HiddenParams := ⟨false, false⟩

/-- Writes which hidden parameters there are. -/
def toJson (h : HiddenParams) : Json :=
  .obj [("constants", .bool h.constants), ("closure", .bool h.closure)]

/-- Reads which hidden parameters there are; none by default. -/
def ofJson? (j : Json) : Option HiddenParams := do
  let r ← record? ["constants", "closure"] j
  pure ⟨← r.defaulted? "constants" bool? false, ← r.defaulted? "closure" bool? false⟩

end HiddenParams

/-! ## Writing one layer -/

/-- Writes an element initializer. -/
def ElementInit.toJson (i : ElementInit Json) : Json :=
  .obj [("add", i.add.toJson), ("args", .arr i.args)]

mutual

/-- Writes a binding. -/
def Binding.toJson : Binding Json → Json
  | .assign m value => tagged "assign" (.obj [("member", m.toJson), ("value", value)])
  | .member m bindings =>
      tagged "member" (.obj [("member", m.toJson), ("bindings", .arr (Binding.toJsonList bindings))])
  | .list m items =>
      tagged "list" (.obj [("member", m.toJson), ("items", .ofList ElementInit.toJson items)])
  termination_by structural b => b

/-- Writes bindings. -/
def Binding.toJsonList : List (Binding Json) → List Json
  | [] => []
  | b :: bs => Binding.toJson b :: Binding.toJsonList bs
  termination_by structural bs => bs

end

/-- Writes a function. -/
def Lambda.toJson (l : Lambda Json) : Json :=
  .obj [("name", .str l.name), ("params", .ofList Variable.toJson l.params),
    ("ret", l.ret.toJson), ("body", l.body), ("hidden", l.hidden.toJson)]

/-- An optional operand. -/
def operandJson (o : Option Json) : Json := .ofOption id o

/-- Writes one layer whose operands are written already. -/
def ExprKind.toJson : ExprKind Json → Json
  | constant value => tagged "constant" value.toJson
  | default => .str "default"
  | parameter id => tagged "parameter" (.ofNat id)
  | hoisted i => tagged "hoisted" (.ofNat i)
  | closureVar i => tagged "closure_var" (.ofNat i)
  | member receiver m =>
      tagged "member" (.obj [("receiver", operandJson receiver), ("member", m.toJson)])
  | index receiver args indexer =>
      tagged "index"
        (.obj [("receiver", receiver), ("args", .arr args),
          ("indexer", .ofOption PropertyRef.toJson indexer)])
  | unary op operand checked method =>
      tagged "unary"
        (.obj [("op", .str op.name), ("operand", operand), ("checked", .bool checked),
          ("method", .ofOption MethodRef.toJson method)])
  | binary op left right checked method =>
      tagged "binary"
        (.obj [("op", .str op.name), ("left", left), ("right", right), ("checked", .bool checked),
          ("method", .ofOption MethodRef.toJson method)])
  | logical op left right =>
      tagged "logical" (.obj [("op", .str op.name), ("left", left), ("right", right)])
  | coalesce left right => tagged "coalesce" (.obj [("left", left), ("right", right)])
  | conditional test ifTrue ifFalse =>
      tagged "conditional" (.obj [("test", test), ("if_true", ifTrue), ("if_false", ifFalse)])
  | block vars body =>
      tagged "block" (.obj [("variables", .ofList Variable.toJson vars), ("body", .arr body)])
  | loop body breakLabel continueLabel =>
      tagged "loop"
        (.obj [("body", body), ("break_label", .ofOption LabelTarget.toJson breakLabel),
          ("continue_label", .ofOption LabelTarget.toJson continueLabel)])
  | switch value cases fallback comparison =>
      tagged "switch"
        (.obj [("value", value),
          ("cases", .ofList (fun c => .obj [("tests", .arr c.tests), ("body", c.body)]) cases),
          ("default", operandJson fallback),
          ("comparison", .ofOption MethodRef.toJson comparison)])
  | tryCatch body handlers finallyBlock faultBlock =>
      let handlerJson (h : CatchBlock Json) : Json :=
        .obj [("ty", h.ty.toJson), ("variable", .ofOption Variable.toJson h.binder),
          ("filter", operandJson h.filter), ("body", h.body)]
      tagged "try"
        (.obj [("body", body), ("handlers", .ofList handlerJson handlers),
          ("finally", operandJson finallyBlock), ("fault", operandJson faultBlock)])
  | call method receiver args =>
      tagged "call"
        (.obj [("method", method.toJson), ("receiver", operandJson receiver), ("args", .arr args)])
  | invoke func args => tagged "invoke" (.obj [("func", func), ("args", .arr args)])
  | new ctor args =>
      tagged "new" (.obj [("ctor", .ofOption MethodRef.toJson ctor), ("args", .arr args)])
  | newArray elem (.elements items) =>
      tagged "new_array"
        (.obj [("elem", elem.toJson), ("init", tagged "elements" (.arr items))])
  | newArray elem (.bounds items) =>
      tagged "new_array" (.obj [("elem", elem.toJson), ("init", tagged "bounds" (.arr items))])
  | listInit start items =>
      tagged "list_init" (.obj [("new", start), ("items", .ofList ElementInit.toJson items)])
  | memberInit start bindings =>
      tagged "member_init"
        (.obj [("new", start), ("bindings", .arr (Binding.toJsonList bindings))])
  | lambda function => tagged "lambda" function.toJson
  | assign op target value checked autoExtend =>
      tagged "assign"
        (.obj [("op", .str op.name), ("target", target), ("value", operandJson value),
          ("checked", .bool checked), ("auto_extend", .bool autoExtend)])
  | typeTest operand target exact =>
      tagged "type_test"
        (.obj [("operand", operand), ("target", target.toJson), ("exact", .bool exact)])
  | convert operand checked method =>
      tagged "convert"
        (.obj [("operand", operand), ("checked", .bool checked),
          ("method", .ofOption MethodRef.toJson method)])
  | typeAs operand => tagged "type_as" (.obj [("operand", operand)])
  | throw operand => tagged "throw" (.obj [("operand", operandJson operand)])
  | goto kind target value =>
      tagged "goto"
        (.obj [("kind", .str kind.name), ("target", target.toJson), ("value", operandJson value)])
  | label target value =>
      tagged "label" (.obj [("target", target.toJson), ("default", operandJson value)])

/-- Writes a tree. -/
def Expr.toJson : Expr → Json :=
  fold fun k t => .obj [("kind", k.toJson), ("ty", t.toJson)]

/-- Writes a function with its tree. -/
def Lambda.treeJson (l : Lambda Expr) : Json := (l.map Expr.toJson).toJson

/-! ## Reading -/

section Read

variable {α : Type} (src : Source) (sub : Json → Option α)

/-- Reads an element initializer, given how operands are read. -/
def ElementInit.read (j : Json) : Option (ElementInit α) := do
  let r ← record? ["add", "args"] j
  pure ⟨← r.required? "add" (MethodRef.ofJson? src), ← r.required? "args" (list? sub)⟩

/-- Reads a binding; `fuel` bounds the nesting. -/
def Binding.read : Nat → Json → Option (Binding α)
  | 0, _ => none
  | fuel + 1, j =>
      match variant? j with
      | some ("assign", some content) => do
          let r ← fields? src ["member", "value"] content
          pure (.assign (← r.required? "member" MemberTarget.ofJson?) (← r.required? "value" sub))
      | some ("member", some content) => do
          let r ← fields? src ["member", "bindings"] content
          pure (.member (← r.required? "member" MemberTarget.ofJson?)
            (← r.required? "bindings" (list? (Binding.read fuel))))
      | some ("list", some content) => do
          let r ← fields? src ["member", "items"] content
          pure (.list (← r.required? "member" MemberTarget.ofJson?)
            (← r.required? "items" (list? (ElementInit.read src sub))))
      | _ => none

/-- Reads a binding. -/
def Binding.ofJson? (j : Json) : Option (Binding α) := Binding.read src sub (j.depth + 1) j

/-- Reads a case. -/
def SwitchCase.read (j : Json) : Option (SwitchCase α) := do
  let r ← record? ["tests", "body"] j
  pure ⟨← r.required? "tests" (list? sub), ← r.required? "body" sub⟩

/-- Reads a handler. -/
def CatchBlock.read (j : Json) : Option (CatchBlock α) := do
  let r ← record? ["ty", "variable", "filter", "body"] j
  pure ⟨← r.required? "ty" (Ty.ofJson? src), ← r.optional? "variable" (Variable.ofJson? src),
    ← r.optional? "filter" sub, ← r.required? "body" sub⟩

/-- Reads the contents of a new array. -/
def ArrayInit.read (j : Json) : Option (ArrayInit α) :=
  match variant? j with
  | some ("elements", some content) => (list? sub content).map .elements
  | some ("bounds", some content) => (list? sub content).map .bounds
  | _ => none

/-- Reads a function. -/
def Lambda.read (j : Json) : Option (Lambda α) := do
  let r ← record? ["name", "params", "ret", "body", "hidden"] j
  pure ⟨← r.required? "name" str?, ← r.required? "params" (list? (Variable.ofJson? src)),
    ← r.required? "ret" (Ty.ofJson? src), ← r.required? "body" sub,
    ← r.defaulted? "hidden" HiddenParams.ofJson? .none⟩

/-- Reads the content of one layer, given how operands are read. -/
def ExprKind.readContent (name : String) (j : Json) : Option (ExprKind α) :=
  match name with
  | "constant" => (Literal.ofJson? j).map .constant
  | "parameter" => (u32? j).map .parameter
  | "hoisted" => (u32? j).map .hoisted
  | "closure_var" => (u32? j).map .closureVar
  | "member" => do
      let r ← fields? src ["receiver", "member"] j
      pure (.member (← r.optional? "receiver" sub) (← r.required? "member" Member.ofJson?))
  | "index" => do
      let r ← fields? src ["receiver", "args", "indexer"] j
      pure (.index (← r.required? "receiver" sub) (← r.required? "args" (list? sub))
        (← r.optional? "indexer" PropertyRef.ofJson?))
  | "unary" => do
      let r ← fields? src ["op", "operand", "checked", "method"] j
      pure (.unary (← r.required? "op" (byName? UnaryOp.all UnaryOp.name))
        (← r.required? "operand" sub) (← r.required? "checked" bool?)
        (← r.optional? "method" (MethodRef.ofJson? src)))
  | "binary" => do
      let r ← fields? src ["op", "left", "right", "checked", "method"] j
      pure (.binary (← r.required? "op" (byName? BinaryOp.all BinaryOp.name))
        (← r.required? "left" sub) (← r.required? "right" sub) (← r.required? "checked" bool?)
        (← r.optional? "method" (MethodRef.ofJson? src)))
  | "logical" => do
      let r ← fields? src ["op", "left", "right"] j
      pure (.logical (← r.required? "op" (byName? LogicalOp.all LogicalOp.name))
        (← r.required? "left" sub) (← r.required? "right" sub))
  | "coalesce" => do
      let r ← fields? src ["left", "right"] j
      pure (.coalesce (← r.required? "left" sub) (← r.required? "right" sub))
  | "conditional" => do
      let r ← fields? src ["test", "if_true", "if_false"] j
      pure (.conditional (← r.required? "test" sub) (← r.required? "if_true" sub)
        (← r.required? "if_false" sub))
  | "block" => do
      let r ← fields? src ["variables", "body"] j
      pure (.block (← r.required? "variables" (list? (Variable.ofJson? src)))
        (← r.required? "body" (list? sub)))
  | "loop" => do
      let r ← fields? src ["body", "break_label", "continue_label"] j
      pure (.loop (← r.required? "body" sub) (← r.optional? "break_label" (LabelTarget.ofJson? src))
        (← r.optional? "continue_label" (LabelTarget.ofJson? src)))
  | "switch" => do
      let r ← fields? src ["value", "cases", "default", "comparison"] j
      pure (.switch (← r.required? "value" sub) (← r.required? "cases" (list? (SwitchCase.read sub)))
        (← r.optional? "default" sub) (← r.optional? "comparison" (MethodRef.ofJson? src)))
  | "try" => do
      let r ← fields? src ["body", "handlers", "finally", "fault"] j
      pure (.tryCatch (← r.required? "body" sub)
        (← r.required? "handlers" (list? (CatchBlock.read src sub))) (← r.optional? "finally" sub)
        (← r.optional? "fault" sub))
  | "call" => do
      let r ← fields? src ["method", "receiver", "args"] j
      pure (.call (← r.required? "method" (MethodRef.ofJson? src)) (← r.optional? "receiver" sub)
        (← r.required? "args" (list? sub)))
  | "invoke" => do
      let r ← fields? src ["func", "args"] j
      pure (.invoke (← r.required? "func" sub) (← r.required? "args" (list? sub)))
  | "new" => do
      let r ← fields? src ["ctor", "args"] j
      pure (.new (← r.optional? "ctor" (MethodRef.ofJson? src)) (← r.required? "args" (list? sub)))
  | "new_array" => do
      let r ← fields? src ["elem", "init"] j
      pure (.newArray (← r.required? "elem" (Ty.ofJson? src))
        (← r.required? "init" (ArrayInit.read sub)))
  | "list_init" => do
      let r ← fields? src ["new", "items"] j
      pure (.listInit (← r.required? "new" sub)
        (← r.required? "items" (list? (ElementInit.read src sub))))
  | "member_init" => do
      let r ← fields? src ["new", "bindings"] j
      pure (.memberInit (← r.required? "new" sub)
        (← r.required? "bindings" (list? (Binding.ofJson? src sub))))
  | "lambda" => (Lambda.read src sub j).map .lambda
  | "assign" => do
      let r ← fields? src ["op", "target", "value", "checked", "auto_extend"] j
      pure (.assign (← r.required? "op" (byName? AssignOp.all AssignOp.name))
        (← r.required? "target" sub) (← r.optional? "value" sub) (← r.required? "checked" bool?)
        (← r.required? "auto_extend" bool?))
  | "type_test" => do
      let r ← fields? src ["operand", "target", "exact"] j
      pure (.typeTest (← r.required? "operand" sub) (← r.required? "target" (Ty.ofJson? src))
        (← r.required? "exact" bool?))
  | "convert" => do
      let r ← fields? src ["operand", "checked", "method"] j
      pure (.convert (← r.required? "operand" sub) (← r.required? "checked" bool?)
        (← r.optional? "method" (MethodRef.ofJson? src)))
  | "type_as" => do
      let r ← fields? src ["operand"] j
      pure (.typeAs (← r.required? "operand" sub))
  | "throw" => do
      let r ← fields? src ["operand"] j
      pure (.throw (← r.optional? "operand" sub))
  | "goto" => do
      let r ← fields? src ["kind", "target", "value"] j
      pure (.goto (← r.required? "kind" (byName? GotoKind.all GotoKind.name))
        (← r.required? "target" (LabelTarget.ofJson? src)) (← r.optional? "value" sub))
  | "label" => do
      let r ← fields? src ["target", "default"] j
      pure (.label (← r.required? "target" (LabelTarget.ofJson? src)) (← r.optional? "default" sub))
  | _ => none

/-- Reads one layer, given how operands are read. -/
def ExprKind.read (j : Json) : Option (ExprKind α) :=
  match variant? j with
  | some ("default", none) => some .default
  | some ("default", some .null) => some .default
  | some (name, some content) => ExprKind.readContent src sub name content
  | _ => none

end Read

namespace Expr

/-- Reads a tree; `fuel` bounds the nesting. -/
def decode (src : Source) : Nat → Json → Option Expr
  | 0, _ => none
  | fuel + 1, j => do
      let r ← record? ["kind", "ty"] j
      let kind ← r.required? "kind" (ExprKind.read src (decode src fuel))
      let ty ← r.required? "ty" (Ty.ofJson? src)
      pure (.node kind ty)

/-- Reads a tree.  Every level of the tree is a level of the value. -/
def ofJson? (src : Source) (j : Json) : Option Expr := decode src (j.depth + 1) j

end Expr

/-- Reads a function with its tree. -/
def Lambda.ofJson? (src : Source) (j : Json) : Option (Lambda Expr) :=
  Lambda.read src (Expr.ofJson? src) j

end Arbor
