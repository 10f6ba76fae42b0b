/-
  Names of operators and node kinds: the ones used in tree files, the tags used
  in messages, and the words for node kinds.
-/
import Arbor.Tree.Basic

set_option autoImplicit false

namespace Arbor

universe u

namespace UnaryOp

/-- The operators in declaration order. -/
def all : List UnaryOp := [negate, plus, not, increment, decrement, isTrue, isFalse]

/-- Name in tree files. -/
def name : UnaryOp → String
  | negate => "negate"
  | plus => "plus"
  | not => "not"
  | increment => "increment"
  | decrement => "decrement"
  | isTrue => "is_true"
  | isFalse => "is_false"

/-- Tag in messages. -/
def tag : UnaryOp → String
  | negate => "Negate"
  | plus => "Plus"
  | not => "Not"
  | increment => "Increment"
  | decrement => "Decrement"
  | isTrue => "IsTrue"
  | isFalse => "IsFalse"

end UnaryOp

namespace BinaryOp

/-- The operators in declaration order. -/
def all : List BinaryOp :=
  [add, sub, mul, div, rem, and, or, xor, shl, shr, eq, ne, lt, le, gt, ge]

/-- Name in tree files. -/
def name : BinaryOp → String
  | add => "add"
  | sub => "sub"
  | mul => "mul"
  | div => "div"
  | rem => "rem"
  | and => "and"
  | or => "or"
  | xor => "xor"
  | shl => "shl"
  | shr => "shr"
  | eq => "eq"
  | ne => "ne"
  | lt => "lt"
  | le => "le"
  | gt => "gt"
  | ge => "ge"

/-- Tag in messages. -/
def tag : BinaryOp → String
  | add => "Add"
  | sub => "Sub"
  | mul => "Mul"
  | div => "Div"
  | rem => "Rem"
  | and => "And"
  | or => "Or"
  | xor => "Xor"
  | shl => "Shl"
  | shr => "Shr"
  | eq => "Eq"
  | ne => "Ne"
  | lt => "Lt"
  | le => "Le"
  | gt => "Gt"
  | ge => "Ge"

end BinaryOp

namespace LogicalOp

/-- The operators in declaration order. -/
def all : List LogicalOp := [andAlso, orElse]

/-- Name in tree files. -/
def name : LogicalOp → String
  | andAlso => "and_also"
  | orElse => "or_else"

end LogicalOp

namespace AssignOp

/-- The operators in declaration order. -/
def all : List AssignOp :=
  [assign, add, sub, mul, div, rem, and, or, xor, shl, shr, preIncrement, preDecrement,
    postIncrement, postDecrement]

/-- Name in tree files. -/
def name : AssignOp → String
  | assign => "assign"
  | add => "add"
  | sub => "sub"
  | mul => "mul"
  | div => "div"
  | rem => "rem"
  | and => "and"
  | or => "or"
  | xor => "xor"
  | shl => "shl"
  | shr => "shr"
  | preIncrement => "pre_increment"
  | preDecrement => "pre_decrement"
  | postIncrement => "post_increment"
  | postDecrement => "post_decrement"

/-- Tag in messages. -/
def tag : AssignOp → String
  | assign => "Assign"
  | add => "Add"
  | sub => "Sub"
  | mul => "Mul"
  | div => "Div"
  | rem => "Rem"
  | and => "And"
  | or => "Or"
  | xor => "Xor"
  | shl => "Shl"
  | shr => "Shr"
  | preIncrement => "PreIncrement"
  | preDecrement => "PreDecrement"
  | postIncrement => "PostIncrement"
  | postDecrement => "PostDecrement"

end AssignOp

namespace GotoKind

/-- The kinds in declaration order. -/
def all : List GotoKind := [jump, exitLoop, nextRound, exitFunction]

/-- Name in tree files. -/
def name : GotoKind → String
  | jump => "goto"
  | exitLoop => "break"
  | nextRound => "continue"
  | exitFunction => "return"

end GotoKind

/-- Words for the kind of a node. -/
def ExprKind.name {α : Type u} : ExprKind α → String
  | constant _ => "constant"
  | default => "default"
  | parameter _ => "parameter"
  | hoisted _ => "hoisted constant"
  | closureVar _ => "closure variable"
  | member .. => "member access"
  | index .. => "index"
  | unary .. => "unary"
  | binary .. => "binary"
  | logical .. => "logical"
  | coalesce .. => "coalesce"
  | conditional .. => "conditional"
  | block .. => "block"
  | loop .. => "loop"
  | switch .. => "switch"
  | tryCatch .. => "try"
  | call .. => "call"
  | invoke .. => "invoke"
  | new .. => "new"
  | newArray .. => "new array"
  | listInit .. => "list init"
  | memberInit .. => "member init"
  | lambda _ => "lambda"
  | assign .. => "assign"
  | typeTest .. => "type test"
  | convert .. => "convert"
  | typeAs _ => "type as"
  | throw _ => "throw"
  | goto .. => "goto"
  | label .. => "label"

end Arbor
