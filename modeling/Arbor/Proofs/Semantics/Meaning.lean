/-
  Direct evaluation of trees.

  A tree means an evaluation, built layer by layer from the meanings of its
  operands.  Operands are evaluated from left to right.  Operators are lifted over
  optionals: an absent operand makes the result absent; equality compares
  presence first, and an ordering with an absent operand is false, or absent if
  the node is an optional truth value and three-valued comparisons are on.  The
  content of an absent optional is a fault, or with null checks a failed check,
  which ends the enclosing statement, test, left operand of a coalescing or
  function with the default of its type.
-/
import Arbor.Emit.Assign
import Arbor.Emit.Operator
import Arbor.Emit.Switch
import Arbor.Proofs.Semantics.Induction
import Arbor.Proofs.Semantics.World

set_option autoImplicit false

namespace Arbor

/-! ## Operators on values -/

namespace Run

/-- A unary operator on a present operand of a type. -/
def unaryValue (r : Registry) (op : UnaryOp) (checked : Bool) (ty : Ty) (v : Value) : Run Value :=
  match op with
  | .plus | .isTrue => pure v
  | .negate => negValue r checked v
  | .not | .isFalse => complement r v
  | .increment => arithValues r .add checked v (.num (.one (ty.numKind?.getD (.int .i32))))
  | .decrement => arithValues r .sub checked v (.num (.one (ty.numKind?.getD (.int .i32))))

/-- A binary operator on two present operands of a type. -/
def binaryValue (r : Registry) (op : BinaryOp) (checked : Bool) (ty : Ty) (a b : Value) :
    Run Value :=
  match op with
  | .add =>
      if ty.underlying = .str then intrinsic r .strConcat [a, b]
      else arithValues r .add checked a b
  | .sub => arithValues r .sub checked a b
  | .mul => arithValues r .mul checked a b
  | .div => arithValues r .div false a b
  | .rem => arithValues r .rem false a b
  | .and => bitwise r .and a b
  | .or => bitwise r .or a b
  | .xor => bitwise r .xor a b
  | .shl => bitwise r .shl a b
  | .shr => bitwise r .shr a b
  | .eq => compareValues .eq a b
  | .ne => compareValues .ne a b
  | .lt => compareValues .lt a b
  | .le => compareValues .le a b
  | .gt => compareValues .gt a b
  | .ge => compareValues .ge a b

end Run

/-- The result of an operator of which an operand is absent. -/
def BinaryOp.onAbsent (op : BinaryOp) (o : Options) (ty : Ty) (bothAbsent : Bool) : Value :=
  if op.isEquality then Value.wrapIf ty.isNullable (.bool (bothAbsent == (op == .eq)))
  else if op.isComparison && !(ty.isNullable && o.threeValuedComparisons) then
    Value.wrapIf ty.isNullable (.bool false)
  else .absent

/-! ## Switches -/

/-- Whether a type is no optional, or the optional of a value type. -/
def Ty.isPlainOptional (ty : Ty) : Bool := !ty.isNullable || ty.underlying.isValueType

/-- Whether a test that is a constant carries a literal of its type. -/
def Expr.isFittingTest (test : Expr) : Bool :=
  match test.kind with
  | .constant value =>
      test.ty.isPlainOptional &&
        match value.ty? with
        | none => test.ty.canBeAbsent
        | some found => test.ty.underlying = found
  | _ => true

/-- Whether a value of a type that a table can hold is one of the type, and the constant tests for
it carry literals of their types. -/
def Ty.suits (ty : Ty) (v : Value) (tests : List Expr) : Bool :=
  !ty.isTabular || (v.isOf ty && ty.isPlainOptional && tests.all (·.isFittingTest))

/-! ## Meanings -/

/-- A place that was prepared. -/
inductive Spot where
  | var (id : VarId)

/-- What a tree means. -/
structure Meaning where
  expr : Expr
  /-- The evaluation for a shape, given whether failed checks have somewhere to land; the last flag
  asks to create what is missing. -/
  eval : Bool → Shape → Bool → Eval Result
  /-- Prepares the tree as a place. -/
  place : Bool → Bool → Eval Spot

namespace Meaning

/-- Static type of the tree. -/
def ty (d : Meaning) : Ty := d.expr.ty

/-- Evaluates to a value. -/
def value (d : Meaning) (exits : Bool) : Eval Value := do
  match ← d.eval exits .value false with
  | .value v => pure v
  | .nothing => Eval.stuck

/-- Evaluates for the effects. -/
def effect (d : Meaning) (exits : Bool) : Eval PUnit := do
  match ← d.eval exits .nothing false with
  | .nothing => pure ⟨⟩
  | .value _ => Eval.stuck

end Meaning

namespace Eval

variable (setting : Setting)

/-- What stands for a node whose check failed: the default of its type, in its form. -/
def landed (ty : Ty) (form : Form) : Eval Result :=
  match form with
  | .nothing => pure .nothing
  | .value => do pure (.value (← defaultOf setting.registry ty))
  | .address => stuck

/-- Evaluates with a landing of its own. -/
def landing (ty : Ty) (form : Form) (body : Bool → Eval Result) : Eval Result :=
  orLand (body setting.options.usesExits) (landed setting ty form)

/-- Evaluates a node with a landing of its own. -/
def guarded (d : Meaning) (shape : Shape) : Eval Result :=
  landing setting d.ty (shape.form d.ty) fun exits => d.eval exits shape false

/-- The value of a node with a landing of its own. -/
def guardedValue (d : Meaning) : Eval Value := do
  match ← guarded setting d .value with
  | .value v => pure v
  | .nothing => stuck

/-- Brings a result into a shape. -/
def adapt (ty : Ty) (result : Result) (shape : Shape) : Eval Result :=
  match result with
  | .nothing => pure .nothing
  | .value v =>
      if shape = .nothing then pure .nothing
      else if shape.wantsAddress ty then stuck
      else pure (.value v)

/-- A value stored in a slot of another type. -/
def coerced (source target : Ty) (v : Value) : Value :=
  if source = target then v
  else if target.isNullable && target.underlying = source then v.wrapped
  else if target = .object && source.isValueType then v.boxed
  else v

/-- A branch of a node of the given type. -/
def branch (d : Meaning) (ty : Ty) (exits discard : Bool) : Eval Result := do
  if discard then
    d.effect exits
    pure .nothing
  else
    let v ← d.value exits
    pure (.value (v.wrapIf (ty.isNullable && !d.ty.isNullable)))

/-! ## Leaves -/

/-- A constant. -/
def constant (value : Literal) (ty : Ty) : Eval Result :=
  match value.ty? with
  | none => if ty.isVoid then pure .nothing else do pure (.value (← defaultOf setting.registry ty))
  | some _ => yield ty ((Value.ofLiteral value).wrapIf ty.isNullable)

/-- The default of a type. -/
def default (ty : Ty) : Eval Result :=
  if ty.isVoid then pure .nothing else do pure (.value (← defaultOf setting.registry ty))

/-- A variable, which has to be of the type of the node. -/
def parameter (id : VarId) (ty : Ty) (shape : Shape) : Eval Result := do
  let (declared, v) ← lookup id
  if declared ≠ ty || shape.wantsAddress ty then stuck else yield ty v

/-! ## Operators -/

/-- A unary operator. -/
def unary (op : UnaryOp) (operand : Meaning) (checked : Bool) (ty : Ty) (exits : Bool) :
    Eval Result := do
  let v ← operand.value exits
  match v.payloadAt? operand.ty with
  | some x =>
      let y ← lift (Run.unaryValue setting.registry op checked operand.ty.underlying x)
      yield ty (y.wrapIf ty.isNullable)
  | none => yield ty (if ty.isNullable then .absent else .bool false)

/-- A binary operator on the values of its operands. -/
def binaryOn (op : BinaryOp) (checked : Bool) (left right ty : Ty) (a b : Value) : Eval Value := do
  match a.payloadAt? left, b.payloadAt? right with
  | some x, some y =>
      let v ← lift (Run.binaryValue setting.registry op checked left.underlying x y)
      pure (v.wrapIf ty.isNullable)
  | x, y => pure (op.onAbsent setting.options ty (x.isNone && y.isNone))

/-- A binary operator. -/
def binary (op : BinaryOp) (left right : Meaning) (checked : Bool) (ty : Ty) (exits : Bool) :
    Eval Result := do
  let a ← left.value exits
  let b ← right.value exits
  yield ty (← binaryOn setting op checked left.ty right.ty ty a b)

/-- Whether a present operand decides a short-circuit operator. -/
def decides (op : LogicalOp) (v : Value) : Bool := v.isTruthy == Emit.decisive op

/-- A short-circuit operator on optionals of which the left one does not decide. -/
def combined (op : LogicalOp) (left right ty : Ty) (a b : Value) : Eval Result :=
  match a.payloadAt? left with
  | some _ => yield ty (b.wrapIf !right.isNullable)
  | none =>
      match b.payloadAt? right with
      | some y => yield ty (if decides op y then .present (.bool (Emit.decisive op)) else .absent)
      | none => yield ty .absent

/-- A short-circuit operator.  A left operand that is present and decides is the result; else the
right operand is evaluated. -/
def logical (op : LogicalOp) (left right : Meaning) (ty : Ty) (exits : Bool) : Eval Result := do
  let a ← left.value exits
  if left.ty.isNullable || right.ty.isNullable then
    if (a.payloadAt? left.ty).any (decides op) then yield ty (.present (.bool (Emit.decisive op)))
    else
      let b ← right.value exits
      combined op left.ty right.ty ty a b
  else if decides op a then yield ty (a.wrapIf ty.isNullable)
  else
    let b ← right.value exits
    yield ty (b.wrapIf ty.isNullable)

/-- What is inside an optional, where one is there and none is expected. -/
def payloadIf (condition : Bool) (v : Value) : Eval Value :=
  if condition then lift (Run.payloadOf setting.registry v) else pure v

/-- The left operand, or the right one where the left is absent. -/
def coalesce (left right : Meaning) (ty : Ty) (exits : Bool) : Eval Result := do
  let a ← guardedValue setting left
  if a.isAbsent then
    let b ← right.value exits
    yield ty (b.wrapIf (left.ty.isNullable && ty.isNullable && !right.ty.isNullable))
  else yield ty (← payloadIf setting (left.ty.isNullable && !ty.isNullable) a)

/-! ## Members and conversions -/

/-- A member. -/
def member (receiver : Option Meaning) (m : Member) (ty : Ty) (exits : Bool) : Eval Result := do
  match receiver, m with
  | some receiver, .hasValue =>
      let v ← receiver.value exits
      yield ty (.bool !v.isAbsent)
  | some receiver, .value =>
      let v ← receiver.value exits
      if v.isAbsent && exits && setting.options.nullChecks then exit
      else yield ty (← lift (Run.payloadOf setting.registry v))
  | _, _ => stuck

/-- Conversion of a number to a kind. -/
def convertNum (source target : NumKind) (checked : Bool) (v : Value) : Eval Value :=
  if source = target then pure v else lift (Run.convValue setting.registry target checked v)

/-- A conversion between numeric types and their optionals.  An absent operand stays absent where an
optional is expected. -/
def numericConversion (operand : Meaning) (source target : NumKind) (checked : Bool) (ty : Ty)
    (exits : Bool) : Eval Result := do
  let v ← operand.value exits
  if operand.ty.isNullable && ty.isNullable then
    match v.payload? with
    | some x =>
        let y ← convertNum setting source target checked x
        yield ty y.wrapped
    | none => yield ty .absent
  else
    let x ← payloadIf setting operand.ty.isNullable v
    let y ← convertNum setting source target checked x
    yield ty (y.wrapIf ty.isNullable)

/-- A conversion. -/
def convert (operand : Meaning) (checked : Bool) (ty : Ty) (exits : Bool) : Eval Result :=
  match operand.ty.underlying.numKind?, ty.underlying.numKind? with
  | some source, some target => numericConversion setting operand source target checked ty exits
  | _, _ => stuck

/-! ## Control flow -/

/-- A conditional; an absent test counts as false. -/
def conditional (test ifTrue ifFalse : Meaning) (ty : Ty) (exits : Bool) (shape : Shape) :
    Eval Result := do
  let t ← guardedValue setting test
  let discard := ty.isVoid || shape = .nothing
  if ((t.payloadAt? test.ty).getD (.bool false)).isTruthy then branch ifTrue ty exits discard
  else branch ifFalse ty exits discard

/-- Whether one of the tests equals the value. -/
def matchesAny (ty : Ty) (v : Value) : List Meaning → Eval Bool
  | [] => pure false
  | test :: rest => do
      let x ← guardedValue setting test
      let same ← binaryOn setting .eq false ty test.ty .bool v x
      if same.isTruthy then pure true else matchesAny ty v rest

/-- The body of the first case with a test that equals the value. -/
def select (ty : Ty) (v : Value) : List (SwitchCase Meaning) → Eval (Option Meaning)
  | [] => pure none
  | c :: rest => do
      if ← matchesAny setting ty v c.tests then pure (some c.body) else select ty v rest

/-- A switch. -/
def switch (value : Meaning) (cases : List (SwitchCase Meaning)) (fallback : Option Meaning)
    (ty : Ty) (exits : Bool) : Eval Result := do
  let v ← value.value exits
  if !value.ty.suits v (cases.flatMap fun c => c.tests.map (·.expr)) then stuck
  else
    match (← select setting value.ty v cases).or fallback with
    | some body => branch body ty exits ty.isVoid
    | none => default setting ty

/-- A statement: failed checks end it. -/
def statement (d : Meaning) : Eval PUnit := do
  match ← landing setting .void .nothing fun exits => d.eval exits .nothing false with
  | .nothing => pure ⟨⟩
  | .value _ => stuck

/-- Statements and a last node that yields the value of the block. -/
def statements (ty : Ty) (exits : Bool) (shape : Shape) : List Meaning → Eval Result
  | [] => default setting ty
  | [last] => do
      if ty.isVoid then
        last.effect exits
        pure .nothing
      else if last.ty = ty then last.eval exits shape false
      else branch last ty exits false
  | first :: rest => do
      statement setting first
      statements ty exits shape rest

/-- Variables with the defaults of their types. -/
def fresh : List Variable → Eval Vars
  | [] => pure []
  | v :: vars => do
      if v.ty.isVoid then stuck
      else
        let zero ← defaultOf setting.registry v.ty
        let rest ← fresh vars
        pure ((v.id, v.ty, zero) :: rest)

/-- A block with variables. -/
def block (vars : List Variable) (body : List Meaning) (ty : Ty) (exits : Bool) (shape : Shape) :
    Eval Result := do
  let bound ← fresh setting vars
  within bound (statements setting ty exits shape body)

/-! ## Assignments -/

/-- The value of a place. -/
def load : Spot → Eval Value
  | .var id => do pure (← lookup id).2

/-- Stores into a place. -/
def store : Spot → Value → Eval PUnit
  | .var id, v => writeVar id v

/-- An assignment that replaces the old value. -/
def replace (target value : Meaning) (extend exits : Bool) : Eval Value := do
  let spot ← target.place exits extend
  let v ← value.value exits
  let new := coerced value.ty target.ty v
  store spot new
  pure new

/-- An assignment that applies an operator to the old value. -/
def update (op : BinaryOp) (target value : Meaning) (checked extend exits : Bool) :
    Eval Value := do
  let spot ← target.place exits extend
  let old ← load spot
  let v ← value.value exits
  let new ← binaryOn setting op checked target.ty value.ty target.ty old v
  store spot new
  pure new

/-- The value one step away; an absent one stays absent. -/
def stepped (op : ArithOp) (k : NumKind) (checked : Bool) (ty : Ty) (old : Value) : Eval Value :=
  match old.payloadAt? ty with
  | none => pure .absent
  | some x => do
      let y ← lift (Run.arithValues setting.registry op checked x (.num (.one k)))
      pure (y.wrapIf ty.isNullable)

/-- An increment or decrement; a postfix one yields the old value. -/
def step (op : AssignOp) (target : Meaning) (checked extend exits : Bool) : Eval Value := do
  match target.ty.underlying.numKind? with
  | none => stuck
  | some k =>
      let spot ← target.place exits extend
      let old ← load spot
      let new ← stepped setting (Emit.stepOp op) k checked target.ty old
      store spot new
      pure (if op.yieldsOldValue then old else new)

/-- What an assignment leaves. -/
def assigned (ty : Ty) (shape : Shape) (v : Value) : Eval Result :=
  if shape = .nothing then pure .nothing else yield ty v

/-- An assignment of any kind. -/
def assign (op : AssignOp) (target : Meaning) (value : Option Meaning) (checked autoExtend : Bool)
    (ty : Ty) (exits : Bool) (shape : Shape) : Eval Result := do
  let extend := autoExtend || setting.options.autoExtendAssign
  if ty ≠ target.ty then stuck
  else
    match op.isStep, value with
    | true, none => assigned ty shape (← step setting op target checked extend exits)
    | false, some value =>
        match op.binary? with
        | none => assigned ty shape (← replace target value extend exits)
        | some bin =>
            assigned ty shape (← update setting bin target value checked extend exits)
    | _, _ => stuck

/-! ## Layers -/

/-- One layer. -/
def layer (k : ExprKind Meaning) (ty : Ty) (exits : Bool) (shape : Shape) : Eval Result :=
  match k with
  | .constant value => constant setting value ty
  | .default => default setting ty
  | .parameter id => parameter id ty shape
  | .member receiver m => member setting receiver m ty exits
  | .unary op operand checked none => unary setting op operand checked ty exits
  | .binary op left right checked none => binary setting op left right checked ty exits
  | .logical op left right => logical op left right ty exits
  | .coalesce left right => coalesce setting left right ty exits
  | .conditional test ifTrue ifFalse => conditional setting test ifTrue ifFalse ty exits shape
  | .block vars body => block setting vars body ty exits shape
  | .switch value cases fallback none => switch setting value cases fallback ty exits
  | .assign op target value checked autoExtend =>
      assign setting op target value checked autoExtend ty exits shape
  | .convert operand checked none => convert setting operand checked ty exits
  | _ => stuck

/-- Prepares a node as a place. -/
def placeOf (k : ExprKind Meaning) : Eval Spot :=
  match k with
  | .parameter id => pure (.var id)
  | _ => stuck

/-- A function whose parameters are bound; a failed check that lands nowhere else ends it. -/
def function (l : Lambda Meaning) : Eval Value := do
  if l.ret.isVoid then
    match ← guarded setting l.body .nothing with
    | .nothing => pure .null
    | .value _ => stuck
  else
    let v ← guardedValue setting l.body
    pure (v.wrapIf (l.ret.isNullable && !l.body.ty.isNullable))

end Eval

/-- The meaning of one layer over the meanings of its operands. -/
def Meaning.ofKind (setting : Setting) (k : ExprKind Meaning) (ty : Ty) : Meaning where
  expr := .node (k.map Meaning.expr) ty
  eval exits shape extend := do
    if extend && k.isPlace && ty.isCreatable then Eval.stuck
    else
      let result ← Eval.layer setting k ty exits shape
      Eval.adapt ty result shape
  place _ _ := Eval.placeOf k

/-- The meaning of a tree. -/
def Expr.toMeaning (setting : Setting) : Expr → Meaning := fold (Meaning.ofKind setting)

theorem Expr.toMeaning_expr (setting : Setting) (e : Expr) : (e.toMeaning setting).expr = e :=
  e.fold_keeps Meaning.expr fun _ _ => rfl

theorem Expr.toMeaning_ty (setting : Setting) (e : Expr) : (e.toMeaning setting).ty = e.ty := by
  rw [Meaning.ty, toMeaning_expr]

theorem Expr.toMeaning_node (setting : Setting) (k : ExprKind Expr) (ty : Ty) :
    (Expr.node k ty).toMeaning setting = .ofKind setting (k.map (toMeaning setting)) ty :=
  fold_node _ _ _

namespace Lambda

/-- The parameters of a function with their arguments, the last of them innermost. -/
def bound (l : Lambda Expr) (args : List Value) : Vars :=
  ((l.params.zip args).map fun (p, v) => (p.id, p.ty, v)).reverse

/-- Evaluates a call of a function directly. -/
def evaluate (setting : Setting) (l : Lambda Expr) (args : List Value) (h : Heap) (st : Statics) :
    EStateM.Result Stop World Value :=
  (Eval.function setting (l.map (Expr.toMeaning setting))).run ⟨h.outline, st, l.bound args⟩

end Lambda

end Arbor
