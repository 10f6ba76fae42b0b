/-
  Code that keeps hidden tables to itself.

  The tables that hidden arguments hold are loaded in order to read or write one
  element, or to be handed to a nested function.  In between they are on the stack,
  and so are the operands that go with them; no jump leads there.  What is known of
  these values is a list of items, top first, and each instruction changes it in
  one of a few ways.  A family of routines is sheltered if its code follows these
  changes throughout.
-/
import Arbor.Proofs.Code.Closed
import Arbor.Tree.Json

set_option autoImplicit false

namespace Arbor

/-- A table that a hidden argument holds. -/
inductive HiddenTable where
  | constants
  | closure
  deriving DecidableEq

namespace HiddenParams

/-- The tables that the hidden arguments hold, in their order. -/
def tables (h : HiddenParams) : List HiddenTable :=
  (if h.constants then [.constants] else []) ++ if h.closure then [.closure] else []

theorem length_tables (h : HiddenParams) : h.tables.length = h.count := by
  obtain ⟨constants, closure⟩ := h
  cases constants <;> cases closure <;> rfl

end HiddenParams

/-- What is known of a value on top of the stack. -/
inductive Item where
  | table (t : HiddenTable)
  /-- A constant that is an index. -/
  | index (n : Int)
  /-- The value of a local. -/
  | value (slot : Nat)
  /-- The value of a local, as tables hold it. -/
  | boxed (slot : Nat)
  /-- A nested function with these hidden parameters. -/
  | function (g : HiddenParams)
  /-- The address of a local, or of an argument that is not hidden. -/
  | place

/-- The items for the hidden arguments of a nested function. -/
def HiddenParams.items (g : HiddenParams) : List Item := (g.tables.map Item.table).reverse

/-- Whether the instruction reads or writes through an address, or makes a function value. -/
def Instr.isDelicate : Instr → Bool
  | loadFunction _ | newInvoker _ => true
  | i => i.isIndirect

/-- Whether the instruction belongs to a landing: a placeholder, or the cut of the stack at its pad. -/
def Instr.isLanding : Instr → Bool
  | nop | resetStack _ => true
  | _ => false

/-- Whether the instruction is one of the tests that checks for null and of bounds start with. -/
def Instr.isTest : Instr → Bool
  | jumpIfAbsent _ | jumpIfTrue _ => true
  | _ => false

theorem Instr.isTest_of_labels {i : Instr} (h : i.labels = []) : i.isTest = false := by
  cases i with
  | jumpIfAbsent l | jumpIfTrue l => cases h
  | _ => rfl

theorem Instr.isTest_of_isBare {i : Instr} (h : i.isBare = true) : i.isTest = false := by
  simp only [isBare, Bool.and_eq_true, List.isEmpty_iff] at h
  exact isTest_of_labels h.1.1.1

/-- Whether emitters use the instruction in certain places only. -/
def Instr.isSpecial (i : Instr) : Bool := i.isDelicate || (i.isLanding || i.isTest)

theorem Instr.isDelicate_of_isSpecial {i : Instr} (h : i.isSpecial = false) : i.isDelicate = false :=
  (Bool.or_eq_false_iff.mp h).1

theorem Instr.isLanding_of_isSpecial {i : Instr} (h : i.isSpecial = false) : i.isLanding = false :=
  (Bool.or_eq_false_iff.mp (Bool.or_eq_false_iff.mp h).2).1

theorem Instr.isTest_of_isSpecial {i : Instr} (h : i.isSpecial = false) : i.isTest = false :=
  (Bool.or_eq_false_iff.mp (Bool.or_eq_false_iff.mp h).2).2

/-- Whether the instruction names nothing and is not special. -/
def Instr.isSimple (i : Instr) : Bool := i.isBare && !i.isSpecial

/-- How an instruction of a routine with the hidden parameters `h` changes what is known of the stack;
`role n g` says that the child `n` has the hidden parameters `g`. -/
inductive Instr.Shifts (h : HiddenParams) (role : Nat → HiddenParams → Prop) :
    List Item → Instr → List Item → Prop
  /-- Other instructions have no part in it: they name no hidden argument, and call children that have
  none. -/
  | other {i : Instr} : i.isDelicate = false → (∀ n ∈ i.args, h.count ≤ n) →
      (∀ n ∈ i.children, role n .none) → Shifts h role [] i []
  | table {n : Nat} {t : HiddenTable} {st : List Item} : h.tables[n]? = some t →
      Shifts h role st (.loadArg n) (.table t :: st)
  | index {n : Int} {t : HiddenTable} :
      Shifts h role [.table t] (.const (.num (.i32 n))) [.index n, .table t]
  | fetch {n : Int} {t : HiddenTable} : Shifts h role [.index n, .table t] .loadElem []
  | operand {n : Int} {v : Nat} : Shifts h role [.index n, .table .closure] (.loadLocal v)
      [.value v, .index n, .table .closure]
  | boxed {n : Int} {v : Nat} {ty : Ty} : Shifts h role [.value v, .index n, .table .closure] (.box ty)
      [.boxed v, .index n, .table .closure]
  | store {n : Int} {v : Nat} : Shifts h role [.boxed v, .index n, .table .closure] .storeElem []
  | function {n : Nat} {g : HiddenParams} : role n g →
      Shifts h role g.items (.loadFunction n) (.function g :: g.items)
  | invoker {k : Nat} {g : HiddenParams} : (k = g.count ∨ g = .none) →
      Shifts h role (.function g :: g.items) (.newInvoker k) []
  | localPlace {n : Nat} : Shifts h role [] (.loadLocalAddr n) [.place]
  | argPlace {n : Nat} : h.count ≤ n → Shifts h role [] (.loadArgAddr n) [.place]
  | zeroed {ty : Ty} : Shifts h role [.place] (.initObject ty) []
  | indirect : Shifts h role [.place] .loadIndirect []

/-- More is known of the roles of children. -/
theorem Instr.Shifts.mono {h : HiddenParams} {role role' : Nat → HiddenParams → Prop}
    {st st' : List Item} {i : Instr} (hi : Instr.Shifts h role st i st')
    (hrole : ∀ n g, role n g → role' n g) : Instr.Shifts h role' st i st' := by
  cases hi with
  | other hplain hargs hchildren => exact .other hplain hargs fun n hn => hrole n _ (hchildren n hn)
  | table ht => exact .table ht
  | index => exact .index
  | fetch => exact .fetch
  | operand => exact .operand
  | boxed => exact .boxed
  | store => exact .store
  | function hn => exact .function (hrole _ _ hn)
  | invoker hk => exact .invoker hk
  | localPlace => exact .localPlace
  | argPlace hn => exact .argPlace hn
  | zeroed => exact .zeroed
  | indirect => exact .indirect

namespace Instr.Shifts

variable {h : HiddenParams} {role : Nat → HiddenParams → Prop} {st st' : List Item} {t : HiddenTable}

end Instr.Shifts

namespace Routine

/-- The child of the routine is in the family, with the hidden parameters. -/
def Role (P : HiddenParams → Routine → Prop) (R : Routine) (n : Nat) (g : HiddenParams) : Prop :=
  ∃ c, R.children[n]? = some c ∧ P g c

/-- The code of the routine follows what is known of the stack, of which nothing is known where jumps
and handlers lead. -/
structure Follows (P : HiddenParams → Routine → Prop) (h : HiddenParams) (R : Routine)
    (known : Nat → List Item) : Prop where
  entry : ∀ pc, R.Entry pc → known pc = []
  shifts : ∀ (pc : Nat) (i : Instr), R.code[pc]? = some i → i.Shifts h (R.Role P) (known pc) (known (pc + 1))

/-- A family of closed routines, each with its hidden parameters, that keep hidden tables to
themselves. -/
def Sheltering (P : HiddenParams → Routine → Prop) : Prop :=
  ∀ h R, P h R → R.Closed ∧ ∃ known, R.Follows P h known

end Routine

/-! ## Helpers -/

end Arbor
