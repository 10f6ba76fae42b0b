/-
  Hidden parameters denote one environment.

  A compiled function is bound to a table of constants and a table of closure
  variables.  Wherever its code runs, and that of the functions nested in it, the
  hidden arguments are these two tables; function values that are made there carry
  them along, and nothing else leads to them.  So the tables hold what has been
  written to them, and a closure variable is read as it was last written, whichever
  function writes and whichever reads.
-/
import Arbor.Proofs.Machine.BoundTables
import Arbor.Proofs.Machine.TableAccess

set_option autoImplicit false

namespace Arbor

/-! ## Units at work -/

/-- The arguments of the current call. -/
def Moment.args (m : Moment) : List Value := (m.state.frames.head?.map fun f => f.args.toList).getD []

/-- What the code of `g`, which is `l` or nested in it, has of the tables at a moment, where they hold
`D`. -/
structure Lambda.Uses (l g : Lambda Expr) (r : Registry) (T : Arbor.Tables) (D : Contents)
    (m : Moment) : Prop where
  /-- The hidden arguments are the tables. -/
  tables : T.Fills g.hidden m.args
  /-- Code that reads an element of a table pushes the value that the table holds there. -/
  reads : ∀ {n i : Nat} {t : HiddenTable} {ty : Ty} {w : Value}, g.hidden.tables[n]? = some t →
    m.routine.CodeAt m.pc (readCode n i ty) → i < Run.depthLimit → (D t)[i]? = some w.boxed →
    w.OfType r m.state.heap ty →
    Run.Leads r m.routine m.pc m.state (m.pc + (readCode n i ty).length) (Run.onStack [w] m.state)
  /-- Code that writes a closure variable writes the value of its local. -/
  writes : ∀ {p n i slot : Nat} {ty : Ty}, g.hidden.tables[n]? = some .closure →
    m.routine.CodeAt p (writeCode n i slot ty) → m.pc = p + 4 → i < Run.depthLimit →
    ∃ w, Run.local? m.state slot = some w ∧ m.write? T = some (.closure, i, w.boxed)
  /-- A function value that is made has the tables for its hidden arguments. -/
  makes : ∀ {k : Nat} {call : Caller} {flow : Flow} {u : State},
    m.routine.code[m.pc]? = some (.newInvoker k) →
    Run.step r call m.routine (.newInvoker k) m.state = .ok flow u →
    ∃ c captured h, u.heap.functions = m.state.heap.functions.push ⟨c, captured⟩ ∧ l.Unit h c ∧
      T.Fills h captured

namespace Run

variable {l : Lambda Expr} {T : Tables} {D : Contents} {r : Registry}

end Run

/-! ## Invocations -/

namespace Machine

variable {r : Registry} {T : Tables} {callable : Callable} {s t : State} {ms : List Moment}

end Machine

/-- What holds at a moment, where the tables hold `D`: only the closure environment may be written to, and
the code has nothing of the tables, or it is that of a unit that has both of them. -/
structure Lambda.Shares (l : Lambda Expr) (r : Registry) (T : Arbor.Tables) (D : Contents) (m : Moment) :
    Prop where
  contents : T.Contain D m.state.heap
  written : ∀ t n v, m.write? T = some (t, n, v) → t = .closure
  unit : (∀ v ∈ m.args, T.Free v) ∨ ∃ g ∈ l :: l.body.functions, g.Becomes m.routine ∧ l.Uses g r T D m

/-- The host calls a nested function, which writes a constant to a closure variable; behind that the
variable is read. -/
def throughNested : Lambda Expr :=
  let set : Lambda Expr := ⟨"set", [], .int, .node (.assign .assign (.node (.closureVar 0) .int)
    (some (.node (.hoisted 0) .int)) false false) .int, ⟨true, true⟩⟩
  let called : Expr := .node (.call Registry.hosted none [.node (.lambda set) (.func [] .int)]) .int
  ⟨"throughNested", [], .int, .node (.block [] [called, .node (.closureVar 0) .int]) .int, ⟨true, true⟩⟩

namespace throughNested

/-- The host calls its argument. -/
def registry : Registry := .hosting [.func [] .int] .int (.applying .builtin)

/-- The tables, bound to an empty heap. -/
def tables : Tables := throughNested.hidden.tablesFrom 0

/-- Whether the nested function writes seven to the closure variable. -/
def writes (m : Moment) : Bool :=
  match m.write? tables with
  | some (.closure, 0, .num (.int .i32 w)) => decide (m.routine.name = "set" ∧ w.val = 7)
  | _ => false

/-- Whether the function reads the closure variable, with the tables as arguments. -/
def reads (m : Moment) : Bool :=
  match m.args, m.routine.code.toList.drop m.pc with
  | [.array 0, .array 1], .loadArg 1 :: .const (.num (.int .i32 w)) :: .loadElem ::
      .unbox (.num (.int .i32)) :: _ => decide (m.routine.name = "throughNested" ∧ w.val = 0)
  | _, _ => false

end throughNested

end Arbor
