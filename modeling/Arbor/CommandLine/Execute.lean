/-
  What the commands do, apart from reading the file and writing the dumps.
-/
import Arbor.CommandLine.Arguments
import Arbor.Compile.Basic
import Arbor.Machine.Exec
import Arbor.Program.File

set_option autoImplicit false

namespace Arbor

namespace CommandLine

/-- Why a command fails. -/
inductive Failure where
  /-- An argument on the command line is not JSON. -/
  | badArgument (text : String)
  | program (error : ProgramError)
  | compile (error : CompileError)
  | runtime (error : RuntimeError)

/-- A diagnostic: its code, its text and some advice. -/
def diagnostic (code message : String) (help : Option String) : String :=
  let advice :=
    match help with
    | some text => "\n  help: " ++ text
    | none => ""
  code ++ "\n\n  × " ++ message ++ advice

/-- What is written to standard error. -/
def Failure.text : Failure → String
  | badArgument text => s!"Error: invalid --arg '{text}'"
  | program e => diagnostic e.code e.message e.help
  | compile e => diagnostic e.code e.message e.help
  | runtime e => "error: " ++ e.message

/-- The effects of a command. -/
structure Outcome where
  /-- Standard output, by lines. -/
  output : List String
  failure : Option Failure
  /-- Listings to be dumped, each with the name of its file, in the order of writing. -/
  dumps : List (String × List String)

/-- The exit code. -/
def Outcome.exitCode (o : Outcome) : UInt32 := if o.failure.isSome then 1 else 0

/-- A command that does nothing but fail. -/
def Outcome.failed (f : Failure) : Outcome := ⟨[], some f, []⟩

/-- A character that file names keep. -/
def isPlainChar (c : Char) : Bool := c.isAlphanum || c == '_' || c == '-'

/-- Name of the file that the listing of a unit is dumped to. -/
def dumpName (unit : String) : String :=
  unit.map (fun c => if isPlainChar c then c else '_') ++ ".il"

/-- Reads the arguments of a call; without any, those of the file are used. -/
def Invocation.callArgs (i : Invocation) : Except Failure (Option (List Json)) := do
  let args ← i.args.mapM fun text =>
    match (Json.read? text (some Program.nesting)).bind Json.any? with
    | some j => .ok j
    | none => .error (.badArgument text)
  pure (if args.isEmpty then none else some args)

/-- Calls the compiled function of a program; its result is the output. -/
def call (p : Program) (c : CompiledUnit) (args : Option (List Json)) (h : Heap)
    (callable : Callable) : Except Failure (List String) := do
  let (values, h) ← (p.arguments args h).mapError .program
  match Machine.invoke p.registry callable values { State.initial with heap := h } with
  | (.ok v, s) =>
      pure (if c.routine.ret.isVoid then [] else [v.render p.registry s.heap])
  | (.error e, _) => .error (.runtime e)

/-- Carries out a command on a loaded program. -/
def Invocation.onProgram (i : Invocation) (p : Program) (args : Option (List Json)) : Outcome :=
  let setting : Setting := ⟨p.registry, i.options p.options⟩
  let compilation := compile setting p.lambda
  let dumps := compilation.finished.map fun u => (dumpName u.name, u.listing p.registry)
  let result : Except Failure (List String) := do
    let c ← compilation.result.mapError .compile
    let (callable, h) ←
      (c.bindHidden p.registry p.lambda.hidden p.constants p.closure p.heap).mapError .compile
    match i.verb with
    | .run => call p c args h callable
    | .il => pure (c.listing p.registry)
    | .check =>
        pure ["✓ " ++ i.file.getD "" ++ s!" compiles ({c.units.length + 1} unit(s))"]
  match result with
  | .ok output => ⟨output, none, dumps⟩
  | .error f => ⟨[], some f, dumps⟩

/-- Carries out a command, given the content of its file or the reason why it cannot be read. -/
def Invocation.execute (i : Invocation) (content : Except String String) : Outcome :=
  let args := if i.verb = .run then i.callArgs else .ok none
  match args with
  | .error f => .failed f
  | .ok args =>
      match content with
      | .error reason => .failed (.program (.io (i.file.getD "") reason))
      | .ok text =>
          match Program.parse text with
          | .error e => .failed (.program e)
          | .ok p => i.onProgram p args

end CommandLine

end Arbor
