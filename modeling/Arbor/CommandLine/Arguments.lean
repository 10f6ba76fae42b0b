/-
  Reading the command line.

  After the name of a command come a file and options in any order.  The value of
  an option stands behind an equals sign or in the next word, which must not
  start with a dash; a lone `--` ends the options.  The value of a word is checked
  when the next option or file is accepted, or at the end, so that an unknown word
  is reported before a bad value in front of it.
-/
import Arbor.Compile.Options

set_option autoImplicit false

namespace Arbor

namespace CommandLine

/-- Why a command line gives no invocation. -/
inductive Refusal where
  /-- There is no command. -/
  | missingCommand
  | unknownCommand
  | missingFile
  | unknownArgument
  /-- A threshold that is no number of 64 bits. -/
  | badNumber
  /-- An option without its value, or an empty path. -/
  | missingValue
  /-- A flag or single-valued option is given twice. -/
  | repeated
  /-- A flag is given a value. -/
  | unexpectedValue
  /-- The version is asked for. -/
  | version
  /-- Help is asked for. -/
  | help
  deriving DecidableEq, Inhabited

/-- The commands. -/
inductive Verb where
  /-- Compile and execute. -/
  | run
  /-- Compile and print the listing. -/
  | il
  /-- Compile only. -/
  | check
  deriving DecidableEq, Inhabited

/-- Switches of a compilation. -/
inductive Flag where
  | noNullChecks
  | boundsChecks
  | autoExtendRead
  | autoExtendAssign
  | threeValued
  | noHashSwitch
  deriving DecidableEq

/-- Options with a value. -/
inductive Parameter where
  | hashThreshold
  | dumpDir
  | arg
  deriving DecidableEq

/-- What the command line says. -/
structure Invocation where
  verb : Verb
  file : Option String
  flags : List Flag
  threshold : Option Nat
  dumpDir : Option String
  /-- Arguments of the call, as JSON texts. -/
  args : List String

/-- The name of a command. -/
def Verb.name : Verb → String
  | run => "run"
  | il => "il"
  | check => "check"

/-- The command of a name. -/
def Verb.ofName? (name : String) : Option Verb := [run, il, check].find? fun v => v.name == name

/-- The flag of a name. -/
def Flag.ofName? : String → Option Flag
  | "no-null-checks" => some noNullChecks
  | "bounds-checks" => some boundsChecks
  | "auto-extend-read" => some autoExtendRead
  | "auto-extend-assign" => some autoExtendAssign
  | "three-valued" => some threeValued
  | "no-hash-switch" => some noHashSwitch
  | _ => none

/-- The option of a name; only a run takes arguments. -/
def Parameter.ofName? (v : Verb) : String → Option Parameter
  | "hash-threshold" => some hashThreshold
  | "dump-ir" => some dumpDir
  | "arg" => if v = .run then some arg else none
  | _ => none

/-! ## Words -/

/-- A word of the command line. -/
inductive Word where
  /-- The end of the options. -/
  | escape
  | long (name : String) (value : Option String)
  /-- A dash and letters. -/
  | short (first : Char)
  | plain (text : String)

/-- Splits at the first equals sign. -/
def splitValue (cs : List Char) : String × Option String :=
  let name := cs.takeWhile (· != '=')
  match cs.dropWhile (· != '=') with
  | _ :: value => (String.ofList name, some (String.ofList value))
  | [] => (String.ofList name, none)

/-- Classifies a word. -/
def Word.of (text : String) : Word :=
  match text.toList with
  | ['-', '-'] => escape
  | '-' :: '-' :: cs =>
      let (name, value) := splitValue cs
      long name value
  | '-' :: c :: _ => short c
  | _ => plain text

/-- A decimal number of 64 bits, with or without a plus sign. -/
def number? (text : String) : Option Nat :=
  let digits :=
    match text.toList with
    | '+' :: cs => cs
    | cs => cs
  if digits.isEmpty || !digits.all Char.isDigit then none
  else
    let n := digits.foldl (fun n c => 10 * n + (c.toNat - '0'.toNat)) 0
    if n < 0x10000000000000000 then some n else none

/-! ## Commands -/

/-- What was read last and has not been checked yet. -/
inductive Pending where
  | nothing
  /-- An option whose value may still come. -/
  | parameter (which : Parameter) (value : Option String)
  | file (path : String)

/-- Records the value of an option. -/
def Invocation.record (i : Invocation) (which : Parameter) (value : String) :
    Except Refusal Invocation :=
  match which with
  | .hashThreshold =>
      if i.threshold.isSome then .error .repeated
      else
        match number? value with
        | some n => .ok { i with threshold := some n }
        | none => .error .badNumber
  | .dumpDir =>
      if i.dumpDir.isSome then .error .repeated
      else if value.isEmpty then .error .missingValue
      else .ok { i with dumpDir := some value }
  | .arg => .ok { i with args := i.args ++ [value] }

/-- Records what was read last. -/
def Invocation.settle (i : Invocation) : Pending → Except Refusal Invocation
  | .nothing => .ok i
  | .parameter _ none => .error .missingValue
  | .parameter which (some value) => i.record which value
  | .file path => if path.isEmpty then .error .missingValue else .ok { i with file := some path }

/-- Whether the file has been read. -/
def hasFile (i : Invocation) : Pending → Bool
  | .file _ => true
  | _ => i.file.isSome

/-- Accepts a word as the file. -/
def acceptFile (text : String) (pending : Pending) (i : Invocation) :
    Except Refusal (Pending × Invocation) :=
  if hasFile i pending then .error .unknownArgument
  else (i.settle pending).map fun i => (.file text, i)

/-- Accepts a long option. -/
def acceptLong (name : String) (value : Option String) (pending : Pending) (i : Invocation) :
    Except Refusal (Pending × Invocation) :=
  match Parameter.ofName? i.verb name, Flag.ofName? name, value with
  | some which, _, some value => do
      let i ← i.settle pending
      let i ← i.record which value
      pure (.nothing, i)
  | some which, _, none => do
      let i ← i.settle pending
      pure (.parameter which none, i)
  | none, some _, some _ => .error .unexpectedValue
  | none, some flag, none => do
      let i ← i.settle pending
      if i.flags.contains flag then .error .repeated
      else pure (.nothing, { i with flags := i.flags ++ [flag] })
  | none, none, value =>
      if name = "help" then
        match value with
        | some _ => .error .unexpectedValue
        | none => do
            let _ ← i.settle pending
            .error .help
      else .error .unknownArgument

/-- Accepts a word before the options end. -/
def acceptWord (text : String) (pending : Pending) (i : Invocation) :
    Except Refusal (Pending × Invocation) :=
  match Word.of text, pending with
  | .escape, _ => .ok (pending, i)
  | .long name value, _ => acceptLong name value pending i
  | .short 'h', _ => do
      let _ ← i.settle pending
      .error .help
  | .short _, _ => .error .unknownArgument
  | .plain text, .parameter which none => .ok (.parameter which (some text), i)
  | .plain text, _ => acceptFile text pending i

/-- Reads the words behind a command. -/
def readWords (ended : Bool) (pending : Pending) (i : Invocation) :
    List String → Except Refusal Invocation
  | [] => do
      let i ← i.settle pending
      if i.file.isSome then pure i else .error .missingFile
  | text :: rest => do
      let (pending, i) ← if ended then acceptFile text pending i else acceptWord text pending i
      readWords (ended || text == "--") pending i rest

/-- Whether a word names a command; help counts as one. -/
def isCommand (text : String) : Bool := (Verb.ofName? text).isSome || text == "help"

/-- Reads the words behind the help command. -/
def readHelp : List String → Refusal
  | [] => .help
  | [topic] => if isCommand topic then .help else .unknownCommand
  | _ => .unknownCommand

/-- Reads a command line without the name of the program. -/
def read : List String → Except Refusal Invocation
  | [] => .error .missingCommand
  | first :: rest =>
      match Verb.ofName? first with
      | some v => readWords false .nothing ⟨v, none, [], none, none, []⟩ rest
      | none =>
          if first == "help" then .error (readHelp rest)
          else
            match Word.of first with
            | .long "help" none | .short 'h' => .error .help
            | .long "version" none | .short 'V' => .error .version
            | .long "help" (some _) | .long "version" (some _) => .error .unexpectedValue
            | .long _ _ | .short _ => .error .unknownArgument
            | .plain _ => .error .unknownCommand
            | .escape =>
                match rest with
                | [] => .error .missingCommand
                | next :: _ => .error (if isCommand next then .unknownArgument else .unknownCommand)

/-! ## Options -/

/-- Applies a flag. -/
def Flag.apply (o : Options) : Flag → Options
  | noNullChecks => { o with nullChecks := false }
  | boundsChecks => { o with boundsChecks := true }
  | autoExtendRead => { o with autoExtendRead := true }
  | autoExtendAssign => { o with autoExtendAssign := true }
  | threeValued => { o with threeValuedComparisons := true }
  | noHashSwitch => { o with hashSwitch := false }

/-- The options of a file with what the command line changes. -/
def Invocation.options (i : Invocation) (base : Options) : Options :=
  let o := i.flags.foldl Flag.apply base
  match i.threshold with
  | some n => { o with hashSwitchThreshold := n }
  | none => o

/-! ## What is said without a command -/

/-- Name and version of the program. -/
def versionText : String := "exprc 0.1.0-alpha.4"

/-- Summary of the command line. -/
def usageText : String :=
  "Usage: exprc <run|il|check> [OPTIONS] <FILE>"

/-- What a refused command line prints. -/
def Refusal.text : Refusal → String
  | missingCommand => usageText
  | unknownCommand => "error: unrecognized subcommand"
  | missingFile => "error: the required argument <FILE> was not provided"
  | unknownArgument => "error: unexpected argument"
  | badNumber => "error: invalid value for '--hash-threshold <N>'"
  | missingValue => "error: a value is required"
  | repeated => "error: an argument cannot be used multiple times"
  | unexpectedValue => "error: unexpected value for a flag"
  | version => versionText
  | help => usageText

/-- A request for the version or the usage, which is answered and is no mistake. -/
def Refusal.isRequest (r : Refusal) : Bool := r = .version || r = .help

/-- The exit code of a command line that names no command to carry out. -/
def Refusal.exitCode (r : Refusal) : UInt32 := if r.isRequest then 0 else 2

end CommandLine

end Arbor
