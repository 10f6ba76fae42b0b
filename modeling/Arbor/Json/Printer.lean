/-
  Compact JSON text: no blanks, members in the order of the value.
-/
import Arbor.Json.Basic
import Arbor.Decimal.Text

set_option autoImplicit false

namespace Arbor.Json

/-- A lower-case hexadecimal digit. -/
def hexDigit (n : Nat) : Char := (Nat.toDigits 16 (n % 16)).headD '0'

/-- A number in lower-case hexadecimal with at least `width` digits. -/
def hex (width n : Nat) : String :=
  let digits := Nat.toDigits 16 n
  zeros (width - digits.length) ++ String.ofList digits

/-- One character inside a JSON text. -/
def escape (c : Char) : String :=
  match c with
  | '"' => "\\\""
  | '\\' => "\\\\"
  | '\n' => "\\n"
  | '\r' => "\\r"
  | '\t' => "\\t"
  | '\x08' => "\\b"
  | '\x0c' => "\\f"
  | c => if c.toNat < 0x20 then "\\u" ++ hex 4 c.toNat else c.toString

/-- A quoted JSON text. -/
def quote (s : String) : String :=
  "\"" ++ s.foldl (fun out c => out ++ escape c) "" ++ "\""

/-- A float as JSON: its shortest digits, or null when it is not finite. -/
def floatText (x : Float) : String :=
  match Binary.ofDouble? x with
  | some b => b.text .data
  | none => "null"

mutual

/-- Compact text of a value. -/
def print : Json → String
  | null => "null"
  | bool true => "true"
  | bool false => "false"
  | int n => toString n
  | float x => floatText x
  | str s => quote s
  | arr items => "[" ++ ",".intercalate (printItems items) ++ "]"
  | obj members => "\x7b" ++ ",".intercalate (printMembers members) ++ "\x7d"
  | unreadable => "null"
  termination_by structural j => j

/-- Compact texts of the items. -/
def printItems : List Json → List String
  | [] => []
  | j :: rest => print j :: printItems rest
  termination_by structural js => js

/-- Compact texts of the members. -/
def printMembers : List (String × Json) → List String
  | [] => []
  | (k, j) :: rest => (quote k ++ ":" ++ print j) :: printMembers rest
  termination_by structural ms => ms

end

end Arbor.Json
