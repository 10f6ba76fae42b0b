/-
  Quoted texts in listings, rendered values and developer messages: double
  quotes around, a backslash before quotes and backslashes, letters for common
  controls, and hexadecimal codes for whatever else is unprintable.
-/
import Arbor.Text.Unprintable

set_option autoImplicit false

namespace Arbor.Text

/-- One character inside a quoted text. -/
def escape (c : Char) : String :=
  match c with
  | '"' => "\\\""
  | '\\' => "\\\\"
  | '\n' => "\\n"
  | '\r' => "\\r"
  | '\t' => "\\t"
  | '\x00' => "\\0"
  | c =>
      if isUnprintable c then "\\u\x7b" ++ String.ofList (Nat.toDigits 16 c.toNat) ++ "\x7d"
      else c.toString

/-- A quoted text. -/
def quoted (s : String) : String :=
  "\"" ++ s.foldl (fun out c => out ++ escape c) "" ++ "\""

end Arbor.Text
