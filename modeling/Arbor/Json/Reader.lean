/-
  Reading JSON text.

  Integers are exact up to 64 bits.  Any other number is a float computed from
  the leading digits that fit into 64 bits and a power of ten, by one
  multiplication or division: it is near the decimal, not always nearest to it.
  Containers nested deeper than the limit, numbers that overflow and texts with
  lone surrogates are read over and stand in the result as `unreadable`.
-/
import Arbor.Json.Basic

set_option autoImplicit false

namespace Arbor.Json

/-- The characters that may stand between tokens. -/
def isBlank (c : Char) : Bool := c == ' ' || c == '\n' || c == '\t' || c == '\r'

/-- The text without its leading blanks. -/
def skipBlanks (s : List Char) : List Char := s.dropWhile isBlank

/-- Value of a decimal digit. -/
def digitValue (c : Char) : Nat := c.toNat - '0'.toNat

/-- Value of a hexadecimal digit. -/
def hexValue? (c : Char) : Option Nat :=
  if c.isDigit then some (c.toNat - '0'.toNat)
  else if 'a' ≤ c ∧ c ≤ 'f' then some (c.toNat - 'a'.toNat + 10)
  else if 'A' ≤ c ∧ c ≤ 'F' then some (c.toNat - 'A'.toNat + 10)
  else none

/-! ## Numbers -/

/-- Appends digits to a significand while it fits into 64 bits: the significand, the number of
digits taken, and the digits that did not fit. -/
def significand : Nat → Nat → List Char → Nat × Nat × List Char
  | acc, taken, [] => (acc, taken, [])
  | acc, taken, c :: rest =>
      let next := acc * 10 + digitValue c
      if next < 0x10000000000000000 then significand next (taken + 1) rest
      else (acc, taken, c :: rest)

/-- Greatest power of ten that is a float. -/
def greatestPower : Nat := 308

/-- The float `10 ^ n`. -/
def powerOfTen (n : Nat) : Float := Float.ofScientific 1 false n

/-- `x · 10 ^ e` for a non-negative `x`, by one operation where the power is a float; `none` beyond
the floats.  Smaller powers are reached in steps, of which three leave only zero. -/
def scale? : Nat → Float → Int → Option Float
  | 0, x, _ => some x
  | fuel + 1, x, e =>
      if e.natAbs ≤ greatestPower then
        if 0 ≤ e then
          let y := x * powerOfTen e.natAbs
          if y.isInf then none else some y
        else some (x / powerOfTen e.natAbs)
      else if x == 0 then some x
      else if 0 ≤ e then none
      else scale? fuel (x / powerOfTen greatestPower) (e + greatestPower)

/-- The float with the given sign, significand and exponent. -/
def floatOf (negative : Bool) (digits : Nat) (e : Int) : Json :=
  match scale? 8 (Float.ofNat digits) e with
  | some x => float (if negative then -x else x)
  | none => unreadable

/-- The exponent after its mark. -/
def readExponent? (s : List Char) : Option (Int × List Char) :=
  let (negative, s) :=
    match s with
    | '+' :: r => (false, r)
    | '-' :: r => (true, r)
    | s => (false, s)
  let digits := s.takeWhile Char.isDigit
  let rest := s.dropWhile Char.isDigit
  if digits.isEmpty then none
  else
    let e : Int := digits.foldl (fun n c => n * 10 + digitValue c) 0
    some (if negative then -e else e, rest)

/-- The exponent part, if one stands here, added to `base`. -/
def finishFloat? (negative : Bool) (digits : Nat) (base : Int) (s : List Char) :
    Option (Json × List Char) :=
  match s with
  | 'e' :: r | 'E' :: r => do
      let (e, rest) ← readExponent? r
      pure (floatOf negative digits (base + e), rest)
  | s => some (floatOf negative digits base, s)

/-- An integer without fraction and exponent; a negative one that does not fit is a float. -/
def integer (negative : Bool) (n : Nat) : Json :=
  if !negative then int n
  else if 0 < n ∧ n ≤ 0x8000000000000000 then int (-(n : Int))
  else float (-(Float.ofNat n))

/-- A number after its sign. -/
def readMagnitude? (negative : Bool) (s : List Char) : Option (Json × List Char) :=
  let digits := s.takeWhile Char.isDigit
  let rest := s.dropWhile Char.isDigit
  let wellFormed :=
    match digits with
    | [] => false
    | ['0'] => true
    | c :: _ => c != '0'
  if !wellFormed then none
  else
    let (head, _, lost) := significand 0 0 digits
    match rest with
    | '.' :: r =>
        let fraction := r.takeWhile Char.isDigit
        if fraction.isEmpty then none
        else
          let (all, taken, _) := significand head 0 fraction
          finishFloat? negative all (lost.length - taken) (r.dropWhile Char.isDigit)
    | 'e' :: _ | 'E' :: _ => finishFloat? negative head lost.length rest
    | _ =>
        if lost.isEmpty then some (integer negative head, rest)
        else some (floatOf negative head lost.length, rest)

/-- A number. -/
def readNumber? (s : List Char) : Option (Json × List Char) :=
  match s with
  | '-' :: r => readMagnitude? true r
  | s => readMagnitude? false s

/-! ## Texts -/

/-- Value of four hexadecimal digits. -/
def hexQuad? (a b c d : Char) : Option Nat := do
  let a ← hexValue? a
  let b ← hexValue? b
  let c ← hexValue? c
  let d ← hexValue? d
  pure (((a * 16 + b) * 16 + c) * 16 + d)

/-- One piece of a text: a character, or a surrogate half. -/
inductive Unit16 where
  | char (c : Char)
  | high (code : Nat)
  | low (code : Nat)

/-- The piece with a given 16-bit code. -/
def unit16 (code : Nat) : Unit16 :=
  if 0xD800 ≤ code ∧ code < 0xDC00 then .high code
  else if 0xDC00 ≤ code ∧ code < 0xE000 then .low code
  else .char (Char.ofNat code)

/-- The character that a backslash and one letter stand for. -/
def escaped? : Char → Option Char
  | '"' => some '"'
  | '\\' => some '\\'
  | '/' => some '/'
  | 'b' => some '\x08'
  | 'f' => some '\x0c'
  | 'n' => some '\n'
  | 'r' => some '\r'
  | 't' => some '\t'
  | _ => none

/-- The pieces of a text up to its closing quote, last piece first. -/
def readUnits? : List Unit16 → List Char → Option (List Unit16 × List Char)
  | _, [] => none
  | acc, '"' :: rest => some (acc, rest)
  | acc, '\\' :: 'u' :: a :: b :: c :: d :: rest =>
      match hexQuad? a b c d with
      | some code => readUnits? (unit16 code :: acc) rest
      | none => none
  | acc, '\\' :: e :: rest =>
      match escaped? e with
      | some c => readUnits? (.char c :: acc) rest
      | none => none
  | acc, c :: rest =>
      if c.toNat < 0x20 ∨ c = '\\' then none else readUnits? (.char c :: acc) rest

/-- Joins surrogate pairs, from pieces given last first; `none` if a half stands alone. -/
def joinUnits? : List Char → List Unit16 → Option (List Char)
  | acc, [] => some acc
  | acc, .char c :: rest => joinUnits? (c :: acc) rest
  | acc, .low l :: .high h :: rest =>
      joinUnits? (Char.ofNat (0x10000 + (h - 0xD800) * 0x400 + (l - 0xDC00)) :: acc) rest
  | _, .low _ :: _ => none
  | _, .high _ :: _ => none

/-- A text after its opening quote; the inner `none` is a text that cannot be held. -/
def readText? (s : List Char) : Option (Option String × List Char) := do
  let (units, rest) ← readUnits? [] s
  pure ((joinUnits? [] units).map String.ofList, rest)

/-! ## Values -/

/-- Collects the members of an object, last first; one bad key makes the object unreadable. -/
def closeObject (members : List (Option String × Json)) : Json :=
  let keyed := members.filterMap fun (k, v) => k.map fun k => (k, v)
  if keyed.length = members.length then obj keyed.reverse else unreadable

/-- Replaces a container that is nested too deep. -/
def atDepth (room : Option Nat) (j : Json) : Json :=
  if room = some 0 then unreadable else j

/-- The room left inside a container. -/
def inner (room : Option Nat) : Option Nat := room.map (· - 1)

mutual

/-- One value; `room` is how many more containers may be nested, if limited. -/
def readValue? : Nat → Option Nat → List Char → Option (Json × List Char)
  | 0, _, _ => none
  | fuel + 1, room, s =>
      match skipBlanks s with
      | 'n' :: 'u' :: 'l' :: 'l' :: rest => some (null, rest)
      | 't' :: 'r' :: 'u' :: 'e' :: rest => some (bool true, rest)
      | 'f' :: 'a' :: 'l' :: 's' :: 'e' :: rest => some (bool false, rest)
      | '"' :: r => (readText? r).map fun (t, rest) => (t.elim unreadable str, rest)
      | '[' :: r =>
          match skipBlanks r with
          | ']' :: rest => some (atDepth room (arr []), rest)
          | r =>
              (readItems? fuel (inner room) [] r).map fun (items, rest) =>
                (atDepth room (arr items.reverse), rest)
      | '\x7b' :: r =>
          match skipBlanks r with
          | '\x7d' :: rest => some (atDepth room (obj []), rest)
          | r =>
              (readMembers? fuel (inner room) [] r).map fun (members, rest) =>
                (atDepth room (closeObject members), rest)
      | r => readNumber? r
  termination_by structural fuel => fuel

/-- The items of an array up to its closing bracket, last first. -/
def readItems? : Nat → Option Nat → List Json → List Char → Option (List Json × List Char)
  | 0, _, _, _ => none
  | fuel + 1, room, acc, s =>
      match readValue? fuel room s with
      | none => none
      | some (j, r) =>
          match skipBlanks r with
          | ',' :: r => readItems? fuel room (j :: acc) r
          | ']' :: rest => some (j :: acc, rest)
          | _ => none
  termination_by structural fuel => fuel

/-- The members of an object up to its closing brace, last first. -/
def readMembers? : Nat → Option Nat → List (Option String × Json) → List Char →
    Option (List (Option String × Json) × List Char)
  | 0, _, _, _ => none
  | fuel + 1, room, acc, s =>
      match skipBlanks s with
      | '"' :: r =>
          match readText? r with
          | none => none
          | some (key, r) =>
              match skipBlanks r with
              | ':' :: r =>
                  match readValue? fuel room r with
                  | none => none
                  | some (j, r) =>
                      match skipBlanks r with
                      | ',' :: r => readMembers? fuel room ((key, j) :: acc) r
                      | '\x7d' :: rest => some ((key, j) :: acc, rest)
                      | _ => none
              | _ => none
      | _ => none
  termination_by structural fuel => fuel

end

/-- Reads a whole document, with at most `room` containers nested in each other. -/
def read? (text : String) (room : Option Nat) : Option Json :=
  let chars := text.toList
  match readValue? (2 * chars.length + 1) room chars with
  | some (j, rest) => if (skipBlanks rest).isEmpty then some j else none
  | none => none

end Arbor.Json
