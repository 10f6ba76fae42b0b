/-
  Three-valued logic over optional booleans: `false` dominates conjunction,
  `true` dominates disjunction, and every other combination with an absent
  operand is absent.
-/

set_option autoImplicit false

namespace Arbor

/-- A truth value that may be absent. -/
inductive Truth where
  | false
  | true
  | absent
  deriving DecidableEq, Inhabited

namespace Truth

/-- The three values. -/
def all : List Truth := [false, true, absent]

/-- An optional boolean as a truth value. -/
def ofOption : Option Bool → Truth
  | some Bool.true => true
  | some Bool.false => false
  | none => absent

/-- A truth value as an optional boolean. -/
def toOption : Truth → Option Bool
  | true => some Bool.true
  | false => some Bool.false
  | absent => none

/-- Conjunction. -/
def and : Truth → Truth → Truth
  | false, _ => false
  | _, false => false
  | true, true => true
  | _, _ => absent

/-- Disjunction. -/
def or : Truth → Truth → Truth
  | true, _ => true
  | _, true => true
  | false, false => false
  | _, _ => absent

/-- Negation. -/
def not : Truth → Truth
  | true => false
  | false => true
  | absent => absent

/-- Whether a left operand alone decides a conjunction. -/
def decidesAnd (t : Truth) : Bool := t == false

/-- Whether a left operand alone decides a disjunction. -/
def decidesOr (t : Truth) : Bool := t == true

/-- Whether the value is present and true. -/
def isTrue (t : Truth) : Bool := t == true

/-- Name of a truth value. -/
def tag : Truth → String
  | false => "False"
  | true => "True"
  | absent => "Absent"

/-- Text of a truth value. -/
def text : Truth → String
  | false => "false"
  | true => "true"
  | absent => "null"

/-- A deciding left operand of a conjunction is its result. -/
theorem and_eq_left_of_decidesAnd {t : Truth} (h : t.decidesAnd = Bool.true) (u : Truth) :
    t.and u = t := by
  cases t <;> simp_all [decidesAnd, and]

/-- A deciding left operand of a disjunction is its result. -/
theorem or_eq_left_of_decidesOr {t : Truth} (h : t.decidesOr = Bool.true) (u : Truth) :
    t.or u = t := by
  cases t <;> simp_all [decidesOr, or]

end Truth

end Arbor
