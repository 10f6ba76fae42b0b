/-
  Switches of a compilation: null propagation, bounds checks, auto-extension,
  three-valued comparisons and the choice of switch dispatch.
-/
import Arbor.Json.Decode

set_option autoImplicit false

namespace Arbor

/-- The switches of one compilation. -/
structure Options where
  /-- A null receiver or absent optional makes the enclosing expression yield its default. -/
  nullChecks : Bool
  /-- An index out of range does the same. -/
  boundsChecks : Bool
  /-- Reads create missing objects and grow containers on their way. -/
  autoExtendRead : Bool
  /-- Assignments create missing objects and grow containers on their way. -/
  autoExtendAssign : Bool
  /-- Ordering comparisons typed as optional truth values are absent on absent operands; otherwise
  they are false. -/
  threeValuedComparisons : Bool
  /-- Switches over constant keys may dispatch through a table. -/
  hashSwitch : Bool
  /-- Least number of case tests for a table. -/
  hashSwitchThreshold : Nat
  deriving DecidableEq, Inhabited

namespace Options

/-- Null checks on, everything else plain, tables from seven tests on. -/
def default : Options := ⟨true, false, false, false, false, true, 7⟩

/-- Every null dereference and every bad index faults. -/
def strict : Options := { default with nullChecks := false }

/-- Whether some check can leave an expression early. -/
def usesExits (o : Options) : Bool := o.nullChecks || o.boundsChecks

/-- The written form, with every switch. -/
def toJson (o : Options) : Json :=
  .obj
    [("null_checks", .bool o.nullChecks), ("bounds_checks", .bool o.boundsChecks),
      ("auto_extend_read", .bool o.autoExtendRead), ("auto_extend_assign", .bool o.autoExtendAssign),
      ("three_valued_comparisons", .bool o.threeValuedComparisons),
      ("hash_switch", .bool o.hashSwitch),
      ("hash_switch_threshold", .ofNat o.hashSwitchThreshold)]

/-- Reads options; a switch that is not given keeps its default. -/
def ofJson? (j : Json) : Option Options := do
  let names :=
    ["null_checks", "bounds_checks", "auto_extend_read", "auto_extend_assign",
      "three_valued_comparisons", "hash_switch", "hash_switch_threshold"]
  let r ← j.record? names
  let d := default
  let nullChecks ← r.defaulted? "null_checks" Json.bool? d.nullChecks
  let boundsChecks ← r.defaulted? "bounds_checks" Json.bool? d.boundsChecks
  let autoExtendRead ← r.defaulted? "auto_extend_read" Json.bool? d.autoExtendRead
  let autoExtendAssign ← r.defaulted? "auto_extend_assign" Json.bool? d.autoExtendAssign
  let threeValued ← r.defaulted? "three_valued_comparisons" Json.bool? d.threeValuedComparisons
  let hashSwitch ← r.defaulted? "hash_switch" Json.bool? d.hashSwitch
  let threshold ← r.defaulted? "hash_switch_threshold" Json.u64? d.hashSwitchThreshold
  pure ⟨nullChecks, boundsChecks, autoExtendRead, autoExtendAssign, threeValued, hashSwitch, threshold⟩

end Options

end Arbor
