/-
  Constants that trees and instructions carry inline.
-/
import Arbor.Number.Basic

set_option autoImplicit false

namespace Arbor

/-- An inline constant. -/
inductive Literal where
  | null
  | bool (value : Bool)
  | num (value : Num)
  | str (value : String)
  deriving Inhabited

end Arbor
