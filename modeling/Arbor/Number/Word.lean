/-
  Integers of a fixed kind.  A word carries the proof that its value lies in
  the range of its kind, so every operation has to decide what happens outside
  the range: `wrap` reduces modulo the width, `ofInt?` refuses, `clamp` moves
  to the nearest end.
-/
import Arbor.Number.Kind

set_option autoImplicit false

namespace Arbor

/-- An integer of the kind `k`. -/
structure Word (k : IntKind) where
  /-- The exact value. -/
  val : Int
  /-- The value is not below the range. -/
  lower : k.min ≤ val
  /-- The value is not above the range. -/
  upper : val ≤ k.max
  deriving DecidableEq

namespace Word

/-- The representative of `n` modulo the width that lies in the range of `k`. -/
def residue (k : IntKind) (n : Int) : Int :=
  if k.signed then Int.bmod n k.modulus else n % k.modulus

/-- The residue lies in the range of its kind. -/
theorem residue_mem (k : IntKind) (n : Int) :
    k.min ≤ residue k n ∧ residue k n ≤ k.max := by
  cases k <;>
    simp only [residue, IntKind.signed, IntKind.bits, IntKind.modulus, Nat.pow_eq, Nat.reducePow,
      IntKind.min, IntKind.max, if_true, Bool.false_eq_true, if_false, Int.bmod_def] <;>
    omega

/-- A value in the range of the kind is its own residue. -/
theorem residue_eq_self {k : IntKind} {n : Int} (h : k.min ≤ n ∧ n ≤ k.max) : residue k n = n := by
  cases k <;>
    simp only [residue, IntKind.signed, IntKind.bits, IntKind.modulus, Nat.pow_eq, Nat.reducePow,
      IntKind.min, IntKind.max, if_true, Bool.false_eq_true, if_false, Int.bmod_def] at h ⊢ <;>
    omega

/-- The unique word congruent to `n` modulo the width. -/
def wrap (k : IntKind) (n : Int) : Word k :=
  ⟨residue k n, (residue_mem k n).1, (residue_mem k n).2⟩

/-- The word with exactly the value `n`, if `n` is in range. -/
def ofInt? (k : IntKind) (n : Int) : Option (Word k) :=
  if h : k.min ≤ n ∧ n ≤ k.max then some ⟨n, h.1, h.2⟩ else none

/-- The word nearest to `n`. -/
def clamp (k : IntKind) (n : Int) : Word k :=
  if h₁ : n < k.min then
    ⟨k.min, Int.le_refl _, Int.le_trans k.min_le_zero (Int.le_trans (by decide) k.one_le_max)⟩
  else if h₂ : k.max < n then
    ⟨k.max, Int.le_trans k.min_le_zero (Int.le_trans (by decide) k.one_le_max), Int.le_refl _⟩
  else
    ⟨n, Int.not_lt.mp h₁, Int.not_lt.mp h₂⟩

/-- The word zero. -/
def zero (k : IntKind) : Word k :=
  ⟨0, k.min_le_zero, Int.le_trans (by decide) k.one_le_max⟩

/-- The word one. -/
def one (k : IntKind) : Word k :=
  ⟨1, Int.le_trans k.min_le_zero (by decide), k.one_le_max⟩

instance (k : IntKind) : Inhabited (Word k) := ⟨zero k⟩

/-- Two words of one kind are equal when their values are. -/
@[ext] theorem ext_val {k : IntKind} {a b : Word k} (h : a.val = b.val) : a = b := by
  cases a
  cases b
  simp_all

/-- A value in range is kept by `ofInt?`. -/
@[simp] theorem ofInt?_val {k : IntKind} (w : Word k) : ofInt? k w.val = some w := by
  simp [ofInt?, w.lower, w.upper]

end Word

end Arbor
