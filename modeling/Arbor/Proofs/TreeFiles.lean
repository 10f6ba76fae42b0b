/-
  Files of trees are exact: a tree is read back from the value that is written
  for it, and different trees are written differently.

  The value may have its objects in the order of writing, as in text, or sorted
  by key, as at hand.  Floats are left out, because the value of a constant is
  all that is written for them and NaN has none.
-/
import Arbor.Proofs.Json.Layers

set_option autoImplicit false

namespace Arbor

open Json

/-! ## Portable trees -/

section

variable {α β : Type} (f : α → β)

mutual

/-- Whether a binding is portable does not depend on its operands. -/
theorem Binding.portable_map : (b : Binding α) → (b.map f).portable = b.portable
  | .assign _ _ => rfl
  | .member _ bindings => by rw [Binding.map, portable, portable, portableList_mapList bindings]
  | .list _ items => by
      rw [Binding.map, portable, portable, List.all_map]
      rfl
  termination_by structural b => b

/-- Whether bindings are portable does not depend on their operands. -/
theorem Binding.portableList_mapList : (bs : List (Binding α)) →
    portableList (mapList f bs) = portableList bs
  | [] => rfl
  | b :: bs => by
      rw [mapList, portableList, portableList, portable_map b, portableList_mapList bs]
  termination_by structural bs => bs

end

/-- Whether a layer is portable does not depend on its operands. -/
theorem ExprKind.portable_map (k : ExprKind α) : (k.map f).portable = k.portable := by
  cases k with
  | memberInit start bindings => exact Binding.portableList_mapList f bindings
  | listInit start items =>
      rw [ExprKind.map, portable, portable, List.all_map]
      rfl
  | tryCatch body handlers finallyBlock faultBlock =>
      rw [ExprKind.map, portable, portable, List.all_map]
      rfl
  | _ => rfl

end

/-- Whether all numbers in a tree have 32 bits and no constant is a float. -/
def Expr.portable : Expr → Bool :=
  fold fun k t => k.portable && t.portable && k.operands.all id

/-- Whether all numbers in a function have 32 bits and no constant is a float. -/
def Lambda.portableTree (l : Lambda Expr) : Bool := l.portable && l.body.portable

theorem Expr.portable_node (k : ExprKind Expr) (ty : Ty) :
    (node k ty).portable = (k.portable && ty.portable && k.operands.all portable) := by
  rw [portable, fold_node, ExprKind.portable_map, ExprKind.operands_map, List.all_map]
  rfl

/-! ## Reading trees back -/

section

variable (A : Arrangement) (src : Source)

theorem Expr.toJson_node (k : ExprKind Expr) (ty : Ty) :
    (node k ty).toJson = .obj [("kind", (k.map toJson).toJson), ("ty", ty.toJson)] :=
  fold_node _ _ _

theorem Expr.arranged_ne_null (e : Expr) : A e.toJson ≠ .null := by
  cases e
  rw [toJson_node]
  exact A.obj_ne_null (by simp)

/-- A tree is read back if the nesting does not exceed the bound. -/
theorem Expr.decode_arranged (e : Expr) (h : e.portable = true) :
    ∀ fuel, (A e.toJson).depth < fuel → decode src fuel (A e.toJson) = some e := by
  induction e using induct with
  | node k ty ih =>
      intro fuel hfuel
      cases fuel with
      | zero => exact absurd hfuel (Nat.not_lt_zero _)
      | succ fuel =>
          rw [portable_node, Bool.and_eq_true, Bool.and_eq_true, List.all_eq_true] at h
          obtain ⟨⟨hk, hty⟩, hoperands⟩ := h
          have hdepth := ExprKind.depth_le A (k.map toJson)
          rw [ExprKind.operands_map] at hdepth
          rw [toJson_node] at hfuel ⊢
          -- an operand lies inside the layer, which lies inside the node
          have hrestores : ∀ e ∈ k.operands, A.Restores (decode src fuel) toJson e := fun e he => by
            refine ⟨ih e he (hoperands e he) fuel ?_, e.arranged_ne_null A⟩
            have he := A.depth_item_le (List.mem_map_of_mem (f := toJson) he)
            simp [depthMembers] at hfuel
            omega
          simp [decode, member?, ExprKind.read_arranged A src hk hrestores,
            Ty.ofJson?_arranged A src hty]

theorem Lambda.ofJson?_arranged {l : Lambda Expr} (h : l.portableTree = true) :
    Lambda.ofJson? src (A l.treeJson) = some l := by
  obtain ⟨hl, hbody⟩ := Bool.and_eq_true_iff.mp h
  exact Lambda.read_arranged A src hl
    ⟨l.body.decode_arranged A src hbody _ (Nat.lt_succ_self _), l.body.arranged_ne_null A⟩

end

/-- A function without floats is read back from the value that is written for it, from text and at
hand, with the fields in the order of writing and sorted; and other functions without floats are
written differently. -/
theorem Lambda.treeJson_exact {l : Lambda Expr} (h : l.portableTree = true) :
    (∀ src, Lambda.ofJson? src l.treeJson = some l ∧
      Lambda.ofJson? src l.treeJson.canonical = some l) ∧
    ∀ l' : Lambda Expr, l'.portableTree = true → l' ≠ l →
      l'.treeJson ≠ l.treeJson ∧ l'.treeJson.canonical ≠ l.treeJson.canonical := by
  have hwritten : ∀ src {l : Lambda Expr}, l.portableTree = true →
      Lambda.ofJson? src l.treeJson = some l := fun src _ h =>
    Lambda.ofJson?_arranged .asWritten src h
  have hsorted : ∀ src {l : Lambda Expr}, l.portableTree = true →
      Lambda.ofJson? src l.treeJson.canonical = some l := fun src _ h =>
    Lambda.ofJson?_arranged .sorted src h
  refine ⟨fun src => ⟨hwritten src h, hsorted src h⟩, fun l' h' hne => ⟨fun heq => ?_, fun heq => ?_⟩⟩
  · have hread := hwritten .text h'
    rw [heq, hwritten .text h] at hread
    exact hne (Option.some.inj hread).symm
  · have hread := hsorted .value h'
    rw [heq, hsorted .value h] at hread
    exact hne (Option.some.inj hread).symm

/-- A function with a nested function and a handler, whose constants are the smallest integer of 64
bits and a text that needs escapes. -/
def guardedLambda : Lambda Expr where
  name := "say \"hi\"\n"
  params := [⟨0, "x", .nullable (.mdArray .str 2)⟩]
  ret := .object
  hidden := ⟨true, false⟩
  body :=
    .node (.tryCatch
      (.node (.lambda ⟨"", [], .num (.int .i64),
        .node (.constant (.num (.int .i64 (Word.clamp .i64 (-9223372036854775808)))))
          (.num (.int .i64)), ⟨false, true⟩⟩) (.func [] (.num (.int .i64))))
      [⟨.classTy 4294967295, some ⟨1, "", .classTy 7⟩, none, .node .default .object⟩]
      none (some (.node (.constant (.str "\u0001 \\")) .str))) .object

/-- The guarded function is read back, and is written differently than with other hidden parameters. -/
theorem Lambda.treeJson_exact_guarded : guardedLambda.portableTree = true ∧
    Lambda.ofJson? .value guardedLambda.treeJson.canonical = some guardedLambda ∧
    { guardedLambda with hidden := .none }.treeJson ≠ guardedLambda.treeJson := by
  have h : guardedLambda.portableTree = true := by decide
  obtain ⟨hread, hother⟩ := Lambda.treeJson_exact h
  refine ⟨h, (hread .value).2, (hother _ (by decide) fun heq => ?_).1⟩
  exact absurd (congrArg (fun l => l.hidden.constants) heq) (by decide)

end Arbor
