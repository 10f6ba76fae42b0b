/-
  Types, references and the other leaves of trees are read back as they were
  written, under every arrangement of what was written.

  Files hold numbers of 32 bits and no floats exactly; what consists of these is
  called portable.
-/
import Arbor.Tree.Json
import Arbor.Proofs.Json.Arrangement

set_option autoImplicit false

namespace Arbor

open Json

/-! ## Portable leaves -/

/-- Whether a number has 32 bits. -/
def fits32 (n : Nat) : Bool := n < 0x100000000

mutual

/-- Whether all numbers in a type have 32 bits. -/
def Ty.portable : Ty → Bool
  | void => true
  | bool => true
  | num _ => true
  | str => true
  | object => true
  | nullable t => portable t
  | classTy id => fits32 id
  | structTy id => fits32 id
  | array t => portable t
  | mdArray t rank => portable t && fits32 rank
  | list t => portable t
  | func ps ret => portableList ps && portable ret
  | byRef t => portable t
  termination_by structural t => t

/-- Whether all numbers in types have 32 bits. -/
def Ty.portableList : List Ty → Bool
  | [] => true
  | t :: ts => portable t && portableList ts
  termination_by structural ts => ts

end

/-- Whether the numbers of a field reference have 32 bits. -/
def FieldRef.portable (f : FieldRef) : Bool := fits32 f.ty && fits32 f.index

/-- Whether the numbers of a property reference have 32 bits. -/
def PropertyRef.portable (p : PropertyRef) : Bool := fits32 p.ty && fits32 p.index

/-- Whether all numbers in an intrinsic have 32 bits. -/
def Intrinsic.portable : Intrinsic → Bool
  | listAdd t | listGet t | listSet t | listCount t | arrayResize t => t.portable
  | mdGet t rank | mdSet t rank | mdLength t rank => t.portable && fits32 rank
  | strConcat | strLength | objEquals => true

/-- Whether all numbers in a method reference have 32 bits. -/
def MethodRef.portable : MethodRef → Bool
  | method ty index => fits32 ty && fits32 index
  | intrinsic op => op.portable

/-- Whether a constant is not a float. -/
def Literal.portable : Literal → Bool
  | num (.single _) | num (.double _) => false
  | _ => true

/-- Whether all numbers of a variable have 32 bits. -/
def Variable.portable (v : Variable) : Bool := fits32 v.id && v.ty.portable

/-- Whether all numbers of a label have 32 bits. -/
def LabelTarget.portable (l : LabelTarget) : Bool := fits32 l.id && l.ty.portable

/-- Whether the numbers of a member have 32 bits. -/
def Member.portable : Member → Bool
  | field f => f.portable
  | property p => p.portable
  | _ => true

/-- Whether the numbers of the member of a binding have 32 bits. -/
def MemberTarget.portable : MemberTarget → Bool
  | field f => f.portable
  | property p => p.portable

/-! ## Reading leaves back -/

section

variable (A : Arrangement) (src : Source)

theorem u32?_arranged {n : Nat} (h : fits32 n = true) : u32? (A (.ofNat n)) = some n := by
  rw [fits32, decide_eq_true_iff] at h
  rw [A.ofNat, Json.ofNat, u32?, natBelow?, if_pos (by omega), Int.toNat_natCast]

@[simp] theorem bool?_arranged (b : Bool) : bool? (A (.bool b)) = some b := by rw [A.bool, bool?]

@[simp] theorem str?_arranged (s : String) : str? (A (.str s)) = some s := by rw [A.str, str?]

/-- A name is read back if no two have the same. -/
theorem byName?_arranged {α : Type} {all : List α} {name : α → String} {a : α}
    (h : all.find? (fun b => name b == name a) = some a) :
    byName? all name (A (.str (name a))) = some a := by
  rw [A.str]
  exact h

theorem NumKind.ofJson?_arranged (k : NumKind) : NumKind.ofJson? (A (.str k.tag)) = some k := by
  rw [A.str]
  rcases k with k | _ | _
  · cases k <;> rfl
  · rfl
  · rfl

theorem Ty.toJsonList_eq (ts : List Ty) : toJsonList ts = ts.map toJson := by
  induction ts with
  | nil => rfl
  | cons t ts ih => rw [toJsonList, ih, List.map_cons]

theorem Ty.arranged_ne_null (t : Ty) : A t.toJson ≠ .null := by
  cases t <;> simp [toJson]

mutual

/-- A type is read back if the nesting does not exceed the bound. -/
theorem Ty.decode_arranged : (t : Ty) → t.portable = true → ∀ fuel, (A t.toJson).depth < fuel →
    decode src fuel (A t.toJson) = some t
  | t, _, 0, hfuel => absurd hfuel (Nat.not_lt_zero _)
  | .void, _, fuel + 1, _ | .bool, _, fuel + 1, _ | .str, _, fuel + 1, _
  | .object, _, fuel + 1, _ => by rw [toJson, A.str]; rfl
  | .num k, _, fuel + 1, _ => by
      have hkind := NumKind.ofJson?_arranged A k
      have hnull := A.str_ne_null k.tag
      rw [toJson, A.tagged]
      simp [tagged, decode, variant?, hkind]
  | .nullable t, h, fuel + 1, hfuel | .array t, h, fuel + 1, hfuel | .list t, h, fuel + 1, hfuel
  | .byRef t, h, fuel + 1, hfuel => by
      have hnull := t.arranged_ne_null A
      rw [toJson, A.depth_tagged, Nat.succ_lt_succ_iff] at hfuel
      rw [toJson, A.tagged]
      simp [tagged, decode, variant?, decode_arranged t h fuel hfuel]
  | .classTy id, h, fuel + 1, _ | .structTy id, h, fuel + 1, _ => by
      have hid := u32?_arranged A h
      have hnull : A (.ofNat id) ≠ .null := by rw [A.ofNat]; nofun
      rw [toJson, A.tagged]
      simp [tagged, decode, variant?, hid]
  | .mdArray t rank, h, fuel + 1, hfuel => by
      obtain ⟨ht, hrank⟩ := Bool.and_eq_true_iff.mp h
      have hkeys : (keys [("elem", t.toJson), ("rank", .ofNat rank)]).Nodup := by simp
      rw [toJson, A.depth_tagged, A.depth_obj hkeys] at hfuel
      have hnull := A.obj_ne_null hkeys
      rw [toJson, A.tagged]
      have helem : decode src fuel (A t.toJson) = some t := by
        refine decode_arranged t ht fuel ?_
        simp only [List.map_cons, depthMembers] at hfuel
        omega
      simp [tagged, decode, variant?, member?,
        helem, u32?_arranged A hrank]
  | .func ps ret, h, fuel + 1, hfuel => by
      obtain ⟨hps, hret⟩ := Bool.and_eq_true_iff.mp h
      have hkeys : (keys [("params", .arr (toJsonList ps)), ("ret", ret.toJson)]).Nodup := by
        simp [keys]
      rw [toJson, A.depth_tagged, A.depth_obj hkeys] at hfuel
      have hnull := A.obj_ne_null hkeys
      rw [toJson, A.tagged]
      simp only [List.map_cons, depthMembers, A.depth_arr] at hfuel
      have hret : decode src fuel (A ret.toJson) = some ret := decode_arranged ret hret fuel (by omega)
      have hparams : list? (decode src fuel) (A (.arr (toJsonList ps))) = some ps := by
        rw [toJsonList_eq]
        exact A.list?_ofList (decodeList_arranged ps hps fuel (by omega))
      simp [tagged, decode, variant?, member?,
        hparams, hret]
  termination_by structural t => t

/-- Types are read back if the nesting does not exceed the bound. -/
theorem Ty.decodeList_arranged : (ts : List Ty) → portableList ts = true → ∀ fuel,
    depthItems ((toJsonList ts).map A) < fuel → ∀ t ∈ ts, decode src fuel (A t.toJson) = some t
  | [], _, _, _ => nofun
  | t :: ts, h, fuel, hfuel => by
      obtain ⟨ht, hts⟩ := Bool.and_eq_true_iff.mp h
      rw [toJsonList, List.map_cons, depthItems, Nat.max_lt] at hfuel
      exact List.forall_mem_cons.mpr
        ⟨decode_arranged t ht fuel hfuel.1, decodeList_arranged ts hts fuel hfuel.2⟩
  termination_by structural ts => ts

end

theorem Ty.ofJson?_arranged {t : Ty} (h : t.portable = true) : Ty.ofJson? src (A t.toJson) = some t :=
  t.decode_arranged A src h _ (Nat.lt_succ_self _)

/-! ### References -/

theorem FieldRef.ofJson?_arranged {f : FieldRef} (h : f.portable = true) :
    FieldRef.ofJson? (A f.toJson) = some f := by
  obtain ⟨hty, hindex⟩ := Bool.and_eq_true_iff.mp h
  have hkeys : (keys [("ty", .ofNat f.ty), ("index", .ofNat f.index)]).Nodup := by simp
  simp [toJson, ofJson?, member?,
    u32?_arranged A hty, u32?_arranged A hindex]

theorem PropertyRef.restores {p : PropertyRef} (h : p.portable = true) :
    A.Restores PropertyRef.ofJson? PropertyRef.toJson p := by
  obtain ⟨hty, hindex⟩ := Bool.and_eq_true_iff.mp h
  have hkeys : (keys [("ty", .ofNat p.ty), ("index", .ofNat p.index)]).Nodup := by simp
  refine ⟨?_, A.obj_ne_null hkeys⟩
  simp [toJson, ofJson?, member?,
    u32?_arranged A hty, u32?_arranged A hindex]

theorem Intrinsic.mdOfJson?_arranged {op : Ty → Nat → Intrinsic} {t : Ty} {rank : Nat}
    (ht : t.portable = true) (hrank : fits32 rank = true) :
    mdOfJson? src op (A (.obj [("elem", t.toJson), ("rank", .ofNat rank)])) = some (op t rank) := by
  have hkeys : (keys [("elem", t.toJson), ("rank", .ofNat rank)]).Nodup := by simp
  simp [mdOfJson?, member?,
    Ty.ofJson?_arranged A src ht, u32?_arranged A hrank]

/-- An intrinsic is read back. -/
theorem Intrinsic.ofJson?_arranged {op : Intrinsic} (h : op.portable = true) :
    Intrinsic.ofJson? src (A op.toJson) = some op := by
  cases op with
  | listAdd t | listGet t | listSet t | listCount t | arrayResize t =>
      have hnull := t.arranged_ne_null A
      rw [toJson, A.tagged]
      simp [ofJson?, tagged, variant?, Ty.ofJson?_arranged A src h]
  | mdGet t rank | mdSet t rank | mdLength t rank =>
      obtain ⟨ht, hrank⟩ := Bool.and_eq_true_iff.mp h
      have hnull : A (.obj [("elem", t.toJson), ("rank", .ofNat rank)]) ≠ .null := by simp
      rw [toJson, mdJson, A.tagged]
      simp [ofJson?, tagged, variant?, mdOfJson?_arranged A src ht hrank]
  | strConcat | strLength | objEquals =>
      rw [toJson, A.str]
      rfl

/-- A method reference is read back. -/
theorem MethodRef.restores {m : MethodRef} (h : m.portable = true) :
    A.Restores (MethodRef.ofJson? src) MethodRef.toJson m := by
  cases m with
  | method ty index =>
      obtain ⟨hty, hindex⟩ := Bool.and_eq_true_iff.mp h
      have hkeys : (keys [("ty", .ofNat ty), ("index", .ofNat index)]).Nodup := by simp
      refine ⟨?_, A.tagged_ne_null _ _⟩
      rw [toJson, A.tagged]
      simp [ofJson?, tagged, variant?, member?,
        u32?_arranged A hty, u32?_arranged A hindex]
  | intrinsic op =>
      refine ⟨?_, A.tagged_ne_null _ _⟩
      rw [toJson, A.tagged]
      simp [ofJson?, tagged, variant?, Intrinsic.ofJson?_arranged A src h]

/-! ### Constants -/

/-- A constant that is not a float is read back. -/
theorem Literal.ofJson?_arranged {l : Literal} (h : l.portable = true) :
    Literal.ofJson? (A l.toJson) = some l := by
  cases l with
  | null =>
      rw [toJson, A.str]
      rfl
  | bool b =>
      rw [toJson, A.tagged, A.bool]
      rfl
  | str s =>
      rw [toJson, A.tagged, A.str]
      rfl
  | num n =>
      cases n with
      | single _ | double _ => cases h
      | int k w =>
          have hkind : NumKind.ofTag? (NumKind.int k).tag = some (.int k) := by cases k <;> rfl
          rw [toJson, Num.toJson, A.tagged, A.tagged, A.int]
          simp [ofJson?, Num.ofJson?, tagged, variant?, hkind, word?]

/-! ### Variables, labels and members -/

theorem Variable.restores {v : Variable} (h : v.portable = true) :
    A.Restores (Variable.ofJson? src) Variable.toJson v := by
  obtain ⟨hid, hty⟩ := Bool.and_eq_true_iff.mp h
  have hkeys : (keys [("id", .ofNat v.id), ("name", .str v.name), ("ty", v.ty.toJson)]).Nodup := by
    simp [keys]
  refine ⟨?_, A.obj_ne_null hkeys⟩
  simp [toJson, ofJson?, member?,
    u32?_arranged A hid, str?_arranged A, Ty.ofJson?_arranged A src hty]

theorem LabelTarget.restores {l : LabelTarget} (h : l.portable = true) :
    A.Restores (LabelTarget.ofJson? src) LabelTarget.toJson l := by
  obtain ⟨hid, hty⟩ := Bool.and_eq_true_iff.mp h
  have hkeys : (keys [("id", .ofNat l.id), ("ty", l.ty.toJson)]).Nodup := by simp
  refine ⟨?_, A.obj_ne_null hkeys⟩
  simp [toJson, ofJson?, member?,
    u32?_arranged A hid, Ty.ofJson?_arranged A src hty]

/-- A member is read back. -/
theorem Member.ofJson?_arranged {m : Member} (h : m.portable = true) :
    Member.ofJson? (A m.toJson) = some m := by
  cases m with
  | field f =>
      have hf := FieldRef.ofJson?_arranged A h
      have hnull : A f.toJson ≠ .null := A.obj_ne_null (by simp)
      rw [toJson, A.tagged]
      simp [ofJson?, tagged, variant?, hf]
  | property p =>
      obtain ⟨hp, hnull⟩ := PropertyRef.restores A h
      rw [toJson, A.tagged]
      simp [ofJson?, tagged, variant?, hp]
  | arrayLength | listCount | strLength | hasValue | value =>
      rw [toJson, A.str]
      rfl

theorem MemberTarget.ofJson?_arranged {m : MemberTarget} (h : m.portable = true) :
    MemberTarget.ofJson? (A m.toJson) = some m := by
  cases m with
  | field f =>
      rw [toJson, A.tagged]
      simp [ofJson?, tagged, variant?, FieldRef.ofJson?_arranged A h]
  | property p =>
      rw [toJson, A.tagged]
      simp [ofJson?, tagged, variant?, (PropertyRef.restores A h).read_eq]

theorem HiddenParams.ofJson?_arranged (h : HiddenParams) :
    HiddenParams.ofJson? (A h.toJson) = some h := by
  have hkeys : (keys [("constants", .bool h.constants), ("closure", .bool h.closure)]).Nodup := by
    simp [keys]
  simp [toJson, ofJson?, member?, bool?_arranged A]

end

end Arbor
