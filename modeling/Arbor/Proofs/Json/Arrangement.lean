/-
  Arrangements of JSON values.

  A value at hand has its objects sorted by key, a text has them in the order of
  writing.  What is read does not depend on that order: an arrangement permutes the
  members of objects without repeated keys and leaves everything else as it is, and
  records find their fields under every arrangement.
-/
import Arbor.Json.Decode
import Mathlib.Data.List.Nodup
import Mathlib.Data.List.Perm.Basic

set_option autoImplicit false

namespace Arbor.Json

/-- The keys of members. -/
def keys (members : List (String × Json)) : List String := members.map Prod.fst

@[simp] theorem keys_nil : keys [] = [] := List.map_nil

@[simp] theorem keys_cons (m : String × Json) (ms : List (String × Json)) :
    keys (m :: ms) = m.1 :: keys ms := List.map_cons

/-- The members of an object. -/
def members : Json → List (String × Json)
  | obj ms => ms
  | _ => []

/-- A change of JSON values that permutes the members of objects without repeated keys. -/
structure Arrangement where
  apply : Json → Json
  null : apply null = null
  bool : ∀ b, apply (bool b) = bool b
  int : ∀ n, apply (int n) = int n
  str : ∀ s, apply (str s) = str s
  arr : ∀ items, apply (arr items) = arr (items.map apply)
  obj : ∀ ms, (keys ms).Nodup →
    ∃ ms', apply (obj ms) = obj ms' ∧ ms'.Perm (ms.map fun m => (m.1, apply m.2))

instance : CoeFun Arrangement fun _ => Json → Json := ⟨Arrangement.apply⟩

/-! ## Members -/

/-- A member that is found is one of the members. -/
theorem mem_of_member? {key : String} {v : Json} {ms : List (String × Json)}
    (h : member? key ms = some v) : (key, v) ∈ ms := by
  induction ms with
  | nil => cases h
  | cons m ms ih =>
      obtain ⟨k, w⟩ := m
      rw [member?] at h
      split at h
      · next found hfound =>
          cases h
          exact List.mem_cons_of_mem _ (ih hfound)
      · split at h
        · next hkey =>
            cases h
            exact hkey ▸ List.mem_cons_self
        · cases h

/-- Without repeated keys, every member is found. -/
theorem member?_of_mem {key : String} {v : Json} {ms : List (String × Json)} (hkeys : (keys ms).Nodup)
    (h : (key, v) ∈ ms) : member? key ms = some v := by
  induction ms with
  | nil => exact absurd h List.not_mem_nil
  | cons m ms ih =>
      obtain ⟨k, w⟩ := m
      obtain ⟨hnew, hkeys⟩ := List.nodup_cons.mp hkeys
      rw [member?]
      rcases List.mem_cons.mp h with heq | h
      · cases heq
        have hnone : member? key ms = none := Option.eq_none_iff_forall_ne_some.mpr fun _ hfound =>
          hnew (List.mem_map.mpr ⟨_, mem_of_member? hfound, rfl⟩)
        rw [hnone]
        exact if_pos rfl
      · rw [ih hkeys h]

theorem member?_perm {key : String} {ms ms' : List (String × Json)} (h : ms'.Perm ms)
    (hkeys : (keys ms).Nodup) : member? key ms' = member? key ms := by
  have hkeys' : (keys ms').Nodup := (h.map Prod.fst).nodup_iff.mpr hkeys
  refine Option.ext fun v => ⟨fun hv => ?_, fun hv => ?_⟩
  · exact member?_of_mem hkeys (h.mem_iff.mp (mem_of_member? hv))
  · exact member?_of_mem hkeys' (h.mem_iff.mpr (mem_of_member? hv))

/-- Members whose values are replaced. -/
theorem member?_map (key : String) (f : Json → Json) (ms : List (String × Json)) :
    member? key (ms.map fun m => (m.1, f m.2)) = (member? key ms).map f := by
  induction ms with
  | nil => rfl
  | cons m ms ih =>
      rw [List.map_cons, member?, member?, ih]
      cases member? key ms with
      | some v => rfl
      | none =>
          dsimp only [Option.map_none]
          split <;> rfl

theorem repeated_eq_false {key : String} {ms : List (String × Json)} (h : (keys ms).Nodup) :
    repeated key ms = false := by
  have hcount : (ms.filter fun m => m.1 == key).length = (keys ms).count key := by
    rw [keys, List.count, List.countP_map, List.countP_eq_length_filter]
    rfl
  rw [repeated, hcount, decide_eq_false_iff_not, Nat.not_lt]
  exact List.nodup_iff_count_le_one.mp h key

/-! ## Depths -/

/-- The greatest depth among members does not depend on their order. -/
theorem depthMembers_perm {ms ms' : List (String × Json)} (h : ms'.Perm ms) :
    depthMembers ms' = depthMembers ms := by
  induction h with
  | nil => rfl
  | cons m _ ih => rw [depthMembers, depthMembers, ih]
  | swap m n _ =>
      rw [depthMembers, depthMembers, depthMembers, depthMembers]
      omega
  | trans _ _ ih ih' => exact ih.trans ih'

theorem depth_le_depthItems {items : List Json} {j : Json} (h : j ∈ items) :
    j.depth ≤ depthItems items := by
  induction items with
  | nil => exact absurd h List.not_mem_nil
  | cons first items ih =>
      rw [depthItems]
      rcases List.mem_cons.mp h with rfl | h
      · exact Nat.le_max_left _ _
      · exact Nat.le_trans (ih h) (Nat.le_max_right _ _)

@[simp] theorem depthItems_append (items items' : List Json) :
    depthItems (items ++ items') = max (depthItems items) (depthItems items') := by
  induction items with
  | nil => exact (Nat.zero_max _).symm
  | cons j items ih => rw [List.cons_append, depthItems, depthItems, ih, Nat.max_assoc]

/-! ## Reading what was arranged -/

namespace Arrangement

variable (A : Arrangement) {α : Type} {ms : List (String × Json)} {key : String}

/-- The record of arranged members. -/
def record (ms : List (String × Json)) : Record := ⟨false, (A (.obj ms)).members⟩

theorem obj_eq (h : (keys ms).Nodup) : A (.obj ms) = .obj (A.record ms).fields ∧
    (A.record ms).fields.Perm (ms.map fun m => (m.1, A m.2)) := by
  obtain ⟨ms', heq, hperm⟩ := A.obj ms h
  rw [record, heq]
  exact ⟨rfl, hperm⟩

theorem nodup_record (h : (keys ms).Nodup) : (keys (A.record ms).fields).Nodup := by
  refine ((A.obj_eq h).2.map Prod.fst).nodup_iff.mpr ?_
  rw [List.map_map]
  exact h

theorem tagged (name : String) (content : Json) :
    A (Json.tagged name content) = Json.tagged name (A content) := by
  obtain ⟨ms', heq, hperm⟩ := A.obj [(name, content)] (List.nodup_singleton name)
  rw [Json.tagged, heq, List.perm_singleton.mp hperm]
  rfl

@[simp] theorem tagged_ne_null (name : String) (content : Json) :
    A (Json.tagged name content) ≠ .null := by
  rw [A.tagged, Json.tagged]
  nofun

@[simp] theorem str_ne_null (s : String) : A (.str s) ≠ .null := by
  rw [A.str]
  nofun

@[simp] theorem obj_ne_null (h : (keys ms).Nodup) : A (.obj ms) ≠ .null := by
  rw [(A.obj_eq h).1]
  nofun

theorem ofNat (n : Nat) : A (Json.ofNat n) = Json.ofNat n := A.int n

@[simp] theorem record?_obj {names : List String} (h : (keys ms).Nodup) :
    record? names (A (.obj ms)) = some (A.record ms) := by
  rw [(A.obj_eq h).1, record?, if_neg]
  · rfl
  · simp [repeated_eq_false (A.nodup_record h)]

@[simp] theorem fields?_obj {src : Source} {names : List String} (h : (keys ms).Nodup) :
    fields? src names (A (.obj ms)) = some (A.record ms) := by
  have hrecord : record? names (A (.obj ms)) = some (A.record ms) := A.record?_obj h
  rw [(A.obj_eq h).1] at hrecord ⊢
  cases src <;> exact hrecord

theorem field?_record (h : (keys ms).Nodup) :
    (A.record ms).field? key = (member? key ms).map A := by
  obtain ⟨-, hperm⟩ := A.obj_eq h
  rw [Record.field?, member?_perm hperm, member?_map]
  rw [keys, List.map_map]
  exact h

@[simp] theorem required?_record {read : Json → Option α} (h : (keys ms).Nodup) :
    (A.record ms).required? key read = (member? key ms).bind fun j => read (A j) := by
  rw [Record.required?, A.field?_record h, Option.bind_map]
  rfl

@[simp] theorem optional?_record {read : Json → Option α} (h : (keys ms).Nodup) :
    (A.record ms).optional? key read =
      (member? key ms).elim (some none) fun j => nullable? read (A j) := by
  rw [Record.optional?, A.field?_record h]
  cases member? key ms <;> rfl

@[simp] theorem defaulted?_record {read : Json → Option α} {value : α} (h : (keys ms).Nodup) :
    (A.record ms).defaulted? key read value =
      (member? key ms).elim (some value) fun j => read (A j) := by
  rw [Record.defaulted?, A.field?_record h]
  cases member? key ms <;> rfl

theorem list?_ofList {read : Json → Option α} {write : α → Json} {items : List α}
    (h : ∀ a ∈ items, read (A (write a)) = some a) :
    list? read (A (.arr (items.map write))) = some items := by
  rw [A.arr, list?]
  induction items with
  | nil => rfl
  | cons a items ih =>
      obtain ⟨ha, hitems⟩ := List.forall_mem_cons.mp h
      rw [List.map_cons, List.map_cons, List.mapM_cons, ha, ih hitems]
      rfl

/-- What is written for a value is read back, and is not null. -/
structure Restores (read : Json → Option α) (write : α → Json) (a : α) : Prop where
  read_eq : read (A (write a)) = some a
  ne_null : A (write a) ≠ .null

/-- An optional value that is read back. -/
theorem nullable?_ofOption {read : Json → Option α} {write : α → Json} {o : Option α}
    (h : ∀ a ∈ o.toList, A.Restores read write a) :
    nullable? read (A (Json.ofOption write o)) = some o := by
  cases o with
  | none =>
      rw [Json.ofOption, A.null]
      rfl
  | some a =>
      obtain ⟨hread, hnull⟩ := h a List.mem_cons_self
      rw [Json.ofOption, nullable?, hread]
      · rfl
      · exact hnull

theorem nullable?_of_all {read : Json → Option α} {write : α → Json} {p : α → Bool} {o : Option α}
    (ho : o.all p = true) (h : ∀ {a}, p a = true → A.Restores read write a) :
    nullable? read (A (Json.ofOption write o)) = some o :=
  A.nullable?_ofOption fun a ha => by
    cases Option.mem_toList.mp ha
    exact h ho

theorem list?_of_all {read : Json → Option α} {write : α → Json} {p : α → Bool} {items : List α}
    (hitems : items.all p = true) (h : ∀ {a}, p a = true → A.Restores read write a) :
    list? read (A (Json.ofList write items)) = some items :=
  A.list?_ofList fun a ha => (h (List.all_eq_true.mp hitems a ha)).read_eq

/-! ### Depths -/

@[simp] theorem depth_arr (items : List Json) :
    (A (.arr items)).depth = depthItems (items.map A) + 1 := by
  rw [A.arr, depth]

@[simp] theorem depth_obj (h : (keys ms).Nodup) :
    (A (.obj ms)).depth = depthMembers (ms.map fun m => (m.1, A m.2)) + 1 := by
  obtain ⟨heq, hperm⟩ := A.obj_eq h
  rw [heq, depth, depthMembers_perm hperm]

@[simp] theorem depth_tagged (name : String) (content : Json) :
    (A (Json.tagged name content)).depth = (A content).depth + 1 := by
  rw [A.tagged, Json.tagged, depth, depthMembers, depthMembers, Nat.max_zero]

theorem depth_item_le {items : List Json} {j : Json} (h : j ∈ items) :
    (A j).depth ≤ depthItems (items.map A) :=
  depth_le_depthItems (List.mem_map_of_mem h)

end Arrangement

/-! ## Arrangements in use -/

/-- Text keeps the order of writing. -/
def Arrangement.asWritten : Arrangement where
  apply j := j
  null := rfl
  bool _ := rfl
  int _ := rfl
  str _ := rfl
  arr items := by rw [List.map_id']
  obj ms _ := ⟨ms, rfl, .of_eq (List.map_id' ms).symm⟩

theorem canonicalItems_eq (items : List Json) : canonicalItems items = items.map canonical := by
  induction items with
  | nil => rfl
  | cons j items ih => rw [canonicalItems, ih, List.map_cons]

theorem canonicalMembers_eq (ms : List (String × Json)) :
    canonicalMembers ms = ms.map fun m => (m.1, m.2.canonical) := by
  induction ms with
  | nil => rfl
  | cons m ms ih =>
      obtain ⟨k, j⟩ := m
      rw [canonicalMembers, ih, List.map_cons]

/-- A member with a new key is added somewhere. -/
theorem insertMember_perm {key : String} {value : Json} {ms : List (String × Json)}
    (h : key ∉ keys ms) : (insertMember key value ms).Perm ((key, value) :: ms) := by
  induction ms with
  | nil => exact .refl _
  | cons m ms ih =>
      obtain ⟨k, v⟩ := m
      obtain ⟨hne, hnew⟩ := not_or.mp (mt List.mem_cons.mpr h)
      rw [insertMember, if_neg (show key ≠ k from hne)]
      split
      · exact .refl _
      · exact ((ih hnew).cons _).trans (.swap _ _ _)

/-- Sorting members with different keys permutes them. -/
theorem sortMembers_perm {ms : List (String × Json)} (h : (keys ms).Nodup) :
    (sortMembers ms).Perm ms := by
  suffices hfold : ∀ sorted, (keys (sorted ++ ms)).Nodup →
      (ms.foldl (fun sorted m => insertMember m.1 m.2 sorted) sorted).Perm (sorted ++ ms) from
    hfold [] h
  clear h
  induction ms with
  | nil => exact fun sorted _ => .of_eq (List.append_nil _).symm
  | cons m ms ih =>
      intro sorted hkeys
      have hmoved : (m :: sorted ++ ms).Perm (sorted ++ m :: ms) := List.perm_middle.symm
      have hkeys' : (keys (m :: sorted ++ ms)).Nodup := (hmoved.map Prod.fst).nodup_iff.mpr hkeys
      have hnew : m.1 ∉ keys sorted := fun hmem =>
        (List.nodup_cons.mp hkeys').1 (List.map_append ▸ List.mem_append_left _ hmem)
      have hinsert : (insertMember m.1 m.2 sorted ++ ms).Perm (m :: sorted ++ ms) :=
        (insertMember_perm hnew).append_right ms
      exact (ih _ ((hinsert.map Prod.fst).nodup_iff.mpr hkeys')).trans (hinsert.trans hmoved)

/-- A value at hand has its objects sorted by key. -/
def Arrangement.sorted : Arrangement where
  apply := canonical
  null := rfl
  bool _ := rfl
  int _ := rfl
  str _ := rfl
  arr items := by rw [canonical, canonicalItems_eq]
  obj ms h := by
    have hkeys : (keys (ms.map fun m => (m.1, m.2.canonical))).Nodup := by
      rw [keys, List.map_map]
      exact h
    exact ⟨_, by rw [canonical, canonicalMembers_eq], sortMembers_perm hkeys⟩

end Arbor.Json
