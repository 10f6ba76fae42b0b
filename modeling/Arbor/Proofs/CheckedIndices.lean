/-
  Elements under bounds checks.

  An element is prepared by moving its container and its indices into temporaries.
  With bounds checks the indices are then compared with the lengths of the
  dimensions, and where one is out of range control takes the exit.  Behind the
  checks the element is there to be read and written.  An index of another integer
  type than that of indices is converted first, and where it is out of the range of
  that type the conversion throws before there is a check.
-/
import Arbor.Proofs.Machine.Elements
import Arbor.Proofs.OperatorRuns

set_option autoImplicit false

namespace Arbor

variable {setting : Setting} {R : Routine} {hR : R.WithinLimits} {start : Nat} {s t : Emission}
  {exit : Option Label} {arg : Expr}

/-! ## Index operands -/

/-- Numbers as values are compared as integers. -/
theorem IndexWord.compare_lt (w u : IndexWord) :
    Value.compare .lt w.value u.value = .ok (decide (w.val < u.val)) := by
  have horder : Num.order (.int .i32 w) (.int .i32 u) = .ok (some (compare w.val u.val)) := by
    simp [Num.order]
  simp only [value, Value.compare, horder, CmpOp.holds, compare, compareOfLessAndEq]
  congr 1
  by_cases hlt : w.val < u.val
  · simp [hlt]
  · by_cases heq : w.val = u.val <;> simp [hlt, heq]

/-- A count below the limit as an index. -/
theorem IndexWord.exists_of_lt {n : Nat} (h : n < Run.depthLimit) :
    ∃ w : IndexWord, w.val = n ∧ Value.int n = w.value := by
  unfold Run.depthLimit at h
  have hrange : IntKind.i32.min ≤ (n : Int) ∧ (n : Int) ≤ IntKind.i32.max := by
    simp only [IntKind.min, IntKind.max, IntKind.signed, IntKind.modulus, IntKind.bits, if_true,
      Nat.pow_eq, Nat.reducePow] at *
    omega
  have hresidue : Word.residue .i32 n = n := Word.residue_eq_self hrange
  refine ⟨.wrap .i32 n, ?_, by simp only [Value.int, Num.i32, IndexWord.value]⟩
  simp only [Word.wrap, hresidue]

/-- The code of an index from `s` to `t`: that of its operand, which names none of the locals in `held`,
and the conversion and the store that move its value into a temporary. -/
structure IndexCode (hR : R.WithinLimits) (setting : Setting) (start : Nat) (exit : Option Label)
    (held : List Nat) (arg : Expr) (slot : Nat) (s t : Emission) where
  stop : Emission
  exits : Bool
  operand : (Job.ofRoutine setting hR).Emits start (arg.toNode.value exit) s exits stop
  integral : ∃ k, arg.ty = .num (.int k)
  fits : ∀ (span : Span) (a : Around) (m : Memory) (stack : List Value) (k : IntKind) (w : Word k)
    (i : IndexWord), arg.ty = .num (.int k) → m.locals.size = R.locals.size →
    Word.ofInt? .i32 w.val = some i →
    (m.setLocal slot i.value).locals[slot]? = some i.value ∧
      Run.Via setting.registry R span (fun p => stop.position ≤ p ∧ p < t.position) stop.position
        (m.state a (.num (.int k w) :: stack)) t.position ((m.setLocal slot i.value).state a stack)
  overflows : setting.registry.HasFaults → ∀ (a : Around) (m : Memory) (stack : List Value)
    (k : IntKind) (w : Word k), arg.ty = .num (.int k) → Word.ofInt? .i32 w.val = none →
    R.code[stop.position]? = some (.conv (.int .i32) true) ∧ ∃ e u,
      Run.Steps setting.registry R (.conv (.int .i32) true) (m.state a (.num (.int k w) :: stack))
        (.error e u) ∧ e.Throws .overflow u.heap
  spares : ∀ k ∈ held,
    (∀ id info, s.labels.lookup id = some info → info.valueSlot ≠ some k) →
    ∀ (p : Nat) (i : Instr), s.position ≤ p → p < stop.position → R.code[p]? = some i → k ∉ i.slots
  fresh : slot ∉ s.pool.live
  holding : t.Holding (.local slot)
  retains : s ≤ t

/-- A checked conversion to the type of indices, of an index that fits. -/
theorem Run.Steps.conv_fits {r : Registry} {m : Memory} {a : Around} {stack : List Value}
    {k : IntKind} {w : Word k} {i : IndexWord} (h : Word.ofInt? .i32 w.val = some i) :
    Steps r R (.conv (.int .i32) true) (m.state a (.num (.int k w) :: stack))
      (.ok .next (m.state a (i.value :: stack))) :=
  .of_forall fun _ => by
    simp [step, popNum, Run.pop, Num.convert, Word.finish, Word.exact, h, ofNumeric, IndexWord.value,
      pushNext, push, modifyFrame, Memory.state, Except.map, bind, EStateM.bind, pure, EStateM.pure]

/-- A checked conversion to the type of indices, of an index that does not fit. -/
theorem Run.Steps.conv_overflows {r : Registry} (hr : r.HasFaults) {m : Memory} {a : Around}
    {stack : List Value} {k : IntKind} {w : Word k} (h : Word.ofInt? .i32 w.val = none) :
    ∃ e u, Steps r R (.conv (.int .i32) true) (m.state a (.num (.int k w) :: stack)) (.error e u) ∧
      e.Throws .overflow u.heap := by
  obtain ⟨e, u, hraise, he⟩ := raise_throws (α := Num) hr .overflow (m.state a stack)
  refine ⟨e, u, .of_forall fun _ => ?_, he⟩
  have hconvert : Num.convert (.int k w) (.int .i32) true = .error .overflow := by
    simp [Num.convert, Word.finish, Word.exact, h, Except.map]
  change EStateM.bind (ofNumeric r (Num.convert (.int k w) (.int .i32) true)) _ (m.state a stack) = _
  simp only [EStateM.bind, hconvert, ofNumeric, hraise]

/-- An index that is moved into a temporary. -/
theorem IndexCode.of_emits {held : List Nat} {slot : Nat} {used : Bool} {u : Emission}
    (hheld : ∀ k ∈ held, s.Holding (.local k))
    (hindex : (Job.ofRoutine setting hR).Emits start (Emit.indexOperand arg.toNode exit) s used u)
    (hspill : (Job.ofRoutine setting hR).Emits start (Emit.spill .int) u slot t) :
    Nonempty (IndexCode hR setting start exit held arg slot s t) := by
  obtain ⟨exits, stop, hoperand, h⟩ := hindex.bind
  have hty : arg.toNode.ty = arg.ty := Expr.toNode_ty arg
  rw [hty] at h
  cases harg : arg.ty with
  | num kind =>
      cases kind with
      | int k =>
          simp only [harg] at h
          have hstored := hspill.spill.1
          have hkept : ∀ (m : Memory) (i : IndexWord), m.locals.size = R.locals.size →
              (m.setLocal slot i.value).locals[slot]? = some i.value :=
            fun m i hsize => (hspill.spilled hsize i.value).value
          have hconverted : ∀ k' (w : Word k'), arg.ty = .num (.int k') → k' = k := by
            intro k' w hk'
            rw [harg] at hk'
            cases hk'
            rfl
          refine ⟨stop, exits, hoperand, ⟨k, harg⟩, ?_, ?_, ?_,
            fun hlive => hspill.spill.2 (hindex.retains.live hlive), hspill.spillHolding.1,
            hindex.retains.trans hspill.retains⟩
          · intro span a m stack k' w i hk' hsize hfits
            obtain rfl := hconverted k' w hk'
            refine ⟨hkept m i hsize, ?_⟩
            split at h
            · next hi32 =>
              subst hi32
              obtain ⟨rfl, rfl⟩ := h.pure
              obtain rfl : w = i := by simpa using hfits
              exact .spill hspill hsize ⟨Nat.le_refl _, by omega⟩ (.refl _ _)
            · obtain ⟨_, v, hconv, h⟩ := h.bind
              obtain ⟨rfl, rfl⟩ := h.pure
              have hmiddle := hconv.instr_position
              refine .instr hconv (fun _ => rfl) ⟨Nat.le_refl _, by omega⟩ (.conv_fits hfits) ?_
              exact .spill hspill hsize ⟨by omega, by omega⟩ (.refl _ _)
          · intro hfaults a m stack k' w hk' hout
            obtain rfl := hconverted k' w hk'
            split at h
            · next hi32 =>
              subst hi32
              simp at hout
            · obtain ⟨_, v, hconv, h⟩ := h.bind
              exact ⟨hconv.instr.1, Run.Steps.conv_overflows hfaults hout⟩
          · intro k hk hlabels p i hp hp' hi
            exact hoperand.spares (hheld k hk) hlabels hp hp' hi
      | single | double =>
          simp only [harg] at h
          exact h.mismatch.elim
  | _ =>
      simp only [harg] at h
      exact h.mismatch.elim

/-- The code of indices from `s` to `t`, one after the other.  The operand of each leaves the locals in
`held` and the temporaries of the earlier ones alone. -/
inductive IndexCodes (hR : R.WithinLimits) (setting : Setting) (start : Nat) (exit : Option Label) :
    List Nat → List Expr → List Nat → Emission → Emission → Prop
  | nil {held : List Nat} {s : Emission} : IndexCodes hR setting start exit held [] [] s s
  | cons {held : List Nat} {arg : Expr} {args : List Expr} {slot : Nat} {slots : List Nat}
      {s u t : Emission} (first : IndexCode hR setting start exit held arg slot s u)
      (rest : IndexCodes hR setting start exit (slot :: held) args slots u t) :
      IndexCodes hR setting start exit held (arg :: args) (slot :: slots) s t

/-- Indices are moved into temporaries one after the other. -/
theorem IndexCodes.of_emits {held : List Nat} {args : List Expr} {slots : List Nat} {used : Bool}
    (hheld : ∀ k ∈ held, s.Holding (.local k))
    (h : (Job.ofRoutine setting hR).Emits start (Emit.spillIndices exit (args.map Expr.toNode)) s
      (slots, used) t) :
    IndexCodes hR setting start exit held args slots s t ∧ slots.length = args.length := by
  induction args generalizing held s slots used with
  | nil =>
      obtain ⟨heq, rfl⟩ := h.pure
      cases heq
      exact ⟨.nil, rfl⟩
  | cons arg args ih =>
      obtain ⟨usedIndex, u, hindex, h⟩ := h.bind
      obtain ⟨slot, v, hspill, h⟩ := h.bind
      obtain ⟨⟨slots', usedRest⟩, w, hrest, h⟩ := h.bind
      obtain ⟨heq, rfl⟩ := h.pure
      cases heq
      obtain ⟨first⟩ := IndexCode.of_emits hheld hindex hspill
      have hheld' : ∀ k ∈ slot :: held, v.Holding (.local k) := by
        intro k hk
        rcases List.mem_cons.mp hk with rfl | hk
        · exact hspill.spillHolding.1
        · exact (hheld k hk).later (hindex.retains.trans hspill.retains)
      obtain ⟨hcodes, hlength⟩ := ih hheld' hrest
      exact ⟨.cons first hcodes, by simp [hlength]⟩

/-- The code of one index. -/
theorem IndexCodes.single {held : List Nat} {slots : List Nat}
    (h : IndexCodes hR setting start exit held [arg] slots s t) :
    ∃ slot, slots = [slot] ∧ Nonempty (IndexCode hR setting start exit held arg slot s t) := by
  cases h with
  | cons first rest =>
      cases rest
      exact ⟨_, rfl, ⟨first⟩⟩

/-- The temporaries of indices are in use behind them. -/
theorem IndexCodes.holding {held : List Nat} {args : List Expr} {slots : List Nat}
    (h : IndexCodes hR setting start exit held args slots s t) :
    s ≤ t ∧ ∀ k ∈ slots, t.Holding (.local k) := by
  induction h with
  | nil => exact ⟨le_rfl, fun k hk => by cases hk⟩
  | cons first _ ih =>
      refine ⟨first.retains.trans ih.1, fun k hk => ?_⟩
      rcases List.mem_cons.mp hk with rfl | hk
      · exact first.holding.later ih.1
      · exact ih.2 k hk

/-! ## Checks -/

namespace Run.Via

variable {u : Emission} {span : Span} {within : Nat → Prop} {a : Around} {m : Memory}
  {stack : List Value} {q : Nat} {c : State} {kind : PlaceKind} {v : Value} {dims : List Nat}
  {items : Array Value}

/-- Loading the length of a dimension of a container. -/
theorem loadDimension {dim d : Nat}
    (h : (Job.ofRoutine setting hR).Emits start (Emit.loadDimension kind dim) s () t)
    (hholds : m.heap.Holds kind v dims items) (hd : dims[dim]? = some d)
    (hdim : dim < Run.depthLimit) (hp : ∀ p, s.position ≤ p → p < t.position → within p)
    (hrest : Via setting.registry R span within t.position (m.state a (.int d :: stack)) q c) :
    Via setting.registry R span within s.position (m.state a (v :: stack)) q c := by
  cases hholds with
  | array hc =>
      obtain ⟨rfl, rfl⟩ : dim = 0 ∧ d = _ := by
        cases dim with
        | zero => exact ⟨rfl, by simpa [eq_comm] using hd⟩
        | succ n => simp at hd
      have hend := Job.Emits.instr_position (i := .loadLength) h
      exact .instr (i := .loadLength) h (fun _ => rfl) (hp _ (Nat.le_refl _) (by omega)) (.loadLength hc) hrest
  | @list elem ref cell hc =>
      obtain ⟨rfl, rfl⟩ : dim = 0 ∧ d = _ := by
        cases dim with
        | zero => exact ⟨rfl, by simpa [eq_comm] using hd⟩
        | succ n => simp at hd
      have hend := Job.Emits.instr_position (i := .call (.intrinsic (.listCount elem))) h
      exact .silent (i := .call (.intrinsic (.listCount elem))) h (.intrinsic _)
        (hp _ (Nat.le_refl _) (by omega))
        (Steps.intrinsic [.list ref] rfl (intrinsic_listCount hc)) hrest
  | @mdArray elem rank ref cell hc =>
      obtain ⟨w, hw, hvalue⟩ := IndexWord.exists_of_lt hdim
      obtain ⟨_, s₁, hdimension, hlength⟩ := Job.Emits.bind (x := Emit.int dim) h
      have hmiddle := Job.Emits.instr_position (i := .const (.num (.i32 dim))) hdimension
      have hend := hlength.instr_position
      refine .instr (i := .const (.num (.i32 dim))) hdimension (fun _ => rfl)
        (hp _ (Nat.le_refl _) (by omega)) (.const _ _ _ _) ?_
      refine .silent hlength (.intrinsic _) (hp _ (by omega) (by omega)) ?_ hrest
      have hlength : Run.intrinsic setting.registry (.mdLength elem rank) [.array ref, w.value]
          (m.state a stack) = .ok (.int d) (m.state a stack) :=
        intrinsic_mdLength hc (by omega) (by rw [hw, Int.toNat_natCast]; exact hd)
      have hstep := Steps.intrinsic (R := R) [.array ref, w.value] rfl hlength
      rw [← hvalue] at hstep
      exact hstep

/-- The checks lead behind them if every index lies within its dimension, and else to the exit. -/
theorem checkIndices {pad : Label} {container dim : Nat} {slots : List Nat} {ws : List IndexWord}
    (h : (Job.ofRoutine setting hR).Emits start (Emit.checkIndices pad kind container dim slots) s () t)
    (hholds : m.heap.Holds kind v dims items) (hshort : ∀ d ∈ dims, d < Run.depthLimit)
    (hcontainer : m.locals[container]? = some v)
    (hslots : List.Forall₂ (fun (slot : Nat) (w : IndexWord) => m.locals[slot]? = some w.value) slots ws)
    (hrank : dims.length = dim + slots.length) (hdim : dim ≤ s.position)
    (htarget : R.target? pad = some u.position)
    (hp : ∀ p, s.position ≤ p → p < t.position → within p)
    (hin : InBounds (dims.drop dim) (ws.map Word.val) →
      Via setting.registry R span within t.position (m.state a stack) q c)
    (hout : ¬ InBounds (dims.drop dim) (ws.map Word.val) →
      Via setting.registry R span within u.position (m.state a stack) q c) :
    Via setting.registry R span within s.position (m.state a stack) q c := by
  induction slots generalizing dim s ws with
  | nil =>
      cases hslots
      obtain ⟨-, rfl⟩ := h.pure
      refine hin ?_
      rw [List.drop_of_length_le (by simp [hrank])]
      exact .nil
  | cons slot slots ih =>
      obtain ⟨w, ws, hslot, hothers, rfl⟩ := List.forall₂_cons_left_iff.mp hslots
      have hlt : dim < dims.length := by simp [hrank]
      obtain ⟨d, hd⟩ : ∃ d, dims[dim]? = some d := ⟨_, List.getElem?_eq_getElem hlt⟩
      have hdrop : dims.drop dim = d :: dims.drop (dim + 1) := by
        obtain ⟨_, rfl⟩ := List.getElem?_eq_some_iff.mp hd
        exact List.drop_eq_getElem_cons hlt
      have hbounds : InBounds (dims.drop dim) ((w :: ws).map Word.val) ↔
          (0 ≤ w.val ∧ w.val < d) ∧ InBounds (dims.drop (dim + 1)) (ws.map Word.val) := by
        rw [hdrop, List.map_cons]
        exact List.forall₂_cons
      rw [hbounds] at hin hout
      obtain ⟨zero, hzero, hzeroValue⟩ := IndexWord.exists_of_lt (n := 0) (by decide)
      obtain ⟨length, hlength, hlengthValue⟩ :=
        IndexWord.exists_of_lt (hshort d (List.mem_of_getElem? hd))
      simp only [Emit.checkIndices, ↓Job.Emits.seq_iff, Job.Emits.instrs_cons_iff,
        Job.Emits.instrs_one_iff] at h
      obtain ⟨s₁, hload, s₂, hconst, s₆, ⟨s₃, hless, s₄, hjump, s₅, hload', hloadContainer⟩, s₇,
        hdimension, s₉, ⟨s₈, hless', hjump'⟩, hrest⟩ := h
      have hconst : (Job.ofRoutine setting hR).Emits start (Emit.instr (.const (.num (.i32 0)))) s₁ ()
        s₂ := hconst
      refine .instr hload (fun _ => rfl) (hp _ (by grind) (by grind)) (.loadLocal _ _ _ hslot) ?_
      refine .instr hconst (fun _ => rfl) (hp _ (by grind) (by grind)) (.const _ _ _ _) ?_
      have hcompare : Value.compare .lt w.value (.int 0) = .ok (Decidable.decide (w.val < 0)) := by
        have hzeroValue : Value.int 0 = zero.value := hzeroValue
        rw [hzeroValue, IndexWord.compare_lt, hzero]
        rfl
      refine .instr hless (fun _ => rfl) (hp _ (by grind) (by grind)) (.compare _ _ _ hcompare) ?_
      refine .branch hjump (fun _ => rfl) (hp _ (by grind) (by grind)) (.jumpIfTrue _ _ _ _ htarget) ?_ ?_
      · intro hnegative
        exact hout fun hall => by simp [Value.isTruthy] at hnegative; omega
      · intro hpositive
        have hpositive : 0 ≤ w.val := by simpa [Value.isTruthy] using hpositive
        refine .instr hload' (fun _ => rfl) (hp _ (by grind) (by grind)) (.loadLocal _ _ _ hslot) ?_
        refine .instr hloadContainer (fun _ => rfl) (hp _ (by grind) (by grind))
          (.loadLocal _ _ _ hcontainer) ?_
        have hbelow : dim < Run.depthLimit := Nat.lt_of_le_of_lt hdim hload.position_lt
        refine .loadDimension hdimension hholds hd hbelow (fun p hp' hp'' => hp p (by grind) (by grind)) ?_
        have hcompare : Value.compare .lt w.value (.int d) = .ok (Decidable.decide (w.val < d)) := by
          rw [hlengthValue, IndexWord.compare_lt, hlength]
        refine .instr hless' (fun _ => rfl) (hp _ (by grind) (by grind)) (.compare _ _ _ hcompare) ?_
        refine .branch hjump' (fun _ => rfl) (hp _ (by grind) (by grind))
          (.jumpIfFalse _ _ _ _ htarget) ?_ ?_
        · intro habove
          exact hout fun hall => by simp [Value.isTruthy] at habove; omega
        · intro hbelow
          have hbelow : w.val < d := by simpa [Value.isTruthy] using hbelow
          refine ih hrest hothers (by simpa [Nat.add_assoc, Nat.add_comm 1] using hrank) (by grind)
            (fun p hp' hp'' => hp p (by grind) hp'') (fun hall => hin ⟨⟨hpositive, hbelow⟩, hall⟩)
            fun hall => hout fun h => hall h.2

end Run.Via

/-! ## Elements as places -/

/-- The operands of an element are in their temporaries: a small container with the dimensions and the
items, and the indices. -/
structure Place.Held (p : Place) (m : Memory) (v : Value) (dims : List Nat) (items : Array Value)
    (ws : List IndexWord) : Prop where
  container : ∃ slot, p.receiver = some slot ∧ m.locals[slot]? = some v
  indices : List.Forall₂ (fun (slot : Nat) (w : IndexWord) => m.locals[slot]? = some w.value) p.indices ws
  holds : m.heap.Holds p.kind v dims items
  small : IsSmall dims items
  rank : dims.length = p.indices.length

/-- The code from `s` to `t` that prepares an element as a place: that of its container, of its indices
and of the checks, with an exit at the pad. -/
structure ElementCode (hR : R.WithinLimits) (setting : Setting) (start : Nat) (pad : Label)
    (receiver : Expr) (args : List Expr) (p : Place) (s t : Emission) where
  container : Nat
  result : Emitted
  loaded : Emission
  stored : Emission
  checked : Emission
  base : (Job.ofRoutine setting hR).Emits start (receiver.toNode.receiver (some pad) .value false) s
    result loaded
  stores : (Job.ofRoutine setting hR).Emits start (Emit.spill receiver.ty) loaded container stored
  indices : IndexCodes hR setting start (some pad) [container] args p.indices stored checked
  checks : (Job.ofRoutine setting hR).Emits start (Emit.checkIndices pad p.kind container 0 p.indices)
    checked () t
  element : Emit.elementKind? receiver.ty = some (p.kind, args.length)
  receiver_eq : p.receiver = some container
  length_eq : p.indices.length = args.length

/-- An element is prepared with checks. -/
theorem ElementCode.of_emits {ty : Ty} {receiver : Expr} {args : List Expr} {pad : Label} {p : Place}
    {used : Bool} (hchecks : setting.options.boundsChecks = true)
    (h : (Job.ofRoutine setting hR).Emits start
      ((Expr.node (.index receiver args none) ty).toNode.place (some pad) false) s (p, used) t) :
    used = true ∧ Nonempty (ElementCode hR setting start pad receiver args p s t) := by
  rw [Expr.toNode_node] at h
  have h : (Job.ofRoutine setting hR).Emits start
      (Emit.elementPlace ty receiver.toNode (args.map Expr.toNode) (some pad) false) s (p, used) t := h
  have hty : receiver.toNode.ty = receiver.ty := Expr.toNode_ty receiver
  unfold Emit.elementPlace at h
  split at h
  · exact h.mismatch.elim
  · next kind rank hkind =>
    split at h
    · obtain ⟨_, _, _, h⟩ := h.bind
      exact h.fail.elim
    · next hrank =>
      have hrank : args.length = rank := by simpa using hrank
      obtain ⟨⟨container, slots, usedPlain⟩, u, hplain, h⟩ := h.bind
      obtain ⟨checked, v, hcheck, h⟩ := h.bind
      obtain ⟨heq, rfl⟩ := h.pure
      cases heq
      -- Without extension every container is prepared in the same way.
      have hplain : (Job.ofRoutine setting hR).Emits start (do
          let emitted ← receiver.toNode.receiver (some pad) .value false
          let container ← Emit.spill receiver.toNode.ty
          let indices ← Emit.spillIndices (some pad) (args.map Expr.toNode)
          pure (container, indices.1, emitted.usedExit || indices.2)) s
          (container, slots, usedPlain) u := by
        split at hplain
        · exact hplain
        · simpa using hplain
        · exact hplain
      obtain ⟨_, _, hoptions, hcheck⟩ := Job.Emits.bind (x := Emit.options) hcheck
      obtain ⟨rfl, rfl⟩ := hoptions.options
      rw [if_pos (show (Job.ofRoutine setting hR).setting.options.boundsChecks = true from hchecks)]
        at hcheck
      obtain ⟨_, w, hcheck, hdone⟩ := hcheck.bind
      obtain ⟨rfl, rfl⟩ := hdone.pure
      obtain ⟨result, loaded, hbase, hplain⟩ := hplain.bind
      obtain ⟨container', stored, hspill, hplain⟩ := hplain.bind
      obtain ⟨⟨slots', usedIndices⟩, u', hindices, hplain⟩ := hplain.bind
      obtain ⟨heq, rfl⟩ := hplain.pure
      cases heq
      have hheld : ∀ k ∈ [container], stored.Holding (.local k) := by
        intro k hk
        rw [List.mem_singleton.mp hk]
        exact hspill.spillHolding.1
      obtain ⟨hcodes, hlength⟩ := IndexCodes.of_emits hheld hindices
      rw [hty] at hspill hkind
      exact ⟨by simp, ⟨container, result, loaded, stored, _, hbase, hspill, hcodes, hcheck,
        by rw [hkind, hrank], rfl, hlength⟩⟩

namespace ElementCode

variable {pad : Label} {receiver : Expr} {args : List Expr} {p : Place}

/-- The checks lead behind them if every index lies within its dimension, and else to the exit. -/
structure Guards (c : ElementCode hR setting start pad receiver args p s t) : Prop where
  inside : ∀ (span : Span) (a : Around) (m : Memory) (stack : List Value) (v : Value)
    (dims : List Nat) (items : Array Value) (ws : List IndexWord), p.Held m v dims items ws →
    InBounds dims (ws.map Word.val) → ∀ land : Emission, R.target? pad = some land.position →
    Run.Via setting.registry R span (fun q => c.checked.position ≤ q ∧ q < t.position)
      c.checked.position (m.state a stack) t.position (m.state a stack)
  outside : ∀ (span : Span) (a : Around) (m : Memory) (stack : List Value) (v : Value)
    (dims : List Nat) (items : Array Value) (ws : List IndexWord), p.Held m v dims items ws →
    ¬ InBounds dims (ws.map Word.val) → ∀ land : Emission, R.target? pad = some land.position →
    Run.Via setting.registry R span (fun q => c.checked.position ≤ q ∧ q < t.position)
      c.checked.position (m.state a stack) land.position (m.state a stack)

/-- The checks of an element do so. -/
theorem guards (c : ElementCode hR setting start pad receiver args p s t) : c.Guards := by
  have hcontainer : ∀ {m : Memory} {v : Value} {dims : List Nat} {items : Array Value}
      {ws : List IndexWord}, p.Held m v dims items ws → m.locals[c.container]? = some v := by
    intro m v dims items ws hheld
    obtain ⟨slot, hslot, hvalue⟩ := hheld.container
    rw [c.receiver_eq] at hslot
    cases hslot
    exact hvalue
  constructor
  · intro span a m stack v dims items ws hheld hin land hland
    refine .checkIndices c.checks hheld.holds hheld.small.short (hcontainer hheld) hheld.indices
      (by simpa using hheld.rank) (Nat.zero_le _) hland (fun q hq hq' => ⟨hq, hq'⟩)
      (fun _ => .refl _ _) fun hout => ?_
    exact absurd hin hout
  · intro span a m stack v dims items ws hheld hout land hland
    refine .checkIndices c.checks hheld.holds hheld.small.short (hcontainer hheld) hheld.indices
      (by simpa using hheld.rank) (Nat.zero_le _) hland (fun q hq hq' => ⟨hq, hq'⟩)
      (fun hin => ?_) fun _ => .refl _ _
    exact absurd hin hout

/-- The temporaries of an element are in use behind its code. -/
theorem holding (c : ElementCode hR setting start pad receiver args p s t) {k : Nat}
    (hk : k ∈ c.container :: p.indices) : t.Holding (.local k) := by
  obtain ⟨hretains, hindices⟩ := c.indices.holding
  have hchecked : c.checked.Holding (.local k) := by
    rcases List.mem_cons.mp hk with rfl | hk
    · exact c.stores.spillHolding.1.later hretains
    · exact hindices k hk
  exact hchecked.later c.checks.retains

end ElementCode

end Arbor
