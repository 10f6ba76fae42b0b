/-
  Snapshots: the structure of a value as JSON, with references followed.
-/
import Arbor.Json.Decode
import Arbor.Value.Text

set_option autoImplicit false

namespace Arbor

namespace Value

/-- Number of optionals around the core of a value. -/
def layers : Value → Nat
  | present v => layers v + 1
  | _ => 0

/-- Puts layers around the snapshot of a core. -/
def wrapSnapshot : Nat → Json → Json
  | 0, j => j
  | n + 1, j => wrapSnapshot n (.obj [("some", j)])

/-- The structure of a value, where `room` levels of containers are shown. -/
def snapshot (r : Registry) (h : Heap) : Nat → Value → Json
  | 0, _ => .str "..."
  | room + 1, v =>
      let items (vs : List Value) : Json := .arr (vs.map (snapshot r h room))
      let core : Json :=
        match v.core with
        | null | present _ => .null
        | bool b => .bool b
        | num n => .obj [(n.kind.tag, .str n.text)]
        | str s => .obj [("str", .str s)]
        | absent => .str "none"
        | struct ty fields => .obj [("struct", .str (r.typeName ty)), ("fields", items fields)]
        | object ref =>
            match h.objects[ref]? with
            | some c =>
                .obj [("object", .str (r.typeName c.ty)), ("fields", items c.fields.toList)]
            | none => .null
        | array ref =>
            match h.arrays[ref]? with
            | some c =>
                .obj [("array", .str (r.tyText c.elem)), ("dims", .ofList .ofNat c.dims),
                  ("items", items c.data.toList)]
            | none => .null
        | list ref =>
            match h.lists[ref]? with
            | some c => .obj [("list", .str (r.tyText c.elem)), ("items", items c.items.toList)]
            | none => .null
        | func ref =>
            match h.functions[ref]? with
            | some c =>
                .obj [("func", .str c.routine.name), ("arity", .ofNat c.arity),
                  ("captured", .ofNat c.captured.length)]
            | none => .null
        | fnPtr routine => .obj [("fnptr", .str routine.name)]
        | addr _ => .str "address"
      wrapSnapshot v.layers core

end Value

end Arbor
