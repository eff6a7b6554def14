import Trellis.Expr.Eval
import Trellis.Proofs.Value.Revise

/-!
# States revised

A machine, a frame and a scope hold values, and a revision of the functions in these values is one of
the whole (`Machine.revise`, `Frame.revise`, `Scope.revise`). Looking names up and writing variables
commute with it: `frame_lookup_revise`, `store_revise`.
-/

namespace Trellis

open Value

/-! ## 1. States -/

/-- A machine with functions revised. -/
def Machine.revise (g : Revision) (m : Machine) : Machine :=
  { m with globals := m.globals.map (reviseFields g) }

/-- The names of a page with functions revised. -/
def Layers.revise (g : Revision) (l : Layers) : Layers :=
  ⟨reviseFields g l.bindings, reviseFields g l.data, reviseFields g l.exports⟩

/-- A frame with functions revised. -/
def Frame.revise (g : Revision) (r : Frame) : Frame :=
  { r with locals := reviseFields g r.locals }

/-- A scope with functions revised. -/
def Scope.revise (g : Revision) : Scope → Scope
  | .page layers => .page (layers.revise g)
  | .frame r => .frame (r.revise g)

/-- An end with functions revised. -/
def Flow.revise (g : Revision) : Flow → Flow
  | .next => .next
  | .left v => .left (v.revise g)

section

variable {g : Revision}

theorem module?_revise (m : Machine) (module : Nat) :
    (m.revise g).module? module = (m.module? module).map (reviseFields g) :=
  List.getElem?_map

theorem write_revise (m : Machine) (module : Nat) (name : String) (v : Value) :
    (m.revise g).write module name (v.revise g) = (m.write module name v).revise g := by
  unfold Machine.write Machine.revise
  dsimp only
  rw [modify_map (reviseFields g) _ _ fun d => insert_revise d name v]

theorem layers_lookup_revise (l : Layers) (name : String) :
    (l.revise g).lookup name = (l.lookup name).map (Value.revise g) := by
  unfold Layers.lookup Layers.revise
  rw [get?_revise, get?_revise, get?_revise, Option.map_or, Option.map_or]

theorem frame_lookup_revise (r : Frame) (m : Machine) (name : String) :
    (r.revise g).lookup (m.revise g) name = (r.lookup m name).map (Value.revise g) := by
  unfold Frame.lookup Frame.revise
  dsimp only
  rw [get?_revise, module?_revise]
  cases Dict.get? r.locals name with
  | some v => rfl
  | none =>
    cases m.module? r.module with
    | none => rfl
    | some globals =>
      dsimp only [Option.map_none, Option.map_some]
      rw [get?_revise, get?_revise]
      cases Dict.get? globals name with
      | some v => rfl
      | none =>
        dsimp only [Option.map_none]
        split
        · cases Dict.get? globals "module" with
          | none => rfl
          | some v => exact congrArg some (getPath_revise v _)
        · rfl

/-- What a name stands for, nothing counting as `undefined`. -/
theorem getD_lookup_revise (r : Frame) (m : Machine) (name : String) :
    ((r.revise g).lookup (m.revise g) name).getD .undefined =
      ((r.lookup m name).getD .undefined).revise g := by
  rw [frame_lookup_revise]
  cases r.lookup m name <;> rfl

/-! ## 2. Variables -/

theorem declares_revise (r : Frame) (m : Machine) (name : String) :
    (r.revise g).declares (m.revise g) name = r.declares m name := by
  unfold Frame.declares Frame.revise
  dsimp only
  rw [has_revise, module?_revise]
  cases m.module? r.module with
  | none => rfl
  | some globals => exact congrArg (_ || ·) (has_revise globals name)

theorem frame_write_revise (r : Frame) (m : Machine) (name : String) (v : Value) :
    (r.revise g).write (m.revise g) name (v.revise g) =
      Prod.map (Frame.revise g) (Machine.revise g) (r.write m name v) := by
  obtain ⟨locals, module, atTop⟩ := r
  unfold Frame.write Frame.revise
  cases atTop with
  | true => exact congrArg (_, ·) (write_revise m module name v)
  | false =>
    dsimp only [Prod.map]
    rw [insert_revise]
    rfl

theorem combine_revise (hg : g.Apart) (op : AssignOp) (current v : Value) :
    op.combine (current.revise g) (v.revise g) = (op.combine current v).revise g := by
  cases op with
  | set => rfl
  | add => exact binary_revise hg .add current v
  | sub => exact binary_revise hg .sub current v

theorem store_revise (hg : g.Apart) (r : Frame) (m : Machine) (root : String) (keys : List Key)
    (op : AssignOp) (v : Value) :
    (r.revise g).store (m.revise g) root keys op (v.revise g) =
      Prod.map (Frame.revise g) (Machine.revise g) (r.store m root keys op v) := by
  have htarget : (r.revise g).target (m.revise g) root keys = r.target m root keys := by
    rw [Frame.target, Frame.target, declares_revise]
  unfold Frame.store
  rw [htarget]
  rcases r.target m root keys with ⟨root, keys⟩
  dsimp only
  rw [getD_lookup_revise, getPath_revise, combine_revise hg, setPath_revise, frame_write_revise]

theorem bindParams_revise (ps : List String) (vs : List Value) (locals : Dict Value) :
    bindParams ps (vs.map (Value.revise g)) (reviseFields g locals) =
      reviseFields g (bindParams ps vs locals) := by
  induction ps generalizing vs locals with
  | nil => rfl
  | cons p ps ih =>
    cases vs with
    | nil =>
      have hnone := ih [] (Dict.insert locals p .undefined)
      rw [← insert_revise] at hnone
      exact hnone
    | cons v vs =>
      have hsome := ih vs (Dict.insert locals p v)
      rw [← insert_revise] at hsome
      exact hsome

end

end Trellis
