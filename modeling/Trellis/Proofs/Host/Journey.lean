import Trellis.Host.Events
import Trellis.Proofs.Host.Reachable

/-!
# The journey of an event

An event goes inwards to its target and outwards again, and every node on the way is a stop in each
of the two phases. What `Host.path` gives is the whole way outwards (`Forest.outward`), as a forest
has no way without an end, so `Event.stops` is what all the stops on the way bind. The journey
breaks off behind the first stop that catches the event (`Event.untilCaught_map`), whether anything
handles it there or not.
-/

namespace Trellis

/-! ## 1. The way outwards -/

namespace Host

/-- A node and the parents around it, one behind the other, up to one that stands nowhere. -/
inductive Outward (h : Host) : Handle → List Handle → Prop
  | free {n : Handle} (hn : h.parent? n = none) : Outward h n [n]
  | inside {n p : Handle} {way : List Handle} (hn : h.parent? n = some p) (hway : Outward h p way) :
      Outward h n (n :: way)

/-- There is one way outwards at most. -/
theorem Outward.unique {h : Host} {n : Handle} {way other : List Handle} (hway : h.Outward n way)
    (hother : h.Outward n other) : other = way := by
  induction hway generalizing other with
  | free hn =>
    cases hother with
    | free => rfl
    | inside hp => cases hn.symm.trans hp
  | inside hn _ ih =>
    cases hother with
    | free hp => cases hn.symm.trans hp
    | inside hp hrest =>
      obtain rfl := Option.some.inj (hn.symm.trans hp)
      rw [ih hrest]

/-- **In a forest the path of a node is its way outwards**: going outwards comes to an end. -/
theorem Forest.outward {h : Host} (hf : h.Forest) (n : Handle) : h.Outward n (h.path n) := by
  induction n using hf.wellFounded.induction with
  | _ n ih =>
    cases hn : h.parent? n with
    | none =>
      rw [hf.path_of_free hn]
      exact .free hn
    | some p =>
      rw [hf.path_of_parent? hn]
      exact .inside hn (ih p hn)

end Host

/-! ## 2. Stops -/

/-- A node on the way of an event, in one of the two phases. -/
structure Stop where
  capture : Bool
  node : Handle

namespace Stop

/-- The stops along a way outwards: first inwards to where it begins, then outwards along it. -/
def along (way : List Handle) : List Stop := way.reverse.map (mk true) ++ way.map (mk false)

/-- What binds an event at a stop, in the order in which the node listens. -/
def bindings (h : Host) (e : Event) (s : Stop) : List Binding :=
  (h.listeners s.node).filter fun b => b.capture = s.capture ∧ b.name = e.name

/-- Something at the stop catches the event. -/
def Catches (h : Host) (e : Event) (s : Stop) : Prop := ∃ b ∈ s.bindings h e, b.catches = true

theorem bindings_eq (h : Host) (e : Event) (s : Stop) :
    s.bindings h e = e.matching h s.capture s.node := by
  rw [bindings, Event.matching]
  refine List.filter_congr fun b _ => ?_
  rw [Bool.eq_iff_iff, decide_eq_true_iff, Bool.and_eq_true, beq_iff_eq, beq_iff_eq]

theorem any_catches_iff {h : Host} {e : Event} {s : Stop} :
    (s.bindings h e).any Binding.catches = true ↔ s.Catches h e := List.any_eq_true

end Stop

/-- What an event meets is what binds it at the stops along the path of its target. -/
theorem Event.stops_eq (e : Event) (h : Host) :
    e.stops h = (Stop.along (h.path e.target)).map (Stop.bindings h e) := by
  rw [funext (Stop.bindings_eq h e), Event.stops, Stop.along, List.map_append, List.map_map,
    List.map_map]
  rfl

/-! ## 3. Breaking off -/

/-- A list up to the first element with a property, that one included; all of it if there is none. -/
inductive UpTo {α : Type} (p : α → Prop) : List α → List α → Prop
  | all {l : List α} (hnone : ∀ x ∈ l, ¬ p x) : UpTo p l l
  | first {before after : List α} {x : α} (hnone : ∀ y ∈ before, ¬ p y) (hx : p x) :
      UpTo p (before ++ x :: after) (before ++ [x])

/-- One more element in front, without the property. -/
theorem UpTo.cons {α : Type} {p : α → Prop} {l front : List α} {x : α} (hx : ¬ p x)
    (hl : UpTo p l front) : UpTo p (x :: l) (x :: front) := by
  cases hl with
  | all hnone => exact .all (List.forall_mem_cons.mpr ⟨hx, hnone⟩)
  | first hnone hy => exact .first (List.forall_mem_cons.mpr ⟨hx, hnone⟩) hy

/-- **The bindings until an event is caught are those of the stops up to the first that catches it**,
    and all that binds the event at that stop is among them. -/
theorem Event.untilCaught_map (h : Host) (e : Event) (stops : List Stop) :
    ∃ visited, UpTo (Stop.Catches h e) stops visited ∧
      Event.untilCaught (stops.map (Stop.bindings h e)) = visited.flatMap (Stop.bindings h e) := by
  induction stops with
  | nil => exact ⟨[], .all (List.forall_mem_nil _), rfl⟩
  | cons s rest ih =>
    rw [List.map_cons, Event.untilCaught]
    by_cases hs : s.Catches h e
    · refine ⟨[s], .first (List.forall_mem_nil _) hs, ?_⟩
      rw [if_pos (Stop.any_catches_iff.mpr hs), List.flatMap_singleton]
    · obtain ⟨visited, hupTo, heq⟩ := ih
      refine ⟨s :: visited, hupTo.cons hs, ?_⟩
      rw [if_neg fun hany => hs (Stop.any_catches_iff.mp hany), heq, List.flatMap_cons]

/-! ## 4. Deliveries -/

/-- **An event goes inwards along the one way to its target, then outwards, and breaks off behind the
    first stop that catches it.** Whatever operations led to the host, the handlers that run are
    those that the bindings at the stops up to there name, in order, and as many as these bindings
    find. -/
theorem dispatch_journey {α : Type} (ops : List Host.Op) (e : Event) (handlers : Handlers α) :
    ∃ way visited,
      (Host.after ops).Outward e.target way ∧
      (∀ other, (Host.after ops).Outward e.target other → other = way) ∧ way.Nodup ∧
      UpTo (Stop.Catches (Host.after ops) e) (Stop.along way) visited ∧
      dispatch (Host.after ops) e handlers =
        (visited.flatMap (Stop.bindings (Host.after ops) e)).filterMap
          (fun b => handlers.get? b.handler) ∧
      (dispatch (Host.after ops) e handlers).length =
        (visited.flatMap (Stop.bindings (Host.after ops) e)).countP
          fun b => (handlers.get? b.handler).isSome := by
  have hf := Host.forest_after ops
  generalize Host.after ops = h at hf
  have hway := hf.outward e.target
  obtain ⟨visited, hupTo, heq⟩ := Event.untilCaught_map h e (Stop.along (h.path e.target))
  have hruns : dispatch h e handlers =
      (visited.flatMap (Stop.bindings h e)).filterMap fun b => handlers.get? b.handler := by
    rw [dispatch, e.stops_eq, heq]
  refine ⟨h.path e.target, visited, hway, fun _ => hway.unique, hf.nodup_outwards _ _, hupTo, hruns,
    ?_⟩
  rw [hruns, List.length_filterMap_eq_countP]

end Trellis
