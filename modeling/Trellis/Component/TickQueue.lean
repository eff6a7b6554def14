/-!
# Work for the next tick

Jobs wait in the order in which they came. A tick takes all that wait; what comes in while they
run waits for the tick after it.
-/
namespace Trellis

universe u

/-- Jobs that wait, the one that came first in front. -/
structure TickQueue (α : Type u) where
  jobs : List α
  deriving Repr

namespace TickQueue

variable {α : Type u}

/-- Nothing waits. -/
def empty : TickQueue α := ⟨[]⟩

/-- How many jobs wait. -/
def size (q : TickQueue α) : Nat := q.jobs.length

/-- Whether nothing waits. -/
def isEmpty (q : TickQueue α) : Bool := q.jobs.isEmpty

/-- One more job, behind the others. -/
def defer (q : TickQueue α) (job : α) : TickQueue α := ⟨q.jobs ++ [job]⟩

/-- All jobs that wait, and the queue without them. -/
def take (q : TickQueue α) : List α × TickQueue α := (q.jobs, empty)

/-- Deferring adds the job at the end. -/
theorem jobs_defer (q : TickQueue α) (job : α) : (q.defer job).jobs = q.jobs ++ [job] := rfl

/-- Nothing waits after a tick. -/
theorem jobs_take (q : TickQueue α) : q.take.2.jobs = [] := rfl

end TickQueue

end Trellis
