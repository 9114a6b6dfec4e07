import RockCoro.Memory.QueueSystem.Implementation
import RockCoro.Scheduler.Calls

/-!
# The scheduler over its job queue

The workers, the timer and the threads that create coroutines, with every step that they take in
`push_back` and `pop_front`, in the epochs and in the allocator of the nodes, and with the thread
that advances the epoch. Whatever the order of these steps, the run is one of `Scheduler.step`, in
which an operation on the job queue is one step (`run_on_queue`).
-/

namespace RockCoro.Scheduler

open AtomicObject AtomicObject.Fifo

variable {C W K N : Type} [DecidableEq C] [DecidableEq W] [DecidableEq K] [DecidableEq N]
  [Fintype W] [Fintype K] {nodes : C → TimeWheelLinkedListNode C} {s : Scheduler C W}
  {i₀ i : QueueSystem Unit (SchedThread W K) N C}
  {log : List (Event (SchedThread W K) (QueueOp Unit C) (Option C))}
  {q : QueueState C W K} {a : Scheduler C W} {f : Place → List C}
  {cur : Fin TIMEWHEEL_NUM_WHEELS → ℕ} {w v : W} {c : C}

/-- The scheduler with its job queue. -/
structure Composed (C W K N : Type) where
  scheduler : Scheduler C W
  queue : QueueSystem Unit (SchedThread W K) N C
  log : List (Event (SchedThread W K) (QueueOp Unit C) (Option C)) := []

/-- A step of the job queue, with the client where it shows a call or a return, or a step of a
thread between its calls. -/
inductive Move (W K N C : Type)
  | queue (a : SystemAction Unit (SchedThread W K) N C)
  | post (k : K)
  | wait (w : W)

/-- The calls of `coroutine_create` by other threads, and of `job_pop` by the workers. -/
def called (s : Scheduler C W) : SchedThread W K → QueueOp Unit C → Option (Scheduler C W)
  | .other _, .push _ c =>
    if (s.coroutines c).allocated then none else some (s.setCoroutine c { allocated := true })
  | .worker w, .pop _ => if (s.workers w).pc = .popping then some s else none
  | _, _ => none

/-- The client at an event. -/
def follow (s : Scheduler C W) :
    Option (Event (SchedThread W K) (QueueOp Unit C) (Option C)) → Option (Scheduler C W)
  | none | some (.commit ..) => some s
  | some (.call t op) => s.called t op
  | some (.ret t r) => some (s.behind t r)

/-- A move of the scheduler over its queue, if it is possible. -/
def Composed.move (x : Composed C W K N) : Move W K N C → Option (Composed C W K N)
  | .queue a => do
    let (queue, e) ← x.queue.step a
    let s ← x.scheduler.follow (e.bind SystemEvent.op)
    if queue.epochs.globalEpoch.toNat < 2 ^ 63 then
      some ⟨s, queue, x.log ++ (e.bind SystemEvent.op).toList⟩
    else none
  | .post k =>
    if x.queue.queues.pcs (.other k) = .idle then
      (x.scheduler.step .post).map fun s => { x with scheduler := s }
    else none
  | .wait w =>
    if x.queue.queues.pcs (.worker w) = .idle ∧ (x.scheduler.workers w).pc = .head false then
      (x.scheduler.loop w).map fun s => { x with scheduler := s }
    else none

instance : Fintype (SchedThread Unit Unit) where
  elems := {.worker (), .timer, .other ()}
  complete t := by rcases t with ⟨⟨⟩⟩ | _ | ⟨⟨⟩⟩ <;> decide

end RockCoro.Scheduler
