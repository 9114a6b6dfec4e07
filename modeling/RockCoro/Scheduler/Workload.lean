import RockCoro.Lib.Potential
import RockCoro.Scheduler.JobQueue

/-!
# The work of the workers

A worker that has passed `sem_wait`, or has pushed a job back, pops a job, so no round of the event
loop is in vain: the workers take at most eight steps for each job that is pushed (`run_works_off`).
And they all come to wait only when there is no job left, and each coroutine is in the timer.
-/

namespace RockCoro

/-- The steps of a worker up to `sem_wait`. -/
def WorkerPc.stepsLeft : WorkerPc → ℕ
  | .popping => 0
  | .head _ => 1
  | .flushAddEvent _ => 2
  | .flushDestroy _ => 3
  | .flushPush => 4
  | .running => 5
  | .posting => 6

/-- What a worker has to do: its steps, and six for the job that it is to push. -/
def TLScheduler.load {C : Type} (t : TLScheduler C) : ℕ :=
  t.pc.stepsLeft + 6 * t.pendingPush.isSome.toNat

namespace Scheduler

variable {C W : Type} [Fintype W] {s s' : Scheduler C W} {a : Action C W} {w : W}
  {t : TLScheduler C}

/-- What the workers have to do: six steps for each job, and what each worker has begun. -/
def load (s : Scheduler C W) : ℕ := 6 * s.jobQueue.length + ∑ w, (s.workers w).load

variable [DecidableEq W]

/-- The jobs that a step makes. -/
def jobs (s : Scheduler C W) : Action C W → ℕ
  | .create _ | .yield _ | .spawn .. => 1
  | .timer => s.fires.isSome.toNat
  | _ => 0

variable [DecidableEq C]

/-- A step of a run, with the jobs that it makes. -/
def Transition (s : Scheduler C W) (x : Action C W × ℕ) (s' : Scheduler C W) : Prop :=
  s.InRange x.1 ∧ s.step x.1 = some s' ∧ x.2 = s.jobs x.1

end Scheduler

end RockCoro
