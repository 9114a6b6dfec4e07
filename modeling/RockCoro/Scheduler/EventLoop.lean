import RockCoro.Timer.TimeWheel
import Mathlib.Data.Fintype.Basic

/-!
# The scheduler

`scheduler/scheduler.cpp` and `scheduler/tl_scheduler.cpp` with the thread of the timer, before
`Scheduler::destroy` is called. `jobQueue` is the job queue as a FIFO, `semJobQueue` the value of
its semaphore. The state of a worker is its `TLScheduler` and its place in `event_loop`; between two
places a thread touches nothing that another thread reads. `none` as a current coroutine is the main
coroutine of the worker.

A switch is modelled by what it does to the contexts: the one switched out is saved, unless by
`ctx_exit_swap`, and the one switched in is resumed, or entered by `ctx_entry_swap`.
-/

namespace RockCoro

/-- `SCHEDULER_NUM_WORKERS`. -/
abbrev SCHEDULER_NUM_WORKERS : ℕ := 10

/-- Where a worker stands in `Scheduler::event_loop`. -/
inductive WorkerPc
  /-- At the head of the loop. -/
  | head (yieldFromCoroutine : Bool)
  /-- In `job_pop`, after `sem_wait`. -/
  | popping
  /-- In the code of the current coroutine. -/
  | running
  /-- In the `job_push` of `coroutine_create`, before `sem_post`. -/
  | posting
  | flushPush
  | flushDestroy (yieldFromCoroutine : Bool)
  | flushAddEvent (yieldFromCoroutine : Bool)
  deriving DecidableEq

/-- Where the thread of the timer stands in `TimerManager::event_loop`. -/
inductive TimerPc
  | draining
  | ticking (w : Fin TIMEWHEEL_NUM_WHEELS)
  /-- In the `job_push` of `tick`, before `sem_post`. -/
  | posting (w : Fin TIMEWHEEL_NUM_WHEELS)
  deriving DecidableEq

/-- A `Coroutine`: whether it is allocated, `started_`, whether its context holds the registers of
its last switch out, and how often it was entered by `ctx_entry_swap`. -/
structure Coroutine where
  allocated : Bool := false
  started : Bool := false
  saved : Bool := false
  entrySwaps : ℕ := 0
  deriving DecidableEq

/-- What `coroutine_swap` does to the coroutine that it switches to: `ctx_swap`, or `init` and
`ctx_entry_swap` the first time. -/
def Coroutine.switchIn (x : Coroutine) : Coroutine :=
  if x.started then { x with saved := false }
  else { x with started := true, entrySwaps := x.entrySwaps + 1 }

/-- The `TLScheduler` of a worker. -/
structure TLScheduler (C : Type) where
  pc : WorkerPc := .head false
  curCoroutine : Option C := none
  /-- The context of the main coroutine holds the registers of its last switch out. -/
  mainSaved : Bool := false
  pendingPush : Option C := none
  pendingDestroy : Option C := none
  pendingAddEvent : Option C := none

/-- The scheduler, its workers `W` and the timer. `posts` counts the calls of `coroutine_create` by
other threads that have pushed and not posted; `stray` are coroutines that the timer linked into
memory outside of its slots. -/
structure Scheduler (C W : Type) where
  jobQueue : List C
  semJobQueue : ℕ
  workers : W → TLScheduler C
  coroutines : C → Coroutine
  timer : TimerManager C
  timerPc : TimerPc
  posts : ℕ
  stray : List C

/-- A step: of another thread in `coroutine_create`, of a worker in the event loop or in a
coroutine, or of the thread of the timer. -/
inductive Action (C W : Type)
  | create (c : C)
  | post
  | loop (w : W)
  | yield (w : W)
  | sleep (w : W) (delayMS : Int)
  | spawn (w : W) (c : C)
  | exit (w : W)
  | timer
  deriving DecidableEq

namespace Scheduler

variable {C W : Type} [DecidableEq C] [DecidableEq W]

/-- The worker `w` becomes `tl`. -/
def setWorker (s : Scheduler C W) (w : W) (tl : TLScheduler C) : Scheduler C W :=
  { s with workers := Function.update s.workers w tl }

/-- The worker `w` comes to `pc`. -/
def setPc (s : Scheduler C W) (w : W) (pc : WorkerPc) : Scheduler C W :=
  s.setWorker w { s.workers w with pc := pc }

/-- The coroutine `c` becomes `x`. -/
def setCoroutine (s : Scheduler C W) (c : C) (x : Coroutine) : Scheduler C W :=
  { s with coroutines := Function.update s.coroutines c x }

/-- The enqueueing half of `job_push`. -/
def pushBack (s : Scheduler C W) (c : C) : Scheduler C W :=
  { s with jobQueue := s.jobQueue ++ [c] }

/-- `sem_post`. -/
def semPost (s : Scheduler C W) : Scheduler C W :=
  { s with semJobQueue := s.semJobQueue + 1 }

/-! ## Switching -/

/-- `coroutine_swap` from the main coroutine of `w` to `job`. -/
def swapIn (s : Scheduler C W) (w : W) (job : C) : Scheduler C W :=
  let s := s.setWorker w { s.workers w with curCoroutine := some job, mainSaved := true }
  s.setCoroutine job (s.coroutines job).switchIn

/-- `coroutine_swap` from the coroutine `c` to the main coroutine of `w`. -/
def swapOut (s : Scheduler C W) (w : W) (c : C) : Scheduler C W :=
  let s := s.setWorker w { s.workers w with curCoroutine := none, mainSaved := false }
  s.setCoroutine c { s.coroutines c with saved := true }

/-- `coroutine_exit_swap` to the main coroutine of `w`. -/
def exitSwap (s : Scheduler C W) (w : W) : Scheduler C W :=
  s.setWorker w { s.workers w with curCoroutine := none, mainSaved := false }

/-! ## In a coroutine -/

/-- `coroutine_yield`: the coroutine is left for `flush_pending_push`. -/
def coroutineYield (s : Scheduler C W) (w : W) (c : C) : Scheduler C W :=
  let s := s.setWorker w { s.workers w with pendingPush := some c }
  (s.swapOut w c).setPc w .flushPush

/-- `coroutine_sleep`: the coroutine is left for `flush_pending_add_event`, with its delay. -/
def coroutineSleep (s : Scheduler C W) (w : W) (c : C) (delayMS : Int) : Scheduler C W :=
  let s := s.setWorker w { s.workers w with pendingAddEvent := some c }
  let s := { s with timer := s.timer.setDelay c delayMS }
  (s.swapOut w c).setPc w .flushPush

/-- The end of `coroutine_entry_function`. -/
def coroutineReturn (s : Scheduler C W) (w : W) (c : C) : Scheduler C W :=
  let s := s.setWorker w { s.workers w with pendingDestroy := some c }
  (s.exitSwap w).setPc w .flushPush

/-- `coroutine_create` up to the `sem_post` of its `job_push`. -/
def coroutineCreate (s : Scheduler C W) (c : C) : Scheduler C W :=
  (s.setCoroutine c { allocated := true }).pushBack c

/-! ## The event loop of a worker -/

/-- `flush_pending_push`; the job is pushed without a post. -/
def flushPendingPush (s : Scheduler C W) (w : W) : Scheduler C W :=
  match (s.workers w).pendingPush with
  | some c => (s.pushBack c).setWorker w { s.workers w with pendingPush := none }
  | none => s

/-- `flush_pending_destroy`. -/
def flushPendingDestroy (s : Scheduler C W) (w : W) : Scheduler C W :=
  match (s.workers w).pendingDestroy with
  | some c =>
    (s.setCoroutine c {}).setWorker w { s.workers w with pendingDestroy := none }
  | none => s

/-- `flush_pending_add_event`, with the throw of `add_event` on a node that is in a list. -/
def flushPendingAddEvent (s : Scheduler C W) (w : W) : Except Fault (Scheduler C W) :=
  match (s.workers w).pendingAddEvent with
  | some c => do
    let timer ← s.timer.addEvent c (s.timer.nodes c).delayMS
    .ok ({ s with timer := timer }.setWorker w { s.workers w with pendingAddEvent := none })
  | none => .ok s

/-- `pop_front` in `job_pop` and the switch to the job. -/
def popAndSwitch (s : Scheduler C W) (w : W) (yieldFromCoroutine : Bool) : Scheduler C W :=
  match s.jobQueue with
  | [] => s.setPc w (.head yieldFromCoroutine)
  | job :: jobs => ({ s with jobQueue := jobs }.swapIn w job).setPc w .running

/-- The next step of a worker that is not in the code of a coroutine; `none` is waiting for the
semaphore. -/
def loop (s : Scheduler C W) (w : W) : Option (Scheduler C W) :=
  match (s.workers w).pc with
  | .head false =>
    if s.semJobQueue = 0 then none
    else some ({ s with semJobQueue := s.semJobQueue - 1 }.setPc w .popping)
  | .head true => some (s.popAndSwitch w true)
  | .popping => some (s.popAndSwitch w false)
  | .running => none
  | .posting => some (s.semPost.setPc w .running)
  | .flushPush =>
    let yieldFromCoroutine := (s.workers w).pendingPush.isSome
    some ((s.flushPendingPush w).setPc w (.flushDestroy yieldFromCoroutine))
  | .flushDestroy y => some ((s.flushPendingDestroy w).setPc w (.flushAddEvent y))
  | .flushAddEvent y =>
    match s.flushPendingAddEvent w with
    | .ok s => some (s.setPc w (.head y))
    | .error _ => none

/-! ## The thread of the timer -/

/-- The slot of wheel `w` is empty: its cursor moves. -/
def endTick (s : Scheduler C W) (w : Fin TIMEWHEEL_NUM_WHEELS) : Scheduler C W :=
  match s.timer.advance w with
  | (timer, some upper) => { s with timer := timer, timerPc := .ticking upper }
  | (timer, none) => { s with timer := timer, timerPc := .draining }

/-- The next step of the timer: a round of the drain loop, or of a loop of `tick`. A negative slot
index is undefined behaviour; of its outcomes the model takes the mildest, where the node is linked
into memory that is not used. An exception ends the process. -/
def timerStep (s : Scheduler C W) : Option (Scheduler C W) :=
  match s.timerPc with
  | .draining =>
    match s.timer.drainOne with
    | .ok (none, timer) =>
      some { s with timer := timer, timerPc := .ticking s.timer.lowestTimewheel }
    | .ok (some _, timer) => some { s with timer := timer }
    | .error (.badSlot _) =>
      match s.timer.popPendingEvent with
      | (some c, timer) => some { s with timer := timer, stray := c :: s.stray }
      | (none, _) => none
    | .error _ => none
  | .ticking w =>
    match TimerManager.slotIndex (s.timer.timewheels w).curSlotIdx with
    | .error _ => none
    | .ok i =>
      match (s.timer.timewheels w).lower with
      | some lower =>
        match s.timer.cascadeRound w lower i with
        | .ok (some timer) => some { s with timer := timer }
        | .ok none => some (s.endTick w)
        | .error _ => none
      | none =>
        match s.timer.fireRound w i with
        | some (c, timer) =>
          some { { s with timer := timer }.pushBack c with timerPc := .posting w }
        | none => some (s.endTick w)
  | .posting w => some { s.semPost with timerPc := .ticking w }

/-! ## Steps and runs -/

/-- The current coroutine of a worker that is in its code. -/
def runningOn (s : Scheduler C W) (w : W) : Option C :=
  match (s.workers w).pc with
  | .running => (s.workers w).curCoroutine
  | _ => none

omit [DecidableEq C] [DecidableEq W] in
/-- A coroutine that runs on a worker is its current one. -/
theorem runningOn_eq_some {s : Scheduler C W} {w : W} {c : C} (h : s.runningOn w = some c) :
    (s.workers w).pc = .running ∧ (s.workers w).curCoroutine = some c := by
  rw [runningOn] at h
  split at h
  · exact ⟨‹_›, h⟩
  · cases h

/-- One step; `none` is a step that is not possible. `new` returns memory that is not in use. -/
def step (s : Scheduler C W) : Action C W → Option (Scheduler C W)
  | .create c =>
    if (s.coroutines c).allocated then none
    else some { s.coroutineCreate c with posts := s.posts + 1 }
  | .post => if s.posts = 0 then none else some { s.semPost with posts := s.posts - 1 }
  | .loop w => s.loop w
  | .yield w => (s.runningOn w).map fun c => s.coroutineYield w c
  | .sleep w delayMS => (s.runningOn w).map fun c => s.coroutineSleep w c delayMS
  | .spawn w c' =>
    match s.runningOn w with
    | some _ =>
      if (s.coroutines c').allocated then none
      else some ((s.coroutineCreate c').setPc w .posting)
    | none => none
  | .exit w => (s.runningOn w).map fun c => s.coroutineReturn w c
  | .timer => s.timerStep

/-- The scheduler after `init`. -/
def init (nodes : C → TimeWheelLinkedListNode C) : Scheduler C W :=
  { jobQueue := []
    semJobQueue := 0
    workers := fun _ => {}
    coroutines := fun _ => {}
    timer := TimerManager.init nodes
    timerPc := .draining
    posts := 0
    stray := [] }

/-- The states of the runs whose steps all meet `P`. -/
inductive Reachable (P : Scheduler C W → Action C W → Prop) : Scheduler C W → Prop
  | init (nodes : C → TimeWheelLinkedListNode C) : Reachable P (init nodes)
  | step {s a s'} (hr : Reachable P s) (hp : P s a) (hs : s.step a = some s') : Reachable P s'

/-- The fresh scheduler for one coroutine. -/
def initUnit : Scheduler Unit (Fin SCHEDULER_NUM_WORKERS) := init fun _ => ⟨none, 0⟩

/-- A list of steps. -/
def run (s : Scheduler C W) (as : List (Action C W)) : Option (Scheduler C W) := as.foldlM step s

/-- Executing actions extends a run. -/
theorem Reachable.run {P : Scheduler C W → Action C W → Prop} {s s' : Scheduler C W}
    {as : List (Action C W)} (hr : Reachable P s) (hp : ∀ a ∈ as, ∀ s, P s a)
    (hs : s.run as = some s') : Reachable P s' := by
  induction as generalizing s with
  | nil =>
    cases hs
    exact hr
  | cons a as ih =>
    rw [Scheduler.run, List.foldlM_cons] at hs
    cases hstep : s.step a with
    | none => simp [hstep] at hs
    | some s₁ =>
      simp only [hstep, Option.bind_eq_bind, Option.bind_some] at hs
      exact ih (hr.step (hp a List.mem_cons_self s) hstep)
        (fun b hb => hp b (List.mem_cons_of_mem _ hb)) hs

end Scheduler

end RockCoro
