import RockCoro.Scheduler.Effects
import RockCoro.Scheduler.JobQueue
import RockCoro.Timer.Rounds

/-!
# The timer among the other threads

What a step of the scheduler does to the timer: nothing (`Unclocked`), a call of `coroutine_sleep`
or of `add_event` by a worker, or a step of the timer's own thread, of which there are six kinds
(`TimerMove`). The invariant `Clocked` says in addition how far a tick is.
-/

namespace RockCoro

open TimerManager (Remaining carried late)

/-- The ticks that have begun and not yet moved the lowest cursor. -/
def TimerPc.begun : TimerPc → ℕ
  | .draining => 0
  | .ticking w | .posting w => if w = 0 then 1 else 0

/-- The cursors from which the ticks that remain are counted. -/
def TimerPc.cursors (cur : Fin TIMEWHEEL_NUM_WHEELS → ℕ) : TimerPc → Fin TIMEWHEEL_NUM_WHEELS → ℕ
  | .draining => cur
  | .ticking w | .posting w => carried w cur

/-- The wheels below the one that is emptied have just wrapped; only the lowest wheel pushes. -/
def TimerPc.Fits (cur : Fin TIMEWHEEL_NUM_WHEELS → ℕ) : TimerPc → Prop
  | .draining => True
  | .ticking w => ∀ v < w, cur v = 0
  | .posting w => w = 0

namespace Scheduler

variable {C W : Type}

/-- The coroutine that a worker takes from the job queue in this step. -/
def taken (s : Scheduler C W) : Action C W → Option C
  | .loop w => s.nextJob w
  | _ => none

/-- The coroutine that a worker passes to `add_event` in this step. -/
def handed (s : Scheduler C W) : Action C W → Option C
  | .loop w =>
    match (s.workers w).pc with
    | .flushAddEvent _ => (s.workers w).pendingAddEvent
    | _ => none
  | _ => none

/-- The coroutine that the timer passes to `job_push` in this step. -/
def fired (s : Scheduler C W) : Action C W → Option C
  | .timer => s.fires.map Prod.fst
  | _ => none

/-- The drain loop finds the pending list empty in this step, and a tick begins. -/
def Begins (s : Scheduler C W) : Action C W → Prop
  | .timer => s.timerPc = .draining ∧ s.timer.pendingEvents.head = none
  | _ => False

instance [DecidableEq C] (s : Scheduler C W) : (a : Action C W) → Decidable (s.Begins a)
  | .timer => inferInstanceAs (Decidable (_ ∧ _))
  | .create _ | .post | .loop _ | .yield _ | .sleep .. | .spawn .. | .exit _ =>
    inferInstanceAs (Decidable False)

/-- The step has nothing to do with the timer. -/
structure Unclocked (s s' : Scheduler C W) (a : Action C W) : Prop where
  ne_timer : a ≠ .timer
  handed : s.handed a = none
  timer : s'.timer = s.timer
  timerPc : s'.timerPc = s.timerPc
  handing : ∀ w, (s'.workers w).pendingAddEvent = (s.workers w).pendingAddEvent
  queue : ∀ c ∈ s.jobQueue, s.taken a = some c ∨ c ∈ s'.jobQueue

/-- The invariant of the scheduler, and of the course of a tick. -/
structure Clocked (s : Scheduler C W) (f : Place → List C) (cur : Fin TIMEWHEEL_NUM_WHEELS → ℕ) :
    Prop where
  inv : s.Inv f cur
  fits : s.timerPc.Fits cur

/-- A step of the thread of the timer. -/
inductive TimerMove (s : Scheduler C W) (f : Place → List C) (cur : Fin TIMEWHEEL_NUM_WHEELS → ℕ) :
    Scheduler C W → (Place → List C) → (Fin TIMEWHEEL_NUM_WHEELS → ℕ) → Prop
  /-- A coroutine goes from the pending list to a wheel. -/
  | drain {x v i timer f'} (hpc : s.timerPc = .draining) (hx : x ∈ f .pending)
    (hx' : x ∈ f' (.slot v i)) (hmem : ∀ y, y ≠ x → ∀ p, y ∈ f' p ↔ y ∈ f p)
    (hdelay : ∀ y, (timer.nodes y).delayMS = (s.timer.nodes y).delayMS)
    (hdue : ∀ d : ℕ, (s.timer.nodes x).delayMS = d →
      Remaining timer f' cur x (d + 1 + late cur d)) :
    TimerMove s f cur { s with timer := timer } f' cur
  /-- The pending list is empty, and a tick begins. -/
  | tick (hpc : s.timerPc = .draining) (hp : f .pending = []) :
    TimerMove s f cur { s with timerPc := .ticking 0 } f cur
  /-- A coroutine goes from the slot at the lowest cursor to the job queue. -/
  | fire {x i timer f'} (hpc : s.timerPc = .ticking 0) (hfires : s.fires = some (x, timer))
    (hx : x ∈ f (.slot 0 i)) (hout : ∀ p, x ∉ f' p)
    (hmem : ∀ y, y ≠ x → ∀ p, y ∈ f' p ↔ y ∈ f p) (hnodes : timer.nodes = s.timer.nodes)
    (hnow : ∀ n, Remaining s.timer f cur x n → n = 1) :
    TimerMove s f cur { { s with timer := timer }.pushBack x with timerPc := .posting 0 } f' cur
  /-- `sem_post` -/
  | post (hpc : s.timerPc = .posting 0) :
    TimerMove s f cur { s.semPost with timerPc := .ticking 0 } f cur
  /-- A coroutine goes from the slot at the cursor of an upper wheel to the wheel below. -/
  | cascade {x u} {low : Fin TIMEWHEEL_NUM_WHEELS} {i j timer f'} (hpc : s.timerPc = .ticking u)
    (hfires : s.fires = none) (hlow : (u : ℕ) = low + 1) (hx : x ∈ f (.slot u i))
    (hx' : x ∈ f' (.slot low j)) (hmem : ∀ y, y ≠ x → ∀ p, y ∈ f' p ↔ y ∈ f p)
    (hdelay : ∀ y, y ≠ x → (timer.nodes y).delayMS = (s.timer.nodes y).delayMS)
    (hrem : ∀ y n, Remaining s.timer f (carried u cur) y n →
      Remaining timer f' (carried u cur) y n) :
    TimerMove s f cur { s with timer := timer } f' cur
  /-- The slot is empty, and the cursor moves. -/
  | advance {u timer pc cur'} (hpc : s.timerPc = .ticking u) (hfires : s.fires = none)
    (hnext : pc = .draining ∨ ∃ up : Fin TIMEWHEEL_NUM_WHEELS, (up : ℕ) = u + 1 ∧ pc = .ticking up)
    (hnodes : timer.nodes = s.timer.nodes)
    (hrem : ∀ y n, Remaining s.timer f (s.timerPc.cursors cur) y (n + s.timerPc.begun) →
      Remaining timer f (pc.cursors cur') y (n + pc.begun)) :
    TimerMove s f cur { s with timer := timer, timerPc := pc } f cur'

variable {s s' : Scheduler C W} {f f' : Place → List C} {cur cur' : Fin TIMEWHEEL_NUM_WHEELS → ℕ}
  {c x : C} {d n : ℕ} {a : Action C W} {v w : W} {t : TLScheduler C}

/-! ## The other threads -/

/-- A step of a worker that touches neither the timer nor what is handed to it. -/
theorem Unclocked.of_workers (ha : a ≠ .timer) (hx : s.handed a = none)
    (hw : s'.workers = s.workers) (htimer : s'.timer = s.timer) (hpc : s'.timerPc = s.timerPc)
    (hqueue : ∀ c ∈ s.jobQueue, s.taken a = some c ∨ c ∈ s'.jobQueue) : Unclocked s s' a :=
  ⟨ha, hx, htimer, hpc, fun w => by rw [hw], hqueue⟩

variable [DecidableEq W]

/-- A worker moves. -/
theorem Unclocked.of_worker (ha : a ≠ .timer) (hx : s.handed a = none)
    (hw : s'.workers = Function.update s.workers w t)
    (ht : t.pendingAddEvent = (s.workers w).pendingAddEvent) (htimer : s'.timer = s.timer)
    (hpc : s'.timerPc = s.timerPc)
    (hqueue : ∀ c ∈ s.jobQueue, s.taken a = some c ∨ c ∈ s'.jobQueue) : Unclocked s s' a := by
  refine ⟨ha, hx, htimer, hpc, fun v => ?_, hqueue⟩
  rw [hw]
  rcases eq_or_ne v w with rfl | hv
  · rw [Function.update_self, ht]
  · rw [Function.update_of_ne hv]

variable [DecidableEq C]

/-- Taking a job has nothing to do with the timer. -/
theorem unclocked_popAndSwitch {y : Bool} (hx : s.handed (.loop w) = none)
    (hnext : s.nextJob w = s.jobQueue.head?) :
    Unclocked s (s.popAndSwitch w y) (.loop w) := by
  cases hq : s.jobQueue with
  | nil =>
    rw [Scheduler.popAndSwitch, hq]
    exact .of_worker (by simp) hx (w := w) rfl rfl rfl rfl fun c hc => .inr hc
  | cons job jobs =>
    rw [Scheduler.popAndSwitch, hq]
    refine .of_worker (by simp) hx (w := w) (t := { s.workers w with
      pc := .running, curCoroutine := some job, mainSaved := true }) ?_ rfl rfl rfl fun c hc => ?_
    · simp [swapIn, Scheduler.setPc, setWorker, setCoroutine]
    · rw [taken, hnext, hq]
      rw [hq] at hc
      rcases List.mem_cons.1 hc with rfl | hc
      · exact .inl rfl
      · exact .inr hc

/-- A round of the event loop, unless the worker calls `add_event`. -/
theorem unclocked_loop (hs : s.loop w = some s') (hx : s.handed (.loop w) = none) :
    Unclocked s s' (.loop w) := by
  cases hpc : (s.workers w).pc with
  | head y =>
    cases y with
    | false =>
      simp only [Scheduler.loop, hpc] at hs
      split at hs
      · cases hs
      · cases hs
        exact .of_worker (by simp) hx (w := w) rfl rfl rfl rfl fun c hc => .inr hc
    | true =>
      simp only [Scheduler.loop, hpc, Option.some.injEq] at hs
      exact hs ▸ unclocked_popAndSwitch hx (by rw [nextJob, hpc])
  | popping =>
    simp only [Scheduler.loop, hpc, Option.some.injEq] at hs
    exact hs ▸ unclocked_popAndSwitch hx (by rw [nextJob, hpc])
  | running =>
    simp only [Scheduler.loop, hpc] at hs
    cases hs
  | posting =>
    simp only [Scheduler.loop, hpc, Option.some.injEq] at hs
    subst hs
    exact .of_worker (by simp) hx (w := w) rfl rfl rfl rfl fun c hc => .inr hc
  | flushPush =>
    simp only [Scheduler.loop, hpc, Option.some.injEq] at hs
    subst hs
    cases hpush : (s.workers w).pendingPush with
    | none =>
      simp only [flushPendingPush, hpush]
      exact .of_worker (by simp) hx (w := w) rfl rfl rfl rfl fun c hc => .inr hc
    | some x =>
      simp only [flushPendingPush, hpush]
      refine .of_worker (by simp) hx (w := w) (t := { s.workers w with
        pc := .flushDestroy true, pendingPush := none }) ?_ rfl rfl rfl
        fun c hc => .inr (List.mem_append_left _ hc)
      simp [Scheduler.setPc, setWorker, pushBack]
  | flushDestroy y =>
    simp only [Scheduler.loop, hpc, Option.some.injEq] at hs
    subst hs
    cases hdestroy : (s.workers w).pendingDestroy with
    | none =>
      simp only [flushPendingDestroy, hdestroy]
      exact .of_worker (by simp) hx (w := w) rfl rfl rfl rfl fun c hc => .inr hc
    | some x =>
      simp only [flushPendingDestroy, hdestroy]
      refine .of_worker (by simp) hx (w := w) (t := { s.workers w with
        pc := .flushAddEvent y, pendingDestroy := none }) ?_ rfl rfl rfl fun c hc => .inr hc
      simp [Scheduler.setPc, setWorker, setCoroutine]
  | flushAddEvent y =>
    have hadd : (s.workers w).pendingAddEvent = none := by
      rw [Scheduler.handed, hpc] at hx
      exact hx
    simp only [Scheduler.loop, hpc, flushPendingAddEvent, hadd, Option.some.injEq] at hs
    subst hs
    exact .of_worker (by simp) hx (w := w) rfl rfl rfl rfl fun c hc => .inr hc

/-- A worker passes a coroutine to `add_event`. -/
theorem loop_handed (hs : s.loop w = some s') (hx : s.handed (.loop w) = some x) :
    ∃ y timer, s.timer.addEvent x (s.timer.nodes x).delayMS = .ok timer ∧
      (s.workers w).pendingAddEvent = some x ∧
      s' = { s with timer := timer, workers := Function.update s.workers w { s.workers w with
        pc := .head y, pendingAddEvent := none } } := by
  rw [Scheduler.handed] at hx
  split at hx
  · rename_i y hpc
    simp only [Scheduler.loop, hpc, flushPendingAddEvent, hx, bind, Except.bind] at hs
    cases hadd : s.timer.addEvent x (s.timer.nodes x).delayMS with
    | error e => simp [hadd] at hs
    | ok timer =>
      simp only [hadd, Option.some.injEq] at hs
      refine ⟨y, timer, rfl, hx, ?_⟩
      rw [← hs]
      simp [Scheduler.setPc, setWorker]
  · cases hx

/-- What a step does to the timer. -/
theorem step_cases (hs : s.step a = some s') :
    Unclocked s s' a ∨
    (∃ w x k, a = .sleep w k ∧ s.runningOn w = some x ∧ s' = s.coroutineSleep w x k) ∨
    (∃ w x, a = .loop w ∧ s.handed a = some x ∧ s.loop w = some s') ∨
    (a = .timer ∧ s.timerStep = some s') := by
  cases a with
  | create x =>
    simp only [Scheduler.step] at hs
    split at hs
    · cases hs
    · cases hs
      exact .inl (.of_workers (by simp) rfl rfl rfl rfl
        fun c hc => .inr (List.mem_append_left _ hc))
  | post =>
    simp only [Scheduler.step] at hs
    split at hs
    · cases hs
    · cases hs
      exact .inl (.of_workers (by simp) rfl rfl rfl rfl fun c hc => .inr hc)
  | loop w =>
    cases hx : s.handed (.loop w) with
    | none => exact .inl (unclocked_loop hs hx)
    | some x => exact .inr (.inr (.inl ⟨w, x, rfl, rfl, hs⟩))
  | yield w =>
    obtain ⟨x, hx, rfl⟩ := Option.map_eq_some_iff.1 hs
    refine .inl (.of_worker (by simp) rfl (w := w) (t := { s.workers w with
      pc := .flushPush, curCoroutine := none, mainSaved := false, pendingPush := some x }) ?_ rfl
      rfl rfl fun c hc => .inr hc)
    simp [Scheduler.coroutineYield, swapOut, Scheduler.setPc, setWorker, setCoroutine]
  | sleep w k =>
    obtain ⟨x, hx, rfl⟩ := Option.map_eq_some_iff.1 hs
    exact .inr (.inl ⟨w, x, k, rfl, hx, rfl⟩)
  | spawn w x =>
    simp only [Scheduler.step] at hs
    split at hs
    · split at hs
      · cases hs
      · cases hs
        exact .inl (.of_worker (by simp) rfl (w := w) (t := { s.workers w with pc := .posting })
          rfl rfl rfl rfl fun c hc => .inr (List.mem_append_left _ hc))
    · cases hs
  | exit w =>
    obtain ⟨x, hx, rfl⟩ := Option.map_eq_some_iff.1 hs
    refine .inl (.of_worker (by simp) rfl (w := w) (t := { s.workers w with
      pc := .flushPush, curCoroutine := none, mainSaved := false, pendingDestroy := some x }) ?_ rfl
      rfl rfl fun c hc => .inr hc)
    simp [Scheduler.coroutineReturn, exitSwap, Scheduler.setPc, setWorker]
  | timer => exact .inr (.inr (.inr ⟨rfl, hs⟩))

/-! ## The steps of the timer -/

omit [DecidableEq C] [DecidableEq W] in
/-- What remains when the cursor of an emptied slot moves. -/
theorem Clocked.remaining_moved {i : Fin TIMEWHEEL_NUM_SLOTS_PER_WHEEL}
    {u : Fin TIMEWHEEL_NUM_WHEELS} (h : s.Clocked f cur) (hpc : s.timerPc = .ticking u)
    (hp : f (.slot u i) = []) (hi : cur u = i)
    (hn : Remaining s.timer f (s.timerPc.cursors cur) c (n + s.timerPc.begun)) :
    Remaining s.timer f (Function.update cur u (cur u + 1)) c n := by
  have hfits := h.fits
  rw [hpc] at hn hfits
  rcases eq_or_ne u 0 with rfl | hu
  · rw [TimerPc.cursors, TimerManager.carried_zero, TimerPc.begun, if_pos rfl] at hn
    exact h.inv.timer.advance_lowest hp hi hn
  · obtain ⟨low, hlow⟩ : ∃ low : Fin TIMEWHEEL_NUM_WHEELS, (u : ℕ) = low + 1 := by
      have hpos : 0 < (u : ℕ) := Fin.pos_iff_ne_zero.2 hu
      exact ⟨⟨u - 1, by omega⟩, by simp only; omega⟩
    rw [TimerPc.cursors, TimerPc.begun, if_neg hu, Nat.add_zero] at hn
    exact h.inv.timer.advance_upper hp hi hlow hfits hn

omit [DecidableEq C] [DecidableEq W] in
/-- A wheel has been emptied: its cursor moves, and the tick ends or goes on to the next wheel. -/
theorem Clocked.timerMove_endTick {i : Fin TIMEWHEEL_NUM_SLOTS_PER_WHEEL}
    {u : Fin TIMEWHEEL_NUM_WHEELS} (h : s.Clocked f cur) (hpc : s.timerPc = .ticking u)
    (hfires : s.fires = none) (hp : f (.slot u i) = []) (hi : cur u = i) :
    ∃ cur', TimerMove s f cur (s.endTick u) f cur' ∧ (s.endTick u).timer.Valid f cur' ∧
      (s.endTick u).timerPc.Fits cur' := by
  have hdue := fun y n => h.remaining_moved (c := y) (n := n) hpc hp hi
  have hfits := h.fits
  rw [hpc] at hfits
  rcases Nat.lt_or_ge (cur u + 1) 60 with hlt | hge
  · rw [Scheduler.endTick, h.inv.timer.wheels.advance_lt hlt]
    exact ⟨_, .advance hpc hfires (.inl rfl) rfl hdue, h.inv.timer.setCursor hlt rfl, trivial⟩
  · -- the wheel wraps
    have h60 : cur u + 1 = 60 := le_antisymm (h.inv.timer.cur_lt u) hge
    have hvalid := h.inv.timer.setCursor (w := u) (k := 0) (n := 0) (by decide) rfl
    rw [h60] at hdue
    rw [Scheduler.endTick, h.inv.timer.wheels.advance_wrap h60]
    rcases Nat.lt_or_ge (u + 1) 3 with hu | hu
    · obtain ⟨up, hup⟩ : ∃ up : Fin TIMEWHEEL_NUM_WHEELS, (up : ℕ) = u + 1 := ⟨⟨u + 1, hu⟩, rfl⟩
      have hup0 : up ≠ 0 := by
        rintro rfl
        exact absurd hup (Nat.succ_ne_zero _).symm
      rw [h.inv.timer.wheels.upper_eq hup]
      refine ⟨_, .advance hpc hfires (.inr ⟨up, hup, rfl⟩) rfl fun y n hn => ?_, hvalid,
        fun v hv => ?_⟩
      · have hcursors : (TimerPc.ticking up).cursors (Function.update cur u 0) =
            Function.update cur u 60 := by
          rw [TimerPc.cursors, TimerManager.carried_succ hup, Function.update_idem]
        rw [hcursors, TimerPc.begun, if_neg hup0]
        exact hdue y n hn
      · rcases eq_or_ne v u with rfl | hvu
        · exact Function.update_self ..
        · rw [Function.update_of_ne hvu]
          exact hfits v (by omega)
    · have hu2 : u = 2 := Fin.ext (by have : (u : ℕ) < 3 := u.isLt; change (u : ℕ) = 2; omega)
      have htop : (s.timer.timewheels u).upper = none := by
        rw [h.inv.timer.wheels.upper, hu2]
        rfl
      rw [htop]
      refine ⟨_, .advance hpc hfires (.inl rfl) rfl fun y n hn => ?_, hvalid, trivial⟩
      obtain ⟨v, j, hy, hn⟩ := hdue y n hn
      exact ⟨v, j, hy, (TimerManager.due_wrap hu2).symm.trans hn⟩

omit [DecidableEq W] in
/-- A round of the drain loop. -/
theorem Clocked.timerMove_drain (h : s.Clocked f cur) (hpc : s.timerPc = .draining)
    (hrange : s.InRange .timer) (hs : s.timerStep = some s') :
    ∃ f', TimerMove s f cur s' f' cur ∧ s'.timer.Valid f' cur ∧ s'.timerPc.Fits cur := by
  simp only [Scheduler.timerStep, hpc] at hs
  cases hp : f .pending with
  | nil =>
    simp only [h.inv.timer.contents.drainOne_nil hp, h.inv.timer.wheels.lowest,
      Option.some.injEq] at hs
    subst hs
    exact ⟨f, .tick hpc hp, h.inv.timer, fun v hv => absurd hv (Fin.not_lt_zero v)⟩
  | cons x xs =>
    have hx : x ∈ f .pending := hp ▸ List.mem_cons_self
    rcases lt_or_ge (s.timer.nodes x).delayMS 0 with hneg | hnonneg
    · have hhead : s.timer.pendingEvents.head = some x := by
        have hchain := (h.inv.timer.contents.holds .pending).chain.head
        rw [hp] at hchain
        exact hchain
      have hidx := hrange hpc x hhead
      rw [h.inv.timer.wheels.cursor] at hidx
      obtain ⟨timer, f', j, hrun, hvalid, hx', hmem⟩ := h.inv.timer.drainOne_neg hp rfl hneg hidx
      simp only [hrun, Option.some.injEq] at hs
      subst hs
      refine ⟨f', hpc ▸ .drain hpc hx hx' hmem (fun y => TimerManager.delayMS_of_drainOne hrun)
        fun d hd => ?_, hvalid, trivial⟩
      rw [hd] at hneg
      exact absurd hneg (Int.not_lt.2 (Int.natCast_nonneg d))
    · obtain ⟨k, hk⟩ := Int.eq_ofNat_of_zero_le hnonneg
      rcases Nat.lt_or_ge k 216000 with hlt | hge
      · obtain ⟨timer, f', hrun, hvalid, -, hdelay, -, hrem, hmem⟩ :=
          h.inv.timer.drainOne_nat hp hk hlt
        simp only [hrun, Option.some.injEq] at hs
        subst hs
        obtain ⟨v, i, hx', -⟩ := id hrem
        refine ⟨f', hpc ▸ .drain hpc hx hx' hmem hdelay fun d hd => ?_, hvalid, trivial⟩
        obtain rfl : k = d := Int.ofNat.inj (hk.symm.trans hd)
        exact hrem
      · obtain ⟨msg, hthrow⟩ := h.inv.timer.contents.drainOne_thrown hp
          (hk ▸ TimerManager.pickWheel_eq_none hge)
        simp [hthrow] at hs

omit [DecidableEq W] in
/-- A round of a loop of `tick`. -/
theorem Clocked.timerMove_tick {u : Fin TIMEWHEEL_NUM_WHEELS} (h : s.Clocked f cur)
    (hpc : s.timerPc = .ticking u) (hs : s.timerStep = some s') :
    ∃ f' cur', TimerMove s f cur s' f' cur' ∧ s'.timer.Valid f' cur' ∧ s'.timerPc.Fits cur' := by
  have hfits := h.fits
  rw [hpc] at hfits
  obtain ⟨i, hi⟩ : ∃ i : Fin TIMEWHEEL_NUM_SLOTS_PER_WHEEL, cur u = i :=
    ⟨⟨cur u, h.inv.timer.cur_lt u⟩, rfl⟩
  have hidx : TimerManager.slotIndex (s.timer.timewheels u).curSlotIdx = .ok i := by
    rw [h.inv.timer.wheels.cursor, hi, TimerManager.slotIndex_natCast]
  simp only [Scheduler.timerStep, hpc, hidx] at hs
  cases hlower : (s.timer.timewheels u).lower with
  | none =>
    obtain rfl := h.inv.timer.wheels.eq_zero_of_lower hlower
    have hfires : s.fires = s.timer.fireRound 0 i := by simp only [fires, hpc, hidx, hlower]
    simp only [hlower] at hs
    cases hp : f (.slot 0 i) with
    | nil =>
      have hround := h.inv.timer.contents.fireRound_nil hp
      simp only [hround, Option.some.injEq] at hs
      subst hs
      exact ⟨f, h.timerMove_endTick hpc (hfires.trans hround) hp hi⟩
    | cons x xs =>
      obtain ⟨timer, hround, hvalid, hnodes, hnow⟩ := h.inv.timer.fireRound_remaining hp hi
      simp only [hround, Option.some.injEq] at hs
      subst hs
      exact ⟨_, cur, .fire hpc (hfires.trans hround) (hp ▸ List.mem_cons_self)
        (h.inv.timer.contents.notMem_popped hp) (fun y hy p => TimerManager.mem_update_tail hp hy)
        hnodes hnow, hvalid, rfl⟩
  | some low =>
    have hlow := h.inv.timer.wheels.eq_succ_of_lower hlower
    have hfires : s.fires = none := by simp only [fires, hpc, hidx, hlower]
    simp only [hlower] at hs
    cases hp : f (.slot u i) with
    | nil =>
      simp only [h.inv.timer.contents.cascadeRound_nil hp, Option.some.injEq] at hs
      subst hs
      exact ⟨f, h.timerMove_endTick hpc hfires hp hi⟩
    | cons x xs =>
      obtain ⟨timer, f', j, hround, hvalid, hx', hmem, hdelay, hrem⟩ :=
        h.inv.timer.cascadeRound_remaining hp hlow hfits hi
      simp only [hround, Option.some.injEq] at hs
      subst hs
      exact ⟨f', cur, hpc ▸ .cascade hpc hfires hlow (hp ▸ List.mem_cons_self) hx' hmem hdelay hrem,
        hvalid, hfits⟩

omit [DecidableEq W] in
/-- A step of the timer is one of the moves, and keeps the invariant. -/
theorem Clocked.timerMove (h : s.Clocked f cur) (hrange : s.InRange .timer)
    (hs : s.timerStep = some s') :
    ∃ f' cur', TimerMove s f cur s' f' cur' ∧ s'.timer.Valid f' cur' ∧ s'.timerPc.Fits cur' := by
  cases hpc : s.timerPc with
  | draining =>
    obtain ⟨f', hmove⟩ := h.timerMove_drain hpc hrange hs
    exact ⟨f', cur, hmove⟩
  | ticking u => exact h.timerMove_tick hpc hs
  | posting u =>
    have hu := h.fits
    rw [hpc] at hu
    obtain rfl : u = 0 := hu
    simp only [Scheduler.timerStep, hpc, Option.some.injEq] at hs
    subst hs
    exact ⟨f, cur, .post hpc, h.inv.timer, fun v hv => absurd hv (Fin.not_lt_zero v)⟩

/-! ## Every step -/

/-- What a worker's call of `add_event` does. -/
theorem Clocked.handed (h : s.Clocked f cur) (hs : s.loop w = some s')
    (hx : s.handed (.loop w) = some x) :
    ∃ y, (s.workers w).pendingAddEvent = some x ∧
      s' = { s with timer := s'.timer, workers := Function.update s.workers w { s.workers w with
        pc := .head y, pendingAddEvent := none } } ∧
      s'.timer.Valid (Function.update f .pending (f .pending ++ [x])) cur ∧ (∀ p, x ∉ f p) ∧
      ∀ y, (s'.timer.nodes y).delayMS = (s.timer.nodes y).delayMS := by
  obtain ⟨y, timer, hadd, hw, rfl⟩ := loop_handed hs hx
  have hat : s.At f x (.worker w .addEvent) := hw
  have hout : ∀ p, x ∉ f p := by
    intro p hp
    have hp : s.At f x (.timer p) := hp
    cases h.inv.exclusive.unique hat hp
  obtain ⟨timer', hrun, hvalid, -, hself, hother⟩ :=
    h.inv.timer.addEvent (k := (s.timer.nodes x).delayMS) hout
  rw [hadd] at hrun
  obtain rfl : timer = timer' := Except.ok.inj hrun
  refine ⟨y, hw, rfl, hvalid, hout, fun z => ?_⟩
  rcases eq_or_ne z x with rfl | hz
  · exact hself
  · exact hother z hz

/-- A step keeps the invariant of the ticks. -/
theorem Clocked.step (h : s.Clocked f cur) (hrange : s.InRange a) (hs : s.step a = some s') :
    ∃ f' cur', s'.Clocked f' cur' := by
  obtain ⟨f₁, cur₁, hinv⟩ := h.inv.step hrange hs
  have hfits : ∀ {f' cur'}, s'.timer.Valid f' cur' → s'.timerPc.Fits cur' → s'.timerPc.Fits cur₁ :=
    fun hvalid hfits => (hvalid.unique hinv.timer).2 ▸ hfits
  refine ⟨f₁, cur₁, hinv, ?_⟩
  rcases step_cases hs with hun | ⟨w, x, k, rfl, hx, rfl⟩ | ⟨w, x, rfl, hx, hloop⟩ | ⟨rfl, htimer⟩
  · exact hfits (hun.timer ▸ h.inv.timer) (hun.timerPc ▸ h.fits)
  · exact hfits (h.inv.coroutineSleep hx).timer h.fits
  · obtain ⟨y, hw, hs', hvalid, -⟩ := h.handed hloop hx
    exact hfits hvalid (by rw [hs']; exact h.fits)
  · obtain ⟨f', cur', -, hvalid, hfits'⟩ := h.timerMove hrange htimer
    exact hfits hvalid hfits'

/-- The invariant of the ticks holds in every state of the runs whose delays are in range. -/
theorem Reachable.clocked (hr : Reachable InRange s) : ∃ f cur, s.Clocked f cur := by
  induction hr with
  | init nodes => exact ⟨_, _, inv_init nodes, trivial⟩
  | step _ hrange hs ih =>
    obtain ⟨f, cur, h⟩ := ih
    exact h.step hrange hs

end Scheduler

end RockCoro
