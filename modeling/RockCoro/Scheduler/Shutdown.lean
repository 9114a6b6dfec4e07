import RockCoro.Scheduler.EventLoop
import Mathlib.Data.Fintype.Card

/-!
# Shutdown

`Scheduler::destroy` against the workers and the timer. The loops of the threads test `running_`
before each round, which `Scheduler` leaves out; here the test is a step of its own. A worker that
has passed it may go on to `sem_wait` although the flag has been cleared since. The posts of
`destroy` are enough for these workers in every state that follows (`run_stranded`), and a worker
takes at most one permit after the flag is cleared.
-/

namespace RockCoro

/-- Where the thread that calls `Scheduler::destroy` stands. -/
inductive DestroyPc
  | notCalled
  /-- In the loop that posts, before round `i`. -/
  | posting (i : ℕ)
  | joining
  | joined
  deriving DecidableEq

/-- The posts that `destroy` has still to do. -/
def DestroyPc.remaining : DestroyPc → ℕ
  | .posting i => SCHEDULER_NUM_WORKERS - i
  | _ => 0

/-- One of the workers. -/
abbrev Worker : Type := Fin SCHEDULER_NUM_WORKERS

/-- The scheduler with its flag `running_`. `tested` are the workers that found the flag set in this
round of their loop and are before their next job, `stopped` those that left the loop; likewise for
the timer. `taken` counts the permits that a worker took since the flag was cleared. -/
structure Shutdown (C : Type) where
  sched : Scheduler C Worker
  running : Bool
  tested : Worker → Bool
  stopped : Worker → Bool
  timerTested : Bool
  timerStopped : Bool
  destroyPc : DestroyPc
  taken : Worker → ℕ

/-- A step of the scheduler, or of `destroy`. -/
inductive ShutdownAction (C : Type)
  /-- A step that does not start a round of an event loop. -/
  | sched (a : Action C Worker)
  | destroy

namespace Shutdown

variable {C : Type} [DecidableEq C]

/-- A round of `event_loop` of a worker begins with the test of `running_`. Then come `sem_wait`,
unless the worker has just yielded a coroutine, and the job. -/
def workerStep (s : Shutdown C) (w : Worker) : Option (Shutdown C) :=
  match (s.sched.workers w).pc with
  | .head yieldFromCoroutine =>
    if s.stopped w then none
    else if s.tested w then
      let waits := !yieldFromCoroutine && !s.running
      (s.sched.loop w).map fun sched =>
        { s with
          sched := sched
          tested := Function.update s.tested w false
          taken := Function.update s.taken w (s.taken w + waits.toNat) }
    else if s.running then some { s with tested := Function.update s.tested w true }
    else some { s with stopped := Function.update s.stopped w true }
  | _ => (s.sched.loop w).map fun sched => { s with sched := sched }

/-- The rounds of `TimerManager::event_loop` end with the tick of the lowest wheel. -/
def timerStep (s : Shutdown C) : Option (Shutdown C) :=
  if s.timerStopped then none
  else if s.timerTested then
    s.sched.timerStep.map fun sched =>
      { s with
        sched := sched
        timerTested := !(s.sched.timerPc != .draining && sched.timerPc == .draining) }
  else if s.running then some { s with timerTested := true }
  else some { s with timerStopped := true }

/-- The next step of `Scheduler::destroy`. -/
def destroyStep (s : Shutdown C) : Option (Shutdown C) :=
  match s.destroyPc with
  | .notCalled => some { s with running := false, destroyPc := .posting 0 }
  | .posting i =>
    if i < SCHEDULER_NUM_WORKERS then
      some { s with sched := s.sched.semPost, destroyPc := .posting (i + 1) }
    else some { s with destroyPc := .joining }
  | .joining =>
    if (∀ w, s.stopped w = true) ∧ s.timerStopped = true then some { s with destroyPc := .joined }
    else none
  | .joined => none

/-- One step; `none` is a step that is not possible. -/
def step (s : Shutdown C) : ShutdownAction C → Option (Shutdown C)
  | .sched (.loop w) => s.workerStep w
  | .sched .timer => s.timerStep
  | .sched a => (s.sched.step a).map fun sched => { s with sched := sched }
  | .destroy => s.destroyStep

/-- The scheduler after `init`. -/
def init (nodes : C → TimeWheelLinkedListNode C) : Shutdown C :=
  { sched := Scheduler.init nodes
    running := true
    tested := fun _ => false
    stopped := fun _ => false
    timerTested := false
    timerStopped := false
    destroyPc := .notCalled
    taken := fun _ => 0 }

/-- The states of the runs from `init`. -/
inductive Reachable : Shutdown C → Prop
  | init (nodes : C → TimeWheelLinkedListNode C) : Reachable (init nodes)
  | step {s a s'} (hr : Reachable s) (hs : s.step a = some s') : Reachable s'

/-- The worker is in `sem_wait`, or past the test of the flag and on its way there. -/
def MayWait (s : Shutdown C) (w : Worker) : Prop :=
  s.tested w = true ∧ (s.sched.workers w).pc = .head false

instance (s : Shutdown C) : DecidablePred s.MayWait :=
  fun _ => inferInstanceAs (Decidable (_ ∧ _))

/-- The workers that are in `sem_wait` or may still enter it. -/
def waiting (s : Shutdown C) : Finset Worker := Finset.univ.filter s.MayWait

/-- `destroy` has done all its posts. -/
def Posted (s : Shutdown C) : Prop := s.running = false ∧ s.destroyPc.remaining = 0

instance (s : Shutdown C) : Decidable s.Posted := inferInstanceAs (Decidable (_ ∧ _))

/-- A list of steps. -/
def run (s : Shutdown C) (as : List (ShutdownAction C)) : Option (Shutdown C) := as.foldlM step s

/-- Executing actions extends a run. -/
theorem Reachable.run {s s' : Shutdown C} {as : List (ShutdownAction C)} (hr : s.Reachable)
    (hs : s.run as = some s') : s'.Reachable := by
  induction as generalizing s with
  | nil =>
    cases hs
    exact hr
  | cons a as ih =>
    rw [Shutdown.run, List.foldlM_cons] at hs
    obtain ⟨s₁, hstep, hs⟩ := Option.bind_eq_some_iff.1 hs
    exact ih (hr.step hstep) hs

end Shutdown

/-! ## Steps of the scheduler -/

namespace Scheduler

variable {C W : Type} [DecidableEq C] {s s' : Scheduler C W} {w u : W}

omit [DecidableEq C] in
/-- The end of a tick touches neither workers nor semaphore. -/
theorem endTick_frame {v : Fin TIMEWHEEL_NUM_WHEELS} :
    (s.endTick v).workers = s.workers ∧ (s.endTick v).semJobQueue = s.semJobQueue := by
  rw [endTick]
  split
  · exact ⟨rfl, rfl⟩
  · exact ⟨rfl, rfl⟩

/-- The timer leaves the workers alone and takes no permit. -/
theorem timerStep_frame (hs : s.timerStep = some s') :
    s'.workers = s.workers ∧ s.semJobQueue ≤ s'.semJobQueue := by
  cases hpc : s.timerPc with
  | draining =>
    simp only [timerStep, hpc] at hs
    split at hs
    · cases hs
      exact ⟨rfl, le_rfl⟩
    · cases hs
      exact ⟨rfl, le_rfl⟩
    · split at hs
      · cases hs
        exact ⟨rfl, le_rfl⟩
      · cases hs
    · cases hs
  | ticking v =>
    simp only [timerStep, hpc] at hs
    split at hs
    · cases hs
    · split at hs
      · split at hs
        · cases hs
          exact ⟨rfl, le_rfl⟩
        · cases hs
          exact endTick_frame.imp id fun h => h.ge
        · cases hs
      · split at hs
        · cases hs
          exact ⟨rfl, le_rfl⟩
        · cases hs
          exact endTick_frame.imp id fun h => h.ge
  | posting v =>
    simp only [timerStep, hpc, Option.some.injEq] at hs
    subst hs
    exact ⟨rfl, Nat.le_succ _⟩

variable [DecidableEq W]

/-- `pop_front` and the switch change the worker that pops. -/
theorem popAndSwitch_frame {y : Bool} :
    (∃ t, (s.popAndSwitch w y).workers = Function.update s.workers w t) ∧
      (s.popAndSwitch w y).semJobQueue = s.semJobQueue := by
  rw [popAndSwitch]
  split
  · exact ⟨⟨_, rfl⟩, rfl⟩
  · exact ⟨⟨_, Function.update_idem ..⟩, rfl⟩

/-- A step of an event loop changes one worker. At the head it takes a permit, unless the worker has
just yielded a coroutine. -/
theorem loop_frame (hs : s.loop w = some s') :
    (∃ t, s'.workers = Function.update s.workers w t) ∧
      ((s.workers w).pc = .head false → s'.semJobQueue + 1 = s.semJobQueue) ∧
      ((s.workers w).pc ≠ .head false → s.semJobQueue ≤ s'.semJobQueue) := by
  cases hpc : (s.workers w).pc with
  | head y =>
    cases y with
    | false =>
      simp only [loop, hpc] at hs
      split at hs
      · cases hs
      · rename_i hsem
        cases hs
        refine ⟨⟨_, rfl⟩, fun _ => ?_, fun hne => absurd rfl hne⟩
        exact Nat.succ_pred_eq_of_ne_zero hsem
    | true =>
      simp only [loop, hpc, Option.some.injEq] at hs
      subst hs
      exact ⟨popAndSwitch_frame.1, nofun, fun _ => popAndSwitch_frame.2.ge⟩
  | popping =>
    simp only [loop, hpc, Option.some.injEq] at hs
    subst hs
    exact ⟨popAndSwitch_frame.1, nofun, fun _ => popAndSwitch_frame.2.ge⟩
  | running =>
    simp only [loop, hpc] at hs
    cases hs
  | posting =>
    simp only [loop, hpc, Option.some.injEq] at hs
    subst hs
    exact ⟨⟨_, rfl⟩, nofun, fun _ => Nat.le_succ _⟩
  | flushPush =>
    simp only [loop, hpc, Option.some.injEq] at hs
    subst hs
    rw [flushPendingPush]
    split
    · exact ⟨⟨_, Function.update_idem ..⟩, nofun, fun _ => le_rfl⟩
    · exact ⟨⟨_, rfl⟩, nofun, fun _ => le_rfl⟩
  | flushDestroy y =>
    simp only [loop, hpc, Option.some.injEq] at hs
    subst hs
    rw [flushPendingDestroy]
    split
    · exact ⟨⟨_, Function.update_idem ..⟩, nofun, fun _ => le_rfl⟩
    · exact ⟨⟨_, rfl⟩, nofun, fun _ => le_rfl⟩
  | flushAddEvent y =>
    simp only [loop, hpc] at hs
    cases hadd : s.flushPendingAddEvent w with
    | error e =>
      rw [hadd] at hs
      cases hs
    | ok s₁ =>
      rw [hadd] at hs
      cases hs
      rw [flushPendingAddEvent] at hadd
      split at hadd
      · simp only [bind, Except.bind] at hadd
        split at hadd
        · cases hadd
        · cases hadd
          exact ⟨⟨_, Function.update_idem ..⟩, nofun, fun _ => le_rfl⟩
      · cases hadd
        exact ⟨⟨_, rfl⟩, nofun, fun _ => le_rfl⟩

/-- The other steps take no permit and leave a worker alone that is at the head of its loop. -/
theorem step_frame {a : Action C W} (hs : s.step a = some s') (hloop : ∀ w, a ≠ .loop w) :
    (∀ u y, (s.workers u).pc = .head y → s'.workers u = s.workers u) ∧
      s.semJobQueue ≤ s'.semJobQueue := by
  -- a worker in a coroutine is not at the head of its loop
  have hother : ∀ {w c t}, s.runningOn w = some c → ∀ u y, (s.workers u).pc = .head y →
      Function.update s.workers w t u = s.workers u := by
    intro w c t hc u y hu
    have hne : u ≠ w := by
      rintro rfl
      cases (runningOn_eq_some hc).1.symm.trans hu
    exact Function.update_of_ne hne ..
  cases a with
  | create c =>
    simp only [Scheduler.step] at hs
    split at hs
    · cases hs
    · cases hs
      exact ⟨fun _ _ _ => rfl, le_rfl⟩
  | post =>
    simp only [Scheduler.step] at hs
    split at hs
    · cases hs
    · cases hs
      exact ⟨fun _ _ _ => rfl, Nat.le_succ _⟩
  | loop w => exact absurd rfl (hloop w)
  | yield w =>
    obtain ⟨c, hc, rfl⟩ := Option.map_eq_some_iff.1 hs
    refine ⟨fun u y hu => ?_, le_rfl⟩
    simpa [coroutineYield, swapOut, setPc, setWorker, setCoroutine] using hother hc u y hu
  | sleep w d =>
    obtain ⟨c, hc, rfl⟩ := Option.map_eq_some_iff.1 hs
    refine ⟨fun u y hu => ?_, le_rfl⟩
    simpa [coroutineSleep, swapOut, setPc, setWorker, setCoroutine] using hother hc u y hu
  | spawn w c' =>
    simp only [Scheduler.step] at hs
    split at hs
    · rename_i c hc
      split at hs
      · cases hs
      · cases hs
        exact ⟨hother hc, le_rfl⟩
    · cases hs
  | exit w =>
    obtain ⟨c, hc, rfl⟩ := Option.map_eq_some_iff.1 hs
    refine ⟨fun u y hu => ?_, le_rfl⟩
    simpa [coroutineReturn, exitSwap, setPc, setWorker] using hother hc u y hu
  | timer =>
    obtain ⟨hw, hsem⟩ := timerStep_frame hs
    exact ⟨fun u _ _ => congrFun hw u, hsem⟩

end Scheduler

/-! ## The posts of `destroy` -/

namespace Shutdown

variable {C : Type}

/-- The permits that are there and the posts to come are enough for the workers that wait. -/
structure Inv (s : Shutdown C) : Prop where
  running : s.running = true → s.destroyPc = .notCalled
  cleared : s.running = false → s.destroyPc ≠ .notCalled
  tested : ∀ w, s.tested w = true → ∃ y, (s.sched.workers w).pc = .head y
  permits : s.running = false → s.waiting.card ≤ s.sched.semJobQueue + s.destroyPc.remaining
  fresh : s.running = true → ∀ w, s.taken w = 0
  taken : ∀ w, s.taken w = 0 ∨ s.taken w = 1 ∧ s.tested w = false

/-- A step that takes no permit and leaves the workers alone that have passed the test. -/
structure Quiet (s s' : Shutdown C) : Prop where
  running : s'.running = s.running
  destroyPc : s'.destroyPc = s.destroyPc
  taken : s'.taken = s.taken
  tested : ∀ w, s'.tested w = true → s.tested w = true
  workers : ∀ w, s'.tested w = true → s'.sched.workers w = s.sched.workers w
  sem : s.sched.semJobQueue ≤ s'.sched.semJobQueue

/-- The worker `w` takes a permit. -/
structure Takes (s s' : Shutdown C) (w : Worker) : Prop where
  mayWait : s.MayWait w
  running : s'.running = s.running
  destroyPc : s'.destroyPc = s.destroyPc
  taken : s'.taken = Function.update s.taken w (s.taken w + (!s.running).toNat)
  tested : s'.tested = Function.update s.tested w false
  workers : ∀ u, u ≠ w → s'.sched.workers u = s.sched.workers u
  sem : s'.sched.semJobQueue + 1 = s.sched.semJobQueue

variable {s s' : Shutdown C}

namespace Inv

/-- The invariant holds at the start. -/
theorem init (nodes : C → TimeWheelLinkedListNode C) : (Shutdown.init nodes).Inv where
  running := fun _ => rfl
  cleared := nofun
  tested := nofun
  permits := nofun
  fresh := fun _ _ => rfl
  taken := fun _ => .inl rfl

/-- A quiet step keeps the invariant. -/
theorem quiet (h : s.Inv) (hq : s.Quiet s') : s'.Inv where
  running hr := hq.destroyPc ▸ h.running (hq.running ▸ hr)
  cleared hr := hq.destroyPc ▸ h.cleared (hq.running ▸ hr)
  tested w ht := by
    rw [hq.workers w ht]
    exact h.tested w (hq.tested w ht)
  permits hr := by
    have hsub : s'.waiting ⊆ s.waiting := by
      intro w hw
      obtain ⟨ht, hpc⟩ := (Finset.mem_filter.1 hw).2
      exact Finset.mem_filter.2 ⟨Finset.mem_univ w, hq.tested w ht, hq.workers w ht ▸ hpc⟩
    have hcard := Finset.card_le_card hsub
    have hold := h.permits (hq.running ▸ hr)
    have hsem := hq.sem
    rw [hq.destroyPc]
    omega
  fresh hr := hq.taken ▸ h.fresh (hq.running ▸ hr)
  taken w := by
    rw [hq.taken]
    refine (h.taken w).imp_right fun ⟨h1, ht⟩ => ⟨h1, ?_⟩
    exact Bool.eq_false_iff.2 fun ht' => Bool.eq_false_iff.1 ht (hq.tested w ht')

/-- The worker that takes a permit is no longer one that may wait. -/
theorem takes {w : Worker} (h : s.Inv) (ht : s.Takes s' w) : s'.Inv where
  running hr := ht.destroyPc ▸ h.running (ht.running ▸ hr)
  cleared hr := ht.destroyPc ▸ h.cleared (ht.running ▸ hr)
  tested u hu := by
    rw [ht.tested] at hu
    have huw : u ≠ w := by
      rintro rfl
      simp at hu
    rw [Function.update_of_ne huw] at hu
    rw [ht.workers u huw]
    exact h.tested u hu
  permits hr := by
    have hsub : s'.waiting ⊆ s.waiting.erase w := by
      intro u hu
      obtain ⟨htu, hpc⟩ := (Finset.mem_filter.1 hu).2
      rw [ht.tested] at htu
      have huw : u ≠ w := by
        rintro rfl
        simp at htu
      rw [Function.update_of_ne huw] at htu
      rw [ht.workers u huw] at hpc
      exact Finset.mem_erase.2 ⟨huw, Finset.mem_filter.2 ⟨Finset.mem_univ u, htu, hpc⟩⟩
    have hmem : w ∈ s.waiting := Finset.mem_filter.2 ⟨Finset.mem_univ w, ht.mayWait⟩
    have hcard := Finset.card_le_card hsub
    rw [Finset.card_erase_of_mem hmem] at hcard
    have hold := h.permits (ht.running ▸ hr)
    have hsem := ht.sem
    rw [ht.destroyPc]
    omega
  fresh hr u := by
    have hr₀ : s.running = true := ht.running ▸ hr
    rw [ht.taken, hr₀]
    change Function.update s.taken w (s.taken w) u = 0
    rw [Function.update_eq_self]
    exact h.fresh hr₀ u
  taken u := by
    rw [ht.taken, ht.tested]
    by_cases huw : u = w
    · subst huw
      rw [Function.update_self, Function.update_self]
      have h0 : s.taken u = 0 :=
        (h.taken u).resolve_right fun h1 => Bool.eq_false_iff.1 h1.2 ht.mayWait.1
      cases hr : s.running with
      | true => exact .inl (by simp [h0])
      | false => exact .inr ⟨by simp [h0], rfl⟩
    · rw [Function.update_of_ne huw, Function.update_of_ne huw]
      exact h.taken u

/-- The test of a worker, while the flag is set. -/
theorem tests {w : Worker} (h : s.Inv) (hr : s.running = true)
    (hpc : ∃ y, (s.sched.workers w).pc = .head y) :
    Inv { s with tested := Function.update s.tested w true } where
  running := h.running
  cleared := h.cleared
  tested u hu := by
    by_cases huw : u = w
    · rw [huw]
      exact hpc
    · change Function.update s.tested w true u = true at hu
      rw [Function.update_of_ne huw] at hu
      exact h.tested u hu
  permits hr' := absurd (hr.symm.trans hr') (by decide)
  fresh := h.fresh
  taken u := .inl (h.fresh hr u)

/-- When the flag is cleared, no more workers than there are wait, and as many posts are to come. -/
theorem destroyStep (h : s.Inv) (hs : s.destroyStep = some s') : s'.Inv := by
  unfold Shutdown.destroyStep at hs
  split at hs
  · cases hs
    refine ⟨nofun, fun _ => nofun, h.tested, fun _ => ?_, nofun, h.taken⟩
    have hcard : s.waiting.card ≤ SCHEDULER_NUM_WORKERS := by
      calc s.waiting.card ≤ Fintype.card Worker := Finset.card_le_univ _
        _ = SCHEDULER_NUM_WORKERS := Fintype.card_fin _
    exact hcard.trans (Nat.le_add_left ..)
  · rename_i i hpc
    have hoff : s.running = false :=
      Bool.eq_false_iff.2 fun hr => DestroyPc.noConfusion (hpc.symm.trans (h.running hr))
    have hold := h.permits hoff
    rw [hpc] at hold
    split at hs
    · rename_i hi
      cases hs
      refine ⟨fun hr => absurd hr (by simp [hoff]), fun _ => nofun, h.tested, fun _ => ?_,
        fun hr => absurd hr (by simp [hoff]), h.taken⟩
      change s.waiting.card ≤ s.sched.semJobQueue + 1 + (SCHEDULER_NUM_WORKERS - (i + 1))
      change s.waiting.card ≤ s.sched.semJobQueue + (SCHEDULER_NUM_WORKERS - i) at hold
      omega
    · rename_i hi
      cases hs
      refine ⟨fun hr => absurd hr (by simp [hoff]), fun _ => nofun, h.tested, fun _ => ?_,
        fun hr => absurd hr (by simp [hoff]), h.taken⟩
      change s.waiting.card ≤ s.sched.semJobQueue + 0
      change s.waiting.card ≤ s.sched.semJobQueue + (SCHEDULER_NUM_WORKERS - i) at hold
      omega
  · rename_i hpc
    have hoff : s.running = false :=
      Bool.eq_false_iff.2 fun hr => DestroyPc.noConfusion (hpc.symm.trans (h.running hr))
    have hold := h.permits hoff
    rw [hpc] at hold
    split at hs
    · cases hs
      exact ⟨fun hr => absurd hr (by simp [hoff]), fun _ => nofun, h.tested, fun _ => hold,
        fun hr => absurd hr (by simp [hoff]), h.taken⟩
    · cases hs
  · cases hs

end Inv

variable [DecidableEq C]

/-- What a step of a worker can do. -/
theorem workerStep_cases {w : Worker} (h : s.Inv) (hs : s.workerStep w = some s') :
    s.Quiet s' ∨ s.Takes s' w ∨
      s.running = true ∧ (∃ y, (s.sched.workers w).pc = .head y) ∧
        s' = { s with tested := Function.update s.tested w true } := by
  -- away from the head the worker is not one that has passed the test
  have hloop : (∀ y, (s.sched.workers w).pc ≠ .head y) →
      ((s.sched.loop w).map fun sched => { s with sched := sched }) = some s' → s.Quiet s' := by
    intro hne hs
    obtain ⟨sched, hl, rfl⟩ := Option.map_eq_some_iff.1 hs
    obtain ⟨⟨t, hw⟩, -, hsem⟩ := Scheduler.loop_frame hl
    refine ⟨rfl, rfl, rfl, fun _ => id, fun u hu => ?_, hsem (hne false)⟩
    have huw : u ≠ w := by
      rintro rfl
      obtain ⟨y, hy⟩ := h.tested u hu
      exact hne y hy
    change sched.workers u = s.sched.workers u
    rw [hw, Function.update_of_ne huw]
  cases hpc : (s.sched.workers w).pc with
  | head y =>
    simp only [workerStep, hpc] at hs
    split at hs
    · cases hs
    · split at hs
      · rename_i htested
        obtain ⟨sched, hl, rfl⟩ := Option.map_eq_some_iff.1 hs
        obtain ⟨⟨t, hw⟩, htake, hskip⟩ := Scheduler.loop_frame hl
        have hworkers : ∀ u, u ≠ w → sched.workers u = s.sched.workers u := by
          intro u hu
          rw [hw, Function.update_of_ne hu]
        cases y with
        | false =>
          right; left
          exact ⟨⟨htested, hpc⟩, rfl, rfl, rfl, rfl, hworkers, htake hpc⟩
        | true =>
          left
          refine ⟨rfl, rfl, Function.update_eq_self .., fun u hu => ?_, fun u hu => ?_, ?_⟩
          · by_cases huw : u = w
            · rw [huw]
              exact htested
            · change Function.update s.tested w false u = true at hu
              rwa [Function.update_of_ne huw] at hu
          · refine hworkers u ?_
            rintro rfl
            simp at hu
          · exact hskip (by simp [hpc])
      · split at hs
        · cases hs
          exact .inr (.inr ⟨‹_›, ⟨y, rfl⟩, rfl⟩)
        · cases hs
          exact .inl ⟨rfl, rfl, rfl, fun _ => id, fun _ _ => rfl, le_rfl⟩
  | popping | running | posting | flushPush | flushDestroy | flushAddEvent =>
    simp only [workerStep, hpc] at hs
    exact .inl (hloop (by simp [hpc]) hs)

/-- A step of the timer is quiet. -/
theorem timerStep_quiet (hs : s.timerStep = some s') : s.Quiet s' := by
  unfold timerStep at hs
  split at hs
  · cases hs
  · split at hs
    · obtain ⟨sched, ht, rfl⟩ := Option.map_eq_some_iff.1 hs
      obtain ⟨hw, hsem⟩ := Scheduler.timerStep_frame ht
      exact ⟨rfl, rfl, rfl, fun _ => id, fun w _ => congrFun hw w, hsem⟩
    · split at hs
      · cases hs
        exact ⟨rfl, rfl, rfl, fun _ => id, fun _ _ => rfl, le_rfl⟩
      · cases hs
        exact ⟨rfl, rfl, rfl, fun _ => id, fun _ _ => rfl, le_rfl⟩

/-- A step of the scheduler outside of the event loops is quiet. -/
theorem schedStep_quiet {a : Action C Worker} {sched : Scheduler C Worker} (h : s.Inv)
    (hs : s.sched.step a = some sched) (hloop : ∀ w, a ≠ .loop w) :
    s.Quiet { s with sched := sched } := by
  obtain ⟨hw, hsem⟩ := Scheduler.step_frame hs hloop
  refine ⟨rfl, rfl, rfl, fun _ => id, fun w ht => ?_, hsem⟩
  obtain ⟨y, hy⟩ := h.tested w ht
  exact hw w y hy

/-- A step keeps the invariant. -/
theorem Inv.step {a : ShutdownAction C} (h : s.Inv) (hs : s.step a = some s') : s'.Inv := by
  cases a with
  | destroy => exact h.destroyStep hs
  | sched a =>
    cases a with
    | loop w =>
      rcases workerStep_cases h hs with hq | ht | ⟨hr, hpc, rfl⟩
      · exact h.quiet hq
      · exact h.takes ht
      · exact h.tests hr hpc
    | timer => exact h.quiet (timerStep_quiet hs)
    | create | post | yield | sleep | spawn | exit =>
      obtain ⟨sched, hstep, rfl⟩ := Option.map_eq_some_iff.1 hs
      exact h.quiet (schedStep_quiet h hstep nofun)

/-- The invariant holds in every run. -/
theorem Reachable.inv (hr : s.Reachable) : s.Inv := by
  induction hr with
  | init nodes => exact .init nodes
  | step _ hs ih => exact ih.step hs

/-- Once `destroy` has done its posts, there is a permit for each worker that is in `sem_wait` or
may still enter it, so none of them is blocked. A worker takes at most one permit after the flag is
cleared. -/
theorem run_stranded (hr : s.Reachable) :
    (s.Posted → s.waiting.card ≤ s.sched.semJobQueue ∧
      ∀ w, s.MayWait w → s.sched.semJobQueue ≠ 0) ∧
    ∀ w, s.taken w ≤ 1 := by
  have h := hr.inv
  refine ⟨fun ⟨hoff, hposted⟩ => ?_, fun w => ?_⟩
  · have hpermits := h.permits hoff
    rw [hposted] at hpermits
    refine ⟨hpermits, fun w hw hzero => ?_⟩
    have hpos : 0 < s.waiting.card :=
      Finset.card_pos.2 ⟨w, Finset.mem_filter.2 ⟨Finset.mem_univ w, hw⟩⟩
    omega
  · rcases h.taken w with h0 | ⟨h1, -⟩
    · exact h0.le.trans zero_le_one
    · exact h1.le

/-- The worker `0` is past the test when the flag is cleared, and waits after the posts. -/
theorem run_stranded_unit :
    ∃ s, (init fun _ : Unit => ⟨none, 0⟩).run
        (.sched (.loop 0) :: List.replicate 12 .destroy) = some s ∧
      s.MayWait 0 ∧ s.sched.semJobQueue ≠ 0 := by
  have hany : (((init fun _ : Unit => ⟨none, 0⟩).run
      (.sched (.loop 0) :: List.replicate 12 .destroy)).any fun s =>
        decide (s.Posted ∧ s.MayWait 0)) = true := by decide
  obtain ⟨s, hs, hsome⟩ := (Option.any_eq_true _ _).1 hany
  obtain ⟨hposted, hwait⟩ := of_decide_eq_true hsome
  exact ⟨s, hs, hwait, ((run_stranded ((Reachable.init _).run hs)).1 hposted).2 0 hwait⟩

/-! ## The scheduler before `destroy` -/

omit [DecidableEq C] in
/-- After a step of `destroy` the flag is cleared. -/
theorem Inv.destroyStep_running (h : s.Inv) (hs : s.destroyStep = some s') :
    s'.running = false := by
  have hoff : s.destroyPc ≠ .notCalled → s.running = false := fun hpc =>
    Bool.eq_false_iff.2 fun hr => hpc (h.running hr)
  unfold Shutdown.destroyStep at hs
  split at hs
  · cases hs
    rfl
  · rename_i hpc
    split at hs
    · cases hs
      exact hoff (by simp [hpc])
    · cases hs
      exact hoff (by simp [hpc])
  · rename_i hpc
    split at hs
    · cases hs
      exact hoff (by simp [hpc])
    · cases hs
  · cases hs

/-- What a step does that leaves the flag set: no thread leaves its loop, and the scheduler makes
one of its steps or none. -/
theorem Inv.step_running {a : ShutdownAction C} (h : s.Inv) (hs : s.step a = some s')
    (hrun : s'.running = true) :
    s.running = true ∧ s'.stopped = s.stopped ∧ s'.timerStopped = s.timerStopped ∧
      (s'.sched = s.sched ∨ ∃ a, s.sched.step a = some s'.sched) := by
  cases a with
  | destroy => exact absurd hrun (by simp [h.destroyStep_running hs])
  | sched a =>
    cases a with
    | loop w =>
      simp only [Shutdown.step, workerStep] at hs
      split at hs
      · split at hs
        · cases hs
        · split at hs
          · obtain ⟨sched, hl, rfl⟩ := Option.map_eq_some_iff.1 hs
            exact ⟨hrun, rfl, rfl, .inr ⟨.loop w, hl⟩⟩
          · split at hs
            · cases hs
              exact ⟨hrun, rfl, rfl, .inl rfl⟩
            · cases hs
              exact absurd hrun ‹_›
      · obtain ⟨sched, hl, rfl⟩ := Option.map_eq_some_iff.1 hs
        exact ⟨hrun, rfl, rfl, .inr ⟨.loop w, hl⟩⟩
    | timer =>
      simp only [Shutdown.step, timerStep] at hs
      split at hs
      · cases hs
      · split at hs
        · obtain ⟨sched, ht, rfl⟩ := Option.map_eq_some_iff.1 hs
          exact ⟨hrun, rfl, rfl, .inr ⟨.timer, ht⟩⟩
        · split at hs
          · cases hs
            exact ⟨hrun, rfl, rfl, .inl rfl⟩
          · cases hs
            exact absurd hrun ‹_›
    | create | post | yield | sleep | spawn | exit =>
      obtain ⟨sched, hstep, rfl⟩ := Option.map_eq_some_iff.1 hs
      exact ⟨hrun, rfl, rfl, .inr ⟨_, hstep⟩⟩

/-- While the flag is set no thread has left its loop, and the scheduler is as in a run without the
flag. -/
theorem Reachable.sched (hr : s.Reachable) (hrun : s.running = true) :
    Scheduler.Reachable (fun _ _ => True) s.sched ∧ (∀ w, s.stopped w = false) ∧
      s.timerStopped = false := by
  induction hr with
  | init nodes => exact ⟨.init nodes, fun _ => rfl, rfl⟩
  | step hr hs ih =>
    obtain ⟨hrun₀, hstopped, htimer, hsched⟩ := hr.inv.step_running hs hrun
    obtain ⟨hsr, hw, ht⟩ := ih hrun₀
    refine ⟨?_, fun w => hstopped ▸ hw w, htimer ▸ ht⟩
    rcases hsched with heq | ⟨a, hstep⟩
    · exact heq ▸ hsr
    · exact hsr.step trivial hstep

/-- While the flag is set, a step of the scheduler is possible here too, after the test of the
thread if need be. -/
theorem Reachable.lift {a : Action C Worker} {t : Scheduler C Worker} (hr : s.Reachable)
    (hrun : s.running = true) (hs : s.sched.step a = some t) :
    ∃ s' : Shutdown C, s'.Reachable ∧ s'.running = true ∧ s'.sched = t := by
  obtain ⟨-, hstopped, htimer⟩ := hr.sched hrun
  -- it is enough to make the step from some state with the same scheduler
  suffices h : ∃ s₁ : Shutdown C, s₁.Reachable ∧
      ∃ s', s₁.step (.sched a) = some s' ∧ s'.running = true ∧ s'.sched = t by
    obtain ⟨s₁, hr₁, s', hstep, hrun', hsched⟩ := h
    exact ⟨s', hr₁.step hstep, hrun', hsched⟩
  cases a with
  | loop w =>
    change s.sched.loop w = some t at hs
    cases hpc : (s.sched.workers w).pc with
    | head y =>
      cases ht : s.tested w with
      | true =>
        refine ⟨s, hr, ?_⟩
        simp [Shutdown.step, workerStep, hpc, hstopped w, ht, hs, hrun]
      | false =>
        have htest : s.step (.sched (.loop w)) =
            some { s with tested := Function.update s.tested w true } := by
          simp [Shutdown.step, workerStep, hpc, hstopped w, ht, hrun]
        refine ⟨_, hr.step htest, ?_⟩
        simp [Shutdown.step, workerStep, hpc, hstopped w, hs, hrun]
    | popping | running | posting | flushPush | flushDestroy | flushAddEvent =>
      refine ⟨s, hr, ?_⟩
      simp [Shutdown.step, workerStep, hpc, hs, hrun]
  | timer =>
    change s.sched.timerStep = some t at hs
    cases ht : s.timerTested with
    | true =>
      refine ⟨s, hr, ?_⟩
      simp [Shutdown.step, timerStep, htimer, ht, hs, hrun]
    | false =>
      have htest : s.step (.sched .timer) = some { s with timerTested := true } := by
        simp [Shutdown.step, timerStep, htimer, ht, hrun]
      refine ⟨_, hr.step htest, ?_⟩
      simp [Shutdown.step, timerStep, htimer, hs, hrun]
  | create | post | yield | sleep | spawn | exit =>
    refine ⟨s, hr, { s with sched := t }, ?_, hrun, rfl⟩
    simp only [Shutdown.step, hs, Option.map_some]

/-- The states in which `destroy` can be called are those of the runs without the flag. -/
theorem reachable_iff {t : Scheduler C Worker} :
    Scheduler.Reachable (fun _ _ => True) t ↔
      ∃ s : Shutdown C, s.Reachable ∧ s.running = true ∧ s.sched = t := by
  refine ⟨fun ht => ?_, ?_⟩
  · induction ht with
    | init nodes => exact ⟨init nodes, .init nodes, rfl, rfl⟩
    | step _ _ hs ih =>
      obtain ⟨s, hr, hrun, rfl⟩ := ih
      exact hr.lift hrun hs
  · rintro ⟨s, hr, hrun, rfl⟩
    exact (hr.sched hrun).1

end Shutdown

end RockCoro
