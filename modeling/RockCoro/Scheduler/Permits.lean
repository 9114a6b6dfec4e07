import RockCoro.Scheduler.EventLoop
import Mathlib.Algebra.BigOperators.Group.Finset.Basic
import Mathlib.Algebra.Order.BigOperators.Group.Finset

/-!
# Permits and jobs

A worker may pop a job if it took a permit of the semaphore, or if it pushed a job back without a
post. `Balanced` says that the queue is as long as the permits and the posts that are still to come;
every step keeps it.
-/

namespace RockCoro.Scheduler

variable {C W : Type} [Fintype W]

/-- The number of workers in places that meet `p`. -/
def count (s : Scheduler C W) (p : WorkerPc → Bool) : ℕ := ∑ w, (p (s.workers w).pc).toNat

/-- The worker has passed `sem_wait` and not popped. -/
def isPopping : WorkerPc → Bool
  | .popping => true
  | _ => false

/-- The worker has pushed a yielded coroutine without a post and not popped. -/
def isRequeued : WorkerPc → Bool
  | .flushDestroy y | .flushAddEvent y | .head y => y
  | _ => false

/-- The worker is in a `job_push` that has enqueued and not posted. -/
def isPosting : WorkerPc → Bool
  | .posting => true
  | _ => false

/-- The timer is in a `job_push` that has enqueued and not posted. -/
def isTimerPosting : TimerPc → Bool
  | .posting _ => true
  | _ => false

/-- The semaphore and what the workers hold of it. -/
def permits (s : Scheduler C W) : ℕ := s.semJobQueue + s.count isPopping + s.count isRequeued

/-- The calls of `job_push(use_sem = true)` that have enqueued and not posted. -/
def outstanding (s : Scheduler C W) : ℕ :=
  s.posts + s.count isPosting + (isTimerPosting s.timerPc).toNat

/-- There is a permit, or a post to come, for each job. -/
def Balanced (s : Scheduler C W) : Prop := s.jobQueue.length = s.permits + s.outstanding

/-- The worker waits for the semaphore. -/
def Blocked (s : Scheduler C W) (w : W) : Prop :=
  (s.workers w).pc = .head false ∧ s.semJobQueue = 0

/-- The worker is about to pop a job. -/
def Pops (s : Scheduler C W) (w : W) : Prop :=
  (s.workers w).pc = .popping ∨ (s.workers w).pc = .head true

variable {s s' : Scheduler C W} {a : Action C W} {w : W} {p : WorkerPc → Bool}

/-! ## Counting -/

/-- A worker in such a place is counted. -/
theorem count_pos (hw : p (s.workers w).pc = true) : 0 < s.count p := by
  have hle : (p (s.workers w).pc).toNat ≤ s.count p :=
    Finset.single_le_sum (f := fun w => (p (s.workers w).pc).toNat) (fun _ _ => Nat.zero_le _)
      (Finset.mem_univ w)
  rw [hw] at hle
  exact hle

/-- The count depends on the workers. -/
theorem count_congr (h : s'.workers = s.workers) : s'.count p = s.count p := by
  rw [count, count, h]

/-- A worker that pops has a permit, and so there is a job. -/
theorem Balanced.jobQueue_ne_nil (h : s.Balanced) (hw : s.Pops w) : s.jobQueue ≠ [] := by
  have hpos : 0 < s.count isPopping + s.count isRequeued := by
    rcases hw with hw | hw
    · have : 0 < s.count isPopping := count_pos (w := w) (by rw [hw]; rfl)
      omega
    · have : 0 < s.count isRequeued := count_pos (w := w) (by rw [hw]; rfl)
      omega
  intro hnil
  rw [Balanced, hnil, permits] at h
  simp only [List.length_nil] at h
  omega

/-- A step of another thread. -/
theorem Balanced.other (h : s.Balanced) (hw : s'.workers = s.workers)
    (hq : s'.jobQueue.length + s.semJobQueue + s.posts + (isTimerPosting s.timerPc).toNat =
      s.jobQueue.length + s'.semJobQueue + s'.posts + (isTimerPosting s'.timerPc).toNat) :
    s'.Balanced := by
  have h1 := count_congr (p := isPopping) hw
  have h2 := count_congr (p := isRequeued) hw
  have h3 := count_congr (p := isPosting) hw
  simp only [Balanced, permits, outstanding] at *
  omega

variable [DecidableEq W]

/-- One worker moves. -/
theorem count_update {t : TLScheduler C} (h : s'.workers = Function.update s.workers w t) :
    s'.count p + (p (s.workers w).pc).toNat = s.count p + (p t.pc).toNat := by
  have hsum : ∀ ws : W → TLScheduler C, ∑ v, (p (ws v).pc).toNat =
      (p (ws w).pc).toNat + ∑ v ∈ Finset.univ.erase w, (p (ws v).pc).toNat :=
    fun ws => (Finset.add_sum_erase _ _ (Finset.mem_univ w)).symm
  have hrest : ∑ v ∈ Finset.univ.erase w, (p (Function.update s.workers w t v).pc).toNat =
      ∑ v ∈ Finset.univ.erase w, (p (s.workers v).pc).toNat := by
    refine Finset.sum_congr rfl fun v hv => ?_
    rw [Function.update_of_ne (Finset.ne_of_mem_erase hv)]
  rw [count, count, h, hsum, hsum s.workers, hrest, Function.update_self]
  omega

/-- What a worker in this place counts for. -/
def weight (pc : WorkerPc) : ℕ :=
  (isPopping pc).toNat + (isRequeued pc).toNat + (isPosting pc).toNat

/-- A step of a worker keeps the balance if it pays for its jobs with permits. -/
theorem Balanced.worker {t : TLScheduler C} (h : s.Balanced)
    (hw : s'.workers = Function.update s.workers w t) (hposts : s'.posts = s.posts)
    (htimer : s'.timerPc = s.timerPc)
    (hq : s'.jobQueue.length + s.semJobQueue + weight (s.workers w).pc =
      s.jobQueue.length + s'.semJobQueue + weight t.pc) : s'.Balanced := by
  have h1 := count_update (p := isPopping) hw
  have h2 := count_update (p := isRequeued) hw
  have h3 := count_update (p := isPosting) hw
  simp only [Balanced, permits, outstanding, weight, hposts, htimer] at *
  omega

/-! ## The steps -/

variable [DecidableEq C]

/-- A worker that takes a job pays with its permit. -/
theorem Balanced.popAndSwitch {y : Bool} (h : s.Balanced) (hw : s.Pops w) :
    (s.popAndSwitch w y).Balanced := by
  obtain ⟨job, jobs, hq⟩ := List.exists_cons_of_ne_nil (h.jobQueue_ne_nil hw)
  have hweight : weight (s.workers w).pc = 1 := by
    rcases hw with hw | hw
    · rw [hw]
      rfl
    · rw [hw]
      rfl
  rw [Scheduler.popAndSwitch, hq]
  refine h.worker (w := w) (Function.update_idem ..) rfl rfl ?_
  rw [hweight, hq]
  simp [setPc, swapIn, setWorker, setCoroutine, weight, isPopping, isRequeued, isPosting]
  omega

/-- A step of a worker in its loop keeps the balance. -/
theorem Balanced.loop (h : s.Balanced) (hs : s.loop w = some s') : s'.Balanced := by
  cases hpc : (s.workers w).pc with
  | head y =>
    cases y with
    | false =>
      simp only [Scheduler.loop, hpc] at hs
      split at hs
      · cases hs
      · cases hs
        refine h.worker (w := w) rfl rfl rfl ?_
        rw [hpc]
        simp [setPc, setWorker, weight, isPopping, isRequeued, isPosting]
        omega
    | true =>
      simp only [Scheduler.loop, hpc, Option.some.injEq] at hs
      exact hs ▸ h.popAndSwitch (.inr hpc)
  | popping =>
    simp only [Scheduler.loop, hpc, Option.some.injEq] at hs
    exact hs ▸ h.popAndSwitch (.inl hpc)
  | running =>
    simp only [Scheduler.loop, hpc] at hs
    cases hs
  | posting =>
    simp only [Scheduler.loop, hpc, Option.some.injEq] at hs
    subst hs
    refine h.worker (w := w) rfl rfl rfl ?_
    rw [hpc]
    simp [setPc, setWorker, semPost, weight, isPopping, isRequeued, isPosting]
    omega
  | flushPush =>
    simp only [Scheduler.loop, hpc, Option.some.injEq] at hs
    subst hs
    cases hpush : (s.workers w).pendingPush with
    | none =>
      rw [flushPendingPush, hpush]
      refine h.worker (w := w) rfl rfl rfl ?_
      rw [hpc]
      simp [setPc, setWorker, weight, isPopping, isRequeued, isPosting]
    | some c =>
      rw [flushPendingPush, hpush]
      refine h.worker (w := w) (Function.update_idem ..) rfl rfl ?_
      rw [hpc]
      simp [setPc, setWorker, pushBack, weight, isPopping, isRequeued, isPosting]
      omega
  | flushDestroy y =>
    simp only [Scheduler.loop, hpc, Option.some.injEq] at hs
    subst hs
    cases hdestroy : (s.workers w).pendingDestroy with
    | none =>
      rw [flushPendingDestroy, hdestroy]
      refine h.worker (w := w) rfl rfl rfl ?_
      rw [hpc]
      simp [setPc, setWorker, weight, isPopping, isRequeued, isPosting]
    | some c =>
      rw [flushPendingDestroy, hdestroy]
      refine h.worker (w := w) (Function.update_idem ..) rfl rfl ?_
      rw [hpc]
      simp [setPc, setWorker, setCoroutine, weight, isPopping, isRequeued, isPosting]
  | flushAddEvent y =>
    simp only [Scheduler.loop, hpc] at hs
    cases hadd : (s.workers w).pendingAddEvent with
    | none =>
      simp only [flushPendingAddEvent, hadd, Option.some.injEq] at hs
      subst hs
      refine h.worker (w := w) rfl rfl rfl ?_
      rw [hpc]
      simp [setPc, setWorker, weight, isPopping, isRequeued, isPosting]
    | some c =>
      simp only [flushPendingAddEvent, hadd, bind, Except.bind] at hs
      cases htimer : s.timer.addEvent c (s.timer.nodes c).delayMS with
      | error e => simp [htimer] at hs
      | ok timer =>
        simp only [htimer, Option.some.injEq] at hs
        subst hs
        refine h.worker (w := w) (Function.update_idem ..) rfl rfl ?_
        rw [hpc]
        simp [setPc, setWorker, weight, isPopping, isRequeued, isPosting]

omit [DecidableEq W] [DecidableEq C] in
/-- The end of a tick keeps the balance. -/
theorem Balanced.endTick {v : Fin TIMEWHEEL_NUM_WHEELS} (h : s.Balanced)
    (hpc : s.timerPc = .ticking v) : (s.endTick v).Balanced := by
  rw [Scheduler.endTick]
  split
  · exact h.other rfl (by rw [hpc]; rfl)
  · exact h.other rfl (by rw [hpc]; rfl)

omit [DecidableEq W] in
/-- A step of the timer keeps the balance: it enqueues before it posts. -/
theorem Balanced.timerStep (h : s.Balanced) (hs : s.timerStep = some s') : s'.Balanced := by
  cases hpc : s.timerPc with
  | draining =>
    simp only [Scheduler.timerStep, hpc] at hs
    split at hs
    · cases hs
      exact h.other rfl (by rw [hpc]; rfl)
    · cases hs
      exact h.other rfl (by rw [hpc])
    · split at hs
      · cases hs
        exact h.other rfl (by rw [hpc])
      · cases hs
    · cases hs
  | ticking v =>
    simp only [Scheduler.timerStep, hpc] at hs
    split at hs
    · cases hs
    · split at hs
      · split at hs
        · cases hs
          exact h.other rfl (by rw [hpc])
        · cases hs
          exact h.endTick hpc
        · cases hs
      · split at hs
        · cases hs
          refine h.other rfl ?_
          rw [hpc]
          simp [pushBack, isTimerPosting]
          omega
        · cases hs
          exact h.endTick hpc
  | posting v =>
    simp only [Scheduler.timerStep, hpc, Option.some.injEq] at hs
    subst hs
    refine h.other rfl ?_
    rw [hpc]
    simp [semPost, isTimerPosting]
    omega

/-- A step keeps the balance. -/
theorem Balanced.step (h : s.Balanced) (hs : s.step a = some s') : s'.Balanced := by
  cases a with
  | create c =>
    simp only [Scheduler.step] at hs
    split at hs
    · cases hs
    · cases hs
      refine h.other rfl ?_
      simp [coroutineCreate, pushBack, setCoroutine]
      omega
  | post =>
    simp only [Scheduler.step] at hs
    split at hs
    · cases hs
    · cases hs
      refine h.other rfl ?_
      simp [semPost]
      omega
  | loop w => exact h.loop hs
  | yield w =>
    obtain ⟨c, hc, rfl⟩ := Option.map_eq_some_iff.1 hs
    refine h.worker (w := w) (t := { s.workers w with
      pc := .flushPush, curCoroutine := none, mainSaved := false, pendingPush := some c }) ?_
      rfl rfl ?_
    · simp [coroutineYield, swapOut, setPc, setWorker, setCoroutine]
    · rw [(runningOn_eq_some hc).1]
      rfl
  | sleep w d =>
    obtain ⟨c, hc, rfl⟩ := Option.map_eq_some_iff.1 hs
    refine h.worker (w := w) (t := { s.workers w with
      pc := .flushPush, curCoroutine := none, mainSaved := false, pendingAddEvent := some c }) ?_
      rfl
      rfl ?_
    · simp [coroutineSleep, swapOut, setPc, setWorker, setCoroutine]
    · rw [(runningOn_eq_some hc).1]
      rfl
  | spawn w c' =>
    simp only [Scheduler.step] at hs
    split at hs
    · rename_i c hc
      split at hs
      · cases hs
      · cases hs
        refine h.worker (w := w) rfl rfl rfl ?_
        rw [(runningOn_eq_some hc).1]
        simp [coroutineCreate, setPc, setWorker, setCoroutine, pushBack, weight, isPopping,
          isRequeued, isPosting]
        omega
    · cases hs
  | exit w =>
    obtain ⟨c, hc, rfl⟩ := Option.map_eq_some_iff.1 hs
    refine h.worker (w := w) (t := { s.workers w with
      pc := .flushPush, curCoroutine := none, mainSaved := false, pendingDestroy := some c }) ?_ rfl
      rfl ?_
    · simp [coroutineReturn, exitSwap, setPc, setWorker]
    · rw [(runningOn_eq_some hc).1]
      rfl
  | timer => exact h.timerStep hs

omit [DecidableEq W] [DecidableEq C] in
/-- At the start there are no jobs and no permits. -/
theorem balanced_init (nodes : C → TimeWheelLinkedListNode C) :
    (init nodes : Scheduler C W).Balanced := by
  simp [Balanced, permits, outstanding, count, init, isPopping, isRequeued, isPosting,
    isTimerPosting]

/-- The balance holds in every run, whatever it is restricted to. -/
theorem Reachable.balanced {P : Scheduler C W → Action C W → Prop} (hr : Reachable P s) :
    s.Balanced := by
  induction hr with
  | init nodes => exact balanced_init nodes
  | step _ _ hs ih => exact ih.step hs

/-- In every run the queue is as long as the permits and the outstanding posts. So a pop finds a
job, and the workers do not all wait while there is one and no post is outstanding. -/
theorem run_permits [Nonempty W] (hr : Reachable (fun _ _ => True) s) :
    s.jobQueue.length = s.semJobQueue + s.count isPopping + s.count isRequeued + s.outstanding ∧
      (∀ w, s.Pops w → s.jobQueue ≠ []) ∧
      ¬(s.jobQueue ≠ [] ∧ s.outstanding = 0 ∧ ∀ w, s.Blocked w) := by
  have h := hr.balanced
  refine ⟨h, fun w hw => h.jobQueue_ne_nil hw, ?_⟩
  rintro ⟨hq, hout, hblocked⟩
  have hzero : ∀ p, p (.head false) = false → s.count p = 0 := by
    intro p hp
    refine Finset.sum_eq_zero fun w _ => ?_
    rw [(hblocked w).1, hp]
    rfl
  obtain ⟨w⟩ := ‹Nonempty W›
  refine hq (List.length_eq_zero_iff.1 ?_)
  rw [h, permits, hout, (hblocked w).2, hzero isPopping rfl, hzero isRequeued rfl]

/-- In this run worker `0` has its permit and there is a job for it. -/
theorem run_permits_unit :
    ∃ s, initUnit.run [.create (), .post, .loop 0] = some s ∧ s.Pops 0 ∧ s.jobQueue ≠ [] := by
  have hany : ((initUnit.run [.create (), .post, .loop 0]).any fun s =>
      decide ((s.workers 0).pc = .popping)) = true := by decide
  obtain ⟨s, hs, hpc⟩ := (Option.any_eq_true _ _).1 hany
  have hpops : s.Pops 0 := .inl (of_decide_eq_true hpc)
  have hr : Reachable (fun _ _ => True) s := (Reachable.init _).run (fun _ _ _ => trivial) hs
  exact ⟨s, hs, hpops, (run_permits hr).2.1 0 hpops⟩

end RockCoro.Scheduler
