import RockCoro.Scheduler.Places

/-!
# What the scheduler does to the contexts

A step of the scheduler creates a coroutine, switches from one context to another, or leaves the
contexts alone. `effect` tells which, from the state before the step; the results say what follows
for the contexts that are live, saved and current.
-/

namespace RockCoro

/-- A context: of a coroutine, or of the main coroutine of a worker. -/
inductive Owner (C W : Type)
  | coroutine (c : C)
  | main (w : W)
  deriving DecidableEq

/-- What a step does to the contexts. -/
inductive Effect (C W : Type)
  | none
  | create (c : C)
  /-- `coroutine_swap` on a worker. -/
  | swap (w : W) (target : Owner C W)
  /-- `coroutine_exit_swap` to the main coroutine of a worker. -/
  | exit (w : W)

namespace Scheduler

variable {C W : Type} {s s' : Scheduler C W} {f : Place → List C}
  {cur : Fin TIMEWHEEL_NUM_WHEELS → ℕ} {a : Action C W} {v w : W} {c : C} {o target : Owner C W}

/-- The job that the worker takes in its next step. -/
def nextJob (s : Scheduler C W) (w : W) : Option C :=
  match (s.workers w).pc with
  | .head true | .popping => s.jobQueue.head?
  | _ => none

/-- The effect of each step; a worker switches when it takes a job. -/
def effect (s : Scheduler C W) : Action C W → Effect C W
  | .create c | .spawn _ c => .create c
  | .yield w | .sleep w _ => .swap w (.main w)
  | .exit w => .exit w
  | .loop w =>
    match s.nextJob w with
    | some job => .swap w (.coroutine job)
    | none => .none
  | .post | .timer => .none

/-- `cur_coroutine_` -/
def current (s : Scheduler C W) (w : W) : Owner C W :=
  match (s.workers w).curCoroutine with
  | some c => .coroutine c
  | none => .main w

/-- The context is there: a coroutine is allocated, a main coroutine always is. -/
def Live (s : Scheduler C W) : Owner C W → Prop
  | .coroutine c => (s.coroutines c).allocated = true
  | .main _ => True

/-- `started_`. The constructor of `TLScheduler` sets it for the main coroutine. -/
def started (s : Scheduler C W) : Owner C W → Bool
  | .coroutine c => (s.coroutines c).started
  | .main _ => true

/-- The context holds the registers of the last switch out. -/
def Saved (s : Scheduler C W) : Owner C W → Prop
  | .coroutine c => (s.coroutines c).allocated = true ∧ (s.coroutines c).saved = true
  | .main w => (s.workers w).mainSaved = true

/-! ## The current coroutines -/

/-- The main context is saved while a coroutine runs. -/
theorem Inv.mainSaved_iff (h : s.Inv f cur) :
    (s.workers w).mainSaved = true ↔ (s.workers w).curCoroutine ≠ none := by
  have hok := h.workers w
  rw [TLScheduler.Ok] at hok
  split at hok
  all_goals
    obtain ⟨hcur, hsaved⟩ := hok
    simp_all

/-- The context of a worker that runs is there. -/
theorem Inv.live_current (h : s.Inv f cur) : s.Live (s.current w) := by
  rw [current]
  split
  · rename_i c hcur
    have hat : s.At f c (.worker w .current) := hcur
    exact h.exclusive.live_of_at hat
  · trivial

/-- A context that runs is not saved. -/
theorem Inv.not_saved_current (h : s.Inv f cur) : ¬s.Saved (s.current w) := by
  rw [current]
  split
  · rename_i c hcur
    have hfits := h.fits (l := .worker w .current) hcur
    exact fun hsaved => absurd (hfits.2.1.symm.trans hsaved.2) (by decide)
  · rename_i hcur
    exact fun hsaved => h.mainSaved_iff.1 hsaved hcur

/-- A context that runs was started. -/
theorem Inv.started_current (h : s.Inv f cur) : s.started (s.current w) = true := by
  rw [current]
  split
  · rename_i c hcur
    exact (h.fits (l := .worker w .current) hcur).1
  · rfl

/-- No two workers run on one stack. -/
theorem Inv.current_inj (h : s.Inv f cur) (he : s.current v = s.current w) : v = w := by
  rw [current, current] at he
  split at he
  · rename_i c hv
    split at he
    · rename_i d hw
      cases he
      have hatv : s.At f c (.worker v .current) := hv
      have hatw : s.At f c (.worker w .current) := hw
      cases h.exclusive.unique hatv hatw
      rfl
    · cases he
  · split at he
    · cases he
    · cases he
      rfl

/-! ## Steps that leave the contexts alone -/

/-- The contexts are as before, except of coroutines that are deleted. -/
structure KeepsContexts (s s' : Scheduler C W) : Prop where
  current : ∀ v, s'.current v = s.current v
  mainSaved : ∀ v, (s'.workers v).mainSaved = (s.workers v).mainSaved
  coroutines : ∀ c, s'.coroutines c = s.coroutines c ∨ s'.coroutines c = {}

/-- Contexts depend on the workers and the coroutines. -/
theorem keepsContexts_of_workers (hw : s'.workers = s.workers) (hc : s'.coroutines = s.coroutines) :
    s.KeepsContexts s' where
  current v := by rw [Scheduler.current, Scheduler.current, hw]
  mainSaved v := by rw [hw]
  coroutines c := .inl (by rw [hc])

namespace KeepsContexts

/-- Contexts are kept if nothing happens. -/
theorem refl : s.KeepsContexts s := keepsContexts_of_workers rfl rfl

/-- Contexts are kept over two steps. -/
theorem trans {s₁ s₂ : Scheduler C W} (h : s.KeepsContexts s₁) (h' : s₁.KeepsContexts s₂) :
    s.KeepsContexts s₂ where
  current v := (h'.current v).trans (h.current v)
  mainSaved v := (h'.mainSaved v).trans (h.mainSaved v)
  coroutines c := by
    rcases h'.coroutines c with hc | hc
    · rw [hc]
      exact h.coroutines c
    · exact .inr hc

variable (h : s.KeepsContexts s')
include h

/-- A context that is there was there. -/
theorem live (hlive : s'.Live o) : s.Live o := by
  cases o with
  | coroutine c =>
    rcases h.coroutines c with hc | hc
    · rwa [Live, hc] at hlive
    · rw [Live, hc] at hlive
      cases hlive
  | main w => trivial

/-- A context that is there was started as it is now. -/
theorem started (hlive : s'.Live o) : s'.started o = s.started o := by
  cases o with
  | coroutine c =>
    rcases h.coroutines c with hc | hc
    · rw [Scheduler.started, Scheduler.started, hc]
    · rw [Live, hc] at hlive
      cases hlive
  | main w => rfl

/-- A context that is saved was saved. -/
theorem saved (hsaved : s'.Saved o) : s.Saved o := by
  cases o with
  | coroutine c =>
    rcases h.coroutines c with hc | hc
    · rwa [Saved, hc] at hsaved
    · rw [Saved, hc] at hsaved
      cases hsaved.1
  | main w => rwa [Saved, h.mainSaved] at hsaved

end KeepsContexts

section
variable [DecidableEq C] [DecidableEq W]

omit [DecidableEq C] [DecidableEq W] in
/-- The end of a tick is the business of the timer. -/
theorem endTick_same {i : Fin TIMEWHEEL_NUM_WHEELS} :
    (s.endTick i).workers = s.workers ∧ (s.endTick i).coroutines = s.coroutines := by
  rw [endTick]
  split
  · exact ⟨rfl, rfl⟩
  · exact ⟨rfl, rfl⟩

omit [DecidableEq W] in
/-- The thread of the timer leaves the workers and the coroutines alone. -/
theorem timerStep_same (hs : s.timerStep = some s') :
    s'.workers = s.workers ∧ s'.coroutines = s.coroutines := by
  rw [timerStep] at hs
  repeat' split at hs
  all_goals
    first
    | cases hs
      first
      | exact endTick_same
      | exact ⟨rfl, rfl⟩
    | cases hs

omit [DecidableEq W] in
/-- The timer keeps the contexts. -/
theorem keepsContexts_timerStep (hs : s.timerStep = some s') : s.KeepsContexts s' :=
  keepsContexts_of_workers (timerStep_same hs).1 (timerStep_same hs).2

omit [DecidableEq C] in
/-- A worker that keeps its current coroutine and its main context. -/
theorem keepsContexts_update {t : TLScheduler C} (hw : s'.workers = Function.update s.workers w t)
    (hcur : t.curCoroutine = (s.workers w).curCoroutine)
    (hsaved : t.mainSaved = (s.workers w).mainSaved)
    (hc : ∀ c, s'.coroutines c = s.coroutines c ∨ s'.coroutines c = {}) : s.KeepsContexts s' := by
  refine ⟨fun v => ?_, fun v => ?_, hc⟩
  · rw [current, current, hw]
    rcases eq_or_ne v w with rfl | hv
    · rw [Function.update_self, hcur]
    · rw [Function.update_of_ne hv]
  · rw [hw]
    rcases eq_or_ne v w with rfl | hv
    · rw [Function.update_self, hsaved]
    · rw [Function.update_of_ne hv]

omit [DecidableEq C] in
/-- A worker that goes on keeps the contexts. -/
theorem keepsContexts_setPc {pc : WorkerPc} : s.KeepsContexts (s.setPc w pc) :=
  keepsContexts_update rfl rfl rfl fun _ => .inl rfl

omit [DecidableEq C] in
/-- `flush_pending_push` keeps the contexts. -/
theorem keepsContexts_flushPendingPush : s.KeepsContexts (s.flushPendingPush w) := by
  rw [flushPendingPush]
  split
  · exact keepsContexts_update rfl rfl rfl fun _ => .inl rfl
  · exact .refl

/-- `flush_pending_destroy` keeps the contexts but that of the coroutine it deletes. -/
theorem keepsContexts_flushPendingDestroy : s.KeepsContexts (s.flushPendingDestroy w) := by
  rw [flushPendingDestroy]
  split
  · rename_i c hc
    refine keepsContexts_update rfl rfl rfl fun d => ?_
    rcases eq_or_ne d c with rfl | hd
    · exact .inr (Function.update_self ..)
    · exact .inl (Function.update_of_ne hd ..)
  · exact .refl

/-- `flush_pending_add_event` keeps the contexts. -/
theorem keepsContexts_flushPendingAddEvent (hs : s.flushPendingAddEvent w = .ok s') :
    s.KeepsContexts s' := by
  rw [flushPendingAddEvent] at hs
  split at hs
  · rename_i c hc
    cases hadd : s.timer.addEvent c (s.timer.nodes c).delayMS with
    | error e =>
      simp only [bind, Except.bind, hadd] at hs
      cases hs
    | ok timer =>
      simp only [bind, Except.bind, hadd] at hs
      cases hs
      exact keepsContexts_update rfl rfl rfl fun _ => .inl rfl
  · cases hs
    exact .refl

/-- A step of the loop that takes no job. -/
theorem keepsContexts_loop (hs : s.loop w = some s') (hjob : s.nextJob w = none) :
    s.KeepsContexts s' := by
  have hpop : ∀ {y : Bool}, s.jobQueue.head? = none → s.popAndSwitch w y = s.setPc w (.head y) := by
    intro y hhead
    rw [popAndSwitch, List.head?_eq_none_iff.1 hhead]
  rw [nextJob] at hjob
  cases hpc : (s.workers w).pc with
  | head y =>
    cases y with
    | false =>
      simp only [loop, hpc] at hs
      split at hs
      · cases hs
      · cases hs
        exact keepsContexts_update rfl rfl rfl fun _ => .inl rfl
    | true =>
      rw [hpc] at hjob
      simp only [loop, hpc, hpop hjob] at hs
      cases hs
      exact keepsContexts_setPc
  | popping =>
    rw [hpc] at hjob
    simp only [loop, hpc, hpop hjob] at hs
    cases hs
    exact keepsContexts_setPc
  | running =>
    simp only [loop, hpc] at hs
    cases hs
  | posting =>
    simp only [loop, hpc] at hs
    cases hs
    exact keepsContexts_update rfl rfl rfl fun _ => .inl rfl
  | flushPush =>
    simp only [loop, hpc] at hs
    cases hs
    exact keepsContexts_flushPendingPush.trans keepsContexts_setPc
  | flushDestroy y =>
    simp only [loop, hpc] at hs
    cases hs
    exact keepsContexts_flushPendingDestroy.trans keepsContexts_setPc
  | flushAddEvent y =>
    simp only [loop, hpc] at hs
    split at hs
    · rename_i s₁ hs₁
      cases hs
      exact (keepsContexts_flushPendingAddEvent hs₁).trans keepsContexts_setPc
    · cases hs

/-- A step without an effect keeps the contexts. -/
theorem keepsContexts_step (hs : s.step a = some s') (he : s.effect a = .none) :
    s.KeepsContexts s' := by
  cases a with
  | create c => cases he
  | spawn w c => cases he
  | yield w => cases he
  | sleep w d => cases he
  | exit w => cases he
  | post =>
    simp only [step] at hs
    split at hs
    · cases hs
    · cases hs
      exact keepsContexts_of_workers rfl rfl
  | timer => exact keepsContexts_timerStep hs
  | loop w =>
    refine keepsContexts_loop hs ?_
    cases hjob : s.nextJob w with
    | none => rfl
    | some job =>
      rw [effect, hjob] at he
      cases he

/-! ## Coroutines that have returned -/

section
variable {pc : WorkerPc} {t : TLScheduler C}

omit [DecidableEq C] in
/-- A worker that is changed keeps what it is to delete, unless the change says otherwise. -/
theorem pendingDestroy_update (hw : s'.workers = Function.update s.workers w t)
    (ht : t.pendingDestroy = (s.workers w).pendingDestroy) :
    (s'.workers v).pendingDestroy = (s.workers v).pendingDestroy := by
  rw [hw]
  rcases eq_or_ne v w with rfl | hv
  · rw [Function.update_self, ht]
  · rw [Function.update_of_ne hv]

omit [DecidableEq C] in
@[simp] theorem pendingDestroy_setPc :
    ((s.setPc w pc).workers v).pendingDestroy = (s.workers v).pendingDestroy :=
  pendingDestroy_update rfl rfl

omit [DecidableEq C] in
@[simp] theorem pendingDestroy_flushPendingPush :
    ((s.flushPendingPush w).workers v).pendingDestroy = (s.workers v).pendingDestroy := by
  rw [flushPendingPush]
  split
  · exact pendingDestroy_update (s := s.pushBack _) rfl rfl
  · rfl

/-- `flush_pending_destroy` deletes what was pending and leaves nothing pending. -/
theorem flushPendingDestroy_destroys :
    (((s.flushPendingDestroy w).workers v).pendingDestroy = some c →
      (s.workers v).pendingDestroy = some c) ∧
    (s.Live (.coroutine c) → (s.flushPendingDestroy w).Live (.coroutine c) ∨
      (s.workers w).pendingDestroy = some c) := by
  rw [flushPendingDestroy]
  split
  · rename_i d hd
    refine ⟨fun h => ?_, fun h => ?_⟩
    · rcases eq_or_ne v w with rfl | hv
      · simp [setWorker] at h
      · simpa [setWorker, setCoroutine, hv] using h
    · rcases eq_or_ne c d with rfl | hc
      · exact .inr hd
      · refine .inl ?_
        rw [Live] at h ⊢
        simpa [setWorker, setCoroutine, hc] using h
  · exact ⟨id, .inl⟩

/-- `flush_pending_add_event` deletes nothing and is not about to. -/
theorem pendingDestroy_flushPendingAddEvent (hs : s.flushPendingAddEvent w = .ok s') :
    (s'.workers v).pendingDestroy = (s.workers v).pendingDestroy ∧
      s'.coroutines = s.coroutines := by
  rw [flushPendingAddEvent] at hs
  split at hs
  · rename_i d hd
    cases hadd : s.timer.addEvent d (s.timer.nodes d).delayMS with
    | error e =>
      simp only [bind, Except.bind, hadd] at hs
      cases hs
    | ok timer =>
      simp only [bind, Except.bind, hadd] at hs
      cases hs
      exact ⟨pendingDestroy_update (s := { s with timer := timer }) rfl rfl, rfl⟩
  · cases hs
    exact ⟨rfl, rfl⟩

/-- The switch to a job deletes nothing. -/
theorem popAndSwitch_destroys {y : Bool} :
    ((s.popAndSwitch w y).workers v).pendingDestroy = (s.workers v).pendingDestroy ∧
      (s.Live (.coroutine c) → (s.popAndSwitch w y).Live (.coroutine c)) := by
  rw [popAndSwitch]
  split
  · exact ⟨pendingDestroy_setPc, id⟩
  · rename_i job jobs hq
    refine ⟨?_, fun h => ?_⟩
    · rw [pendingDestroy_setPc, swapIn]
      exact pendingDestroy_update (s := { s with jobQueue := jobs }) rfl rfl
    · rw [Live] at h ⊢
      rcases eq_or_ne c job with rfl | hc
      · simp only [swapIn, setPc, setWorker, setCoroutine, Function.update_self]
        rw [Coroutine.switchIn]
        split
        · exact h
        · exact h
      · simpa [swapIn, setPc, setWorker, setCoroutine, hc] using h

/-- What the loop makes of the coroutines to delete and of those that live. -/
theorem loop_destroys (hs : s.loop w = some s') :
    ((s'.workers v).pendingDestroy = some c → (s.workers v).pendingDestroy = some c) ∧
      (s.Live (.coroutine c) → s'.Live (.coroutine c) ∨
        (s.workers w).pendingDestroy = some c) := by
  cases hpc : (s.workers w).pc with
  | head y =>
    cases y with
    | false =>
      simp only [loop, hpc] at hs
      split at hs
      · cases hs
      · cases hs
        exact ⟨fun h => by simpa using h, .inl⟩
    | true =>
      simp only [loop, hpc] at hs
      cases hs
      obtain ⟨hsame, hlive⟩ := popAndSwitch_destroys (s := s) (w := w) (v := v) (c := c) (y := true)
      exact ⟨fun h => hsame ▸ h, fun h => .inl (hlive h)⟩
  | popping =>
    simp only [loop, hpc] at hs
    cases hs
    obtain ⟨hsame, hlive⟩ := popAndSwitch_destroys (s := s) (w := w) (v := v) (c := c) (y := false)
    exact ⟨fun h => hsame ▸ h, fun h => .inl (hlive h)⟩
  | running =>
    simp only [loop, hpc] at hs
    cases hs
  | posting =>
    simp only [loop, hpc] at hs
    cases hs
    exact ⟨fun h => by simpa [semPost] using h, .inl⟩
  | flushPush =>
    simp only [loop, hpc] at hs
    cases hs
    refine ⟨fun h => by simpa using h, fun h => .inl ?_⟩
    rw [Live] at h ⊢
    rw [← h, flushPendingPush]
    split <;> rfl
  | flushDestroy y =>
    simp only [loop, hpc] at hs
    cases hs
    obtain ⟨hsame, hlive⟩ := flushPendingDestroy_destroys (s := s) (w := w) (v := v) (c := c)
    exact ⟨fun h => hsame (by simpa using h), hlive⟩
  | flushAddEvent y =>
    simp only [loop, hpc] at hs
    split at hs
    · rename_i s₁ hs₁
      cases hs
      obtain ⟨hsame, hcor⟩ := pendingDestroy_flushPendingAddEvent (v := v) hs₁
      refine ⟨fun h => hsame ▸ (by simpa using h), fun h => .inl ?_⟩
      rw [Live] at h ⊢
      exact (congrArg Coroutine.allocated (congrFun hcor c)).trans h
    · cases hs

end

/-- A coroutine is to be deleted from its return on, until then it lives. -/
theorem step_destroys (hs : s.step a = some s') :
    (∀ v, (s'.workers v).pendingDestroy = some c →
      (s.workers v).pendingDestroy = some c ∨ a = .exit v ∧ s.current v = .coroutine c) ∧
    (s.Live (.coroutine c) → s'.Live (.coroutine c) ∨
      ∃ w, (s.workers w).pendingDestroy = some c) := by
  cases a with
  | timer =>
    obtain ⟨hw, hc⟩ := timerStep_same hs
    rw [hw]
    exact ⟨fun _ => .inl, fun h => .inl (by rwa [Live, hc])⟩
  | post =>
    simp only [step] at hs
    split at hs
    · cases hs
    · cases hs
      exact ⟨fun _ => .inl, .inl⟩
  | loop w =>
    exact ⟨fun v h => .inl ((loop_destroys hs).1 h),
      fun h => ((loop_destroys (v := w) hs).2 h).imp_right fun h => ⟨w, h⟩⟩
  | create d =>
    simp only [step] at hs
    split at hs
    · cases hs
    · cases hs
      refine ⟨fun _ => .inl, fun h => .inl ?_⟩
      rw [Live] at h ⊢
      rcases eq_or_ne c d with rfl | hc
      · simp [coroutineCreate, setCoroutine, pushBack]
      · simpa [coroutineCreate, setCoroutine, pushBack, hc] using h
  | spawn w d =>
    simp only [step] at hs
    split at hs
    · split at hs
      · cases hs
      · cases hs
        refine ⟨fun v h => .inl (by simpa [coroutineCreate, setCoroutine, pushBack] using h),
          fun h => .inl ?_⟩
        rw [Live] at h ⊢
        rcases eq_or_ne c d with rfl | hc
        · simp [coroutineCreate, setCoroutine, pushBack, setPc, setWorker]
        · simpa [coroutineCreate, setCoroutine, pushBack, setPc, setWorker, hc] using h
    · cases hs
  | yield w =>
    obtain ⟨d, -, rfl⟩ := Option.map_eq_some_iff.1 hs
    refine ⟨fun v h => .inl ?_, fun h => .inl ?_⟩
    · rwa [pendingDestroy_update (s := s) (w := w) (t := { s.workers w with
        pc := .flushPush, curCoroutine := none, mainSaved := false, pendingPush := some d })
        (by simp [Scheduler.coroutineYield, swapOut, setPc, setWorker, setCoroutine]) rfl] at h
    · rw [Live] at h ⊢
      rcases eq_or_ne c d with rfl | hc
      · simp [Scheduler.coroutineYield, swapOut, setPc, setWorker, setCoroutine, h]
      · simp [Scheduler.coroutineYield, swapOut, setPc, setWorker, setCoroutine, hc, h]
  | sleep w k =>
    obtain ⟨d, -, rfl⟩ := Option.map_eq_some_iff.1 hs
    refine ⟨fun v h => .inl ?_, fun h => .inl ?_⟩
    · rwa [pendingDestroy_update (s := s) (w := w) (t := { s.workers w with
        pc := .flushPush, curCoroutine := none, mainSaved := false, pendingAddEvent := some d })
        (by simp [Scheduler.coroutineSleep, swapOut, setPc, setWorker, setCoroutine]) rfl] at h
    · rw [Live] at h ⊢
      rcases eq_or_ne c d with rfl | hc
      · simp [Scheduler.coroutineSleep, swapOut, setPc, setWorker, setCoroutine, h]
      · simp [Scheduler.coroutineSleep, swapOut, setPc, setWorker, setCoroutine, hc, h]
  | exit w =>
    obtain ⟨d, hd, rfl⟩ := Option.map_eq_some_iff.1 hs
    refine ⟨fun v h => ?_, fun h => .inl h⟩
    rcases eq_or_ne v w with rfl | hv
    · simp only [Scheduler.coroutineReturn, exitSwap, setPc, setWorker, Function.update_self] at h
      cases h
      refine .inr ⟨rfl, ?_⟩
      rw [current, (runningOn_eq_some hd).2]
    · simp only [Scheduler.coroutineReturn, exitSwap, setPc, setWorker,
        Function.update_of_ne hv] at h
      exact .inl h

/-- Only a return makes a coroutine one to delete. -/
theorem pendingDestroy_of_step (hs : s.step a = some s') (hnot : ∀ v, a ≠ .exit v)
    (hc : (s'.workers v).pendingDestroy = some c) : (s.workers v).pendingDestroy = some c :=
  ((step_destroys hs).1 v hc).resolve_right fun hexit => hnot v hexit.1

/-! ## Switches -/

omit [DecidableEq C] [DecidableEq W] in
/-- Worker `w` goes on with `target`, a context that it can go on with. -/
structure Switched (s s' : Scheduler C W) (w : W) (target : Owner C W) : Prop where
  live_target : s.Live target
  saved_target : s.started target = true → s.Saved target
  current : s'.current w = target
  others : ∀ v, v ≠ w → s'.current v = s.current v
  live : ∀ o, s'.Live o ↔ s.Live o
  started : ∀ o, s'.started o = false → s.started o = false ∧ o ≠ target
  saved : ∀ o, s'.Saved o → o ≠ target ∧ (o = s.current w ∨ s.Saved o)

omit [DecidableEq C] in
/-- The other workers run what they ran. -/
theorem current_update {t : TLScheduler C} (hw : s'.workers = Function.update s.workers w t)
    (hv : v ≠ w) : s'.current v = s.current v := by
  rw [current, current, hw, Function.update_of_ne hv]

/-- Taking a job switches to it. -/
theorem Inv.switched_popAndSwitch {job : C} {jobs : List C} (h : s.Inv f cur)
    (hq : s.jobQueue = job :: jobs) (hcur : (s.workers w).curCoroutine = none) :
    s.Switched (({ s with jobQueue := jobs }.swapIn w job).setPc w .running) w
      (.coroutine job) := by
  have hat : s.At f job .jobQueue := by
    rw [At, hq]
    exact List.mem_cons_self
  have hlive := h.exclusive.live_of_at hat
  obtain ⟨hst, hsv, -, hal⟩ := (h.fits hat).switchIn
  generalize hs' : ({ s with jobQueue := jobs }.swapIn w job).setPc w .running = s'
  have hw : s'.workers = Function.update s.workers w { s.workers w with
      pc := .running, curCoroutine := some job, mainSaved := true } := by
    subst hs'
    simp [swapIn, Scheduler.setPc, setWorker, setCoroutine]
  have hcor : s'.coroutines = Function.update s.coroutines job (s.coroutines job).switchIn := by
    subst hs'
    rfl
  have hself : s'.coroutines job = (s.coroutines job).switchIn := by rw [hcor, Function.update_self]
  have hne : ∀ {c}, c ≠ job → s'.coroutines c = s.coroutines c := by
    intro c hc
    rw [hcor, Function.update_of_ne hc]
  refine ⟨hlive, fun hstarted => ⟨hlive, ?_⟩, ?_, fun v hv => current_update hw hv, fun o => ?_,
    fun o ho => ?_, fun o ho => ?_⟩
  · rcases h.fits hat with ⟨hnot, -⟩ | ⟨-, hsaved, -⟩
    · cases hnot.symm.trans hstarted
    · exact hsaved
  · rw [Scheduler.current, hw, Function.update_self]
  · cases o with
    | coroutine c =>
      rcases eq_or_ne c job with rfl | hc
      · rw [Live, Live, hself, hal]
      · rw [Live, Live, hne hc]
    | main v => exact Iff.rfl
  · cases o with
    | coroutine c =>
      rcases eq_or_ne c job with rfl | hc
      · rw [Scheduler.started, hself, hst] at ho
        cases ho
      · rw [Scheduler.started, hne hc] at ho
        exact ⟨ho, fun he => hc (Owner.coroutine.inj he)⟩
    | main v => cases ho
  · cases o with
    | coroutine c =>
      rcases eq_or_ne c job with rfl | hc
      · rw [Saved, hself, hsv] at ho
        cases ho.2
      · rw [Saved, hne hc] at ho
        exact ⟨fun he => hc (Owner.coroutine.inj he), .inr ho⟩
    | main v =>
      refine ⟨fun he => (by cases he), ?_⟩
      rcases eq_or_ne v w with rfl | hv
      · refine .inl ?_
        rw [Scheduler.current, hcur]
      · rw [Saved, hw, Function.update_of_ne hv] at ho
        exact .inr ho

omit [DecidableEq C] in
/-- The current coroutine of `w` goes back to the main coroutine. -/
theorem Inv.switched_main {t : TLScheduler C} (h : s.Inv f cur)
    (hc : (s.workers w).curCoroutine = some c) (hw : s'.workers = Function.update s.workers w t)
    (ht : t.curCoroutine = none ∧ t.mainSaved = false)
    (hcor : ∀ d, d ≠ c → s'.coroutines d = s.coroutines d)
    (halloc : (s'.coroutines c).allocated = (s.coroutines c).allocated)
    (hstarted : (s'.coroutines c).started = (s.coroutines c).started) :
    s.Switched s' w (.main w) := by
  have hcurrent : s.current w = .coroutine c := by rw [current, hc]
  refine ⟨trivial, fun _ => h.mainSaved_iff.2 (hc ▸ Option.some_ne_none c), ?_,
    fun v hv => current_update hw hv, fun o => ?_, fun o ho => ?_, fun o ho => ?_⟩
  · rw [current, hw, Function.update_self, ht.1]
  · cases o with
    | coroutine d =>
      rcases eq_or_ne d c with rfl | hd
      · rw [Live, Live, halloc]
      · rw [Live, Live, hcor d hd]
    | main v => exact Iff.rfl
  · cases o with
    | coroutine d =>
      refine ⟨?_, nofun⟩
      rcases eq_or_ne d c with rfl | hd
      · rwa [started, hstarted] at ho
      · rwa [started, hcor d hd] at ho
    | main v => cases ho
  · cases o with
    | coroutine d =>
      refine ⟨nofun, ?_⟩
      rcases eq_or_ne d c with rfl | hd
      · exact .inl hcurrent.symm
      · rw [Saved, hcor d hd] at ho
        exact .inr ho
    | main v =>
      rcases eq_or_ne v w with rfl | hv
      · rw [Saved, hw, Function.update_self, ht.2] at ho
        cases ho
      · rw [Saved, hw, Function.update_of_ne hv] at ho
        exact ⟨fun he => hv (Owner.main.inj he), .inr ho⟩

/-- A step with a switch as its effect switches. -/
theorem Inv.switched (h : s.Inv f cur) (hs : s.step a = some s')
    (he : s.effect a = .swap w target) : s.Switched s' w target := by
  cases a with
  | create c => cases he
  | spawn v c => cases he
  | exit v => cases he
  | post => cases he
  | timer => cases he
  | yield v =>
    cases he
    obtain ⟨c, hc, rfl⟩ := Option.map_eq_some_iff.1 hs
    obtain ⟨-, hcur⟩ := runningOn_eq_some hc
    refine h.switched_main hcur (t := { s.workers w with
      pc := .flushPush, curCoroutine := none, mainSaved := false, pendingPush := some c })
      ?_ ⟨rfl, rfl⟩ (fun d hd => Function.update_of_ne hd ..) ?_ ?_
    · simp [Scheduler.coroutineYield, swapOut, Scheduler.setPc, setWorker, setCoroutine]
    · simp [Scheduler.coroutineYield, swapOut, Scheduler.setPc, setWorker, setCoroutine]
    · simp [Scheduler.coroutineYield, swapOut, Scheduler.setPc, setWorker, setCoroutine]
  | sleep v d =>
    cases he
    obtain ⟨c, hc, rfl⟩ := Option.map_eq_some_iff.1 hs
    obtain ⟨-, hcur⟩ := runningOn_eq_some hc
    refine h.switched_main hcur (t := { s.workers w with
      pc := .flushPush, curCoroutine := none, mainSaved := false, pendingAddEvent := some c })
      ?_ ⟨rfl, rfl⟩ (fun d hd => Function.update_of_ne hd ..) ?_ ?_
    · simp [Scheduler.coroutineSleep, swapOut, Scheduler.setPc, setWorker, setCoroutine]
    · simp [Scheduler.coroutineSleep, swapOut, Scheduler.setPc, setWorker, setCoroutine]
    · simp [Scheduler.coroutineSleep, swapOut, Scheduler.setPc, setWorker, setCoroutine]
  | loop v =>
    rw [effect] at he
    split at he
    · rename_i job hjob
      cases he
      rw [nextJob] at hjob
      have hok := h.workers w
      have hpop : ∀ {y : Bool}, s.jobQueue.head? = some job → (s.workers w).curCoroutine = none →
          s.Switched (s.popAndSwitch w y) w (.coroutine job) := by
        intro y hhead hcur
        obtain ⟨jobs, hq⟩ := List.head?_eq_some_iff.1 hhead
        rw [Scheduler.popAndSwitch, hq]
        exact h.switched_popAndSwitch hq hcur
      split at hjob
      · rename_i hpc
        rw [TLScheduler.Ok, hpc] at hok
        simp only [Scheduler.step, Scheduler.loop, hpc] at hs
        cases hs
        exact hpop hjob hok.1
      · rename_i hpc
        rw [TLScheduler.Ok, hpc] at hok
        simp only [Scheduler.step, Scheduler.loop, hpc] at hs
        cases hs
        exact hpop hjob hok.1
      · cases hjob
    · cases he

section
variable (h : s.Inv f cur) (hc : (s.workers v).pendingDestroy = some c)
include h hc

omit [DecidableEq C] [DecidableEq W] in
/-- A coroutine that is to be deleted lives. -/
theorem Inv.live_of_pendingDestroy : s.Live (.coroutine c) := by
  have hat : s.At f c (.worker v .destroy) := hc
  exact h.exclusive.live_of_at hat

omit [DecidableEq C] [DecidableEq W] in
/-- No worker runs with it. -/
theorem Inv.ne_current_of_pendingDestroy : .coroutine c ≠ s.current w := by
  intro hcur
  have hat : s.At f c (.worker v .destroy) := hc
  rw [Scheduler.current] at hcur
  split at hcur
  · rename_i d hd
    cases hcur
    have hat' : s.At f c (.worker w .current) := hd
    cases h.exclusive.unique hat hat'
  · cases hcur

omit [DecidableEq C] [DecidableEq W] in
/-- No worker goes on with it. -/
theorem Inv.ne_target_of_pendingDestroy (hsw : s.Switched s' w target) :
    .coroutine c ≠ target := by
  rintro rfl
  have hat : s.At f c (.worker v .destroy) := hc
  obtain ⟨hstarted, hsaved, -⟩ := h.fits hat
  cases hsaved.symm.trans (hsw.saved_target hstarted).2

end

/-- A coroutine that returns is not saved. -/
theorem Inv.switched_exit (h : s.Inv f cur) (hs : s.step a = some s') (he : s.effect a = .exit w) :
    ∃ c, s.current w = .coroutine c ∧ s.Switched s' w (.main w) ∧ ¬s'.Saved (.coroutine c) := by
  cases a with
  | create c => cases he
  | spawn v c => cases he
  | yield v => cases he
  | sleep v d => cases he
  | post => cases he
  | timer => cases he
  | loop v =>
    rw [effect] at he
    split at he <;> cases he
  | exit v =>
    cases he
    obtain ⟨c, hc, rfl⟩ := Option.map_eq_some_iff.1 hs
    obtain ⟨-, hcur⟩ := runningOn_eq_some hc
    have hcurrent : s.current w = .coroutine c := by rw [current, hcur]
    have hsaved : ¬s.Saved (.coroutine c) := hcurrent ▸ h.not_saved_current
    refine ⟨c, hcurrent, h.switched_main hcur (t := { s.workers w with
      pc := .flushPush, curCoroutine := none, mainSaved := false, pendingDestroy := some c })
      ?_ ⟨rfl, rfl⟩ (fun d hd => rfl) rfl rfl, hsaved⟩
    simp [Scheduler.coroutineReturn, exitSwap, Scheduler.setPc, setWorker]

/-! ## New coroutines -/

omit [DecidableEq C] [DecidableEq W] in
/-- `c` is a new coroutine, which has not run. -/
structure Created (s s' : Scheduler C W) (c : C) : Prop where
  not_live : ¬s.Live (.coroutine c)
  live : s'.Live (.coroutine c)
  not_started : s'.started (.coroutine c) = false
  not_saved : ¬s'.Saved (.coroutine c)
  current : ∀ v, s'.current v = s.current v
  others : ∀ o, o ≠ .coroutine c →
    (s'.Live o ↔ s.Live o) ∧ s'.started o = s.started o ∧ (s'.Saved o ↔ s.Saved o)

omit [DecidableEq W] in
/-- A new coroutine is in memory that was not in use. -/
theorem created_of (hc : (s.coroutines c).allocated ≠ true)
    (hcor : s'.coroutines = Function.update s.coroutines c { allocated := true })
    (hcur : ∀ v, (s'.workers v).curCoroutine = (s.workers v).curCoroutine)
    (hsaved : ∀ v, (s'.workers v).mainSaved = (s.workers v).mainSaved) : s.Created s' c := by
  have hself : s'.coroutines c = { allocated := true } := by rw [hcor, Function.update_self]
  refine ⟨hc, ?_, ?_, ?_, fun v => ?_, fun o ho => ?_⟩
  · rw [Live, hself]
  · rw [started, hself]
  · rw [Saved, hself]
    exact fun hsaved => by cases hsaved.2
  · rw [current, current, hcur]
  · cases o with
    | coroutine d =>
      have hd : d ≠ c := fun he => ho (congrArg _ he)
      have hsame : s'.coroutines d = s.coroutines d := by rw [hcor, Function.update_of_ne hd]
      rw [Live, Live, started, started, Saved, Saved, hsame]
      exact ⟨Iff.rfl, rfl, Iff.rfl⟩
    | main v =>
      rw [Saved, Saved, hsaved]
      exact ⟨Iff.rfl, rfl, Iff.rfl⟩

/-- A step with a creation as its effect creates. -/
theorem created (hs : s.step a = some s') (he : s.effect a = .create c) : s.Created s' c := by
  cases a with
  | yield v => cases he
  | sleep v d => cases he
  | exit v => cases he
  | post => cases he
  | timer => cases he
  | loop v =>
    rw [effect] at he
    split at he <;> cases he
  | create d =>
    cases he
    simp only [step] at hs
    split at hs
    · cases hs
    · rename_i hc
      cases hs
      exact created_of hc rfl (fun _ => rfl) fun _ => rfl
  | spawn v d =>
    cases he
    simp only [step] at hs
    split at hs
    · split at hs
      · cases hs
      · rename_i hc
        cases hs
        refine created_of hc rfl (fun x => ?_) fun x => ?_
        · rcases eq_or_ne x v with rfl | hx
          · simp [setPc, setWorker, coroutineCreate, setCoroutine, pushBack]
          · simp [setPc, setWorker, coroutineCreate, setCoroutine, pushBack, hx]
        · rcases eq_or_ne x v with rfl | hx
          · simp [setPc, setWorker, coroutineCreate, setCoroutine, pushBack]
          · simp [setPc, setWorker, coroutineCreate, setCoroutine, pushBack, hx]
    · cases hs

end

end Scheduler

end RockCoro
