import RockCoro.Lib.Placement
import RockCoro.Scheduler.EventLoop
import RockCoro.Timer.Tick

/-!
# Where a coroutine is

A coroutine is in the job queue, in a slot of a `TLScheduler` or in a list of the timer. `Inv s f
cur` says that it is at exactly one of these places, and that its context fits the place: it is
being run by the worker that it is the current coroutine of, and can be resumed wherever another
worker may take it from.
-/

namespace RockCoro

open Placement

variable {C W : Type}

/-- The pointers of a `TLScheduler` to a coroutine. -/
inductive TLSlot
  | current
  | push
  | destroy
  | addEvent
  deriving DecidableEq

/-- The coroutine in a slot of the worker. -/
def TLScheduler.slot (t : TLScheduler C) : TLSlot → Option C
  | .current => t.curCoroutine
  | .push => t.pendingPush
  | .destroy => t.pendingDestroy
  | .addEvent => t.pendingAddEvent

/-- Where a coroutine can be: in the job queue, in a slot of a worker, or in the timer. -/
inductive Location (W : Type)
  | jobQueue
  | worker (w : W) (k : TLSlot)
  | timer (p : Place)

/-- The pending pointers that a worker may hold in its place, and its main context: it holds the
registers of the last switch out while a coroutine runs. -/
def TLScheduler.Ok (t : TLScheduler C) : Prop :=
  match t.pc with
  | .running | .posting => t.curCoroutine ≠ none ∧ t.mainSaved = true ∧ t.pendingPush = none ∧
      t.pendingDestroy = none ∧ t.pendingAddEvent = none
  | .flushPush => t.curCoroutine = none ∧ t.mainSaved = false
  | .flushDestroy _ => t.curCoroutine = none ∧ t.mainSaved = false ∧ t.pendingPush = none
  | .flushAddEvent _ => t.curCoroutine = none ∧ t.mainSaved = false ∧ t.pendingPush = none ∧
      t.pendingDestroy = none
  | .head _ | .popping => t.curCoroutine = none ∧ t.mainSaved = false ∧ t.pendingPush = none ∧
      t.pendingDestroy = none ∧ t.pendingAddEvent = none

/-- A switch to the coroutine does the right thing: it enters a coroutine that was never entered, or
it resumes one that was entered once and whose context is saved. -/
def Coroutine.Resumable (x : Coroutine) : Prop :=
  (x.started = false ∧ x.saved = false ∧ x.entrySwaps = 0) ∨
    (x.started = true ∧ x.saved = true ∧ x.entrySwaps = 1)

/-- The context of a coroutine at a place. -/
def Location.Fits : Location W → Coroutine → Prop
  | .worker _ .current, x => x.started = true ∧ x.saved = false ∧ x.entrySwaps = 1
  | .worker _ .destroy, x => x.started = true ∧ x.saved = false ∧ x.entrySwaps = 1
  | _, x => x.Resumable

/-- A switch to a resumable coroutine enters or resumes it, once. -/
theorem Coroutine.Resumable.switchIn {x : Coroutine} (h : x.Resumable) :
    x.switchIn.started = true ∧ x.switchIn.saved = false ∧ x.switchIn.entrySwaps = 1 ∧
      x.switchIn.allocated = x.allocated := by
  rcases h with ⟨hst, hsv, hen⟩ | ⟨hst, -, hen⟩
  · simp [Coroutine.switchIn, hst, hsv, hen]
  · simp [Coroutine.switchIn, hst, hen]

namespace Scheduler

/-- The coroutine `c` is at a place; the lists of the timer hold `f`. -/
def At (s : Scheduler C W) (f : Place → List C) (c : C) : Location W → Prop
  | .jobQueue => c ∈ s.jobQueue
  | .worker w k => (s.workers w).slot k = some c
  | .timer p => c ∈ f p

/-- The invariant of the scheduler. -/
structure Inv (s : Scheduler C W) (f : Place → List C) (cur : Fin TIMEWHEEL_NUM_WHEELS → ℕ) : Prop
    where
  timer : s.timer.Valid f cur
  exclusive : Exclusive (s.At f) fun c => (s.coroutines c).allocated = true
  nodup : s.jobQueue.Nodup
  workers : ∀ w, (s.workers w).Ok
  fits : ∀ {c l}, s.At f c l → l.Fits (s.coroutines c)

variable {s s' : Scheduler C W} {f f' : Place → List C} {cur cur' : Fin TIMEWHEEL_NUM_WHEELS → ℕ}
  {c a : C} {l o m : Location W} {w v : W} {k k' : TLSlot} {t : TLScheduler C}

/-- A coroutine is handed over. -/
theorem Inv.move (h : s.Inv f cur) (hc : s.At f c o) (hin : s'.At f' c m)
    (hsub : ∀ l, s'.At f' c l → l = m ∨ s.At f c l ∧ l ≠ o)
    (hother : OnlyMoves (s.At f) (s'.At f') c) (htimer : s'.timer.Valid f' cur')
    (hnodup : s'.jobQueue.Nodup) (hworkers : ∀ w, (s'.workers w).Ok)
    (hcor : ∀ a, a ≠ c → s'.coroutines a = s.coroutines a) (hfits : m.Fits (s'.coroutines c))
    (halloc : (s'.coroutines c).allocated = (s.coroutines c).allocated) : s'.Inv f' cur' := by
  refine ⟨htimer, h.exclusive.move hc hin hsub hother fun a => ?_, hnodup, hworkers,
    fun {a l} hl => ?_⟩
  · rcases eq_or_ne a c with rfl | ha
    · rw [halloc]
    · rw [hcor a ha]
  · rcases eq_or_ne a c with rfl | ha
    · rcases hsub l hl with rfl | ⟨hl, hne⟩
      · exact hfits
      · exact absurd (h.exclusive.unique hl hc) hne
    · rw [hcor a ha]
      exact h.fits ((hother a ha l).1 hl)

/-- Nothing is handed over. -/
theorem Inv.stay (h : s.Inv f cur) (hat : ∀ a l, s'.At f' a l ↔ s.At f a l)
    (htimer : s'.timer.Valid f' cur') (hqueue : s'.jobQueue = s.jobQueue)
    (hworkers : ∀ w, (s'.workers w).Ok) (hcor : s'.coroutines = s.coroutines) : s'.Inv f' cur' := by
  refine ⟨htimer, h.exclusive.congr hat fun a => by rw [hcor], hqueue ▸ h.nodup, hworkers,
    fun {a l} hl => ?_⟩
  rw [hcor]
  exact h.fits ((hat a l).1 hl)

variable [DecidableEq W]

/-- The other workers hold what they held. -/
theorem ok_update (h : ∀ v, (s.workers v).Ok) (hw : s'.workers = Function.update s.workers w t)
    (ht : t.Ok) (v : W) : (s'.workers v).Ok := by
  rw [hw]
  rcases eq_or_ne v w with rfl | hv
  · rwa [Function.update_self]
  · rw [Function.update_of_ne hv]
    exact h v

/-- The places of another coroutine at the workers. -/
theorem at_worker_other (hw : s'.workers = Function.update s.workers w t)
    (h : ∀ k, t.slot k = some a ↔ (s.workers w).slot k = some a) :
    s'.At f' a (.worker v k) ↔ s.At f a (.worker v k) := by
  rw [At, At, hw]
  rcases eq_or_ne v w with rfl | hv
  · rw [Function.update_self]
    exact h k
  · rw [Function.update_of_ne hv]

/-- The places at the workers of the coroutine that a step of `w` hands over. -/
theorem at_worker_self (hw : s'.workers = Function.update s.workers w t)
    (ho : ∀ v k, v ≠ w → .worker v k ≠ o)
    (h : ∀ k, t.slot k = some c →
      .worker w k = m ∨ (s.workers w).slot k = some c ∧ .worker w k ≠ o)
    (hat : s'.At f' c (.worker v k)) :
    .worker v k = m ∨ s.At f c (.worker v k) ∧ .worker v k ≠ o := by
  rw [At, hw] at hat
  rcases eq_or_ne v w with rfl | hv
  · rw [Function.update_self] at hat
    exact h k hat
  · rw [Function.update_of_ne hv] at hat
    exact .inr ⟨hat, ho v k hv⟩

/-! ## The steps of a worker -/

variable [DecidableEq C]

omit [DecidableEq C] in
/-- A worker moves on with its pointers as they are. -/
theorem Inv.setPc (h : s.Inv f cur) (pc : WorkerPc)
    (hok : TLScheduler.Ok { s.workers w with pc := pc })
    (hw : s'.workers = Function.update s.workers w { s.workers w with pc := pc })
    (hqueue : s'.jobQueue = s.jobQueue) (htimer : s'.timer = s.timer)
    (hcor : s'.coroutines = s.coroutines) : s'.Inv f cur := by
  refine h.stay (fun a l => ?_) (htimer ▸ h.timer) hqueue (ok_update h.workers hw hok) hcor
  cases l with
  | jobQueue => rw [At, At, hqueue]
  | worker v k =>
    refine at_worker_other hw fun k => ?_
    cases k with
    | current => rfl
    | push => rfl
    | destroy => rfl
    | addEvent => rfl
  | timer p => exact Iff.rfl

/-- The first job goes to a worker. -/
theorem Inv.pop {job : C} {jobs : List C} (h : s.Inv f cur) (hq : s.jobQueue = job :: jobs)
    (hcur : (s.workers w).curCoroutine = none)
    (hok : TLScheduler.Ok { s.workers w with
      pc := .running, curCoroutine := some job, mainSaved := true }) :
    (({ s with jobQueue := jobs }.swapIn w job).setPc w .running).Inv f cur := by
  have hnodup : job ∉ jobs ∧ jobs.Nodup := List.nodup_cons.1 (hq ▸ h.nodup)
  have hat : s.At f job .jobQueue := by
    rw [At, hq]
    exact List.mem_cons_self
  obtain ⟨hst, hsv, hen, hal⟩ := (h.fits hat).switchIn
  generalize hs' : ({ s with jobQueue := jobs }.swapIn w job).setPc w .running = s'
  have hw : s'.workers = Function.update s.workers w { s.workers w with
      pc := .running, curCoroutine := some job, mainSaved := true } := by
    subst hs'
    simp [swapIn, Scheduler.setPc, setWorker, setCoroutine]
  have hjobs : s'.jobQueue = jobs := by
    subst hs'
    rfl
  have hcor : s'.coroutines = Function.update s.coroutines job (s.coroutines job).switchIn := by
    subst hs'
    rfl
  have htimer : s'.timer = s.timer := by
    subst hs'
    rfl
  have hself : s'.coroutines job = (s.coroutines job).switchIn := by rw [hcor, Function.update_self]
  refine h.move (m := .worker w .current) hat ?_ (fun l hl => ?_) (fun a ha l => ?_)
    (htimer ▸ h.timer) (hjobs ▸ hnodup.2) (ok_update h.workers hw hok) (fun a ha => ?_) ?_ ?_
  · rw [At, hw, Function.update_self]
    rfl
  · cases l with
    | jobQueue =>
      rw [At, hjobs] at hl
      exact absurd hl hnodup.1
    | worker v k =>
      refine at_worker_self hw (fun _ _ _ => nofun) (fun k hk => ?_) hl
      cases k with
      | current => exact .inl rfl
      | push => exact .inr ⟨hk, nofun⟩
      | destroy => exact .inr ⟨hk, nofun⟩
      | addEvent => exact .inr ⟨hk, nofun⟩
    | timer p => exact .inr ⟨hl, nofun⟩
  · cases l with
    | jobQueue =>
      rw [At, At, hjobs, hq]
      simp [ha]
    | worker v k =>
      refine at_worker_other hw fun k => ?_
      cases k with
      | current => simp [TLScheduler.slot, hcur, ha.symm]
      | push => rfl
      | destroy => rfl
      | addEvent => rfl
    | timer p => exact Iff.rfl
  · rw [hcor, Function.update_of_ne ha]
  · rw [hself]
    exact ⟨hst, hsv, hen⟩
  · rw [hself, hal]

omit [DecidableEq C] in
/-- The current coroutine goes to another pointer of its worker. -/
theorem Inv.handOff (h : s.Inv f cur) (hat : s.At f c (.worker w .current)) (hk : k ≠ .current)
    (hold : (s.workers w).slot k = none) (hw : s'.workers = Function.update s.workers w t)
    (hok : t.Ok) (hcur : t.slot .current = none) (hnew : t.slot k = some c)
    (hrest : ∀ k', k' ≠ .current → k' ≠ k → t.slot k' = (s.workers w).slot k')
    (hqueue : s'.jobQueue = s.jobQueue) (htimer : s'.timer.Valid f cur)
    (hcor : ∀ a, a ≠ c → s'.coroutines a = s.coroutines a)
    (hfits : (Location.worker w k).Fits (s'.coroutines c))
    (halloc : (s'.coroutines c).allocated = (s.coroutines c).allocated) : s'.Inv f cur := by
  have hcurrent : (s.workers w).slot .current = some c := hat
  refine h.move (m := .worker w k) hat ?_ (fun l hl => ?_) (fun a ha l => ?_) htimer
    (hqueue ▸ h.nodup) (ok_update h.workers hw hok) hcor hfits halloc
  · rw [At, hw, Function.update_self]
    exact hnew
  · cases l with
    | jobQueue =>
      rw [At, hqueue] at hl
      exact .inr ⟨hl, nofun⟩
    | worker v k' =>
      refine at_worker_self hw (fun v k' hv he => ?_) (fun k' hk' => ?_) hl
      · cases he
        exact hv rfl
      · rcases eq_or_ne k' .current with rfl | hne
        · rw [hcur] at hk'
          cases hk'
        · rcases eq_or_ne k' k with rfl | hne'
          · exact .inl rfl
          · rw [hrest k' hne hne'] at hk'
            refine .inr ⟨hk', fun he => ?_⟩
            cases he
            exact hne rfl
    | timer p => exact .inr ⟨hl, nofun⟩
  · cases l with
    | jobQueue => rw [At, At, hqueue]
    | worker v k' =>
      refine at_worker_other hw fun k' => ?_
      rcases eq_or_ne k' .current with rfl | hne
      · simp [hcur, hcurrent, ha.symm]
      · rcases eq_or_ne k' k with rfl | hne'
        · simp [hnew, hold, ha.symm]
        · rw [hrest k' hne hne']
    | timer p => exact Iff.rfl

omit [DecidableEq W] [DecidableEq C] in
/-- The pending pointers of a running worker are null. -/
theorem Inv.running (h : s.Inv f cur) (hpc : (s.workers w).pc = .running) :
    (s.workers w).pendingPush = none ∧ (s.workers w).pendingDestroy = none ∧
      (s.workers w).pendingAddEvent = none := by
  have hok := h.workers w
  rw [TLScheduler.Ok, hpc] at hok
  exact hok.2.2

/-- `coroutine_yield` keeps the invariant. -/
theorem Inv.coroutineYield (h : s.Inv f cur) (hc : s.runningOn w = some c) :
    (s.coroutineYield w c).Inv f cur := by
  obtain ⟨hpc, hcur⟩ := runningOn_eq_some hc
  have hat : s.At f c (.worker w .current) := hcur
  obtain ⟨hpush, hdestroy, hadd⟩ := h.running hpc
  obtain ⟨hst, hsv, hen⟩ := h.fits hat
  refine h.handOff (k := .push) (t := { s.workers w with
    pc := .flushPush, curCoroutine := none, mainSaved := false, pendingPush := some c }) hat nofun
    hpush ?_ ⟨rfl, rfl⟩ rfl rfl (fun k' h₁ h₂ => ?_) rfl h.timer (fun a ha => ?_) (.inr ?_) ?_
  · simp [Scheduler.coroutineYield, swapOut, Scheduler.setPc, setWorker, setCoroutine]
  · cases k' with
    | current => exact absurd rfl h₁
    | push => exact absurd rfl h₂
    | destroy => rfl
    | addEvent => rfl
  · exact Function.update_of_ne ha _ _
  · simp [Scheduler.coroutineYield, swapOut, Scheduler.setPc, setWorker, setCoroutine, hst, hen]
  · simp [Scheduler.coroutineYield, swapOut, Scheduler.setPc, setWorker, setCoroutine]

omit [DecidableEq C] in
/-- The end of a coroutine keeps the invariant. -/
theorem Inv.coroutineReturn (h : s.Inv f cur) (hc : s.runningOn w = some c) :
    (s.coroutineReturn w c).Inv f cur := by
  obtain ⟨hpc, hcur⟩ := runningOn_eq_some hc
  have hat : s.At f c (.worker w .current) := hcur
  obtain ⟨hpush, hdestroy, hadd⟩ := h.running hpc
  obtain ⟨hst, hsv, hen⟩ := h.fits hat
  refine h.handOff (k := .destroy) (t := { s.workers w with
    pc := .flushPush, curCoroutine := none, mainSaved := false, pendingDestroy := some c })
    hat nofun
    hdestroy ?_ ⟨rfl, rfl⟩ rfl rfl (fun k' h₁ h₂ => ?_) rfl h.timer (fun a ha => rfl)
    ⟨hst, hsv, hen⟩ rfl
  · simp [Scheduler.coroutineReturn, exitSwap, Scheduler.setPc, setWorker]
  · cases k' with
    | current => exact absurd rfl h₁
    | push => rfl
    | destroy => exact absurd rfl h₂
    | addEvent => rfl

/-- `coroutine_sleep` keeps the invariant; the coroutine is in no list of the timer, so its delay
is its own. -/
theorem Inv.coroutineSleep {d : Int} (h : s.Inv f cur) (hc : s.runningOn w = some c) :
    (s.coroutineSleep w c d).Inv f cur := by
  obtain ⟨hpc, hcur⟩ := runningOn_eq_some hc
  have hat : s.At f c (.worker w .current) := hcur
  obtain ⟨hpush, hdestroy, hadd⟩ := h.running hpc
  obtain ⟨hst, hsv, hen⟩ := h.fits hat
  have htimer : (s.timer.setDelay c d).Valid f cur := by
    refine h.timer.setDelay fun v i hm => ?_
    have hp : s.At f c (.timer (.slot v i)) := hm
    cases h.exclusive.unique hat hp
  refine h.handOff (k := .addEvent) (t := { s.workers w with
    pc := .flushPush, curCoroutine := none, mainSaved := false, pendingAddEvent := some c })
    hat nofun
    hadd ?_ ⟨rfl, rfl⟩ rfl rfl (fun k' h₁ h₂ => ?_) rfl htimer (fun a ha => ?_) (.inr ?_) ?_
  · simp [Scheduler.coroutineSleep, swapOut, Scheduler.setPc, setWorker, setCoroutine]
  · cases k' with
    | current => exact absurd rfl h₁
    | push => rfl
    | destroy => rfl
    | addEvent => exact absurd rfl h₂
  · exact Function.update_of_ne ha _ _
  · simp [Scheduler.coroutineSleep, swapOut, Scheduler.setPc, setWorker, setCoroutine, hst, hen]
  · simp [Scheduler.coroutineSleep, swapOut, Scheduler.setPc, setWorker, setCoroutine]

omit [DecidableEq C] in
/-- A pending pointer is flushed, into the job queue or the timer. -/
theorem Inv.flush (h : s.Inv f cur) (hat : s.At f c (.worker w k))
    (hw : s'.workers = Function.update s.workers w t) (hok : t.Ok) (hnew : t.slot k = none)
    (hrest : ∀ k', k' ≠ k → t.slot k' = (s.workers w).slot k') (hin : s'.At f' c m)
    (hqueue : ∀ a, a ∈ s'.jobQueue ↔ a ∈ s.jobQueue ∨ a = c ∧ m = .jobQueue)
    (hplace : ∀ a p, a ∈ f' p ↔ a ∈ f p ∨ a = c ∧ m = .timer p)
    (htimer : s'.timer.Valid f' cur') (hnodup : s'.jobQueue.Nodup)
    (hcor : s'.coroutines = s.coroutines) (hfits : m.Fits (s.coroutines c)) : s'.Inv f' cur' := by
  have hold : (s.workers w).slot k = some c := hat
  refine h.move hat hin (fun l hl => ?_) (fun a ha l => ?_) htimer hnodup
    (ok_update h.workers hw hok) (fun a _ => by rw [hcor]) (hcor ▸ hfits) (by rw [hcor])
  · cases l with
    | jobQueue =>
      rcases (hqueue c).1 hl with hm | ⟨-, he⟩
      · exact .inr ⟨hm, nofun⟩
      · exact .inl he.symm
    | worker v k' =>
      refine at_worker_self hw (fun v k' hv he => ?_) (fun k' hk' => ?_) hl
      · cases he
        exact hv rfl
      · rcases eq_or_ne k' k with rfl | hne
        · rw [hnew] at hk'
          cases hk'
        · rw [hrest k' hne] at hk'
          refine .inr ⟨hk', fun he => ?_⟩
          cases he
          exact hne rfl
    | timer p =>
      rcases (hplace c p).1 hl with hm | ⟨-, he⟩
      · exact .inr ⟨hm, nofun⟩
      · exact .inl he.symm
  · cases l with
    | jobQueue => simp [At, hqueue a, ha]
    | worker v k' =>
      refine at_worker_other hw fun k' => ?_
      rcases eq_or_ne k' k with rfl | hne
      · simp [hnew, hold, ha.symm]
      · rw [hrest k' hne]
    | timer p => simp [At, hplace a p, ha]

omit [DecidableEq C] in
/-- `flush_pending_push` keeps the invariant. -/
theorem Inv.flushPendingPush {b : Bool} (h : s.Inv f cur) (hpc : (s.workers w).pc = .flushPush) :
    ((s.flushPendingPush w).setPc w (.flushDestroy b)).Inv f cur := by
  have hok := h.workers w
  rw [TLScheduler.Ok, hpc] at hok
  obtain ⟨hcur, hmain⟩ := hok
  cases hpush : (s.workers w).pendingPush with
  | none =>
    rw [Scheduler.flushPendingPush, hpush]
    refine h.setPc (.flushDestroy b) ?_ rfl rfl rfl rfl
    exact ⟨hcur, hmain, hpush⟩
  | some c =>
    have hat : s.At f c (.worker w .push) := hpush
    have hc : c ∉ s.jobQueue := by
      intro hm
      have hq : s.At f c .jobQueue := hm
      cases h.exclusive.unique hat hq
    rw [Scheduler.flushPendingPush, hpush]
    refine h.flush (m := .jobQueue) (t := { s.workers w with
      pc := .flushDestroy b, pendingPush := none }) hat ?_ ?_ rfl
      (fun k' hne => ?_) ?_ (fun a => ?_) (fun a p => ?_) h.timer ?_ rfl ?_
    · simp [Scheduler.setPc, setWorker, pushBack]
    · exact ⟨hcur, hmain, rfl⟩
    · cases k' with
      | current => rfl
      | push => exact absurd rfl hne
      | destroy => rfl
      | addEvent => rfl
    · exact List.mem_append_right _ List.mem_cons_self
    · simp [Scheduler.setPc, setWorker, pushBack]
    · simp
    · exact List.nodup_append.2 ⟨h.nodup, List.nodup_singleton c, fun a ha b hb he => hc (by
        simp at hb
        rwa [← hb, ← he])⟩
    · exact show Coroutine.Resumable _ from h.fits hat

/-- A coroutine that returned is deleted. -/
theorem Inv.flushPendingDestroy {b : Bool} (h : s.Inv f cur)
    (hpc : (s.workers w).pc = .flushDestroy b) :
    ((s.flushPendingDestroy w).setPc w (.flushAddEvent b)).Inv f cur := by
  have hok := h.workers w
  rw [TLScheduler.Ok, hpc] at hok
  obtain ⟨hcur, hmain, hpush⟩ := hok
  cases hdestroy : (s.workers w).pendingDestroy with
  | none =>
    rw [Scheduler.flushPendingDestroy, hdestroy]
    refine h.setPc (.flushAddEvent b) ?_ rfl rfl rfl rfl
    exact ⟨hcur, hmain, hpush, hdestroy⟩
  | some c =>
    have hat : s.At f c (.worker w .destroy) := hdestroy
    rw [Scheduler.flushPendingDestroy, hdestroy]
    generalize hs' : (((s.setCoroutine c {}).setWorker w
      { s.workers w with pendingDestroy := none }).setPc w (.flushAddEvent b)) = s'
    have hw : s'.workers = Function.update s.workers w { s.workers w with
        pc := .flushAddEvent b, pendingDestroy := none } := by
      subst hs'
      simp [Scheduler.setPc, setWorker, setCoroutine]
    have hcor : s'.coroutines = Function.update s.coroutines c {} := by
      subst hs'
      rfl
    have hqueue : s'.jobQueue = s.jobQueue := by
      subst hs'
      rfl
    have htimer : s'.timer = s.timer := by
      subst hs'
      rfl
    have hsub : ∀ l, s'.At f c l → s.At f c l ∧ l ≠ .worker w .destroy := by
      intro l hl
      cases l with
      | jobQueue =>
        rw [At, hqueue] at hl
        exact ⟨hl, nofun⟩
      | worker v k =>
        have hself := at_worker_self (m := .jobQueue) (o := .worker w .destroy) (s := s) (f := f) hw
          (fun v k' hv he => by
            cases he
            exact hv rfl) (fun k' hk' => by
            cases k' with
            | current => exact .inr ⟨hk', nofun⟩
            | push => exact .inr ⟨hk', nofun⟩
            | destroy => cases hk'
            | addEvent => exact .inr ⟨hk', nofun⟩) hl
        rcases hself with he | hself
        · cases he
        · exact hself
      | timer p => exact ⟨hl, nofun⟩
    have hother : OnlyMoves (s.At f) (s'.At f) c := by
      intro a ha l
      cases l with
      | jobQueue => rw [At, At, hqueue]
      | worker v k =>
        refine at_worker_other hw fun k' => ?_
        cases k' with
        | current => rfl
        | push => rfl
        | destroy => simp [TLScheduler.slot, hdestroy, ha.symm]
        | addEvent => rfl
      | timer p => exact Iff.rfl
    refine ⟨htimer ▸ h.timer, h.exclusive.remove hat hsub hother fun a => ?_, hqueue ▸ h.nodup,
      ok_update h.workers hw ⟨hcur, hmain, hpush, rfl⟩, fun {a l} hl => ?_⟩
    · rw [hcor]
      rcases eq_or_ne a c with rfl | ha
      · simp
      · simp [ha]
    · rcases eq_or_ne a c with rfl | ha
      · exact absurd (h.exclusive.unique (hsub l hl).1 hat) (hsub l hl).2
      · rw [hcor, Function.update_of_ne ha]
        exact h.fits ((hother a ha l).1 hl)

/-- `flush_pending_add_event` keeps the invariant and does not throw, since the coroutine is in no
list. -/
theorem Inv.flushPendingAddEvent {b : Bool} (h : s.Inv f cur)
    (hpc : (s.workers w).pc = .flushAddEvent b) :
    ∃ s₁ f', s.flushPendingAddEvent w = .ok s₁ ∧ (s₁.setPc w (.head b)).Inv f' cur := by
  have hok := h.workers w
  rw [TLScheduler.Ok, hpc] at hok
  obtain ⟨hcur, hmain, hpush, hdestroy⟩ := hok
  cases hadd : (s.workers w).pendingAddEvent with
  | none =>
    refine ⟨s, f, ?_, ?_⟩
    · rw [Scheduler.flushPendingAddEvent, hadd]
    · refine h.setPc (.head b) ?_ rfl rfl rfl rfl
      exact ⟨hcur, hmain, hpush, hdestroy, hadd⟩
  | some c =>
    have hat : s.At f c (.worker w .addEvent) := hadd
    have hc : ∀ p, c ∉ f p := by
      intro p hm
      have hp : s.At f c (.timer p) := hm
      cases h.exclusive.unique hat hp
    obtain ⟨timer, hrun, hvalid, -, -, -⟩ := h.timer.addEvent (k := (s.timer.nodes c).delayMS) hc
    refine ⟨{ s with timer := timer }.setWorker w { s.workers w with pendingAddEvent := none },
      Function.update f .pending (f .pending ++ [c]), ?_, ?_⟩
    · rw [Scheduler.flushPendingAddEvent, hadd]
      simp only [bind, Except.bind, hrun]
    · refine h.flush (m := .timer .pending) (t := { s.workers w with
        pc := .head b, pendingAddEvent := none }) hat ?_ ?_ rfl (fun k' hne => ?_) ?_ (fun a => ?_)
        (fun a p => ?_) hvalid h.nodup rfl ?_
      · simp [Scheduler.setPc, setWorker]
      · exact ⟨hcur, hmain, hpush, hdestroy, rfl⟩
      · cases k' with
        | current => rfl
        | push => rfl
        | destroy => rfl
        | addEvent => exact absurd rfl hne
      · rw [At, Function.update_self]
        exact List.mem_append_right _ List.mem_cons_self
      · simp [Scheduler.setPc, setWorker]
      · rcases eq_or_ne p .pending with rfl | hp
        · simp
        · simp [Function.update_of_ne hp, hp.symm]
      · exact show Coroutine.Resumable _ from h.fits hat

/-! ## New coroutines -/

omit [DecidableEq W] in
/-- A new coroutine comes to the job queue. -/
theorem Inv.create (h : s.Inv f cur) (hc : (s.coroutines c).allocated = false)
    (hat : ∀ a v k, s'.At f a (.worker v k) ↔ s.At f a (.worker v k))
    (hworkers : ∀ v, (s'.workers v).Ok) (hqueue : s'.jobQueue = s.jobQueue ++ [c])
    (htimer : s'.timer = s.timer)
    (hcor : s'.coroutines = Function.update s.coroutines c { allocated := true }) :
    s'.Inv f cur := by
  have hdead : ¬(s.coroutines c).allocated = true := by simp [hc]
  have hnone : ∀ l, ¬s.At f c l := fun l => h.exclusive.not_at hdead
  have hsub : ∀ l, s'.At f c l → l = .jobQueue := by
    intro l hl
    cases l with
    | jobQueue => rfl
    | worker v k => exact absurd ((hat c v k).1 hl) (hnone _)
    | timer p => exact absurd hl (hnone (.timer p))
  have hother : OnlyMoves (s.At f) (s'.At f) c := by
    intro a ha l
    cases l with
    | jobQueue => simp [At, hqueue, ha]
    | worker v k => exact hat a v k
    | timer p => exact Iff.rfl
  have hin : s'.At f c .jobQueue := by
    rw [At, hqueue]
    exact List.mem_append_right _ List.mem_cons_self
  refine ⟨htimer ▸ h.timer, h.exclusive.add hdead hin (fun l hl => .inl (hsub l hl)) hother
    fun a => ?_, ?_, hworkers, fun {a l} hl => ?_⟩
  · rw [hcor]
    rcases eq_or_ne a c with rfl | ha
    · simp
    · simp [ha]
  · rw [hqueue, List.nodup_append]
    refine ⟨h.nodup, List.nodup_singleton c, fun a ha b hb he => hnone .jobQueue ?_⟩
    rw [List.mem_singleton] at hb
    rwa [At, ← hb, ← he]
  · rcases eq_or_ne a c with rfl | ha
    · rw [hsub l hl, hcor, Function.update_self]
      exact .inl ⟨rfl, rfl, rfl⟩
    · rw [hcor, Function.update_of_ne ha]
      exact h.fits ((hother a ha l).1 hl)

/-! ## The timer -/

omit [DecidableEq W] [DecidableEq C] in
/-- A coroutine goes from a list of the timer to another. -/
theorem Inv.moveTimer {p q : Place} (h : s.Inv f cur) (hc : c ∈ f p) (hc' : c ∈ f' q)
    (htimer : s'.timer.Valid f' cur') (hstay : ∀ x, x ≠ c → ∀ p, x ∈ f' p ↔ x ∈ f p)
    (hqueue : s'.jobQueue = s.jobQueue) (hworkers : s'.workers = s.workers)
    (hcor : s'.coroutines = s.coroutines) : s'.Inv f' cur' := by
  have hat : s.At f c (.timer p) := hc
  refine h.move (m := .timer q) hat hc' (fun l hl => ?_) (fun a ha l => ?_) htimer
    (hqueue ▸ h.nodup) (hworkers ▸ h.workers) (fun a _ => by rw [hcor]) ?_ (by rw [hcor])
  · cases l with
    | jobQueue =>
      rw [At, hqueue] at hl
      exact .inr ⟨hl, nofun⟩
    | worker v k =>
      rw [At, hworkers] at hl
      exact .inr ⟨hl, nofun⟩
    | timer r => exact .inl (by rw [htimer.contents.disjoint hl hc'])
  · cases l with
    | jobQueue => rw [At, At, hqueue]
    | worker v k => rw [At, At, hworkers]
    | timer r => exact hstay a ha r
  · rw [hcor]
    exact show Coroutine.Resumable _ from h.fits hat

omit [DecidableEq W] [DecidableEq C] in
/-- The places depend on the workers, the job queue and the timer's lists. -/
theorem at_congr (hw : s'.workers = s.workers) (hq : s'.jobQueue = s.jobQueue) (a : C)
    (l : Location W) : s'.At f a l ↔ s.At f a l := by
  cases l with
  | jobQueue => rw [At, At, hq]
  | worker w k => rw [At, At, hw]
  | timer p => exact Iff.rfl

omit [DecidableEq W] [DecidableEq C] in
/-- The end of a tick keeps the invariant. -/
theorem Inv.endTick {v : Fin TIMEWHEEL_NUM_WHEELS} (h : s.Inv f cur) :
    ∃ cur', (s.endTick v).Inv f cur' := by
  obtain ⟨cur', hvalid⟩ := h.timer.advance (w := v)
  refine ⟨cur', ?_⟩
  rw [Scheduler.endTick]
  split
  · rename_i hadv
    rw [hadv] at hvalid
    exact h.stay (at_congr rfl rfl) hvalid rfl h.workers rfl
  · rename_i hadv
    rw [hadv] at hvalid
    exact h.stay (at_congr rfl rfl) hvalid rfl h.workers rfl

/-- The timer does not drain a coroutine for which it computes a negative slot index: a delay below
zero may not take the lowest cursor below zero, except to a multiple of the number of slots. -/
def InRange (s : Scheduler C W) : Action C W → Prop
  | .timer => s.timerPc = .draining → ∀ c, s.timer.pendingEvents.head = some c →
      0 ≤ (s.timer.timewheels 0).curSlotIdx + (s.timer.nodes c).delayMS ∨
        (TIMEWHEEL_NUM_SLOTS_PER_WHEEL : Int) ∣
          (s.timer.timewheels 0).curSlotIdx + (s.timer.nodes c).delayMS
  | _ => True

omit [DecidableEq W] in
/-- A round of the drain loop keeps the invariant, if the delay is in range. -/
theorem Inv.drain (h : s.Inv f cur) (hpc : s.timerPc = .draining) (hrange : s.InRange .timer)
    (hs : s.timerStep = some s') : ∃ f' cur', s'.Inv f' cur' := by
  simp only [Scheduler.timerStep, hpc] at hs
  cases hp : f .pending with
  | nil =>
    simp only [h.timer.contents.drainOne_nil hp, Option.some.injEq] at hs
    subst hs
    exact ⟨f, cur, h.stay (at_congr rfl rfl) h.timer rfl h.workers rfl⟩
  | cons c xs =>
    have hc : c ∈ f .pending := hp ▸ List.mem_cons_self
    rcases lt_or_ge (s.timer.nodes c).delayMS 0 with hneg | hnonneg
    · have hhead : s.timer.pendingEvents.head = some c := by
        have hchain := (h.timer.contents.holds .pending).chain.head
        rw [hp] at hchain
        exact hchain
      have hidx := hrange hpc c hhead
      rw [h.timer.wheels.cursor] at hidx
      obtain ⟨timer, f', j, hrun, hvalid, hmem, hstay⟩ := h.timer.drainOne_neg hp rfl hneg hidx
      simp only [hrun, Option.some.injEq] at hs
      subst hs
      exact ⟨f', cur, h.moveTimer hc hmem hvalid hstay rfl rfl rfl⟩
    · obtain ⟨d, hd⟩ := Int.eq_ofNat_of_zero_le hnonneg
      rcases Nat.lt_or_ge d 216000 with hlt | hge
      · obtain ⟨timer, f', hrun, hvalid, -, -, -, hrem, hstay⟩ := h.timer.drainOne_nat hp hd hlt
        obtain ⟨v, j, hmem, -⟩ := hrem
        simp only [hrun, Option.some.injEq] at hs
        subst hs
        exact ⟨f', cur, h.moveTimer hc hmem hvalid hstay rfl rfl rfl⟩
      · obtain ⟨msg, hthrow⟩ := h.timer.contents.drainOne_thrown hp
          (hd ▸ TimerManager.pickWheel_eq_none hge)
        simp [hthrow] at hs

omit [DecidableEq W] [DecidableEq C] in
/-- A coroutine goes from a slot of the timer to the job queue. -/
theorem Inv.fire {v : Fin TIMEWHEEL_NUM_WHEELS} {i : Fin TIMEWHEEL_NUM_SLOTS_PER_WHEEL}
    {xs : List C}
    {timer : TimerManager C} (h : s.Inv f cur) (hp : f (.slot v i) = c :: xs)
    (hround : s.timer.fireRound v i = some (c, timer)) :
    Inv { { s with timer := timer }.pushBack c with timerPc := .posting v }
      (Function.update f (.slot v i) xs) cur := by
  obtain ⟨timer', hround', hcont, hclock, hnodes⟩ := h.timer.contents.fireRound_cons hp
  rw [hround] at hround'
  cases hround'
  have hc : s.At f c (.timer (.slot v i)) := by
    rw [At, hp]
    exact List.mem_cons_self
  have hcxs : c ∉ xs := (List.nodup_cons.1 (hp ▸ h.timer.contents.nodup _)).1
  have hsub : ∀ {x p}, x ∈ Function.update f (.slot v i) xs p → x ∈ f p := by
    intro x p hx
    rcases eq_or_ne p (.slot v i) with rfl | hne
    · rw [Function.update_self] at hx
      rw [hp]
      exact List.mem_cons_of_mem _ hx
    · rwa [Function.update_of_ne hne] at hx
  have hq : c ∉ s.jobQueue := by
    intro hm
    have hqueue : s.At f c .jobQueue := hm
    cases h.exclusive.unique hc hqueue
  refine h.move (m := .jobQueue) hc (List.mem_append_right _ List.mem_cons_self) (fun l hl => ?_)
    (fun a ha l => ?_) ⟨h.timer.wheels.same hclock, hcont, h.timer.cur_lt,
    fun {u j x} hx hu => ?_⟩ ?_
    h.workers (fun a _ => rfl) (show Coroutine.Resumable _ from h.fits hc) rfl
  · cases l with
    | jobQueue => exact .inl rfl
    | worker u k => exact .inr ⟨hl, nofun⟩
    | timer p =>
      refine .inr ⟨hsub hl, fun he => ?_⟩
      cases he
      rw [At, Function.update_self] at hl
      exact hcxs hl
  · cases l with
    | jobQueue => simp [At, pushBack, ha]
    | worker u k => exact Iff.rfl
    | timer p => exact TimerManager.mem_update_tail hp ha
  · change 0 ≤ (timer.nodes x).delayMS
    rw [hnodes]
    exact h.timer.delay (hsub hx) hu
  · refine List.nodup_append.2 ⟨h.nodup, List.nodup_singleton c, fun a ha b hb he => hq ?_⟩
    rw [List.mem_singleton] at hb
    rwa [← hb, ← he]

omit [DecidableEq W] in
/-- A round of `tick` keeps the invariant. -/
theorem Inv.tick {v : Fin TIMEWHEEL_NUM_WHEELS} (h : s.Inv f cur) (hpc : s.timerPc = .ticking v)
    (hs : s.timerStep = some s') : ∃ f' cur', s'.Inv f' cur' := by
  obtain ⟨i, hi⟩ : ∃ i : Fin TIMEWHEEL_NUM_SLOTS_PER_WHEEL, (i : ℕ) = cur v :=
    ⟨⟨cur v, h.timer.cur_lt v⟩, rfl⟩
  have hidx : TimerManager.slotIndex (s.timer.timewheels v).curSlotIdx = .ok i := by
    rw [h.timer.wheels.cursor, ← hi, TimerManager.slotIndex_natCast]
  simp only [Scheduler.timerStep, hpc, hidx] at hs
  cases hlower : (s.timer.timewheels v).lower with
  | none =>
    simp only [hlower] at hs
    cases hp : f (.slot v i) with
    | nil =>
      simp only [h.timer.contents.fireRound_nil hp, Option.some.injEq] at hs
      subst hs
      exact ⟨f, h.endTick⟩
    | cons c xs =>
      obtain ⟨timer, hround, -, -, -⟩ := h.timer.contents.fireRound_cons hp
      simp only [hround, Option.some.injEq] at hs
      subst hs
      exact ⟨_, cur, h.fire hp hround⟩
  | some low =>
    simp only [hlower] at hs
    cases hp : f (.slot v i) with
    | nil =>
      simp only [h.timer.contents.cascadeRound_nil hp, Option.some.injEq] at hs
      subst hs
      exact ⟨f, h.endTick⟩
    | cons c xs =>
      obtain ⟨timer, f', j, hround, hvalid, hmem, hstay⟩ :=
        h.timer.cascadeRound hp (h.timer.wheels.eq_succ_of_lower hlower)
      simp only [hround, Option.some.injEq] at hs
      subst hs
      have hc : c ∈ f (.slot v i) := hp ▸ List.mem_cons_self
      exact ⟨f', cur, h.moveTimer hc hmem hvalid hstay rfl rfl rfl⟩

omit [DecidableEq W] in
/-- A step of the timer keeps the invariant, if the delay is in range. -/
theorem Inv.timerStep (h : s.Inv f cur) (hrange : s.InRange .timer) (hs : s.timerStep = some s') :
    ∃ f' cur', s'.Inv f' cur' := by
  cases hpc : s.timerPc with
  | draining => exact h.drain hpc hrange hs
  | ticking v => exact h.tick hpc hs
  | posting v =>
    simp only [Scheduler.timerStep, hpc, Option.some.injEq] at hs
    subst hs
    exact ⟨f, cur, h.stay (at_congr rfl rfl) h.timer rfl h.workers rfl⟩

/-! ## Every step -/

/-- Taking a job keeps the invariant. -/
theorem Inv.popAndSwitch {y : Bool} (h : s.Inv f cur)
    (hidle : (s.workers w).curCoroutine = none ∧ (s.workers w).mainSaved = false ∧
      (s.workers w).pendingPush = none ∧ (s.workers w).pendingDestroy = none ∧
      (s.workers w).pendingAddEvent = none) : (s.popAndSwitch w y).Inv f cur := by
  cases hq : s.jobQueue with
  | nil =>
    rw [Scheduler.popAndSwitch, hq]
    exact h.setPc (.head y) hidle rfl rfl rfl rfl
  | cons job jobs =>
    rw [Scheduler.popAndSwitch, hq]
    exact h.pop hq hidle.1 ⟨by simp, rfl, hidle.2.2⟩

/-- A step of a worker in its loop keeps the invariant. -/
theorem Inv.loop (h : s.Inv f cur) (hs : s.loop w = some s') : ∃ f' cur', s'.Inv f' cur' := by
  have hok := h.workers w
  cases hpc : (s.workers w).pc with
  | head y =>
    rw [TLScheduler.Ok, hpc] at hok
    cases y with
    | false =>
      simp only [Scheduler.loop, hpc] at hs
      split at hs
      · cases hs
      · cases hs
        exact ⟨f, cur, h.setPc .popping hok rfl rfl rfl rfl⟩
    | true =>
      simp only [Scheduler.loop, hpc, Option.some.injEq] at hs
      exact hs ▸ ⟨f, cur, h.popAndSwitch hok⟩
  | popping =>
    rw [TLScheduler.Ok, hpc] at hok
    simp only [Scheduler.loop, hpc, Option.some.injEq] at hs
    exact hs ▸ ⟨f, cur, h.popAndSwitch hok⟩
  | running =>
    simp only [Scheduler.loop, hpc] at hs
    cases hs
  | posting =>
    rw [TLScheduler.Ok, hpc] at hok
    simp only [Scheduler.loop, hpc, Option.some.injEq] at hs
    subst hs
    exact ⟨f, cur, h.setPc .running hok rfl rfl rfl rfl⟩
  | flushPush =>
    simp only [Scheduler.loop, hpc, Option.some.injEq] at hs
    subst hs
    exact ⟨f, cur, h.flushPendingPush hpc⟩
  | flushDestroy y =>
    simp only [Scheduler.loop, hpc, Option.some.injEq] at hs
    subst hs
    exact ⟨f, cur, h.flushPendingDestroy hpc⟩
  | flushAddEvent y =>
    obtain ⟨s₁, f', hrun, hinv⟩ := h.flushPendingAddEvent hpc
    simp only [Scheduler.loop, hpc, hrun, Option.some.injEq] at hs
    subst hs
    exact ⟨f', cur, hinv⟩

/-- A step keeps the invariant, if the delay is in range. -/
theorem Inv.step {a : Action C W} (h : s.Inv f cur) (hrange : s.InRange a)
    (hs : s.step a = some s') : ∃ f' cur', s'.Inv f' cur' := by
  cases a with
  | create c =>
    simp only [Scheduler.step] at hs
    split at hs
    · cases hs
    · rename_i hc
      cases hs
      exact ⟨f, cur, h.create (Bool.eq_false_of_not_eq_true hc) (fun _ _ _ => Iff.rfl) h.workers rfl
        rfl rfl⟩
  | post =>
    simp only [Scheduler.step] at hs
    split at hs
    · cases hs
    · cases hs
      exact ⟨f, cur, h.stay (at_congr rfl rfl) h.timer rfl h.workers rfl⟩
  | loop w => exact h.loop hs
  | yield w =>
    obtain ⟨c, hc, rfl⟩ := Option.map_eq_some_iff.1 hs
    exact ⟨f, cur, h.coroutineYield hc⟩
  | sleep w d =>
    obtain ⟨c, hc, rfl⟩ := Option.map_eq_some_iff.1 hs
    exact ⟨f, cur, h.coroutineSleep hc⟩
  | spawn w c' =>
    simp only [Scheduler.step] at hs
    split at hs
    · rename_i c hrun
      split at hs
      · cases hs
      · rename_i hc
        cases hs
        have hpc := (runningOn_eq_some hrun).1
        have hok := h.workers w
        rw [TLScheduler.Ok, hpc] at hok
        refine ⟨f, cur, h.create (Bool.eq_false_of_not_eq_true hc) (fun a v k => ?_)
          (ok_update h.workers rfl hok) rfl rfl rfl⟩
        refine at_worker_other rfl fun k => ?_
        cases k with
        | current => rfl
        | push => rfl
        | destroy => rfl
        | addEvent => rfl
    · cases hs
  | exit w =>
    obtain ⟨c, hc, rfl⟩ := Option.map_eq_some_iff.1 hs
    exact ⟨f, cur, h.coroutineReturn hc⟩
  | timer => exact h.timerStep hrange hs

omit [DecidableEq C] [DecidableEq W] in
/-- The invariant holds at the start. -/
theorem inv_init (nodes : C → TimeWheelLinkedListNode C) :
    (init nodes : Scheduler C W).Inv (fun _ => []) fun _ => 0 := by
  have hnone : ∀ {c : C} {l : Location W}, ¬(init nodes).At (fun _ => []) c l := by
    intro c l hl
    cases l with
    | jobQueue => cases hl
    | worker w k => cases k <;> cases hl
    | timer p => cases hl
  refine ⟨TimerManager.valid_init nodes,
    ⟨fun c => ⟨fun hc => ?_, fun ⟨l, hl⟩ => ?_⟩, fun hl _ => ?_⟩,
    List.nodup_nil, fun w => ⟨rfl, rfl, rfl, rfl, rfl⟩, fun hl => ?_⟩
  · cases hc
  · exact absurd hl hnone
  · exact absurd hl hnone
  · exact absurd hl hnone

/-- The invariant holds in every state of the runs whose delays are in range. -/
theorem Reachable.inv (hr : Reachable InRange s) : ∃ f cur, s.Inv f cur := by
  induction hr with
  | init nodes => exact ⟨_, _, inv_init nodes⟩
  | step _ hp hs ih =>
    obtain ⟨f, cur, h⟩ := ih
    exact h.step hp hs

/-- Every coroutine that was created and is not deleted is at exactly one place, once, and its
context fits the place; no other coroutine is at a place. -/
def Conserved (s : Scheduler C W) : Prop :=
  ∃ f, s.timer.Contents f ∧ Exclusive (s.At f) (fun c => (s.coroutines c).allocated = true) ∧
    s.jobQueue.Nodup ∧ ∀ c l, s.At f c l → l.Fits (s.coroutines c)

/-- In every run that drains no coroutine to a negative slot index, coroutines are conserved. -/
theorem run_conserved (hr : Reachable InRange s) : s.Conserved := by
  obtain ⟨f, cur, h⟩ := hr.inv
  exact ⟨f, h.timer.contents, h.exclusive, h.nodup, fun c l hl => h.fits hl⟩

/-- A coroutine is created, runs on worker `0` and calls `coroutine_sleep`; its worker hands it to
the timer. -/
def sleepOnce (delayMS : Int) : List (Action Unit (Fin SCHEDULER_NUM_WORKERS)) :=
  [.create (), .post, .loop 0, .loop 0, .sleep 0 delayMS, .loop 0, .loop 0, .loop 0]

/-- In the run of `sleepOnce` the coroutine is conserved. -/
theorem run_conserved_unit :
    ∃ s, initUnit.run (sleepOnce 5) = some s ∧ s.Conserved := by
  obtain ⟨s, hs⟩ := Option.isSome_iff_exists.1 (show (initUnit.run (sleepOnce 5)).isSome by decide)
  refine ⟨s, hs, run_conserved ((Reachable.init _).run (fun a ha s => ?_) hs)⟩
  simp only [sleepOnce, List.mem_cons, List.not_mem_nil, or_false] at ha
  rcases ha with rfl | rfl | rfl | rfl | rfl | rfl | rfl | rfl
  all_goals trivial

/-- The coroutine is allocated, and it is neither in the queue nor at a worker nor in the timer. -/
def Lost (s : Scheduler Unit (Fin SCHEDULER_NUM_WORKERS)) : Prop :=
  (s.coroutines ()).allocated = true ∧ s.jobQueue = [] ∧
    (∀ w, (s.workers w).curCoroutine = none ∧ (s.workers w).pendingPush = none ∧
      (s.workers w).pendingDestroy = none ∧ (s.workers w).pendingAddEvent = none) ∧
    s.timer.pendingEvents.head = none ∧ ∀ v i, (s.timer.slot v i).head = none

instance (s : Scheduler Unit (Fin SCHEDULER_NUM_WORKERS)) : Decidable s.Lost :=
  inferInstanceAs (Decidable (_ ∧ _ ∧ _ ∧ _ ∧ _))

/-- With fresh wheels a delay of `-1` gives the slot index `-1`, and the coroutine is in no list. -/
theorem not_conserved_sleep_neg :
    ∃ s, Reachable (fun _ _ => True) s ∧ initUnit.run (sleepOnce (-1) ++ [.timer]) = some s ∧
      ¬s.Conserved := by
  have hlost : ∃ s, initUnit.run (sleepOnce (-1) ++ [.timer]) = some s ∧ s.Lost := by
    have hany : ((initUnit.run (sleepOnce (-1) ++ [.timer])).any fun s => decide s.Lost) =
      true := by
      decide
    obtain ⟨s, hs, hl⟩ := (Option.any_eq_true _ _).1 hany
    exact ⟨s, hs, of_decide_eq_true hl⟩
  obtain ⟨s, hs, halloc, hqueue, hworkers, hpending, hslots⟩ := hlost
  refine ⟨s, (Reachable.init _).run (fun _ _ _ => trivial) hs, hs, ?_⟩
  rintro ⟨f, hcont, hex, -, -⟩
  obtain ⟨l, hl⟩ := (hex.live_iff ()).1 halloc
  cases l with
  | jobQueue =>
    rw [At, hqueue] at hl
    cases hl
  | worker w k =>
    obtain ⟨hcur, hpush, hdestroy, hadd⟩ := hworkers w
    cases k with
    | current => cases hcur.symm.trans hl
    | push => cases hpush.symm.trans hl
    | destroy => cases hdestroy.symm.trans hl
    | addEvent => cases hadd.symm.trans hl
  | timer p =>
    have hhead : (s.timer.listAt p).head = none := by
      cases p with
      | pending => exact hpending
      | slot v i => exact hslots v i
    have hnil : f p = [] := List.head?_eq_none_iff.1 ((hcont.holds p).chain.head.symm.trans hhead)
    rw [At, hnil] at hl
    cases hl

end Scheduler

end RockCoro
