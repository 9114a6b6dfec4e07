import RockCoro.Lib.Clients
import RockCoro.Scheduler.Permits
import RockCoro.Scheduler.Places

/-!
# The scheduler as a client of its job queue

`Scheduler.step` takes a job from the queue, or puts one into it, together with what the thread does
before the call or behind it. Here these are three moments, between which the other threads take
their steps. The runs are still runs of `Scheduler.step`, with each step of a call at the moment
where the operation takes effect (`run_atomic`): what the thread has yet to do behind the call, or
did before it, is its own business.
-/

namespace RockCoro

open AtomicObject AtomicObject.Fifo

/-- The threads that use the job queue: the workers, the thread of the timer, and others that call
`coroutine_create`. -/
inductive SchedThread (W K : Type)
  | worker (w : W)
  | timer
  | other (k : K)
  deriving DecidableEq

/-- Behind `push_back` or `pop_front`, with its result. -/
def TLScheduler.returned {C : Type} (t : TLScheduler C) (r : Option C) : TLScheduler C :=
  match t.pc, r with
  | .popping, none => { t with pc := .head false }
  | .head y, none => { t with pc := .head y }
  | .popping, some job | .head _, some job =>
    { t with pc := .running, curCoroutine := some job, mainSaved := true }
  | .flushPush, _ => { t with pc := .flushDestroy true, pendingPush := none }
  | .running, _ => { t with pc := .posting }
  | _, _ => t

/-- The worker calls the operation, in its event loop or in `coroutine_create`. -/
def TLScheduler.Calls {C : Type} (t : TLScheduler C) : QueueOp Unit C → Prop
  | .pop _ => t.pc = .popping ∨ t.pc = .head true
  | .push _ c => t.pc = .flushPush ∧ t.pendingPush = some c ∨ t.pc = .running

namespace Scheduler

section
variable {C W K : Type} [DecidableEq C] [DecidableEq W]

/-- The coroutine that the timer is about to push, and the timer without it. -/
def fires (s : Scheduler C W) : Option (C × TimerManager C) :=
  match s.timerPc with
  | .ticking w =>
    match TimerManager.slotIndex (s.timer.timewheels w).curSlotIdx,
      (s.timer.timewheels w).lower with
    | .ok i, none => s.timer.fireRound w i
    | _, _ => none
  | _ => none

/-- The step of a worker has nothing to do with the job queue. -/
def Local (s : Scheduler C W) (w : W) : Action C W → Prop
  | .loop v => v = w ∧ (s.workers w).pc ≠ .popping ∧ (s.workers w).pc ≠ .head true ∧
      ((s.workers w).pc = .flushPush → (s.workers w).pendingPush = none)
  | .yield v | .sleep v _ | .exit v => v = w
  | _ => False

/-- A thread between its calls. The timer drains no coroutine to a negative slot index. -/
inductive Own : SchedThread W K → Scheduler C W → Scheduler C W → Prop
  | worker {w a s s'} (ha : s.Local w a) (hs : s.step a = some s') : Own (.worker w) s s'
  | timer {s s'} (hrange : s.InRange .timer) (hf : s.fires = none) (hs : s.timerStep = some s') :
    Own .timer s s'
  | post {k s s'} (hs : s.step .post = some s') : Own (.other k) s s'

/-- A thread up to a call. `coroutine_create` takes memory that is not in use. -/
inductive CallsQueue : SchedThread W K → Scheduler C W → QueueOp Unit C → Scheduler C W → Prop
  | pop {w s} (hpc : (s.workers w).pc = .popping ∨ (s.workers w).pc = .head true) :
    CallsQueue (.worker w) s (.pop ()) s
  | flush {w s c} (hpc : (s.workers w).pc = .flushPush) (hc : (s.workers w).pendingPush = some c) :
    CallsQueue (.worker w) s (.push () c) s
  | spawn {w s c} (hw : (s.runningOn w).isSome) (hc : (s.coroutines c).allocated = false) :
    CallsQueue (.worker w) s (.push () c) (s.setCoroutine c { allocated := true })
  | fire {s c timer} (hf : s.fires = some (c, timer)) :
    CallsQueue .timer s (.push () c) { s with timer := timer }
  | create {k s c} (hc : (s.coroutines c).allocated = false) :
    CallsQueue (.other k) s (.push () c) (s.setCoroutine c { allocated := true })

/-- What a worker does to the coroutine that it has popped. -/
def resume (s : Scheduler C W) (w : W) (r : Option C) : Scheduler C W :=
  match (s.workers w).pc, r with
  | .popping, some job | .head _, some job => s.setCoroutine job (s.coroutines job).switchIn
  | _, _ => s

/-- A thread behind a call. -/
def behind (s : Scheduler C W) : SchedThread W K → Option C → Scheduler C W
  | .worker w, r => (s.resume w r).setWorker w ((s.workers w).returned r)
  | .timer, _ =>
    match s.timerPc with
    | .ticking w => { s with timerPc := .posting w }
    | _ => s
  | .other _, _ => { s with posts := s.posts + 1 }

end

/-! ## The relation to the atomic scheduler -/

end Scheduler

/-- The worker `x`, between its calls or in one, is `y` when each operation is atomic. -/
def TLScheduler.Refines {C : Type} (x : TLScheduler C) :
    Phase (QueueOp Unit C) (Option C) → TLScheduler C → Prop
  | .idle, y => y = x
  | .pending op, y => x.Calls op ∧ y = x
  | .done op r, y => x.Calls op ∧ (op = .pop () → r ≠ none) ∧ y = x.returned r

/-- The coroutine `x` is `y` when each operation is atomic: it may be popped and not yet resumed, or
allocated and not yet pushed. -/
structure Coroutine.Refines (x : Coroutine) (popped creating : Prop) (y : Coroutine) : Prop where
  resumed : popped → y = x.switchIn
  pushed : creating → x = { allocated := true } ∧ y.allocated = false
  same : ¬popped → ¬creating → y = x

namespace Scheduler

section
variable {C W K : Type} [DecidableEq C] [DecidableEq W]

/-- The job queue with its users: the workers, the timer and other threads. -/
abbrev QueueState (C W K : Type) : Type :=
  State (SchedThread W K) (QueueOp Unit C) (Option C) (Unit → List C)

/-- A worker has popped the coroutine and is not back from the call. -/
def Popped (q : QueueState C W K) (c : C) : Prop :=
  ∃ w, q.phases (.worker w) = .done (.pop ()) (some c)

/-- The thread has allocated the coroutine and not pushed it. -/
def Creates (s : Scheduler C W) (q : QueueState C W K) (c : C) : SchedThread W K → Prop
  | .worker w => q.phases (.worker w) = .pending (.push () c) ∧ (s.workers w).pc = .running
  | .timer => False
  | .other k => q.phases (.other k) = .pending (.push () c)

/-- The timer of `s` is that of `a` without the coroutine that is being pushed. -/
def TimerRefines (s a : Scheduler C W) : Phase (QueueOp Unit C) (Option C) → Prop
  | .idle => a.timer = s.timer ∧ a.timerPc = s.timerPc
  | .pending op => ∃ w c, op = .push () c ∧ s.timerPc = .ticking w ∧ a.timerPc = .ticking w ∧
      a.fires = some (c, s.timer)
  | .done _ _ => ∃ w, s.timerPc = .ticking w ∧ a.timerPc = .posting w ∧ a.timer = s.timer

variable [Fintype K]

/-- The other threads that have pushed and are not back from the call. -/
def pushed (q : QueueState C W K) : Finset K :=
  Finset.univ.filter fun k => (q.phases (.other k)).isDone = true

/-- The client `s`, with its queue at `q`, is `a` when each operation is atomic. -/
structure Refines (s : Scheduler C W) (q : QueueState C W K) (a : Scheduler C W) : Prop where
  jobQueue : a.jobQueue = q.value ()
  sem : a.semJobQueue = s.semJobQueue
  stray : a.stray = s.stray
  posts : a.posts = s.posts + (pushed q).card
  timer : s.TimerRefines a (q.phases .timer)
  workers : ∀ w, (s.workers w).Refines (q.phases (.worker w)) (a.workers w)
  coroutines : ∀ c,
    (s.coroutines c).Refines (Popped q c) (∃ t, s.Creates q c t) (a.coroutines c)
  /-- Memory is taken by one thread. -/
  creator : ∀ {c t t'}, s.Creates q c t → s.Creates q c t' → t = t'
  other : ∀ k op, q.phases (.other k) = .pending op → ∃ c, op = .push () c

variable {s s' a a' : Scheduler C W} {q q' : QueueState C W K} {w v : W} {c d : C}
  {t : TLScheduler C} {u : SchedThread W K} {act : Action C W} {f : Place → List C}
  {cur : Fin TIMEWHEEL_NUM_WHEELS → ℕ} {timer : TimerManager C}

/-! ## The timer in a call -/

omit [DecidableEq C] [DecidableEq W] in
/-- What a round of `tick` that pushes a coroutine has found. -/
theorem fires_eq_some (h : a.fires = some (c, timer)) : ∃ v i, a.timerPc = .ticking v ∧
    TimerManager.slotIndex (a.timer.timewheels v).curSlotIdx = .ok i ∧
    (a.timer.timewheels v).lower = none ∧ a.timer.fireRound v i = some (c, timer) := by
  unfold fires at h
  split at h
  · rename_i v hpc
    split at h
    · rename_i i hi hl
      exact ⟨v, i, hpc, hi, hl, h⟩
    · cases h
  · cases h

omit [DecidableEq W] in
/-- The step of the timer that pushes. -/
theorem timerStep_fires {v : Fin TIMEWHEEL_NUM_WHEELS} (hpc : a.timerPc = .ticking v)
    (h : a.fires = some (c, timer)) :
    a.timerStep = some { { a with timer := timer }.pushBack c with timerPc := .posting v } := by
  obtain ⟨v', i, hpc', hi, hl, hround⟩ := fires_eq_some h
  obtain rfl : v = v' := TimerPc.ticking.inj (hpc.symm.trans hpc')
  simp only [Scheduler.timerStep, hpc, hi, hl, hround]

omit [DecidableEq C] in
/-- What is popped from a slot stays what it is when another thread writes to other nodes. -/
theorem fireRound_congr {tm tm' : TimerManager C} {i : Fin TIMEWHEEL_NUM_SLOTS_PER_WHEEL}
    {v : Fin TIMEWHEEL_NUM_WHEELS} (h : tm.fireRound v i = some (c, timer))
    (hwheels : tm'.timewheels = tm.timewheels) (hnext : (tm'.nodes c).next = (tm.nodes c).next) :
    tm'.fireRound v i = some (c, { tm' with timewheels := timer.timewheels }) := by
  unfold TimerManager.fireRound TimerManager.slot TimeWheelLinkedList.popFront at h ⊢
  rw [hwheels]
  cases hhead : ((tm.timewheels v).slots i).head with
  | none => simp [hhead] at h
  | some b =>
    simp only [hhead] at h ⊢
    obtain ⟨rfl, rfl⟩ := Prod.mk.inj (Option.some.inj h)
    simp only [hnext, TimerManager.setSlot, TimerManager.setWheel, hwheels]

omit [DecidableEq C] in
/-- The timer writes to its wheels only. -/
theorem eq_of_fireRound {tm : TimerManager C} {i : Fin TIMEWHEEL_NUM_SLOTS_PER_WHEEL}
    {v : Fin TIMEWHEEL_NUM_WHEELS} (h : tm.fireRound v i = some (c, timer)) :
    timer = { tm with timewheels := timer.timewheels } := by
  have h' := fireRound_congr h rfl rfl
  rw [h] at h'
  exact (Prod.mk.inj (Option.some.inj h')).2

/-- `add_event` does not depend on the wheels. -/
theorem addEvent_timewheels (tm : TimerManager C)
    (wheels : Fin TIMEWHEEL_NUM_WHEELS → TimeWheel C) (k : Int) :
    ({ tm with timewheels := wheels } : TimerManager C).addEvent c k =
      (tm.addEvent c k).map fun tm' => { tm' with timewheels := wheels } := by
  unfold TimerManager.addEvent TimerManager.pushPendingEvent TimerManager.setDelay
  dsimp only
  cases tm.pendingEvents.pushBack
      (Function.update tm.nodes c { tm.nodes c with delayMS := k }) c with
  | error e => rfl
  | ok r => rfl

/-- `add_event` changes no wheel. -/
theorem timewheels_of_addEvent {tm tm' : TimerManager C} {k : Int}
    (h : tm.addEvent c k = .ok tm') : tm'.timewheels = tm.timewheels := by
  have h' : tm.addEvent c k = (tm.addEvent c k).map fun tm' => { tm' with
    timewheels := tm.timewheels } := addEvent_timewheels (c := c) tm tm.timewheels k
  rw [h] at h'
  rw [Except.ok.inj h']

omit [DecidableEq C] in
/-- The node behind the first of a list. -/
theorem next_of_contents {tm : TimerManager C} {p : Place} {xs : List C} (h : tm.Contents f)
    (hp : f p = c :: xs) : (tm.nodes c).next = xs.head? := by
  have hchain := (h.holds p).chain
  rw [hp] at hchain
  exact hchain.2.head

omit [DecidableEq C] in
/-- The coroutine that fires is the first of its slot. -/
theorem contents_of_fireRound {tm : TimerManager C} {i : Fin TIMEWHEEL_NUM_SLOTS_PER_WHEEL}
    {v : Fin TIMEWHEEL_NUM_WHEELS} (h : tm.Contents f)
    (hfire : tm.fireRound v i = some (c, timer)) :
    ∃ xs, f (.slot v i) = c :: xs := by
  have hhead := (h.holds (.slot v i)).chain.head
  change ((tm.timewheels v).slots i).head = _ at hhead
  unfold TimerManager.fireRound TimerManager.slot TimeWheelLinkedList.popFront at hfire
  cases hb : ((tm.timewheels v).slots i).head with
  | none => simp [hb] at hfire
  | some b =>
    simp only [hb] at hfire
    obtain ⟨rfl, -⟩ := Prod.mk.inj (Option.some.inj hfire)
    rw [hb] at hhead
    obtain ⟨xs, hxs⟩ := List.head?_eq_some_iff.1 hhead.symm
    exact ⟨xs, hxs⟩

omit [DecidableEq C] [DecidableEq W] in
/-- The push goes on while another thread writes to other nodes. -/
theorem fires_congr (h : a.fires = some (c, timer)) (hpc : a'.timerPc = a.timerPc)
    (hwheels : a'.timer.timewheels = a.timer.timewheels)
    (hnext : (a'.timer.nodes c).next = (a.timer.nodes c).next) :
    a'.fires = some (c, { a'.timer with timewheels := timer.timewheels }) := by
  obtain ⟨v, i, hpcv, hi, hl, hround⟩ := fires_eq_some h
  rw [fires, hpc, hpcv, hwheels]
  simp only [hi, hl]
  exact fireRound_congr hround hwheels hnext

variable {ph : Phase (QueueOp Unit C) (Option C)}

omit [DecidableEq C] [DecidableEq W] in
/-- The timers differ in the wheels only. -/
theorem TimerRefines.eq_timewheels (h : s.TimerRefines a ph) :
    s.timer = { a.timer with timewheels := s.timer.timewheels } := by
  cases ph with
  | idle => rw [h.1]
  | pending op =>
    obtain ⟨w, c, -, -, -, hf⟩ := h
    obtain ⟨v, i, -, -, -, hround⟩ := fires_eq_some hf
    exact eq_of_fireRound hround
  | done op r =>
    obtain ⟨w, -, -, ht⟩ := h
    rw [ht]

omit [DecidableEq W] in
/-- `coroutine_sleep` writes the delay. -/
theorem TimerRefines.setDelay {k : Int} (h : s.TimerRefines a ph)
    (hs : s'.timer = s.timer.setDelay d k) (hspc : s'.timerPc = s.timerPc)
    (ha : a'.timer = a.timer.setDelay d k) (hapc : a'.timerPc = a.timerPc) :
    s'.TimerRefines a' ph := by
  cases ph with
  | idle =>
    obtain ⟨ht, hpc⟩ := h
    exact ⟨by rw [hs, ha, ht], by rw [hspc, hapc, hpc]⟩
  | pending op =>
    have heq := h.eq_timewheels
    obtain ⟨w, c, hop, hpcs, hpca, hf⟩ := h
    refine ⟨w, c, hop, hspc.trans hpcs, hapc.trans hpca, ?_⟩
    have hnext : (a'.timer.nodes c).next = (a.timer.nodes c).next := by
      rw [ha]
      change (Function.update a.timer.nodes d _ c).next = _
      rcases eq_or_ne c d with rfl | hne
      · rw [Function.update_self]
      · rw [Function.update_of_ne hne]
    have hwheels : a'.timer.timewheels = a.timer.timewheels := by rw [ha]; rfl
    rw [fires_congr hf hapc hwheels hnext, ha, hs, heq]
    rfl
  | done op r =>
    obtain ⟨w, hpcs, hpca, ht⟩ := h
    exact ⟨w, hspc.trans hpcs, hapc.trans hpca, by rw [hs, ha, ht]⟩

omit [DecidableEq W] in
/-- A worker hands a coroutine to the timer. -/
theorem TimerRefines.addEvent {k : Int} {tm : TimerManager C} (h : s.TimerRefines a ph)
    (hinv : a.Inv f cur) (hd : ∀ p, d ∉ f p) (hadd : s.timer.addEvent d k = .ok tm) :
    ∃ tm', a.timer.addEvent d k = .ok tm' ∧ ∀ {s' a' : Scheduler C W}, s'.timer = tm →
      s'.timerPc = s.timerPc → a'.timer = tm' → a'.timerPc = a.timerPc → s'.TimerRefines a' ph := by
  obtain ⟨tm', hadd', hvalid, -⟩ := hinv.timer.addEvent (k := k) hd
  have heq := h.eq_timewheels
  rw [heq, addEvent_timewheels, hadd'] at hadd
  have htm : tm = { tm' with timewheels := s.timer.timewheels } := (Except.ok.inj hadd).symm
  refine ⟨tm', hadd', fun {s' a'} hs hspc ha hapc => ?_⟩
  cases ph with
  | idle =>
    obtain ⟨ht, hpc⟩ := h
    refine ⟨?_, by rw [hspc, hapc, hpc]⟩
    rw [hs, ha, htm, ← ht, ← timewheels_of_addEvent hadd']
  | pending op =>
    obtain ⟨w, c, hop, hpcs, hpca, hf⟩ := h
    refine ⟨w, c, hop, hspc.trans hpcs, hapc.trans hpca, ?_⟩
    obtain ⟨v, i, -, -, -, hround⟩ := fires_eq_some hf
    obtain ⟨xs, hxs⟩ := contents_of_fireRound hinv.timer.contents hround
    have hplace : Place.slot v i ≠ .pending := by
      intro he
      cases he
    have hxs' : Function.update f .pending (f .pending ++ [d]) (.slot v i) = c :: xs := by
      rwa [Function.update_of_ne hplace]
    have hnext : (a'.timer.nodes c).next = (a.timer.nodes c).next := by
      rw [ha, next_of_contents hvalid.contents hxs', next_of_contents hinv.timer.contents hxs]
    rw [fires_congr hf hapc (by rw [ha, timewheels_of_addEvent hadd']) hnext, hs, htm, ha]
  | done op r =>
    obtain ⟨w, hpcs, hpca, ht⟩ := h
    refine ⟨w, hspc.trans hpcs, hapc.trans hpca, ?_⟩
    rw [hs, ha, htm, ← ht, ← timewheels_of_addEvent hadd']

/-! ## A thread between its calls -/

omit [DecidableEq C] [DecidableEq W] in
/-- A worker that has popped a coroutine runs it when the pop is atomic. -/
theorem Refines.at_popped (h : s.Refines q a)
    (hw : q.phases (.worker w) = .done (.pop ()) (some c)) : a.At f c (.worker w .current) := by
  have hx := h.workers w
  rw [hw] at hx
  obtain ⟨hcalls, -, hy⟩ := hx
  change (a.workers w).curCoroutine = some c
  rw [hy]
  rcases hcalls with hpc | hpc
  · simp [TLScheduler.returned, hpc]
  · simp [TLScheduler.returned, hpc]

omit [DecidableEq C] [DecidableEq W] in
/-- No thread is between two moments of a call with a coroutine that is at a place. -/
theorem Refines.settled {l : Location W} (h : s.Refines q a) (hinv : a.Inv f cur)
    (hat : a.At f c l) (hl : ∀ w, l = .worker w .current → (q.phases (.worker w)).isDone = false) :
    ¬Popped q c ∧ ¬∃ u, s.Creates q c u := by
  constructor
  · rintro ⟨w, hw⟩
    have hl := hl w (hinv.exclusive.unique hat (h.at_popped hw))
    rw [hw] at hl
    cases hl
  · intro hu
    obtain ⟨-, hfree⟩ := (h.coroutines c).pushed hu
    have hlive := hinv.exclusive.live_of_at hat
    rw [hfree] at hlive
    cases hlive

omit [DecidableEq C] in
/-- A step of a worker between its calls: both workers become `t`, and the coroutines that are
written are in nobody's call. -/
theorem Refines.worker (h : s.Refines q a) (hidle : q.phases (.worker w) = .idle)
    (hs : s'.workers = Function.update s.workers w t)
    (ha : a'.workers = Function.update a.workers w t) (hqueue : a'.jobQueue = a.jobQueue)
    (hsem : a'.semJobQueue = s'.semJobQueue) (hposts : s'.posts = s.posts)
    (hposts' : a'.posts = a.posts) (hstray : a'.stray = s'.stray)
    (htimer : s'.TimerRefines a' (q.phases .timer))
    (hcor : ∀ c, s'.coroutines c = s.coroutines c ∧ a'.coroutines c = a.coroutines c ∨
      (¬Popped q c ∧ ¬∃ u, s.Creates q c u) ∧ a'.coroutines c = s'.coroutines c) :
    s'.Refines q a' := by
  have hcreates : ∀ c u, s'.Creates q c u ↔ s.Creates q c u := by
    intro c u
    cases u with
    | worker v =>
      rw [Creates, Creates, hs]
      rcases eq_or_ne v w with rfl | hv
      · rw [hidle]
        constructor
        · rintro ⟨⟨⟩, -⟩
        · rintro ⟨⟨⟩, -⟩
      · rw [Function.update_of_ne hv]
    | timer => exact Iff.rfl
    | other k => exact Iff.rfl
  refine ⟨hqueue.trans h.jobQueue, hsem, hstray, by rw [hposts', hposts, h.posts], htimer,
    fun v => ?_, fun c => ?_, fun hu hu' => ?_, h.other⟩
  · rw [hs, ha]
    rcases eq_or_ne v w with rfl | hv
    · rw [Function.update_self, Function.update_self, hidle]
      rfl
    · rw [Function.update_of_ne hv, Function.update_of_ne hv]
      exact h.workers v
  · simp only [hcreates]
    rcases hcor c with ⟨hcs, hca⟩ | ⟨⟨hpop, hcreate⟩, hc⟩
    · rw [hcs, hca]
      exact h.coroutines c
    · exact ⟨fun hp => absurd hp hpop, fun hp => absurd hp hcreate, fun _ _ => hc⟩
  · exact h.creator ((hcreates _ _).1 hu) ((hcreates _ _).1 hu')

omit [DecidableEq C] [DecidableEq W] in
/-- A worker that is in no call is the same. -/
theorem Refines.worker_eq (h : s.Refines q a) (hidle : q.phases (.worker w) = .idle) :
    a.workers w = s.workers w := by
  have hw := h.workers w
  rwa [hidle] at hw

omit [DecidableEq C] in
/-- A worker moves on with its pointers as they are. -/
theorem Refines.setPc (h : s.Refines q a) (hidle : q.phases (.worker w) = .idle) (pc : WorkerPc)
    (hs : s'.workers = Function.update s.workers w { s.workers w with pc := pc })
    (ha : a'.workers = Function.update a.workers w { a.workers w with pc := pc })
    (hqueue : a'.jobQueue = a.jobQueue) (hsem : a'.semJobQueue = s'.semJobQueue)
    (hposts : s'.posts = s.posts) (hposts' : a'.posts = a.posts) (hstray : a'.stray = s'.stray)
    (htimer : s'.TimerRefines a' (q.phases .timer)) (hcs : s'.coroutines = s.coroutines)
    (hca : a'.coroutines = a.coroutines) : s'.Refines q a' := by
  rw [h.worker_eq hidle] at ha
  exact h.worker hidle hs ha hqueue hsem hposts hposts' hstray htimer fun c =>
    .inl ⟨congrFun hcs c, congrFun hca c⟩

/-- A step of a worker outside of its calls is one of the atomic system. -/
theorem Refines.own_loop (h : s.Refines q a) (hinv : a.Inv f cur)
    (hidle : q.phases (.worker w) = .idle) (hlocal : s.Local w (.loop w))
    (hs : s.loop w = some s') : ∃ a', a.loop w = some a' ∧ s'.Refines q a' := by
  obtain ⟨-, hpop, hhead, hpush⟩ := hlocal
  have hw := h.worker_eq hidle
  cases hpc : (s.workers w).pc with
  | head y =>
    cases y with
    | true => exact absurd hpc hhead
    | false =>
      simp only [Scheduler.loop, hpc] at hs
      split at hs
      · cases hs
      · rename_i hsem
        cases hs
        refine ⟨{ a with semJobQueue := a.semJobQueue - 1 }.setPc w .popping, ?_, ?_⟩
        · simp only [Scheduler.loop, hw, hpc, h.sem]
          exact if_neg hsem
        · exact h.setPc hidle .popping rfl rfl rfl (congrArg (· - 1) h.sem) rfl rfl h.stray h.timer
            rfl rfl
  | popping => exact absurd hpc hpop
  | running =>
    simp only [Scheduler.loop, hpc] at hs
    cases hs
  | posting =>
    simp only [Scheduler.loop, hpc, Option.some.injEq] at hs
    subst hs
    refine ⟨a.semPost.setPc w .running, ?_, ?_⟩
    · simp only [Scheduler.loop, hw, hpc]
    · exact h.setPc hidle .running rfl rfl rfl (congrArg (· + 1) h.sem) rfl rfl h.stray h.timer
        rfl rfl
  | flushPush =>
    have hnone := hpush hpc
    simp only [Scheduler.loop, hpc, flushPendingPush, hnone, Option.some.injEq] at hs
    subst hs
    refine ⟨a.setPc w (.flushDestroy false), ?_, ?_⟩
    · simp only [Scheduler.loop, hw, hpc, flushPendingPush, hnone]
      rfl
    · exact h.setPc hidle (.flushDestroy false) rfl rfl rfl h.sem rfl rfl h.stray h.timer rfl rfl
  | flushDestroy y =>
    simp only [Scheduler.loop, hpc, Option.some.injEq] at hs
    subst hs
    refine ⟨(a.flushPendingDestroy w).setPc w (.flushAddEvent y), ?_, ?_⟩
    · simp only [Scheduler.loop, hw, hpc]
    cases hc : (s.workers w).pendingDestroy with
    | none =>
      simp only [flushPendingDestroy, hc, hw]
      exact h.setPc hidle (.flushAddEvent y) rfl rfl rfl h.sem rfl rfl h.stray h.timer rfl rfl
    | some c =>
      have hat : a.At f c (.worker w .destroy) := by
        change (a.workers w).pendingDestroy = some c
        rw [hw, hc]
      simp only [flushPendingDestroy, hc, hw]
      refine h.worker hidle (t := { s.workers w with
        pc := .flushAddEvent y, pendingDestroy := none }) ?_ ?_ rfl h.sem rfl rfl h.stray h.timer
        fun d => ?_
      · simp [Scheduler.setPc, setWorker, setCoroutine]
      · simp [Scheduler.setPc, setWorker, setCoroutine]
      · rcases eq_or_ne d c with rfl | hd
        · refine .inr ⟨h.settled hinv hat (by simp), ?_⟩
          simp [Scheduler.setPc, setWorker, setCoroutine]
        · refine .inl ?_
          simp [Scheduler.setPc, setWorker, setCoroutine, hd]
  | flushAddEvent y =>
    simp only [Scheduler.loop, hpc] at hs
    cases hc : (s.workers w).pendingAddEvent with
    | none =>
      simp only [flushPendingAddEvent, hc, Option.some.injEq] at hs
      subst hs
      refine ⟨a.setPc w (.head y), ?_, ?_⟩
      · simp only [Scheduler.loop, hw, hpc, flushPendingAddEvent, hc]
      · exact h.setPc hidle (.head y) rfl rfl rfl h.sem rfl rfl h.stray h.timer rfl rfl
    | some c =>
      have hat : a.At f c (.worker w .addEvent) := by
        change (a.workers w).pendingAddEvent = some c
        rw [hw, hc]
      have hnot : ∀ p, c ∉ f p := by
        intro p hp
        have hp : a.At f c (.timer p) := hp
        cases hinv.exclusive.unique hat hp
      simp only [flushPendingAddEvent, hc, bind, Except.bind] at hs
      cases hadd : s.timer.addEvent c (s.timer.nodes c).delayMS with
      | error e => simp [hadd] at hs
      | ok tm =>
        simp only [hadd, Option.some.injEq] at hs
        subst hs
        obtain ⟨tm', hadd', htimer⟩ := h.timer.addEvent hinv hnot hadd
        have hnodes : a.timer.nodes = s.timer.nodes := by rw [h.timer.eq_timewheels]
        refine ⟨({ a with timer := tm' }.setWorker w
          { s.workers w with pendingAddEvent := none }).setPc w (.head y), ?_, ?_⟩
        · simp only [Scheduler.loop, hw, hpc, flushPendingAddEvent, hc, hnodes, hadd', bind,
            Except.bind]
        · refine h.worker hidle (t := { s.workers w with
            pc := .head y, pendingAddEvent := none }) ?_ ?_ rfl h.sem rfl rfl h.stray
            (htimer rfl rfl rfl rfl) fun d => .inl ⟨rfl, rfl⟩
          · simp [Scheduler.setPc, setWorker]
          · simp [Scheduler.setPc, setWorker]

/-- A step of a worker between its calls. -/
theorem Refines.own_worker (h : s.Refines q a) (hinv : a.Inv f cur)
    (hidle : q.phases (.worker w) = .idle) (hlocal : s.Local w act) (hs : s.step act = some s') :
    ∃ a', a.step act = some a' ∧ s'.Refines q a' := by
  have hw := h.worker_eq hidle
  have hrunning : a.runningOn w = s.runningOn w := by rw [runningOn, runningOn, hw]
  -- the coroutine that leaves the worker is in nobody else's call
  have hsettled : ∀ {c}, s.runningOn w = some c → ¬Popped q c ∧ ¬∃ u, s.Creates q c u := by
    intro c hc
    have hat : a.At f c (.worker w .current) := by
      change (a.workers w).curCoroutine = some c
      rw [hw]
      exact (runningOn_eq_some hc).2
    refine h.settled hinv hat fun v hv => ?_
    cases hv
    rw [hidle]
    rfl
  cases act with
  | loop v =>
    obtain rfl : v = w := hlocal.1
    exact h.own_loop hinv hidle hlocal hs
  | yield v =>
    obtain rfl : v = w := hlocal
    obtain ⟨c, hc, rfl⟩ := Option.map_eq_some_iff.1 hs
    refine ⟨a.coroutineYield v c, ?_, ?_⟩
    · rw [Scheduler.step, hrunning, hc, Option.map_some]
    · refine h.worker hidle (t := { s.workers v with
        pc := .flushPush, curCoroutine := none, mainSaved := false, pendingPush := some c }) ?_ ?_
        rfl h.sem rfl rfl h.stray h.timer fun d => ?_
      · simp [Scheduler.coroutineYield, swapOut, Scheduler.setPc, setWorker, setCoroutine]
      · simp [Scheduler.coroutineYield, swapOut, Scheduler.setPc, setWorker, setCoroutine, hw]
      · rcases eq_or_ne d c with rfl | hd
        · obtain ⟨hp, hcr⟩ := hsettled hc
          refine .inr ⟨⟨hp, hcr⟩, ?_⟩
          simp [Scheduler.coroutineYield, swapOut, Scheduler.setPc, setWorker, setCoroutine,
            (h.coroutines d).same hp hcr]
        · refine .inl ?_
          simp [Scheduler.coroutineYield, swapOut, Scheduler.setPc, setWorker, setCoroutine, hd]
  | sleep v k =>
    obtain rfl : v = w := hlocal
    obtain ⟨c, hc, rfl⟩ := Option.map_eq_some_iff.1 hs
    refine ⟨a.coroutineSleep v c k, ?_, ?_⟩
    · rw [Scheduler.step, hrunning, hc, Option.map_some]
    · refine h.worker hidle (t := { s.workers v with
        pc := .flushPush, curCoroutine := none, mainSaved := false, pendingAddEvent := some c })
        ?_ ?_ rfl h.sem rfl rfl h.stray (h.timer.setDelay rfl rfl rfl rfl) fun d => ?_
      · simp [Scheduler.coroutineSleep, swapOut, Scheduler.setPc, setWorker, setCoroutine]
      · simp [Scheduler.coroutineSleep, swapOut, Scheduler.setPc, setWorker, setCoroutine, hw]
      · rcases eq_or_ne d c with rfl | hd
        · obtain ⟨hp, hcr⟩ := hsettled hc
          refine .inr ⟨⟨hp, hcr⟩, ?_⟩
          simp [Scheduler.coroutineSleep, swapOut, Scheduler.setPc, setWorker, setCoroutine,
            (h.coroutines d).same hp hcr]
        · refine .inl ?_
          simp [Scheduler.coroutineSleep, swapOut, Scheduler.setPc, setWorker, setCoroutine, hd]
  | exit v =>
    obtain rfl : v = w := hlocal
    obtain ⟨c, hc, rfl⟩ := Option.map_eq_some_iff.1 hs
    refine ⟨a.coroutineReturn v c, ?_, ?_⟩
    · rw [Scheduler.step, hrunning, hc, Option.map_some]
    · refine h.worker hidle (t := { s.workers v with
        pc := .flushPush, curCoroutine := none, mainSaved := false, pendingDestroy := some c })
        ?_ ?_ rfl h.sem rfl rfl h.stray h.timer fun d => .inl ⟨rfl, rfl⟩
      · simp [Scheduler.coroutineReturn, exitSwap, Scheduler.setPc, setWorker]
      · simp [Scheduler.coroutineReturn, exitSwap, Scheduler.setPc, setWorker, hw]
  | create | post | spawn | timer => exact hlocal.elim

omit [DecidableEq W] in
/-- What a step of the timer writes when it pushes nothing, from what it reads. -/
theorem timerStep_congr (htimer : a.timer = s.timer) (hpc : a.timerPc = s.timerPc)
    (hstray : a.stray = s.stray) (hsem : a.semJobQueue = s.semJobQueue) (hf : s.fires = none)
    (hs : s.timerStep = some s') : ∃ tm pc sem stray,
      s' = { s with timer := tm, timerPc := pc, semJobQueue := sem, stray := stray } ∧
      a.timerStep =
        some { a with timer := tm, timerPc := pc, semJobQueue := sem, stray := stray } := by
  have hend : ∀ v, ∃ tm pc sem stray,
      s.endTick v = { s with timer := tm, timerPc := pc, semJobQueue := sem, stray := stray } ∧
      some (a.endTick v) =
        some { a with timer := tm, timerPc := pc, semJobQueue := sem, stray := stray } := by
    intro v
    unfold Scheduler.endTick
    rw [htimer]
    rcases s.timer.advance v with ⟨tm, upper⟩
    cases upper with
    | none => exact ⟨tm, _, s.semJobQueue, s.stray, rfl, by rw [← hsem, ← hstray]⟩
    | some upper => exact ⟨tm, _, s.semJobQueue, s.stray, rfl, by rw [← hsem, ← hstray]⟩
  cases hpcs : s.timerPc with
  | draining =>
    rw [hpcs] at hpc
    simp only [Scheduler.timerStep, hpcs, hpc, htimer] at hs ⊢
    split at hs
    · cases hs
      exact ⟨_, _, s.semJobQueue, s.stray, rfl, by rw [← hsem, ← hstray]⟩
    · cases hs
      exact ⟨_, .draining, s.semJobQueue, s.stray, by rw [← hpcs], by rw [← hsem, ← hstray, ← hpc]⟩
    · split at hs
      · cases hs
        exact ⟨_, .draining, s.semJobQueue, _, by rw [← hpcs], by rw [← hsem, hstray, ← hpc]⟩
      · cases hs
    · cases hs
  | ticking v =>
    rw [hpcs] at hpc
    simp only [fires, hpcs] at hf
    simp only [Scheduler.timerStep, hpcs, hpc, htimer] at hs ⊢
    cases hi : TimerManager.slotIndex (s.timer.timewheels v).curSlotIdx with
    | error e => simp [hi] at hs
    | ok i =>
      cases hl : (s.timer.timewheels v).lower with
      | some lower =>
        simp only [hi, hl] at hs ⊢
        split at hs
        · cases hs
          exact ⟨_, .ticking v, s.semJobQueue, s.stray, by rw [← hpcs],
            by rw [← hsem, ← hstray, ← hpc]⟩
        · cases hs
          exact hend v
        · cases hs
      | none =>
        simp only [hi, hl] at hs hf ⊢
        rw [hf] at hs ⊢
        cases hs
        exact hend v
  | posting v =>
    rw [hpcs] at hpc
    simp only [Scheduler.timerStep, hpcs, hpc, Option.some.injEq] at hs ⊢
    subst hs
    exact ⟨s.timer, .ticking v, s.semJobQueue + 1, s.stray, rfl, by
      rw [semPost, hsem, ← htimer, ← hstray]⟩

omit [DecidableEq C] [DecidableEq W] in
/-- A step that the workers do not see. -/
theorem Refines.other_step (h : s.Refines q a) (hs : s'.workers = s.workers)
    (ha : a'.workers = a.workers) (hqueue : a'.jobQueue = a.jobQueue)
    (hsem : a'.semJobQueue = s'.semJobQueue) (hposts : a'.posts = s'.posts + (pushed q).card)
    (hstray : a'.stray = s'.stray) (htimer : s'.TimerRefines a' (q.phases .timer))
    (hcs : s'.coroutines = s.coroutines) (hca : a'.coroutines = a.coroutines) :
    s'.Refines q a' := by
  have hcreates : ∀ c u, s'.Creates q c u ↔ s.Creates q c u := by
    intro c u
    cases u with
    | worker v => rw [Creates, Creates, hs]
    | timer => exact Iff.rfl
    | other k => exact Iff.rfl
  refine ⟨hqueue.trans h.jobQueue, hsem, hstray, hposts, htimer, fun v => ?_, fun c => ?_,
    fun hu hu' => h.creator ((hcreates _ _).1 hu) ((hcreates _ _).1 hu'), h.other⟩
  · rw [hs, ha]
    exact h.workers v
  · simp only [hcreates, hcs, hca]
    exact h.coroutines c

/-- A thread between its calls. -/
theorem Refines.own (h : s.Refines q a) (hinv : a.Inv f cur) (hidle : q.phases u = .idle)
    (hs : Own u s s') : ∃ act a', a.InRange act ∧ a.step act = some a' ∧ s'.Refines q a' := by
  cases hs with
  | @worker w act _ _ ha hs =>
    obtain ⟨a', hstep, h'⟩ := h.own_worker hinv hidle ha hs
    refine ⟨act, a', ?_, hstep, h'⟩
    cases act with
    | timer => exact ha.elim
    | create | post | loop | yield | sleep | spawn | exit => trivial
  | timer hrange hf hs =>
    have htimer := h.timer
    rw [hidle] at htimer
    obtain ⟨htm, hpc⟩ := htimer
    obtain ⟨tm, pc, sem, stray, rfl, hstep⟩ := timerStep_congr htm hpc h.stray h.sem hf hs
    refine ⟨.timer, _, ?_, hstep, h.other_step rfl rfl rfl rfl h.posts rfl ?_ rfl rfl⟩
    · intro hdrain
      rw [htm]
      exact hrange (hpc ▸ hdrain)
    · rw [hidle]
      exact ⟨rfl, rfl⟩
  | @post k _ _ hs =>
    simp only [Scheduler.step] at hs
    split at hs
    · cases hs
    · rename_i hposts
      cases hs
      have hpos : a.posts ≠ 0 := by
        rw [h.posts]
        omega
      refine ⟨.post, { a.semPost with posts := a.posts - 1 }, trivial, if_neg hpos,
        h.other_step rfl rfl rfl (congrArg (· + 1) h.sem) ?_ h.stray h.timer rfl rfl⟩
      change a.posts - 1 = s.posts - 1 + _
      rw [h.posts]
      omega

end

end Scheduler

end RockCoro
