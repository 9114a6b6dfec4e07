import RockCoro.Lib.Countdown
import RockCoro.Scheduler.Clock

/-!
# A call of `coroutine_sleep`

A coroutine that sleeps goes from its worker to the pending list, from there to the wheels, and from
a slot to the job queue, while all other threads run on. `signal` is what a step means to the
coroutine and `InStage` where it is; every step of the scheduler is a step of its wait
(`Clocked.signalled`), so that the call returns after the ticks that it asked for (`run_sleep`).
-/

namespace RockCoro

open Countdown Potential
open TimerManager (Remaining late late_le)

namespace Scheduler

variable {C W : Type} [DecidableEq C]

/-- What a step means to a coroutine that sleeps. -/
def signal (s : Scheduler C W) (c : C) (a : Action C W) : Signal :=
  if s.taken a = some c then .resume
  else if s.handed a = some c then .ask
  else if s.fired a = some c then .fire
  else if s.Begins a then .tick
  else .other

/-- Where a coroutine that sleeps for `d` ms is. -/
def InStage (s : Scheduler C W) (f : Place → List C) (cur : Fin TIMEWHEEL_NUM_WHEELS → ℕ) (c : C)
    (d : ℕ) : Stage → Prop
  | .held => (∃ w, (s.workers w).pendingAddEvent = some c) ∧ (s.timer.nodes c).delayMS = d
  | .asked => c ∈ f .pending ∧ (s.timer.nodes c).delayMS = d
  | .due n => Remaining s.timer f (s.timerPc.cursors cur) c (n + s.timerPc.begun)
  | .ready => c ∈ s.jobQueue
  | .gone => True

/-- A sleep of `d` ms may take `n` ticks: one more than its delay, and what the cursors of the
lower wheels add to a delay that does not fit into the lowest one. -/
def InTime (d n : ℕ) : Prop := d + 1 ≤ n ∧ n ≤ d + 1 + 3660 ∧ (d < 60 → n = d + 1)

variable {s s' : Scheduler C W} {f f' : Place → List C} {cur cur' : Fin TIMEWHEEL_NUM_WHEELS → ℕ}
  {c x : C} {d n : ℕ} {st : Stage} {a : Action C W} {v w : W} {l : Location W}

omit [DecidableEq C] in
/-- The ticks that an insertion leaves are in time. -/
theorem inTime_late : InTime d (d + 1 + late cur d) := by
  refine ⟨Nat.le_add_right .., Nat.add_le_add_left late_le _, fun hd => ?_⟩
  rw [late, if_pos hd]

/-- A step that is not about the coroutine leaves it in its stage. -/
theorem next_other {P : ℕ → Prop} : Next P st .other st := by
  cases st with
  | held => exact .hold Signal.quiet_other
  | asked => exact .wait
  | due n => exact .stay
  | ready => exact .rest Signal.quiet_other
  | gone => exact .leave

omit [DecidableEq C] in
/-- Where a coroutine is tells its stage. -/
theorem Inv.stage_of_at (h : s.Inv f cur) (hst : s.InStage f cur c d st) (hat : s.At f c l) :
    st = .gone ∨
      match l with
      | .jobQueue => st = .ready
      | .worker _ .addEvent => st = .held
      | .worker _ _ => False
      | .timer .pending => st = .asked
      | .timer (.slot _ _) => ∃ n, st = .due n := by
  cases st with
  | held =>
    obtain ⟨⟨w, hw⟩, -⟩ := hst
    have hl : s.At f c (.worker w .addEvent) := hw
    cases h.exclusive.unique hl hat
    exact .inr rfl
  | asked =>
    have hl : s.At f c (.timer .pending) := hst.1
    cases h.exclusive.unique hl hat
    exact .inr rfl
  | due n =>
    obtain ⟨v, i, hc, -⟩ := hst
    have hl : s.At f c (.timer (.slot v i)) := hc
    cases h.exclusive.unique hl hat
    exact .inr ⟨n, rfl⟩
  | ready =>
    have hl : s.At f c .jobQueue := hst
    cases h.exclusive.unique hl hat
    exact .inr rfl
  | gone => exact .inl rfl

omit [DecidableEq C] in
/-- The coroutine stays where it is. -/
theorem InStage.stay (hst : s.InStage f cur c d st)
    (hheld : ∀ w, (s.workers w).pendingAddEvent = some c →
      (s'.workers w).pendingAddEvent = some c ∧
        (s'.timer.nodes c).delayMS = (s.timer.nodes c).delayMS)
    (hpending : c ∈ f .pending →
      c ∈ f' .pending ∧ (s'.timer.nodes c).delayMS = (s.timer.nodes c).delayMS)
    (hdue : ∀ n, Remaining s.timer f (s.timerPc.cursors cur) c (n + s.timerPc.begun) →
      Remaining s'.timer f' (s'.timerPc.cursors cur') c (n + s'.timerPc.begun))
    (hqueue : c ∈ s.jobQueue → c ∈ s'.jobQueue) : s'.InStage f' cur' c d st := by
  cases st with
  | held =>
    obtain ⟨⟨w, hw⟩, hd⟩ := hst
    exact ⟨⟨w, (hheld w hw).1⟩, (hheld w hw).2.trans hd⟩
  | asked => exact ⟨(hpending hst.1).1, (hpending hst.1).2.trans hst.2⟩
  | due n => exact hdue n hst
  | ready => exact hqueue hst
  | gone => trivial

/-! ## The steps of a worker -/

/-- A step that has nothing to do with the timer resumes the coroutine or is about others. -/
theorem signal_unclocked (hun : Unclocked s s' a) :
    s.signal c a = if s.taken a = some c then .resume else .other := by
  have hfired : s.fired a = none := by
    cases a with
    | timer => exact absurd rfl hun.ne_timer
    | _ => rfl
  have hbegins : ¬s.Begins a := by
    cases a with
    | timer => exact absurd rfl hun.ne_timer
    | _ => exact not_false
  simp [signal, hun.handed, hfired, hbegins]

/-- The timer does not move. The coroutine is resumed if it is taken from the job queue. -/
theorem Clocked.signalled_unclocked (h : s.Clocked f cur) (hst : s.InStage f cur c d st)
    (hun : Unclocked s s' a) :
    ∃ st', s'.InStage f cur c d st' ∧ Next (InTime d) st (s.signal c a) st' := by
  rw [signal_unclocked hun]
  by_cases htaken : s.taken a = some c
  · have hat : s.At f c .jobQueue := by
      cases a with
      | loop w =>
        rw [taken, nextJob] at htaken
        split at htaken
        · exact List.mem_of_head? htaken
        · exact List.mem_of_head? htaken
        · cases htaken
      | _ => cases htaken
    rw [if_pos htaken]
    rcases h.inv.stage_of_at hst hat with rfl | rfl
    · exact ⟨.gone, trivial, .leave⟩
    · exact ⟨.gone, trivial, .resume⟩
  · rw [if_neg htaken]
    refine ⟨st, hst.stay (fun w hw => ⟨by rw [hun.handing, hw], by rw [hun.timer]⟩)
      (fun hc => ⟨hc, by rw [hun.timer]⟩) (fun n hn => ?_)
      (fun hc => (hun.queue c hc).resolve_left htaken), next_other⟩
    rwa [hun.timer, hun.timerPc]

variable [DecidableEq W]

/-- A coroutine goes to sleep. -/
theorem Clocked.signalled_sleep {k : Int} (h : s.Clocked f cur) (hst : s.InStage f cur c d st)
    (hx : s.runningOn w = some x) :
    ∃ st', (s.coroutineSleep w x k).InStage f cur c d st' ∧ Next (InTime d) st .other st' := by
  obtain ⟨hpc, hcur⟩ := runningOn_eq_some hx
  have hat : s.At f x (.worker w .current) := hcur
  rcases eq_or_ne c x with rfl | hcx
  · rcases h.inv.stage_of_at hst hat with rfl | hfalse
    · exact ⟨.gone, trivial, .leave⟩
    · exact hfalse.elim
  · have hdelay : ((s.timer.setDelay x k).nodes c).delayMS = (s.timer.nodes c).delayMS :=
      TimerManager.setDelay_delayMS_ne hcx
    refine ⟨st, hst.stay (fun v hv => ⟨?_, hdelay⟩) (fun hc => ⟨hc, hdelay⟩)
      (fun n hn => hn.congr (fun _ => id) hdelay) id, next_other⟩
    have hvw : v ≠ w := by
      rintro rfl
      rw [(h.inv.running hpc).2.2] at hv
      cases hv
    simp [Scheduler.coroutineSleep, swapOut, Scheduler.setPc, setWorker, setCoroutine, hvw, hv]

/-- A worker hands a coroutine over to the timer. -/
theorem Clocked.signalled_handed (h : s.Clocked f cur) (hst : s.InStage f cur c d st)
    (hs : s.loop w = some s') (hx : s.handed (.loop w) = some x) :
    ∃ st', s'.InStage (Function.update f .pending (f .pending ++ [x])) cur c d st' ∧
      Next (InTime d) st (s.signal c (.loop w)) st' := by
  obtain ⟨y, hw, hs', -, hout, hdelay⟩ := h.handed hs hx
  have htaken : s.taken (.loop w) = none := by
    rw [Scheduler.handed] at hx
    split at hx
    · rename_i y hpc
      rw [taken, nextJob, hpc]
    · cases hx
  have hsig : s.signal c (.loop w) = if x = c then .ask else .other := by
    simp [signal, htaken, hx, fired, Begins]
  have hat : s.At f x (.worker w .addEvent) := hw
  rw [hsig]
  rcases eq_or_ne x c with rfl | hxc
  · rw [if_pos rfl]
    rcases h.inv.stage_of_at hst hat with rfl | rfl
    · exact ⟨.gone, trivial, .leave⟩
    · refine ⟨.asked, ⟨?_, (hdelay x).trans hst.2⟩, .ask⟩
      rw [Function.update_self]
      exact List.mem_append_right _ List.mem_cons_self
  · have hmem : ∀ p, c ∈ f p → c ∈ Function.update f .pending (f .pending ++ [x]) p :=
      fun p => (TimerManager.mem_update_append hxc.symm).2
    rw [if_neg hxc]
    refine ⟨st, hst.stay (fun v hv => ⟨?_, hdelay c⟩) (fun hc => ⟨hmem _ hc, hdelay c⟩)
      (fun n hn => ?_) (fun hc => ?_), next_other⟩
    · have hvw : v ≠ w := by
        rintro rfl
        exact hxc (Option.some.inj (hw.symm.trans hv))
      rw [hs']
      change (Function.update s.workers w _ v).pendingAddEvent = _
      rwa [Function.update_of_ne hvw]
    · rw [hs']
      exact hn.congr hmem (hdelay c)
    · rw [hs']
      exact hc

/-! ## The steps of the timer -/

omit [DecidableEq W] in
/-- A step of the timer fires the coroutine, begins a tick or is about others. -/
theorem signal_timer : s.signal c .timer =
    if s.fired .timer = some c then .fire else if s.Begins .timer then .tick else .other := by
  simp [signal, taken, handed]

omit [DecidableEq W] in
/-- A step of the timer goes on with the wait of the coroutine. -/
theorem Clocked.signalled_timer (h : s.Clocked f cur) (hst : s.InStage f cur c d st)
    (hmove : s.TimerMove f cur s' f' cur') :
    ∃ st', s'.InStage f' cur' c d st' ∧ Next (InTime d) st (s.signal c .timer) st' := by
  have hhead : s.timer.pendingEvents.head = (f .pending).head? :=
    (h.inv.timer.contents.holds .pending).chain.head
  -- a step that neither fires nor begins a tick
  have hother : s.fires = none → ¬s.Begins .timer → s.signal c .timer = .other := by
    intro hfires hbegins
    rw [signal_timer, if_neg hbegins, fired, hfires]
    exact if_neg (by simp)
  cases hmove with
  | @drain x v i timer f' hpc hx hx' hmem hdelay hdue =>
    have hsig : s.signal c .timer = .other := by
      refine hother (by rw [fires, hpc]) fun hbegins => ?_
      rw [List.head?_eq_none_iff.1 (hhead.symm.trans hbegins.2)] at hx
      cases hx
    have hat : s.At f x (.timer .pending) := hx
    rw [hsig]
    rcases eq_or_ne c x with rfl | hcx
    · rcases h.inv.stage_of_at hst hat with rfl | rfl
      · exact ⟨.gone, trivial, .leave⟩
      · refine ⟨.due (d + 1 + late cur d), ?_, .settle inTime_late⟩
        change Remaining timer f' (s.timerPc.cursors cur) c (_ + s.timerPc.begun)
        rw [hpc]
        exact hdue d hst.2
    · exact ⟨st, hst.stay (fun w hw => ⟨hw, hdelay c⟩) (fun hc => ⟨(hmem c hcx _).2 hc, hdelay c⟩)
        (fun n hn => hn.congr (fun p => (hmem c hcx p).2) (hdelay c)) id, next_other⟩
  | tick hpc hp =>
    have hbegins : s.Begins .timer := ⟨hpc, by rw [hhead, hp, List.head?_nil]⟩
    have hsig : s.signal c .timer = .tick := by
      rw [signal_timer, if_pos hbegins, fired, fires, hpc]
      exact if_neg (by simp)
    rw [hsig]
    cases st with
    | held => exact ⟨.held, hst, .hold Signal.quiet_tick⟩
    | asked =>
      have hc := hst.1
      rw [hp] at hc
      cases hc
    | due n =>
      rw [InStage, hpc] at hst
      obtain ⟨m, rfl⟩ := Nat.exists_eq_add_one_of_ne_zero hst.pos.ne'
      refine ⟨.due m, ?_, .tick⟩
      change Remaining s.timer f ((TimerPc.ticking 0).cursors cur) c (m + 1)
      rw [TimerPc.cursors, TimerManager.carried_zero]
      exact hst
    | ready => exact ⟨.ready, hst, .rest Signal.quiet_tick⟩
    | gone => exact ⟨.gone, trivial, .leave⟩
  | @fire x i timer f' hpc hfires hx hout hmem hnodes hnow =>
    have hsig : s.signal c .timer = if x = c then .fire else .other := by
      have hbegins : ¬s.Begins .timer := fun hb => by cases hpc.symm.trans hb.1
      rw [signal_timer, if_neg hbegins, fired, hfires]
      simp
    have hat : s.At f x (.timer (.slot 0 i)) := hx
    rw [hsig]
    rcases eq_or_ne x c with rfl | hxc
    · rw [if_pos rfl]
      rcases h.inv.stage_of_at hst hat with rfl | ⟨n, rfl⟩
      · exact ⟨.gone, trivial, .leave⟩
      · rw [InStage, hpc, TimerPc.cursors, TimerManager.carried_zero] at hst
        obtain rfl : n = 0 := Nat.succ.inj (hnow _ hst)
        exact ⟨.ready, List.mem_append_right _ List.mem_cons_self, .fire⟩
    · have hdelay : (timer.nodes c).delayMS = (s.timer.nodes c).delayMS := by rw [hnodes]
      rw [if_neg hxc]
      refine ⟨st, hst.stay (fun w hw => ⟨hw, hdelay⟩)
        (fun hc => ⟨(hmem c hxc.symm _).2 hc, hdelay⟩) (fun n hn => ?_)
        (List.mem_append_left _), next_other⟩
      rw [hpc] at hn
      exact hn.congr (fun p => (hmem c hxc.symm p).2) hdelay
  | post hpc =>
    rw [hother (by rw [fires, hpc]) fun hb => by cases hpc.symm.trans hb.1]
    refine ⟨st, hst.stay (fun w hw => ⟨hw, rfl⟩) (fun hc => ⟨hc, rfl⟩) (fun n hn => ?_) id,
      next_other⟩
    rw [hpc] at hn
    exact hn
  | @cascade x u low i j timer f' hpc hfires hlow hx hx' hmem hdelay hrem =>
    have hat : s.At f x (.timer (.slot u i)) := hx
    have hdue : ∀ n, Remaining s.timer f (s.timerPc.cursors cur) c n →
        Remaining timer f' (s.timerPc.cursors cur) c n := by
      rw [hpc]
      exact hrem c
    rw [hother hfires fun hb => by cases hpc.symm.trans hb.1]
    rcases eq_or_ne c x with rfl | hcx
    · rcases h.inv.stage_of_at hst hat with rfl | ⟨n, rfl⟩
      · exact ⟨.gone, trivial, .leave⟩
      · exact ⟨.due n, hdue _ hst, .stay⟩
    · exact ⟨st, hst.stay (fun w hw => ⟨hw, hdelay c hcx⟩)
        (fun hc => ⟨(hmem c hcx _).2 hc, hdelay c hcx⟩) (fun n => hdue _) id, next_other⟩
  | @advance u timer pc cur' hpc hfires hnext hnodes hrem =>
    have hdelay : (timer.nodes c).delayMS = (s.timer.nodes c).delayMS := by rw [hnodes]
    rw [hother hfires fun hb => by cases hpc.symm.trans hb.1]
    exact ⟨st, hst.stay (fun w hw => ⟨hw, hdelay⟩) (fun hc => ⟨hc, hdelay⟩) (hrem c) id, next_other⟩

/-! ## Every step -/

/-- A step of the scheduler is one of the wait of each coroutine. -/
theorem Clocked.signalled (h : s.Clocked f cur) (hst : s.InStage f cur c d st)
    (hrange : s.InRange a) (hs : s.step a = some s') :
    ∃ f' cur' st', s'.Clocked f' cur' ∧ s'.InStage f' cur' c d st' ∧
      Next (InTime d) st (s.signal c a) st' := by
  obtain ⟨f₁, cur₁, h₁⟩ := h.step hrange hs
  have hmatch : ∀ {f' cur' st'}, s'.timer.Valid f' cur' → s'.InStage f' cur' c d st' →
      Next (InTime d) st (s.signal c a) st' →
      ∃ f' cur' st', s'.Clocked f' cur' ∧ s'.InStage f' cur' c d st' ∧
        Next (InTime d) st (s.signal c a) st' := by
    intro f' cur' st' hvalid hst' hnext
    obtain ⟨rfl, rfl⟩ := hvalid.unique h₁.inv.timer
    exact ⟨f₁, cur₁, st', h₁, hst', hnext⟩
  rcases step_cases hs with hun | ⟨w, x, k, rfl, hx, rfl⟩ | ⟨w, x, rfl, hx, hloop⟩ | ⟨rfl, htimer⟩
  · obtain ⟨st', hst', hnext⟩ := h.signalled_unclocked hst hun
    exact hmatch (hun.timer ▸ h.inv.timer) hst' hnext
  · obtain ⟨st', hst', hnext⟩ := h.signalled_sleep (k := k) hst hx
    exact hmatch (h.inv.coroutineSleep hx).timer hst' hnext
  · obtain ⟨st', hst', hnext⟩ := h.signalled_handed hst hloop hx
    obtain ⟨y, -, -, hvalid, -⟩ := h.handed hloop hx
    exact hmatch hvalid hst' hnext
  · obtain ⟨f', cur', hmove, hvalid, -⟩ := h.timerMove hrange htimer
    obtain ⟨st', hst', hnext⟩ := h.signalled_timer hst hmove
    exact hmatch hvalid hst' hnext

/-! ## Runs -/

/-- A step of a run, as the coroutine `c` hears of it. -/
def Heard (c : C) (s : Scheduler C W) (σ : Signal) (s' : Scheduler C W) : Prop :=
  ∃ a, s.InRange a ∧ s.step a = some s' ∧ σ = s.signal c a

/-- A coroutine calls `coroutine_sleep` with a delay of `d` ms, and the scheduler runs on. The
coroutine is handed to the timer once; the timer passes it to `job_push` once, in the tick that
`InTime` tells, counted from then on; and it is not resumed before. -/
theorem run_sleep (hr : Reachable InRange s) (hc : s.runningOn w = some c) {σs : List Signal}
    (hs : Steps (Heard c) (s.coroutineSleep w c d) σs s') :
    ∃ f cur st, s'.Inv f cur ∧ s'.InStage f cur c d st ∧ Story (InTime d) st σs := by
  obtain ⟨f, cur, h⟩ := hr.clocked
  have hstart : (s.coroutineSleep w c d).InStage f cur c d .held := by
    refine ⟨⟨w, ?_⟩, TimerManager.setDelay_delayMS_self⟩
    simp [Scheduler.coroutineSleep, swapOut, Scheduler.setPc, setWorker, setCoroutine]
  have hstep : ∀ (s : Scheduler C W) σ s' st,
      (∃ f cur, s.Clocked f cur ∧ s.InStage f cur c d st) → Heard c s σ s' →
      ∃ st', (∃ f cur, s'.Clocked f cur ∧ s'.InStage f cur c d st') ∧
        Next (InTime d) st σ st' := by
    rintro s σ s' st ⟨f, cur, h, hst⟩ ⟨a, hrange, hs, rfl⟩
    obtain ⟨f', cur', st', h', hst', hnext⟩ := h.signalled hst hrange hs
    exact ⟨st', ⟨f', cur', h', hst'⟩, hnext⟩
  obtain ⟨st, ⟨f', cur', h', hst⟩, hsteps⟩ := hs.simulates _ hstep
    ⟨f, cur, ⟨h.inv.coroutineSleep hc, h.fits⟩, hstart⟩
  exact ⟨f', cur', st, h'.inv, hst, story_of_steps hsteps⟩

section
variable [Fintype C]

instance (s : Scheduler C W) : (a : Action C W) → Decidable (s.InRange a)
  | .timer => inferInstanceAs (Decidable (_ → _))
  | .create _ | .post | .loop _ | .yield _ | .sleep .. | .spawn .. | .exit _ => .isTrue trivial

/-- What the coroutine `c` hears of a list of steps. -/
def signals (c : C) (s : Scheduler C W) : List (Action C W) → Option (List Signal)
  | [] => some []
  | a :: as =>
    match s.step a with
    | some s' => if s.InRange a then (s'.signals c as).map (s.signal c a :: ·) else none
    | none => none

/-- A run from the code is a sequence of steps with its signals. -/
theorem steps_of_signals {as : List (Action C W)} {σs : List Signal}
    (h : s.signals c as = some σs) : ∃ s', Steps (Heard c) s σs s' := by
  induction as generalizing s σs with
  | nil =>
    cases h
    exact ⟨s, .refl⟩
  | cons a as ih =>
    rw [signals] at h
    split at h
    · rename_i s₁ hs
      split at h
      · rename_i hrange
        obtain ⟨τs, hτs, rfl⟩ := Option.map_eq_some_iff.1 h
        obtain ⟨s', hsteps⟩ := ih hτs
        have hfirst : Steps (Heard c) s [s.signal c a] s₁ := .step .refl ⟨a, hrange, hs, rfl⟩
        exact ⟨s', hfirst.append hsteps⟩
      · cases h
    · cases h

end

/-- Two workers enter two coroutines, and `true` goes to sleep for `61` ms. -/
def enterTwo : List (Action Bool Bool) :=
  [.create true, .create false, .post, .post, .loop true, .loop false, .loop true, .loop false,
    .sleep true 61]

/-- The coroutine `false`, which goes to sleep for `60` ms, and `true` are handed to the timer. The
tick in which the lowest cursor comes round takes both down a wheel, and passes `false` on; the next
one passes `true` on; and `false` is resumed. -/
def sleepTwo : List (Action Bool Bool) :=
  [.loop false, .loop true, .loop false, .loop true, .loop true, .loop false] ++
    List.replicate 253 .timer ++ [.loop true, .loop false, .loop false]

/-- The run of `enterTwo`: after 121 ticks the coroutine with delay 60 is pushed, and then
resumed. -/
theorem run_sleep_two : ∃ (s : Scheduler Bool Bool) (σs : List Signal) (s' : Scheduler Bool Bool),
    (init fun _ => ⟨none, 0⟩ : Scheduler Bool Bool).run enterTwo = some s ∧
    Steps (Heard false) (s.coroutineSleep false false 60) σs s' ∧
    σs.filter (· ≠ .other) = .ask :: List.replicate 121 .tick ++ [.fire, .tick, .resume] ∧
    ∃ f cur st, s'.Inv f cur ∧ s'.InStage f cur false 60 st ∧ Story (InTime 60) st σs := by
  have hany : (((init fun _ => ⟨none, 0⟩ : Scheduler Bool Bool).run enterTwo).any fun s =>
      decide (s.runningOn false = some false) &&
        ((s.coroutineSleep false false 60).signals false sleepTwo).any fun σs =>
          decide (σs.filter (· ≠ .other) =
            .ask :: List.replicate 121 .tick ++ [.fire, .tick, .resume])) = true := by
    decide +kernel
  obtain ⟨s, hs, hsleep⟩ := (Option.any_eq_true _ _).1 hany
  obtain ⟨hrunning, hany⟩ := Bool.and_eq_true_iff.1 hsleep
  obtain ⟨σs, hsignals, hheard⟩ := (Option.any_eq_true _ _).1 hany
  have hr : Reachable InRange s := by
    refine (Reachable.init _).run (fun a ha s => ?_) hs
    simp only [enterTwo, List.mem_cons, List.not_mem_nil, or_false] at ha
    rcases ha with rfl | rfl | rfl | rfl | rfl | rfl | rfl | rfl | rfl
    all_goals trivial
  obtain ⟨s', hsteps⟩ := steps_of_signals hsignals
  exact ⟨s, σs, s', hs, hsteps, of_decide_eq_true hheard,
    run_sleep (d := 60) hr (of_decide_eq_true hrunning) hsteps⟩

end Scheduler

end RockCoro
