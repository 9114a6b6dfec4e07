import RockCoro.Lib.Weights
import RockCoro.Scheduler.Sleep
import Mathlib.Data.Fintype.Option
import Mathlib.Data.Fintype.Prod

/-!
# The timer wakes everybody up

As long as no delay is negative or longer than the wheels are, the thread of the timer never fails
and always goes on. A coroutine in the timer is paid for: it costs the timer a step to drain it, one
for each wheel that it goes down, and two to push it; a tick costs four. So the timer comes to every
coroutine in a number of its own steps that grows only with the coroutines that are handed over
(`run_wakes_up`).
-/

namespace RockCoro

open Countdown Potential Weights
open TimerManager (Remaining due due_pos)

instance : Fintype Place :=
  Fintype.ofEquiv (Option (Fin TIMEWHEEL_NUM_WHEELS × Fin TIMEWHEEL_NUM_SLOTS_PER_WHEEL))
    { toFun := fun o => o.elim .pending fun x => .slot x.1 x.2
      invFun := fun
        | .pending => none
        | .slot v i => some (v, i)
      left_inv := fun o => by
        cases o with
        | none => rfl
        | some x => rfl
      right_inv := fun p => by
        cases p with
        | pending => rfl
        | slot v i => rfl }

/-- The steps of the timer for a coroutine in the list. -/
def Place.price : Place → ℕ
  | .pending => 5
  | .slot v _ => v + 2

/-- No coroutine in the timer costs more than five steps. -/
theorem Place.price_le (p : Place) : p.price ≤ 5 := by
  cases p with
  | pending => exact le_rfl
  | slot v i =>
    have hv : (v : ℕ) < 3 := v.isLt
    change (v : ℕ) + 2 ≤ 5
    omega

/-- The steps of the timer up to the end of the tick. -/
def TimerPc.stepsLeft : TimerPc → ℕ
  | .draining => 0
  | .ticking v => 3 - v
  | .posting v => 4 - v

/-- The wheels cover the delays of the calls of `coroutine_sleep`. -/
def Action.InSpan {C W : Type} : Action C W → Prop
  | .sleep _ delayMS => 0 ≤ delayMS ∧ delayMS < 216000
  | _ => True

namespace Scheduler

variable {C W : Type}

/-- What the timer has to do: its steps for the coroutines in its lists, and what it has begun. -/
def timerWork (s : Scheduler C W) (f : Place → List C) : ℕ :=
  weigh Place.price f + s.timerPc.stepsLeft

/-- The invariant of the scheduler with delays in the span of the wheels. -/
structure Spanned (s : Scheduler C W) (f : Place → List C) (cur : Fin TIMEWHEEL_NUM_WHEELS → ℕ) :
    Prop where
  clocked : s.Clocked f cur
  pending : ∀ c ∈ f .pending, 0 ≤ (s.timer.nodes c).delayMS ∧ (s.timer.nodes c).delayMS < 216000
  held : ∀ w c, (s.workers w).pendingAddEvent = some c →
    0 ≤ (s.timer.nodes c).delayMS ∧ (s.timer.nodes c).delayMS < 216000

/-- A step of the thread of the timer. -/
def timerSteps : Action C W → ℕ
  | .timer => 1
  | _ => 0

variable {s s' : Scheduler C W} {f f' : Place → List C} {cur cur' : Fin TIMEWHEEL_NUM_WHEELS → ℕ}
  {c x : C} {d n : ℕ} {st st' : Stage} {σ : Signal} {a : Action C W} {v w : W}

/-! ## The delays -/

variable [DecidableEq C] [DecidableEq W]

omit [DecidableEq C] [DecidableEq W] in
/-- A state whose delays are in the span of the wheels is in range. -/
theorem Spanned.inRange (h : s.Spanned f cur) (a : Action C W) : s.InRange a := by
  cases a with
  | timer =>
    intro hpc c hc
    have hhead := (h.clocked.inv.timer.contents.holds .pending).chain.head
    have hmem : c ∈ f .pending := List.mem_of_head? (hhead.symm.trans hc)
    rw [h.clocked.inv.timer.wheels.cursor]
    exact .inl (Int.add_nonneg (Int.natCast_nonneg _) (h.pending c hmem).1)
  | _ => trivial

omit [DecidableEq C] [DecidableEq W] in
/-- The timer drains no delay that it does not cover, and it changes none that is pending. -/
theorem Spanned.timerMove (h : s.Spanned f cur) (hmove : s.TimerMove f cur s' f' cur')
    (h' : s'.Clocked f' cur') : s'.Spanned f' cur' := by
  have hheld : ∀ {w x v i}, x ∈ f (.slot v i) → (s.workers w).pendingAddEvent ≠ some x := by
    intro w x v i hx hw
    have hat : s.At f x (.worker w .addEvent) := hw
    have hat' : s.At f x (.timer (.slot v i)) := hx
    cases h.clocked.inv.exclusive.unique hat hat'
  cases hmove with
  | @drain x v i timer f' hpc hx hx' hmem hdelay hdue =>
    refine ⟨h', fun y hy => ?_, fun w y hw => ?_⟩
    · have hyx : y ≠ x := by
        rintro rfl
        cases h'.inv.timer.contents.disjoint hy hx'
      exact (hdelay y).symm ▸ h.pending y ((hmem y hyx _).1 hy)
    · exact (hdelay y).symm ▸ h.held w y hw
  | tick | post => exact ⟨h', h.pending, h.held⟩
  | @fire x i timer f' hpc hfires hx hout hmem hnodes hnow =>
    refine ⟨h', fun y hy => ?_, fun w y hw => ?_⟩
    · have hyx : y ≠ x := fun he => hout _ (he ▸ hy)
      exact hnodes.symm ▸ h.pending y ((hmem y hyx _).1 hy)
    · exact hnodes.symm ▸ h.held w y hw
  | @cascade x u low i j timer f' hpc hfires hlow hx hx' hmem hdelay hrem =>
    refine ⟨h', fun y hy => ?_, fun w y hw => ?_⟩
    · have hyx : y ≠ x := by
        rintro rfl
        cases h'.inv.timer.contents.disjoint hy hx'
      exact (hdelay y hyx).symm ▸ h.pending y ((hmem y hyx _).1 hy)
    · have hyx : y ≠ x := fun he => hheld hx (he ▸ hw)
      exact (hdelay y hyx).symm ▸ h.held w y hw
  | @advance u timer pc cur' hpc hfires hnext hnodes hrem =>
    exact ⟨h', hnodes.symm ▸ h.pending, hnodes.symm ▸ h.held⟩

/-- A step whose delay is in the span keeps all delays in the span. -/
theorem Spanned.step (h : s.Spanned f cur) (ha : a.InSpan) (hs : s.step a = some s') :
    ∃ f' cur', s'.Spanned f' cur' := by
  have hrange := h.inRange a
  obtain ⟨f', cur', h'⟩ := h.clocked.step hrange hs
  refine ⟨f', cur', ?_⟩
  rcases step_cases hs with hun | ⟨w, x, k, rfl, hx, rfl⟩ | ⟨w, x, rfl, hx, hloop⟩ | ⟨rfl, htimer⟩
  · obtain ⟨rfl, -⟩ := (hun.timer ▸ h.clocked.inv.timer : s'.timer.Valid f cur).unique h'.inv.timer
    refine ⟨h', hun.timer ▸ h.pending, fun w y hw => ?_⟩
    rw [hun.timer]
    rw [hun.handing] at hw
    exact h.held w y hw
  · obtain ⟨rfl, -⟩ := (h.clocked.inv.coroutineSleep (d := k) hx).timer.unique h'.inv.timer
    obtain ⟨hpc, hcur⟩ := runningOn_eq_some hx
    have hat : s.At f' x (.worker w .current) := hcur
    have hdelay : ∀ y, y ≠ x →
        ((s.coroutineSleep w x k).timer.nodes y).delayMS = (s.timer.nodes y).delayMS :=
      fun y hy => TimerManager.setDelay_delayMS_ne hy
    have hself : ((s.coroutineSleep w x k).timer.nodes x).delayMS = k :=
      TimerManager.setDelay_delayMS_self
    refine ⟨h', fun y hy => ?_, fun v y hv => ?_⟩
    · have hyx : y ≠ x := by
        rintro rfl
        have hat' : s.At f' y (.timer .pending) := hy
        cases h.clocked.inv.exclusive.unique hat hat'
      exact (hdelay y hyx).symm ▸ h.pending y hy
    · rcases eq_or_ne y x with rfl | hyx
      · rw [hself]
        exact ha
      · rw [hdelay y hyx]
        refine h.held v y ?_
        rcases eq_or_ne v w with rfl | hvw
        · simp [Scheduler.coroutineSleep, swapOut, Scheduler.setPc, setWorker, setCoroutine] at hv
          exact absurd hv.symm hyx
        · simpa [Scheduler.coroutineSleep, swapOut, Scheduler.setPc, setWorker, setCoroutine, hvw]
            using hv
  · obtain ⟨y, hw, hs', hvalid, hout, hdelay⟩ := h.clocked.handed hloop hx
    obtain ⟨rfl, -⟩ := hvalid.unique h'.inv.timer
    refine ⟨h', fun z hz => ?_, fun v z hv => ?_⟩
    · rw [hdelay]
      rcases eq_or_ne z x with rfl | hzx
      · exact h.held w z hw
      · exact h.pending z ((TimerManager.mem_update_append hzx).1 hz)
    · rw [hdelay]
      rw [hs'] at hv
      refine h.held v z ?_
      rcases eq_or_ne v w with rfl | hvw
      · simp at hv
      · simpa [hvw] using hv
  · obtain ⟨f₁, cur₁, hmove, hvalid, -⟩ := h.clocked.timerMove hrange htimer
    obtain ⟨rfl, rfl⟩ := hvalid.unique h'.inv.timer
    exact h.timerMove hmove h'

/-- All delays are in the span in every run whose calls have them there. -/
theorem Reachable.spanned (hr : Reachable (fun _ a => a.InSpan) s) : ∃ f cur, s.Spanned f cur := by
  induction hr with
  | init nodes =>
    refine ⟨_, _, ⟨inv_init nodes, trivial⟩, fun c hc => absurd hc List.not_mem_nil, ?_⟩
    intro w c hc
    cases hc
  | step _ ha hs ih =>
    obtain ⟨f, cur, h⟩ := ih
    exact h.step ha hs

/-! ## The timer goes on -/

omit [DecidableEq W] in
/-- The thread of the timer has a next step. -/
theorem Spanned.timerStep (h : s.Spanned f cur) : ∃ s', s.timerStep = some s' := by
  have hinv := h.clocked.inv
  cases hpc : s.timerPc with
  | draining =>
    cases hp : f .pending with
    | nil =>
      simp only [Scheduler.timerStep, hpc, hinv.timer.contents.drainOne_nil hp]
      exact ⟨_, rfl⟩
    | cons c cs =>
      obtain ⟨hpos, hlt⟩ := h.pending c (hp ▸ List.mem_cons_self)
      obtain ⟨d, hd⟩ := Int.eq_ofNat_of_zero_le hpos
      obtain ⟨timer, f', hrun, -⟩ := hinv.timer.drainOne_nat hp hd (by omega)
      simp only [Scheduler.timerStep, hpc, hrun]
      exact ⟨_, rfl⟩
  | posting u =>
    simp only [Scheduler.timerStep, hpc]
    exact ⟨_, rfl⟩
  | ticking u =>
    obtain ⟨i, hi⟩ : ∃ i : Fin TIMEWHEEL_NUM_SLOTS_PER_WHEEL, (i : ℕ) = cur u :=
      ⟨⟨cur u, hinv.timer.cur_lt u⟩, rfl⟩
    have hidx : TimerManager.slotIndex (s.timer.timewheels u).curSlotIdx = .ok i := by
      rw [hinv.timer.wheels.cursor, ← hi, TimerManager.slotIndex_natCast]
    simp only [Scheduler.timerStep, hpc, hidx]
    cases hlower : (s.timer.timewheels u).lower with
    | none =>
      cases hround : s.timer.fireRound u i with
      | none => exact ⟨_, rfl⟩
      | some r => exact ⟨_, rfl⟩
    | some low =>
      cases hp : f (.slot u i) with
      | nil =>
        simp only [hinv.timer.contents.cascadeRound_nil hp]
        exact ⟨_, rfl⟩
      | cons c cs =>
        obtain ⟨timer, f', j, hround, -⟩ :=
          hinv.timer.cascadeRound hp (hinv.timer.wheels.eq_succ_of_lower hlower)
        simp only [hround]
        exact ⟨_, rfl⟩

/-! ## What the steps cost -/

omit [DecidableEq W] in
/-- A step of the timer is paid for by the coroutine that it moves, or by the tick. -/
theorem Clocked.timerWork_timer (h : s.Clocked f cur) (h' : s'.Clocked f' cur')
    (hmove : s.TimerMove f cur s' f' cur') :
    1 + s'.timerWork f' ≤ s.timerWork f + 4 * (if s.Begins .timer then 1 else 0) := by
  have hcont := h.inv.timer.contents
  have hcont' := h'.inv.timer.contents
  -- a coroutine is in one list
  have hat : ∀ {p x}, x ∈ f p → ∀ q, x ∈ f q ↔ some p = some q :=
    fun hx q => ⟨fun hq => congrArg some (hcont.disjoint hx hq), fun he => Option.some.inj he ▸ hx⟩
  have hat' : ∀ {p x}, x ∈ f' p → ∀ q, x ∈ f' q ↔ some p = some q :=
    fun hx q => ⟨fun hq => congrArg some (hcont'.disjoint hx hq), fun he => Option.some.inj he ▸ hx⟩
  cases hmove with
  | @drain x v i timer f' hpc hx hx' hmem hdelay hdue =>
    have hweigh := weigh_move (g := Place.price) hcont.nodup hcont'.nodup hmem (hat hx) (hat' hx')
    have hv : (v : ℕ) < 3 := v.isLt
    simp only [Option.elim_some, Place.price] at hweigh
    change 1 + (weigh Place.price f' + s.timerPc.stepsLeft) ≤ weigh Place.price f + _ + _
    omega
  | tick hpc hp =>
    have hhead : s.timer.pendingEvents.head = (f .pending).head? :=
      (hcont.holds .pending).chain.head
    have hbegins : s.Begins .timer := ⟨hpc, by rw [hhead, hp, List.head?_nil]⟩
    rw [if_pos hbegins]
    change 1 + (weigh Place.price f + 3) ≤ weigh Place.price f + _ + _
    omega
  | @fire x i timer f' hpc hfires hx hout hmem hnodes hnow =>
    have hnone : ∀ q, x ∈ f' q ↔ none = some q :=
      fun q => ⟨fun hq => absurd hq (hout q), fun he => by cases he⟩
    have hweigh := weigh_move (g := Place.price) hcont.nodup hcont'.nodup hmem (hat hx) hnone
    simp only [Option.elim_some, Option.elim_none, Place.price] at hweigh
    rw [timerWork, timerWork, hpc]
    change 1 + (weigh Place.price f' + 4) ≤ weigh Place.price f + 3 + _
    omega
  | post hpc =>
    rw [timerWork, timerWork, hpc]
    change 1 + (weigh Place.price f + 3) ≤ weigh Place.price f + 4 + _
    omega
  | @cascade x u low i j timer f' hpc hfires hlow hx hx' hmem hdelay hrem =>
    have hweigh := weigh_move (g := Place.price) hcont.nodup hcont'.nodup hmem (hat hx) (hat' hx')
    simp only [Option.elim_some, Place.price] at hweigh
    change 1 + (weigh Place.price f' + s.timerPc.stepsLeft) ≤ weigh Place.price f + _ + _
    omega
  | @advance u timer pc cur' hpc hfires hnext hnodes hrem =>
    have hu : (u : ℕ) < 3 := u.isLt
    rw [timerWork, timerWork, hpc]
    change 1 + (weigh Place.price f + pc.stepsLeft) ≤ weigh Place.price f + (3 - u) + _
    rcases hnext with rfl | ⟨up, hup, rfl⟩
    · simp only [TimerPc.stepsLeft]
      omega
    · simp only [TimerPc.stepsLeft]
      omega

/-- A step costs the timer at most what it gives: five for a coroutine that is handed over, and four
for a tick. -/
theorem Clocked.timerWork_step (h : s.Clocked f cur) (h' : s'.Clocked f' cur')
    (hrange : s.InRange a) (hs : s.step a = some s') :
    timerSteps a + s'.timerWork f' ≤
      s.timerWork f + 5 * (s.handed a).isSome.toNat + 4 * (if s.Begins a then 1 else 0) := by
  rcases step_cases hs with hun | ⟨w, x, k, rfl, hx, rfl⟩ | ⟨w, x, rfl, hx, hloop⟩ | ⟨rfl, htimer⟩
  · obtain ⟨rfl, -⟩ := (hun.timer ▸ h.inv.timer : s'.timer.Valid f cur).unique h'.inv.timer
    have hzero : timerSteps a = 0 := by
      cases a with
      | timer => exact absurd rfl hun.ne_timer
      | _ => rfl
    rw [hzero, timerWork, timerWork, hun.timerPc]
    omega
  · obtain ⟨rfl, -⟩ := (h.inv.coroutineSleep (d := k) hx).timer.unique h'.inv.timer
    change 0 + s.timerWork f' ≤ _
    omega
  · obtain ⟨y, hw, hs', hvalid, hout, hdelay⟩ := h.handed hloop hx
    obtain ⟨rfl, -⟩ := hvalid.unique h'.inv.timer
    have hpc : s'.timerPc = s.timerPc := by rw [hs']
    have hcont' := h'.inv.timer.contents
    have hself : x ∈ Function.update f .pending (f .pending ++ [x]) .pending := by
      rw [Function.update_self]
      exact List.mem_append_right _ List.mem_cons_self
    have hweigh := weigh_move (g := Place.price) (p := none) (q := some .pending)
      h.inv.timer.contents.nodup hcont'.nodup
      (fun z hz p => TimerManager.mem_update_append hz)
      (fun p => ⟨fun hp => absurd hp (hout p), fun he => by cases he⟩)
      (fun p => ⟨fun hp => congrArg some (hcont'.disjoint hself hp), fun he => by
        cases he
        exact hself⟩)
    simp only [Option.elim_some, Option.elim_none, Place.price] at hweigh
    rw [hx, timerWork, timerWork, hpc]
    simp only [timerSteps, Option.isSome_some, Bool.toNat_true]
    omega
  · obtain ⟨f₁, cur₁, hmove, hvalid, -⟩ := h.timerMove hrange htimer
    obtain ⟨rfl, rfl⟩ := hvalid.unique h'.inv.timer
    have hwork := h.timerWork_timer h' hmove
    simp only [timerSteps]
    omega

/-! ## Runs -/

/-- The ticks that a coroutine in the timer may have to wait for. -/
def ticksLeft (d : ℕ) : Stage → ℕ
  | .asked => d + 1 + 3660
  | .due n => n
  | _ => 0

/-- A coroutine in the timer stays there until it is pushed, and each tick brings it closer. -/
theorem ticksLeft_next (hst : st = .asked ∨ ∃ n, st = .due n) (hnext : Next (InTime d) st σ st')
    (hσ : σ ≠ .fire) : (st' = .asked ∨ ∃ n, st' = .due n) ∧
      ticksLeft d st' + (if σ = .tick then 1 else 0) ≤ ticksLeft d st := by
  rcases hst with rfl | ⟨n, rfl⟩
  · cases hnext with
    | wait => exact ⟨.inl rfl, le_rfl⟩
    | settle hn => exact ⟨.inr ⟨_, rfl⟩, hn.2.1⟩
  · cases hnext with
    | stay => exact ⟨.inr ⟨n, rfl⟩, le_rfl⟩
    | tick => exact ⟨.inr ⟨_, rfl⟩, le_rfl⟩
    | fire => exact absurd rfl hσ

omit [DecidableEq W] in
/-- The beginning of a tick is heard as a tick. -/
theorem signal_of_begins (h : s.Begins a) : s.signal c a = .tick := by
  cases a with
  | timer =>
    have hfired : s.fired .timer ≠ some c := by
      rw [fired, fires, h.1]
      simp
    rw [signal_timer, if_neg hfired, if_pos h]
  | _ => exact h.elim

omit [DecidableEq W] in
/-- What is heard as a push of the coroutine is one. -/
theorem fired_of_signal (h : s.signal c a = .fire) : s.fired a = some c := by
  unfold signal at h
  split at h
  · cases h
  · split at h
    · cases h
    · split at h
      · assumption
      · split at h
        · cases h
        · cases h

/-- A step of a run that does not push the coroutine `c`, and how many coroutines it hands over. -/
def Unfired (c : C) (s : Scheduler C W) (x : Action C W × ℕ) (s' : Scheduler C W) : Prop :=
  x.1.InSpan ∧ s.step x.1 = some s' ∧ s.fired x.1 ≠ some c ∧ x.2 = (s.handed x.1).isSome.toNat

/-- The coroutine `c` is in the timer, and the timer comes to it in `φ` steps if none is handed
over. -/
def WaitsFor (c : C) (d : ℕ) (s : Scheduler C W) (φ : ℕ) : Prop :=
  ∃ f cur st, s.Spanned f cur ∧ s.InStage f cur c d st ∧ (st = .asked ∨ ∃ n, st = .due n) ∧
    φ = s.timerWork f + 4 * ticksLeft d st

/-- A step of the timer brings the push nearer; each coroutine that is handed over sets it back by
five. -/
theorem WaitsFor.step {φ : ℕ} {y : Action C W × ℕ} (h : s.WaitsFor c d φ)
    (hs : s.Unfired c y s') :
    ∃ φ', s'.WaitsFor c d φ' ∧ timerSteps y.1 + φ' ≤ φ + 5 * y.2 := by
  obtain ⟨f, cur, st, hspan, hst, hin, rfl⟩ := h
  obtain ⟨ha, hs, hfired, hy⟩ := hs
  have hrange := hspan.inRange y.1
  obtain ⟨f', cur', hspan'⟩ := hspan.step ha hs
  obtain ⟨f₁, cur₁, st', h₁, hst', hnext⟩ := hspan.clocked.signalled hst hrange hs
  obtain ⟨rfl, rfl⟩ := hspan'.clocked.inv.timer.unique h₁.inv.timer
  obtain ⟨hin', hticks⟩ := ticksLeft_next hin hnext fun hσ => hfired (fired_of_signal hσ)
  refine ⟨_, ⟨f₁, cur₁, st', hspan', hst', hin', rfl⟩, ?_⟩
  have hwork := hspan.clocked.timerWork_step hspan'.clocked hrange hs
  rw [← hy] at hwork
  by_cases hbegins : s.Begins y.1
  · rw [if_pos hbegins] at hwork
    rw [if_pos (signal_of_begins hbegins)] at hticks
    omega
  · rw [if_neg hbegins] at hwork
    have hle : ticksLeft d st' ≤ ticksLeft d st := (Nat.le_add_right ..).trans hticks
    omega

omit [DecidableEq C] [DecidableEq W] in
/-- A coroutine in a list of the timer waits in a stage. -/
theorem Spanned.waitsFor {p : Place} (h : s.Spanned f cur) (hc : c ∈ f p) :
    ∃ d φ, s.WaitsFor c d φ ∧ φ ≤ 4 * (216000 + 3660 + 1) + 5 * ∑ p, (f p).length := by
  have hwork : s.timerWork f ≤ 5 * ∑ p, (f p).length + 4 := by
    have hle := weigh_le (f := f) Place.price_le
    have hpc : s.timerPc.stepsLeft ≤ 4 := by
      unfold TimerPc.stepsLeft
      split <;> omega
    rw [timerWork]
    omega
  cases p with
  | pending =>
    obtain ⟨hpos, hlt⟩ := h.pending c hc
    obtain ⟨d, hd⟩ := Int.eq_ofNat_of_zero_le hpos
    refine ⟨d, _, ⟨f, cur, .asked, h, ⟨hc, hd⟩, .inl rfl, rfl⟩, ?_⟩
    simp only [ticksLeft]
    omega
  | slot v i =>
    obtain ⟨n, hn⟩ : ∃ n, Remaining s.timer f (s.timerPc.cursors cur) c (n + s.timerPc.begun) := by
      have hpos : 0 < due (s.timerPc.cursors cur) v i (s.timer.nodes c).delayMS.toNat := due_pos
      have hbegun : s.timerPc.begun ≤ 1 := by
        unfold TimerPc.begun
        split
        · exact Nat.zero_le 1
        · split <;> omega
        · split <;> omega
      exact ⟨_, v, i, hc, (Nat.sub_add_cancel (hbegun.trans hpos)).symm⟩
    have hle := hn.le
    refine ⟨0, _, ⟨f, cur, .due n, h, hn, .inr ⟨n, rfl⟩, rfl⟩, ?_⟩
    simp only [ticksLeft]
    omega

/-- The timer wakes everybody up. In every run with delays that the wheels cover, its thread has a
next step; and as long as it has not pushed a coroutine that is in its lists, it has made a number
of steps that is bounded by the ticks of the longest delay, by the coroutines in its lists, and by
those that have been handed over since. -/
theorem run_wakes_up (hr : Reachable (fun _ a => a.InSpan) s) :
    (∃ s', s.step .timer = some s') ∧
    ∀ f, s.timer.Contents f → ∀ p, ∀ c ∈ f p, ∀ ys s', Steps (Unfired c) s ys s' →
      total (fun y => timerSteps y.1) ys ≤
        4 * (216000 + 3660 + 1) + 5 * ∑ p, (f p).length + 5 * total Prod.snd ys := by
  obtain ⟨f₁, cur, h⟩ := hr.spanned
  refine ⟨h.timerStep, fun f hf p c hc ys s' hsteps => ?_⟩
  obtain rfl : f₁ = f := h.clocked.inv.timer.contents.unique hf
  obtain ⟨d, φ, hwaits, hle⟩ := h.waitsFor hc
  obtain ⟨φ', -, htotal⟩ := hsteps.total_le_of_rel (WaitsFor c d) (fun y => timerSteps y.1)
    (fun y => 5 * y.2) (fun _ _ _ _ hwaits hs => hwaits.step hs) hwaits
  rw [total_mul] at htotal
  omega

/-- The coroutine sleeps for `5` ms and is pending. -/
theorem run_wakes_up_unit : ∃ s f, initUnit.run (sleepOnce 5) = some s ∧
    s.timer.Contents f ∧ () ∈ f .pending ∧ (∃ s', s.step .timer = some s') ∧
    ∀ ys s', Steps (Unfired ()) s ys s' → total (fun y => timerSteps y.1) ys ≤
      4 * (216000 + 3660 + 1) + 5 * ∑ p, (f p).length + 5 * total Prod.snd ys := by
  have hany : ((initUnit.run (sleepOnce 5)).any fun s =>
      decide (s.timer.pendingEvents.head = some ())) = true := by decide +kernel
  obtain ⟨s, hs, hhead⟩ := (Option.any_eq_true _ _).1 hany
  have hhead : s.timer.pendingEvents.head = some () := of_decide_eq_true hhead
  have hr : Reachable (fun _ a => a.InSpan) s := by
    refine (Reachable.init _).run (fun a ha s => ?_) hs
    simp only [sleepOnce, List.mem_cons, List.not_mem_nil, or_false] at ha
    rcases ha with rfl | rfl | rfl | rfl | rfl | rfl | rfl | rfl
    · trivial
    · trivial
    · trivial
    · trivial
    · exact ⟨by decide, by decide⟩
    · trivial
    · trivial
    · trivial
  obtain ⟨f, cur, h⟩ := hr.spanned
  have hcont := h.clocked.inv.timer.contents
  have hmem : () ∈ f .pending :=
    List.mem_of_head? ((hcont.holds .pending).chain.head.symm.trans hhead)
  obtain ⟨hstep, hbound⟩ := run_wakes_up hr
  exact ⟨s, f, hs, hcont, hmem, hstep, hbound f hcont .pending () hmem⟩

end Scheduler

end RockCoro
