import RockCoro.Lib.Logs
import RockCoro.Timer.Run

/-!
# The schedule of the timer's loop

`TimerManager::event_loop` against the monotonic clock, with other threads calling `add_event` in
between. Each deadline is the one before and a millisecond, whatever the clock shows, so the ticks
do not drift: tick `k` is not before `k` ms after the start (`loop_onSchedule`). A signal may cut a
sleep short, and the loop does not look why `clock_nanosleep` returned; the tick is then early, and
so is each further one until a sleep is not cut short. The loop does not sleep until it is ahead, so
behind a delay it ticks faster, and what is inserted then sleeps for less than its delay by what the
loop is late.
-/

namespace RockCoro

/-- `struct timespec`. -/
structure Timespec where
  tvSec : Int
  tvNsec : Int
  deriving DecidableEq

namespace Timespec

/-- The time in nanoseconds. -/
def toNs (t : Timespec) : Int := t.tvSec * 1000000000 + t.tvNsec

/-- The nanoseconds are less than a second. -/
def Normal (t : Timespec) : Prop := 0 ≤ t.tvNsec ∧ t.tvNsec < 1000000000

/-- What `clock_gettime` stores when the clock shows `ns`. -/
def ofNs (ns : ℕ) : Timespec := ⟨ns / 1000000000, ns % 1000000000⟩

/-- The loop of `event_loop` that takes whole seconds out of `tv_nsec`. -/
def carry (t : Timespec) : Timespec :=
  if t.tvNsec ≥ 1000000000 then carry ⟨t.tvSec + 1, t.tvNsec - 1000000000⟩ else t
termination_by t.tvNsec.toNat

/-- The next tick time. -/
def nextTick (t : Timespec) : Timespec :=
  carry { t with tvNsec := t.tvNsec + TIMEWHEEL_INTERVAL_MS * 1000000 }

/-- `cur_time < next`. -/
def Before (t next : Timespec) : Prop :=
  t.tvSec < next.tvSec ∨ t.tvSec = next.tvSec ∧ t.tvNsec < next.tvNsec

instance (t next : Timespec) : Decidable (t.Before next) :=
  inferInstanceAs (Decidable (_ ∨ _))

variable {t next : Timespec}

/-- The fields of a time stand for it. -/
theorem toNs_ofNs (ns : ℕ) : (ofNs ns).toNs = ns := by
  simp only [toNs, ofNs]
  omega

/-- The fields of a time are normal. -/
theorem normal_ofNs (ns : ℕ) : (ofNs ns).Normal := by
  simp only [Normal, ofNs]
  omega

/-- The carry into the seconds keeps the time and makes the fields normal. -/
theorem carry_spec (h : 0 ≤ t.tvNsec) : t.carry.Normal ∧ t.carry.toNs = t.toNs := by
  induction t using carry.induct with
  | case1 t hge ih =>
    obtain ⟨hnormal, hns⟩ := ih (Int.sub_nonneg_of_le hge)
    rw [carry, if_pos hge]
    refine ⟨hnormal, hns.trans ?_⟩
    simp only [toNs]
    omega
  | case2 t hlt =>
    rw [carry, if_neg hlt]
    exact ⟨⟨h, Int.not_le.1 hlt⟩, rfl⟩

/-- `next` moves on by one millisecond, and its fields stay normal. -/
theorem nextTick_spec (h : t.Normal) :
    t.nextTick.Normal ∧ t.nextTick.toNs = t.toNs + 1000000 := by
  obtain ⟨hnonneg, -⟩ := h
  obtain ⟨hnormal, hns⟩ := carry_spec
    (t := { t with tvNsec := t.tvNsec + TIMEWHEEL_INTERVAL_MS * 1000000 })
    (by change 0 ≤ t.tvNsec + 1 * 1000000; omega)
  refine ⟨hnormal, hns.trans ?_⟩
  simp only [toNs, TIMEWHEEL_INTERVAL_MS]
  omega

/-- The comparison of the fields is that of the times. -/
theorem before_iff (h : t.Normal) (hnext : next.Normal) : t.Before next ↔ t.toNs < next.toNs := by
  obtain ⟨h₀, h₁⟩ := h
  obtain ⟨hn₀, hn₁⟩ := hnext
  simp only [Before, toNs]
  omega

end Timespec

/-- Where the thread stands in `event_loop`. -/
inductive TimerLoopPc
  /-- At the check of `running_`. -/
  | head
  | drain
  | tick
  /-- At the computation of the next tick time. -/
  | next
  /-- At the second `clock_gettime`. -/
  | read
  /-- In `clock_nanosleep`. -/
  | sleep
  /-- Out of the loop. -/
  | done
  deriving DecidableEq

/-- By how many ticks the loop is ahead of the clock, at most, if its sleeps are not cut short. -/
def TimerLoopPc.ahead : TimerLoopPc → ℕ
  | .next | .read | .sleep => 1
  | _ => 0

/-- The timer, the variable `next` of its loop and what the clock shows, in nanoseconds. `early` is
how many of the latest sleeps were cut short, one after another. -/
structure TimerLoop (C : Type) where
  timer : TimerManager C
  next : Timespec
  clock : ℕ
  pc : TimerLoopPc := .head
  early : ℕ := 0

namespace TimerLoop

open TimerManager

variable {C : Type} [DecidableEq C]

/-- A step of the loop or of a thread that calls `add_event`, with what it does to the timer. Time
passes at any moment. `clock_nanosleep` with `TIMER_ABSTIME` returns when the clock has reached the
time, or before that with `EINTR`, which the loop does not look at. -/
inductive Step (s : TimerLoop C) : Option (Event C) → TimerLoop C → Prop
  | pass (ns : ℕ) : Step s none { s with clock := s.clock + ns }
  | add {c : C} {d : ℕ} {timer} (h : s.timer.Step (.add c d) timer) :
    Step s (some (.add c d)) { s with timer := timer }
  | running (hpc : s.pc = .head) : Step s none { s with pc := .drain }
  | stopped (hpc : s.pc = .head) : Step s none { s with pc := .done }
  | drain {c : C} {d : ℕ} {timer} (hpc : s.pc = .drain) (h : s.timer.Step (.drain c d) timer) :
    Step s (some (.drain c d)) { s with timer := timer }
  | drained {timer} (hpc : s.pc = .drain) (h : s.timer.drainOne = .ok (none, timer)) :
    Step s none { s with timer := timer, pc := .tick }
  | tick {xs : List C} {timer} (hpc : s.pc = .tick) (h : s.timer.Step (.tick xs) timer) :
    Step s (some (.tick xs)) { s with timer := timer, pc := .next }
  | next (hpc : s.pc = .next) : Step s none { s with next := s.next.nextTick, pc := .read }
  | ahead (hpc : s.pc = .read) (h : (Timespec.ofNs s.clock).Before s.next) :
    Step s none { s with pc := .sleep }
  | behind (hpc : s.pc = .read) (h : ¬(Timespec.ofNs s.clock).Before s.next) :
    Step s none { s with pc := .head, early := 0 }
  | wake (hpc : s.pc = .sleep) (h : s.next.toNs ≤ s.clock) :
    Step s none { s with pc := .head, early := 0 }
  | interrupted (hpc : s.pc = .sleep) : Step s none { s with pc := .head, early := s.early + 1 }

/-- What was done to the timer, at which time, and how many sleeps in a row had been cut short
then. -/
structure Entry (C : Type) where
  time : ℕ
  early : ℕ
  event : Event C
  deriving DecidableEq

/-- What was done to the timer, without the times. -/
def untimed (log : List (Entry C)) : List (Event C) := log.map Entry.event

/-- The entry of the log for a step from the state. -/
def stamped (s : TimerLoop C) : Option (Event C) → List (Entry C)
  | none => []
  | some x => [⟨s.clock, s.early, x⟩]

/-- The loop before its first round, when the clock shows `start`. -/
def init (start : ℕ) (nodes : C → TimeWheelLinkedListNode C) : TimerLoop C :=
  { timer := TimerManager.init nodes, next := .ofNs start, clock := start }

/-- The runs of a loop that starts when the clock shows `start`, with their logs. -/
inductive Run (start : ℕ) : List (Entry C) → TimerLoop C → Prop
  | init (nodes : C → TimeWheelLinkedListNode C) : Run start [] (init start nodes)
  | step {log s e s'} (hr : Run start log s) (ha : ∀ x, e = some x → Allowed (untimed log) x)
    (hs : Step s e s') : Run start (log ++ stamped s e) s'

/-- What happens next, to run the loop step by step. -/
inductive Action (C : Type)
  | pass (ns : ℕ)
  | add (c : C) (d : ℕ)
  | proceed
  | interrupt

/-- The next step of the loop, while `running_` is set. -/
def proceed (s : TimerLoop C) : Option (Option (Event C) × TimerLoop C) :=
  match s.pc with
  | .head => some (none, { s with pc := .drain })
  | .drain =>
    match s.timer.drainOne with
    | .ok (none, timer) => some (none, { s with timer := timer, pc := .tick })
    | _ => (s.timer.exec .drain).map fun (e, timer) => (some e, { s with timer := timer })
  | .tick => (s.timer.exec .tick).map fun (e, timer) =>
    (some e, { s with timer := timer, pc := .next })
  | .next => some (none, { s with next := s.next.nextTick, pc := .read })
  | .read =>
    if (Timespec.ofNs s.clock).Before s.next then some (none, { s with pc := .sleep })
    else some (none, { s with pc := .head, early := 0 })
  | .sleep =>
    if s.next.toNs ≤ s.clock then some (none, { s with pc := .head, early := 0 }) else none
  | .done => none

/-- The step that an action takes, if it is one, and what it does to the timer. -/
def exec (s : TimerLoop C) : Action C → Option (Option (Event C) × TimerLoop C)
  | .pass ns => some (none, { s with clock := s.clock + ns })
  | .add c d => (s.timer.exec (.add c d)).map fun (e, timer) => (some e, { s with timer := timer })
  | .proceed => s.proceed
  | .interrupt =>
    if s.pc = .sleep then some (none, { s with pc := .head, early := s.early + 1 }) else none

/-- The log and the state after some actions. -/
def execAll : List (Entry C) → TimerLoop C → List (Action C) →
    Option (List (Entry C) × TimerLoop C)
  | log, s, [] => some (log, s)
  | log, s, a :: as => do
    let (e, s') ← s.exec a
    if ∀ x ∈ e, Allowed (untimed log) x then execAll (log ++ stamped s e) s' as else none

variable {s s' : TimerLoop C} {start : ℕ} {log : List (Entry C)} {e : Option (Event C)}

omit [DecidableEq C] in
/-- A log and its continuation without their times. -/
theorem untimed_append {l₁ l₂ : List (Entry C)} :
    untimed (l₁ ++ l₂) = untimed l₁ ++ untimed l₂ := List.map_append

omit [DecidableEq C] in
/-- A step that stamps nothing leaves the log alone. -/
theorem append_stamped_none : log ++ stamped s none = log := List.append_nil _

/-- The drain loop that finds the list empty leaves the timer as it is. -/
theorem timer_of_drained {timer timer' : TimerManager C}
    (h : timer.drainOne = .ok (none, timer')) : timer' = timer := by
  simp only [drainOne, popPendingEvent, TimeWheelLinkedList.popFront] at h
  cases hhead : timer.pendingEvents.head with
  | none =>
    simp only [hhead] at h
    cases h
    rfl
  | some c =>
    simp only [hhead] at h
    cases hadd : internalAddEvent _ c with
    | error =>
      rw [hadd] at h
      cases h
    | ok =>
      rw [hadd] at h
      cases h

/-- A run of the loop is a run of the timer. -/
theorem Run.timer (hr : Run start log s) : TimerManager.Run (untimed log) s.timer := by
  induction hr with
  | init nodes => exact .init nodes
  | step hr ha hs ih =>
    cases hs with
    | pass | running | stopped | next | ahead | behind | wake | interrupted =>
      rw [append_stamped_none]
      exact ih
    | drained hpc h =>
      rw [append_stamped_none, timer_of_drained h]
      exact ih
    | add h | drain hpc h | tick hpc h =>
      rw [untimed_append]
      exact ih.step (ha _ rfl) h

/-- The loop as it goes on takes steps. -/
theorem step_of_proceed (h : s.proceed = some (e, s')) : Step s e s' := by
  rw [proceed] at h
  split at h
  · cases h
    exact .running ‹_›
  · split at h
    · cases h
      exact .drained ‹_› ‹_›
    · obtain ⟨⟨x, timer⟩, hdrain, h⟩ := Option.map_eq_some_iff.1 h
      cases h
      obtain ⟨c, d, rfl⟩ := eq_drain_of_exec hdrain
      exact .drain ‹_› (step_of_exec hdrain)
  · obtain ⟨⟨x, timer⟩, htick, h⟩ := Option.map_eq_some_iff.1 h
    cases h
    obtain ⟨xs, rfl⟩ := eq_tick_of_exec htick
    exact .tick ‹_› (step_of_exec htick)
  · cases h
    exact .next ‹_›
  · split at h
    · cases h
      exact .ahead ‹_› ‹_›
    · cases h
      exact .behind ‹_› ‹_›
  · obtain ⟨hle, h⟩ := Option.ite_none_right_eq_some.1 h
    cases h
    exact .wake ‹_› hle
  · cases h

/-- What is executed is a step. -/
theorem step_of_action {a : Action C} (h : s.exec a = some (e, s')) : Step s e s' := by
  cases a with
  | pass ns =>
    cases h
    exact .pass ns
  | add c d =>
    obtain ⟨⟨x, timer⟩, hadd, h⟩ := Option.map_eq_some_iff.1 h
    cases h
    obtain rfl := eq_add_of_exec hadd
    exact .add (step_of_exec hadd)
  | proceed => exact step_of_proceed h
  | interrupt =>
    obtain ⟨hpc, h⟩ := Option.ite_none_right_eq_some.1 h
    cases h
    exact .interrupted hpc

/-- Actions that went well one after the other make a run. -/
theorem Run.of_execAll {as : List (Action C)} {log' : List (Entry C)} (hr : Run start log s)
    (h : execAll log s as = some (log', s')) : Run start log' s' := by
  induction as generalizing log s with
  | nil =>
    cases h
    exact hr
  | cons a as ih =>
    rw [execAll] at h
    obtain ⟨⟨e, s₁⟩, hs, h⟩ := Option.bind_eq_some_iff.1 h
    obtain ⟨ha, h⟩ := Option.ite_none_right_eq_some.1 h
    exact ih (hr.step ha (step_of_action hs)) h

/-- The deadline is that of the next tick, except between a tick and the computation of the next
one. A round of the loop begins before its deadline only if the sleep before was cut short, by at
most a millisecond for each of the sleeps in a row to which that happened. -/
structure OnSchedule (start : ℕ) (log : List (Entry C)) (s : TimerLoop C) : Prop where
  normal : s.next.Normal
  next_eq : s.next.toNs + (if s.pc = .next then 1000000 else 0) =
    start + 1000000 * ticks (untimed log)
  clock_le : start + 1000000 * ticks (untimed log) ≤ s.clock + 1000000 * (s.early + s.pc.ahead)
  onTime : ∀ u p v, log = u ++ p :: v → (∀ c d, p.event ≠ .add c d) →
    start + 1000000 * ticks (untimed u) ≤ p.time + 1000000 * p.early

/-- A step keeps the schedule. -/
theorem OnSchedule.step (h : OnSchedule start log s) (hs : Step s e s') :
    OnSchedule start (log ++ stamped s e) s' := by
  obtain ⟨hnormal, hnext, hclock, htime⟩ := id h
  have hlog : ∀ x : Event C, ((∀ c d, x ≠ .add c d) →
      start + 1000000 * ticks (untimed log) ≤ s.clock + 1000000 * s.early) →
      ∀ u p v, log ++ stamped s (some x) = u ++ p :: v → (∀ c d, p.event ≠ .add c d) →
        start + 1000000 * ticks (untimed u) ≤ p.time + 1000000 * p.early := by
    intro x hx
    exact forall_split_concat htime hx
  have hticks : ∀ x : Event C, ticks (untimed (log ++ stamped s (some x))) =
      ticks (untimed log) + if x.isTick then 1 else 0 := by
    intro x
    rw [untimed_append, ticks_append]
    exact congrArg _ ticks_singleton
  cases hs with
  | pass ns =>
    rw [append_stamped_none]
    refine ⟨hnormal, hnext, ?_, htime⟩
    change _ ≤ s.clock + ns + 1000000 * (s.early + s.pc.ahead)
    omega
  | @add c d timer hadd =>
    have hsame := hticks (.add c d)
    exact ⟨hnormal, hsame ▸ hnext, hsame ▸ hclock, hlog _ fun hne => absurd rfl (hne c d)⟩
  | running hpc | stopped hpc =>
    rw [append_stamped_none]
    rw [hpc] at hnext hclock
    exact ⟨hnormal, hnext, hclock, htime⟩
  | @drain c d timer hpc hdrain =>
    have hsame := hticks (.drain c d)
    refine ⟨hnormal, hsame ▸ hnext, hsame ▸ hclock, hlog _ fun _ => ?_⟩
    rwa [hpc] at hclock
  | drained hpc hdrained =>
    rw [append_stamped_none]
    rw [hpc] at hnext hclock
    exact ⟨hnormal, hnext, hclock, htime⟩
  | @tick xs timer hpc htick =>
    have hsucc : ticks (untimed (log ++ stamped s (some (.tick xs)))) =
        ticks (untimed log) + 1 := hticks (.tick xs)
    rw [hpc] at hnext hclock
    simp only [TimerLoopPc.ahead, Nat.add_zero, reduceCtorEq, if_false] at hnext hclock
    refine ⟨hnormal, ?_, ?_, hlog _ fun _ => hclock⟩
    · rw [hsucc]
      simp
      omega
    · rw [hsucc]
      simp only [TimerLoopPc.ahead]
      omega
  | next hpc =>
    obtain ⟨hnormal', hns⟩ := Timespec.nextTick_spec hnormal
    rw [append_stamped_none]
    rw [hpc] at hnext hclock
    refine ⟨hnormal', ?_, hclock, htime⟩
    simp at hnext ⊢
    omega
  | ahead hpc hbefore =>
    rw [append_stamped_none]
    rw [hpc] at hnext hclock
    exact ⟨hnormal, hnext, hclock, htime⟩
  | behind hpc hbefore =>
    rw [append_stamped_none]
    rw [hpc] at hnext
    rw [Timespec.before_iff (Timespec.normal_ofNs s.clock) hnormal, Timespec.toNs_ofNs] at hbefore
    simp only [reduceCtorEq, if_false] at hnext
    refine ⟨hnormal, by simpa using hnext, ?_, htime⟩
    simp only [TimerLoopPc.ahead]
    omega
  | wake hpc hwake =>
    rw [append_stamped_none]
    rw [hpc] at hnext
    simp only [reduceCtorEq, if_false] at hnext
    refine ⟨hnormal, by simpa using hnext, ?_, htime⟩
    simp only [TimerLoopPc.ahead]
    omega
  | interrupted hpc =>
    rw [append_stamped_none]
    rw [hpc] at hnext hclock
    exact ⟨hnormal, hnext, hclock, htime⟩

omit [DecidableEq C] in
/-- The loop starts on schedule: no tick was yet due. -/
theorem OnSchedule.init (nodes : C → TimeWheelLinkedListNode C) :
    OnSchedule start [] (init start nodes) where
  normal := Timespec.normal_ofNs start
  next_eq := by simpa [untimed, ticks, TimerLoop.init] using Timespec.toNs_ofNs start
  clock_le := le_rfl
  onTime := fun u p v hlog => by simp at hlog

/-- Every run is on schedule. -/
theorem Run.onSchedule (hr : Run start log s) : OnSchedule start log s := by
  induction hr with
  | init nodes => exact .init nodes
  | step _ _ hs ih => exact ih.step hs

/-- In every run the deadlines are whole milliseconds after the start, without drift. Tick `k` is
not before `start + k` ms, less a millisecond for each sleep that was cut short just before, and no
coroutine is inserted before the deadline that the loop waited for, to the same extent. So a
coroutine that is inserted `k` ticks after the start with the delay `d` is pushed at
`start + (k + d)` ms or later, if the sleep before that tick was not cut short. -/
theorem loop_onSchedule (hr : Run start log s) :
    (s.next.Normal ∧ (s.pc ≠ .next → s.next.toNs = start + 1000000 * ticks (untimed log))) ∧
    (∀ u p v, log = u ++ p :: v → (∀ c d, p.event ≠ .add c d) →
      start + 1000000 * ticks (untimed u) ≤ p.time + 1000000 * p.early) ∧
    ∀ u p c d v q xs w, log = u ++ p :: (v ++ q :: w) → p.event = .drain c d →
      q.event = .tick xs → (∀ d', .add c d' ∉ untimed v) → c ∈ xs →
        start + 1000000 * (ticks (untimed u) + d) ≤ q.time + 1000000 * q.early := by
  obtain ⟨hnormal, hnext, -, htime⟩ := hr.onSchedule
  refine ⟨⟨hnormal, fun hpc => ?_⟩, htime, ?_⟩
  · simpa [hpc] using hnext
  · rintro u p c d v q xs w rfl hp hq hadd hc
    have htimer := hr.timer
    rw [untimed_append] at htimer
    have hsplit : untimed (p :: (v ++ q :: w)) =
        .drain c d :: (untimed v ++ .tick xs :: untimed w) := by simp [untimed, hp, hq]
    rw [hsplit] at htimer
    obtain ⟨cur, -, hfires⟩ := htimer.fires_at hadd
    have hbefore : ticks (untimed (u ++ p :: v)) = ticks (untimed u) + ticks (untimed v) := by
      rw [untimed_append, ticks_append]
      simp [untimed, hp, ticks, Event.isTick]
    have hle := htime (u ++ p :: v) q w (by simp) fun c d he => by rw [hq] at he; cases he
    rw [hbefore] at hle
    have hdue := hfires.1 hc
    omega

/-- A round of the loop that sleeps for `ns`. -/
def sleepRound (ns : ℕ) : List (Action Bool) :=
  List.replicate 5 .proceed ++ [.pass ns, .proceed]

/-- Two coroutines sleep for `60` and for `3` ms. The first sleep of the loop is cut short at
once. -/
def roundsOfTwo : List (Action Bool) :=
  [.add true 60, .add false 3] ++ List.replicate 7 .proceed ++ [.interrupt] ++
    sleepRound 2000000 ++ (List.replicate 119 (sleepRound 1000000)).flatten

/-- One coroutine cascades and is pushed `120` ms after the start. -/
theorem exists_run_rounds : ∃ (u v log : List (Entry Bool)) (s : TimerLoop Bool), Run 5 log s ∧
    log = u ++ ⟨5, 0, .drain true 60⟩ :: (v ++ [⟨120000005, 0, .tick [true]⟩]) ∧
      s.pc = .head ∧ s.timer.pushed = [false, true] ∧ ticks (untimed log) = 121 ∧
      ticks (untimed u) = 0 ∧ ∀ d, .add true d ∉ untimed v := by
  have hexec : (execAll [] (init 5 fun _ => unusedNode) roundsOfTwo).any fun p => decide
      (p.1 = p.1.take 2 ++ ⟨5, 0, .drain true 60⟩ ::
          ((p.1.drop 3).dropLast ++ [⟨120000005, 0, .tick [true]⟩]) ∧
        p.2.pc = .head ∧ p.2.timer.pushed = [false, true] ∧ ticks (untimed p.1) = 121 ∧
        ticks (untimed (p.1.take 2)) = 0 ∧
        ∀ x ∈ untimed (p.1.drop 3).dropLast, x.isAdd true = false) := by
    decide +kernel
  obtain ⟨⟨log, s⟩, hrun, h⟩ := (Option.any_eq_true _ _).1 hexec
  obtain ⟨hlog, hpc, hpushed, hticks, hfirst, hadd⟩ := of_decide_eq_true h
  refine ⟨_, _, log, s, (Run.init _).of_execAll hrun, hlog, hpc, hpushed, hticks, hfirst,
    fun d hm => ?_⟩
  exact absurd (hadd _ hm) (by simp [Event.isAdd])

/-- `true` cascades from the second wheel and is pushed in tick 121, when 60 ms have passed. -/
theorem loop_onSchedule_two : ∃ s : TimerLoop Bool, s.timer.pushed = [false, true] ∧
    s.next.toNs = 5 + 1000000 * 121 ∧ 5 + 1000000 * (0 + 60) ≤ 120000005 + 1000000 * 0 := by
  obtain ⟨u, v, log, s, hr, hlog, hpc, hpushed, hticks, hfirst, hadd⟩ := exists_run_rounds
  obtain ⟨⟨-, hnext⟩, -, htime⟩ := loop_onSchedule hr
  have hpush := htime u _ true 60 v ⟨120000005, 0, .tick [true]⟩ [true] [] hlog rfl rfl hadd
    List.mem_cons_self
  rw [hfirst] at hpush
  rw [hticks] at hnext
  exact ⟨s, hpushed, hnext (by simp [hpc]), hpush⟩

end TimerLoop

end RockCoro
