import RockCoro.Timer.Lists
import Mathlib.Algebra.Group.Nat.Even
import Mathlib.Data.Fin.VecNotation
import Mathlib.Tactic.FinCases

/-!
# Inserting into the wheels

`Wheels s cur` says how `init` linked the three wheels and where their cursors stand, and
`Valid s f cur` is the invariant of the timer. `due cur w i d` is the number of the tick, from the
next one on, that fires an event with delay `d` in slot `i` of wheel `w`: the wheel comes to the
slot, and each cascade on the way down starts over with what is left of the delay.
-/

namespace RockCoro.TimerManager

open TimeWheelLinkedList

variable {C : Type}

/-- How the wheels are linked, their intervals, and their cursors. -/
structure Wheels (s : TimerManager C) (cur : Fin TIMEWHEEL_NUM_WHEELS → ℕ) : Prop where
  lowest : s.lowestTimewheel = 0
  lower : ∀ w, (s.timewheels w).lower = ![none, some 0, some 1] w
  upper : ∀ w, (s.timewheels w).upper = ![some 1, some 2, none] w
  interval : ∀ w, (s.timewheels w).intervalMS = (60 ^ (w : ℕ) : ℕ)
  cursor : ∀ w, (s.timewheels w).curSlotIdx = cur w

/-- Links, intervals, cursors and pushed jobs are as before. -/
structure SameClock (s s' : TimerManager C) : Prop where
  lowest : s'.lowestTimewheel = s.lowestTimewheel
  lower : ∀ w, (s'.timewheels w).lower = (s.timewheels w).lower
  upper : ∀ w, (s'.timewheels w).upper = (s.timewheels w).upper
  interval : ∀ w, (s'.timewheels w).intervalMS = (s.timewheels w).intervalMS
  cursor : ∀ w, (s'.timewheels w).curSlotIdx = (s.timewheels w).curSlotIdx
  pushed : s'.pushed = s.pushed

/-- The invariant of the timer. -/
structure Valid (s : TimerManager C) (f : Place → List C) (cur : Fin TIMEWHEEL_NUM_WHEELS → ℕ) :
    Prop where
  wheels : s.Wheels cur
  contents : s.Contents f
  cur_lt : ∀ w, cur w < 60
  delay : ∀ {w i c}, c ∈ f (.slot w i) → w ≠ 0 → 0 ≤ (s.nodes c).delayMS

variable {s s' : TimerManager C} {f : Place → List C} {cur : Fin TIMEWHEEL_NUM_WHEELS → ℕ}
  {p : Place} {c : C} {l : TimeWheelLinkedList C} {w : Fin TIMEWHEEL_NUM_WHEELS} {d n : ℕ}

/-- Nothing happened to the clock. -/
theorem SameClock.refl : SameClock s s :=
  ⟨rfl, fun _ => rfl, fun _ => rfl, fun _ => rfl, fun _ => rfl, rfl⟩

/-- Two steps that leave the clock alone. -/
theorem SameClock.trans {s'' : TimerManager C} (h : SameClock s s') (h' : SameClock s' s'') :
    SameClock s s'' :=
  ⟨h'.lowest.trans h.lowest, fun w => (h'.lower w).trans (h.lower w),
    fun w => (h'.upper w).trans (h.upper w), fun w => (h'.interval w).trans (h.interval w),
    fun w => (h'.cursor w).trans (h.cursor w), h'.pushed.trans h.pushed⟩

/-- The description of the wheels speaks of the clock only. -/
theorem Wheels.same (h : s.Wheels cur) (hs : SameClock s s') : s'.Wheels cur :=
  ⟨hs.lowest.trans h.lowest, fun w => (hs.lower w).trans (h.lower w),
    fun w => (hs.upper w).trans (h.upper w), fun w => (hs.interval w).trans (h.interval w),
    fun w => (hs.cursor w).trans (h.cursor w)⟩

/-- Changing a list does not move the clock. -/
theorem sameClock_setList : SameClock s (s.setList p l) := by
  cases p with
  | pending => exact ⟨rfl, fun _ => rfl, fun _ => rfl, fun _ => rfl, fun _ => rfl, rfl⟩
  | slot w i =>
    have h : ∀ w', ((s.setSlot w i l).timewheels w').lower = (s.timewheels w').lower ∧
        ((s.setSlot w i l).timewheels w').upper = (s.timewheels w').upper ∧
        ((s.setSlot w i l).timewheels w').intervalMS = (s.timewheels w').intervalMS ∧
        ((s.setSlot w i l).timewheels w').curSlotIdx = (s.timewheels w').curSlotIdx := by
      intro w'
      rcases eq_or_ne w' w with rfl | hw
      · simp [setSlot, setWheel]
      · simp [setSlot, setWheel, hw]
    exact ⟨rfl, fun w => (h w).1, fun w => (h w).2.1, fun w => (h w).2.2.1, fun w => (h w).2.2.2,
      rfl⟩

/-- Changing the nodes does not move the clock. -/
theorem sameClock_nodes {nodes : C → TimeWheelLinkedListNode C} :
    SameClock s { s with nodes := nodes } :=
  ⟨rfl, fun _ => rfl, fun _ => rfl, fun _ => rfl, fun _ => rfl, rfl⟩

/-- `init` links empty wheels with their cursors at `0`. -/
theorem valid_init (nodes : C → TimeWheelLinkedListNode C) :
    (init nodes).Valid (fun _ => []) fun _ => 0 := by
  refine ⟨⟨rfl, fun w => ?_, fun w => ?_, fun w => ?_, fun w => ?_⟩, ⟨fun p => ?_, ?_⟩,
    fun w => by decide, ?_⟩
  · fin_cases w <;> rfl
  · fin_cases w <;> rfl
  · fin_cases w <;> rfl
  · fin_cases w <;> rfl
  · have hlist : (init nodes).listAt p = {} := by
      cases p with
      | pending => rfl
      | slot w i => fin_cases w <;> rfl
    rw [hlist]
    exact holds_empty
  · intro p q c hc
    cases hc
  · intro w i c hc
    cases hc

/-! ## Slots -/

/-- The slot that wheel `w` gives to the delay `d` when its cursor is at `c`. -/
def slotOf (c d : ℕ) (w : Fin TIMEWHEEL_NUM_WHEELS) : Fin TIMEWHEEL_NUM_SLOTS_PER_WHEEL :=
  ⟨(c + d / 60 ^ (w : ℕ)) % 60, Nat.mod_lt _ (by decide)⟩

/-- An index that is in the array is taken as it is. -/
theorem slotIndex_natCast (i : Fin TIMEWHEEL_NUM_SLOTS_PER_WHEEL) :
    slotIndex ((i : ℕ) : Int) = .ok i := by
  have h : (0 : Int) ≤ ((i : ℕ) : Int) ∧ ((i : ℕ) : Int) < TIMEWHEEL_NUM_SLOTS_PER_WHEEL := by
    have := i.isLt
    omega
  rw [slotIndex, dif_pos h]
  simp

/-- The index that `TimeWheel::add_event` computes for a delay that is not negative. -/
theorem Wheels.slotIdx_eq (hw : s.Wheels cur) (hd : (s.nodes c).delayMS = d) :
    ((s.timewheels w).curSlotIdx + (s.nodes c).delayMS.tdiv (s.timewheels w).intervalMS).tmod
      TIMEWHEEL_NUM_SLOTS_PER_WHEEL = ((slotOf (cur w) d w : ℕ) : Int) := by
  rw [hd, hw.cursor, hw.interval, ← Int.ofNat_tdiv, ← Int.natCast_add, ← Int.ofNat_tmod]
  rfl

/-- The check of `TimeWheel::add_event` accepts a delay below the span of the wheel. -/
theorem Wheels.not_ge_span (hw : s.Wheels cur) (hd : (s.nodes c).delayMS = d)
    (hlt : d < 60 ^ (w : ℕ) * 60) :
    ¬(s.nodes c).delayMS ≥ (s.timewheels w).intervalMS * TIMEWHEEL_NUM_SLOTS_PER_WHEEL := by
  rw [hd, hw.interval]
  have : ((d : ℕ) : Int) < ((60 ^ (w : ℕ) * 60 : ℕ) : Int) := by exact_mod_cast hlt
  simpa using this

/-! ## Adding events -/

/-- An element other than the one that is added. -/
theorem mem_update_append {p q : Place} {x : C} (hx : x ≠ c) :
    x ∈ Function.update f p (f p ++ [c]) q ↔ x ∈ f q := by
  rcases eq_or_ne q p with rfl | hq
  · simp [hx]
  · rw [Function.update_of_ne hq]

/-- An element other than the one that is taken. -/
theorem mem_update_tail {p q : Place} {x : C} (hp : f p = c :: xs) (hx : x ≠ c) :
    x ∈ Function.update f p xs q ↔ x ∈ f q := by
  rcases eq_or_ne q p with rfl | hq
  · simp [hp, hx]
  · rw [Function.update_of_ne hq]

variable [DecidableEq C]

/-- The coroutine has the delay that was written. -/
theorem setDelay_delayMS_self {d : Int} : ((s.setDelay c d).nodes c).delayMS = d := by
  simp [setDelay]

/-- The other coroutines keep their delays. -/
theorem setDelay_delayMS_ne {x : C} {d : Int} (hx : x ≠ c) :
    ((s.setDelay c d).nodes x).delayMS = (s.nodes x).delayMS := by
  simp [setDelay, hx]

/-- Writing a delay does not move the clock. -/
theorem sameClock_setDelay {d : Int} : SameClock s (s.setDelay c d) := sameClock_nodes

/-- The delays are no part of the lists. -/
theorem Contents.setDelay {d : Int} (h : s.Contents f) : (s.setDelay c d).Contents f := by
  refine ⟨fun p => ?_, h.disjoint⟩
  have hl : (s.setDelay c d).listAt p = s.listAt p := by cases p <;> rfl
  rw [hl]
  refine (h.holds p).congr fun x _ => ?_
  rcases eq_or_ne x c with rfl | hx
  · simp [TimerManager.setDelay, nextOf]
  · simp [TimerManager.setDelay, nextOf, hx]

/-- The delay of a coroutine that is in no slot. -/
theorem Valid.setDelay {k : Int} (h : s.Valid f cur) (hc : ∀ w i, c ∉ f (.slot w i)) :
    (s.setDelay c k).Valid f cur := by
  refine ⟨h.wheels.same sameClock_setDelay, h.contents.setDelay, h.cur_lt, fun {w i x} hx hw => ?_⟩
  have hxc : x ≠ c := fun he => hc w i (he ▸ hx)
  rw [setDelay_delayMS_ne hxc]
  exact h.delay hx hw

/-- `TimeWheel::add_event` with a slot index in the array. -/
theorem Contents.addEventAt {j : Fin TIMEWHEEL_NUM_SLOTS_PER_WHEEL} (h : s.Contents f)
    (hc : ∀ q, c ∉ f q)
    (hspan : ¬(s.nodes c).delayMS ≥ (s.timewheels w).intervalMS * TIMEWHEEL_NUM_SLOTS_PER_WHEEL)
    (hidx : ((s.timewheels w).curSlotIdx + (s.nodes c).delayMS.tdiv
    (s.timewheels w).intervalMS).tmod
      TIMEWHEEL_NUM_SLOTS_PER_WHEEL = ((j : ℕ) : Int)) :
    ∃ s', s.addEventAt w c = .ok s' ∧
      s'.Contents (Function.update f (.slot w j) (f (.slot w j) ++ [c])) ∧
      SameClock s s' ∧ ∀ x, (s'.nodes x).delayMS = (s.nodes x).delayMS := by
  obtain ⟨nodes, l, hl, hdelay, hcont⟩ := h.push (.slot w j) hc
  refine ⟨_, ?_, hcont, sameClock_nodes.trans sameClock_setList, fun x => ?_⟩
  · have hl' : ((s.timewheels w).slots j).pushBack s.nodes c = .ok (nodes, l) := hl
    simp only [TimerManager.addEventAt, if_neg hspan, hidx, slotIndex_natCast]
    simp only [bind, Except.bind, hl']
    rfl
  · rw [setList_nodes]
    exact hdelay x

/-- `TimeWheel::add_event` with a delay in the span of the wheel. -/
theorem Contents.addEventAt_nat (h : s.Contents f) (hw : s.Wheels cur) (hc : ∀ q, c ∉ f q)
    (hd : (s.nodes c).delayMS = d) (hlt : d < 60 ^ (w : ℕ) * 60) :
    ∃ s', s.addEventAt w c = .ok s' ∧
      s'.Contents (Function.update f (.slot w (slotOf (cur w) d w))
        (f (.slot w (slotOf (cur w) d w)) ++ [c])) ∧
      SameClock s s' ∧ ∀ x, (s'.nodes x).delayMS = (s.nodes x).delayMS := by
  exact h.addEventAt hc (hw.not_ge_span hd hlt) (hw.slotIdx_eq hd)

/-! ## The ticks that remain -/

/-- The tick that fires an event with delay `d` in slot `i` of wheel `w`; the next tick is `1`. -/
def due (cur : Fin TIMEWHEEL_NUM_WHEELS → ℕ) (w : Fin TIMEWHEEL_NUM_WHEELS) (i d : ℕ) : ℕ :=
  match w with
  | 0 => (i + 60 - cur 0) % 60 + 1
  | 1 => (60 - cur 0) + 60 * ((i + 60 - cur 1) % 60) + d % 60 + 1
  | 2 => (60 - cur 0) + 60 * (60 - cur 1) + 3600 * ((i + 60 - cur 2) % 60) + d % 3600 + 1

/-- The coroutine `c` is in a wheel, and the tick `n` fires it. -/
def Remaining (s : TimerManager C) (f : Place → List C) (cur : Fin TIMEWHEEL_NUM_WHEELS → ℕ) (c : C)
    (n : ℕ) : Prop :=
  ∃ w i, c ∈ f (.slot w i) ∧ due cur w i (s.nodes c).delayMS.toNat = n

/-- The wheel that `internal_add_event` picks. -/
def wheelOf (d : ℕ) : Fin TIMEWHEEL_NUM_WHEELS := if d < 60 then 0 else if d < 3600 then 1 else 2

/-- The ticks that the cursors of the lower wheels add to a delay. -/
def late (cur : Fin TIMEWHEEL_NUM_WHEELS → ℕ) (d : ℕ) : ℕ :=
  if d < 60 then 0
  else if d < 3600 then 60 - cur 0
  else (60 - cur 0) + 60 * (60 - cur 1)

/-- The loop of `internal_add_event` finds the lowest wheel that covers the delay. -/
theorem pickWheel_eq (hd : d < 216000) :
    pickWheel (List.finRange TIMEWHEEL_NUM_WHEELS) ((d : Int).tdiv TIMEWHEEL_INTERVAL_MS) =
      some (wheelOf d) := by
  have h1 : ((d : Int).tdiv TIMEWHEEL_INTERVAL_MS) = d := Int.tdiv_one _
  have hdiv : ∀ n : ℕ, ((n : Int).tdiv TIMEWHEEL_NUM_SLOTS_PER_WHEEL) = ((n / 60 : ℕ) : Int) :=
    fun n => (Int.ofNat_tdiv n 60).symm
  have hpos : ∀ n : ℕ, ((n : Int) > 0) = (0 < n) := fun n => propext (by omega)
  have hl : List.finRange TIMEWHEEL_NUM_WHEELS = [0, 1, 2] := rfl
  rw [h1, hl]
  simp only [pickWheel, hdiv, hpos, wheelOf]
  rcases Nat.lt_or_ge d 60 with h60 | h60
  · rw [if_neg (show ¬0 < d / 60 by omega), if_pos h60]
  rw [if_pos (show 0 < d / 60 by omega), if_neg (show ¬d < 60 by omega)]
  rcases Nat.lt_or_ge d 3600 with h3600 | h3600
  · rw [if_neg (show ¬0 < d / 60 / 60 by omega), if_pos h3600]
  · rw [if_pos (show 0 < d / 60 / 60 by omega), if_neg (show ¬0 < d / 60 / 60 / 60 by omega),
      if_neg (show ¬d < 3600 by omega)]

/-- A delay that is too long for every wheel. -/
theorem pickWheel_eq_none (hd : 216000 ≤ d) :
    pickWheel (List.finRange TIMEWHEEL_NUM_WHEELS) ((d : Int).tdiv TIMEWHEEL_INTERVAL_MS) =
      none := by
  have h1 : ((d : Int).tdiv TIMEWHEEL_INTERVAL_MS) = d := Int.tdiv_one _
  have hdiv : ∀ n : ℕ, ((n : Int).tdiv TIMEWHEEL_NUM_SLOTS_PER_WHEEL) = ((n / 60 : ℕ) : Int) :=
    fun n => (Int.ofNat_tdiv n 60).symm
  have hpos : ∀ n : ℕ, ((n : Int) > 0) = (0 < n) := fun n => propext (by omega)
  have hl : List.finRange TIMEWHEEL_NUM_WHEELS = [0, 1, 2] := rfl
  rw [h1, hl]
  simp only [pickWheel, hdiv, hpos]
  rw [if_pos (show 0 < d / 60 by omega), if_pos (show 0 < d / 60 / 60 by omega),
    if_pos (show 0 < d / 60 / 60 / 60 by omega)]

/-- A negative delay goes to the lowest wheel. -/
theorem pickWheel_neg {k : Int} (hk : k < 0) :
    pickWheel (List.finRange TIMEWHEEL_NUM_WHEELS) (k.tdiv TIMEWHEEL_INTERVAL_MS) = some 0 := by
  have h1 : k.tdiv TIMEWHEEL_INTERVAL_MS = k := Int.tdiv_one _
  have hl : List.finRange TIMEWHEEL_NUM_WHEELS = [0, 1, 2] := rfl
  have hneg : ¬k.tdiv TIMEWHEEL_NUM_SLOTS_PER_WHEEL > 0 := by
    have hnonneg : 0 ≤ (-k).tdiv 60 := Int.tdiv_nonneg (by omega) (by decide)
    rw [Int.neg_tdiv] at hnonneg
    exact not_lt.2 (Int.neg_nonneg.1 hnonneg)
  rw [h1, hl]
  simp only [pickWheel]
  rw [if_neg hneg]

/-- The wheel that is picked covers the delay. -/
theorem lt_span (hd : d < 216000) : d < 60 ^ (wheelOf d : ℕ) * 60 := by
  unfold wheelOf
  split
  · simpa using ‹d < 60›
  · split
    · simpa using ‹d < 3600›
    · simpa using hd

/-- An event with delay `d` is due `d + 1` ticks later, plus what the cursors add. -/
theorem due_slotOf (hcur : ∀ w, cur w < 60) (hd : d < 216000) :
    due cur (wheelOf d) (slotOf (cur (wheelOf d)) d (wheelOf d)) d = d + 1 + late cur d := by
  have h0 := hcur 0
  have h1 := hcur 1
  have h2 := hcur 2
  unfold wheelOf late
  split
  · simp only [due, slotOf, Fin.val_zero, pow_zero, Nat.div_one]
    omega
  · split
    · simp only [due, slotOf, Fin.val_one, pow_one]
      omega
    · simp only [due, slotOf, Fin.val_two]
      omega

/-- An insertion comes at most one round of the two lower wheels too late. -/
theorem late_le : late cur d ≤ 3660 := by
  unfold late
  split
  · omega
  · split <;> omega

/-! ## The pending list -/

/-- `add_event` puts the coroutine into the pending list. -/
theorem Valid.addEvent {k : Int} (h : s.Valid f cur) (hc : ∀ p, c ∉ f p) :
    ∃ s', s.addEvent c k = .ok s' ∧
      s'.Valid (Function.update f .pending (f .pending ++ [c])) cur ∧
      s'.pushed = s.pushed ∧ (s'.nodes c).delayMS = k ∧
      ∀ x, x ≠ c → (s'.nodes x).delayMS = (s.nodes x).delayMS := by
  obtain ⟨nodes, l, hl, hdelay, hcont⟩ := (h.contents.setDelay (c := c) (d := k)).push .pending hc
  refine ⟨_, ?_, ⟨?_, hcont, h.cur_lt, ?_⟩, rfl, ?_, ?_⟩
  · have hl : (s.setDelay c k).pendingEvents.pushBack (s.setDelay c k).nodes c =
      .ok (nodes, l) := hl
    rw [TimerManager.addEvent, pushPendingEvent, hl]
    rfl
  · exact h.wheels.same (sameClock_setDelay.trans (sameClock_nodes.trans sameClock_setList))
  · intro w i x hx hw
    rw [Function.update_of_ne (fun he => by cases he)] at hx
    have hxc : x ≠ c := fun he => hc _ (he ▸ hx)
    rw [setList_nodes]
    change 0 ≤ (nodes x).delayMS
    rw [hdelay, setDelay_delayMS_ne hxc]
    exact h.delay hx hw
  · rw [setList_nodes]
    exact (hdelay c).trans setDelay_delayMS_self
  · intro x hx
    rw [setList_nodes]
    exact (hdelay x).trans (setDelay_delayMS_ne hx)

/-- The drain loop ends on an empty pending list. -/
theorem Contents.drainOne_nil (h : s.Contents f) (hp : f .pending = []) :
    s.drainOne = .ok (none, s) := by
  have hpop : s.pendingEvents.popFront s.nodes = (none, s.pendingEvents) :=
    (hp ▸ h.holds .pending).popFront_nil
  simp only [drainOne, popPendingEvent, hpop]

/-- A round of the drain loop moves the first pending coroutine to the slot that is computed for
it. -/
theorem Contents.drainOne_cons {w : Fin TIMEWHEEL_NUM_WHEELS}
    {j : Fin TIMEWHEEL_NUM_SLOTS_PER_WHEEL}
    (h : s.Contents f) (hp : f .pending = c :: xs)
    (hpick : pickWheel (List.finRange TIMEWHEEL_NUM_WHEELS)
      ((s.nodes c).delayMS.tdiv TIMEWHEEL_INTERVAL_MS) = some w)
    (hspan : ¬(s.nodes c).delayMS ≥ (s.timewheels w).intervalMS * TIMEWHEEL_NUM_SLOTS_PER_WHEEL)
    (hidx : ((s.timewheels w).curSlotIdx + (s.nodes c).delayMS.tdiv
    (s.timewheels w).intervalMS).tmod
      TIMEWHEEL_NUM_SLOTS_PER_WHEEL = ((j : ℕ) : Int)) :
    ∃ s' f', s.drainOne = .ok (some c, s') ∧ s'.Contents f' ∧ SameClock s s' ∧
      (∀ x, (s'.nodes x).delayMS = (s.nodes x).delayMS) ∧ f' .pending = xs ∧ c ∈ f' (.slot w j) ∧
      ∀ x, x ≠ c → ∀ p, x ∈ f' p ↔ x ∈ f p := by
  obtain ⟨l, hpop, h₁⟩ := h.pop hp
  have hpop : s.pendingEvents.popFront s.nodes = (some c, l) := hpop
  obtain ⟨s', hadd, hcont, hclock, hdelay⟩ := h₁.addEventAt (h.notMem_popped hp) hspan hidx
  refine ⟨s', _, ?_, hcont, sameClock_setList.trans hclock, hdelay, ?_, ?_, ?_⟩
  · have hint : ({ s with pendingEvents := l } : TimerManager C).internalAddEvent c = .ok s' := by
      have hpick' : pickWheel (List.finRange TIMEWHEEL_NUM_WHEELS)
          ((({ s with pendingEvents := l } : TimerManager C).nodes c).delayMS.tdiv
            TIMEWHEEL_INTERVAL_MS) = some w := hpick
      rw [internalAddEvent, hpick']
      exact hadd
    simp only [drainOne, popPendingEvent, hpop, hint]
    rfl
  · rw [Function.update_of_ne (fun he => by cases he), Function.update_self]
  · rw [Function.update_self]
    exact List.mem_append_right _ List.mem_cons_self
  · intro x hx p
    exact (mem_update_append hx).trans (mem_update_tail hp hx)

/-- A delay of the timer's range puts the coroutine into a slot that is due `late` ticks after its
delay. -/
theorem Valid.drainOne_nat (h : s.Valid f cur) (hp : f .pending = c :: xs)
    (hd : (s.nodes c).delayMS = d) (hlt : d < 216000) :
    ∃ s' f', s.drainOne = .ok (some c, s') ∧ s'.Valid f' cur ∧ s'.pushed = s.pushed ∧
      (∀ x, (s'.nodes x).delayMS = (s.nodes x).delayMS) ∧ f' .pending = xs ∧
      Remaining s' f' cur c (d + 1 + late cur d) ∧ ∀ x, x ≠ c → ∀ p, x ∈ f' p ↔ x ∈ f p := by
  have hpick : pickWheel (List.finRange TIMEWHEEL_NUM_WHEELS)
      ((s.nodes c).delayMS.tdiv TIMEWHEEL_INTERVAL_MS) = some (wheelOf d) := by
    rw [hd]
    exact pickWheel_eq hlt
  obtain ⟨s', f', hrun, hcont, hclock, hdelay, hpend, hmem, hstay⟩ := h.contents.drainOne_cons hp
    hpick (h.wheels.not_ge_span hd (lt_span hlt)) (h.wheels.slotIdx_eq hd)
  refine ⟨s', f', hrun, ⟨h.wheels.same hclock, hcont, h.cur_lt, ?_⟩, hclock.pushed, hdelay, hpend,
    ⟨_, _, hmem, ?_⟩, hstay⟩
  · intro w i x hx hw
    rw [hdelay]
    rcases eq_or_ne x c with rfl | hxc
    · rw [hd]
      exact Int.natCast_nonneg d
    · exact h.delay ((hstay x hxc _).1 hx) hw
  · have hdc : (s'.nodes c).delayMS = d := (hdelay c).trans hd
    rw [hdc]
    exact due_slotOf h.cur_lt hlt

/-- A delay that is too long throws. -/
theorem Contents.drainOne_thrown (h : s.Contents f) (hp : f .pending = c :: xs)
    (hpick : pickWheel (List.finRange TIMEWHEEL_NUM_WHEELS)
      ((s.nodes c).delayMS.tdiv TIMEWHEEL_INTERVAL_MS) = none) :
    ∃ msg, s.drainOne = .error (.thrown msg) := by
  obtain ⟨l, hpop, -⟩ := h.pop hp
  have hpop : s.pendingEvents.popFront s.nodes = (some c, l) := hpop
  have hint : ({ s with pendingEvents := l } : TimerManager C).internalAddEvent c =
      .error (.thrown "cannot add event with such long interval") := by
    have hpick' : pickWheel (List.finRange TIMEWHEEL_NUM_WHEELS)
        ((({ s with pendingEvents := l } : TimerManager C).nodes c).delayMS.tdiv
          TIMEWHEEL_INTERVAL_MS) = none := hpick
    rw [internalAddEvent, hpick']
  refine ⟨"cannot add event with such long interval", ?_⟩
  simp only [drainOne, popPendingEvent, hpop, hint]
  rfl

/-- A negative delay with an index in the array. -/
theorem Valid.drainOne_neg {k : Int} (h : s.Valid f cur) (hp : f .pending = c :: xs)
    (hd : (s.nodes c).delayMS = k) (hneg : k < 0) (hidx : 0 ≤ cur 0 + k ∨ 60 ∣ cur 0 + k) :
    ∃ s' f' j, s.drainOne = .ok (some c, s') ∧ s'.Valid f' cur ∧ c ∈ f' (.slot 0 j) ∧
      ∀ x, x ≠ c → ∀ p, x ∈ f' p ↔ x ∈ f p := by
  have hcur := h.cur_lt 0
  have hint0 : (s.timewheels 0).intervalMS = 1 := h.wheels.interval 0
  have hpick : pickWheel (List.finRange TIMEWHEEL_NUM_WHEELS)
      ((s.nodes c).delayMS.tdiv TIMEWHEEL_INTERVAL_MS) = some 0 := by
    rw [hd]
    exact pickWheel_neg hneg
  have hspan : ¬(s.nodes c).delayMS ≥
      (s.timewheels 0).intervalMS * TIMEWHEEL_NUM_SLOTS_PER_WHEEL := by
    rw [hd, hint0]
    simp
    omega
  have hmod : (cur 0 + k).tmod 60 = ((((cur 0 + k).tmod 60).toNat : ℕ) : Int) ∧
      ((cur 0 + k).tmod 60).toNat < 60 := by
    rcases hidx with hpos | hdvd
    · have h0 := Int.tmod_nonneg 60 hpos
      have h1 := Int.tmod_lt_of_pos (cur 0 + k) (show (0 : Int) < 60 by decide)
      omega
    · rw [Int.tmod_eq_zero_of_dvd hdvd]
      decide
  have hslot : ((s.timewheels 0).curSlotIdx +
      (s.nodes c).delayMS.tdiv (s.timewheels 0).intervalMS).tmod TIMEWHEEL_NUM_SLOTS_PER_WHEEL =
      (((⟨_, hmod.2⟩ : Fin TIMEWHEEL_NUM_SLOTS_PER_WHEEL) : ℕ) : Int) := by
    rw [hd, hint0, h.wheels.cursor, Int.tdiv_one]
    exact hmod.1
  obtain ⟨s', f', hrun, hcont, hclock, hdelay, -, hmem, hstay⟩ :=
    h.contents.drainOne_cons hp hpick hspan hslot
  refine ⟨s', f', _, hrun, ⟨h.wheels.same hclock, hcont, h.cur_lt, fun {w i x} hx hw => ?_⟩, hmem,
    hstay⟩
  rw [hdelay]
  rcases eq_or_ne x c with rfl | hxc
  · cases hcont.disjoint hx hmem
    exact absurd rfl hw
  · exact h.delay ((hstay x hxc _).1 hx) hw

end RockCoro.TimerManager
