import RockCoro.Timer.Run

/-!
# Delays out of range

Nothing checks the delay of a coroutine before the thread of the timer. `Reachable K` are the states
of the timer under the delays that meet `K`, negative and overlong ones included. An overlong delay
throws, and the wheels agree on what is overlong (`insert_capacity`). A negative delay is not
checked: whether its slot index is in the array depends on the cursor (`inserts_iff`).
-/

namespace RockCoro.TimerManager

open TimeWheelLinkedList Chain

variable {C : Type}

/-- The coroutine is in no list of the timer. -/
def Idle (s : TimerManager C) (c : C) : Prop := ∀ f, s.Contents f → ∀ p, c ∉ f p

/-- The states of the timer when coroutines sleep for delays that meet `K`. -/
inductive Reachable [DecidableEq C] (K : Int → Prop) : TimerManager C → Prop
  | init (nodes : C → TimeWheelLinkedListNode C) : Reachable K (init nodes)
  | add {s s' c k} (hr : Reachable K s) (hk : K k) (hc : s.Idle c) (hs : s.addEvent c k = .ok s') :
    Reachable K s'
  | drain {s s' c} (hr : Reachable K s) (hs : s.drainOne = .ok (c, s')) : Reachable K s'
  /-- The insertion of a pending coroutine throws. -/
  | reject {s msg} (hr : Reachable K s) (hs : s.drainOne = .error (.thrown msg)) :
    Reachable K s.popPendingEvent.2
  /-- The slot index is not in the array, which is undefined behaviour. As in `Scheduler.timerStep`
  the node is linked into memory that is not used. -/
  | stray {s i} (hr : Reachable K s) (hs : s.drainOne = .error (.badSlot i)) :
    Reachable K s.popPendingEvent.2
  | tick {s s' fuel} (hr : Reachable K s) (hs : s.tick fuel = .ok s') : Reachable K s'

/-- `slot_idx` of the lowest wheel is an index of its array, for the cursor `cur` and the delay `k`
that is below the span of the wheel. -/
def InArray (cur k : Int) : Prop := 0 ≤ cur + k ∨ 60 ∣ cur + k

variable {s s' : TimerManager C} {f g : Place → List C} {cur : Fin TIMEWHEEL_NUM_WHEELS → ℕ}
  {p : Place} {c : C} {xs : List C} {d : ℕ} {k : Int} {K : Int → Prop}

/-- Truncating remainders are negative below zero, unless the division is exact. -/
theorem tmod_mem_iff : (0 ≤ k.tmod 60 ∧ k.tmod 60 < 60) ↔ 0 ≤ k ∨ 60 ∣ k := by
  rcases lt_or_ge k 0 with hneg | hpos
  · have hself : k = 60 * k.tdiv 60 + k.tmod 60 := (Int.mul_tdiv_add_tmod k 60).symm
    have hle : k.tmod 60 ≤ 0 := by
      have := Int.tmod_nonneg 60 (show 0 ≤ -k by omega)
      rw [Int.neg_tmod] at this
      omega
    constructor
    · intro h
      exact .inr ⟨k.tdiv 60, by omega⟩
    · rintro (h | h)
      · omega
      · rw [Int.tmod_eq_zero_of_dvd h]
        decide
  · exact ⟨fun _ => .inl hpos, fun _ => ⟨Int.tmod_nonneg 60 hpos, Int.tmod_lt_of_pos k (by decide)⟩⟩

/-- The memory determines what the lists hold. -/
theorem Contents.unique (h : s.Contents f) (hg : s.Contents g) : f = g :=
  funext fun p => (h.holds p).chain.unique (hg.holds p).chain

/-- A coroutine that no links lead to is in no list. -/
theorem Contents.idle_iff (h : s.Contents f) : s.Idle c ↔ ∀ p, c ∉ f p := by
  refine ⟨fun hc => hc f h, fun hc g hg => ?_⟩
  rw [← h.unique hg]
  exact hc

variable [DecidableEq C]

/-! ## An insertion -/

/-- `internal_add_event` is `TimeWheel::add_event` of the wheel it picks. -/
theorem internalAddEvent_of_pick {w : Fin TIMEWHEEL_NUM_WHEELS}
    (hpick : pickWheel (List.finRange TIMEWHEEL_NUM_WHEELS)
      ((s.nodes c).delayMS.tdiv TIMEWHEEL_INTERVAL_MS) = some w) :
    s.internalAddEvent c = s.addEventAt w c := by
  rw [internalAddEvent, hpick]

omit [DecidableEq C] in
/-- The invariant after a coroutine was put into a slot. -/
theorem Valid.placed {w : Fin TIMEWHEEL_NUM_WHEELS} {j : Fin TIMEWHEEL_NUM_SLOTS_PER_WHEEL}
    (h : s.Valid f cur)
    (hcont : s'.Contents (Function.update f (.slot w j) (f (.slot w j) ++ [c])))
    (hclock : SameClock s s') (hdelay : ∀ x, (s'.nodes x).delayMS = (s.nodes x).delayMS)
    (hnonneg : w ≠ 0 → 0 ≤ (s.nodes c).delayMS) :
    s'.Valid (Function.update f (.slot w j) (f (.slot w j) ++ [c])) cur := by
  refine ⟨h.wheels.same hclock, hcont, h.cur_lt, fun {v i x} hx hv => ?_⟩
  rw [hdelay]
  rcases eq_or_ne x c with rfl | hxc
  · refine hnonneg ?_
    have hmem : x ∈ Function.update f (.slot w j) (f (.slot w j) ++ [x]) (.slot w j) := by
      rw [Function.update_self]
      exact List.mem_append_right _ List.mem_cons_self
    cases hcont.disjoint hx hmem
    exact hv
  · exact h.delay ((mem_update_append hxc).1 hx) hv

/-- A delay below the span of the wheels: the coroutine goes to the slot for it. -/
theorem Valid.insert_nat (h : s.Valid f cur) (hc : ∀ p, c ∉ f p) (hd : (s.nodes c).delayMS = d)
    (hlt : d < 216000) :
    ∃ s', s.internalAddEvent c = .ok s' ∧ s.addEventAt (wheelOf d) c = .ok s' ∧
      s'.Valid (Function.update f (.slot (wheelOf d) (slotOf (cur (wheelOf d)) d (wheelOf d)))
        (f (.slot (wheelOf d) (slotOf (cur (wheelOf d)) d (wheelOf d))) ++ [c])) cur := by
  obtain ⟨s', hrun, hcont, hclock, hdelay⟩ :=
    h.contents.addEventAt_nat h.wheels hc hd (lt_span hlt)
  have hpick : pickWheel (List.finRange TIMEWHEEL_NUM_WHEELS)
      ((s.nodes c).delayMS.tdiv TIMEWHEEL_INTERVAL_MS) = some (wheelOf d) := by
    rw [hd]
    exact pickWheel_eq hlt
  refine ⟨s', (internalAddEvent_of_pick hpick).trans hrun, hrun, h.placed hcont hclock hdelay ?_⟩
  intro _
  rw [hd]
  exact Int.natCast_nonneg d

/-- A delay of the span of the wheels or more: the exception. -/
theorem insert_long (hd : (s.nodes c).delayMS = d) (hge : 216000 ≤ d) :
    s.internalAddEvent c = .error (.thrown "cannot add event with such long interval") := by
  rw [internalAddEvent, hd, pickWheel_eq_none hge]

/-- A negative delay goes to the lowest wheel, whose upper bound it meets. -/
theorem Valid.insert_neg_eq (h : s.Valid f cur) (hd : (s.nodes c).delayMS = k) (hneg : k < 0) :
    s.internalAddEvent c = s.addEventAt 0 c ∧
      ¬(s.nodes c).delayMS ≥ (s.timewheels 0).intervalMS * TIMEWHEEL_NUM_SLOTS_PER_WHEEL ∧
      ((s.timewheels 0).curSlotIdx + (s.nodes c).delayMS.tdiv (s.timewheels 0).intervalMS).tmod
        TIMEWHEEL_NUM_SLOTS_PER_WHEEL = (cur 0 + k).tmod 60 := by
  have hint : (s.timewheels 0).intervalMS = 1 := h.wheels.interval 0
  refine ⟨internalAddEvent_of_pick ?_, ?_, ?_⟩
  · rw [hd]
    exact pickWheel_neg hneg
  · rw [hd, hint]
    simp
    omega
  · rw [hd, hint, h.wheels.cursor, Int.tdiv_one]
    rfl

/-- A negative delay whose index is still in the array: the coroutine goes to a slot of the lowest
wheel. -/
theorem Valid.insert_neg (h : s.Valid f cur) (hc : ∀ p, c ∉ f p) (hd : (s.nodes c).delayMS = k)
    (hneg : k < 0) (hidx : InArray (cur 0) k) :
    ∃ s' j, s.internalAddEvent c = .ok s' ∧
      s'.Valid (Function.update f (.slot 0 j) (f (.slot 0 j) ++ [c])) cur := by
  obtain ⟨heq, hspan, hslot⟩ := h.insert_neg_eq hd hneg
  obtain ⟨hnonneg, hlt⟩ := tmod_mem_iff.2 hidx
  have hj : ((cur 0 + k).tmod 60).toNat < 60 := by omega
  have hslot' : ((s.timewheels 0).curSlotIdx +
      (s.nodes c).delayMS.tdiv (s.timewheels 0).intervalMS).tmod TIMEWHEEL_NUM_SLOTS_PER_WHEEL =
      (((⟨_, hj⟩ : Fin TIMEWHEEL_NUM_SLOTS_PER_WHEEL) : ℕ) : Int) :=
    hslot.trans (Int.toNat_of_nonneg hnonneg).symm
  obtain ⟨s', hrun, hcont, hclock, hdelay⟩ := h.contents.addEventAt hc hspan hslot'
  exact ⟨s', _, heq.trans hrun, h.placed hcont hclock hdelay fun hw => absurd rfl hw⟩

/-- The index of a negative delay may be negative. -/
theorem Valid.insert_bad (h : s.Valid f cur) (hd : (s.nodes c).delayMS = k) (hneg : k < 0)
    (hidx : ¬InArray (cur 0) k) : ∃ i, s.internalAddEvent c = .error (.badSlot i) := by
  obtain ⟨heq, hspan, hslot⟩ := h.insert_neg_eq hd hneg
  have hbad : ¬(0 ≤ (cur 0 + k).tmod 60 ∧
      (cur 0 + k).tmod 60 < (TIMEWHEEL_NUM_SLOTS_PER_WHEEL : Int)) :=
    fun h => hidx (tmod_mem_iff.1 h)
  refine ⟨(cur 0 + k).tmod 60, heq.trans ?_⟩
  simp only [addEventAt, if_neg hspan, hslot, slotIndex, dif_neg hbad]
  rfl

/-! ## The reachable states -/

omit [DecidableEq C] in
/-- The first pending coroutine is taken. -/
theorem Valid.popPending (h : s.Valid f cur) (hp : f .pending = c :: xs) :
    ∃ s₁, s.popPendingEvent = (some c, s₁) ∧ s₁.Valid (Function.update f .pending xs) cur ∧
      (∀ q, c ∉ Function.update f .pending xs q) ∧ s₁.nodes = s.nodes := by
  obtain ⟨l, hpop, hcont⟩ := h.contents.pop hp
  have hpop : s.pendingEvents.popFront s.nodes = (some c, l) := hpop
  refine ⟨s.setList .pending l, ?_, ⟨h.wheels.same sameClock_setList, hcont, h.cur_lt, ?_⟩,
    h.contents.notMem_popped hp, rfl⟩
  · rw [popPendingEvent, hpop]
    rfl
  · intro w i x hx hw
    rw [Function.update_of_ne (by simp)] at hx
    exact h.delay hx hw

/-- A round of the drain loop inserts the coroutine it popped. -/
theorem drainOne_of_pop {s₁ : TimerManager C} (hpop : s.popPendingEvent = (some c, s₁)) :
    s.drainOne = (s₁.internalAddEvent c).map fun s' => (some c, s') := by
  simp only [drainOne, hpop]
  cases s₁.internalAddEvent c with
  | error e => rfl
  | ok s' => rfl

/-- An insertion that succeeds keeps the invariant. -/
theorem Valid.insert (h : s.Valid f cur) (hc : ∀ p, c ∉ f p) (hs : s.internalAddEvent c = .ok s') :
    ∃ f', s'.Valid f' cur := by
  rcases lt_or_ge (s.nodes c).delayMS 0 with hneg | hpos
  · rcases Classical.em (InArray (cur 0) (s.nodes c).delayMS) with hidx | hidx
    · obtain ⟨s₁, j, hrun, hvalid⟩ := h.insert_neg hc rfl hneg hidx
      obtain rfl : s₁ = s' := Except.ok.inj (hrun.symm.trans hs)
      exact ⟨_, hvalid⟩
    · obtain ⟨i, hrun⟩ := h.insert_bad rfl hneg hidx
      cases hrun.symm.trans hs
  · obtain ⟨d, hd⟩ := Int.eq_ofNat_of_zero_le hpos
    rcases Nat.lt_or_ge d 216000 with hlt | hge
    · obtain ⟨s₁, hrun, -, hvalid⟩ := h.insert_nat hc hd hlt
      obtain rfl : s₁ = s' := Except.ok.inj (hrun.symm.trans hs)
      exact ⟨_, hvalid⟩
    · cases (insert_long hd hge).symm.trans hs

/-- The coroutine whose insertion fails is in no list, and the others are where they were. -/
theorem Valid.failed {e : Fault} (h : s.Valid f cur) (hs : s.drainOne = .error e) :
    ∃ g, s.popPendingEvent.2.Valid g cur := by
  cases hp : f .pending with
  | nil => cases (h.contents.drainOne_nil hp).symm.trans hs
  | cons c xs =>
    obtain ⟨s₁, hpop, h₁, -⟩ := h.popPending hp
    rw [hpop]
    exact ⟨_, h₁⟩

/-- Every reachable timer is well formed. -/
theorem Reachable.valid (hr : Reachable K s) : ∃ f cur, s.Valid f cur := by
  induction hr with
  | init nodes => exact ⟨_, _, valid_init nodes⟩
  | add _ _ hc hs ih =>
    obtain ⟨f, cur, h⟩ := ih
    obtain ⟨s₁, hrun, hvalid, -⟩ := h.addEvent (hc f h.contents)
    cases hrun.symm.trans hs
    exact ⟨_, _, hvalid⟩
  | drain _ hs ih =>
    obtain ⟨f, cur, h⟩ := ih
    cases hp : f .pending with
    | nil =>
      cases (h.contents.drainOne_nil hp).symm.trans hs
      exact ⟨f, cur, h⟩
    | cons c xs =>
      obtain ⟨s₁, hpop, h₁, hc, -⟩ := h.popPending hp
      rw [drainOne_of_pop hpop] at hs
      cases hins : s₁.internalAddEvent c with
      | error e =>
        rw [hins] at hs
        cases hs
      | ok s₂ =>
        rw [hins] at hs
        cases hs
        obtain ⟨f', h'⟩ := h₁.insert hc hins
        exact ⟨f', cur, h'⟩
  | reject _ hs ih =>
    obtain ⟨f, cur, h⟩ := ih
    obtain ⟨g, h'⟩ := h.failed hs
    exact ⟨g, cur, h'⟩
  | stray _ hs ih =>
    obtain ⟨f, cur, h⟩ := ih
    obtain ⟨g, h'⟩ := h.failed hs
    exact ⟨g, cur, h'⟩
  | @tick s s' fuel _ hs ih =>
    obtain ⟨f, cur, h⟩ := ih
    obtain ⟨k, hk⟩ := exists_fuel f
    have hmax : ∀ p, (f p).length < max fuel k := fun p => (hk p).trans_le (le_max_right _ _)
    obtain ⟨s₁, f', cur', ys, hrun, ht⟩ := h.tick hmax
    obtain rfl : s₁ = s' := Except.ok.inj (hrun.symm.trans (tickAt_fuel hs (le_max_left _ _)))
    exact ⟨f', cur', ht.valid⟩

/-! ## The slot index -/

/-- The insertion throws and changes no list, or it appends the coroutine to a slot of a wheel. -/
def Inserts (s : TimerManager C) (c : C) : Prop :=
  (∃ msg, s.internalAddEvent c = .error (.thrown msg)) ∨
    ∃ s' f w i, s.internalAddEvent c = .ok s' ∧ s.Contents f ∧
      s'.Contents (Function.update f (.slot w i) (f (.slot w i) ++ [c]))

/-- Whatever the delay and the cursor: the insertion stays inside of the arrays if and only if the
slot index of the lowest wheel does not become negative. -/
theorem inserts_iff (hr : Reachable (fun _ => True) s) (hc : s.Idle c) (k : Int) :
    (s.setDelay c k).Inserts c ↔ InArray (s.timewheels s.lowestTimewheel).curSlotIdx k := by
  obtain ⟨f, cur, h₀⟩ := hr.valid
  have hout := h₀.contents.idle_iff.1 hc
  have h := h₀.setDelay (k := k) fun w i => hout (.slot w i)
  have hd : ((s.setDelay c k).nodes c).delayMS = k := setDelay_delayMS_self
  rw [h₀.wheels.lowest, h₀.wheels.cursor]
  rcases lt_or_ge k 0 with hneg | hpos
  · constructor
    · intro hins
      by_contra hidx
      obtain ⟨i, hrun⟩ := h.insert_bad hd hneg hidx
      rcases hins with ⟨msg, hthrown⟩ | ⟨s', f, w, i, hok, -⟩
      · cases hrun.symm.trans hthrown
      · cases hrun.symm.trans hok
    · intro hidx
      obtain ⟨s', j, hrun, h'⟩ := h.insert_neg hout hd hneg hidx
      exact .inr ⟨s', f, 0, j, hrun, h.contents, h'.contents⟩
  · refine ⟨fun _ => .inl (by omega), fun _ => ?_⟩
    obtain ⟨d, rfl⟩ := Int.eq_ofNat_of_zero_le hpos
    rcases Nat.lt_or_ge d 216000 with hlt | hge
    · obtain ⟨s', hrun, -, h'⟩ := h.insert_nat hout hd hlt
      exact .inr ⟨s', f, _, _, hrun, h.contents, h'.contents⟩
    · exact .inl ⟨_, insert_long hd hge⟩

omit [DecidableEq C] in
/-- Fresh wheels hold no coroutine. -/
theorem idle_init (nodes : C → TimeWheelLinkedListNode C) : (init nodes).Idle c :=
  (valid_init nodes).contents.idle_iff.2 fun _ => List.not_mem_nil

/-- A delay of a whole round back has the slot of the cursor, which is in the array. -/
theorem inserts_iff_unit :
    ((init fun _ => unusedNode).setDelay () (-60)).Inserts () ↔ InArray 0 (-60) :=
  inserts_iff (.init _) (idle_init _) (-60)

/-- On fresh wheels the delay `-1` has the slot index `-1`. -/
theorem not_inserts_neg : ¬((init fun _ => unusedNode).setDelay () (-1)).Inserts () := by
  have hrun : ((init fun _ => unusedNode).setDelay () (-1)).internalAddEvent () =
      .error (.badSlot (-1)) := rfl
  rintro (⟨msg, hthrown⟩ | ⟨s', f, w, i, hok, -⟩)
  · cases hrun.symm.trans hthrown
  · cases hrun.symm.trans hok

/-! ## The capacity of the wheels -/

omit [DecidableEq C] in
/-- The range check of a wheel accepts the delay if and only if it is not below the wheel that
`internal_add_event` picks. -/
theorem Wheels.covers_iff (hw : s.Wheels cur) (hd : d < 216000) (v : Fin TIMEWHEEL_NUM_WHEELS) :
    (d : Int) < (s.timewheels v).intervalMS * TIMEWHEEL_NUM_SLOTS_PER_WHEEL ↔ wheelOf d ≤ v := by
  have hspan : (s.timewheels v).intervalMS * TIMEWHEEL_NUM_SLOTS_PER_WHEEL =
      ((60 ^ (v : ℕ) * 60 : ℕ) : Int) := by
    rw [hw.interval]
    rfl
  rw [hspan, Int.ofNat_lt, Fin.le_def, wheelOf]
  have hv : (v : ℕ) = 0 ∨ (v : ℕ) = 1 ∨ (v : ℕ) = 2 := by
    have : (v : ℕ) < 3 := v.isLt
    omega
  rcases Nat.lt_or_ge d 60 with h60 | h60
  · rw [if_pos h60]
    rcases hv with hv | hv | hv
    all_goals
      rw [hv]
      simp
      omega
  rw [if_neg (by omega)]
  rcases Nat.lt_or_ge d 3600 with h3600 | h3600
  · rw [if_pos h3600]
    rcases hv with hv | hv | hv
    all_goals
      rw [hv]
      simp
      omega
  · rw [if_neg (by omega)]
    rcases hv with hv | hv | hv
    all_goals
      rw [hv]
      simp
      omega

/-- Whatever delays were added before, for a delay that is not negative: `internal_add_event` throws
if and only if the wheels together do not cover it, else it picks the lowest wheel that covers it,
whose check accepts it. And no tick throws. -/
theorem insert_capacity (hr : Reachable K s) :
    (∀ c, s.Idle c → ∀ d : ℕ,
      ((∃ msg, (s.setDelay c d).internalAddEvent c = .error (.thrown msg)) ↔
        TIMEWHEEL_INTERVAL_MS * TIMEWHEEL_NUM_SLOTS_PER_WHEEL ^ TIMEWHEEL_NUM_WHEELS ≤ (d : Int)) ∧
      ((d : Int) < TIMEWHEEL_INTERVAL_MS * TIMEWHEEL_NUM_SLOTS_PER_WHEEL ^ TIMEWHEEL_NUM_WHEELS →
        ∃ w s', pickWheel (List.finRange TIMEWHEEL_NUM_WHEELS)
            ((d : Int).tdiv TIMEWHEEL_INTERVAL_MS) = some w ∧
          (∀ v, (d : Int) < (s.timewheels v).intervalMS * TIMEWHEEL_NUM_SLOTS_PER_WHEEL ↔ w ≤ v) ∧
          (s.setDelay c d).addEventAt w c = .ok s' ∧
          (s.setDelay c d).internalAddEvent c = .ok s')) ∧
    ∃ k, ∀ fuel, k ≤ fuel → ∃ s', s.tick fuel = .ok s' := by
  obtain ⟨f, cur, h⟩ := hr.valid
  have hcap : TIMEWHEEL_INTERVAL_MS * TIMEWHEEL_NUM_SLOTS_PER_WHEEL ^ TIMEWHEEL_NUM_WHEELS =
      ((216000 : ℕ) : Int) := rfl
  rw [hcap]
  refine ⟨fun c hc d => ⟨⟨?_, fun hge => ?_⟩, fun hlt => ?_⟩, ?_⟩
  · rintro ⟨msg, hthrown⟩
    by_contra hlt
    have hout := h.contents.idle_iff.1 hc
    have h₁ := h.setDelay (k := d) fun w i => hout (.slot w i)
    obtain ⟨s', hrun, -⟩ := h₁.insert_nat hout setDelay_delayMS_self (by omega)
    cases hrun.symm.trans hthrown
  · exact ⟨_, insert_long setDelay_delayMS_self (by omega)⟩
  · have hout := h.contents.idle_iff.1 hc
    have hlt : d < 216000 := by omega
    have h₁ := h.setDelay (k := d) fun w i => hout (.slot w i)
    obtain ⟨s', hrun, hat, -⟩ := h₁.insert_nat hout setDelay_delayMS_self hlt
    exact ⟨wheelOf d, s', pickWheel_eq hlt, h.wheels.covers_iff hlt, hat, hrun⟩
  · obtain ⟨k, hk⟩ := exists_fuel f
    obtain ⟨s', f', cur', xs, hrun, -⟩ := h.tick hk
    exact ⟨k, fun fuel hle => ⟨s', tickAt_fuel hrun hle⟩⟩

/-- The first delay that the wheels do not cover, on fresh wheels. -/
theorem insert_capacity_unit :
    (∃ msg, ((init fun _ => unusedNode).setDelay () ((216000 : ℕ) : Int)).internalAddEvent () =
      .error (.thrown msg)) := by
  have hr : Reachable (fun _ => True) (init fun _ : Unit => unusedNode) := .init _
  exact (((insert_capacity hr).1 () (idle_init _) 216000).1).2 (by decide)

end RockCoro.TimerManager
