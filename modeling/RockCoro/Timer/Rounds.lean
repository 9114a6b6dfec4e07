import RockCoro.Timer.Range

/-!
# The rounds of a tick

Other threads may run between any two rounds of the loops of `tick` and of the drain loop. Each
round keeps the ticks that remain for every coroutine in the wheels. In the course of a tick they
are counted with `carried`: the wheel below the one that is emptied has wrapped, and its cursor
counts as `60`.
-/

namespace RockCoro.TimerManager

open TimeWheelLinkedList

variable {C : Type} {s s' : TimerManager C} {f f' : Place → List C}
  {cur cur' : Fin TIMEWHEEL_NUM_WHEELS → ℕ} {c x : C} {w low : Fin TIMEWHEEL_NUM_WHEELS}
  {i : Fin TIMEWHEEL_NUM_SLOTS_PER_WHEEL} {n : ℕ} {xs : List C}

/-- The cursors while wheel `w` is emptied. -/
def carried (w : Fin TIMEWHEEL_NUM_WHEELS) (cur : Fin TIMEWHEEL_NUM_WHEELS → ℕ) :
    Fin TIMEWHEEL_NUM_WHEELS → ℕ :=
  fun v => if (v : ℕ) + 1 = w then 60 else cur v

/-- Nothing is below the lowest wheel. -/
theorem carried_zero : carried 0 cur = cur := by
  funext v
  exact if_neg (Nat.succ_ne_zero _)

/-- The cursor below the wheel that is emptied has just wrapped. -/
theorem carried_succ (hlow : (w : ℕ) = low + 1) : carried w cur = Function.update cur low 60 := by
  funext v
  rcases eq_or_ne v low with rfl | hv
  · rw [Function.update_self]
    exact if_pos hlow.symm
  · rw [Function.update_of_ne hv]
    exact if_neg fun he => hv (Fin.ext (by omega))

/-- What is in the timer determines the lists and the cursors. -/
theorem Valid.unique (h : s.Valid f cur) (h' : s.Valid f' cur') : f' = f ∧ cur' = cur := by
  refine ⟨h'.contents.unique h.contents, funext fun v => ?_⟩
  exact Int.ofNat.inj ((h'.wheels.cursor v).symm.trans (h.wheels.cursor v))

/-- Only the lowest wheel has none below. -/
theorem Wheels.eq_zero_of_lower (h : s.Wheels cur) (hlower : (s.timewheels w).lower = none) :
    w = 0 := by
  rw [h.lower] at hlower
  fin_cases w
  · rfl
  · cases hlower
  · cases hlower

/-- What remains for a coroutine that stays where it is. -/
theorem Remaining.congr (h : Remaining s f cur x n) (hmem : ∀ p, x ∈ f p → x ∈ f' p)
    (hdelay : (s'.nodes x).delayMS = (s.nodes x).delayMS) : Remaining s' f' cur x n := by
  obtain ⟨v, j, hx, hdue⟩ := h
  exact ⟨v, j, hmem _ hx, by rwa [hdelay]⟩

/-- At least one tick remains. -/
theorem Remaining.pos (h : Remaining s f cur x n) : 0 < n := by
  obtain ⟨v, j, -, rfl⟩ := h
  exact due_pos

/-- Nothing in the wheels remains for longer than the wheels are. -/
theorem Remaining.le (h : Remaining s f cur x n) : n ≤ 216000 + 3660 := by
  obtain ⟨v, j, -, rfl⟩ := h
  fin_cases v
  · simp only [due]
    omega
  · simp only [due]
    omega
  · simp only [due]
    omega

variable [DecidableEq C]

/-! ## The drain loop -/

/-- Pushing a coroutine leaves the delays alone. -/
theorem delayMS_of_pushBack {nodes nodes' : C → TimeWheelLinkedListNode C}
    {l l' : TimeWheelLinkedList C} (h : l.pushBack nodes c = .ok (nodes', l')) :
    (nodes' x).delayMS = (nodes x).delayMS := by
  rw [TimeWheelLinkedList.pushBack] at h
  split at h
  · cases h
    exact delayMS_setNext
  · split at h
    · cases h
    · cases h
      exact delayMS_setNext.trans delayMS_setNext

/-- `TimeWheel::add_event` leaves the delays alone. -/
theorem delayMS_of_addEventAt (h : s.addEventAt w c = .ok s') :
    (s'.nodes x).delayMS = (s.nodes x).delayMS := by
  simp only [TimerManager.addEventAt, bind, Except.bind] at h
  split at h
  · cases h
  · split at h
    · cases h
    · split at h
      · cases h
      · rename_i hpush
        cases h
        exact delayMS_of_pushBack hpush

/-- A round of the drain loop leaves the delays as they are. -/
theorem delayMS_of_drainOne (h : s.drainOne = .ok (some c, s')) :
    (s'.nodes x).delayMS = (s.nodes x).delayMS := by
  simp only [TimerManager.drainOne, TimerManager.popPendingEvent, bind, Except.bind] at h
  split at h
  · cases h
  · split at h
    · cases h
    · rename_i hpop _ _ hadd
      cases h
      rw [Prod.mk.injEq] at hpop
      obtain ⟨-, rfl⟩ := hpop
      rw [TimerManager.internalAddEvent] at hadd
      split at hadd
      · cases hadd
      · have hdelay := delayMS_of_addEventAt (x := x) hadd
        exact hdelay

/-! ## The loops of `tick` -/

/-- A round of a cascade: an event goes to the wheel below, and is due as before. -/
theorem Valid.cascadeRound_remaining (h : s.Valid f cur) (hp : f (.slot w i) = c :: xs)
    (hlow : (w : ℕ) = low + 1) (hzero : ∀ v < w, cur v = 0) (hi : cur w = i) :
    ∃ s' f' j, s.cascadeRound w low i = .ok (some s') ∧ s'.Valid f' cur ∧ c ∈ f' (.slot low j) ∧
      (∀ x, x ≠ c → ∀ p, x ∈ f' p ↔ x ∈ f p) ∧
      (∀ x, x ≠ c → (s'.nodes x).delayMS = (s.nodes x).delayMS) ∧
      ∀ x n, Remaining s f (carried w cur) x n → Remaining s' f' (carried w cur) x n := by
  have hw0 : w ≠ 0 := by
    rintro rfl
    exact absurd hlow (Nat.succ_ne_zero _).symm
  have hlw : low ≠ w := by
    rintro rfl
    omega
  have hc : c ∈ f (.slot w i) := hp ▸ List.mem_cons_self
  obtain ⟨d, hd⟩ := Int.eq_ofNat_of_zero_le (h.delay hc hw0)
  obtain ⟨s', f', hround, hcont, hclock, hself, hdelay, hmem, hstay, -, -⟩ :=
    h.contents.cascadeRound_cons h.wheels hp hlow hd
  refine ⟨s', f', _, hround, ⟨h.wheels.same hclock, hcont, h.cur_lt, fun {v j x} hx hv => ?_⟩, hmem,
    hstay, hdelay, fun x n hx => ?_⟩
  · rcases eq_or_ne x c with rfl | hxc
    · rw [hself]
      exact Int.natCast_nonneg _
    · rw [hdelay x hxc]
      exact h.delay ((hstay x hxc _).1 hx) hv
  · rcases eq_or_ne x c with rfl | hxc
    · obtain ⟨v, j, hx, hdue⟩ := hx
      cases h.contents.disjoint hx hc
      refine ⟨low, _, hmem, ?_⟩
      rw [carried_succ hlow] at hdue ⊢
      rw [hself, Int.toNat_natCast, ← due_stays hlow hzero h.cur_lt fun he => absurd he hlw,
        due_cascaded hlow hzero hi, ← hdue, hd]
      rfl
    · exact hx.congr (fun p hp => (hstay x hxc p).2 hp) (hdelay x hxc)

omit [DecidableEq C] in
/-- A round on the lowest wheel: the coroutine that is taken out was due now. -/
theorem Valid.fireRound_remaining (h : s.Valid f cur) (hp : f (.slot 0 i) = c :: xs)
    (hi : cur 0 = i) :
    ∃ s', s.fireRound 0 i = some (c, s') ∧ s'.Valid (Function.update f (.slot 0 i) xs) cur ∧
      s'.nodes = s.nodes ∧ ∀ n, Remaining s f cur c n → n = 1 := by
  obtain ⟨s', hround, hcont, hclock, hnodes⟩ := h.contents.fireRound_cons hp
  have hc : c ∈ f (.slot 0 i) := hp ▸ List.mem_cons_self
  refine ⟨s', hround, ⟨h.wheels.same hclock, hcont, h.cur_lt, fun {v j x} hx hv => ?_⟩, hnodes,
    fun n hn => ?_⟩
  · rw [Function.update_of_ne (fun he => by cases he; exact hv rfl)] at hx
    rw [hnodes]
    exact h.delay hx hv
  · rw [← (h.contents.remaining_iff hc).1 hn, ← hi]
    exact due_now

omit [DecidableEq C] in
/-- No coroutine is in a slot that is empty. -/
theorem ne_of_emptied {v : Fin TIMEWHEEL_NUM_WHEELS} {j : Fin TIMEWHEEL_NUM_SLOTS_PER_WHEEL}
    (hp : f (.slot w i) = []) (hi : cur w = i) (hx : x ∈ f (.slot v j)) (hv : v = w) :
    (j : ℕ) ≠ cur w := by
  subst hv
  intro hj
  have hij : j = i := Fin.ext (hj.trans hi)
  rw [hij, hp] at hx
  cases hx

omit [DecidableEq C] in
/-- The slot at the lowest cursor is empty, and the cursor moves: the rest is one tick closer. -/
theorem Valid.advance_lowest (h : s.Valid f cur) (hp : f (.slot 0 i) = []) (hi : cur 0 = i)
    (hx : Remaining s f cur x (n + 1)) :
    Remaining s f (Function.update cur 0 (cur 0 + 1)) x n := by
  obtain ⟨v, j, hx, hdue⟩ := hx
  refine ⟨v, j, hx, ?_⟩
  rw [due_tick (h.cur_lt 0) (ne_of_emptied hp hi hx)] at hdue
  exact Nat.succ.inj hdue

omit [DecidableEq C] in
/-- The cursor of an upper wheel moves. -/
theorem Valid.advance_upper (h : s.Valid f cur) (hp : f (.slot w i) = []) (hi : cur w = i)
    (hlow : (w : ℕ) = low + 1) (hzero : ∀ v < w, cur v = 0)
    (hx : Remaining s f (carried w cur) x n) :
    Remaining s f (Function.update cur w (cur w + 1)) x n := by
  obtain ⟨v, j, hx, hdue⟩ := hx
  refine ⟨v, j, hx, ?_⟩
  rw [carried_succ hlow] at hdue
  rw [due_stays hlow hzero h.cur_lt (ne_of_emptied hp hi hx)]
  exact hdue

end RockCoro.TimerManager
