import RockCoro.Timer.Insert

/-!
# A tick

`cascade` and `fire` empty the slot at the cursor; `tickAt` moves the cursor and, when it wraps,
ticks the upper wheel. What a tick means is said with `Remaining`: every event that was due at tick
`n + 1` is now due at tick `n`, and the events due at tick `1` were pushed as jobs. The proof
follows a carry: while a wheel has wrapped and the upper one has not moved yet, its cursor counts
as `60`.
-/

namespace RockCoro.TimerManager

open TimeWheelLinkedList

variable {C : Type} {s s' : TimerManager C} {f f' : Place → List C}
  {cur : Fin TIMEWHEEL_NUM_WHEELS → ℕ} {c : C} {w low : Fin TIMEWHEEL_NUM_WHEELS}
  {i : Fin TIMEWHEEL_NUM_SLOTS_PER_WHEEL} {d n fuel levels : ℕ} {xs : List C}

variable [DecidableEq C]

/-! ## Emptying a slot -/

/-- The loop on an upper wheel ends at an empty slot. -/
theorem Contents.cascadeRound_nil (h : s.Contents f) (hp : f (.slot w i) = []) :
    s.cascadeRound w low i = .ok none := by
  have hpop : (s.slot w i).popFront s.nodes = (none, s.slot w i) :=
    (hp ▸ h.holds (.slot w i)).popFront_nil
  rw [cascadeRound, hpop]

/-- A round of the cascade moves the first event of the slot to the slot of the lower wheel that its
remaining delay selects. -/
theorem Contents.cascadeRound_cons (h : s.Contents f) (hw : s.Wheels cur)
    (hp : f (.slot w i) = c :: xs) (hlow : (w : ℕ) = low + 1) (hd : (s.nodes c).delayMS = d) :
    ∃ s' f', s.cascadeRound w low i = .ok (some s') ∧ s'.Contents f' ∧ SameClock s s' ∧
      (s'.nodes c).delayMS = ((d % 60 ^ (w : ℕ) : ℕ) : Int) ∧
      (∀ x, x ≠ c → (s'.nodes x).delayMS = (s.nodes x).delayMS) ∧
      c ∈ f' (.slot low (slotOf (cur low) (d % 60 ^ (w : ℕ)) low)) ∧
      (∀ x, x ≠ c → ∀ q, x ∈ f' q ↔ x ∈ f q) ∧ f' (.slot w i) = xs ∧
      ∀ q, (∀ j, q ≠ .slot low j) → q ≠ .slot w i → f' q = f q := by
  obtain ⟨l, hpop, h₁⟩ := h.pop hp
  have hpop : (s.slot w i).popFront s.nodes = (some c, l) := hpop
  have hwl : low ≠ w := by
    rintro rfl
    omega
  have hc := h.notMem_popped hp
  have hw₁ := hw.same (sameClock_setList (p := .slot w i) (l := l))
  have hmod : ((s.setList (.slot w i) l).nodes c).delayMS.tmod
      ((s.setList (.slot w i) l).timewheels w).intervalMS = ((d % 60 ^ (w : ℕ) : ℕ) : Int) := by
    rw [setList_nodes, hw₁.interval, hd, ← Int.ofNat_tmod]
  have hspan : d % 60 ^ (w : ℕ) < 60 ^ (low : ℕ) * 60 := by
    rw [← pow_succ, ← hlow]
    exact Nat.mod_lt _ (Nat.pow_pos (by decide))
  obtain ⟨s', hadd, h', hs', hdel'⟩ := (h₁.setDelay (c := c)).addEventAt_nat
    (hw₁.same sameClock_setDelay) hc setDelay_delayMS_self hspan
  have hplace : ∀ j, Place.slot w i ≠ .slot low j := by
    intro j he
    cases he
    exact hwl rfl
  refine ⟨s', _, ?_, h', (sameClock_setList.trans sameClock_setDelay).trans hs', ?_, ?_, ?_, ?_, ?_,
    ?_⟩
  · rw [cascadeRound, hpop]
    change ((s.setList (.slot w i) l).setDelay c
      (((s.setList (.slot w i) l).nodes c).delayMS.tmod
        ((s.setList (.slot w i) l).timewheels w).intervalMS)).addEventAt low c >>= _ = _
    rw [hmod, hadd]
    rfl
  · rw [hdel', setDelay_delayMS_self]
  · intro x hx
    rw [hdel', setDelay_delayMS_ne hx, setList_nodes]
  · rw [Function.update_self]
    exact List.mem_append_right _ List.mem_cons_self
  · intro x hx q
    exact (mem_update_append hx).trans (mem_update_tail hp hx)
  · rw [Function.update_of_ne (hplace _), Function.update_self]
  · intro q hq hqw
    rw [Function.update_of_ne (hq _), Function.update_of_ne hqw]

/-- What the loop of `tick` on an upper wheel does: every event `x` of the slot goes to the slot of
the lower wheel that its remaining delay selects, and nothing else moves. -/
structure Cascaded (s s' : TimerManager C) (f f' : Place → List C)
    (cur : Fin TIMEWHEEL_NUM_WHEELS → ℕ) (w low : Fin TIMEWHEEL_NUM_WHEELS) (xs : List C) :
    Prop where
  contents : s'.Contents f'
  clock : SameClock s s'
  moved : ∀ x ∈ xs, ∃ d : ℕ, d = (s.nodes x).delayMS.toNat % 60 ^ (w : ℕ) ∧
    (s'.nodes x).delayMS = d ∧ x ∈ f' (.slot low (slotOf (cur low) d low))
  delay : ∀ x ∉ xs, (s'.nodes x).delayMS = (s.nodes x).delayMS
  stay : ∀ x ∉ xs, ∀ q, x ∈ f' q ↔ x ∈ f q

/-- Emptying a slot of an upper wheel: every event of it goes to the wheel below, in order. -/
theorem Contents.cascade (h : s.Contents f) (hw : s.Wheels cur) (hp : f (.slot w i) = xs)
    (hlow : (w : ℕ) = low + 1) (hdelay : ∀ x ∈ xs, 0 ≤ (s.nodes x).delayMS)
    (hfuel : xs.length < fuel) :
    ∃ s' f', s.cascade w low i fuel = .ok s' ∧ Cascaded s s' f f' cur w low xs ∧
      f' (.slot w i) = [] ∧ ∀ q, (∀ j, q ≠ .slot low j) → q ≠ .slot w i → f' q = f q := by
  induction xs generalizing s f fuel with
  | nil =>
    cases fuel with
    | zero => simp at hfuel
    | succ fuel =>
      refine ⟨s, f, ?_, ⟨h, .refl, by simp, fun _ _ => rfl, fun _ _ _ => Iff.rfl⟩, hp,
        fun _ _ _ => rfl⟩
      rw [TimerManager.cascade, h.cascadeRound_nil hp]
  | cons c xs ih =>
    cases fuel with
    | zero => simp at hfuel
    | succ fuel =>
      have hcxs : c ∉ xs := (List.nodup_cons.1 (hp ▸ h.nodup _)).1
      obtain ⟨d, hd⟩ := Int.eq_ofNat_of_zero_le (hdelay c List.mem_cons_self)
      obtain ⟨s₁, f₁, hround, h₁, hclock₁, hself₁, hdelay₁, hmem₁, hstay₁, hp₁, hrest₁⟩ :=
        h.cascadeRound_cons hw hp hlow hd
      obtain ⟨s', f', hrun, hcas, hnil, hrest⟩ := ih h₁ (hw.same hclock₁) hp₁
        (fun x hx => by
          rw [hdelay₁ x (ne_of_mem_of_not_mem hx hcxs)]
          exact hdelay x (List.mem_cons_of_mem _ hx))
        (by simpa using hfuel)
      refine ⟨s', f', ?_, ⟨hcas.contents, hclock₁.trans hcas.clock, ?_, ?_, ?_⟩, hnil, ?_⟩
      · rw [TimerManager.cascade, hround]
        exact hrun
      · intro x hx
        rcases List.mem_cons.1 hx with rfl | hx
        · refine ⟨d % 60 ^ (w : ℕ), by rw [hd]; rfl, ?_, ?_⟩
          · rw [hcas.delay x hcxs, hself₁]
          · rw [hcas.stay x hcxs]
            exact hmem₁
        · obtain ⟨e, he, hes, hmem⟩ := hcas.moved x hx
          rw [hdelay₁ x (ne_of_mem_of_not_mem hx hcxs)] at he
          exact ⟨e, he, hes, hmem⟩
      · intro x hx
        rw [hcas.delay x (fun h => hx (List.mem_cons_of_mem _ h)),
          hdelay₁ x (fun h => hx (h ▸ List.mem_cons_self))]
      · intro x hx q
        rw [hcas.stay x (fun h => hx (List.mem_cons_of_mem _ h)),
          hstay₁ x (fun h => hx (h ▸ List.mem_cons_self))]
      · intro q hq hqw
        rw [hrest q hq hqw, hrest₁ q hq hqw]

omit [DecidableEq C] in
/-- The loop on the lowest wheel ends at an empty slot. -/
theorem Contents.fireRound_nil (h : s.Contents f) (hp : f (.slot w i) = []) :
    s.fireRound w i = none := by
  have hpop : (s.slot w i).popFront s.nodes = (none, s.slot w i) :=
    (hp ▸ h.holds (.slot w i)).popFront_nil
  rw [fireRound, hpop]

omit [DecidableEq C] in
/-- A round on the lowest wheel takes the first coroutine of the slot. -/
theorem Contents.fireRound_cons (h : s.Contents f) (hp : f (.slot w i) = c :: xs) :
    ∃ s', s.fireRound w i = some (c, s') ∧ s'.Contents (Function.update f (.slot w i) xs) ∧
      SameClock s s' ∧ s'.nodes = s.nodes := by
  obtain ⟨l, hpop, h₁⟩ := h.pop hp
  have hpop : (s.slot w i).popFront s.nodes = (some c, l) := hpop
  refine ⟨s.setList (.slot w i) l, ?_, h₁, sameClock_setList, setList_nodes⟩
  rw [fireRound, hpop]
  rfl

omit [DecidableEq C] in
/-- The loop of `tick` on the lowest wheel. -/
theorem Contents.fire (h : s.Contents f) (hp : f (.slot w i) = xs) (hfuel : xs.length < fuel) :
    ∃ s', s.fire w i fuel = .ok s' ∧ s'.Contents (Function.update f (.slot w i) []) ∧
      SameClock { s with pushed := s.pushed ++ xs } s' ∧ s'.nodes = s.nodes := by
  induction xs generalizing s f fuel with
  | nil =>
    cases fuel with
    | zero => simp at hfuel
    | succ fuel =>
      have hf : Function.update f (.slot w i) [] = f := by rw [← hp, Function.update_eq_self]
      refine ⟨s, ?_, hf.symm ▸ h, ?_, rfl⟩
      · rw [TimerManager.fire, h.fireRound_nil hp]
      · rw [List.append_nil]
        exact .refl
  | cons c xs ih =>
    cases fuel with
    | zero => simp at hfuel
    | succ fuel =>
      obtain ⟨s₁, hround, h₁, hset, hnodes₁⟩ := h.fireRound_cons hp
      have h₂ : ({ s₁ with pushed := s₁.pushed ++ [c] } : TimerManager C).Contents
          (Function.update f (.slot w i) xs) := ⟨h₁.holds, h₁.disjoint⟩
      obtain ⟨s', hrun, hcont, hclock, hnodes⟩ := ih h₂ (Function.update_self ..)
        (by simpa using hfuel)
      rw [Function.update_idem] at hcont
      refine ⟨s', ?_, hcont, ?_, hnodes.trans hnodes₁⟩
      · rw [TimerManager.fire, hround]
        exact hrun
      · refine ⟨hclock.lowest.trans hset.lowest, fun v => (hclock.lower v).trans (hset.lower v),
          fun v => (hclock.upper v).trans (hset.upper v),
          fun v => (hclock.interval v).trans (hset.interval v),
          fun v => (hclock.cursor v).trans (hset.cursor v), hclock.pushed.trans ?_⟩
        change s₁.pushed ++ [c] ++ xs = s.pushed ++ c :: xs
        rw [hset.pushed, List.append_assoc]
        rfl

/-! ## The cursors -/

omit [DecidableEq C] in
/-- A coroutine in a slot is due once. -/
theorem Contents.remaining_iff (h : s.Contents f) (hc : c ∈ f (.slot w i)) :
    Remaining s f cur c n ↔ due cur w i (s.nodes c).delayMS.toNat = n := by
  constructor
  · rintro ⟨w', i', hc', hn⟩
    cases h.disjoint hc hc'
    exact hn
  · exact fun hn => ⟨w, i, hc, hn⟩

omit [DecidableEq C] in
/-- The events are due as before if they are in wheels as before and each is. -/
theorem Contents.remaining_congr {cur' : Fin TIMEWHEEL_NUM_WHEELS → ℕ} (h' : s'.Contents f')
    (hdue : ∀ {w i}, c ∈ f (.slot w i) → ∃ w' i', c ∈ f' (.slot w' i') ∧
      due cur' w' i' (s'.nodes c).delayMS.toNat = due cur w i (s.nodes c).delayMS.toNat)
    (hback : ∀ {w' i'}, c ∈ f' (.slot w' i') → ∃ w i, c ∈ f (.slot w i)) :
    Remaining s f cur c n ↔ Remaining s' f' cur' c n := by
  constructor
  · rintro ⟨w, i, hc, rfl⟩
    obtain ⟨w', i', hc', he⟩ := hdue hc
    exact ⟨w', i', hc', he⟩
  · rintro ⟨w', i', hc', rfl⟩
    obtain ⟨w, i, hc⟩ := hback hc'
    obtain ⟨w'', i'', hc'', he⟩ := hdue hc
    cases h'.disjoint hc' hc''
    exact ⟨w, i, hc, he.symm⟩

/-- An event that cascades is due as before: the wheel below starts at `0`. -/
theorem due_cascaded (hlow : (w : ℕ) = low + 1) (hzero : ∀ v < w, cur v = 0)
    (hw : cur w = i) :
    due (Function.update cur w (cur w + 1)) low (slotOf (cur low) (d % 60 ^ (w : ℕ)) low)
      (d % 60 ^ (w : ℕ)) = due (Function.update cur low 60) w i d := by
  have hi : (i : ℕ) < 60 := i.isLt
  have h0 : 0 < w → cur 0 = 0 := hzero 0
  have h1 : 1 < w → cur 1 = 0 := hzero 1
  fin_cases w <;> fin_cases low <;>
    simp [due, slotOf, TIMEWHEEL_NUM_WHEELS] at hlow hw h0 h1 ⊢ <;> omega

/-- An event in another slot is due as before: what the wheel below has run through, its cursor
has moved. -/
theorem due_stays {w' : Fin TIMEWHEEL_NUM_WHEELS} {i' : Fin TIMEWHEEL_NUM_SLOTS_PER_WHEEL}
    (hlow : (w : ℕ) = low + 1) (hzero : ∀ v < w, cur v = 0) (hcur : ∀ v, cur v < 60)
    (hne : w' = w → (i' : ℕ) ≠ cur w) :
    due (Function.update cur w (cur w + 1)) w' i' d = due (Function.update cur low 60) w' i' d := by
  have hi : (i' : ℕ) < 60 := i'.isLt
  have hw := hcur w
  have h0 : 0 < w → cur 0 = 0 := hzero 0
  have h1 : 1 < w → cur 1 = 0 := hzero 1
  fin_cases w <;> fin_cases low <;> fin_cases w' <;>
    simp [due, TIMEWHEEL_NUM_WHEELS] at hlow hw h0 h1 hne ⊢ <;> omega

/-- The cascade of the slot at the cursor, when the wheels below have just wrapped. -/
theorem Valid.cascade (h : s.Valid f cur) (hlow : (w : ℕ) = low + 1) (hzero : ∀ v < w, cur v = 0)
    (hi : cur w = i) (hfuel : (f (.slot w i)).length < fuel) :
    ∃ s' f', s.cascade w low i fuel = .ok s' ∧ s'.Valid f' cur ∧ s'.pushed = s.pushed ∧
      f' .pending = f .pending ∧
      (∀ x ∈ f .pending, (s'.nodes x).delayMS = (s.nodes x).delayMS) ∧
      (∀ x n, Remaining s f (Function.update cur low 60) x n ↔
        Remaining s' f' (Function.update cur w (cur w + 1)) x n) ∧
      ∀ v, w < v → ∀ j, f' (.slot v j) = f (.slot v j) := by
  have hw0 : w ≠ 0 := by
    rintro rfl
    exact absurd hlow (Nat.succ_ne_zero _).symm
  obtain ⟨s', f', hrun, hcas, -, hrest⟩ := h.contents.cascade h.wheels rfl hlow
    (fun x hx => h.delay hx hw0) hfuel
  have hnot : ∀ {x w' i'}, x ∈ f (.slot w' i') → (w' = w → (i' : ℕ) ≠ cur w) →
      x ∉ f (.slot w i) := by
    intro x w' i' hx hne hm
    cases h.contents.disjoint hx hm
    exact hne rfl hi.symm
  refine ⟨s', f', hrun, ⟨h.wheels.same hcas.clock, hcas.contents, h.cur_lt, ?_⟩, hcas.clock.pushed,
    ?_, ?_, ?_, ?_⟩
  · intro w' i' x hx hw'
    by_cases hm : x ∈ f (.slot w i)
    · obtain ⟨d, -, hd, -⟩ := hcas.moved x hm
      rw [hd]
      exact Int.natCast_nonneg d
    · rw [hcas.delay x hm]
      exact h.delay ((hcas.stay x hm _).1 hx) hw'
  · exact hrest _ (fun j hj => by cases hj) (fun hj => by cases hj)
  · intro x hx
    refine hcas.delay x fun hm => ?_
    cases h.contents.disjoint hx hm
  · intro x n
    refine Contents.remaining_congr hcas.contents (fun {w' i'} hx => ?_) (fun {w' i'} hx => ?_)
    · by_cases hm : x ∈ f (.slot w i)
      · cases h.contents.disjoint hx hm
        obtain ⟨d, hd, hds, hmem⟩ := hcas.moved x hm
        refine ⟨low, _, hmem, ?_⟩
        rw [hds, Int.toNat_natCast, hd]
        exact due_cascaded hlow hzero hi
      · refine ⟨w', i', (hcas.stay x hm _).2 hx, ?_⟩
        rw [hcas.delay x hm]
        refine due_stays hlow hzero h.cur_lt fun hw' he => hm ?_
        have : i' = i := Fin.ext (he.trans hi)
        rwa [hw', this] at hx
    · by_cases hm : x ∈ f (.slot w i)
      · exact ⟨w, i, hm⟩
      · exact ⟨w', i', (hcas.stay x hm _).1 hx⟩
  · intro v hv j
    refine hrest _ (fun j' hj => ?_) (fun hj => ?_)
    · cases hj
      exact absurd hv (by omega)
    · cases hj
      exact absurd hv (lt_irrefl _)

omit [DecidableEq C] in
/-- A cursor is written. -/
theorem Valid.setCursor {k : Int} (h : s.Valid f cur) (hn : n < 60) (hk : k = n) :
    (s.setWheel w { s.timewheels w with curSlotIdx := k }).Valid f (Function.update cur w n) := by
  have hother : ∀ v, v ≠ w →
      (s.setWheel w { s.timewheels w with curSlotIdx := k }).timewheels v = s.timewheels v :=
    fun v hv => Function.update_of_ne hv _ _
  have hself : (s.setWheel w { s.timewheels w with curSlotIdx := k }).timewheels w =
      { s.timewheels w with curSlotIdx := k } := Function.update_self ..
  refine ⟨⟨h.wheels.lowest, fun v => ?_, fun v => ?_, fun v => ?_, fun v => ?_⟩,
    ⟨fun p => ?_, h.contents.disjoint⟩, fun v => ?_, h.delay⟩
  · rw [← h.wheels.lower v]
    rcases eq_or_ne v w with rfl | hv
    · rw [hself]
    · rw [hother v hv]
  · rw [← h.wheels.upper v]
    rcases eq_or_ne v w with rfl | hv
    · rw [hself]
    · rw [hother v hv]
  · rw [← h.wheels.interval v]
    rcases eq_or_ne v w with rfl | hv
    · rw [hself]
    · rw [hother v hv]
  · rcases eq_or_ne v w with rfl | hv
    · rw [hself, Function.update_self]
      exact hk
    · rw [hother v hv, Function.update_of_ne hv]
      exact h.wheels.cursor v
  · have hlist : (s.setWheel w { s.timewheels w with curSlotIdx := k }).listAt p = s.listAt p := by
      cases p with
      | pending => rfl
      | slot v j =>
        rcases eq_or_ne v w with rfl | hv
        · simp [listAt, slot, hself]
        · simp [listAt, slot, hother v hv]
    rw [hlist]
    exact h.contents.holds p
  · rcases eq_or_ne v w with rfl | hv
    · rwa [Function.update_self]
    · rw [Function.update_of_ne hv]
      exact h.cur_lt v

omit [DecidableEq C] in
/-- A cursor that is not at the last slot moves on by one. -/
theorem Wheels.advance_lt (h : s.Wheels cur) (hlt : cur w + 1 < 60) :
    s.advance w = (s.setWheel w { s.timewheels w with curSlotIdx := (cur w + 1 : ℕ) }, none) := by
  have hslots : (TIMEWHEEL_NUM_SLOTS_PER_WHEEL : Int) = 60 := rfl
  have hcur : (s.timewheels w).curSlotIdx + 1 = ((cur w + 1 : ℕ) : Int) := by
    rw [h.cursor]
    rfl
  simp only [advance, hcur]
  rw [if_neg (by omega)]

omit [DecidableEq C] in
/-- A cursor at the last slot goes back to the first, and the upper wheel is ticked. -/
theorem Wheels.advance_wrap (h : s.Wheels cur) (h60 : cur w + 1 = 60) :
    s.advance w =
      (s.setWheel w { s.timewheels w with curSlotIdx := 0 }, (s.timewheels w).upper) := by
  have hslots : (TIMEWHEEL_NUM_SLOTS_PER_WHEEL : Int) = 60 := rfl
  have hcur : (s.timewheels w).curSlotIdx + 1 = ((cur w + 1 : ℕ) : Int) := by
    rw [h.cursor]
    rfl
  simp only [advance, hcur]
  rw [if_pos (by omega)]

omit [DecidableEq C] in
/-- The cursor moves within the wheel. -/
theorem Valid.advance (h : s.Valid f cur) : ∃ cur', (s.advance w).1.Valid f cur' := by
  rcases Nat.lt_or_ge (cur w + 1) 60 with hlt | hge
  · rw [h.wheels.advance_lt hlt]
    exact ⟨_, h.setCursor hlt rfl⟩
  · rw [h.wheels.advance_wrap (le_antisymm (h.cur_lt w) hge)]
    exact ⟨_, h.setCursor (n := 0) (by decide) rfl⟩

/-- A round of the cascade keeps the invariant. -/
theorem Valid.cascadeRound (h : s.Valid f cur) (hp : f (.slot w i) = c :: xs)
    (hlow : (w : ℕ) = low + 1) :
    ∃ s' f' j, s.cascadeRound w low i = .ok (some s') ∧ s'.Valid f' cur ∧
      c ∈ f' (.slot low j) ∧ ∀ x, x ≠ c → ∀ q, x ∈ f' q ↔ x ∈ f q := by
  have hw0 : w ≠ 0 := by
    rintro rfl
    exact absurd hlow (Nat.succ_ne_zero _).symm
  have hc : c ∈ f (.slot w i) := hp ▸ List.mem_cons_self
  obtain ⟨d, hd⟩ := Int.eq_ofNat_of_zero_le (h.delay hc hw0)
  obtain ⟨s', f', hround, hcont, hclock, hself, hdelay, hmem, hstay, -, -⟩ :=
    h.contents.cascadeRound_cons h.wheels hp hlow hd
  refine ⟨s', f', _, hround, ⟨h.wheels.same hclock, hcont, h.cur_lt, fun {v j x} hx hv => ?_⟩, hmem,
    hstay⟩
  rcases eq_or_ne x c with rfl | hxc
  · rw [hself]
    exact Int.natCast_nonneg _
  · rw [hdelay x hxc]
    exact h.delay ((hstay x hxc _).1 hx) hv

/-! ## A tick of the wheels -/

/-- What the tick of an upper wheel does when the wheels below have just wrapped; the cursors `vcur`
count the carry. -/
structure Carried (s s' : TimerManager C) (f f' : Place → List C)
    (vcur cur' : Fin TIMEWHEEL_NUM_WHEELS → ℕ) : Prop where
  valid : s'.Valid f' cur'
  pushed : s'.pushed = s.pushed
  pending : f' .pending = f .pending
  delay : ∀ c ∈ f .pending, (s'.nodes c).delayMS = (s.nodes c).delayMS
  remaining : ∀ c n, Remaining s f vcur c n ↔ Remaining s' f' cur' c n

omit [DecidableEq C] in
/-- The cursors `60` and `0` are one. -/
theorem due_wrap {v : Fin TIMEWHEEL_NUM_WHEELS} (hw : w = 2) :
    due (Function.update cur w 60) v i d = due (Function.update cur w 0) v i d := by
  subst hw
  fin_cases v <;> simp [due, TIMEWHEEL_NUM_WHEELS]

omit [DecidableEq C] in
/-- The links `lower` lead from a wheel to the one before it. -/
theorem Wheels.lower_eq (h : s.Wheels cur) (hlow : (w : ℕ) = low + 1) :
    (s.timewheels w).lower = some low := by
  rw [h.lower]
  fin_cases w <;> fin_cases low <;> first | rfl | simp at hlow

omit [DecidableEq C] in
/-- Only the wheel after `low` has it as its lower wheel. -/
theorem Wheels.eq_succ_of_lower (h : s.Wheels cur) (hlow : (s.timewheels w).lower = some low) :
    (w : ℕ) = low + 1 := by
  rw [h.lower] at hlow
  fin_cases w
  · cases hlow
  · cases hlow
    rfl
  · cases hlow
    rfl

omit [DecidableEq C] in
/-- The links `upper` lead back. -/
theorem Wheels.upper_eq (h : s.Wheels cur) (hlow : (w : ℕ) = low + 1) :
    (s.timewheels low).upper = some w := by
  rw [h.upper]
  fin_cases w <;> fin_cases low <;> first | rfl | simp at hlow

/-- Ticking an upper wheel when the cursor below has just wrapped: its slot is carried down. -/
theorem Valid.tickAt_upper (h : s.Valid f cur) (hlow : (w : ℕ) = low + 1)
    (hzero : ∀ v < w, cur v = 0) (hlevels : 3 ≤ w + levels)
    (hfuel : ∀ v i, w ≤ v → (f (.slot v i)).length < fuel) :
    ∃ s' f' cur', s.tickAt fuel levels w = .ok s' ∧
      Carried s s' f f' (Function.update cur low 60) cur' := by
  induction levels generalizing s f cur w low with
  | zero =>
    have : (w : ℕ) < 3 := w.isLt
    omega
  | succ levels ih =>
    obtain ⟨i, hi⟩ : ∃ i : Fin TIMEWHEEL_NUM_SLOTS_PER_WHEEL, (i : ℕ) = cur w :=
      ⟨⟨cur w, h.cur_lt w⟩, rfl⟩
    obtain ⟨s₁, f₁, hrun, h₁, hpushed, hpend, hdelay, hrem, hup⟩ :=
      h.cascade hlow hzero hi.symm (hfuel w i le_rfl)
    have hidx : slotIndex (s.timewheels w).curSlotIdx = .ok i := by
      rw [h.wheels.cursor, ← hi, slotIndex_natCast]
    have hempty : s.emptySlot w i fuel = .ok s₁ := by
      rw [emptySlot, h.wheels.lower_eq hlow]
      exact hrun
    rw [tickAt, hidx]
    simp only [bind, Except.bind, hempty]
    rcases Nat.lt_or_ge (cur w + 1) 60 with hlt | hge
    · rw [h₁.wheels.advance_lt hlt]
      exact ⟨_, f₁, _, rfl, ⟨h₁.setCursor hlt rfl, hpushed, hpend, hdelay, hrem⟩⟩
    · -- the wheel wraps
      have h60 : cur w + 1 = 60 := le_antisymm (h.cur_lt w) hge
      have h₂ := h₁.setCursor (w := w) (k := 0) (n := 0) (by decide) rfl
      rw [h₁.wheels.advance_wrap h60]
      rw [h60] at hrem
      rcases Nat.lt_or_ge (w + 1) 3 with hw | hw
      · obtain ⟨up, hwup⟩ : ∃ up : Fin TIMEWHEEL_NUM_WHEELS, (up : ℕ) = w + 1 :=
          ⟨⟨w + 1, hw⟩, rfl⟩
        rw [h₁.wheels.upper_eq hwup]
        have hzero₂ : ∀ v < up, Function.update cur w 0 v = 0 := by
          intro v hv
          rcases eq_or_ne v w with rfl | hvw
          · exact Function.update_self ..
          · rw [Function.update_of_ne hvw]
            exact hzero v (by omega)
        obtain ⟨s', f', cur', hrun', hcar⟩ := ih h₂ hwup hzero₂ (by omega)
          (fun v j hv => by
            rw [hup v (by omega)]
            exact hfuel v j (by omega))
        rw [Function.update_idem] at hcar
        refine ⟨s', f', cur', hrun', hcar.valid, hcar.pushed.trans hpushed,
          hcar.pending.trans hpend, fun x hx => ?_, fun x n => ?_⟩
        · exact (hcar.delay x (hpend.symm ▸ hx)).trans (hdelay x hx)
        · exact (hrem x n).trans (hcar.remaining x n)
      · have hw2 : w = 2 := Fin.ext (by have : (w : ℕ) < 3 := w.isLt; change (w : ℕ) = 2; omega)
        have htop : (s₁.timewheels w).upper = none := by
          rw [h₁.wheels.upper, hw2]
          rfl
        rw [htop]
        refine ⟨_, f₁, _, rfl, h₂, hpushed, hpend, hdelay, fun x n => (hrem x n).trans ?_⟩
        refine Contents.remaining_congr h₂.contents (fun {v j} hx => ⟨v, j, hx, ?_⟩)
          fun {v j} hx => ⟨v, j, hx⟩
        exact (due_wrap hw2).symm

/-! ## The fuel of a tick -/

/-- A loop on an upper wheel that ended ends in the same state with more fuel. -/
theorem cascade_fuel {k : ℕ} (h : s.cascade w low i k = .ok s') (hk : k ≤ fuel) :
    s.cascade w low i fuel = .ok s' := by
  induction k generalizing s fuel with
  | zero => cases h
  | succ k ih =>
    obtain ⟨fuel, rfl⟩ := Nat.exists_eq_add_of_le' hk
    rw [← Nat.add_assoc, TimerManager.cascade]
    rw [TimerManager.cascade] at h
    split at h
    · cases h
    · exact h
    · exact ih h (Nat.le_add_left k fuel)

omit [DecidableEq C] in
/-- A loop on the lowest wheel that ended ends in the same state with more fuel. -/
theorem fire_fuel {k : ℕ} (h : s.fire w i k = .ok s') (hk : k ≤ fuel) :
    s.fire w i fuel = .ok s' := by
  induction k generalizing s fuel with
  | zero => cases h
  | succ k ih =>
    obtain ⟨fuel, rfl⟩ := Nat.exists_eq_add_of_le' hk
    rw [← Nat.add_assoc, TimerManager.fire]
    rw [TimerManager.fire] at h
    split at h
    · exact h
    · exact ih h (Nat.le_add_left k fuel)

/-- The same for the slots of every wheel. -/
theorem emptySlot_fuel {k : ℕ} (h : s.emptySlot w i k = .ok s') (hk : k ≤ fuel) :
    s.emptySlot w i fuel = .ok s' := by
  rw [emptySlot] at h ⊢
  split at h
  · exact cascade_fuel h hk
  · exact fire_fuel h hk

/-- A tick that ended ends in the same state with more fuel. -/
theorem tickAt_fuel {k : ℕ} (h : s.tickAt k levels w = .ok s') (hk : k ≤ fuel) :
    s.tickAt fuel levels w = .ok s' := by
  induction levels generalizing s w with
  | zero => cases h
  | succ levels ih =>
    rw [tickAt] at h ⊢
    simp only [bind, Except.bind] at h ⊢
    cases hidx : slotIndex (s.timewheels w).curSlotIdx with
    | error e => simp [hidx] at h
    | ok i =>
      simp only [hidx] at h ⊢
      cases hrun : s.emptySlot w i k with
      | error e => simp [hrun] at h
      | ok s₁ =>
        simp only [hrun] at h
        simp only [emptySlot_fuel hrun hk]
        split at h
        · exact ih h
        · exact h

/-- What a tick does: it pushes the coroutines that are due, and brings the others one tick
closer. -/
structure Ticked (s s' : TimerManager C) (f f' : Place → List C)
    (cur cur' : Fin TIMEWHEEL_NUM_WHEELS → ℕ) (xs : List C) : Prop where
  valid : s'.Valid f' cur'
  pushed : s'.pushed = s.pushed ++ xs
  nodup : xs.Nodup
  pending : f' .pending = f .pending
  delay : ∀ c ∈ f .pending, (s'.nodes c).delayMS = (s.nodes c).delayMS
  fired : ∀ c, c ∈ xs ↔ Remaining s f cur c 1
  remaining : ∀ c n, Remaining s' f' cur' c (n + 1) ↔ Remaining s f cur c (n + 2)

omit [DecidableEq C] in
/-- A coroutine in a wheel fires in a later tick, not in the past. -/
theorem due_pos {i : ℕ} : 0 < due cur w i d := by
  fin_cases w <;> simp [due]

omit [DecidableEq C] in
/-- The slot at the lowest cursor is due now. -/
theorem due_now : due cur 0 (cur 0) d = 1 := by
  simp only [due]
  omega

omit [DecidableEq C] in
/-- The rest comes one tick closer when the lowest cursor moves. -/
theorem due_tick (hcur : cur 0 < 60) (hne : w = 0 → (i : ℕ) ≠ cur 0) :
    due cur w i d = due (Function.update cur 0 (cur 0 + 1)) w i d + 1 := by
  have hi : (i : ℕ) < 60 := i.isLt
  fin_cases w <;> simp [due, TIMEWHEEL_NUM_WHEELS] at hne ⊢ <;> omega

/-- The loop of `tick` on the lowest wheel pushes what is due and brings the rest one tick
closer. -/
theorem Valid.fire (h : s.Valid f cur) (hi : (i : ℕ) = cur 0) (hfuel : ∀ p, (f p).length < fuel) :
    ∃ s₁ f₁, s.fire 0 i fuel = .ok s₁ ∧ s₁.Valid f₁ cur ∧ s₁.pushed = s.pushed ++ f (.slot 0 i) ∧
      s₁.nodes = s.nodes ∧ (∀ p, p ≠ .slot 0 i → f₁ p = f p) ∧
      (∀ x, x ∈ f (.slot 0 i) ↔ Remaining s f cur x 1) ∧
      ∀ x n, Remaining s₁ f₁ (Function.update cur 0 (cur 0 + 1)) x (n + 1) ↔
        Remaining s f cur x (n + 2) := by
  obtain ⟨s₁, hrun, hcont, hclock, hnodes⟩ :=
    h.contents.fire (w := 0) (i := i) rfl (hfuel _)
  obtain ⟨f₁, hf₁⟩ : ∃ f₁, f₁ = Function.update f (.slot 0 i) [] := ⟨_, rfl⟩
  rw [← hf₁] at hcont
  have hstay : ∀ {x w' i'}, x ∈ f (.slot w' i') → x ∉ f (.slot 0 i) → x ∈ f₁ (.slot w' i') := by
    intro x w' i' hx hm
    have hne : Place.slot w' i' ≠ .slot 0 i := by
      intro he
      exact hm (he ▸ hx)
    rwa [hf₁, Function.update_of_ne hne]
  have hback : ∀ {x p}, x ∈ f₁ p → x ∈ f p ∧ x ∉ f (.slot 0 i) := by
    intro x p hx
    rcases eq_or_ne p (.slot 0 i) with rfl | hp
    · rw [hf₁, Function.update_self] at hx
      cases hx
    · rw [hf₁, Function.update_of_ne hp] at hx
      exact ⟨hx, fun hm => hp (h.contents.disjoint hx hm)⟩
  have h₁ : s₁.Valid f₁ cur := ⟨⟨hclock.lowest.trans h.wheels.lowest,
      fun v => (hclock.lower v).trans (h.wheels.lower v),
      fun v => (hclock.upper v).trans (h.wheels.upper v),
      fun v => (hclock.interval v).trans (h.wheels.interval v),
      fun v => (hclock.cursor v).trans (h.wheels.cursor v)⟩, hcont, h.cur_lt, fun hx => by
    rw [hnodes]
    exact h.delay (hback hx).1⟩
  -- what is not due now is due one tick earlier on the moved cursor
  have hne : ∀ {x w' i'}, x ∈ f (.slot w' i') → x ∉ f (.slot 0 i) → w' = 0 → (i' : ℕ) ≠ cur 0 := by
    rintro x w' i' hx hm rfl he
    have : i' = i := Fin.ext (he.trans hi.symm)
    exact hm (this ▸ hx)
  have hfired : ∀ x, x ∈ f (.slot 0 i) ↔ Remaining s f cur x 1 := by
    refine fun x => ⟨fun hx => ⟨0, i, hx, ?_⟩, ?_⟩
    · rw [hi]
      exact due_now
    · rintro ⟨w', i', hx, hdue⟩
      by_contra hm
      rw [due_tick (h.cur_lt 0) (hne hx hm)] at hdue
      exact absurd (Nat.succ.inj hdue) due_pos.ne'
  have hrem : ∀ x n, Remaining s₁ f₁ (Function.update cur 0 (cur 0 + 1)) x (n + 1) ↔
      Remaining s f cur x (n + 2) := by
    intro x n
    constructor
    · rintro ⟨w', i', hx, hdue⟩
      obtain ⟨hx, hm⟩ := hback hx
      rw [hnodes] at hdue
      exact ⟨w', i', hx, by rw [due_tick (h.cur_lt 0) (hne hx hm), hdue]⟩
    · rintro ⟨w', i', hx, hdue⟩
      have hm : x ∉ f (.slot 0 i) := by
        intro hm
        obtain ⟨w'', i'', hx', hdue'⟩ := (hfired x).1 hm
        cases h.contents.disjoint hx hx'
        rw [hdue] at hdue'
        cases hdue'
      rw [due_tick (h.cur_lt 0) (hne hx hm)] at hdue
      refine ⟨w', i', hstay hx hm, ?_⟩
      rw [hnodes]
      exact Nat.succ.inj hdue
  exact ⟨s₁, f₁, hrun, h₁, hclock.pushed, hnodes,
    fun p hp => by rw [hf₁, Function.update_of_ne hp], hfired, hrem⟩

/-- A tick ends without an exception, and fires the coroutines whose time has come. -/
theorem Valid.tick (h : s.Valid f cur) (hfuel : ∀ p, (f p).length < fuel) :
    ∃ s' f' cur' xs, s.tick fuel = .ok s' ∧ Ticked s s' f f' cur cur' xs := by
  obtain ⟨i, hi⟩ : ∃ i : Fin TIMEWHEEL_NUM_SLOTS_PER_WHEEL, (i : ℕ) = cur 0 :=
    ⟨⟨cur 0, h.cur_lt 0⟩, rfl⟩
  obtain ⟨s₁, f₁, hrun, h₁, hpushed, hnodes, hf₁, hfired, hrem⟩ := h.fire hi hfuel
  have hpend : f₁ .pending = f .pending := hf₁ _ (fun he => by cases he)
  have hidx : slotIndex (s.timewheels 0).curSlotIdx = .ok i := by
    rw [h.wheels.cursor, ← hi, slotIndex_natCast]
  have hlower : (s.timewheels 0).lower = none := h.wheels.lower 0
  have hempty : s.emptySlot 0 i fuel = .ok s₁ := by
    rw [emptySlot, hlower]
    exact hrun
  rw [TimerManager.tick, h.wheels.lowest, tickAt, hidx]
  simp only [bind, Except.bind, hempty]
  rcases Nat.lt_or_ge (cur 0 + 1) 60 with hlt | hge
  · rw [h₁.wheels.advance_lt hlt]
    exact ⟨_, f₁, _, _, rfl, h₁.setCursor hlt rfl, hpushed, h.contents.nodup _, hpend,
      fun x _ => by rw [← hnodes]; rfl, hfired, hrem⟩
  · have h60 : cur 0 + 1 = 60 := le_antisymm (h.cur_lt 0) hge
    have h₂ := h₁.setCursor (w := 0) (k := 0) (n := 0) (by decide) rfl
    rw [h₁.wheels.advance_wrap h60, h₁.wheels.upper_eq (w := 1) rfl]
    have hlow : ((1 : Fin TIMEWHEEL_NUM_WHEELS) : ℕ) = (0 : Fin TIMEWHEEL_NUM_WHEELS) + 1 := rfl
    have hzero : ∀ v < (1 : Fin TIMEWHEEL_NUM_WHEELS), Function.update cur 0 0 v = 0 := by
      intro v hv
      obtain rfl : v = 0 := Fin.ext (Nat.lt_one_iff.1 hv)
      exact Function.update_self ..
    have hlevels : 3 ≤ ((1 : Fin TIMEWHEEL_NUM_WHEELS) : ℕ) + 2 := le_rfl
    obtain ⟨s', f', cur', hrun', hcar⟩ := h₂.tickAt_upper hlow hzero hlevels fun v j hv => by
      have hv0 : Place.slot v j ≠ .slot 0 i := by
        intro he
        cases he
        exact absurd hv (by decide)
      rw [hf₁ _ hv0]
      exact hfuel _
    rw [Function.update_idem] at hcar
    rw [h60] at hrem
    refine ⟨s', f', cur', _, hrun', hcar.valid, hcar.pushed.trans hpushed,
      h.contents.nodup _, hcar.pending.trans hpend, fun x hx => ?_, hfired, fun x n => ?_⟩
    · refine (hcar.delay x (hpend.symm ▸ hx)).trans ?_
      rw [← hnodes]
      rfl
    · exact (hcar.remaining x (n + 1)).symm.trans (hrem x n)

end RockCoro.TimerManager
