import RockCoro.Timer.Tick
import Mathlib.Data.Finite.Prod
import Mathlib.Data.Set.Finite.Lattice

/-!
# Runs of the timer

A run adds coroutines to the pending list, drains the list into the wheels and ticks, in any order;
it logs what it does. `Inv tr s f cur` is the invariant of a run with the log `tr`, and
`Run.countdown` follows one coroutine from its insertion into a wheel to the tick that pushes it.
-/

namespace RockCoro.TimerManager

open TimeWheelLinkedList

variable {C : Type}

/-- A step of a run: an `add_event`, a round of the drain loop that inserts `c` with the delay `d`,
or a tick with the coroutines it passed to `job_push`. -/
inductive Event (C : Type)
  | add (c : C) (d : ℕ)
  | drain (c : C) (d : ℕ)
  | tick (fired : List C)
  deriving DecidableEq

/-- The coroutines that a step passes to `job_push`. -/
def Event.fired : Event C → List C
  | .tick xs => xs
  | _ => []

/-- The step is a tick. -/
def Event.isTick : Event C → Bool
  | .tick _ => true
  | _ => false

section
variable [DecidableEq C]

/-- The step adds `c`. -/
def Event.isAdd (c : C) : Event C → Bool
  | .add x _ => x = c
  | _ => false

/-- How often `c` was passed to `job_push`. -/
def fires (tr : List (Event C)) (c : C) : ℕ := (tr.flatMap Event.fired).count c

/-- How often `add_event` was called for `c`. -/
def adds (tr : List (Event C)) (c : C) : ℕ := tr.countP (Event.isAdd c)

/-- The number of ticks. -/
def ticks (tr : List (Event C)) : ℕ := tr.countP Event.isTick

/-- The coroutine was added and has not fired since. -/
def Sleeping (tr : List (Event C)) (c : C) : Prop := fires tr c < adds tr c

instance (tr : List (Event C)) (c : C) : Decidable (Sleeping tr c) :=
  inferInstanceAs (Decidable (_ < _))

/-- `add_event` is called for coroutines that are not in the timer, with delays in its range. -/
def Allowed (tr : List (Event C)) : Event C → Prop
  | .add c d => ¬Sleeping tr c ∧ d < 60 * 60 * 60
  | _ => True

/-- A step of the timer. A round of the drain loop that finds the list empty changes nothing. -/
inductive Step (s : TimerManager C) : Event C → TimerManager C → Prop
  | add {c : C} {d : ℕ} {s'} (h : s.addEvent c d = .ok s') : Step s (.add c d) s'
  | drain {c : C} {d : ℕ} {s'} (h : s.drainOne = .ok (some c, s')) (hd : (s.nodes c).delayMS = d) :
    Step s (.drain c d) s'
  | tick {fuel : ℕ} {s'} {xs} (h : s.tick fuel = .ok s') (hxs : s'.pushed = s.pushed ++ xs) :
    Step s (.tick xs) s'

/-- The runs of the timer from `init`, with their logs. -/
inductive Run : List (Event C) → TimerManager C → Prop
  | init (nodes : C → TimeWheelLinkedListNode C) : Run [] (init nodes)
  | step {tr s e s'} (hr : Run tr s) (ha : Allowed tr e) (hs : Step s e s') : Run (tr ++ [e]) s'

instance (tr : List (Event C)) : ∀ e, Decidable (Allowed tr e)
  | .add _ _ => inferInstanceAs (Decidable (_ ∧ _))
  | .drain .. | .tick _ => .isTrue trivial

/-- What a thread asks of the timer, to run it step by step. -/
inductive Call (C : Type)
  | add (c : C) (d : ℕ)
  | drain
  | tick

/-- The step that a call takes, if it is one, and what is logged of it. -/
def exec (s : TimerManager C) : Call C → Option (Event C × TimerManager C)
  | .add c d => (s.addEvent c d).toOption.map fun s' => (.add c d, s')
  | .drain => do
    let (o, s') ← s.drainOne.toOption
    let c ← o
    let d := (s.nodes c).delayMS.toNat
    if (s.nodes c).delayMS = d then some (.drain c d, s') else none
  | .tick => do
    let s' ← (s.tick 60).toOption
    let xs := s'.pushed.drop s.pushed.length
    if s'.pushed = s.pushed ++ xs then some (.tick xs, s') else none

/-- The log and the state after some calls. -/
def execAll : List (Event C) → TimerManager C → List (Call C) →
    Option (List (Event C) × TimerManager C)
  | tr, s, [] => some (tr, s)
  | tr, s, a :: as => do
    let (e, s') ← s.exec a
    if Allowed tr e then execAll (tr ++ [e]) s' as else none

end

variable {s s' : TimerManager C} {f f' : Place → List C} {cur cur' : Fin TIMEWHEEL_NUM_WHEELS → ℕ}
  {tr t₁ t₂ : List (Event C)} {e : Event C} {c x : C} {xs : List C} {d n fuel : ℕ}
  [DecidableEq C]

/-! ## Execution -/

/-- What is logged of a call of `add_event`. -/
theorem eq_add_of_exec (h : s.exec (.add c d) = some (e, s')) : e = .add c d := by
  obtain ⟨s₁, -, h⟩ := Option.map_eq_some_iff.1 h
  cases h
  rfl

/-- What is logged of a round of the drain loop. -/
theorem eq_drain_of_exec (h : s.exec .drain = some (e, s')) : ∃ c d, e = .drain c d := by
  obtain ⟨⟨o, s₁⟩, -, h⟩ := Option.bind_eq_some_iff.1 h
  obtain ⟨c, -, h⟩ := Option.bind_eq_some_iff.1 h
  obtain ⟨-, h⟩ := Option.ite_none_right_eq_some.1 h
  cases h
  exact ⟨c, _, rfl⟩

/-- What is logged of a tick. -/
theorem eq_tick_of_exec (h : s.exec .tick = some (e, s')) : ∃ xs, e = .tick xs := by
  obtain ⟨s₁, -, h⟩ := Option.bind_eq_some_iff.1 h
  obtain ⟨-, h⟩ := Option.ite_none_right_eq_some.1 h
  cases h
  exact ⟨_, rfl⟩

/-- What is executed is a step. -/
theorem step_of_exec {a : Call C} (h : s.exec a = some (e, s')) : Step s e s' := by
  cases a with
  | add c d =>
    rw [exec] at h
    cases hadd : s.addEvent c d with
    | error =>
      rw [hadd] at h
      cases h
    | ok s₁ =>
      rw [hadd] at h
      cases h
      exact .add hadd
  | drain =>
    rw [exec] at h
    cases hdrain : s.drainOne with
    | error =>
      rw [hdrain] at h
      cases h
    | ok p =>
      obtain ⟨o, s₁⟩ := p
      rw [hdrain] at h
      cases o with
      | none => cases h
      | some c =>
        obtain ⟨hd, h⟩ := Option.ite_none_right_eq_some.1 h
        cases h
        exact .drain hdrain hd
  | tick =>
    rw [exec] at h
    cases htick : s.tick 60 with
    | error =>
      rw [htick] at h
      cases h
    | ok s₁ =>
      rw [htick] at h
      obtain ⟨hxs, h⟩ := Option.ite_none_right_eq_some.1 h
      cases h
      exact .tick htick hxs

/-- Calls that went well one after the other make a run. -/
theorem Run.of_execAll {as : List (Call C)} (hr : Run tr s) (h : execAll tr s as = some (t₁, s')) :
    Run t₁ s' := by
  induction as generalizing tr s with
  | nil =>
    cases h
    exact hr
  | cons a as ih =>
    rw [execAll] at h
    obtain ⟨⟨e, s₁⟩, hs, h⟩ := Option.bind_eq_some_iff.1 h
    obtain ⟨ha, h⟩ := Option.ite_none_right_eq_some.1 h
    exact ih (hr.step ha (step_of_exec hs)) h

/-! ## The log -/

@[simp] theorem fires_nil : fires [] c = 0 := rfl

@[simp] theorem fires_append : fires (t₁ ++ t₂) c = fires t₁ c + fires t₂ c := by
  simp [fires]

@[simp] theorem fires_singleton : fires [e] c = e.fired.count c := by
  simp [fires]

@[simp] theorem adds_nil : adds [] c = 0 := rfl

@[simp] theorem adds_append : adds (t₁ ++ t₂) c = adds t₁ c + adds t₂ c := by
  simp [adds]

@[simp] theorem adds_singleton : adds [e] c = if e.isAdd c then 1 else 0 := by
  simp [adds, List.countP_cons]

omit [DecidableEq C] in
@[simp] theorem ticks_append : ticks (t₁ ++ t₂) = ticks t₁ + ticks t₂ := by
  simp [ticks]

omit [DecidableEq C] in
@[simp] theorem ticks_singleton : ticks [e] = if e.isTick then 1 else 0 := by
  simp [ticks, List.countP_cons]

/-! ## The invariant -/

/-- The invariant of a run with the log `tr`: a coroutine is in the timer as often as it was added
and has not fired. -/
structure Inv (tr : List (Event C)) (s : TimerManager C) (f : Place → List C)
    (cur : Fin TIMEWHEEL_NUM_WHEELS → ℕ) : Prop where
  valid : s.Valid f cur
  inside : ∀ {c p}, c ∈ f p → adds tr c = fires tr c + 1
  outside : ∀ {c}, (∀ p, c ∉ f p) → adds tr c = fires tr c
  range : ∀ c ∈ f .pending, ∃ d : ℕ, d < 216000 ∧ (s.nodes c).delayMS = d
  pushed : s.pushed = tr.flatMap Event.fired

/-- The sleeping coroutines are those in a list. -/
theorem Inv.sleeping_iff (h : Inv tr s f cur) : Sleeping tr c ↔ ∃ p, c ∈ f p := by
  constructor
  · intro hs
    by_contra hc
    exact absurd (h.outside fun p hp => hc ⟨p, hp⟩) hs.ne'
  · rintro ⟨p, hp⟩
    have := h.inside hp
    exact Nat.lt_of_lt_of_eq (Nat.lt_succ_self _) this.symm

/-- What a step does to the coroutines in the wheels, to those that fire, and to those that are not
in the timer. -/
structure Effect (s s' : TimerManager C) (f f' : Place → List C)
    (cur cur' : Fin TIMEWHEEL_NUM_WHEELS → ℕ) (e : Event C) : Prop where
  quiet : e.isTick = false → ∀ c n, Remaining s f cur c n → Remaining s' f' cur' c n
  tick : e.isTick = true → ∀ c n, Remaining s f cur c (n + 2) → Remaining s' f' cur' c (n + 1)
  fired : ∀ c, c ∈ e.fired ↔ e.isTick = true ∧ Remaining s f cur c 1
  nodup : e.fired.Nodup
  gone : ∀ c, e.isAdd c = false → (∀ p, c ∉ f p) ∨ c ∈ e.fired → ∀ p, c ∉ f' p
  drained : ∀ c d, e = .drain c d → Remaining s' f' cur' c (d + 1 + late cur d)

/-- `add_event` puts the coroutine into the pending list. -/
theorem Inv.add (h : Inv tr s f cur) (ha : Allowed tr (.add c d))
    (hs : s.addEvent c d = .ok s') :
    ∃ f' cur', Inv (tr ++ [.add c d]) s' f' cur' ∧ Effect s s' f f' cur cur' (.add c d) := by
  obtain ⟨hsleep, hlt⟩ := ha
  have hc : ∀ p, c ∉ f p := fun p hp => hsleep (h.sleeping_iff.2 ⟨p, hp⟩)
  obtain ⟨s₁, hrun, hvalid, hpushed, hdelay, hother⟩ := h.valid.addEvent (k := d) hc
  obtain rfl : s₁ = s' := Except.ok.inj (hrun.symm.trans hs)
  obtain ⟨f', hf'⟩ : ∃ f', f' = Function.update f .pending (f .pending ++ [c]) := ⟨_, rfl⟩
  rw [← hf'] at hvalid
  have hmem : ∀ x, x ≠ c → ∀ p, x ∈ f' p ↔ x ∈ f p := by
    intro x hx p
    rw [hf']
    exact mem_update_append hx
  have hcf : c ∈ f' .pending := by
    rw [hf', Function.update_self]
    exact List.mem_append_right _ List.mem_cons_self
  have hne : ∀ {x p}, x ∈ f p → x ≠ c := fun hx he => hc _ (he ▸ hx)
  refine ⟨f', cur, ⟨hvalid, ?_, ?_, ?_, ?_⟩, ⟨?_, ?_, ?_, ?_, ?_, ?_⟩⟩
  · intro x p hx
    rcases eq_or_ne x c with rfl | hxc
    · simp [Event.fired, Event.isAdd, h.outside hc]
    · simp [Event.fired, Event.isAdd, hxc.symm, h.inside ((hmem x hxc p).1 hx)]
  · intro x hx
    have hxc : x ≠ c := fun he => hx .pending (he ▸ hcf)
    simp [Event.fired, Event.isAdd, hxc.symm, h.outside fun p hp => hx p ((hmem x hxc p).2 hp)]
  · intro x hx
    rcases eq_or_ne x c with rfl | hxc
    · exact ⟨d, hlt, hdelay⟩
    · rw [hother x hxc]
      exact h.range x ((hmem x hxc _).1 hx)
  · simp [hpushed, h.pushed, Event.fired]
  · rintro - x n ⟨w, i, hx, hn⟩
    refine ⟨w, i, (hmem x (hne hx) _).2 hx, ?_⟩
    rwa [hother x (hne hx)]
  · intro htick
    cases htick
  · simp [Event.fired, Event.isTick]
  · exact List.nodup_nil
  · intro x hx hgone p hp
    have hxc : x ≠ c := by
      rintro rfl
      simp [Event.isAdd] at hx
    rcases hgone with hgone | hfired
    · exact hgone p ((hmem x hxc p).1 hp)
    · cases hfired
  · intro x e he
    cases he

/-- A round of the drain loop puts the coroutine into the slot for its delay. -/
theorem Inv.drain (h : Inv tr s f cur) (hs : s.drainOne = .ok (some c, s'))
    (hd : (s.nodes c).delayMS = d) :
    ∃ f' cur', Inv (tr ++ [.drain c d]) s' f' cur' ∧ Effect s s' f f' cur cur' (.drain c d) := by
  cases hp : f .pending with
  | nil =>
    rw [h.valid.contents.drainOne_nil hp] at hs
    cases hs
  | cons c' xs =>
    obtain ⟨d', hlt, hd'⟩ := h.range c' (hp ▸ List.mem_cons_self)
    obtain ⟨s₁, f', hrun, hvalid, hpushed, hdelay, hpend, hrem, hmem⟩ :=
      h.valid.drainOne_nat hp hd' hlt
    rw [hrun] at hs
    cases hs
    obtain rfl : d' = d := Int.ofNat.inj (hd'.symm.trans hd)
    obtain ⟨w₀, i₀, hcf, -⟩ := id hrem
    have hc : c ∈ f .pending := hp ▸ List.mem_cons_self
    have hin : ∀ {x}, (∃ p, x ∈ f' p) ↔ ∃ p, x ∈ f p := by
      intro x
      rcases eq_or_ne x c with rfl | hxc
      · exact ⟨fun _ => ⟨_, hc⟩, fun _ => ⟨_, hcf⟩⟩
      · exact ⟨fun ⟨p, hx⟩ => ⟨p, (hmem x hxc p).1 hx⟩, fun ⟨p, hx⟩ => ⟨p, (hmem x hxc p).2 hx⟩⟩
    refine ⟨f', cur, ⟨hvalid, ?_, ?_, ?_, ?_⟩, ⟨?_, ?_, ?_, ?_, ?_, ?_⟩⟩
    · intro x p hx
      obtain ⟨q, hq⟩ := hin.1 ⟨p, hx⟩
      simp [Event.fired, Event.isAdd, h.inside hq]
    · intro x hx
      have hx' : ∀ p, x ∉ f p := by
        intro p hp
        obtain ⟨q, hq⟩ := hin.2 ⟨p, hp⟩
        exact hx q hq
      simp [Event.fired, Event.isAdd, h.outside hx']
    · intro x hx
      rw [hdelay]
      rw [hpend] at hx
      exact h.range x (hp ▸ List.mem_cons_of_mem _ hx)
    · simp [hpushed, h.pushed, Event.fired]
    · rintro - x n ⟨w, i, hx, hn⟩
      have hxc : x ≠ c := by
        rintro rfl
        cases h.valid.contents.disjoint hc hx
      refine ⟨w, i, (hmem x hxc _).2 hx, ?_⟩
      rwa [hdelay]
    · intro htick
      cases htick
    · simp [Event.fired, Event.isTick]
    · exact List.nodup_nil
    · intro x _ hgone p hx
      rcases hgone with hgone | hfired
      · obtain ⟨q, hq⟩ := hin.1 ⟨p, hx⟩
        exact hgone q hq
      · cases hfired
    · intro x e he
      cases he
      exact hrem

omit [DecidableEq C] in
/-- A bound for the loops of a tick. -/
theorem exists_fuel (f : Place → List C) : ∃ fuel, ∀ p, (f p).length < fuel := by
  obtain ⟨k, hk⟩ := (Set.finite_range fun wi : Fin TIMEWHEEL_NUM_WHEELS ×
    Fin TIMEWHEEL_NUM_SLOTS_PER_WHEEL => (f (.slot wi.1 wi.2)).length).bddAbove
  refine ⟨max k (f .pending).length + 1, fun p => ?_⟩
  cases p with
  | pending => exact Nat.lt_succ_of_le (le_max_right _ _)
  | slot w i => exact Nat.lt_succ_of_le ((hk ⟨(w, i), rfl⟩).trans (le_max_left _ _))

omit [DecidableEq C] in
/-- After a tick the coroutines that it did not push are in the timer. -/
theorem Ticked.mem_iff (ht : Ticked s s' f f' cur cur' xs) (hv : s.Valid f cur) :
    (∃ p, c ∈ f' p) ↔ (∃ p, c ∈ f p) ∧ c ∉ xs := by
  constructor
  · rintro ⟨p, hp⟩
    cases p with
    | pending =>
      rw [ht.pending] at hp
      refine ⟨⟨_, hp⟩, fun hx => ?_⟩
      obtain ⟨w, i, hm, -⟩ := (ht.fired c).1 hx
      cases hv.contents.disjoint hp hm
    | slot w i =>
      obtain ⟨n, hn⟩ : ∃ n, due cur' w i (s'.nodes c).delayMS.toNat = n + 1 :=
        Nat.exists_eq_succ_of_ne_zero due_pos.ne'
      obtain ⟨w', i', hm, hdue⟩ := (ht.remaining c n).1 ⟨w, i, hp, hn⟩
      refine ⟨⟨_, hm⟩, fun hx => ?_⟩
      rw [(hv.contents.remaining_iff hm).1 ((ht.fired c).1 hx)] at hdue
      cases hdue
  · rintro ⟨⟨p, hp⟩, hx⟩
    cases p with
    | pending => exact ⟨.pending, ht.pending ▸ hp⟩
    | slot w i =>
      obtain ⟨n, hn⟩ : ∃ n, due cur w i (s.nodes c).delayMS.toNat = n + 1 :=
        Nat.exists_eq_succ_of_ne_zero due_pos.ne'
      cases n with
      | zero => exact absurd ((ht.fired c).2 ⟨w, i, hp, hn⟩) hx
      | succ n =>
        obtain ⟨w', i', hm, -⟩ := (ht.remaining c n).2 ⟨w, i, hp, hn⟩
        exact ⟨_, hm⟩

/-- A tick brings every coroutine in the wheels one tick nearer, and those at one fire. -/
theorem Inv.ticked (h : Inv tr s f cur) (ht : Ticked s s' f f' cur cur' xs) :
    Inv (tr ++ [.tick xs]) s' f' cur' ∧ Effect s s' f f' cur cur' (.tick xs) := by
  have hin : ∀ {c}, (∃ p, c ∈ f' p) ↔ (∃ p, c ∈ f p) ∧ c ∉ xs := ht.mem_iff h.valid
  refine ⟨⟨ht.valid, ?_, ?_, ?_, ?_⟩, ⟨?_, ?_, ?_, ht.nodup, ?_, ?_⟩⟩
  · intro c p hc
    obtain ⟨⟨q, hq⟩, hxs⟩ := hin.1 ⟨p, hc⟩
    simp [Event.fired, Event.isAdd, h.inside hq, List.count_eq_zero_of_not_mem hxs]
  · intro c hc
    have hnot : ¬((∃ p, c ∈ f p) ∧ c ∉ xs) := fun hboth => by
      obtain ⟨p, hp⟩ := hin.2 hboth
      exact hc p hp
    by_cases hxs : c ∈ xs
    · obtain ⟨w, i, hm, -⟩ := (ht.fired c).1 hxs
      simp [Event.fired, Event.isAdd, h.inside hm, List.count_eq_one_of_mem ht.nodup hxs]
    · have hout : ∀ p, c ∉ f p := fun p hp => hnot ⟨⟨p, hp⟩, hxs⟩
      simp [Event.fired, Event.isAdd, h.outside hout, List.count_eq_zero_of_not_mem hxs]
  · intro c hc
    rw [ht.pending] at hc
    rw [ht.delay c hc]
    exact h.range c hc
  · simp [ht.pushed, h.pushed, Event.fired]
  · intro htick
    cases htick
  · intro _ c n hc
    exact (ht.remaining c n).2 hc
  · intro c
    exact ⟨fun hc => ⟨rfl, (ht.fired c).1 hc⟩, fun hc => (ht.fired c).2 hc.2⟩
  · rintro c - hgone p hp
    obtain ⟨⟨q, hq⟩, hxs⟩ := hin.1 ⟨p, hp⟩
    rcases hgone with hgone | hfired
    · exact hgone q hq
    · exact hxs hfired
  · intro c d he
    cases he

/-- The same for a tick of the code, which ends in one state only. -/
theorem Inv.tick (h : Inv tr s f cur) (hs : s.tick fuel = .ok s')
    (hxs : s'.pushed = s.pushed ++ xs) :
    ∃ f' cur', Inv (tr ++ [.tick xs]) s' f' cur' ∧ Effect s s' f f' cur cur' (.tick xs) := by
  obtain ⟨k, hk⟩ := exists_fuel f
  have hmax : ∀ p, (f p).length < max fuel k := fun p => (hk p).trans_le (le_max_right _ _)
  obtain ⟨s₁, f', cur', ys, hrun, ht⟩ := h.valid.tick hmax
  obtain rfl : s₁ = s' :=
    Except.ok.inj (hrun.symm.trans (tickAt_fuel hs (le_max_left _ _)))
  obtain rfl : ys = xs := List.append_cancel_left (ht.pushed.symm.trans hxs)
  exact ⟨f', cur', h.ticked ht⟩

/-- What one step preserves. -/
theorem Inv.step (h : Inv tr s f cur) (ha : Allowed tr e) (hs : Step s e s') :
    ∃ f' cur', Inv (tr ++ [e]) s' f' cur' ∧ Effect s s' f f' cur cur' e := by
  cases hs with
  | add hs => exact h.add ha hs
  | drain hs hd => exact h.drain hs hd
  | tick hs hxs => exact h.tick hs hxs

/-- At first nothing was added. -/
theorem Inv.init (nodes : C → TimeWheelLinkedListNode C) :
    Inv [] (init nodes) (fun _ => []) (fun _ => 0) :=
  ⟨valid_init nodes, fun hc => (List.not_mem_nil hc).elim, fun _ => rfl,
    fun _ hc => (List.not_mem_nil hc).elim, rfl⟩

/-- The invariant holds at the end of every run. -/
theorem Run.inv (hr : Run tr s) : ∃ f cur, Inv tr s f cur := by
  induction hr with
  | init nodes => exact ⟨_, _, .init nodes⟩
  | step _ ha hs ih =>
    obtain ⟨f, cur, h⟩ := ih
    obtain ⟨f', cur', h', -⟩ := h.step ha hs
    exact ⟨f', cur', h'⟩

/-! ## The countdown -/

/-- The coroutine waits in the wheels for tick `n` of a count that stands at `k`, or it has fired
and is not in the timer. -/
def Waiting (s : TimerManager C) (f : Place → List C) (cur : Fin TIMEWHEEL_NUM_WHEELS → ℕ)
    (t : List (Event C)) (c : C) (n : ℕ) : Prop :=
  (fires t c = 0 ∧ ∃ m, ticks t + (m + 1) = n ∧ Remaining s f cur c (m + 1)) ∨
    (fires t c = 1 ∧ n ≤ ticks t ∧ ∀ p, c ∉ f p)

/-- What one step does to the ticks that remain for a coroutine. -/
theorem Waiting.step (hw : Waiting s f cur t₂ c n) (he : Effect s s' f f' cur cur' e)
    (hcont : s.Contents f) (hadd : e.isAdd c = false) : Waiting s' f' cur' (t₂ ++ [e]) c n := by
  rcases hw with ⟨hf, m, hm, hrem⟩ | ⟨hf, hle, hout⟩
  · cases htick : e.isTick with
    | false =>
      have hc : c ∉ e.fired := fun hc => absurd ((he.fired c).1 hc).1 (by simp [htick])
      refine .inl ⟨?_, m, ?_, he.quiet htick _ _ hrem⟩
      · simp [hf, List.count_eq_zero_of_not_mem hc]
      · simpa [htick] using hm
    | true =>
      cases m with
      | zero =>
        have hc : c ∈ e.fired := (he.fired c).2 ⟨htick, hrem⟩
        refine .inr ⟨?_, ?_, he.gone c hadd (.inr hc)⟩
        · simp [hf, List.count_eq_one_of_mem he.nodup hc]
        · simp [htick]
          omega
      | succ m =>
        have hc : c ∉ e.fired := by
          intro hc
          obtain ⟨w, i, hmem, hdue⟩ := hrem
          have h1 := (hcont.remaining_iff hmem).1 ((he.fired c).1 hc).2
          omega
        refine .inl ⟨?_, m, ?_, he.tick htick _ _ hrem⟩
        · simp [hf, List.count_eq_zero_of_not_mem hc]
        · simp [htick]
          omega
  · have hc : c ∉ e.fired := by
      intro hc
      obtain ⟨-, w, i, hmem, -⟩ := (he.fired c).1 hc
      exact hout _ hmem
    refine .inr ⟨?_, ?_, he.gone c hadd (.inl hout)⟩
    · simp [hf, List.count_eq_zero_of_not_mem hc]
    · rw [ticks_append]
      exact hle.trans (Nat.le_add_right _ _)

/-- The last step of a run. -/
theorem Run.of_append (hr : Run (tr ++ [e]) s') : ∃ s, Run tr s ∧ Allowed tr e ∧ Step s e s' := by
  generalize ht : tr ++ [e] = t at hr
  cases hr with
  | init nodes => simp at ht
  | step hr ha hs =>
    obtain ⟨rfl, he⟩ := List.append_inj' ht rfl
    obtain rfl := List.singleton_inj.1 he
    exact ⟨_, hr, ha, hs⟩

/-- From its insertion on, a coroutine counts down the ticks that the insertion gave it. -/
theorem Run.countdown (hr : Run (t₁ ++ .drain c d :: t₂) s) (hadd : ∀ d', .add c d' ∉ t₂) :
    ∃ f cur cur₀, Inv (t₁ ++ .drain c d :: t₂) s f cur ∧ (∀ w, cur₀ w < 60) ∧
      Waiting s f cur t₂ c (d + 1 + late cur₀ d) := by
  induction t₂ using List.reverseRecOn generalizing s with
  | nil =>
    obtain ⟨s₀, hr₀, ha, hs⟩ := hr.of_append
    obtain ⟨f, cur, h⟩ := hr₀.inv
    obtain ⟨f', cur', h', he⟩ := h.step ha hs
    have hN : d + late cur d + 1 = d + 1 + late cur d := by omega
    refine ⟨f', cur', cur, h', h.valid.cur_lt, .inl ⟨rfl, d + late cur d, ?_, ?_⟩⟩
    · rw [hN]
      exact Nat.zero_add _
    · rw [hN]
      exact he.drained c d rfl
  | append_singleton t₂ e ih =>
    rw [← List.cons_append, ← List.append_assoc] at hr
    obtain ⟨s₀, hr₀, ha, hs⟩ := hr.of_append
    obtain ⟨f, cur, cur₀, h, hcur₀, hw⟩ := ih hr₀ fun d' hm => hadd d' (List.mem_append_left _ hm)
    obtain ⟨f', cur', h', he⟩ := h.step ha hs
    have hadd' : e.isAdd c = false := by
      cases e with
      | add x d' =>
        have hxc : x ≠ c := fun hx => hadd d' (by simp [hx])
        simp [Event.isAdd, hxc]
      | drain x d' => rfl
      | tick xs => rfl
    refine ⟨f', cur', cur₀, ?_, hcur₀, hw.step he h.valid.contents hadd'⟩
    rwa [← List.cons_append, ← List.append_assoc]

/-- A run up to an earlier point is a run. -/
theorem Run.of_append_left (hr : Run (t₁ ++ t₂) s) : ∃ s', Run t₁ s' := by
  induction t₂ using List.reverseRecOn generalizing s with
  | nil => exact ⟨s, by simpa using hr⟩
  | append_singleton t₂ e ih =>
    rw [← List.append_assoc] at hr
    obtain ⟨s₀, hr₀, -, -⟩ := hr.of_append
    exact ih hr₀

/-- The tick that pushes a coroutine is the one after `d + late` others. -/
theorem Run.fires_at (hr : Run (t₁ ++ .drain c d :: (t₂ ++ .tick xs :: tr)) s)
    (hadd : ∀ d', .add c d' ∉ t₂) :
    ∃ cur₀, (∀ w, cur₀ w < 60) ∧ (c ∈ xs ↔ ticks t₂ = d + late cur₀ d) := by
  have hsplit : t₁ ++ .drain c d :: (t₂ ++ .tick xs :: tr) =
      (t₁ ++ .drain c d :: t₂) ++ [.tick xs] ++ tr := by simp
  rw [hsplit] at hr
  obtain ⟨s₁, hr₁⟩ := hr.of_append_left
  obtain ⟨s₀, hr₀, ha, hs⟩ := hr₁.of_append
  obtain ⟨f, cur, cur₀, h, hcur₀, hw⟩ := hr₀.countdown hadd
  obtain ⟨f', cur', -, he⟩ := h.step ha hs
  refine ⟨cur₀, hcur₀, (he.fired c).trans ?_⟩
  rcases hw with ⟨-, m, hm, hrem⟩ | ⟨-, hle, hout⟩
  · constructor
    · rintro ⟨-, hrem'⟩
      obtain ⟨w, i, hmem, hdue⟩ := hrem
      have h1 := (h.valid.contents.remaining_iff hmem).1 hrem'
      omega
    · intro ht
      obtain rfl : m = 0 := by omega
      exact ⟨rfl, hrem⟩
  · constructor
    · rintro ⟨-, w, i, hmem, -⟩
      exact absurd hmem (hout _)
    · intro ht
      omega

/-! ## Every run -/

/-- A node that was never used. -/
def unusedNode : TimeWheelLinkedListNode C := ⟨none, 0⟩

/-- The ticks after two insertions with the delays `60` and `3`: the wheel above moves a coroutine
down when the lowest one wraps, so that it is pushed in tick `121`. -/
def ticksOfTwo : List (Event Bool) :=
  List.replicate 3 (.tick []) ++ .tick [false] :: List.replicate 116 (.tick []) ++ [.tick [true]]

/-- Two coroutines sleep, and one of them cascades. -/
theorem exists_run_two : ∃ s,
    Run ([.add true 60, .add false 3] ++ .drain true 60 :: .drain false 3 :: ticksOfTwo) s := by
  have hexec : (execAll [] (init fun _ : Bool => unusedNode)
      ([.add true 60, .add false 3, .drain, .drain] ++ List.replicate 121 .tick)).any fun p =>
        decide (p.1 = [.add true 60, .add false 3] ++ .drain true 60 :: .drain false 3 ::
          ticksOfTwo) := by
    decide +kernel
  obtain ⟨⟨tr, s⟩, hrun, htr⟩ := (Option.any_eq_true _ _).1 hexec
  have htr := of_decide_eq_true htr
  exact ⟨s, htr ▸ (Run.init _).of_execAll hrun⟩

/-- In every run: the coroutines that were added and have not fired are each in one list, once, and
no others are; no step of the timer fails; and a coroutine that was inserted with the delay `d` is
pushed once, by none of the next `d` ticks and by one of the next `d + 1 + 3660`. -/
theorem run_wakes_once (hr : Run tr s) :
    (∃ f, s.Contents f ∧ (∀ c, Sleeping tr c → ∃ p, (f p).count c = 1 ∧ ∀ q, q ≠ p → c ∉ f q) ∧
      ∀ c, ¬Sleeping tr c → ∀ p, c ∉ f p) ∧
    s.pushed = tr.flatMap Event.fired ∧
    ((∃ fuel s', s.tick fuel = .ok s') ∧ (∃ o s', s.drainOne = .ok (o, s')) ∧
      ∀ c (d : ℕ), Allowed tr (.add c d) → ∃ s', s.addEvent c d = .ok s') ∧
    ∀ t₁ c d t₂, tr = t₁ ++ .drain c d :: t₂ → (∀ d', .add c d' ∉ t₂) →
      fires t₂ c ≤ 1 ∧ (ticks t₂ ≤ d → fires t₂ c = 0) ∧
        (d + 1 + 3660 ≤ ticks t₂ → fires t₂ c = 1) ∧ (Sleeping tr c ↔ fires t₂ c = 0) := by
  obtain ⟨f, cur, h⟩ := hr.inv
  refine ⟨⟨f, h.valid.contents, fun c hc => ?_, fun c hc p hp => ?_⟩, h.pushed,
    ⟨?_, ?_, fun c d ha => ?_⟩, ?_⟩
  · obtain ⟨p, hp⟩ := h.sleeping_iff.1 hc
    refine ⟨p, List.count_eq_one_of_mem (h.valid.contents.nodup p) hp, fun q hq hm => ?_⟩
    exact hq (h.valid.contents.disjoint hm hp)
  · exact hc (h.sleeping_iff.2 ⟨p, hp⟩)
  · obtain ⟨fuel, hfuel⟩ := exists_fuel f
    obtain ⟨s', -, -, -, hrun, -⟩ := h.valid.tick hfuel
    exact ⟨fuel, s', hrun⟩
  · cases hp : f .pending with
    | nil => exact ⟨none, s, h.valid.contents.drainOne_nil hp⟩
    | cons c xs =>
      obtain ⟨d, hlt, hd⟩ := h.range c (hp ▸ List.mem_cons_self)
      obtain ⟨s', -, hrun, -⟩ := h.valid.drainOne_nat hp hd hlt
      exact ⟨some c, s', hrun⟩
  · obtain ⟨s', hrun, -⟩ := h.valid.addEvent (c := c) (k := d)
      fun p hp => ha.1 (h.sleeping_iff.2 ⟨p, hp⟩)
    exact ⟨s', hrun⟩
  · rintro t₁ c d t₂ rfl hadd
    obtain ⟨f, cur, cur₀, h, -, hw⟩ := hr.countdown hadd
    have hlate : late cur₀ d ≤ 3660 := late_le
    rcases hw with ⟨hf, m, hm, w, i, hmem, -⟩ | ⟨hf, hle, hout⟩
    · refine ⟨by omega, fun _ => hf, fun ht => by omega, fun _ => hf, fun _ => ?_⟩
      exact h.sleeping_iff.2 ⟨_, hmem⟩
    · refine ⟨hf.le, fun ht => by omega, fun _ => hf, fun hs => ?_, fun h0 => by omega⟩
      obtain ⟨p, hp⟩ := h.sleeping_iff.1 hs
      exact absurd hp (hout p)

/-- The delay of `true` sends it to an upper wheel first; `false` fires from the lowest one. -/
theorem run_wakes_once_two : ∃ s : TimerManager Bool, s.pushed = [false, true] ∧
    fires (.drain false 3 :: ticksOfTwo) true = 1 ∧ fires ticksOfTwo false = 1 := by
  obtain ⟨s, hr⟩ := exists_run_two
  obtain ⟨-, hpushed, -, htime⟩ := run_wakes_once hr
  refine ⟨s, hpushed, ?_, ?_⟩
  · obtain ⟨hle, -, -, hsleep⟩ := htime [.add true 60, .add false 3] true 60
      (.drain false 3 :: ticksOfTwo) rfl (by simp [ticksOfTwo])
    exact le_antisymm hle (Nat.pos_of_ne_zero fun h0 => absurd (hsleep.2 h0) (by decide))
  · obtain ⟨hle, -, -, hsleep⟩ := htime [.add true 60, .add false 3, .drain true 60] false 3
      ticksOfTwo rfl (by simp [ticksOfTwo])
    exact le_antisymm hle (Nat.pos_of_ne_zero fun h0 => absurd (hsleep.2 h0) (by decide))

omit [DecidableEq C] in
/-- Only the delays in the span of the lowest wheel are in time. -/
theorem late_eq_zero_iff (hcur : cur 0 < 60) : late cur d = 0 ↔ d < 60 := by
  unfold late
  split
  · omega
  · split <;> omega

omit [DecidableEq C] in
/-- The tick number `d` of a run that has it. -/
theorem exists_tick (h : d < ticks tr) : ∃ u xs v, tr = u ++ .tick xs :: v ∧ ticks u = d := by
  induction tr generalizing d with
  | nil => exact absurd h (Nat.not_lt_zero d)
  | cons e tr ih =>
    rw [← List.singleton_append, ticks_append, ticks_singleton] at h
    cases htick : e.isTick with
    | false =>
      obtain ⟨u, xs, v, rfl, hu⟩ := ih (d := d) (by simpa [htick] using h)
      refine ⟨e :: u, xs, v, rfl, ?_⟩
      rw [← List.singleton_append, ticks_append, ticks_singleton, hu]
      simp [htick]
    | true =>
      obtain ⟨xs, rfl⟩ : ∃ xs, e = .tick xs := by
        cases e with
        | tick xs => exact ⟨xs, rfl⟩
        | add c d => cases htick
        | drain c d => cases htick
      cases d with
      | zero => exact ⟨[], xs, tr, rfl, rfl⟩
      | succ d =>
        obtain ⟨u, ys, v, rfl, hu⟩ := ih (d := d) (by simp [Event.isTick] at h; omega)
        refine ⟨.tick xs :: u, ys, v, rfl, ?_⟩
        rw [← List.singleton_append, ticks_append, ticks_singleton, hu]
        simp [Event.isTick]
        omega

/-- After its insertion with delay `d`, the coroutine is pushed during the tick number `d + 1` and
no other. -/
def OnTime (t : List (Event C)) (c : C) (d : ℕ) : Prop :=
  ∀ u xs v, t = u ++ .tick xs :: v → (c ∈ xs ↔ ticks u = d)

/-- A coroutine is pushed on time exactly if its delay is in the span of the lowest wheel: the
upper wheels do not count how far the cursors below them have come. -/
theorem run_onTime_iff (hr : Run (t₁ ++ .drain c d :: t₂) s) (hadd : ∀ d', .add c d' ∉ t₂)
    (hticks : d < ticks t₂) : OnTime t₂ c d ↔ d < 60 := by
  constructor
  · intro htime
    obtain ⟨u, xs, v, rfl, hu⟩ := exists_tick hticks
    obtain ⟨cur₀, hcur₀, hfires⟩ := hr.fires_at fun d' hm => hadd d' (List.mem_append_left _ hm)
    have hlate := hfires.1 ((htime u xs v rfl).2 hu)
    exact (late_eq_zero_iff (hcur₀ 0)).1 (by omega)
  · rintro hd u xs v rfl
    obtain ⟨cur₀, hcur₀, hfires⟩ := hr.fires_at fun d' hm => hadd d' (List.mem_append_left _ hm)
    rw [hfires, (late_eq_zero_iff (hcur₀ 0)).2 hd, Nat.add_zero]

/-- On fresh wheels the delay of `true` is just out of the span, and that of `false` is in it. -/
theorem run_onTime_iff_two : (OnTime (.drain false 3 :: ticksOfTwo) true 60 ↔ 60 < 60) ∧
    (OnTime ticksOfTwo false 3 ↔ 3 < 60) := by
  obtain ⟨s, hr⟩ := exists_run_two
  have hr' : Run ([.add true 60, .add false 3, .drain true 60] ++ .drain false 3 :: ticksOfTwo) s :=
    hr
  exact ⟨run_onTime_iff hr (by simp [ticksOfTwo]) (by decide +kernel),
    run_onTime_iff hr' (by simp [ticksOfTwo]) (by decide +kernel)⟩

/-- Ticks that find nothing due. -/
theorem Run.idle {k : ℕ} (hr : Run tr s) (h : Inv tr s f cur)
    (hk : ∀ c n, Remaining s f cur c n → k < n) :
    ∃ s', Run (tr ++ List.replicate k (.tick [])) s' := by
  induction k generalizing tr s f cur with
  | zero => exact ⟨s, by simpa using hr⟩
  | succ k ih =>
    obtain ⟨fuel, hfuel⟩ := exists_fuel f
    obtain ⟨s₁, f₁, cur₁, xs, hrun, ht⟩ := h.valid.tick hfuel
    obtain rfl : xs = [] := List.eq_nil_iff_forall_not_mem.2 fun c hc =>
      absurd (hk c 1 ((ht.fired c).1 hc)) (by omega)
    obtain ⟨s₂, hr₂⟩ := ih (hr.step (e := .tick []) trivial (.tick hrun ht.pushed))
        (h.ticked ht).1 fun c n hc => by
      cases n with
      | zero =>
        obtain ⟨w, i, -, hdue⟩ := hc
        exact absurd hdue due_pos.ne'
      | succ n =>
        have := hk c _ ((ht.remaining c n).1 hc)
        omega
    exact ⟨s₂, by simpa [List.replicate_succ] using hr₂⟩

/-- Fresh wheels push a coroutine that sleeps for `60` ms later than in tick `61`. -/
theorem not_onTime_sixty :
    ∃ s, Run ([.add () 60] ++ .drain () 60 :: List.replicate 61 (.tick [])) s ∧
      ¬OnTime (List.replicate 61 (.tick [])) () 60 := by
  have hadd : Run [.add () 60] _ :=
    (Run.init fun _ : Unit => unusedNode).step (e := .add () 60) ⟨by decide, by decide⟩ (.add rfl)
  have hdrain : Run ([.add () 60] ++ .drain () 60 :: []) _ :=
    hadd.step (e := .drain () 60) trivial (.drain rfl rfl)
  obtain ⟨f, cur, cur₀, h, hcur₀, hw⟩ := hdrain.countdown (by simp)
  have hlate : late cur₀ 60 ≠ 0 := fun h0 => by
    have := (late_eq_zero_iff (hcur₀ 0)).1 h0
    omega
  obtain ⟨s', hr⟩ := hdrain.idle (k := 61) h fun c n hc => by
    rcases hw with ⟨-, m, hm, w, i, hmem, hdue⟩ | ⟨hf, -, -⟩
    · rw [← (h.valid.contents.remaining_iff hmem).1 hc, hdue]
      simp [ticks] at hm
      omega
    · cases hf
  refine ⟨s', hr, fun htime => ?_⟩
  have hlast := (htime (List.replicate 60 (.tick [])) [] [] rfl).2 (by decide)
  cases hlast

end RockCoro.TimerManager
