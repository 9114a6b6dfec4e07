import RockCoro.Timer.Range

/-!
# A drain of the pending list

The loop of `event_loop` that takes the pending coroutines. `internal_add_event` may throw at a
coroutine that is already unlinked from the pending list, and nothing catches the exception. A drain
keeps every coroutine if and only if no pending delay is overlong (`drain_keeps_iff`).
-/

namespace RockCoro.TimerManager

open TimeWheelLinkedList Chain

variable {C : Type} [DecidableEq C]

/-- The loop, with the exception that leaves it, and the state of that moment: `internal_add_event`
throws before it changes anything. -/
def drain : ℕ → TimerManager C → Option Fault × TimerManager C
  | 0, s => (some .timeout, s)
  | fuel + 1, s =>
    match s.drainOne with
    | .ok (none, s) => (none, s)
    | .ok (some _, s) => drain fuel s
    | .error e => (some e, s.popPendingEvent.2)

/-- The first delay that no wheel covers. -/
abbrev TIMEWHEEL_SPAN : Int :=
  TIMEWHEEL_INTERVAL_MS * TIMEWHEEL_NUM_SLOTS_PER_WHEEL ^ TIMEWHEEL_NUM_WHEELS

/-- Where a coroutine is held: in a list of the timer, or among the coroutines `xs` that were pushed
to the job queue (`none`). -/
def HeldAt (f : Place → List C) (xs : List C) (c : C) : Option Place → Prop
  | some p => c ∈ f p
  | none => c ∈ xs

/-- A drain that loses nothing: every coroutine that was pending is held at one place, and those
behind one with an overlong delay are no longer pending. -/
def Keeps (s s' : TimerManager C) : Prop :=
  ∃ f f' xs, s.Contents f ∧ s'.Contents f' ∧ s'.pushed = s.pushed ++ xs ∧
    (∀ c ∈ f .pending, ∃! q, HeldAt f' xs c q) ∧
    ∀ l₁ r l₂, f .pending = l₁ ++ r :: l₂ → TIMEWHEEL_SPAN ≤ (s.nodes r).delayMS →
      ∀ c ∈ l₂, c ∉ f' .pending

variable {s s' : TimerManager C} {f f' : Place → List C} {cur : Fin TIMEWHEEL_NUM_WHEELS → ℕ}
  {c : C} {fuel : ℕ}

/-- What a drain does. If a delay is overlong, the first such coroutine is lost. -/
structure Drained (s s' : TimerManager C) (f f' : Place → List C) : Prop where
  contents : s'.Contents f'
  pushed : s'.pushed = s.pushed
  sub : ∀ c p, c ∈ f' p → ∃ q, c ∈ f q
  kept : (∀ c ∈ f .pending, (s.nodes c).delayMS < TIMEWHEEL_SPAN) →
    f' .pending = [] ∧ ∀ c p, c ∈ f p → ∃ q, c ∈ f' q
  lost : (∃ c ∈ f .pending, TIMEWHEEL_SPAN ≤ (s.nodes c).delayMS) → ∃ c ∈ f .pending, ∀ p, c ∉ f' p

/-- The drain loop goes on to the first overlong delay, or to the end if there is none. -/
theorem Valid.drain (h : s.Valid f cur) (hpos : ∀ c ∈ f .pending, 0 ≤ (s.nodes c).delayMS)
    (hfuel : (f .pending).length < fuel) : ∃ f', Drained s (drain fuel s).2 f f' := by
  generalize hp : f .pending = xs at hpos hfuel
  induction xs generalizing s f fuel with
  | nil =>
    obtain ⟨fuel, rfl⟩ := Nat.exists_eq_add_one_of_ne_zero (Nat.ne_of_gt hfuel)
    rw [TimerManager.drain, h.contents.drainOne_nil hp]
    refine ⟨f, h.contents, rfl, fun c p hc => ⟨p, hc⟩, fun _ => ⟨hp, fun c p hc => ⟨p, hc⟩⟩, ?_⟩
    rintro ⟨c, hc, -⟩
    rw [hp] at hc
    cases hc
  | cons c xs ih =>
    obtain ⟨fuel, rfl⟩ := Nat.exists_eq_add_one_of_ne_zero
      (Nat.ne_of_gt (Nat.lt_of_le_of_lt (Nat.zero_le _) hfuel))
    obtain ⟨d, hd⟩ := Int.eq_ofNat_of_zero_le (hpos c List.mem_cons_self)
    rcases Nat.lt_or_ge d 216000 with hlt | hge
    · obtain ⟨s₁, f₁, hrun, h₁, hpushed, hdelay, hp₁, ⟨w, i, hslot, -⟩, hstay⟩ :=
        h.drainOne_nat hp hd hlt
      obtain ⟨f', hf'⟩ := ih h₁ hp₁ (fun x hx => hdelay x ▸ hpos x (List.mem_cons_of_mem _ hx))
        (Nat.lt_of_succ_lt_succ hfuel)
      have hfrom : ∀ x p, x ∈ f₁ p → ∃ q, x ∈ f q := by
        intro x p hx
        rcases eq_or_ne x c with rfl | hne
        · exact ⟨.pending, hp ▸ List.mem_cons_self⟩
        · exact ⟨p, (hstay x hne p).1 hx⟩
      have hto : ∀ x p, x ∈ f p → ∃ q, x ∈ f₁ q := by
        intro x p hx
        rcases eq_or_ne x c with rfl | hne
        · exact ⟨_, hslot⟩
        · exact ⟨p, (hstay x hne p).2 hx⟩
      rw [TimerManager.drain, hrun]
      refine ⟨f', hf'.contents, hf'.pushed.trans hpushed, fun x p hx => ?_, fun hall => ?_,
        fun hlong => ?_⟩
      · obtain ⟨q, hq⟩ := hf'.sub x p hx
        exact hfrom x q hq
      · obtain ⟨hnil, hkept⟩ := hf'.kept fun x hx => by
          rw [hdelay]
          exact hall x (hp ▸ List.mem_cons_of_mem _ (hp₁ ▸ hx))
        refine ⟨hnil, fun x p hx => ?_⟩
        obtain ⟨q, hq⟩ := hto x p hx
        exact hkept x q hq
      · obtain ⟨x, hx, hspan⟩ := hlong
        rw [hp] at hx
        have hxs : x ∈ xs := by
          rcases List.mem_cons.1 hx with rfl | hx
          · rw [hd] at hspan
            exact absurd hspan (Int.not_le.2 (Int.ofNat_lt.2 hlt))
          · exact hx
        obtain ⟨y, hy, hout⟩ := hf'.lost ⟨x, hp₁ ▸ hxs, hdelay x ▸ hspan⟩
        exact ⟨y, hp ▸ List.mem_cons_of_mem _ (hp₁ ▸ hy), hout⟩
    · -- `internal_add_event` throws, and the coroutine is in no list
      obtain ⟨s₁, hpop, h₁, hout, hnodes⟩ := h.popPending hp
      have hrun : s.drainOne = .error (.thrown "cannot add event with such long interval") := by
        rw [drainOne_of_pop hpop, insert_long (by rw [hnodes, hd]) hge]
        rfl
      have hlong : TIMEWHEEL_SPAN ≤ (s.nodes c).delayMS := by
        rw [hd]
        exact Int.ofNat_le.2 hge
      rw [TimerManager.drain, hrun]
      change ∃ f', Drained s s.popPendingEvent.2 f f'
      refine ⟨_, ?_, rfl, fun x p hx => ⟨p, ?_⟩, fun hall => ?_, fun _ =>
        ⟨c, hp ▸ List.mem_cons_self, hout⟩⟩
      · rw [hpop]
        exact h₁.contents
      · exact (mem_update_tail hp fun he => hout p (he ▸ hx)).1 hx
      · exact absurd (hall c (hp ▸ List.mem_cons_self)) (Int.not_lt.2 hlong)

omit [DecidableEq C] in
/-- A coroutine that is in no list after the drain is lost: it was not pushed either. -/
theorem Drained.not_keeps (h : Drained s s' f f') (hf : s.Contents f) (hc : c ∈ f .pending)
    (hout : ∀ p, c ∉ f' p) : ¬Keeps s s' := by
  rintro ⟨g, g', xs, hg, hg', hpushed, hheld, -⟩
  obtain rfl := hf.unique hg
  obtain rfl := h.contents.unique hg'
  have hnil : xs = [] := by
    rw [h.pushed] at hpushed
    exact List.self_eq_append_right.1 hpushed
  obtain ⟨q, hq, -⟩ := hheld c hc
  cases q with
  | some p => exact hout p hq
  | none =>
    rw [hnil] at hq
    cases hq

/-- A drain keeps every pending coroutine if and only if the wheels cover every pending delay. -/
theorem drain_keeps_iff (hr : Reachable (fun _ => True) s) (hc : s.Contents f)
    (hpos : ∀ c ∈ f .pending, 0 ≤ (s.nodes c).delayMS) : ∃ n, ∀ fuel, n ≤ fuel →
      (Keeps s (drain fuel s).2 ↔ ∀ c ∈ f .pending, (s.nodes c).delayMS < TIMEWHEEL_SPAN) := by
  obtain ⟨f₁, cur, h⟩ := hr.valid
  obtain rfl := h.contents.unique hc
  refine ⟨(f₁ .pending).length + 1, fun fuel hfuel => ?_⟩
  obtain ⟨f', hdrain⟩ := h.drain hpos hfuel
  constructor
  · intro hkeeps
    by_contra hlong
    simp only [not_forall, not_lt] at hlong
    obtain ⟨c, hmem, hspan⟩ := hlong
    obtain ⟨r, hr, hout⟩ := hdrain.lost ⟨c, hmem, hspan⟩
    exact hdrain.not_keeps hc hr hout hkeeps
  · intro hall
    obtain ⟨hnil, hkept⟩ := hdrain.kept hall
    refine ⟨f₁, f', [], hc, hdrain.contents, hdrain.pushed.trans (List.append_nil _).symm,
      fun c hmem => ?_,
      fun l₁ r l₂ _ _ c _ => hnil ▸ List.not_mem_nil⟩
    obtain ⟨p, hp⟩ := hkept c .pending hmem
    refine ⟨some p, hp, fun q hq => ?_⟩
    cases q with
    | some q => exact congrArg some (hdrain.contents.disjoint hq hp)
    | none => cases hq

/-- On fresh wheels `true` sleeps for `k`, then `false` for `5`. -/
theorem exists_pending (k : Int) : ∃ s : TimerManager Bool,
    ((init fun _ => ⟨none, 0⟩).addEvent true k >>= fun s => s.addEvent false 5) = .ok s ∧
      Reachable (fun _ => True) s ∧ ∃ f cur, s.Valid f cur ∧ f .pending = [true, false] ∧
        (s.nodes true).delayMS = k ∧ (s.nodes false).delayMS = 5 := by
  have h := valid_init fun _ : Bool => ⟨none, 0⟩
  obtain ⟨s₁, hs₁, h₁, -, hk, -⟩ := h.addEvent (c := true) (k := k) fun _ => List.not_mem_nil
  have hout : ∀ p, false ∉ Function.update (fun _ => []) Place.pending ([] ++ [true]) p := by
    intro p
    rcases eq_or_ne p .pending with rfl | hp
    · rw [Function.update_self]
      decide
    · rw [Function.update_of_ne hp]
      exact List.not_mem_nil
  obtain ⟨s₂, hs₂, h₂, -, hk₂, hstay⟩ := h₁.addEvent (c := false) (k := 5) hout
  refine ⟨s₂, by rw [hs₁]; exact hs₂, ?_, _, _, h₂, ?_, (hstay true (by decide)).trans hk, hk₂⟩
  · have hr₁ : Reachable (fun _ => True) s₁ := .add (.init _) trivial (idle_init _) hs₁
    exact .add hr₁ trivial (h₁.contents.idle_iff.2 hout) hs₂
  · rw [Function.update_self, Function.update_self]
    rfl

/-- Both delays are covered, so the drain of `true` and `false` keeps both. -/
theorem drain_keeps_iff_bool : ∃ s : TimerManager Bool,
    ((init fun _ => ⟨none, 0⟩).addEvent true 60 >>= fun s => s.addEvent false 5) = .ok s ∧
      ∃ n, ∀ fuel, n ≤ fuel → Keeps s (drain fuel s).2 := by
  obtain ⟨s, hs, hr, f, cur, h, hpending, htrue, hfalse⟩ := exists_pending 60
  have hdelay : ∀ c ∈ f .pending, 0 ≤ (s.nodes c).delayMS ∧
    (s.nodes c).delayMS < TIMEWHEEL_SPAN := by
    rw [hpending]
    simp [htrue, hfalse, TIMEWHEEL_SPAN, TIMEWHEEL_NUM_WHEELS]
  obtain ⟨n, hn⟩ := drain_keeps_iff hr h.contents fun c hc => (hdelay c hc).1
  exact ⟨s, hs, n, fun fuel hfuel => (hn fuel hfuel).2 fun c hc => (hdelay c hc).2⟩

/-- The coroutine `true` sleeps for an hour of minutes of seconds: it is lost, and `false` stays
pending. -/
theorem not_keeps_long : ∃ s : TimerManager Bool,
    ((init fun _ => ⟨none, 0⟩).addEvent true 216000 >>= fun s => s.addEvent false 5) = .ok s ∧
      ∃ n, ∀ fuel, n ≤ fuel → ¬Keeps s (drain fuel s).2 := by
  obtain ⟨s, hs, -, f, cur, h, hpending, htrue, hfalse⟩ := exists_pending 216000
  refine ⟨s, hs, 3, fun fuel hfuel => ?_⟩
  have hpos : ∀ c ∈ f .pending, 0 ≤ (s.nodes c).delayMS := by
    rw [hpending]
    simp [htrue, hfalse]
  obtain ⟨f', hdrain⟩ := h.drain hpos (show (f .pending).length < fuel by
    rw [hpending]; exact hfuel)
  obtain ⟨c, hc, hout⟩ := hdrain.lost ⟨true, by rw [hpending]; exact List.mem_cons_self, by
    rw [htrue]; decide⟩
  exact hdrain.not_keeps h.contents hc hout

end RockCoro.TimerManager
