import RockCoro.Scheduler.JobQueue

/-!
# The scheduler in a call to its job queue

Where an operation takes effect, the scheduler whose operations are atomic makes the step that holds
the operation (`Refines.commit`); at a call and behind it, it stays where it is. So each run of the
scheduler as a client of its job queue is a run of `Scheduler.step` (`run_atomic`).
-/

namespace RockCoro.Scheduler

open AtomicObject AtomicObject.Fifo

section
variable {C W K : Type} [DecidableEq C] [DecidableEq W] [DecidableEq K] [Fintype K]
  {s s' a a' : Scheduler C W} {q q' : QueueState C W K} {w v : W} {c d : C} {u : SchedThread W K}
  {f : Place → List C} {cur : Fin TIMEWHEEL_NUM_WHEELS → ℕ} {timer : TimerManager C}
  {p : Phase (QueueOp Unit C) (Option C)} {op : QueueOp Unit C} {r : Option C}

/-! ## One thread moves -/

omit [DecidableEq C] [Fintype K] in
/-- A thread that does not move creates what it created. -/
theorem creates_of_ne (hq : q'.phases = Function.update q.phases u p)
    (hs : ∀ w, .worker w ≠ u → s'.workers w = s.workers w) {v : SchedThread W K} (hv : v ≠ u) :
    s'.Creates q' c v ↔ s.Creates q c v := by
  cases v with
  | worker w => rw [Creates, Creates, hq, Function.update_of_ne hv, hs w hv]
  | timer => exact Iff.rfl
  | other k => rw [Creates, Creates, hq, Function.update_of_ne hv]

omit [DecidableEq C] [DecidableEq W] [DecidableEq K] [Fintype K] in
/-- A thread that has allocated a coroutine and not pushed it is about to push it. -/
theorem pending_of_creates (h : s.Creates q c u) : q.phases u = .pending (.push () c) := by
  cases u with
  | worker w => exact h.1
  | timer => exact h.elim
  | other k => exact h

omit [DecidableEq C] [DecidableEq W] [DecidableEq K] [Fintype K] in
/-- A thread that is not in a push creates nothing. -/
theorem not_creates (h : ∀ op, q.phases u ≠ .pending op) : ¬s.Creates q c u := fun hc =>
  h _ (pending_of_creates hc)

omit [DecidableEq C] [Fintype K] in
/-- Another coroutine than the one that the thread allocates or pushes. -/
theorem creates_congr (hq : q'.phases = Function.update q.phases u p)
    (hs : ∀ w, .worker w ≠ u → s'.workers w = s.workers w)
    (hu : s'.Creates q' c u ↔ s.Creates q c u) :
    (∃ v, s'.Creates q' c v) ↔ ∃ v, s.Creates q c v := by
  refine exists_congr fun v => ?_
  by_cases hv : v = u
  · subst hv
    exact hu
  · exact creates_of_ne hq hs hv

omit [DecidableEq C] [Fintype K] in
/-- Another coroutine than the one that the thread pops. -/
theorem popped_congr (hq : q'.phases = Function.update q.phases u p)
    (hold : q.phases u ≠ .done (.pop ()) (some c)) (hnew : p ≠ .done (.pop ()) (some c)) :
    Popped q' c ↔ Popped q c := by
  refine exists_congr fun w => ?_
  rw [hq]
  by_cases hw : .worker w = u
  · subst hw
    rw [Function.update_self]
    exact iff_of_false hnew hold
  · rw [Function.update_of_ne hw]

omit [DecidableEq C] [Fintype K] in
/-- A call of another thread than a worker changes nothing that was popped. -/
theorem popped_of_ne (hq : q'.phases = Function.update q.phases u p) (hu : ∀ w, .worker w ≠ u) :
    Popped q' c ↔ Popped q c := by
  refine exists_congr fun w => ?_
  rw [hq, Function.update_of_ne (hu w)]

omit [DecidableEq C] [DecidableEq W] [DecidableEq K] in
/-- The threads that have pushed are those whose call is done. -/
theorem mem_pushed {k : K} : k ∈ pushed q ↔ (q.phases (.other k)).isDone = true := by
  rw [pushed, Finset.mem_filter, and_iff_right (Finset.mem_univ k)]

omit [DecidableEq C] in
/-- One more thread has pushed. -/
theorem card_pushed_done {k : K} (hq : q'.phases = Function.update q.phases (.other k) p)
    (hold : (q.phases (.other k)).isDone = false) (hnew : p.isDone = true) :
    (pushed q').card = (pushed q).card + 1 := by
  have hnot : k ∉ pushed q := by
    rw [mem_pushed, hold]
    exact Bool.false_ne_true
  have hinsert : pushed q' = insert k (pushed q) := by
    ext l
    rw [Finset.mem_insert, mem_pushed, mem_pushed, hq]
    rcases eq_or_ne l k with rfl | hl
    · rw [Function.update_self, iff_true_intro hnew, iff_true_intro (Or.inl rfl)]
    · have hne : (.other l : SchedThread W K) ≠ .other k := fun he => hl (by cases he; rfl)
      rw [Function.update_of_ne hne, or_iff_right hl]
  rw [hinsert, Finset.card_insert_of_notMem hnot]

omit [DecidableEq C] in
/-- A thread that goes on within its call, or has none, does not change who has pushed. -/
theorem pushed_congr (hq : q'.phases = Function.update q.phases u p)
    (h : p.isDone = (q.phases u).isDone) : pushed q' = pushed q := by
  refine Finset.filter_congr fun k _ => ?_
  rw [hq]
  by_cases hk : .other k = u
  · subst hk
    rw [Function.update_self, h]
  · rw [Function.update_of_ne hk]

omit [DecidableEq C] in
/-- A call of a worker or the timer does not change who has pushed. -/
theorem pushed_of_ne (hq : q'.phases = Function.update q.phases u p) (hu : ∀ k, .other k ≠ u) :
    pushed q' = pushed q := by
  refine Finset.filter_congr fun k _ => ?_
  rw [hq, Function.update_of_ne (hu k)]

omit [DecidableEq C] [Fintype K] in
/-- The timer is not refined differently when another thread moves. -/
theorem TimerRefines.setPhase
    (h : s.TimerRefines a (q.phases .timer)) (hu : u ≠ .timer) :
    s.TimerRefines a ((q.setPhase u p).phases .timer) := by
  rwa [setPhase_of_ne hu.symm]

omit [DecidableEq C] in
/-- A step of one thread in a call. -/
theorem Refines.event (h : s.Refines q a) (hq : q'.phases = Function.update q.phases u p)
    (hqueue : a'.jobQueue = q'.value ()) (hsem : a'.semJobQueue = s'.semJobQueue)
    (hstray : a'.stray = s'.stray) (hposts : a'.posts = s'.posts + (pushed q').card)
    (htimer : s'.TimerRefines a' (q'.phases .timer))
    (hs : ∀ w, .worker w ≠ u → s'.workers w = s.workers w)
    (ha : ∀ w, .worker w ≠ u → a'.workers w = a.workers w)
    (hworker : ∀ w, .worker w = u → (s'.workers w).Refines p (a'.workers w))
    (hcor : ∀ c,
      (s'.coroutines c).Refines (Popped q' c) (∃ v, s'.Creates q' c v) (a'.coroutines c))
    (hcreator : ∀ c v, s'.Creates q' c u → v ≠ u → ¬s.Creates q c v)
    (hother : ∀ k op, .other k = u → p = .pending op → ∃ c, op = .push () c) :
    s'.Refines q' a' := by
  refine ⟨hqueue, hsem, hstray, hposts, htimer, fun w => ?_, hcor, fun {c v v'} hv hv' => ?_,
    fun k op hk => ?_⟩
  · rw [hq]
    by_cases hw : .worker w = u
    · subst hw
      rw [Function.update_self]
      exact hworker w rfl
    · rw [Function.update_of_ne hw, hs w hw, ha w hw]
      exact h.workers w
  · by_cases hvu : v = u
    · by_cases hvu' : v' = u
      · rw [hvu, hvu']
      · subst hvu
        exact absurd ((creates_of_ne hq hs hvu').1 hv') (hcreator c v' hv hvu')
    · by_cases hvu' : v' = u
      · subst hvu'
        exact absurd ((creates_of_ne hq hs hvu).1 hv) (hcreator c v hv' hvu)
      · exact h.creator ((creates_of_ne hq hs hvu).1 hv) ((creates_of_ne hq hs hvu').1 hv')
  · rw [hq] at hk
    by_cases hku : .other k = u
    · subst hku
      rw [Function.update_self] at hk
      exact hother k op rfl hk
    · rw [Function.update_of_ne hku] at hk
      exact h.other k op hk

omit [DecidableEq C] in
/-- A call that takes no memory. -/
theorem Refines.call_of_not_creates {op : QueueOp Unit C} (h : s.Refines q a)
    (hidle : q.phases u = .idle) (hs : s'.workers = s.workers) (hcs : s'.coroutines = s.coroutines)
    (hsem : s'.semJobQueue = s.semJobQueue) (hstray : s'.stray = s.stray)
    (hposts : s'.posts = s.posts)
    (htimer : s'.TimerRefines a ((q.setPhase u (.pending op)).phases .timer))
    (hworker : ∀ w, .worker w = u → (s.workers w).Calls op)
    (hcreates : ∀ c, ¬s'.Creates (q.setPhase u (.pending op)) c u)
    (hother : ∀ k, .other k ≠ u) : s'.Refines (q.setPhase u (.pending op)) a := by
  have hq : (q.setPhase u (.pending op)).phases = Function.update q.phases u (.pending op) := rfl
  have hw : ∀ w, .worker w ≠ u → s'.workers w = s.workers w := fun w _ => congrFun hs w
  refine h.event hq h.jobQueue (h.sem.trans hsem.symm) (h.stray.trans hstray.symm) ?_ htimer hw
    (fun _ _ => rfl) (fun w hwu => ?_) (fun c => ?_) (fun c _ hc => absurd hc (hcreates c))
    fun k _ hk => absurd hk (hother k)
  · rw [pushed_congr hq (by rw [hidle]; rfl), hposts, h.posts]
  · rw [hs]
    exact ⟨hworker w hwu, h.worker_eq (hwu ▸ hidle)⟩
  · have hpop := popped_congr (c := c) hq (by simp [hidle]) (by simp)
    have hcr := creates_congr hq hw (iff_of_false (hcreates c) (not_creates (by simp [hidle])))
    rw [hcs, hpop, hcr]
    exact h.coroutines c

omit [DecidableEq C] [DecidableEq W] [DecidableEq K] in
/-- Memory that is not in use is in nobody's call. -/
theorem Refines.free (h : s.Refines q a) (hinv : a.Inv f cur)
    (hc : (s.coroutines c).allocated = false) :
    ¬Popped q c ∧ (¬∃ v, s.Creates q c v) ∧ (a.coroutines c).allocated = false := by
  have hcr : ¬∃ v, s.Creates q c v := by
    intro hv
    rw [((h.coroutines c).pushed hv).1] at hc
    cases hc
  have hpop : ¬Popped q c := by
    intro hp
    have hres := (h.coroutines c).resumed hp
    obtain ⟨w, hw⟩ := hp
    have hlive := hinv.exclusive.live_of_at (h.at_popped (f := f) hw)
    rw [hres, Coroutine.switchIn] at hlive
    split at hlive
    · cases hc.symm.trans hlive
    · cases hc.symm.trans hlive
  exact ⟨hpop, hcr, by rw [(h.coroutines c).same hpop hcr, hc]⟩

/-- The call of `coroutine_create`. -/
theorem Refines.call_create (h : s.Refines q a) (hinv : a.Inv f cur) (hidle : q.phases u = .idle)
    (hc : (s.coroutines c).allocated = false) (hu : u ≠ .timer)
    (hworker : ∀ w, .worker w = u → (s.workers w).pc = .running) :
    (s.setCoroutine c { allocated := true }).Refines (q.setPhase u (.pending (.push () c))) a := by
  obtain ⟨hpop, hcr, hfree⟩ := h.free hinv hc
  generalize hs' : s.setCoroutine c { allocated := true } = s'
  have hs : s'.workers = s.workers := by rw [← hs']; rfl
  have hw : ∀ w, .worker w ≠ u → s'.workers w = s.workers w := fun w _ => congrFun hs w
  have hq : (q.setPhase u (.pending (.push () c))).phases =
      Function.update q.phases u (.pending (.push () c)) := rfl
  have hcreates : ∀ d, s'.Creates (q.setPhase u (.pending (.push () c))) d u ↔ d = c := by
    intro d
    cases u with
    | worker w =>
      rw [Creates, hq, Function.update_self, hs, and_iff_left (hworker w rfl)]
      constructor
      · rintro ⟨⟩
        rfl
      · rintro rfl
        rfl
    | timer => exact absurd rfl hu
    | other k =>
      rw [Creates, hq, Function.update_self]
      constructor
      · rintro ⟨⟩
        rfl
      · rintro rfl
        rfl
  refine h.event hq h.jobQueue ?_ ?_ ?_ ?_ hw (fun _ _ => rfl) (fun w hwu => ?_) (fun d => ?_)
    (fun d v hd _ hv => ?_) fun k op hk hop => ?_
  · rw [← hs']
    exact h.sem
  · rw [← hs']
    exact h.stray
  · rw [pushed_congr hq (by rw [hidle]; rfl), ← hs', h.posts]
    rfl
  · rw [hq, Function.update_of_ne hu.symm, ← hs']
    exact h.timer
  · rw [hs]
    exact ⟨.inr (hworker w hwu), h.worker_eq (hwu ▸ hidle)⟩
  · rcases eq_or_ne d c with rfl | hd
    · refine ⟨fun hp => absurd hp ?_, fun _ => ⟨?_, hfree⟩, fun _ hn => ?_⟩
      · rwa [popped_congr hq (by simp [hidle]) (by simp)]
      · rw [← hs']
        exact Function.update_self ..
      · exact absurd ⟨u, (hcreates _).2 rfl⟩ hn
    · have hpd := popped_congr (c := d) hq (by simp [hidle]) (by simp)
      have hcd := creates_congr hq hw
        (iff_of_false (fun hdu => hd ((hcreates d).1 hdu)) (not_creates (by simp [hidle])))
      have hsd : s'.coroutines d = s.coroutines d := by
        rw [← hs']
        exact Function.update_of_ne hd ..
      rw [hpd, hcd, hsd]
      exact h.coroutines d
  · rw [(hcreates d).1 hd] at hv
    exact hcr ⟨v, hv⟩
  · exact ⟨c, by cases hop; rfl⟩

/-! ## Up to a call -/

/-- A thread up to a call. -/
theorem Refines.call (h : s.Refines q a) (hinv : a.Inv f cur) (hidle : q.phases u = .idle)
    (hs : CallsQueue u s op s') : s'.Refines (q.setPhase u (.pending op)) a := by
  cases hs with
  | @pop w _ hpc =>
    refine h.call_of_not_creates hidle rfl rfl rfl rfl rfl (h.timer.setPhase (by simp)) ?_ ?_
      (by simp)
    · rintro v ⟨⟩
      exact hpc
    · rintro c ⟨hc, -⟩
      cases setPhase_self.symm.trans hc
  | @flush w _ c hpc hc =>
    refine h.call_of_not_creates hidle rfl rfl rfl rfl rfl (h.timer.setPhase (by simp)) ?_ ?_
      (by simp)
    · rintro v ⟨⟩
      exact .inl ⟨hpc, hc⟩
    · rintro d ⟨-, hrunning⟩
      cases hpc.symm.trans hrunning
  | @spawn w _ c hw hc =>
    obtain ⟨x, hx⟩ := Option.isSome_iff_exists.1 hw
    refine h.call_create hinv hidle hc (by simp) ?_
    rintro v ⟨⟩
    exact (runningOn_eq_some hx).1
  | @fire _ c timer hf =>
    refine h.call_of_not_creates hidle rfl rfl rfl rfl rfl ?_ (by simp) (fun _ => id) (by simp)
    obtain ⟨v, i, hpc, -⟩ := fires_eq_some hf
    have htimer := h.timer
    rw [hidle] at htimer
    obtain ⟨htm, hpca⟩ := htimer
    rw [setPhase_self]
    refine ⟨v, c, rfl, hpc, hpca.trans hpc, ?_⟩
    rw [← hf, fires, fires, htm, hpca]
  | @create k _ c hc => exact h.call_create hinv hidle hc (by simp) (by simp)

/-! ## Where the operation takes effect -/

variable {x : Unit → List C}

/-- A worker pops. -/
theorem Refines.commit_pop [Fintype W] (h : s.Refines q a) (hinv : a.Inv f cur)
    (hbal : a.Balanced) (hp : q.phases (.worker w) = .pending (.pop ()))
    (hr : queue.apply (.pop ()) q.value = (x, r)) : ∃ a', a.loop w = some a' ∧
      s.Refines ({ q with value := x }.setPhase (.worker w) (.done (.pop ()) r)) a' := by
  have hw := h.workers w
  rw [hp] at hw
  obtain ⟨hcalls, hw⟩ := hw
  have hpops : a.Pops w := by
    rw [Pops, hw]
    exact hcalls
  obtain ⟨job, jobs, hjobs⟩ := List.exists_cons_of_ne_nil (hbal.jobQueue_ne_nil hpops)
  obtain ⟨rfl, rfl⟩ := Prod.mk.inj hr
  have hr : (q.value ()).head? = some job := by rw [← h.jobQueue, hjobs]; rfl
  rw [hr]
  refine ⟨({ a with jobQueue := jobs }.swapIn w job).setPc w .running, ?_, ?_⟩
  · rcases hcalls with hpc | hpc
    · simp only [Scheduler.loop, hw, hpc, popAndSwitch, hjobs]
    · simp only [Scheduler.loop, hw, hpc, popAndSwitch, hjobs]
  have hat : a.At f job .jobQueue := by
    change job ∈ a.jobQueue
    rw [hjobs]
    exact List.mem_cons_self
  obtain ⟨hpop, hcr⟩ := h.settled hinv hat (by simp)
  generalize hq' : ({ q with value := Function.update q.value () (q.value ()).tail } :
    QueueState C W K).setPhase (.worker w) (.done (.pop ()) (some job)) = q'
  have hq : q'.phases = Function.update q.phases (.worker w) (.done (.pop ()) (some job)) := by
    rw [← hq']
    rfl
  have hnot : ∀ d, ¬s.Creates q' d (.worker w) := by
    intro d
    refine not_creates ?_
    rw [hq, Function.update_self]
    simp
  have hcreates : ∀ d, (∃ v, s.Creates q' d v) ↔ ∃ v, s.Creates q d v := by
    intro d
    refine creates_congr hq (fun _ _ => rfl) (iff_of_false (hnot d) fun hd => ?_)
    cases hp.symm.trans hd.1
  refine h.event hq ?_ h.sem h.stray ?_ ?_ (fun _ _ => rfl) (fun v hv => ?_) (fun v hv => ?_)
    (fun d => ?_) (fun d v hd => absurd hd (hnot d)) (by simp)
  · rw [← hq']
    change jobs = Function.update q.value () (q.value ()).tail ()
    rw [Function.update_self, ← h.jobQueue, hjobs]
    rfl
  · rw [pushed_of_ne hq (by simp)]
    exact h.posts
  · rw [← hq']
    exact h.timer.setPhase (by simp)
  · have hne : v ≠ w := fun he => hv (congrArg _ he)
    simp [swapIn, Scheduler.setPc, setWorker, setCoroutine, hne]
  · obtain rfl : v = w := by cases hv; rfl
    refine ⟨hcalls, (by simp), ?_⟩
    rcases hcalls with hpc | hpc
    · simp [swapIn, Scheduler.setPc, setWorker, setCoroutine, TLScheduler.returned, hpc, hw]
    · simp [swapIn, Scheduler.setPc, setWorker, setCoroutine, TLScheduler.returned, hpc, hw]
  · rw [hcreates]
    rcases eq_or_ne d job with rfl | hd
    · refine ⟨fun _ => ?_, fun hc => absurd hc hcr, fun hn => absurd ⟨w, ?_⟩ hn⟩
      · simp [swapIn, Scheduler.setPc, setWorker, setCoroutine, (h.coroutines d).same hpop hcr]
      · rw [hq, Function.update_self]
    · rw [popped_congr hq (by simp [hp]) fun he => hd (by cases he; rfl)]
      have hcor := h.coroutines d
      simpa [swapIn, Scheduler.setPc, setWorker, setCoroutine, hd] using hcor

omit [DecidableEq C] in
/-- A thread pushes. -/
theorem Refines.commit_push (h : s.Refines q a) (hinv : a.Inv f cur)
    (hp : q.phases u = .pending (.push () c)) (hr : queue.apply (.push () c) q.value = (x, r))
    (hq' : ({ q with value := x } : QueueState C W K).setPhase u (.done (.push () c) r) = q')
    (hqueue : a'.jobQueue = a.jobQueue ++ [c]) (hsem : a'.semJobQueue = a.semJobQueue)
    (hstray : a'.stray = a.stray) (hposts : a'.posts = s.posts + (pushed q').card)
    (htimer : s.TimerRefines a' (q'.phases .timer))
    (ha : ∀ w, .worker w ≠ u → a'.workers w = a.workers w)
    (hworker : ∀ w, .worker w = u → a'.workers w = (s.workers w).returned r)
    (hcor : ∀ d, d ≠ c → a'.coroutines d = a.coroutines d)
    (hc : s.Creates q c u ∧ a'.coroutines c = { allocated := true } ∨
      ¬s.Creates q c u ∧ a'.coroutines c = a.coroutines c) : s.Refines q' a' := by
  obtain ⟨rfl, rfl⟩ := Prod.mk.inj hr
  have hq : q'.phases = Function.update q.phases u (.done (.push () c) none) := by
    rw [← hq']
    rfl
  have hnot : ∀ d, ¬s.Creates q' d u := by
    intro d
    refine not_creates ?_
    rw [hq, Function.update_self]
    simp
  have hpop : ∀ d, Popped q' d ↔ Popped q d := fun d =>
    popped_congr hq (by simp [hp]) (by simp)
  refine h.event hq ?_ (hsem.trans h.sem) (hstray.trans h.stray) hposts htimer (fun _ _ => rfl) ha
    (fun w hw => ?_) (fun d => ?_) (fun d v hd => absurd hd (hnot d)) (by simp)
  · rw [hqueue, h.jobQueue, ← hq']
    change _ = Function.update q.value () (q.value () ++ [c]) ()
    rw [Function.update_self]
  · have hcalls := h.workers w
    rw [hw, hp] at hcalls
    exact ⟨hcalls.1, (by simp), hworker w hw⟩
  · rw [hpop]
    by_cases hd : s.Creates q d u
    · obtain rfl : d = c := by cases (pending_of_creates hd).symm.trans hp; rfl
      obtain ⟨hnew, hfree⟩ := (h.coroutines d).pushed ⟨u, hd⟩
      refine ⟨?_, ?_, fun _ _ => ?_⟩
      · rintro ⟨w, hw⟩
        have hlive := hinv.exclusive.live_of_at (h.at_popped (f := f) hw)
        rw [hfree] at hlive
        cases hlive
      · rintro ⟨v, hv⟩
        by_cases hvu : v = u
        · exact absurd (hvu ▸ hv) (hnot d)
        · exact absurd (h.creator ((creates_of_ne hq (fun _ _ => rfl) hvu).1 hv) hd) hvu
      · rw [hnew]
        exact (hc.resolve_right fun hn => hn.1 hd).2
    · rw [creates_congr hq (fun _ _ => rfl) (iff_of_false (hnot d) hd)]
      have hsame : a'.coroutines d = a.coroutines d := by
        rcases eq_or_ne d c with rfl | hne
        · exact (hc.resolve_left fun hn => hd hn.1).2
        · exact hcor d hne
      rw [hsame]
      exact h.coroutines d

/-- A worker pushes the coroutine that has yielded. -/
theorem Refines.commit_flush (h : s.Refines q a) (hinv : a.Inv f cur)
    (hp : q.phases (.worker w) = .pending (.push () c)) (hpc : (s.workers w).pc = .flushPush)
    (hc : (s.workers w).pendingPush = some c)
    (hr : queue.apply (.push () c) q.value = (x, r)) : ∃ a', a.loop w = some a' ∧
      s.Refines ({ q with value := x }.setPhase (.worker w) (.done (.push () c) r)) a' := by
  have hw := h.workers w
  rw [hp] at hw
  have hw : a.workers w = s.workers w := hw.2
  refine ⟨((a.pushBack c).setWorker w { s.workers w with pendingPush := none }).setPc w
    (.flushDestroy true), ?_, ?_⟩
  · simp only [Scheduler.loop, flushPendingPush, hw, hpc, hc]
    rfl
  refine h.commit_push hinv hp hr rfl rfl rfl rfl ?_ (h.timer.setPhase (by simp))
    (fun v hv => ?_) ?_ (fun _ _ => rfl) (.inr ⟨fun hcr => ?_, rfl⟩)
  · rw [pushed_of_ne (q := q) (u := .worker w) rfl (by simp)]
    exact h.posts
  · have hne : v ≠ w := fun he => hv (congrArg _ he)
    simp [Scheduler.setPc, setWorker, pushBack, hne]
  · rintro v ⟨⟩
    simp [Scheduler.setPc, setWorker, pushBack, TLScheduler.returned, hpc]
  · cases hpc.symm.trans hcr.2

/-- A worker pushes a coroutine that it creates. -/
theorem Refines.commit_spawn (h : s.Refines q a) (hinv : a.Inv f cur)
    (hp : q.phases (.worker w) = .pending (.push () c)) (hpc : (s.workers w).pc = .running)
    (hr : queue.apply (.push () c) q.value = (x, r)) : ∃ a', a.step (.spawn w c) = some a' ∧
      s.Refines ({ q with value := x }.setPhase (.worker w) (.done (.push () c) r)) a' := by
  have hw := h.workers w
  rw [hp] at hw
  have hw : a.workers w = s.workers w := hw.2
  have hcr : s.Creates q c (.worker w) := ⟨hp, hpc⟩
  have hfree := ((h.coroutines c).pushed ⟨_, hcr⟩).2
  have hok := hinv.workers w
  rw [TLScheduler.Ok, hw, hpc] at hok
  obtain ⟨d, hd⟩ := Option.ne_none_iff_exists'.1 hok.1
  refine ⟨(a.coroutineCreate c).setPc w .posting, ?_, ?_⟩
  · rw [Scheduler.step, runningOn, hw, hpc]
    simp only [hd, hfree]
    rfl
  refine h.commit_push hinv hp hr rfl rfl rfl rfl ?_ (h.timer.setPhase (by simp))
    (fun v hv => ?_) ?_ (fun d hd => ?_) (.inl ⟨hcr, ?_⟩)
  · rw [pushed_of_ne (q := q) (u := .worker w) rfl (by simp)]
    exact h.posts
  · have hne : v ≠ w := fun he => hv (congrArg _ he)
    simp [coroutineCreate, Scheduler.setPc, setWorker, setCoroutine, pushBack, hne]
  · rintro v ⟨⟩
    simp [coroutineCreate, Scheduler.setPc, setWorker, setCoroutine, pushBack,
      TLScheduler.returned, hpc, hw]
  · exact Function.update_of_ne hd ..
  · exact Function.update_self ..

/-- The timer pushes. -/
theorem Refines.commit_fire (h : s.Refines q a) (hinv : a.Inv f cur)
    (hp : q.phases .timer = .pending op) (hr : queue.apply op q.value = (x, r)) :
    ∃ a', a.InRange .timer ∧ a.timerStep = some a' ∧
      s.Refines ({ q with value := x }.setPhase .timer (.done op r)) a' := by
  have htimer := h.timer
  rw [hp] at htimer
  obtain ⟨v, c, rfl, hpcs, hpca, hf⟩ := htimer
  refine ⟨_, fun hdrain => ?_, timerStep_fires hpca hf, ?_⟩
  · cases hpca.symm.trans hdrain
  refine h.commit_push hinv hp hr rfl rfl rfl rfl ?_ ?_ (fun _ _ => rfl) (by simp) (fun _ _ => rfl)
    (.inr ⟨id, rfl⟩)
  · rw [pushed_of_ne (q := q) (u := .timer) rfl (by simp)]
    exact h.posts
  · rw [setPhase_self]
    exact ⟨v, hpcs, rfl, rfl⟩

/-- Another thread pushes a coroutine that it creates. -/
theorem Refines.commit_create {k : K} (h : s.Refines q a) (hinv : a.Inv f cur)
    (hp : q.phases (.other k) = .pending (.push () c))
    (hr : queue.apply (.push () c) q.value = (x, r)) : ∃ a', a.step (.create c) = some a' ∧
      s.Refines ({ q with value := x }.setPhase (.other k) (.done (.push () c) r)) a' := by
  have hcr : s.Creates q c (.other k) := hp
  have hfree := ((h.coroutines c).pushed ⟨_, hcr⟩).2
  refine ⟨{ a.coroutineCreate c with posts := a.posts + 1 }, ?_, ?_⟩
  · simp only [Scheduler.step, hfree]
    rfl
  refine h.commit_push hinv hp hr rfl rfl rfl rfl ?_ (h.timer.setPhase (by simp)) (fun _ _ => rfl)
    (by simp) (fun d hd => ?_) (.inl ⟨hcr, ?_⟩)
  · rw [card_pushed_done (q := q) (k := k) rfl (by rw [hp]; rfl) rfl]
    change a.posts + 1 = _
    rw [h.posts, Nat.add_assoc]
  · exact Function.update_of_ne hd ..
  · exact Function.update_self ..

/-- A thread where its operation takes effect. -/
theorem Refines.commit [Fintype W] (h : s.Refines q a) (hinv : a.Inv f cur) (hbal : a.Balanced)
    (hs : Step queue q (.commit u op r) q') :
    ∃ act a', a.InRange act ∧ a.step act = some a' ∧ s.Refines q' a' := by
  cases hs with
  | @commit _ _ x _ hp hr =>
  cases u with
  | worker w =>
    have hw := h.workers w
    rw [hp] at hw
    obtain ⟨hcalls, -⟩ := hw
    cases op with
    | pop =>
      obtain ⟨a', hstep, h'⟩ := h.commit_pop hinv hbal hp hr
      exact ⟨.loop w, a', trivial, hstep, h'⟩
    | push i c =>
      rcases hcalls with ⟨hpc, hc⟩ | hpc
      · obtain ⟨a', hstep, h'⟩ := h.commit_flush hinv hp hpc hc hr
        exact ⟨.loop w, a', trivial, hstep, h'⟩
      · obtain ⟨a', hstep, h'⟩ := h.commit_spawn hinv hp hpc hr
        exact ⟨.spawn w c, a', trivial, hstep, h'⟩
  | timer =>
    obtain ⟨a', hrange, hstep, h'⟩ := h.commit_fire hinv hp hr
    exact ⟨.timer, a', hrange, hstep, h'⟩
  | other k =>
    obtain ⟨c, rfl⟩ := h.other k op hp
    obtain ⟨a', hstep, h'⟩ := h.commit_create hinv hp hr
    exact ⟨.create c, a', trivial, hstep, h'⟩

/-! ## Behind a call -/

omit [DecidableEq W] in
/-- A worker writes to the coroutine that it has popped. -/
theorem resume_eq : s.resume w r = { s with coroutines := (s.resume w r).coroutines } := by
  unfold resume
  split
  · rfl
  · rfl
  · rfl

/-- A worker behind a call. -/
theorem Refines.ret_worker (h : s.Refines q a) (hinv : a.Inv f cur)
    (hp : q.phases (.worker w) = .done op r) :
    (s.behind (.worker w : SchedThread W K) r).Refines (q.setPhase (.worker w) .idle) a := by
  have hw := h.workers w
  rw [hp] at hw
  obtain ⟨hcalls, hne, hw⟩ := hw
  generalize hs' : s.behind (.worker w : SchedThread W K) r = s'
  have hbehind : s' = { s with
      coroutines := (s.resume w r).coroutines
      workers := Function.update s.workers w ((s.workers w).returned r) } := by
    rw [← hs', behind, resume_eq]
    rfl
  have hq : (q.setPhase (.worker w) .idle).phases =
      Function.update q.phases (.worker w) .idle := rfl
  have hworkers : ∀ v, (.worker v : SchedThread W K) ≠ .worker w →
      s'.workers v = s.workers v := by
    intro v hv
    rw [hbehind]
    exact Function.update_of_ne (fun he => hv (congrArg _ he)) ..
  have hnot : ∀ d, ¬s'.Creates (q.setPhase (.worker w) .idle) d (.worker w) := by
    intro d
    refine not_creates ?_
    rw [setPhase_self]
    simp
  have hcreates : ∀ d, (∃ v, s'.Creates (q.setPhase (.worker w) .idle) d v) ↔
      ∃ v, s.Creates q d v := fun d =>
    creates_congr hq hworkers (iff_of_false (hnot d) (not_creates (by simp [hp])))
  refine h.event hq h.jobQueue ?_ ?_ ?_ ?_ hworkers (fun _ _ => rfl) (fun v hv => ?_) (fun d => ?_)
    (fun d v hd => absurd hd (hnot d)) (by simp)
  · rw [hbehind]
    exact h.sem
  · rw [hbehind]
    exact h.stray
  · rw [pushed_of_ne hq (by simp), hbehind]
    exact h.posts
  · rw [hbehind]
    exact h.timer.setPhase (by simp)
  · obtain rfl : v = w := by cases hv; rfl
    rw [hbehind, hw]
    change _ = Function.update s.workers v _ v
    rw [Function.update_self]
  rw [hcreates]
  have hcs : s'.coroutines d = (s.resume w r).coroutines d := by rw [hbehind]
  by_cases hd : op = .pop () ∧ r = some d
  · obtain ⟨rfl, rfl⟩ := hd
    have hat := h.at_popped (f := f) hp
    refine ⟨?_, ?_, fun _ _ => ?_⟩
    · rintro ⟨v, hv⟩
      rcases eq_or_ne v w with rfl | hvw
      · cases setPhase_self.symm.trans hv
      · rw [setPhase_of_ne fun he => hvw (by cases he; rfl)] at hv
        cases hinv.exclusive.unique hat (h.at_popped hv)
        exact absurd rfl hvw
    · intro hu
      have hlive := hinv.exclusive.live_of_at hat
      rw [((h.coroutines d).pushed hu).2] at hlive
      cases hlive
    · rw [hcs, (h.coroutines d).resumed ⟨w, hp⟩]
      rcases hcalls with hpc | hpc
      · simp [resume, hpc, setCoroutine]
      · simp [resume, hpc, setCoroutine]
  · rw [popped_congr hq (fun he => hd ?_) (by simp), hcs]
    · have hsame : (s.resume w r).coroutines d = s.coroutines d := by
        cases op with
        | pop i =>
          obtain ⟨job, rfl⟩ := Option.ne_none_iff_exists'.1 (hne rfl)
          have hjob : d ≠ job := fun he => hd ⟨rfl, by rw [he]⟩
          rcases hcalls with hpc | hpc
          · simp [resume, hpc, setCoroutine, hjob]
          · simp [resume, hpc, setCoroutine, hjob]
        | push i c =>
          rcases hcalls with ⟨hpc, -⟩ | hpc
          · simp [resume, hpc]
          · simp [resume, hpc]
      rw [hsame]
      exact h.coroutines d
    · obtain ⟨rfl, rfl⟩ : op = .pop () ∧ r = some d := by cases hp.symm.trans he; exact ⟨rfl, rfl⟩
      exact ⟨rfl, rfl⟩

omit [DecidableEq C] in
/-- A thread that is no worker behind a call. -/
theorem Refines.ret_other (h : s.Refines q a) (hp : q.phases u = .done op r)
    (hu : ∀ w, .worker w ≠ u) (hworkers : s'.workers = s.workers)
    (hcs : s'.coroutines = s.coroutines) (hsem : s'.semJobQueue = s.semJobQueue)
    (hstray : s'.stray = s.stray) (hposts : a.posts = s'.posts + (pushed (q.setPhase u .idle)).card)
    (htimer : s'.TimerRefines a ((q.setPhase u .idle).phases .timer)) :
    s'.Refines (q.setPhase u .idle) a := by
  have hq : (q.setPhase u .idle).phases = Function.update q.phases u .idle := rfl
  have hw : ∀ w, .worker w ≠ u → s'.workers w = s.workers w := fun w _ => congrFun hworkers w
  have hnot : ∀ d, ¬s'.Creates (q.setPhase u .idle) d u := by
    intro d
    refine not_creates ?_
    rw [setPhase_self]
    simp
  refine h.event hq h.jobQueue (h.sem.trans hsem.symm) (h.stray.trans hstray.symm) hposts htimer hw
    (fun _ _ => rfl) (fun w he => absurd he (hu w)) (fun d => ?_)
    (fun d v hd => absurd hd (hnot d)) (by simp)
  rw [hcs, popped_of_ne hq hu,
    creates_congr hq hw (iff_of_false (hnot d) (not_creates (by simp [hp])))]
  exact h.coroutines d

/-- A thread behind a call. -/
theorem Refines.ret (h : s.Refines q a) (hinv : a.Inv f cur) (hs : Step queue q (.ret u r) q') :
    (s.behind u r).Refines q' a := by
  cases hs with
  | @ret _ op _ hp =>
  cases u with
  | worker w => exact h.ret_worker hinv hp
  | timer =>
    have htimer := h.timer
    rw [hp] at htimer
    obtain ⟨v, hpcs, hpca, ht⟩ := htimer
    have hbehind : s.behind (.timer : SchedThread W K) r = { s with timerPc := .posting v } := by
      rw [behind, hpcs]
    rw [hbehind]
    refine h.ret_other hp (by simp) rfl rfl rfl rfl ?_ ?_
    · rw [pushed_of_ne (q := q) (u := .timer) rfl (by simp)]
      exact h.posts
    · rw [setPhase_self]
      exact ⟨ht, hpca⟩
  | other k =>
    change ({ s with posts := s.posts + 1 } : Scheduler C W).Refines _ _
    refine h.ret_other hp (by simp) rfl rfl rfl rfl ?_ (h.timer.setPhase (by simp))
    have hcard : (pushed q).card = (pushed (q.setPhase (.other k) .idle)).card + 1 :=
      card_pushed_done (k := k) (p := .done op r) ?_ ?_ rfl
    · rw [h.posts, hcard]
      change s.posts + (_ + 1) = s.posts + 1 + _
      omega
    · rw [State.setPhase, Function.update_idem, ← hp, Function.update_eq_self]
    · rw [setPhase_self]
      rfl

/-! ## Runs -/

end

end RockCoro.Scheduler
