import RockCoro.Timer.Drain

/-!
# The intrusive lists as queues

Runs of `pop_front` and `push_back` on any number of lists over the same nodes, from empty lists and
links with any values. A node is pushed only when it is in no list. After every run each list is the
chain of its reference queue (`fifo`), and a loop that pops a list to its end takes one round for
each of its nodes (`run_wellFormed`). The loops of the timer are such loops on the lists of its
places.
-/

namespace RockCoro

open TimeWheelLinkedList Chain

variable {L C : Type}

namespace TimeWheelLists

variable [DecidableEq L] [DecidableEq C]

/-- `pop_front` of list `l`. -/
def popFront (s : TimeWheelLists L C) (l : L) : Option C × TimeWheelLists L C :=
  let (c, list) := (s.lists l).popFront s.nodes
  (c, ⟨s.nodes, Function.update s.lists l list⟩)

/-- `push_back` to list `l`. -/
def pushBack (s : TimeWheelLists L C) (l : L) (c : C) : Except Fault (TimeWheelLists L C) := do
  let (nodes, list) ← (s.lists l).pushBack s.nodes c
  .ok ⟨nodes, Function.update s.lists l list⟩

/-- `while (node = pop_front())` on list `l` that pushes every node `c` to list `dest c`, with the
number of nodes it moved. -/
def drain (l : L) (dest : C → L) : ℕ → TimeWheelLists L C → Except Fault (ℕ × TimeWheelLists L C)
  | 0, _ => .error .timeout
  | fuel + 1, s =>
    match s.popFront l with
    | (none, s) => .ok (0, s)
    | (some c, s) => do
      let s ← s.pushBack (dest c) c
      let (n, s) ← drain l dest fuel s
      .ok (n + 1, s)

/-- A node is in a list if the links lead to it from the head. -/
def InList (s : TimeWheelLists L C) (l : L) (c : C) : Prop :=
  ∃ a, (s.lists l).head = some a ∧ Relation.ReflTransGen (fun a b => (s.nodes a).next = some b) a c

/-! ## The reference queues -/

/-- A call on list `l`. -/
inductive ListOp (L C : Type)
  | popFront (l : L)
  | pushBack (l : L) (c : C)

/-- What an operation does to the queues. -/
def fifoStep (f : L → List C) : ListOp L C → L → List C
  | .popFront l => Function.update f l (f l).tail
  | .pushBack l c => Function.update f l (f l ++ [c])

/-- The queues after the operations `ops`. -/
def fifo (ops : List (ListOp L C)) : L → List C := ops.foldl fifoStep fun _ => []

/-- The queues after list `l` was drained. -/
def drained (f : L → List C) (l : L) (dest : C → L) : L → List C := fun q =>
  if q = l then [] else f q ++ (f l).filter (dest · = q)

/-- The states after the operations `ops` on empty lists over the nodes `nodes`. A node is pushed
only when it is in no list. -/
inductive Run (nodes : C → TimeWheelLinkedListNode C) : List (ListOp L C) → TimeWheelLists L C →
    Prop
  | nil : Run nodes [] ⟨nodes, fun _ => {}⟩
  | popFront {ops s} (l : L) : Run nodes ops s → Run nodes (ops ++ [.popFront l]) (s.popFront l).2
  | pushBack {ops s s' l c} : Run nodes ops s → (∀ q, ¬s.InList q c) → s.pushBack l c = .ok s' →
    Run nodes (ops ++ [.pushBack l c]) s'

/-- The lists are well-formed and hold the queues `f`. -/
structure WellFormed (s : TimeWheelLists L C) (f : L → List C) : Prop where
  chain : ∀ l, Linked (nextOf s.nodes) (s.lists l).head (f l)
  nodup : ∀ l, (f l).Nodup
  tail : ∀ l, (s.lists l).tail = (f l).getLast?
  tail_none : ∀ l, (s.lists l).tail = none ↔ (s.lists l).head = none
  disjoint : ∀ {l l' c}, s.InList l c → s.InList l' c → l = l'
  popFront : ∀ l, (s.popFront l).1 = (f l).head?
  pushBack : ∀ l c, (∀ q, ¬s.InList q c) → ∃ s', s.pushBack l c = .ok s'

/-- A drain moves as many nodes as the list has, and then ends. -/
structure Drains (s : TimeWheelLists L C) (f : L → List C) (l : L) (dest : C → L) : Prop where
  runs : ∀ fuel ≤ (f l).length, drain l dest fuel s = .error .timeout
  ends : ∀ fuel, (f l).length < fuel → ∃ s', drain l dest fuel s = .ok ((f l).length, s') ∧
    s'.WellFormed (drained f l dest)

variable {nodes : C → TimeWheelLinkedListNode C} {s : TimeWheelLists L C} {f : L → List C} {l : L}
  {c : C} {xs : List C} {dest : C → L} {ops : List (ListOp L C)} {fuel : ℕ}

omit [DecidableEq L] [DecidableEq C] in
/-- The links of a list lead to the nodes of its queue and no others. -/
theorem Contents.inList_iff (h : s.Contents f) : s.InList l c ↔ c ∈ f l := by
  have hchain : Linked (nextOf s.nodes) (s.lists l).head (f l) := (h.holds l).chain
  constructor
  · rintro ⟨a, ha, hac⟩
    have hmem : a ∈ f l := by
      rw [ha] at hchain
      exact List.mem_of_head? hchain.head.symm
    exact hchain.mem_of_reach hmem hac
  · intro hc
    obtain ⟨a, ha⟩ : ∃ a, (s.lists l).head = some a := by
      rw [hchain.head]
      exact Option.isSome_iff_exists.1 (by simpa using List.ne_nil_of_mem hc)
    exact ⟨a, ha, (ha ▸ hchain).reach hc⟩

omit [DecidableEq C] in
/-- What `pop_front` does when the lists hold the queues `f`. -/
theorem Contents.popFront (h : s.Contents f) (l : L) :
    (s.popFront l).1 = (f l).head? ∧
      (s.popFront l).2.Contents (Function.update f l (f l).tail) := by
  cases hl : f l with
  | nil =>
    have hpop : s.popFront l = (none, s) := by
      rw [TimeWheelLists.popFront, TimeWheelLinkedList.Holds.popFront_nil (hl ▸ h.holds l)]
      change (none, (⟨s.nodes, Function.update s.lists l (s.lists l)⟩ : TimeWheelLists L C)) = _
      rw [Function.update_eq_self]
    have hf : Function.update f l ([] : List C).tail = f := by
      rw [List.tail_nil, ← hl, Function.update_eq_self]
    rw [hpop, hf]
    exact ⟨rfl, h⟩
  | cons c xs =>
    obtain ⟨l', hpop, h'⟩ := h.pop hl
    rw [TimeWheelLists.popFront, hpop]
    exact ⟨rfl, h'⟩

/-- What `push_back` does with a node that is in no list. -/
theorem Contents.pushBack (h : s.Contents f) (hc : ∀ q, c ∉ f q) :
    ∃ s', s.pushBack l c = .ok s' ∧ s'.Contents (Function.update f l (f l ++ [c])) := by
  obtain ⟨nodes, l', hpush, -, h'⟩ := h.push l hc
  exact ⟨⟨nodes, Function.update s.lists l l'⟩, by rw [TimeWheelLists.pushBack, hpush]; rfl, h'⟩

/-- Lists that hold queues are well formed. -/
theorem Contents.wellFormed (h : s.Contents f) : s.WellFormed f := by
  refine ⟨fun l => (h.holds l).chain, fun l => (h.holds l).chain.nodup, fun l => (h.holds l).tail,
    fun l => ?_, fun hc hc' => ?_, fun l => (h.popFront l).1, fun l c hc => ?_⟩
  · rw [(h.holds l).tail, (h.holds l).chain.head, List.getLast?_eq_none_iff, List.head?_eq_none_iff]
  · exact h.disjoint (h.inList_iff.1 hc) (h.inList_iff.1 hc')
  · obtain ⟨s', hs', -⟩ := h.pushBack (l := l) fun q hq => hc q (h.inList_iff.2 hq)
    exact ⟨s', hs'⟩

omit [DecidableEq C] in
/-- The queues after one more operation. -/
theorem fifo_concat (o : ListOp L C) : fifo (ops ++ [o]) = fifoStep (fifo ops) o := by
  rw [fifo, List.foldl_append]
  rfl

/-- Every run leaves the lists with the queues of the reference. -/
theorem Run.contents (h : Run nodes ops s) : s.Contents (fifo ops) := by
  induction h with
  | nil => exact ⟨fun l => holds_empty, by simp [fifo]⟩
  | popFront l h ih =>
    rw [fifo_concat]
    exact (ih.popFront l).2
  | pushBack h hc hs ih =>
    obtain ⟨s₁, hs₁, h₁⟩ := ih.pushBack fun q hq => hc q (ih.inList_iff.2 hq)
    obtain rfl : s₁ = _ := Except.ok.inj (hs₁.symm.trans hs)
    rw [fifo_concat]
    exact h₁

/-! ## Draining a list -/

omit [DecidableEq C] in
/-- A round of a drain moves the first node, and the rest is left to drain. -/
theorem drained_cons {f₁ : L → List C} (hl : f l = c :: xs) (hc : dest c ≠ l)
    (hf₁ : f₁ = Function.update f l xs) :
    drained (Function.update f₁ (dest c) (f₁ (dest c) ++ [c])) l dest = drained f l dest := by
  subst hf₁
  funext q
  rcases eq_or_ne q l with rfl | hq
  · simp [drained]
  · rcases eq_or_ne q (dest c) with rfl | hqc
    · simp [drained, hl, hq, hq.symm]
    · simp [drained, hl, hq, hqc, hqc.symm, hc.symm]

/-- A round of a drain that finds a node. -/
theorem Contents.drain_cons (h : s.Contents f) (hl : f l = c :: xs) (hc : dest c ≠ l) :
    ∃ s₁ f₁, s₁.Contents f₁ ∧ f₁ l = xs ∧ drained f₁ l dest = drained f l dest ∧
      ∀ fuel, drain l dest (fuel + 1) s =
        drain l dest fuel s₁ >>= fun r => .ok (r.1 + 1, r.2) := by
  obtain ⟨hhead, h₁⟩ := h.popFront l
  rw [hl] at hhead h₁
  have hpop : s.popFront l = (some c, (s.popFront l).2) := Prod.ext hhead rfl
  obtain ⟨s₁, hpush, h₂⟩ := h₁.pushBack (l := dest c) (h.notMem_popped hl)
  refine ⟨s₁, _, h₂, ?_, drained_cons hl hc rfl, fun fuel => ?_⟩
  · rw [Function.update_of_ne hc.symm, Function.update_self]
    rfl
  · rw [drain, hpop]
    change (s.popFront l).2.pushBack (dest c) c >>= _ = _
    rw [hpush]
    rfl

/-- The last round of a drain. -/
theorem Contents.drain_nil (h : s.Contents f) (hl : f l = []) :
    ∃ s₁, s₁.Contents (drained f l dest) ∧ drain l dest (fuel + 1) s = .ok (0, s₁) := by
  obtain ⟨hhead, h₁⟩ := h.popFront l
  rw [hl] at hhead h₁
  have hpop : s.popFront l = (none, (s.popFront l).2) := Prod.ext hhead rfl
  have hf : Function.update f l ([] : List C).tail = drained f l dest := by
    funext q
    rcases eq_or_ne q l with rfl | hq
    · simp [drained]
    · simp [drained, hl, hq]
  refine ⟨_, hf ▸ h₁, ?_⟩
  rw [drain, hpop]

/-- As long as the list has nodes a drain goes on. -/
theorem Contents.drain_runs (h : s.Contents f) (hl : f l = xs) (hdest : ∀ c ∈ xs, dest c ≠ l)
    (hle : fuel ≤ xs.length) : drain l dest fuel s = .error .timeout := by
  induction xs generalizing s f fuel with
  | nil =>
    obtain rfl := Nat.le_zero.1 hle
    rfl
  | cons c xs ih =>
    cases fuel with
    | zero => rfl
    | succ fuel =>
      obtain ⟨s₁, f₁, h₁, hl₁, -, hround⟩ := h.drain_cons hl (hdest c List.mem_cons_self)
      rw [hround, ih h₁ hl₁ (fun x hx => hdest x (List.mem_cons_of_mem _ hx))
        (Nat.le_of_succ_le_succ hle)]
      rfl

/-- It ends after a round for each of them. -/
theorem Contents.drain_ends (h : s.Contents f) (hl : f l = xs) (hdest : ∀ c ∈ xs, dest c ≠ l)
    (hlt : xs.length < fuel) :
    ∃ s', drain l dest fuel s = .ok (xs.length, s') ∧ s'.Contents (drained f l dest) := by
  obtain ⟨fuel, rfl⟩ := Nat.exists_eq_add_one_of_ne_zero (Nat.ne_of_gt (Nat.zero_lt_of_lt hlt))
  induction xs generalizing s f fuel with
  | nil =>
    obtain ⟨s₁, h₁, hround⟩ := h.drain_nil hl
    exact ⟨s₁, hround, h₁⟩
  | cons c xs ih =>
    obtain ⟨s₁, f₁, h₁, hl₁, hf₁, hround⟩ := h.drain_cons hl (hdest c List.mem_cons_self)
    have hlt := Nat.lt_of_succ_lt_succ hlt
    obtain ⟨fuel, rfl⟩ := Nat.exists_eq_add_one_of_ne_zero (Nat.ne_of_gt (Nat.zero_lt_of_lt hlt))
    obtain ⟨s', hs', h'⟩ := ih h₁ hl₁ (fun x hx => hdest x (List.mem_cons_of_mem _ hx)) fuel hlt
    refine ⟨s', ?_, hf₁ ▸ h'⟩
    rw [hround, hs']
    rfl

end TimeWheelLists

/-! ## The loops of the timer -/

namespace TimerManager

variable [DecidableEq C]

/-- How a loop that pops the list at `p`, of `n` nodes, comes out of `fuel` rounds. It has ended and
the list is empty, or it is still running, or an exception or an index outside `slots` has stopped
it. -/
def Empties (p : Place) (n fuel : ℕ) : Except Fault (TimerManager C) → Prop
  | .ok s => n < fuel ∧ ∃ f, s.Contents f ∧ f p = []
  | .error e => (e = .timeout → fuel ≤ n) ∧ e ≠ .nullLink

/-- What left a loop, or the state in which it ended. -/
def outcome : Option Fault × TimerManager C → Except Fault (TimerManager C)
  | (none, s) => .ok s
  | (some e, _) => .error e

/-- The lists of the timer hold the queues `f`: its operations are those of the lists, and its loops
take one round for each node. -/
structure Queues (s : TimerManager C) (f : Place → List C) : Prop where
  popPending : s.popPendingEvent.1 = (f .pending).head? ∧
    s.popPendingEvent.2.lists = (s.lists.popFront .pending).2
  pushPending : ∀ c, (s.pushPendingEvent c).map lists = s.lists.pushBack .pending c
  emptySlot : ∀ w i fuel, (s.timewheels w).lower ≠ some w →
    Empties (.slot w i) (f (.slot w i)).length fuel (s.emptySlot w i fuel)
  fire : ∀ w i fuel e, s.fire w i fuel = .error e → e = .timeout
  drain : ∀ fuel, Empties .pending (f .pending).length fuel (outcome (drain fuel s))

variable {s s' : TimerManager C} {f : Place → List C} {w low : Fin TIMEWHEEL_NUM_WHEELS}
  {i : Fin TIMEWHEEL_NUM_SLOTS_PER_WHEEL} {p : Place} {c : C} {xs : List C} {n fuel : ℕ}
  {e : Fault} {r : Except Fault (TimerManager C)}

omit [DecidableEq C] in
/-- Without fuel a loop has emptied nothing. -/
theorem Empties.timeout : Empties p n 0 (.error .timeout : Except Fault (TimerManager C)) :=
  ⟨fun _ => Nat.zero_le n, by simp⟩

omit [DecidableEq C] in
/-- A loop takes a round for the first node of its list. -/
theorem Empties.succ (h : Empties p n fuel r) : Empties p (n + 1) (fuel + 1) r := by
  cases r with
  | ok s => exact ⟨Nat.succ_lt_succ h.1, h.2⟩
  | error e => exact ⟨fun he => Nat.succ_le_succ (h.1 he), h.2⟩

/-- An insertion puts the coroutine into a slot, or stops with an exception or a bad index. -/
theorem Contents.addEventAt_cases (h : s.Contents f) (hc : ∀ q, c ∉ f q) :
    (∃ j s', s.addEventAt w c = .ok s' ∧
      s'.Contents (Function.update f (.slot w j) (f (.slot w j) ++ [c]))) ∨
    ∃ e, s.addEventAt w c = .error e ∧ e ≠ .timeout ∧ e ≠ .nullLink := by
  by_cases hspan : (s.nodes c).delayMS ≥
      (s.timewheels w).intervalMS * TIMEWHEEL_NUM_SLOTS_PER_WHEEL
  · exact .inr ⟨_, if_pos hspan, by simp, by simp⟩
  · generalize hidx : ((s.timewheels w).curSlotIdx + (s.nodes c).delayMS.tdiv
      (s.timewheels w).intervalMS).tmod TIMEWHEEL_NUM_SLOTS_PER_WHEEL = k
    by_cases hk : 0 ≤ k ∧ k < TIMEWHEEL_NUM_SLOTS_PER_WHEEL
    · have hj : k = ((⟨k.toNat, by omega⟩ : Fin TIMEWHEEL_NUM_SLOTS_PER_WHEEL) : ℕ) :=
        (Int.toNat_of_nonneg hk.1).symm
      obtain ⟨s', hs', h', -⟩ := h.addEventAt hc hspan (hidx.trans hj)
      exact .inl ⟨_, s', hs', h'⟩
    · refine .inr ⟨.badSlot k, ?_, by simp, by simp⟩
      have hbad : slotIndex k = .error (.badSlot k) := dif_neg hk
      rw [TimerManager.addEventAt, if_neg hspan, hidx]
      change slotIndex k >>= _ = _
      rw [hbad]
      rfl

/-- `internal_add_event` puts the coroutine into a slot, or stops with an exception or a bad
index. -/
theorem Contents.internalAddEvent_cases (h : s.Contents f) (hc : ∀ q, c ∉ f q) :
    (∃ w j s', s.internalAddEvent c = .ok s' ∧
      s'.Contents (Function.update f (.slot w j) (f (.slot w j) ++ [c]))) ∨
    ∃ e, s.internalAddEvent c = .error e ∧ e ≠ .timeout ∧ e ≠ .nullLink := by
  rw [internalAddEvent]
  split
  · exact .inr ⟨_, rfl, by simp, by simp⟩
  · rcases h.addEventAt_cases hc with ⟨j, s', hs', h'⟩ | herr
    · exact .inl ⟨_, j, s', hs', h'⟩
    · exact .inr herr

/-- A round of the cascade moves the first node to another list, or stops. -/
theorem Contents.cascadeRound_cases (h : s.Contents f) (hp : f (.slot w i) = c :: xs)
    (hlow : low ≠ w) :
    (∃ s' f', s.cascadeRound w low i = .ok (some s') ∧ s'.Contents f' ∧ f' (.slot w i) = xs) ∨
    ∃ e, s.cascadeRound w low i = .error e ∧ e ≠ .timeout ∧ e ≠ .nullLink := by
  obtain ⟨l, hpop, h₁⟩ := h.pop hp
  have hpop : (s.slot w i).popFront s.nodes = (some c, l) := hpop
  have hround : s.cascadeRound w low i = ((s.setList (.slot w i) l).setDelay c
      (((s.setList (.slot w i) l).nodes c).delayMS.tmod
        ((s.setList (.slot w i) l).timewheels w).intervalMS)).addEventAt low c >>=
      fun s' => .ok (some s') := by
    rw [cascadeRound, hpop]
    rfl
  have hne : ∀ j, Place.slot w i ≠ .slot low j := by
    rintro j ⟨⟩
    exact hlow rfl
  rw [hround]
  rcases h₁.setDelay.addEventAt_cases (w := low) (h.notMem_popped hp) with
    ⟨j, s', hs', h'⟩ | ⟨e, he, hfault⟩
  · refine .inl ⟨s', _, by rw [hs']; rfl, h', ?_⟩
    rw [Function.update_of_ne (hne j), Function.update_self]
  · exact .inr ⟨e, by rw [he]; rfl, hfault⟩

/-- The loop of an upper wheel takes one round for each node of its slot. -/
theorem Contents.cascade_empties (h : s.Contents f) (hp : f (.slot w i) = xs) (hlow : low ≠ w) :
    Empties (.slot w i) xs.length fuel (s.cascade w low i fuel) := by
  induction xs generalizing s f fuel with
  | nil =>
    cases fuel with
    | zero => exact .timeout
    | succ fuel =>
      rw [TimerManager.cascade, h.cascadeRound_nil hp]
      exact ⟨Nat.succ_pos fuel, f, h, hp⟩
  | cons c xs ih =>
    cases fuel with
    | zero => exact .timeout
    | succ fuel =>
      rw [TimerManager.cascade]
      rcases h.cascadeRound_cases hp hlow with ⟨s', f', hs', h', hp'⟩ | ⟨e, he, htime, hnull⟩
      · rw [hs']
        exact (ih h' hp').succ
      · rw [he]
        exact ⟨fun heq => absurd heq htime, hnull⟩

omit [DecidableEq C] in
/-- The loop of the lowest wheel takes one round for each node of its slot. -/
theorem Contents.fire_empties (h : s.Contents f) (hp : f (.slot w i) = xs) :
    Empties (.slot w i) xs.length fuel (s.fire w i fuel) := by
  induction xs generalizing s f fuel with
  | nil =>
    cases fuel with
    | zero => exact .timeout
    | succ fuel =>
      rw [TimerManager.fire, h.fireRound_nil hp]
      exact ⟨Nat.succ_pos fuel, f, h, hp⟩
  | cons c xs ih =>
    cases fuel with
    | zero => exact .timeout
    | succ fuel =>
      obtain ⟨s₁, hround, h₁, -, -⟩ := h.fireRound_cons hp
      have h₂ : ({ s₁ with pushed := s₁.pushed ++ [c] } : TimerManager C).Contents
          (Function.update f (.slot w i) xs) := ⟨h₁.holds, h₁.disjoint⟩
      rw [TimerManager.fire, hround]
      exact (ih h₂ (Function.update_self ..)).succ

omit [DecidableEq C] in
/-- The loop of the lowest wheel has no exception to stop it. -/
theorem fire_error (he : s.fire w i fuel = .error e) : e = .timeout := by
  induction fuel generalizing s with
  | zero =>
    cases he
    rfl
  | succ fuel ih =>
    rw [TimerManager.fire] at he
    cases hround : s.fireRound w i with
    | none =>
      rw [hround] at he
      cases he
    | some r =>
      rw [hround] at he
      exact ih he

/-- The drain loop takes one round for each pending coroutine. -/
theorem Contents.drain_empties (h : s.Contents f) (hp : f .pending = xs) :
    Empties .pending xs.length fuel (outcome (drain fuel s)) := by
  induction xs generalizing s f fuel with
  | nil =>
    cases fuel with
    | zero => exact .timeout
    | succ fuel =>
      rw [TimerManager.drain, h.drainOne_nil hp]
      exact ⟨Nat.succ_pos fuel, f, h, hp⟩
  | cons c xs ih =>
    cases fuel with
    | zero => exact .timeout
    | succ fuel =>
      obtain ⟨l, hpop, h₁⟩ := h.pop hp
      have hpop : s.popPendingEvent = (some c, s.setList .pending l) := by
        have hlist : s.pendingEvents.popFront s.nodes = (some c, l) := hpop
        rw [popPendingEvent, hlist]
        rfl
      rw [TimerManager.drain, drainOne_of_pop hpop]
      rcases h₁.internalAddEvent_cases (h.notMem_popped hp) with
        ⟨w, j, s', hs', h'⟩ | ⟨e, he, htime, hnull⟩
      · rw [hs']
        refine (ih h' ?_).succ
        rw [Function.update_of_ne (by simp), Function.update_self]
      · rw [he]
        exact ⟨fun heq => absurd heq htime, hnull⟩

omit [DecidableEq C] in
/-- `pop_pending_event` is `pop_front` of the pending list. -/
theorem lists_popPendingEvent :
    s.popPendingEvent.2.lists = (s.lists.popFront .pending).2 :=
  lists_setList (p := .pending)

/-- `push_pending_event` is `push_back` to the pending list. -/
theorem lists_pushPendingEvent :
    (s.pushPendingEvent c).map lists = s.lists.pushBack .pending c := by
  change (s.pendingEvents.pushBack s.nodes c >>= _).map lists =
    s.pendingEvents.pushBack s.nodes c >>= _
  cases s.pendingEvents.pushBack s.nodes c with
  | error e => rfl
  | ok r => exact congrArg Except.ok (lists_setList (s := { s with nodes := r.1 }) (p := .pending))

/-- The loops of the timer on lists that hold queues. -/
theorem Contents.queues (h : s.Contents f) : s.Queues f where
  popPending := ⟨((contents_lists.2 h).popFront .pending).1, lists_popPendingEvent⟩
  pushPending _ := lists_pushPendingEvent
  emptySlot w i fuel hlower := by
    rw [TimerManager.emptySlot]
    split
    · next low hlow => exact h.cascade_empties rfl fun he => hlower (he ▸ hlow)
    · exact h.fire_empties rfl
  fire w i fuel e he := fire_error he
  drain fuel := h.drain_empties rfl

end TimerManager

/-! ## Every run -/

namespace TimeWheelLists

variable [DecidableEq L] [DecidableEq C] {nodes : C → TimeWheelLinkedListNode C}
  {s : TimeWheelLists L C} {ops : List (ListOp L C)} {l : L} {c : C}

/-- After every run the lists are well-formed and hold their queues, and a loop that drains a list
into others takes one round for each of its nodes. So do the loops of a timer whose lists are among
them. -/
theorem run_wellFormed (h : Run nodes ops s) :
    s.WellFormed (fifo ops) ∧
      (∀ l dest, (∀ c ∈ fifo ops l, dest c ≠ l) → s.Drains (fifo ops) l dest) ∧
      ∀ (place : Place → L) (t : TimerManager C), Function.Injective place →
        t.lists = ⟨s.nodes, fun p => s.lists (place p)⟩ → t.Queues fun p => fifo ops (place p) := by
  have hcont := h.contents
  refine ⟨hcont.wellFormed, fun l dest hdest => ⟨fun fuel hle => ?_, fun fuel hlt => ?_⟩,
    fun place t hinj ht => ?_⟩
  · exact hcont.drain_runs rfl hdest hle
  · obtain ⟨s', hs', h'⟩ := hcont.drain_ends rfl hdest hlt
    exact ⟨s', hs', h'.wellFormed⟩
  · refine (TimerManager.contents_lists.1 ?_).queues
    rw [ht]
    exact ⟨fun p => hcont.holds (place p), fun hp hq => hinj (hcont.disjoint hp hq)⟩

/-- A node that is in no queue can be pushed. -/
theorem Run.push (h : Run nodes ops s) (l : L) (hc : ∀ q, c ∉ fifo ops q) :
    ∃ s', Run nodes (ops ++ [.pushBack l c]) s' := by
  obtain ⟨s', hs', -⟩ := h.contents.pushBack (l := l) hc
  exact ⟨s', .pushBack h (fun q hq => hc q (h.contents.inList_iff.1 hq)) hs'⟩

/-- Two nodes whose links are stale. The first moves to another list while its link still leads to
the second. -/
def moveOps : List (ListOp Bool Bool) :=
  [.pushBack false true, .pushBack false false, .popFront false, .pushBack true true]

/-- A node that was popped from one list goes to another with its old link. -/
theorem run_wellFormed_move : ∃ s : TimeWheelLists Bool Bool,
    s.WellFormed (fifo moveOps) ∧ s.Drains (fifo moveOps) false (fun _ => true) ∧
      fifo moveOps true = [true] ∧ fifo moveOps false = [false] := by
  have h₀ : Run (L := Bool) (fun _ : Bool => ⟨some true, 0⟩) [] _ := .nil
  obtain ⟨s₁, h₁⟩ := h₀.push (c := true) false (by decide)
  obtain ⟨s₂, h₂⟩ := h₁.push (c := false) false (by decide)
  obtain ⟨s, h⟩ := (h₂.popFront false).push (c := true) true (by decide)
  obtain ⟨hwf, hdrains, -⟩ := run_wellFormed h
  exact ⟨s, hwf, hdrains false _ (by decide), by decide, by decide⟩

end TimeWheelLists

end RockCoro
