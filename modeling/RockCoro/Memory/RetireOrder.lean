import RockCoro.BasicStruct.Deque
import RockCoro.Memory.EpochRuns

/-!
# The order of the retire lists

`ListStep` says what a step does to the retire lists, what is observed of it, and which calls it
makes on the deques that hold them. Over a run the stamps of a list do not decrease
(`Reaches.inOrder`), its records are released in the order in which they were retired
(`Reaches.fifo`), and it is what its deque holds (`Reaches.areQueues`).
-/

namespace RockCoro

namespace EpochBasedReclamation

variable {T N : Type} [DecidableEq T]

/-! ## Runs -/

/-- The nodes that `t` passed to `release`. -/
def releasedBy (t : T) (log : List (EpochEvent T N)) : List N :=
  log.filterMap fun
    | .released u ptr => if u = t then some ptr else none
    | _ => none

/-- The nodes that `t` retired. -/
def retiredBy (t : T) (log : List (EpochEvent T N)) : List N :=
  log.filterMap fun
    | .retired u ptr => if u = t then some ptr else none
    | _ => none

/-- The calls that a step makes on the deque of the thread, apart from `size` and `front`. -/
def dequeCalls (s : EpochBasedReclamation T N) :
    EpochAction T N → List (Deque.Call T (RetireRecord N))
  | .thread t _ =>
    match (s.threads t).pc with
    | .popFront _ => [.popFront t]
    | .retiring ptr => [.pushBackMove t (.value ⟨ptr, getEpochStatus s.globalEpoch false⟩)]
    | _ => []
  | _ => []

/-- The runs whose states all meet `P`, what is observed of them, and their calls on the deques. -/
inductive Reaches (P : EpochBasedReclamation T N → Prop) : List (EpochEvent T N) →
    List (Deque.Call T (RetireRecord N)) → EpochBasedReclamation T N → Prop
  | init : Reaches P [] [] {}
  | step {log calls s a s' e} (h : Reaches P log calls s) (hs : s.step a = some (s', e))
    (hp : P s') : Reaches P (log ++ e.toList) (calls ++ s.dequeCalls a) s'

variable {s s' : EpochBasedReclamation T N} {t u : T} {x y : Thread N} {a : EpochAction T N}
  {e : Option (EpochEvent T N)} {log log' : List (EpochEvent T N)}

/-! ## What a step does to the retire lists -/

/-- What is released in a log that goes on. -/
theorem releasedBy_append : releasedBy t (log ++ log') = releasedBy t log ++ releasedBy t log' :=
  List.filterMap_append

/-- What is retired in a log that goes on. -/
theorem retiredBy_append : retiredBy t (log ++ log') = retiredBy t log ++ retiredBy t log' :=
  List.filterMap_append

/-- The thread keeps its retire list, and is behind a `release` if it was before. -/
structure SameList (x y : Thread N) : Prop where
  list_eq : y.retireList = x.retireList
  popFront_iff : ∀ cur, y.pc = .popFront cur ↔ x.pc = .popFront cur

/-- A thread that is the same has the same list. -/
theorem SameList.of_eq (h : y = x) : SameList x y := ⟨h ▸ rfl, fun _ => h ▸ .rfl⟩

/-- The pending records are the same as well. -/
theorem SameList.pending_eq (h : SameList x y) : y.pending = x.pending := by
  by_cases hx : ∃ cur, x.pc = .popFront cur
  · obtain ⟨cur, hx⟩ := hx
    rw [Thread.pending, Thread.pending, hx, (h.popFront_iff cur).2 hx, h.list_eq]
  · have hx : ∀ cur, x.pc ≠ .popFront cur := fun cur hc => hx ⟨cur, hc⟩
    exact Thread.pending_congr (fun cur hc => hx cur ((h.popFront_iff cur).1 hc)) hx h.list_eq

/-- A thread that keeps its list changes the list of no thread. -/
theorem sameList_setThread (h : SameList (s.threads t) x) (u : T) :
    SameList (s.threads u) ((s.setThread t x).threads u) := by
  rcases eq_or_ne u t with rfl | hne
  · rw [setThread_self]
    exact h
  · exact .of_eq (setThread_of_ne hne)

/-- A step and the retire lists: what is observed, and the calls on the deques. -/
inductive ListStep (s : EpochBasedReclamation T N) : EpochBasedReclamation T N →
    Option (EpochEvent T N) → List (Deque.Call T (RetireRecord N)) → Prop
  | keeps {s' : EpochBasedReclamation T N} {e : Option (EpochEvent T N)}
    (h : ∀ u, SameList (s.threads u) (s'.threads u)) (hreleased : ∀ u, releasedBy u e.toList = [])
    (hretired : ∀ u, retiredBy u e.toList = []) : ListStep s s' e []
  | releases {t : T} {cur : UInt64} {r : RetireRecord N} {rs : List (RetireRecord N)}
    (hpc : (s.threads t).pc = .reclaim cur) (hlist : (s.threads t).retireList = r :: rs)
    (hle : r.retireEpoch ≤ cur) :
    ListStep s (s.setPc t (.popFront cur)) (some (.released t r.ptr)) []
  | pops {t : T} {cur : UInt64} (hpc : (s.threads t).pc = .popFront cur) :
    ListStep s (s.setThread t { s.threads t with
      retireList := (s.threads t).retireList.tail, pc := .reclaim cur }) none [.popFront t]
  | retires {t : T} {ptr : N} (hpc : (s.threads t).pc = .retiring ptr) :
    ListStep s (s.setThread t { s.threads t with
      retireList := (s.threads t).retireList ++ [⟨ptr, getEpochStatus s.globalEpoch false⟩]
      pc := .idle }) (some (.retired t ptr))
      [.pushBackMove t (.value ⟨ptr, getEpochStatus s.globalEpoch false⟩)]

/-- A thread moves on, to and from no place behind a `release`. -/
theorem ListStep.walks (hlist : x.retireList = (s.threads t).retireList)
    (hpc : ∀ cur, (s.threads t).pc ≠ .popFront cur) (hpc' : ∀ cur, x.pc ≠ .popFront cur)
    (hreleased : ∀ u, releasedBy u e.toList = []) (hretired : ∀ u, retiredBy u e.toList = []) :
    ListStep s (s.setThread t x) e [] := by
  refine .keeps (sameList_setThread ⟨hlist, fun cur => ?_⟩) hreleased hretired
  exact ⟨fun hc => absurd hc (hpc' cur), fun hc => absurd hc (hpc cur)⟩

/-- A step of a thread keeps the retire lists, releases, pops or pushes. -/
theorem listStep_threadStep {b : Bool} (hs : s.threadStep t b = some (s', e)) :
    ListStep s s' e (s.dequeCalls (.thread t b)) := by
  cases hpc : (s.threads t).pc with
  | idle =>
    simp only [threadStep, hpc] at hs
    cases hs
  | enterLoad | exitLoad | enterCas | exitCas =>
    simp only [threadStep, hpc] at hs
    simp only [dequeCalls, hpc]
    split at hs
    · cases hs
      exact .walks rfl (by simp [hpc]) (by simp) (fun _ => rfl) fun _ => rfl
    · cases hs
      exact .walks rfl (by simp [hpc]) (by simp) (fun _ => rfl) fun _ => rfl
  | enterGlobal | exitGc =>
    simp only [threadStep, hpc] at hs
    simp only [dequeCalls, hpc]
    cases hs
    exact .walks rfl (by simp [hpc]) (by simp) (fun _ => rfl) fun _ => rfl
  | reclaim cur =>
    simp only [threadStep, hpc] at hs
    simp only [dequeCalls, hpc]
    split at hs
    · cases hs
      exact .walks rfl (by simp [hpc]) (by simp) (fun _ => rfl) fun _ => rfl
    · split at hs
      · cases hs
        exact .releases hpc ‹_› ‹_›
      · cases hs
        exact .walks rfl (by simp [hpc]) (by simp) (fun _ => rfl) fun _ => rfl
  | popFront cur =>
    simp only [threadStep, hpc] at hs
    simp only [dequeCalls, hpc]
    cases hs
    exact .pops hpc
  | retiring ptr =>
    simp only [threadStep, hpc] at hs
    simp only [dequeCalls, hpc]
    cases hs
    exact .retires hpc

/-- A call begins. -/
theorem ListStep.called {pc : ThreadPc N} (registered : List T) (hidle : (s.threads t).pc = .idle)
    (hpc : ∀ cur, pc ≠ .popFront cur) :
    ListStep s ({ s with registered := registered }.setPc t pc) none [] := by
  refine .keeps (sameList_setThread ⟨rfl, fun cur => ?_⟩) (fun _ => rfl) fun _ => rfl
  exact ⟨fun hc => absurd hc (hpc cur), fun hc => by cases hidle.symm.trans hc⟩

/-- A step keeps the retire lists, releases, pops or pushes. -/
theorem listStep (hs : s.step a = some (s', e)) : ListStep s s' e (s.dequeCalls a) := by
  cases a with
  | enterEpoch t | exitEpoch t =>
    obtain ⟨s₁, hs₁, ⟨⟩⟩ := Option.map_eq_some_iff.1 hs
    obtain ⟨hidle, registered, rfl, -⟩ := call_eq hs₁
    exact .called registered hidle (by simp)
  | retire t ptr =>
    obtain ⟨s₁, hs₁, ⟨⟩⟩ := Option.map_eq_some_iff.1 hs
    obtain ⟨hidle, -, -, rfl⟩ := callRetire_eq hs₁
    exact .called s.registered hidle (by simp)
  | thread t b => exact listStep_threadStep hs
  | advanceEpoch =>
    obtain ⟨s₁, hs₁, ⟨⟩⟩ := Option.map_eq_some_iff.1 hs
    refine .keeps (fun u => ?_) (fun _ => rfl) fun _ => rfl
    rcases advanceEpoch_cases hs₁ with ⟨hthreads, -⟩ | ⟨min, cur, i, old, rest, -, -, rfl⟩
    · exact .of_eq (congrFun hthreads u)
    · have hsame : SameList (s.threads i) { s.threads i with epochStatus := cur } :=
        ⟨rfl, fun _ => .rfl⟩
      exact sameList_setThread hsame u

/-- A thread stays registered. -/
theorem registered_subset (hs : s.step a = some (s', e)) : s.registered ⊆ s'.registered := by
  cases a with
  | enterEpoch t | exitEpoch t =>
    obtain ⟨s₁, hs₁, ⟨⟩⟩ := Option.map_eq_some_iff.1 hs
    obtain ⟨-, registered, rfl, hsub, -⟩ := call_eq hs₁
    exact hsub
  | retire t ptr =>
    obtain ⟨s₁, hs₁, ⟨⟩⟩ := Option.map_eq_some_iff.1 hs
    obtain ⟨-, -, -, rfl⟩ := callRetire_eq hs₁
    exact List.Subset.refl _
  | thread t b =>
    cases observed_of_threadStep hs with
    | moved | entered | exited | released | retired => exact List.Subset.refl _
  | advanceEpoch =>
    obtain ⟨s₁, hs₁, ⟨⟩⟩ := Option.map_eq_some_iff.1 hs
    rcases advanceEpoch_cases hs₁ with ⟨-, hregistered⟩ | ⟨min, cur, i, old, rest, -, -, rfl⟩
    · exact hregistered ▸ List.Subset.refl _
    · exact List.Subset.refl _

/-! ## The order of a retire list -/

/-- The stamps of a retire list do not decrease, and none is above the global epoch. -/
structure InOrder (globalEpoch : UInt64) (x : Thread N) : Prop where
  sorted : x.retireList.Pairwise fun r r' => r.retireEpoch ≤ r'.retireEpoch
  stamp_le : ∀ r ∈ x.retireList, r.retireEpoch ≤ globalEpoch
  ne_nil : ∀ cur, x.pc = .popFront cur → x.retireList ≠ []

/-- What holds of every thread, and of the new state of one. -/
theorem forall_setThread {Q : Thread N → Prop} (h : ∀ u, Q (s.threads u)) (hx : Q x) (u : T) :
    Q ((s.setThread t x).threads u) := by
  rcases eq_or_ne u t with rfl | hne
  · rw [setThread_self]
    exact hx
  · rw [setThread_of_ne hne]
    exact h u

/-- The order does not depend on a global epoch that goes up. -/
theorem InOrder.mono {g g' : UInt64} (h : InOrder g x) (hle : g ≤ g') : InOrder g' x :=
  ⟨h.sorted, fun r hr => UInt64.le_trans (h.stamp_le r hr) hle, h.ne_nil⟩

/-- The order depends on the list and the place only. -/
theorem InOrder.congr {g : UInt64} (h : InOrder g x) (hsame : SameList x y) : InOrder g y := by
  obtain ⟨hlist, hpc⟩ := hsame
  exact ⟨hlist ▸ h.sorted, hlist ▸ h.stamp_le, fun cur hc => hlist ▸ h.ne_nil cur ((hpc cur).1 hc)⟩

/-- A record gets the global epoch as its stamp, which is not below the stamps before it. -/
theorem InOrder.retire {g : UInt64} {ptr : N} (h : InOrder g x) (hlt : g.toNat < 2 ^ 63) :
    InOrder g { x with
      retireList := x.retireList ++ [⟨ptr, getEpochStatus g false⟩]
      pc := .idle } := by
  have hstamp : getEpochStatus g false = g :=
    getEpochStatus_false_of_inactive ((isEpochStatusActive_eq_false g).2 hlt)
  rw [hstamp]
  refine ⟨List.pairwise_append.2 ⟨h.sorted, List.pairwise_singleton .., fun r hr r' hr' => ?_⟩,
    fun r hr => ?_, by simp⟩
  · rw [List.mem_singleton.1 hr']
    exact h.stamp_le r hr
  · rcases List.mem_append.1 hr with hr | hr
    · exact h.stamp_le r hr
    · rw [List.mem_singleton.1 hr]
      exact UInt64.le_refl g

/-- A list that lost its first record is in order. -/
theorem InOrder.pop {g cur : UInt64} (h : InOrder g x) :
    InOrder g { x with retireList := x.retireList.tail, pc := .reclaim cur } :=
  ⟨h.sorted.sublist (List.tail_sublist _), fun r hr => h.stamp_le r (List.mem_of_mem_tail hr),
    by simp⟩

/-- A step keeps the lists in order: a record is pushed with the greatest stamp. -/
theorem ListStep.inOrder {calls : List (Deque.Call T (RetireRecord N))} (hl : ListStep s s' e calls)
    (h : ∀ u, InOrder s.globalEpoch (s.threads u)) (hlt : s.globalEpoch.toNat < 2 ^ 63) (u : T) :
    InOrder s.globalEpoch (s'.threads u) := by
  cases hl with
  | keeps hsame => exact (h u).congr (hsame u)
  | @releases t cur r rs hpc hlist hle =>
    have hx : InOrder s.globalEpoch { s.threads t with pc := .popFront cur } := by
      refine ⟨(h t).sorted, (h t).stamp_le, fun _ _ => ?_⟩
      rw [hlist]
      exact List.cons_ne_nil r rs
    exact forall_setThread h hx u
  | @pops t cur hpc => exact forall_setThread h (h t).pop u
  | @retires t ptr hpc => exact forall_setThread h ((h t).retire hlt) u

/-- A run below the bound is a sequence of its steps. -/
theorem Reaches.steps {calls : List (Deque.Call T (RetireRecord N))}
    (hr : Reaches (fun s => s.globalEpoch.toNat < 2 ^ 63) log calls s) : Steps {} s := by
  induction hr with
  | init => exact .refl
  | step _ hs hlt ih => exact ih.tail ⟨_, _, hs, hlt⟩

/-- The lists are in order in every run below the bound. -/
theorem Reaches.inOrder {calls : List (Deque.Call T (RetireRecord N))}
    (hr : Reaches (fun s => s.globalEpoch.toNat < 2 ^ 63) log calls s) (t : T) :
    InOrder s.globalEpoch (s.threads t) := by
  induction hr generalizing t with
  | init => exact ⟨.nil, by simp, by simp⟩
  | step hr hs _ ih =>
    have hinv := hr.steps.inv
    exact ((listStep hs).inOrder ih hinv.global_lt t).mono (hinv.notBelow_step hs).global_le

/-! ## Records are released as they were retired -/

/-- What was retired was released or is pending. -/
def Fifo (t : T) (log : List (EpochEvent T N)) (x : Thread N) : Prop :=
  retiredBy t log = releasedBy t log ++ x.pending.map RetireRecord.ptr

/-- Nothing retired, nothing released, and the same pending records. -/
theorem Fifo.congr (h : Fifo t log x) (hpending : y.pending = x.pending)
    (hreleased : releasedBy t log' = []) (hretired : retiredBy t log' = []) :
    Fifo t (log ++ log') y := by
  rw [Fifo, retiredBy_append, releasedBy_append, hreleased, hretired, List.append_nil,
    List.append_nil, hpending]
  exact h

/-- A step keeps the order: it adds a record at the end, or releases the first. -/
theorem ListStep.fifo {calls : List (Deque.Call T (RetireRecord N))} (hl : ListStep s s' e calls)
    (h : Fifo u log (s.threads u)) : Fifo u (log ++ e.toList) (s'.threads u) := by
  cases hl with
  | keeps hsame hreleased hretired =>
    exact h.congr (hsame u).pending_eq (hreleased u) (hretired u)
  | @releases t cur r rs hpc hlist hle =>
    rcases eq_or_ne u t with rfl | hne
    · have hpending : (s.threads u).pending = r :: rs := by
        rw [Thread.pending_eq (by simp [hpc]), hlist]
      have hpending' : ((s.setPc u (.popFront cur)).threads u).pending = rs := by
        rw [setPc, setThread_self]
        exact congrArg List.tail hlist
      rw [Fifo, hpending, List.map_cons] at h
      rw [Fifo, hpending', retiredBy_append, releasedBy_append, h]
      simp [retiredBy, releasedBy]
    · refine h.congr ?_ ?_ rfl
      · rw [setPc, setThread_of_ne hne]
      · simp [releasedBy, hne.symm]
  | @pops t cur hpc =>
    rcases eq_or_ne u t with rfl | hne
    · refine h.congr ?_ rfl rfl
      rw [setThread_self, Thread.pending, Thread.pending, hpc]
    · exact h.congr (by rw [setThread_of_ne hne]) rfl rfl
  | @retires t ptr hpc =>
    rcases eq_or_ne u t with rfl | hne
    · rw [Fifo, Thread.pending_eq (by simp [hpc])] at h
      rw [Fifo, setThread_self, Thread.pending_eq (by simp), retiredBy_append, releasedBy_append, h]
      simp [retiredBy, releasedBy]
    · refine h.congr ?_ rfl ?_
      · rw [setThread_of_ne hne]
      · simp [retiredBy, hne.symm]

/-- In every run, with or without the bound, the records are released as they were retired. -/
theorem Reaches.fifo {P : EpochBasedReclamation T N → Prop}
    {calls : List (Deque.Call T (RetireRecord N))} (hr : Reaches P log calls s) (t : T) :
    Fifo t log (s.threads t) := by
  induction hr with
  | init => rfl
  | step _ hs _ ih => exact (listStep hs).fifo ih

/-! ## The deques -/

/-- The retire lists as queues. -/
def queues (threads : List T) (s : EpochBasedReclamation T N) (t : T) :
    Option (List (RetireRecord N)) :=
  if t ∈ threads then some (s.threads t).retireList else none

variable {threads : List T} {calls : List (Deque.Call T (RetireRecord N))}
  {moved : RetireRecord N → RetireRecord N}

/-- Changing the list of a thread changes its queue. -/
theorem update_queues (ht : t ∈ threads) :
    Function.update (queues threads s) t (some x.retireList) =
      queues threads (s.setThread t x) := by
  funext u
  rcases eq_or_ne u t with rfl | hne
  · rw [Function.update_self, queues, if_pos ht, setThread_self]
  · rw [Function.update_of_ne hne, queues, queues, setThread_of_ne hne]

/-- The constructors of the deques. -/
theorem foldlM_init {ref : T → Option (List (RetireRecord N))} (hnodup : threads.Nodup)
    (hnone : ∀ t ∈ threads, ref t = none) :
    (threads.map Deque.Call.init).foldlM (Deque.Call.onQueues moved) ref =
      some fun t => if t ∈ threads then some [] else ref t := by
  induction threads generalizing ref with
  | nil => simp
  | cons t threads ih =>
    obtain ⟨ht, hnodup⟩ := List.nodup_cons.1 hnodup
    have hinit : Deque.Call.onQueues moved ref (.init t) =
        some (Function.update ref t (some [])) := by
      rw [Deque.Call.onQueues, hnone t List.mem_cons_self]
      rfl
    have hnone' : ∀ u ∈ threads, Function.update ref t (some []) u = none := by
      intro u hu
      rw [Function.update_of_ne (fun he : u = t => ht (he ▸ hu))]
      exact hnone u (List.mem_cons_of_mem _ hu)
    rw [List.map_cons, List.foldlM_cons, hinit, Option.bind_eq_bind, Option.bind_some,
      ih hnodup hnone']
    refine congrArg some (funext fun u => ?_)
    rcases eq_or_ne u t with rfl | hne
    · rw [if_neg ht, Function.update_self, if_pos List.mem_cons_self]
    · simp [hne, Function.update_of_ne]

/-- The calls of a step, on the queues. -/
theorem ListStep.onQueues (hl : ListStep s s' e calls)
    (hne : ∀ t cur, (s.threads t).pc = .popFront cur → (s.threads t).retireList ≠ [])
    (hmem : ∀ t, (s.threads t).pc ≠ .idle → t ∈ threads) :
    calls.foldlM (Deque.Call.onQueues moved) (queues threads s) = some (queues threads s') := by
  cases hl with
  | keeps hsame =>
    refine congrArg some (funext fun u => ?_)
    rw [queues, queues, (hsame u).list_eq]
  | @releases t cur r rs hpc hlist hle =>
    have ht := hmem t (by simp [hpc])
    rw [setPc, ← update_queues ht, List.foldlM_nil]
    refine congrArg some (Function.update_eq_self_iff.2 ?_).symm
    rw [queues, if_pos ht]
  | @pops t cur hpc =>
    have ht := hmem t (by simp [hpc])
    obtain ⟨r, rs, hlist⟩ := List.exists_cons_of_ne_nil (hne t cur hpc)
    have hqueue : queues threads s t = some (r :: rs) := by
      rw [queues, if_pos ht, hlist]
    rw [← update_queues ht, List.foldlM_cons, Deque.Call.onQueues, hqueue, hlist]
    rfl
  | @retires t ptr hpc =>
    have ht := hmem t (by simp [hpc])
    have hqueue : queues threads s t = some (s.threads t).retireList := by
      rw [queues, if_pos ht]
    have hpush : Deque.Call.onQueues moved (queues threads s) (.pushBackMove t
        (.value ⟨ptr, getEpochStatus s.globalEpoch false⟩)) = some (Function.update
          (queues threads s) t (some ((s.threads t).retireList ++
            [⟨ptr, getEpochStatus s.globalEpoch false⟩]))) := by
      simp [Deque.Call.onQueues, Deque.Operand.argument, Forward.onLists, Argument.get,
        Argument.leave, appendOnLists, hqueue]
    rw [← update_queues ht, List.foldlM_cons, hpush]
    rfl

/-- The calls of a run, on the queues. -/
theorem Reaches.onQueues (hr : Reaches (fun s => s.globalEpoch.toNat < 2 ^ 63) log calls s)
    (hmem : ∀ t ∈ s.registered, t ∈ threads) :
    calls.foldlM (Deque.Call.onQueues moved) (queues threads ({} : EpochBasedReclamation T N)) =
      some (queues threads s) := by
  induction hr with
  | init => rfl
  | step hr hs _ ih =>
    have hmem := fun t ht => hmem t (registered_subset hs ht)
    rw [List.foldlM_append, ih hmem]
    exact (listStep hs).onQueues (fun t => (hr.inOrder t).ne_nil)
      fun t ht => hmem t (hr.steps.inv.mem_registered ht)

/-- The deques hold the retire lists, if the sizes of their blocks do not overflow. -/
theorem Reaches.areQueues (hr : Reaches (fun s => s.globalEpoch.toNat < 2 ^ 63) log calls s)
    (hnodup : threads.Nodup) (hmem : ∀ t ∈ s.registered, t ∈ threads) (sizeofT INITIAL_CAPACITY : ℕ)
    (hsafe : Fallible.Throughout (Deque.call sizeofT moved INITIAL_CAPACITY)
      (Deque.Safe sizeofT INITIAL_CAPACITY) .never 0 {} (threads.map .init ++ calls)) : ∃ n m,
      Deque.run sizeofT moved INITIAL_CAPACITY (threads.map .init ++ calls) .never 0 {} =
        .ok () n m ∧
      Deque.AreQueues m (queues threads s) := by
  refine Deque.run_areQueues ?_ hsafe
  rw [List.foldlM_append, foldlM_init hnodup fun _ _ => rfl]
  exact hr.onQueues hmem

end EpochBasedReclamation

end RockCoro
