import RockCoro.Memory.QueueSystem.Basic
import RockCoro.Memory.TSLinkedList.Frame

/-!
# What the steps of the epochs and of the allocator leave

A step in one of the functions of the epochs stays in this function or returns.
-/

namespace RockCoro

open EpochBasedReclamation

variable {L T N V : Type} [DecidableEq T]

/-! ## The epochs -/

/-- The function of the epochs that a thread is in. -/
inductive EpochCall (N : Type)
  | enterEpoch
  | exitEpoch
  /-- `exit_epoch` behind the exchange of the status. -/
  | reclaim
  | retire (ptr : N)

/-- The function of the epochs that a thread is in. -/
def ThreadPc.epochCall {N : Type} : ThreadPc N → Option (EpochCall N)
  | .idle => none
  | .enterLoad | .enterGlobal _ | .enterCas .. => some .enterEpoch
  | .exitLoad | .exitCas _ => some .exitEpoch
  | .exitGc | .reclaim _ | .popFront _ => some .reclaim
  | .retiring ptr => some (.retire ptr)

/-- A thread is in none of the functions when it is idle. -/
theorem ThreadPc.epochCall_eq_none {N : Type} {pc : ThreadPc N} :
    pc.epochCall = none ↔ pc = .idle := by
  cases pc <;> simp [ThreadPc.epochCall]

section
variable {N : Type} {s s' : EpochBasedReclamation T N} {t u : T} {spurious : Bool}
  {e : Option (EpochEvent T N)}

/-- A step of a thread leaves the others alone and registers none. -/
theorem threads_of_threadStep (hs : s.threadStep t spurious = some (s', e)) :
    (∀ u ≠ t, s'.threads u = s.threads u) ∧ s'.registered = s.registered := by
  cases observed_of_threadStep hs <;> exact ⟨fun u hu => setThread_of_ne hu, rfl⟩

/-- A record is released by its own thread. -/
theorem thread_of_released {v : T} {ptr : N}
    (hs : s.threadStep t spurious = some (s', some (.released v ptr))) :
    v = t := by
  generalize hx : some (EpochEvent.released v ptr) = x at hs
  cases observed_of_threadStep hs with
  | released =>
    cases hx
    rfl
  | moved | entered | exited | retired => cases hx

/-- A step that is not observed stays in the function or returns. -/
theorem epochCall_of_threadStep (hs : s.threadStep t spurious = some (s', none)) :
    (s'.threads t).pc.epochCall = none ∨
    (s'.threads t).pc.epochCall = (s.threads t).pc.epochCall := by
  have hpc' : ∀ {pc : ThreadPc N}, ((s.setPc t pc).threads t).pc = pc := by
    intro pc
    rw [EpochBasedReclamation.setPc, setThread_self]
  cases hpc : (s.threads t).pc with
  | idle =>
    simp only [EpochBasedReclamation.threadStep, hpc] at hs
    cases hs
  | enterLoad | exitLoad =>
    simp only [EpochBasedReclamation.threadStep, hpc] at hs
    split at hs
    · cases hs
      rw [hpc']
      simp [ThreadPc.epochCall]
    · cases hs
      rw [hpc']
      simp [ThreadPc.epochCall]
  | enterGlobal | exitGc =>
    simp only [EpochBasedReclamation.threadStep, hpc] at hs
    cases hs
    exact .inr (by rw [hpc']; rfl)
  | enterCas old new | exitCas old =>
    simp only [EpochBasedReclamation.threadStep, hpc] at hs
    split at hs
    · cases hs
    · cases hs
      exact .inr (by rw [hpc']; rfl)
  | reclaim cur =>
    simp only [EpochBasedReclamation.threadStep, hpc] at hs
    split at hs
    · cases hs
      exact .inl (by rw [hpc']; rfl)
    · split at hs
      · cases hs
      · cases hs
        exact .inl (by rw [hpc']; rfl)
  | popFront cur =>
    simp only [EpochBasedReclamation.threadStep, hpc] at hs
    cases hs
    exact .inr (by rw [setThread_self]; rfl)
  | retiring ptr =>
    simp only [EpochBasedReclamation.threadStep, hpc] at hs
    cases hs

end

/-- `enter_epoch` and `exit_epoch` return without an exchange from a duplicate call only. -/
theorem duplicate_of_threadStep {spurious : Bool} {s s' : EpochBasedReclamation T N}
    (hs : s.threadStep t spurious = some (s', none)) (hidle : (s'.threads t).pc = .idle) :
    ((s.threads t).pc = .enterLoad → isEpochStatusActive (s.threads t).epochStatus = true) ∧
      ((s.threads t).pc = .exitLoad → isEpochStatusActive (s.threads t).epochStatus = false) := by
  constructor
  · intro hpc
    simp only [EpochBasedReclamation.threadStep, hpc] at hs
    split at hs
    · assumption
    · cases hs
      rw [EpochBasedReclamation.setPc, setThread_self] at hidle
      cases hidle
  · intro hpc
    simp only [EpochBasedReclamation.threadStep, hpc] at hs
    split at hs
    · cases hs
      rw [EpochBasedReclamation.setPc, setThread_self] at hidle
      cases hidle
    · exact eq_false_of_ne_true ‹_›

/-- The maintainer moves no thread and changes no retire list. -/
theorem frame_of_advanceEpoch {s s' : EpochBasedReclamation T N} (hs : s.advanceEpoch = some s') :
    s'.registered = s.registered ∧ ∀ t, (s'.threads t).pc = (s.threads t).pc ∧
      (s'.threads t).retireList = (s.threads t).retireList := by
  rcases advanceEpoch_cases hs with ⟨hthreads, hreg⟩ | ⟨min, cur, i, old, rest, -, -, rfl⟩
  · rw [hthreads]
    exact ⟨hreg, fun _ => ⟨rfl, rfl⟩⟩
  · refine ⟨rfl, fun t => ?_⟩
    change ((s.setThread i _).threads t).pc = _ ∧ ((s.setThread i _).threads t).retireList = _
    rcases eq_or_ne t i with rfl | ht
    · rw [setThread_self]
      exact ⟨rfl, rfl⟩
    · rw [setThread_of_ne ht]
      exact ⟨rfl, rfl⟩

/-- The maintainer exchanges the epoch of a thread outside of its critical section. -/
theorem active_of_advanceEpoch {s s' : EpochBasedReclamation T N} (h : s.Inv)
    (hs : s.advanceEpoch = some s') (t : T) : isEpochStatusActive (s'.threads t).epochStatus =
      isEpochStatusActive (s.threads t).epochStatus := by
  rcases advanceEpoch_cases hs with ⟨hthreads, -⟩ | ⟨min, cur, i, old, rest, hm, hstatus, rfl⟩
  · rw [hthreads]
  · have hok := h.maintainer_ok
    rw [hm] at hok
    obtain ⟨hswept, hold, -⟩ := hok
    change isEpochStatusActive ((s.setThread i _).threads t).epochStatus = _
    rcases eq_or_ne t i with rfl | ht
    · have hcur : isEpochStatusActive cur = false := by
        rw [isEpochStatusActive_eq_false, hswept.cur_eq]
        exact h.global_lt
      rw [setThread_self, hstatus]
      exact hcur.trans hold.symm
    · rw [setThread_of_ne ht]

/-- The function of the epochs that an operation on a list is at. -/
def ListPc.epochCall : ListPc L N V → Option (EpochCall (TaggedPtr N))
  | .pushEnter .. | .popEnter _ => some .enterEpoch
  | .pushExit .. | .popExit .. => some .exitEpoch
  | .pushDone .. | .popDone .. => some .reclaim
  | .popRetire _ first _ _ => some (.retire first)
  | _ => none

/-- The node that `retire` is called with is the one that was taken out. -/
theorem popped_of_epochCall {pc : ListPc L N V} {p : TaggedPtr N}
    (h : pc.epochCall = some (.retire p)) :
    pc.footprint.popped = some p := by
  cases pc with
  | popRetire l first next value =>
    cases h
    rfl
  | _ => cases h

/-- Whether the thread is in its critical section when it calls the function. -/
def EpochCall.inside : EpochCall (TaggedPtr N) → Bool
  | .enterEpoch | .reclaim => false
  | .exitEpoch | .retire _ => true

/-- The operation calls each function from where it may be called. -/
theorem inside_of_epochCall {pc : ListPc L N V} {k : EpochCall (TaggedPtr N)}
    (h : pc.epochCall = some k) :
    pc.footprint.inside = k.inside := by
  cases pc with
  | pushEnter | popEnter | popExit | popRetire | popDone =>
    cases h
    rfl
  | pushExit l v node linked | pushDone l v node linked =>
    cases h
    cases linked <;> rfl
  | _ => cases h

/-- What the operation sees of the function. -/
def EpochCall.event (t : T) : EpochCall (TaggedPtr N) → Option (EpochEvent T (TaggedPtr N))
  | .enterEpoch => some (.entered t)
  | .exitEpoch => some (.exited t)
  | .reclaim => none
  | .retire p => some (.retired t p)

/-- The operation sees the end of a function by its event; `exit_epoch` then goes on to reclaim.
-/
theorem event_of_threadStep [DecidableEq L] [DecidableEq N] {s s' : Queues L T N V}
    {spurious : Bool}
    {e : Option (ListEvent L T N V)} {k : EpochCall (TaggedPtr N)}
    (hs : s.threadStep t spurious = some (s', e)) (hk : (s.pcs t).epochCall = some k)
    (hne : k ≠ .reclaim) :
    e = (k.event t).map .epoch ∧ (k = .exitEpoch → (s'.pcs t).epochCall = some .reclaim) := by
  cases hpc : s.pcs t with
  | pushEnter | popEnter =>
    rw [hpc] at hk
    cases hk
    simp only [Queues.threadStep, hpc] at hs
    cases hs
    exact ⟨rfl, fun he => by cases he⟩
  | pushExit | popExit =>
    rw [hpc] at hk
    cases hk
    simp only [Queues.threadStep, hpc] at hs
    cases hs
    exact ⟨rfl, fun _ => congrArg ListPc.epochCall (Function.update_self t _ s.pcs)⟩
  | popRetire l first next value =>
    rw [hpc] at hk
    cases hk
    simp only [Queues.threadStep, hpc] at hs
    split at hs
    · cases hs
    · cases hs
      exact ⟨rfl, fun he => by cases he⟩
  | pushDone | popDone =>
    rw [hpc] at hk
    cases hk
    exact absurd rfl hne
  | _ =>
    rw [hpc] at hk
    cases hk

/-- A step of an operation on a list is no `release`. -/
theorem not_released_of_threadStep [DecidableEq L] [DecidableEq N] {s s' : Queues L T N V}
    {spurious : Bool}
    {e : Option (ListEvent L T N V)} {v : T} {p : TaggedPtr N}
    (hs : s.threadStep t spurious = some (s', e)) :
    e ≠ some (.epoch (.released v p)) := by
  intro he
  have hat := (stays_of_threadStep hs).epoch _ he
  obtain ⟨k, hk, hne⟩ : ∃ k, (s.pcs t).epochCall = some k ∧ k ≠ .reclaim := by
    cases hpc : s.pcs t with
    | pushEnter | popEnter | pushExit | popExit | popRetire => exact ⟨_, rfl, by simp⟩
    | _ =>
      rw [hpc] at hat
      exact hat.elim
  have hevent := (event_of_threadStep hs hk hne).1
  rw [he] at hevent
  cases k <;> simp [EpochCall.event] at hevent

/-- The operation on a list is at `get`. -/
def ListPc.Gets : ListPc L N V → Prop
  | .initGet _ | .pushGet .. => True
  | _ => False

/-- An operation that gets a node is in no function of the epochs. -/
theorem epochCall_of_gets {pc : ListPc L N V} (h : pc.Gets) : pc.epochCall = none := by
  cases pc with
  | initGet | pushGet => rfl
  | _ => exact h.elim

/-- The functions of the allocator. -/
inductive AllocatorCall
  | get
  | release

/-- The function of the allocator that a thread is in. -/
def AllocatorPc.allocatorCall {N : Type} : AllocatorPc N → Option AllocatorCall
  | .idle => none
  | .getPop | .getReleased _ | .getNext _ => some .get
  | .releaseMark _ | .releasePush _ | .batchRelease _ => some .release

/-- A thread is in what the operation on a list has called, and what that has called. -/
structure Synced (pc : ListPc L N V) (x : Thread (TaggedPtr N)) (a : AllocatorPc N) : Prop where
  epochs : ∀ k, x.pc.epochCall = some k → pc.epochCall = some k
  active : isEpochStatusActive x.epochStatus = pc.footprint.inside
  get : a.allocatorCall = some .get → pc.Gets
  release : a.allocatorCall = some .release → ∃ cur, x.pc = .popFront cur

/-- The operation takes the node that `get` returned, if that is free, not released and unlinked.
-/
theorem got_of_gets [DecidableEq L] [DecidableEq N] {s : Queues L T N V} {n : N} {ptr : TaggedPtr N}
    (hgets : (s.pcs t).Gets) (hn : ptr.ptr = some n) (hfree : s.free n = true)
    (hreleased : (s.nodes n).released = false) (hnext : (s.nodes n).next = {}) :
    s.step (.get t ptr) = some (s.got t ptr, none) := by
  have hget : s.get t ptr = some (s.got t ptr) := by
    simp only [Queues.get, Queues.got, hn, Option.bind_eq_bind, Option.bind_some, Option.elim_some]
    rw [if_pos ⟨hfree, hreleased, hnext⟩]
    cases hpc : s.pcs t with
    | initGet | pushGet => rfl
    | _ =>
      rw [hpc] at hgets
      exact hgets.elim
  rw [Queues.step, hget]
  rfl

/-- Getting a node takes it off the free ones and leaves the rest. -/
theorem frame_of_got [DecidableEq N] {s : Queues L T N V} {p : TaggedPtr N} :
    (s.got t p).nodes = s.nodes ∧ (s.got t p).retired = s.retired ∧
      (s.got t p).free = p.ptr.elim s.free fun n => Function.update s.free n false := by
  simp only [Queues.got]
  split <;> exact ⟨rfl, rfl, rfl⟩

/-- Getting a node does not change whether the thread is in its critical section. -/
theorem footprint_of_got [DecidableEq N] {s : Queues L T N V} {p : TaggedPtr N}
    (hgets : (s.pcs t).Gets) :
    ∃ pc, (s.got t p).pcs = Function.update s.pcs t pc ∧
      pc.footprint.inside = (s.pcs t).footprint.inside := by
  cases hpc : s.pcs t with
  | initGet | pushGet =>
    simp only [Queues.got, hpc]
    exact ⟨_, rfl, rfl⟩
  | _ =>
    rw [hpc] at hgets
    exact hgets.elim

variable {pc : ListPc L N V} {x : Thread (TaggedPtr N)} {a : AllocatorPc N}

/-- An operation that is not at a call of the epochs is in none. -/
theorem Synced.idle (h : Synced pc x a) (hpc : pc.epochCall = none) : x.pc = .idle := by
  cases hx : x.pc.epochCall with
  | none => exact ThreadPc.epochCall_eq_none.1 hx
  | some k =>
    rw [h.epochs k hx] at hpc
    cases hpc

/-- A thread is in none of the functions when it is idle. -/
theorem AllocatorPc.allocatorCall_eq_none {N : Type} {a : AllocatorPc N} :
    a.allocatorCall = none ↔ a = .idle := by
  cases a <;> simp [AllocatorPc.allocatorCall]

/-- A thread whose epochs are not at `release` and whose operation is not at `get` is not in the
allocator. -/
theorem Synced.allocator_idle (h : Synced pc x a) (hget : ¬pc.Gets)
    (hx : ∀ cur, x.pc ≠ .popFront cur) :
    a = .idle := by
  cases ha : a.allocatorCall with
  | none => exact AllocatorPc.allocatorCall_eq_none.1 ha
  | some k =>
    cases k with
    | get => exact absurd (h.get ha) hget
    | release =>
      obtain ⟨cur, hcur⟩ := h.release ha
      exact absurd hcur (hx cur)

/-- A step of the allocator stays in the function or returns. -/
theorem allocatorCall_of_threadStep {nodes nodes' : Nodes N V}
    {a a' : TSLinkedListNodeAllocator T N}
    [DecidableEq N] {t : T} {e : Option (AllocatorEvent N)}
    (hs : a.threadStep nodes t = some (nodes', a', e)) :
    (a'.pcs t).allocatorCall = none ∨ (a'.pcs t).allocatorCall = (a.pcs t).allocatorCall := by
  cases hpc : a.pcs t with
  | idle =>
    simp only [TSLinkedListNodeAllocator.threadStep, hpc] at hs
    cases hs
  | getPop | getReleased p | releaseMark p =>
    simp only [TSLinkedListNodeAllocator.threadStep, hpc] at hs
    obtain ⟨n, hn, ⟨⟩⟩ := Option.bind_eq_some_iff.1 hs
    exact .inr (by rw [TSLinkedListNodeAllocator.setPc_pcs_self]; rfl)
  | getNext p =>
    simp only [TSLinkedListNodeAllocator.threadStep, hpc] at hs
    obtain ⟨n, hn, ⟨⟩⟩ := Option.bind_eq_some_iff.1 hs
    exact .inl (by rw [TSLinkedListNodeAllocator.setPc_pcs_self]; rfl)
  | releasePush p =>
    simp only [TSLinkedListNodeAllocator.threadStep, hpc] at hs
    obtain ⟨n, hn, ⟨⟩⟩ := Option.bind_eq_some_iff.1 hs
    rw [TSLinkedListNodeAllocator.setPc_pcs_self]
    split
    · exact .inr rfl
    · exact .inl rfl
  | batchRelease i =>
    simp only [TSLinkedListNodeAllocator.threadStep, hpc] at hs
    split at hs
    · cases hs
      exact .inl (by rw [TSLinkedListNodeAllocator.setPc_pcs_self]; rfl)
    · cases hs
      rw [TSLinkedListNodeAllocator.setPc_pcs_self]
      split
      · exact .inr rfl
      · exact .inl rfl

end RockCoro
