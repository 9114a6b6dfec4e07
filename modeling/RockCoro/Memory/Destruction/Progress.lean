import Mathlib.Algebra.BigOperators.Group.Finset.Basic
import RockCoro.Lib.Potential
import RockCoro.Memory.Destruction.Conserved

/-!
# `destroy` ends

The thread that destroys always has a step, unless it waits in `pthread_join` (`Ready`): below the
limits of the tables its calls register it, and it retires inside of its critical section. Each node
costs it a number of steps that falls on the way from the list to the heap, and so do the lists, the
threads and the caches that are left (`Owes`). Only an exchange that fails, without a reason or
because the maintainer was faster, puts a step back (`destroy_ends`).
-/

namespace RockCoro

open EpochBasedReclamation TSLinkedListNodeAllocator

/-- A table of `k` places that has room for `t`, or has it already, has it when `t` registers. -/
theorem room_concat {T : Type} [DecidableEq T] {registered : List T} {t : T} {k : ℕ}
    (h : registered.length + (if t ∈ registered then 0 else 1) ≤ k) (ht : t ∉ registered) :
    registered.length < k ∧
      (registered ++ [t]).length + (if t ∈ registered ++ [t] then 0 else 1) ≤ k := by
  rw [if_neg ht] at h
  refine ⟨h, ?_⟩
  rw [if_pos (List.mem_append_right _ (List.mem_singleton_self t)), List.length_append]
  exact h

/-! ## The epochs -/

/-- The steps that a thread has before it in the functions of the epochs, beside those for the
nodes. Two of them are kept for the next call; an exchange that will fail costs two more. -/
def Thread.stepsLeft {N : Type} (x : Thread N) : ℕ :=
  match x.pc with
  | .retiring _ => 0
  | .idle => 2
  | .reclaim _ => 3
  | .popFront _ | .exitGc => 4
  | .exitCas _ | .enterLoad => 5
  | .exitLoad => 6
  | .enterCas old _ => if x.epochStatus = old then 3 else 5
  | .enterGlobal old => if x.epochStatus = old then 4 else 6

/-- The steps left depend on the call and the status only. -/
theorem Thread.stepsLeft_congr {N : Type} {x y : Thread N} (hpc : y.pc = x.pc)
    (hstatus : y.epochStatus = x.epochStatus) : y.stepsLeft = x.stepsLeft := by
  rw [Thread.stepsLeft, Thread.stepsLeft, hpc, hstatus]

/-- Another status costs at most two steps. -/
theorem Thread.stepsLeft_le {N : Type} {x y : Thread N} (hpc : y.pc = x.pc) :
    y.stepsLeft ≤ x.stepsLeft + 2 := by
  rw [Thread.stepsLeft, Thread.stepsLeft, hpc]
  cases x.pc with
  | enterCas old new | enterGlobal old =>
    change ite _ _ _ ≤ ite _ _ _ + 2
    split <;> split <;> omega
  | _ => exact Nat.le_add_right ..

namespace EpochBasedReclamation

variable {T N : Type} [DecidableEq T] {s s' : EpochBasedReclamation T N} {t : T} {ptr : N}
  {spurious : Bool} {e : Option (EpochEvent T N)}

/-- A thread in one of the functions has a step. -/
theorem threadStep_ne_none (hbusy : (s.threads t).pc ≠ .idle) (spurious : Bool) :
    s.threadStep t spurious ≠ none := by
  cases hpc : (s.threads t).pc with
  | idle => exact absurd hpc hbusy
  | enterGlobal | exitGc | popFront | retiring =>
    simp only [threadStep, hpc]
    exact Option.some_ne_none _
  | enterLoad | enterCas | exitLoad | exitCas =>
    simp only [threadStep, hpc]
    split <;> exact Option.some_ne_none _
  | reclaim cur =>
    simp only [threadStep, hpc]
    split
    · exact Option.some_ne_none _
    · split <;> exact Option.some_ne_none _

/-- A step that neither retires nor releases takes one off, unless an exchange fails without a
reason. -/
theorem Inv.stepsLeft_threadStep (h : s.Inv) (hs : s.threadStep t spurious = some (s', e))
    (hreleased : ∀ u p, e ≠ some (.released u p)) (hretired : ∀ u p, e ≠ some (.retired u p)) :
    (s'.threads t).stepsLeft + 1 ≤ (s.threads t).stepsLeft + 2 * spurious.toNat := by
  have hok := h.pc_ok t
  cases hpc : (s.threads t).pc with
  | idle =>
    simp only [EpochBasedReclamation.threadStep, hpc] at hs
    cases hs
  | enterLoad | exitLoad =>
    simp only [EpochBasedReclamation.threadStep, hpc] at hs
    split at hs <;> cases hs <;> rw [EpochBasedReclamation.setPc, setThread_self] <;>
      (simp [Thread.stepsLeft, hpc]; try omega)
  | enterGlobal old =>
    simp only [EpochBasedReclamation.threadStep, hpc] at hs
    cases hs
    rw [EpochBasedReclamation.setPc, setThread_self, Thread.stepsLeft, Thread.stepsLeft, hpc]
    change ite _ _ _ + 1 ≤ ite _ _ _ + _
    split <;> omega
  | enterCas old new =>
    simp only [EpochBasedReclamation.threadStep, hpc] at hs
    split at hs
    · rename_i hcas
      cases hs
      rw [setThread_self]
      simp [Thread.stepsLeft, hpc, hcas.1]
    · rename_i hcas
      cases hs
      rw [EpochBasedReclamation.setPc, setThread_self, Thread.stepsLeft, Thread.stepsLeft, hpc]
      change ite _ _ _ + 1 ≤ ite _ _ _ + _
      rw [if_pos rfl]
      cases spurious with
      | false =>
        rw [if_neg fun he => hcas ⟨he, rfl⟩]
        exact le_rfl
      | true =>
        change _ ≤ _ + 2
        split <;> omega
  | exitCas old =>
    rw [hpc] at hok
    simp only [EpochBasedReclamation.threadStep, hpc] at hs
    split at hs
    · cases hs
      rw [setThread_self]
      simp [Thread.stepsLeft, hpc]
    · rename_i hcas
      cases hs
      rw [EpochBasedReclamation.setPc, setThread_self]
      cases spurious with
      | false => exact absurd ⟨hok.1, rfl⟩ hcas
      | true => simp [Thread.stepsLeft, hpc]
  | exitGc =>
    simp only [EpochBasedReclamation.threadStep, hpc] at hs
    cases hs
    rw [EpochBasedReclamation.setPc, setThread_self]
    simp [Thread.stepsLeft, hpc]
  | popFront =>
    simp only [EpochBasedReclamation.threadStep, hpc] at hs
    cases hs
    rw [setThread_self]
    simp [Thread.stepsLeft, hpc]
  | reclaim cur =>
    simp only [EpochBasedReclamation.threadStep, hpc] at hs
    split at hs
    · cases hs
      rw [EpochBasedReclamation.setPc, setThread_self]
      simp [Thread.stepsLeft, hpc]
    · split at hs
      · cases hs
        exact absurd rfl (hreleased _ _)
      · cases hs
        rw [EpochBasedReclamation.setPc, setThread_self]
        simp [Thread.stepsLeft, hpc]
  | retiring ptr =>
    simp only [EpochBasedReclamation.threadStep, hpc] at hs
    cases hs
    exact absurd rfl (hretired _ _)

/-- The maintainer has a step. -/
theorem Inv.advanceEpoch_ne_none (h : s.Inv) : s.advanceEpoch ≠ none := by
  have hok := h.maintainer_ok
  cases hm : s.maintainer with
  | load | fetchAdd | loadCur | loadCount =>
    simp only [EpochBasedReclamation.advanceEpoch, hm]
    exact Option.some_ne_none _
  | scan min cur rest =>
    cases rest with
    | nil =>
      rw [hm] at hok
      have hmin : min ≠ 0 := by
        rintro rfl
        exact absurd hok.gc_lt (Nat.not_lt_zero _)
      simp only [EpochBasedReclamation.advanceEpoch, hm, if_neg hmin]
      exact Option.some_ne_none _
    | cons i rest =>
      simp only [EpochBasedReclamation.advanceEpoch, hm]
      exact Option.some_ne_none _
  | scanCas min cur i old rest =>
    simp only [EpochBasedReclamation.advanceEpoch, hm]
    split <;> exact Option.some_ne_none _

/-- There is room for the thread, or it has called `init_thread_epoch`. -/
def HasRoom (s : EpochBasedReclamation T N) (t : T) : Prop :=
  s.registered.length + (if t ∈ s.registered then 0 else 1) ≤ EBR_MAX_THREADS

/-- A thread that has room is registered, and has room still. -/
theorem HasRoom.initThreadEpoch (h : s.HasRoom t) :
    ∃ registered, s.initThreadEpoch t = some { s with registered := registered } ∧
      ({ s with registered := registered } : EpochBasedReclamation T N).HasRoom t := by
  rw [EpochBasedReclamation.initThreadEpoch]
  split
  · exact ⟨s.registered, rfl, h⟩
  · rename_i ht
    obtain ⟨hlt, hroom⟩ := room_concat h ht
    exact ⟨s.registered ++ [t], if_pos hlt, hroom⟩

/-- A call can be made by an idle thread that has room. -/
theorem HasRoom.call (h : s.HasRoom t) (pc : ThreadPc N) (hidle : (s.threads t).pc = .idle) :
    ∃ s', s.call t pc = some s' ∧ s'.HasRoom t := by
  obtain ⟨registered, hs, hroom⟩ := h.initThreadEpoch
  simp only [EpochBasedReclamation.call, hidle, hs]
  exact ⟨_, rfl, hroom⟩

end EpochBasedReclamation

/-! ## The allocator -/

namespace TSLinkedListNodeAllocator

variable {T N V : Type} [DecidableEq T] {a a' : TSLinkedListNodeAllocator T N} {t : T}
  {nodes nodes' : Nodes N V} {cached : T → List N} {live : N → Prop}

/-- There is room for the cache of the thread, or it has one. -/
def HasRoom (a : TSLinkedListNodeAllocator T N) (t : T) : Prop :=
  a.registered.length + (if t ∈ a.registered then 0 else 1) ≤ TS_LINKED_LIST_NODE_CACHE_MAX_THREADS

/-- A thread that has room gets a cache, and has room still. -/
theorem HasRoom.initThreadLocalCache (h : a.HasRoom t) :
    ∃ registered, a.initThreadLocalCache t = some { a with registered := registered } ∧
      ({ a with registered := registered } : TSLinkedListNodeAllocator T N).HasRoom t := by
  rw [TSLinkedListNodeAllocator.initThreadLocalCache]
  split
  · exact ⟨a.registered, rfl, h⟩
  · rename_i ht
    obtain ⟨hlt, hroom⟩ := room_concat h ht
    exact ⟨a.registered ++ [t], if_pos hlt, hroom⟩

/-- A call can be made by an idle thread that has room for a cache. -/
theorem HasRoom.call (h : a.HasRoom t) (pc : AllocatorPc N) (hidle : a.pcs t = .idle) :
    ∃ a', a.call t pc = some a' ∧ a'.HasRoom t := by
  obtain ⟨registered, hs, hroom⟩ := h.initThreadLocalCache
  simp only [TSLinkedListNodeAllocator.call, hidle, hs]
  exact ⟨_, rfl, hroom⟩

variable [DecidableEq N]

/-- A step of a call registers no thread. -/
theorem registered_of_threadStep {e : Option (AllocatorEvent N)}
    (hs : a.threadStep nodes t = some (nodes', a', e)) : a'.registered = a.registered := by
  cases hpc : a.pcs t with
  | idle =>
    simp only [TSLinkedListNodeAllocator.threadStep, hpc] at hs
    cases hs
  | getPop | getReleased p | getNext p | releaseMark p | releasePush p =>
    simp only [TSLinkedListNodeAllocator.threadStep, hpc] at hs
    obtain ⟨n, hn, ⟨⟩⟩ := Option.bind_eq_some_iff.1 hs
    rfl
  | batchRelease i =>
    simp only [TSLinkedListNodeAllocator.threadStep, hpc] at hs
    split at hs <;> cases hs <;> rfl

/-- A thread in `release` has a step. -/
theorem Owns.threadStep_ne_none (h : Owns nodes a cached live)
    (hcall : (a.pcs t).allocatorCall = some .release) : a.threadStep nodes t ≠ none := by
  cases hpc : a.pcs t with
  | releaseMark p | releasePush p =>
    obtain ⟨n, hn⟩ := Option.ne_none_iff_exists'.1 (h.hand t p (by rw [hpc]; rfl))
    simp only [TSLinkedListNodeAllocator.threadStep, hpc, hn]
    exact Option.some_ne_none _
  | batchRelease i =>
    simp only [TSLinkedListNodeAllocator.threadStep, hpc]
    split <;> exact Option.some_ne_none _
  | _ =>
    rw [hpc] at hcall
    cases hcall

end TSLinkedListNodeAllocator

/-! ## The next step -/

namespace Destruction

variable {L T N V : Type} [DecidableEq L] [DecidableEq T] [DecidableEq N]
  {d d' : Destruction L T N V} {log : List (SystemEvent L T N V)} {t u : T} {spurious : Bool}
  {a : DestructionAction} {e : Option (SystemEvent L T N V)}

/-- The thread is in `enter_epoch`, or in its critical section. -/
def Enters {N : Type} (x : Thread N) : Prop :=
  match x.pc with
  | .enterLoad | .enterGlobal _ | .enterCas .. => True
  | .idle => isEpochStatusActive x.epochStatus = true
  | _ => False

/-- Between `enter_epoch` and `exit_epoch` the thread is in its critical section. -/
def Inside {L T N V : Type} (d : Destruction L T N V) (t : T) : Prop :=
  match d.pc with
  | .loadHead .. => Enters (d.epochs.threads t)
  | .loop .. | .retire .. | .clearTail .. =>
    isEpochStatusActive (d.epochs.threads t).epochStatus = true
  | _ => True

/-- What lets the thread go on. -/
structure Ready {L T N V : Type} [DecidableEq T] (d : Destruction L T N V) (t : T) : Prop where
  epochs : d.epochs.Inv
  inside : d.Inside t
  threads : d.epochs.HasRoom t
  caches : d.allocator.HasRoom t

omit [DecidableEq N] in
/-- A step in `enter_epoch` ends in it or in the critical section. -/
theorem Enters.threadStep {s s' : EpochBasedReclamation T N} {x : Option (EpochEvent T N)}
    (h : Enters (s.threads t)) (hinv : s.Inv) (hbusy : (s.threads t).pc ≠ .idle)
    (hs : s.threadStep t spurious = some (s', x)) : Enters (s'.threads t) := by
  have hok := hinv.pc_ok t
  rw [Enters] at h
  cases hpc : (s.threads t).pc with
  | idle => exact absurd hpc hbusy
  | enterLoad =>
    simp only [EpochBasedReclamation.threadStep, hpc] at hs
    split at hs
    · rename_i hactive
      cases hs
      rw [EpochBasedReclamation.setPc, setThread_self]
      exact hactive
    · cases hs
      rw [EpochBasedReclamation.setPc, setThread_self]
      trivial
  | enterGlobal old =>
    simp only [EpochBasedReclamation.threadStep, hpc] at hs
    cases hs
    rw [EpochBasedReclamation.setPc, setThread_self]
    trivial
  | enterCas old new =>
    rw [hpc] at hok
    simp only [EpochBasedReclamation.threadStep, hpc] at hs
    split at hs
    · cases hs
      rw [setThread_self]
      exact hok.2.2.2
    · cases hs
      rw [EpochBasedReclamation.setPc, setThread_self]
      trivial
  | _ =>
    rw [hpc] at h
    exact h.elim

omit [DecidableEq L] [DecidableEq N] in
/-- A step of the maintainer. -/
theorem Ready.advanceEpoch {epochs : EpochBasedReclamation T (TaggedPtr N)} (h : d.Ready t)
    (hs : d.epochs.advanceEpoch = some epochs) (hlt : epochs.globalEpoch.toNat < 2 ^ 63) :
    Ready { d with epochs := epochs } t := by
  obtain ⟨hreg, hsame⟩ := frame_of_advanceEpoch hs
  have hactive := active_of_advanceEpoch h.epochs hs t
  refine ⟨h.epochs.advanceEpoch hs hlt, ?_, ?_, h.caches⟩
  · have hinside := h.inside
    simp only [Inside, Enters, (hsame t).1, hactive] at hinside ⊢
    exact hinside
  · rw [EpochBasedReclamation.HasRoom, hreg]
    exact h.threads

/-- A step in one of the functions of the epochs. -/
theorem Ready.epochStep (h : d.Ready t) (hinv : d.Inv t log) (halloc : d.allocator.pcs t = .idle)
    (hbusy : (d.epochs.threads t).pc ≠ .idle) (hs : d.epochStep t spurious = some (d', e)) :
    d'.Ready t := by
  obtain ⟨⟨epochs, x⟩, hstep, hs⟩ := Option.bind_eq_some_iff.1 hs
  obtain ⟨-, hreg⟩ := threads_of_threadStep hstep
  have hthreads : epochs.HasRoom t := by
    rw [EpochBasedReclamation.HasRoom, hreg]
    exact h.threads
  have hinside : Inside { d with epochs := epochs } t := by
    have hcalls := hinv.calls
    have hin := h.inside
    rw [Inside] at hin ⊢
    cases hpc : d.pc with
    | loadHead l ls =>
      rw [hpc] at hin
      exact Enters.threadStep hin h.epochs hbusy hstep
    | retire l cur ls =>
      rw [hpc] at hin hcalls
      simp only [EpochBasedReclamation.threadStep, hcalls.resolve_left hbusy] at hstep
      cases hstep
      rw [setThread_self]
      exact hin
    | loop | clearTail =>
      rw [hpc] at hcalls
      exact absurd hcalls hbusy
    | _ => trivial
  have hready : ∀ {allocator}, allocator.HasRoom t →
      Ready { d with epochs := epochs, allocator := allocator } t := fun hroom =>
    ⟨h.epochs.threadStep hstep, hinside, hthreads, hroom⟩
  rcases x with _ | ⟨v | v | ⟨v, ptr⟩ | ⟨v, ptr⟩⟩
  · cases hs
    exact hready h.caches
  · cases hs
    exact hready h.caches
  · cases hs
    exact hready h.caches
  · cases hs
    exact hready h.caches
  · obtain ⟨allocator, hcall, hroom⟩ := h.caches.call (.releaseMark ptr) halloc
    simp only [hcall] at hs
    cases hs
    exact hready hroom

omit [DecidableEq L] [DecidableEq N] in
/-- A step that calls neither the epochs nor the allocator. -/
theorem Ready.keep (h : d.Ready t) (hepochs : d'.epochs = d.epochs)
    (hallocator : d'.allocator = d.allocator) (hinside : d'.Inside t) : d'.Ready t := by
  refine ⟨?_, hinside, ?_, ?_⟩
  · rw [hepochs]
    exact h.epochs
  · rw [hepochs]
    exact h.threads
  · rw [hallocator]
    exact h.caches

/-- A step in one of the functions `destroy`. -/
theorem Ready.destroyStep (h : d.Ready t) (hinv : d.Inv t log) (halloc : d.allocator.pcs t = .idle)
    (hidle : (d.epochs.threads t).pc = .idle) (hs : d.destroyStep t = some (d', e)) :
    d'.Ready t := by
  have hin := h.inside
  rw [Inside] at hin
  cases hpc : d.pc with
  | lists ls =>
    cases ls with
    | nil =>
      simp only [Destruction.destroyStep, hpc] at hs
      cases hs
      exact h.keep rfl rfl trivial
    | cons l ls =>
      simp only [Destruction.destroyStep, hpc] at hs
      split at hs
      · cases hs
        exact h.keep rfl rfl trivial
      · obtain ⟨epochs, hcall, hroom⟩ := h.threads.call .enterLoad hidle
        simp only [hcall] at hs
        cases hs
        refine ⟨h.epochs.call hcall (fun _ _ => trivial) (by simp), ?_, hroom, h.caches⟩
        obtain ⟨-, registered, rfl, -⟩ := call_eq hcall
        rw [Inside, EpochBasedReclamation.setPc]
        simp only [setThread_self, Enters]
  | loadHead l ls =>
    rw [hpc] at hin
    simp only [Enters, hidle] at hin
    simp only [Destruction.destroyStep, hpc] at hs
    cases hs
    exact h.keep rfl rfl hin
  | loop l cur ls =>
    rw [hpc] at hin
    simp only [Destruction.destroyStep, hpc] at hs
    split at hs
    · cases hs
      exact h.keep rfl rfl hin
    · obtain ⟨epochs, hcall, ⟨⟩⟩ := Option.bind_eq_some_iff.1 hs
      refine ⟨h.epochs.callRetire hcall, ?_, ?_, h.caches⟩
      · obtain ⟨-, -, -, rfl⟩ := callRetire_eq hcall
        change isEpochStatusActive ((d.epochs.setThread t _).threads t).epochStatus = true
        rw [setThread_self]
        exact hin
      · obtain ⟨-, -, -, rfl⟩ := callRetire_eq hcall
        exact h.threads
  | retire l cur ls =>
    rw [hpc] at hin
    simp only [Destruction.destroyStep, hpc] at hs
    obtain ⟨n, hn, ⟨⟩⟩ := Option.bind_eq_some_iff.1 hs
    exact h.keep rfl rfl hin
  | clearTail l ls =>
    simp only [Destruction.destroyStep, hpc] at hs
    cases hs
    exact h.keep rfl rfl trivial
  | exitEpoch ls =>
    obtain ⟨epochs, hcall, hroom⟩ := h.threads.call .exitLoad hidle
    simp only [Destruction.destroyStep, hpc, hcall] at hs
    cases hs
    exact ⟨h.epochs.call hcall (fun _ _ => trivial) (by simp), trivial, hroom, h.caches⟩
  | epochs us =>
    cases us with
    | nil =>
      simp only [Destruction.destroyStep, hpc] at hs
      cases hs
      exact h.keep rfl rfl trivial
    | cons u us =>
      simp only [Destruction.destroyStep, hpc] at hs
      split at hs
      · cases hs
        exact h.keep rfl rfl trivial
      · rename_i r rs hlist
        obtain ⟨allocator, hcall, hroom⟩ := h.caches.call (.releaseMark r.ptr) halloc
        simp only [hcall] at hs
        cases hs
        exact ⟨h.epochs, trivial, h.threads, hroom⟩
  | popFront u us =>
    simp only [Destruction.destroyStep, hpc] at hs
    cases hs
    refine ⟨?_, trivial, h.threads, h.caches⟩
    refine h.epochs.setThread ?_ (h.epochs.epoch_le u) ?_ ?_ (.inl rfl)
    · exact (Classical.em (u ∈ d.epochs.registered)).imp_right (h.epochs.unregistered u)
    · change EpochBasedReclamation.PcOk _ _ (d.epochs.threads u).pc
      rw [hinv.epochs_idle hidle]
      trivial
    · exact fun b _ hb => hb
  | join =>
    simp only [Destruction.destroyStep, hpc] at hs
    split at hs
    · cases hs
      exact h.keep rfl rfl trivial
    · cases hs
  | caches us =>
    cases us with
    | nil =>
      simp only [Destruction.destroyStep, hpc] at hs
      cases hs
    | cons u us =>
      simp only [Destruction.destroyStep, hpc] at hs
      split at hs
      · cases hs
        exact h.keep rfl rfl trivial
      · cases hs
        exact ⟨h.epochs, trivial, h.threads, h.caches⟩

/-- A step leaves the thread ready, as long as the epoch fits into a status. -/
theorem Ready.step (h : d.Ready t) (hinv : d.Inv t log) (hs : d.step t a = some (d', e))
    (hlt : d'.epochs.globalEpoch.toNat < 2 ^ 63) : d'.Ready t := by
  cases a with
  | thread spurious =>
    rw [Destruction.step, Destruction.threadStep] at hs
    split at hs
    · obtain ⟨⟨nodes, allocator, x⟩, hstep, hs⟩ := Option.bind_eq_some_iff.1 hs
      have hroom : allocator.HasRoom t := by
        rw [TSLinkedListNodeAllocator.HasRoom, registered_of_threadStep hstep]
        exact h.caches
      have hready : Ready { d with nodes := nodes, allocator := allocator } t :=
        ⟨h.epochs, h.inside, h.threads, hroom⟩
      rcases x with _ | m | m | p <;> cases hs <;> exact hready
    · rename_i halloc
      split at hs
      · exact h.epochStep hinv (of_not_not halloc) ‹_› hs
      · exact h.destroyStep hinv (of_not_not halloc) (of_not_not ‹_›) hs
  | advanceEpoch =>
    simp only [Destruction.step] at hs
    split at hs
    · cases hs
    · obtain ⟨epochs, hadvance, ⟨⟩⟩ := Option.map_eq_some_iff.1 hs
      exact h.advanceEpoch hadvance hlt

/-- `destroy` is over, or the thread has a step, or it waits for the maintainer, which has one. -/
def Goes (d : Destruction L T N V) (t : T) : Prop :=
  d.pc = .caches [] ∨ (∀ spurious, d.threadStep t spurious ≠ none) ∨
    d.pc = .join ∧ d.epochs.maintainer ≠ .load ∧ d.epochs.advanceEpoch ≠ none

/-- A call of the allocator has a next step. -/
theorem Inv.allocatorStep_ne_none (hinv : d.Inv t log) (hbusy : d.allocator.pcs t ≠ .idle) :
    d.allocatorStep t ≠ none := by
  obtain ⟨w, cached, live, haccounts⟩ := hinv.accounts
  obtain ⟨⟨nodes, allocator, x⟩, hstep⟩ := Option.ne_none_iff_exists'.1
    (haccounts.owns.threadStep_ne_none (hinv.releases hbusy).1)
  simp only [Destruction.allocatorStep, hstep, Option.bind_eq_bind, Option.bind_some]
  split <;> exact Option.some_ne_none _

omit [DecidableEq L] [DecidableEq N] in
/-- A call of the epochs has a next step, whether or not its exchange fails. -/
theorem Ready.epochStep_ne_none (h : d.Ready t) (halloc : d.allocator.pcs t = .idle)
    (hbusy : (d.epochs.threads t).pc ≠ .idle) : d.epochStep t spurious ≠ none := by
  obtain ⟨⟨epochs, x⟩, hstep⟩ := Option.ne_none_iff_exists'.1
    (threadStep_ne_none (s := d.epochs) hbusy spurious)
  simp only [Destruction.epochStep, hstep, Option.bind_eq_bind, Option.bind_some]
  split
  · rename_i v ptr
    obtain ⟨allocator, hcall, -⟩ := h.caches.call (.releaseMark ptr) halloc
    simp only [hcall]
    exact Option.some_ne_none _
  · exact Option.some_ne_none _

/-- `destroy` between two calls makes the next one, waits for the maintainer, or is at its end. -/
theorem Ready.destroyStep_ne_none (h : d.Ready t) (hinv : d.Inv t log)
    (halloc : d.allocator.pcs t = .idle) (hidle : (d.epochs.threads t).pc = .idle) :
    d.pc = .caches [] ∨ d.destroyStep t ≠ none ∨ d.pc = .join ∧ d.epochs.maintainer ≠ .load := by
  have hin := h.inside
  rw [Inside] at hin
  cases hpc : d.pc with
  | lists ls =>
    refine .inr (.inl ?_)
    cases ls with
    | nil =>
      simp only [Destruction.destroyStep, hpc]
      exact Option.some_ne_none _
    | cons l ls =>
      obtain ⟨epochs, hcall, -⟩ := h.threads.call .enterLoad hidle
      simp only [Destruction.destroyStep, hpc, hcall]
      split <;> exact Option.some_ne_none _
  | loadHead | clearTail | popFront =>
    refine .inr (.inl ?_)
    simp only [Destruction.destroyStep, hpc]
    exact Option.some_ne_none _
  | loop l cur ls =>
    rw [hpc] at hin
    have hreg : t ∈ d.epochs.registered := by
      by_contra ht
      cases hin.symm.trans (h.epochs.unregistered t ht).2
    refine .inr (.inl ?_)
    simp only [Destruction.destroyStep, hpc, callRetire, hidle, hreg, hin, and_self, if_true]
    split <;> exact Option.some_ne_none _
  | retire l cur ls =>
    obtain ⟨n, hn⟩ := Option.ne_none_iff_exists'.1 (hinv.retires l cur ls hpc).1
    refine .inr (.inl ?_)
    simp only [Destruction.destroyStep, hpc, hn]
    exact Option.some_ne_none _
  | exitEpoch ls =>
    obtain ⟨epochs, hcall, -⟩ := h.threads.call .exitLoad hidle
    refine .inr (.inl ?_)
    simp only [Destruction.destroyStep, hpc, hcall]
    exact Option.some_ne_none _
  | epochs us =>
    refine .inr (.inl ?_)
    cases us with
    | nil =>
      simp only [Destruction.destroyStep, hpc]
      exact Option.some_ne_none _
    | cons u us =>
      simp only [Destruction.destroyStep, hpc]
      split
      · exact Option.some_ne_none _
      · rename_i r rs hlist
        obtain ⟨allocator, hcall, -⟩ := h.caches.call (.releaseMark r.ptr) halloc
        simp only [hcall]
        exact Option.some_ne_none _
  | join =>
    by_cases hm : d.epochs.maintainer = .load
    · refine .inr (.inl ?_)
      simp only [Destruction.destroyStep, hpc, hm, if_true]
      exact Option.some_ne_none _
    · exact .inr (.inr ⟨rfl, hm⟩)
  | caches us =>
    cases us with
    | nil => exact .inl rfl
    | cons u us =>
      refine .inr (.inl ?_)
      simp only [Destruction.destroyStep, hpc]
      split <;> exact Option.some_ne_none _

/-- A thread that is ready goes on, or waits for a maintainer that goes on. -/
theorem Ready.goes (h : d.Ready t) (hinv : d.Inv t log) : d.Goes t := by
  rw [Goes]
  by_cases halloc : d.allocator.pcs t = .idle
  · by_cases hidle : (d.epochs.threads t).pc = .idle
    · rcases h.destroyStep_ne_none hinv halloc hidle with hdone | hstep | ⟨hjoin, hm⟩
      · exact .inl hdone
      · refine .inr (.inl fun spurious => ?_)
        rw [threadStep, if_neg (not_not.2 halloc), if_neg (not_not.2 hidle)]
        exact hstep
      · exact .inr (.inr ⟨hjoin, hm, h.epochs.advanceEpoch_ne_none⟩)
    · refine .inr (.inl fun spurious => ?_)
      rw [threadStep, if_neg (not_not.2 halloc), if_pos hidle]
      exact h.epochStep_ne_none halloc hidle
  · refine .inr (.inl fun spurious => ?_)
    rw [threadStep, if_pos halloc]
    exact hinv.allocatorStep_ne_none halloc

end Destruction

/-! ## How many steps are left -/

/-- The steps of the thread beside those for the nodes. -/
def DestructionPc.stepsLeft {L T N : Type} : DestructionPc L T N → ℕ
  | .lists ls =>
    12 * ls.length + EBR_MAX_THREADS + TS_LINKED_LIST_NODE_CACHE_MAX_THREADS + 3
  | .exitEpoch ls =>
    12 * ls.length + EBR_MAX_THREADS + TS_LINKED_LIST_NODE_CACHE_MAX_THREADS + 8
  | .clearTail _ ls =>
    12 * ls.length + EBR_MAX_THREADS + TS_LINKED_LIST_NODE_CACHE_MAX_THREADS + 9
  | .loop _ _ ls =>
    12 * ls.length + EBR_MAX_THREADS + TS_LINKED_LIST_NODE_CACHE_MAX_THREADS + 10
  | .loadHead _ ls | .retire _ _ ls =>
    12 * ls.length + EBR_MAX_THREADS + TS_LINKED_LIST_NODE_CACHE_MAX_THREADS + 11
  | .epochs us => us.length + TS_LINKED_LIST_NODE_CACHE_MAX_THREADS + 2
  | .popFront _ us => us.length + TS_LINKED_LIST_NODE_CACHE_MAX_THREADS + 4
  | .join => TS_LINKED_LIST_NODE_CACHE_MAX_THREADS + 1
  | .caches us => us.length

/-- One of the lists changes. -/
theorem sum_length_update {ι α : Type} [DecidableEq ι] {F : Finset ι} {f : ι → List α} {i : ι}
    (hi : i ∈ F) (xs : List α) :
    ∑ j ∈ F, (Function.update f i xs j).length + (f i).length =
      ∑ j ∈ F, (f j).length + xs.length := by
  have hothers : ∀ j ∈ F.erase i, (Function.update f i xs j).length = (f j).length := by
    intro j hj
    rw [Function.update_of_ne (Finset.ne_of_mem_erase hj)]
  rw [← Finset.add_sum_erase F _ hi, ← Finset.add_sum_erase F (fun j => (f j).length) hi,
    Finset.sum_congr rfl hothers, Function.update_self]
  omega

namespace Destruction

variable {L T N V : Type} [DecidableEq L] [DecidableEq T] [DecidableEq N]
  {d d' : Destruction L T N V} {log : List (SystemEvent L T N V)} {t u : T} {spurious : Bool}
  {a : DestructionAction} {e : Option (SystemEvent L T N V)} {F : Finset L} {G H : Finset T}
  {φ c k : ℕ} {l : L} {n : N} {p : TaggedPtr N} {rest : List (Option N)}

/-- The steps for the nodes: nine for one in a list, six for one in a record, and one for one in a
cache. -/
def nodeSteps {L T N : Type} (F : Finset L) (G H : Finset T) (w : L → List N)
    (waiting : T → List (Option N)) (cached : T → List N) : ℕ :=
  9 * ∑ l ∈ F, (w l).length + 6 * ∑ u ∈ G, (waiting u).length + ∑ u ∈ H, (cached u).length

/-- The steps that where the thread stands costs. -/
def ownSteps {L T N V : Type} (d : Destruction L T N V) (t : T) : ℕ :=
  d.pc.stepsLeft + (d.epochs.threads t).stepsLeft + (d.allocator.pcs t).stepsLeft

/-- The thread owes `φ` steps. The nodes are in the lists `F`, in the records of the threads `G` and
in the caches of the threads `H`. -/
def Owes (F : Finset L) (G H : Finset T) (t : T) (d : Destruction L T N V) (φ : ℕ) : Prop :=
  ∃ w cached live, Accounts d.nodes d.allocator (d.first t) d.waiting w cached live ∧
    (∀ l ∉ F, w l = []) ∧ (∀ u ∉ G, d.waiting u = []) ∧ (∀ u ∉ H, cached u = []) ∧
    φ = nodeSteps F G H w d.waiting cached + d.ownSteps t

/-- A step that costs `c` and puts back `k`. -/
def Pays (F : Finset L) (G H : Finset T) (t : T) (c k : ℕ) (d' : Destruction L T N V) (φ : ℕ) :
    Prop :=
  ∃ φ', Owes F G H t d' φ' ∧ c + φ' ≤ φ + k

/-- No node moves. -/
theorem Owes.keep (h : Owes F G H t d φ) (hnodes : d'.nodes = d.nodes)
    (hallocator : d'.allocator = d.allocator) (hfirst : d'.first t = d.first t)
    (hwaiting : d'.waiting = d.waiting) (hown : c + d'.ownSteps t ≤ d.ownSteps t + k) :
    Pays F G H t c k d' φ := by
  obtain ⟨w, cached, live, haccounts, hw, hrecords, hcached, rfl⟩ := h
  refine ⟨_, ⟨w, cached, live, ?_, hw, ?_, hcached, rfl⟩, ?_⟩
  · rw [hnodes, hallocator, hfirst, hwaiting]
    exact haccounts
  · rw [hwaiting]
    exact hrecords
  · rw [hwaiting]
    omega

/-- A node goes from its list to a record. -/
theorem Owes.retire (h : Owes F G H t d φ) (ht : t ∈ G) (hold : d.first t l = some n)
    (hnodes : d'.nodes = d.nodes) (hallocator : d'.allocator = d.allocator)
    (hfirst : d'.first t = Function.update (d.first t) l (Nodes.next d.nodes n))
    (hwaiting : d'.waiting = Function.update d.waiting t (d.waiting t ++ [some n]))
    (hown : c + d'.ownSteps t ≤ d.ownSteps t + k + 3) : Pays F G H t c k d' φ := by
  obtain ⟨w, cached, live, haccounts, hw, hrecords, hcached, rfl⟩ := h
  obtain ⟨v, hv⟩ : ∃ v, w l = n :: v := by
    have hhead := (haccounts.chain l).head
    rw [hold] at hhead
    exact List.head?_eq_some_iff.1 hhead.symm
  have hl : l ∈ F := by
    by_contra hl
    cases hv.symm.trans (hw l hl)
  refine ⟨_, ⟨Function.update w l (w l).tail, cached, live, ?_, fun l' hl' => ?_, fun u hu => ?_,
    hcached, rfl⟩, ?_⟩
  · rw [hnodes, hallocator, hfirst, hwaiting]
    exact haccounts.retire hold
  · rw [Function.update_of_ne (ne_of_mem_of_not_mem hl hl').symm]
    exact hw l' hl'
  · rw [hwaiting, Function.update_of_ne (ne_of_mem_of_not_mem ht hu).symm]
    exact hrecords u hu
  · have hlists := sum_length_update (f := w) hl (w l).tail
    have hthreads := sum_length_update (f := d.waiting) ht (d.waiting t ++ [some n])
    rw [hv, List.tail_cons, List.length_cons] at hlists
    rw [List.length_append, List.length_singleton] at hthreads
    rw [hwaiting, nodeSteps, nodeSteps, hv, List.tail_cons]
    omega

/-- A record is handed to `release`. -/
theorem Owes.release (h : Owes F G H t d φ) (hold : d.waiting u = p.ptr :: rest)
    (hcall : d.allocator.call t (.releaseMark p) = some d'.allocator) (hnodes : d'.nodes = d.nodes)
    (hfirst : d'.first t = d.first t) (hwaiting : d'.waiting = Function.update d.waiting u rest)
    (hown : c + d'.ownSteps t ≤ d.ownSteps t + k + 6) : Pays F G H t c k d' φ := by
  obtain ⟨w, cached, live, haccounts, hw, hrecords, hcached, rfl⟩ := h
  have hu : u ∈ G := by
    by_contra hu
    cases hold.symm.trans (hrecords u hu)
  obtain ⟨live', haccounts'⟩ := haccounts.release hold hcall
  refine ⟨_, ⟨w, cached, live', ?_, hw, fun v hv => ?_, hcached, rfl⟩, ?_⟩
  · rw [hnodes, hfirst, hwaiting]
    exact haccounts'
  · rw [hwaiting, Function.update_of_ne (ne_of_mem_of_not_mem hu hv).symm]
    exact hrecords v hv
  · have hthreads := sum_length_update (f := d.waiting) hu rest
    rw [hold, List.length_cons] at hthreads
    rw [hwaiting, nodeSteps, nodeSteps]
    omega

/-- The first node of a cache is deleted. -/
theorem Owes.delete (h : Owes F G H t d φ) (hhead : (d.allocator.caches u).head.ptr = some n)
    (hidle : d.allocator.pcs u = .idle) (hnodes : d'.nodes = d.nodes)
    (hallocator : d'.allocator = { d.allocator.setCache u { d.allocator.caches u with
      head := (d.nodes n).next } with
        allocated := Function.update d.allocator.allocated n false })
    (hfirst : d'.first t = d.first t) (hwaiting : d'.waiting = d.waiting)
    (hown : c + d'.ownSteps t ≤ d.ownSteps t + k + 1) : Pays F G H t c k d' φ := by
  obtain ⟨w, cached, live, haccounts, hw, hrecords, hcached, rfl⟩ := h
  obtain ⟨v, hv⟩ := haccounts.owns.cached_cons hhead
  have hu : u ∈ H := by
    by_contra hu
    cases hv.symm.trans (hcached u hu)
  refine ⟨_, ⟨w, Function.update cached u (cached u).tail, live, ?_, hw, ?_, fun u' hu' => ?_,
    rfl⟩, ?_⟩
  · rw [hnodes, hallocator, hfirst, hwaiting]
    exact haccounts.delete hhead hidle
  · rw [hwaiting]
    exact hrecords
  · rw [Function.update_of_ne (ne_of_mem_of_not_mem hu hu').symm]
    exact hcached u' hu'
  · have hcaches := sum_length_update (f := cached) hu (cached u).tail
    rw [hv, List.tail_cons, List.length_cons] at hcaches
    rw [hwaiting, nodeSteps, nodeSteps, hv, List.tail_cons]
    omega

/-- A step in the allocator. -/
theorem Owes.allocatorStep (h : Owes F G H t d φ) (ht : t ∈ H) (hinv : d.Inv t log)
    (hbusy : d.allocator.pcs t ≠ .idle) (hs : d.allocatorStep t = some (d', e)) :
    Pays F G H t 1 0 d' φ := by
  obtain ⟨⟨nodes, allocator, x⟩, hstep, hs⟩ := Option.bind_eq_some_iff.1 hs
  obtain ⟨w, cached, live, haccounts, hw, hrecords, hcached, rfl⟩ := h
  obtain ⟨cached', haccounts', hnearer⟩ :=
    haccounts.allocatorStep hstep (hinv.releases hbusy).1
  have hpays : Pays F G H t 1 0 { d with nodes := nodes, allocator := allocator }
      (nodeSteps F G H w d.waiting cached + d.ownSteps t) := by
    refine ⟨_, ⟨w, cached', live, ?_, hw, hrecords, fun u hu => ?_, rfl⟩, ?_⟩
    · rw [first_allocator (hinv.releasing_pc hbusy).1]
      exact haccounts'
    · rw [hnearer.others u (ne_of_mem_of_not_mem ht hu).symm]
      exact hcached u hu
    · have hupdate : cached' = Function.update cached t (cached' t) := by
        funext u
        rcases eq_or_ne u t with rfl | hu
        · rw [Function.update_self]
        · rw [Function.update_of_ne hu, hnearer.others u hu]
      have hcaches := sum_length_update (f := cached) ht (cached' t)
      have hsteps := hnearer.steps
      rw [← hupdate] at hcaches
      change 1 + (nodeSteps F G H w d.waiting cached' +
        (d.pc.stepsLeft + (d.epochs.threads t).stepsLeft + (allocator.pcs t).stepsLeft)) ≤ _
      rw [nodeSteps, nodeSteps, ownSteps]
      omega
  rcases x with _ | m | m | q <;> cases hs <;> exact hpays

/-- A step in `enter_epoch` or `exit_epoch`. -/
theorem Owes.outsideStep (h : Owes F G H t d φ) (hr : d.Ready t) (hinv : d.Inv t log)
    (hpc : d.pc.Outside)
    (hs : d.epochStep t spurious = some (d', e)) :
    Pays F G H t 1 (2 * spurious.toNat) d' φ := by
  obtain ⟨⟨epochs, x⟩, hstep, hs⟩ := Option.bind_eq_some_iff.1 hs
  have hpopFront := hpc.ne.1
  have hkeep : (∀ u p, x ≠ some (.released u p)) → (∀ u p, x ≠ some (.retired u p)) →
      (∀ u, (epochs.threads u).pending = (d.epochs.threads u).pending) →
      Pays F G H t 1 (2 * spurious.toNat) { d with epochs := epochs } φ := by
    intro hreleased hretired hpending
    have hsteps := hr.epochs.stepsLeft_threadStep hstep hreleased hretired
    refine h.keep rfl rfl ?_ (waiting_epochs hpopFront hpopFront hpending) ?_
    · rw [first_of_outside hpc]
      exact first_of_outside hpc
    · change 1 + (d.pc.stepsLeft + (epochs.threads t).stepsLeft + (d.allocator.pcs t).stepsLeft) ≤ _
      rw [ownSteps]
      omega
  cases observed_of_threadStep hstep with
  | moved hlist =>
    cases hs
    exact hkeep (by simp) (by simp) (setThread_pending hlist)
  | entered hold =>
    cases hs
    exact hkeep (by simp) (by simp)
      (setThread_pending (Thread.pending_congr (by simp) (by simp [hold]) rfl))
  | exited hold =>
    cases hs
    exact hkeep (by simp) (by simp)
      (setThread_pending (Thread.pending_congr (by simp) (by simp [hold]) rfl))
  | @released cur r rs hold hlist hle =>
    obtain ⟨allocator, hcall, ⟨⟩⟩ := Option.bind_eq_some_iff.1 hs
    obtain ⟨hwaiting, hfirst, hwaiting'⟩ := released_moves allocator hpc hold hlist
    refine h.release hwaiting hcall rfl hfirst hwaiting' ?_
    obtain ⟨-, hpcs, -⟩ := frame_of_call hcall
    have hsteps : ((d.epochs.setPc t (.popFront cur)).threads t).stepsLeft = 4 := by
      rw [EpochBasedReclamation.setPc, setThread_self]
      rfl
    have hold' : (d.epochs.threads t).stepsLeft = 3 := by rw [Thread.stepsLeft, hold]
    have hcalled : (allocator.pcs t).stepsLeft = 4 := by
      rw [hpcs, Function.update_self]
      rfl
    change 1 + (d.pc.stepsLeft + ((d.epochs.setPc t (.popFront cur)).threads t).stepsLeft +
      (allocator.pcs t).stepsLeft) ≤ _
    rw [hsteps, hcalled, ownSteps, hold']
    omega
  | retired hold => exact absurd hold (hpc.calls_iff.1 hinv.calls _)

/-- A step in one of the functions of the epochs. -/
theorem Owes.epochStep (h : Owes F G H t d φ) (ht : t ∈ G) (hr : d.Ready t) (hinv : d.Inv t log)
    (hbusy : (d.epochs.threads t).pc ≠ .idle)
    (hs : d.epochStep t spurious = some (d', e)) :
    Pays F G H t 1 (2 * spurious.toNat) d' φ := by
  have hcalls := hinv.calls
  cases hpc : d.pc with
  | lists | loadHead => exact h.outsideStep hr hinv (hpc ▸ trivial) hs
  | retire l cur ls =>
    rw [hpc] at hcalls
    have hretiring := hcalls.resolve_left hbusy
    obtain ⟨⟨epochs, x⟩, hstep, hs⟩ := Option.bind_eq_some_iff.1 hs
    simp only [EpochBasedReclamation.threadStep, hretiring] at hstep
    cases hstep
    cases hs
    generalize hrecord : (⟨cur, getEpochStatus d.epochs.globalEpoch false⟩ :
      RetireRecord (TaggedPtr N)) = r
    generalize hx : ({ d.epochs.threads t with
      retireList := (d.epochs.threads t).retireList ++ [r], pc := .idle } :
        Thread (TaggedPtr N)) = x
    have hidle : x.pc = .idle := by rw [← hx]
    have hpending : x.pending = (d.epochs.threads t).pending ++ [r] := by
      rw [Thread.pending_eq (by simp [hidle]), Thread.pending_eq (by simp [hretiring]), ← hx]
    obtain ⟨n, hn, hfirst, hwaiting⟩ :=
      hinv.retired_moves hpc hretiring hidle hpending (by rw [← hrecord])
    refine h.retire ht hn rfl rfl hfirst hwaiting ?_
    have hold : (d.epochs.threads t).stepsLeft = 0 := by rw [Thread.stepsLeft, hretiring]
    have hnew : ((d.epochs.setThread t x).threads t).stepsLeft = 2 := by
      rw [setThread_self, Thread.stepsLeft, hidle]
    rw [ownSteps, ownSteps, hold, hnew]
    change 1 + (d.pc.stepsLeft + 2 + (d.allocator.pcs t).stepsLeft) ≤ _
    omega
  | _ =>
    rw [hpc] at hcalls
    exact absurd hcalls hbusy

/-- The thread calls `enter_epoch` or `exit_epoch`. -/
theorem Owes.call {epochs : EpochBasedReclamation T (TaggedPtr N)} {pc : ThreadPc (TaggedPtr N)}
    {pc' : DestructionPc L T N} (h : Owes F G H t d φ) (hfirst : d.first t = d.heads)
    (hidle : (d.epochs.threads t).pc = .idle) (hcall : d.epochs.call t pc = some epochs)
    (hpc : ∀ u us, d.pc ≠ .popFront u us) (hpc' : pc'.Outside) (hne : ∀ cur, pc ≠ .popFront cur)
    (hsteps : ∀ x : Thread (TaggedPtr N), x.pc = pc →
      1 + pc'.stepsLeft + x.stepsLeft ≤ d.pc.stepsLeft + 2) :
    Pays F G H t 1 0 { d with epochs := epochs, pc := pc' } φ := by
  obtain ⟨-, registered, rfl, -⟩ := call_eq hcall
  refine h.keep rfl rfl ?_ ?_ ?_
  · rw [hfirst]
    exact first_of_outside hpc'
  · refine waiting_epochs hpc hpc'.ne.1 (setThread_pending ?_)
    exact Thread.pending_congr hne (by simp [hidle]) rfl
  · have hold : (d.epochs.threads t).stepsLeft = 2 := by rw [Thread.stepsLeft, hidle]
    have hnew := hsteps { d.epochs.threads t with pc := pc } rfl
    rw [ownSteps, ownSteps, hold]
    change 1 + (pc'.stepsLeft + ((EpochBasedReclamation.setThread
      { d.epochs with registered := registered } t _).threads t).stepsLeft + _) ≤ _
    rw [setThread_self]
    change 1 + (pc'.stepsLeft + Thread.stepsLeft { d.epochs.threads t with pc := pc } +
      (d.allocator.pcs t).stepsLeft) ≤ _
    omega

/-- A step in one of the functions `destroy`, outside of the loops over the records and the
caches. -/
theorem Owes.step_between (h : Owes F G H t d φ) (hallocator : d'.allocator = d.allocator)
    (hnodes : d'.nodes = d.nodes) (hepochs : d'.epochs = d.epochs)
    (hfirst : d'.first t = d.first t) (hwaiting : d'.waiting = d.waiting)
    (hpc : 1 + d'.pc.stepsLeft ≤ d.pc.stepsLeft) : Pays F G H t 1 0 d' φ := by
  refine h.keep hnodes hallocator hfirst hwaiting ?_
  rw [ownSteps, ownSteps, hepochs, hallocator]
  omega

omit [DecidableEq L] [DecidableEq T] [DecidableEq N] in
/-- Between two calls of the thread its next steps are those of `destroy`. -/
theorem ownSteps_idle (halloc : d.allocator.pcs t = .idle)
    (hidle : (d.epochs.threads t).pc = .idle) : d.ownSteps t = d.pc.stepsLeft + 2 := by
  rw [ownSteps, Thread.stepsLeft, hidle, halloc]
  rfl

/-- A step at the check of `head_` in `TSLinkedList::destroy`. -/
theorem Owes.listsStep {ls : List L} (h : Owes F G H t d φ) (hr : d.Ready t)
    (hidle : (d.epochs.threads t).pc = .idle) (hpc : d.pc = .lists ls)
    (hs : d.destroyStep t = some (d', e)) : Pays F G H t 1 0 d' φ := by
  have hfirst : d.first t = d.heads := by simp only [first, hpc]
  cases ls with
  | nil =>
    simp only [Destruction.destroyStep, hpc] at hs
    cases hs
    refine h.step_between rfl rfl rfl hfirst.symm (by simp only [waiting, hpc]) ?_
    have hroom : d.epochs.registered.length ≤ EBR_MAX_THREADS :=
      (Nat.le_add_right ..).trans hr.threads
    rw [hpc]
    change 1 + (d.epochs.registered.length + TS_LINKED_LIST_NODE_CACHE_MAX_THREADS + 2) ≤
      12 * 0 + EBR_MAX_THREADS + TS_LINKED_LIST_NODE_CACHE_MAX_THREADS + 3
    omega
  | cons l ls =>
    simp only [Destruction.destroyStep, hpc] at hs
    split at hs
    · cases hs
      refine h.step_between rfl rfl rfl hfirst.symm (by simp only [waiting, hpc]) ?_
      rw [hpc]
      change 1 + (12 * ls.length + _ + _ + 3) ≤ 12 * (ls.length + 1) + _ + _ + 3
      omega
    · obtain ⟨epochs, hcall, ⟨⟩⟩ := Option.bind_eq_some_iff.1 hs
      refine h.call hfirst hidle hcall (by simp [hpc]) trivial (by simp) fun x hx => ?_
      rw [hpc, Thread.stepsLeft, hx]
      change 1 + (12 * ls.length + _ + _ + 11) + 5 ≤ 12 * (ls.length + 1) + _ + _ + 3 + 2
      omega

/-- A step at the head of the loop of `TSLinkedList::destroy`. -/
theorem Owes.loopStep {cur : TaggedPtr N} {ls : List L} (h : Owes F G H t d φ)
    (halloc : d.allocator.pcs t = .idle) (hidle : (d.epochs.threads t).pc = .idle)
    (hpc : d.pc = .loop l cur ls) (hs : d.destroyStep t = some (d', e)) :
    Pays F G H t 1 0 d' φ := by
  have hfirst : d.first t = Function.update d.heads l cur.ptr := by simp only [first, hpc]
  simp only [Destruction.destroyStep, hpc] at hs
  split at hs
  · rename_i hnull
    cases hs
    refine h.step_between rfl rfl rfl ?_ ?_ ?_
    · rw [hfirst, hnull]
      exact heads_setList
    · simp only [waiting, hpc]
      rfl
    · rw [hpc]
      change 1 + (12 * ls.length + _ + _ + 9) ≤ 12 * ls.length + _ + _ + 10
      omega
  · obtain ⟨epochs, hcall, ⟨⟩⟩ := Option.bind_eq_some_iff.1 hs
    obtain ⟨-, hreg, -, rfl⟩ := callRetire_eq hcall
    have hretiring : ((d.epochs.setPc t (.retiring cur)).threads t).pc = .retiring cur := by
      rw [EpochBasedReclamation.setPc, setThread_self]
    refine h.keep rfl rfl ?_ ?_ ?_
    · rw [hfirst]
      simp only [first, hretiring, reduceCtorEq, if_false]
      rfl
    · simp only [waiting, hpc]
      refine funext fun u => congrArg recordNodes (setThread_pending ?_ u)
      exact Thread.pending_congr (by simp) (by simp [hidle]) rfl
    · have hnew : ((d.epochs.setPc t (.retiring cur)).threads t).stepsLeft = 0 := by
        rw [Thread.stepsLeft, hretiring]
      rw [ownSteps_idle halloc hidle, ownSteps, hnew, hpc, halloc]
      change 1 + (12 * ls.length + _ + _ + 11 + 0 + 0) ≤ 12 * ls.length + _ + _ + 10 + 2 + 0
      omega

/-- A step in the loop of `EpochBasedReclamation::destroy`. -/
theorem Owes.epochsStep {us : List T} (h : Owes F G H t d φ) (hinv : d.Inv t log)
    (halloc : d.allocator.pcs t = .idle) (hidle : (d.epochs.threads t).pc = .idle)
    (hpc : d.pc = .epochs us) (hs : d.destroyStep t = some (d', e)) : Pays F G H t 1 0 d' φ := by
  have hfirst : d.first t = d.heads := by simp only [first, hpc]
  cases us with
  | nil =>
    simp only [Destruction.destroyStep, hpc] at hs
    cases hs
    refine h.step_between rfl rfl rfl hfirst.symm (by simp only [waiting, hpc]) ?_
    rw [hpc]
    exact (Nat.add_comm ..).le.trans (Nat.le_add_left ..)
  | cons u us =>
    simp only [Destruction.destroyStep, hpc] at hs
    split at hs
    · cases hs
      refine h.step_between rfl rfl rfl hfirst.symm (by simp only [waiting, hpc]) ?_
      rw [hpc]
      change 1 + (us.length + _ + 2) ≤ us.length + 1 + _ + 2
      omega
    · rename_i r rs hlist
      obtain ⟨allocator, hcall, ⟨⟩⟩ := Option.bind_eq_some_iff.1 hs
      have hpending : (d.epochs.threads u).pending = r :: rs := by
        rw [Thread.pending_eq (by simp [hinv.epochs_idle hidle]), hlist]
      have hwaiting : d.waiting u = r.ptr.ptr :: recordNodes rs :=
        (congrFun (waiting_eq (by simp [hpc])) u).trans (congrArg recordNodes hpending)
      obtain ⟨-, hpcs, -⟩ := frame_of_call hcall
      refine h.release hwaiting hcall rfl hfirst.symm ?_ ?_
      · simp only [waiting, hpc, hlist]
        rfl
      · have hcalled : (allocator.pcs t).stepsLeft = 4 := by
          rw [hpcs, Function.update_self]
          rfl
        have hold : (d.epochs.threads t).stepsLeft = 2 := by rw [Thread.stepsLeft, hidle]
        rw [ownSteps_idle halloc hidle, hpc]
        change 1 + (us.length + _ + 4 + (d.epochs.threads t).stepsLeft +
          (allocator.pcs t).stepsLeft) ≤ us.length + 1 + _ + 2 + 2 + 0 + 6
        rw [hold, hcalled]
        omega

/-- The record that was handed to `release` is popped. -/
theorem Owes.popFrontStep {us : List T} (h : Owes F G H t d φ) (hinv : d.Inv t log)
    (halloc : d.allocator.pcs t = .idle) (hidle : (d.epochs.threads t).pc = .idle)
    (hpc : d.pc = .popFront u us) (hs : d.destroyStep t = some (d', e)) :
    Pays F G H t 1 0 d' φ := by
  simp only [Destruction.destroyStep, hpc] at hs
  cases hs
  generalize hx : { d.epochs.threads u with
    retireList := (d.epochs.threads u).retireList.tail } = x
  have hxpc : x.pc = .idle := by
    rw [← hx]
    exact hinv.epochs_idle hidle u
  refine h.keep rfl rfl ?_ ?_ ?_
  · simp only [first, hpc]
    rfl
  · simp only [waiting, hpc]
    refine recordNodes_setThread.trans ?_
    rw [Thread.pending_eq (x := x) (by simp [hxpc]), ← hx]
  · have hnew : ((d.epochs.setThread u x).threads t).stepsLeft = 2 := by
      rcases eq_or_ne t u with rfl | hu
      · rw [setThread_self, Thread.stepsLeft, hxpc]
      · rw [setThread_of_ne hu, Thread.stepsLeft, hidle]
    rw [ownSteps_idle halloc hidle, ownSteps, hnew, hpc, halloc]
    change 1 + (us.length + 1 + _ + 2 + 2 + 0) ≤ us.length + _ + 4 + 2 + 0
    omega

/-- A step in `TSLinkedListNodeCache::destroy`. -/
theorem Owes.cachesStep {us : List T} (h : Owes F G H t d φ) (hinv : d.Inv t log)
    (halloc : d.allocator.pcs t = .idle) (hidle : (d.epochs.threads t).pc = .idle)
    (hpc : d.pc = .caches us) (hs : d.destroyStep t = some (d', e)) : Pays F G H t 1 0 d' φ := by
  have hfirst : d.first t = d.heads := by simp only [first, hpc]
  cases us with
  | nil =>
    simp only [Destruction.destroyStep, hpc] at hs
    cases hs
  | cons u us =>
    simp only [Destruction.destroyStep, hpc] at hs
    split at hs
    · cases hs
      refine h.step_between rfl rfl rfl hfirst.symm (by simp only [waiting, hpc]) ?_
      rw [hpc]
      exact (Nat.add_comm ..).le
    · rename_i n hn
      cases hs
      refine h.delete hn (hinv.allocator_idle halloc u) rfl rfl hfirst.symm ?_ ?_
      · simp only [waiting, hpc]
      · have hold : (d.epochs.threads t).stepsLeft = 2 := by rw [Thread.stepsLeft, hidle]
        rw [ownSteps_idle halloc hidle, ownSteps, hpc]
        change 1 + (_ + (d.epochs.threads t).stepsLeft + (d.allocator.pcs t).stepsLeft) ≤ _
        rw [hold, halloc]
        exact (Nat.add_comm ..).le

/-- A step in one of the functions `destroy`. -/
theorem Owes.destroyStep (h : Owes F G H t d φ) (hr : d.Ready t) (hinv : d.Inv t log)
    (halloc : d.allocator.pcs t = .idle) (hidle : (d.epochs.threads t).pc = .idle)
    (hs : d.destroyStep t = some (d', e)) : Pays F G H t 1 0 d' φ := by
  cases hpc : d.pc with
  | lists ls => exact h.listsStep hr hidle hpc hs
  | loadHead l ls =>
    simp only [Destruction.destroyStep, hpc] at hs
    cases hs
    refine h.step_between rfl rfl rfl ?_ (by simp only [waiting, hpc]) ?_
    · simp only [first, hpc]
      exact Function.update_eq_self l d.heads
    · rw [hpc]
      change 1 + (12 * ls.length + _ + _ + 10) ≤ 12 * ls.length + _ + _ + 11
      omega
  | loop l cur ls => exact h.loopStep halloc hidle hpc hs
  | retire l cur ls =>
    simp only [Destruction.destroyStep, hpc] at hs
    obtain ⟨n, hn, ⟨⟩⟩ := Option.bind_eq_some_iff.1 hs
    refine h.step_between rfl rfl rfl ?_ (by simp only [waiting, hpc]) ?_
    · simp only [first, hpc, hidle, if_true, hn, Option.bind_some]
      rfl
    · rw [hpc]
      change 1 + (12 * ls.length + _ + _ + 10) ≤ 12 * ls.length + _ + _ + 11
      omega
  | clearTail l ls =>
    simp only [Destruction.destroyStep, hpc] at hs
    cases hs
    refine h.step_between rfl rfl rfl ?_ ?_ ?_
    · simp only [first, hpc]
      exact heads_setList.trans (Function.update_eq_self l d.heads)
    · simp only [waiting, hpc]
      rfl
    · rw [hpc]
      change 1 + (12 * ls.length + _ + _ + 8) ≤ 12 * ls.length + _ + _ + 9
      omega
  | exitEpoch ls =>
    simp only [Destruction.destroyStep, hpc] at hs
    obtain ⟨epochs, hcall, ⟨⟩⟩ := Option.bind_eq_some_iff.1 hs
    refine h.call (by simp only [first, hpc]) hidle hcall (by simp [hpc]) trivial (by simp)
      fun x hx => ?_
    rw [hpc, Thread.stepsLeft, hx]
    change 1 + (12 * ls.length + _ + _ + 3) + 6 ≤ 12 * ls.length + _ + _ + 8 + 2
    omega
  | epochs us => exact h.epochsStep hinv halloc hidle hpc hs
  | popFront u us => exact h.popFrontStep hinv halloc hidle hpc hs
  | join =>
    simp only [Destruction.destroyStep, hpc] at hs
    split at hs
    · cases hs
      refine h.step_between rfl rfl rfl ?_ (by simp only [waiting, hpc]) ?_
      · simp only [first, hpc]
        rfl
      · have hroom : d.allocator.registered.length ≤ TS_LINKED_LIST_NODE_CACHE_MAX_THREADS :=
          (Nat.le_add_right ..).trans hr.caches
        rw [hpc]
        change 1 + d.allocator.registered.reverse.length ≤ _ + 1
        rw [List.length_reverse]
        omega
    · cases hs
  | caches us => exact h.cachesStep hinv halloc hidle hpc hs

/-! ## Runs -/

/-- What a step puts back: an exchange that fails without a reason, or a status of the thread that
the maintainer has changed. -/
def setbacks (d : Destruction L T N V) (t : T) : DestructionAction → Destruction L T N V → ℕ
  | .thread spurious, _ => spurious.toNat
  | .advanceEpoch, d' =>
    if (d'.epochs.threads t).epochStatus = (d.epochs.threads t).epochStatus then 0 else 1

/-- A step in which the epoch fits into the 63 bits of a status, with what it puts back. -/
def Transition (t : T) (d : Destruction L T N V) (x : DestructionAction × ℕ)
    (d' : Destruction L T N V) : Prop :=
  (∃ e, d.step t x.1 = some (d', e)) ∧ d'.epochs.globalEpoch.toNat < 2 ^ 63 ∧
    x.2 = d.setbacks t x.1 d'

/-- The steps of the thread, without those of the maintainer. -/
def threadSteps : DestructionAction → ℕ
  | .thread _ => 1
  | .advanceEpoch => 0

/-- A step of the maintainer. -/
theorem Owes.advanceEpoch {epochs : EpochBasedReclamation T (TaggedPtr N)} (h : Owes F G H t d φ)
    (hs : d.epochs.advanceEpoch = some epochs) :
    Pays F G H t 0 (2 * d.setbacks t .advanceEpoch { d with epochs := epochs })
      { d with epochs := epochs } φ := by
  obtain ⟨-, hsame⟩ := frame_of_advanceEpoch hs
  obtain ⟨hfirst, hwaiting⟩ := advanceEpoch_moves (t := t) hs
  refine h.keep rfl rfl hfirst hwaiting ?_
  have hsteps : (epochs.threads t).stepsLeft ≤ (d.epochs.threads t).stepsLeft +
      2 * d.setbacks t .advanceEpoch { d with epochs := epochs } := by
    rw [setbacks]
    split
    · rename_i hstatus
      exact (Thread.stepsLeft_congr (hsame t).1 hstatus).le
    · exact Thread.stepsLeft_le (hsame t).1
  change 0 + (d.pc.stepsLeft + (epochs.threads t).stepsLeft + (d.allocator.pcs t).stepsLeft) ≤ _
  rw [ownSteps]
  omega

/-- Each step of the thread is paid for. What it owes grows only when its exchange fails or the
epoch advances under it. -/
theorem Owes.step (h : Owes F G H t d φ) (hG : t ∈ G) (hH : t ∈ H) (hr : d.Ready t)
    (hinv : d.Inv t log) (hs : d.step t a = some (d', e)) :
    Pays F G H t (threadSteps a) (2 * d.setbacks t a d') d' φ := by
  cases a with
  | thread spurious =>
    have hmore : Pays F G H t 1 0 d' φ → Pays F G H t 1 (2 * spurious.toNat) d' φ := by
      rintro ⟨φ', hφ', hle⟩
      exact ⟨φ', hφ', hle.trans (Nat.le_add_right ..)⟩
    rw [Destruction.step, Destruction.threadStep] at hs
    split at hs
    · exact hmore (h.allocatorStep hH hinv ‹_› hs)
    · rename_i halloc
      split at hs
      · exact h.epochStep hG hr hinv ‹_› hs
      · exact hmore (h.destroyStep hr hinv (of_not_not halloc) (of_not_not ‹_›) hs)
  | advanceEpoch =>
    simp only [Destruction.step] at hs
    split at hs
    · cases hs
    · obtain ⟨epochs, hadvance, ⟨⟩⟩ := Option.map_eq_some_iff.1 hs
      exact h.advanceEpoch hadvance

/-- At the start the thread owes a number of steps. -/
theorem Inv.owes {ls : List L} (h : d.Inv t log) (hpc : d.pc = .lists ls) :
    ∃ F G H φ, t ∈ G ∧ t ∈ H ∧ Owes F G H t d φ := by
  obtain ⟨w, cached, live, haccounts⟩ := h.accounts
  have hlists := h.lists
  have hthreads := h.threads
  rw [hpc] at hlists hthreads
  refine ⟨ls.toFinset, insert t d.epochs.registered.toFinset,
    insert t d.allocator.registered.toFinset, _, Finset.mem_insert_self ..,
    Finset.mem_insert_self .., w, cached, live, haccounts, fun l hl => ?_, fun u hu => ?_,
    fun u hu => ?_, rfl⟩
  · have hchain := haccounts.chain l
    simp only [first, hpc, hlists l fun hmem => hl (List.mem_toFinset.2 hmem)] at hchain
    exact hchain.unique rfl
  · exact hthreads u fun hmem => hu (Finset.mem_insert_of_mem (List.mem_toFinset.2 hmem))
  · refine (haccounts.owns.unregistered u fun hmem => hu ?_).2
    exact Finset.mem_insert_of_mem (List.mem_toFinset.2 hmem)

/-- A run from the start: the thread always goes on, and takes at most the steps that it owes and
two for each one that is put back. -/
theorem Ready.ends {ls : List L} (hr : d.Ready t) (h : d.Inv t log) (hpc : d.pc = .lists ls) :
    ∃ k, ∀ xs d', Potential.Steps (Transition t) d xs d' →
      d'.Goes t ∧ Potential.total (fun x => threadSteps x.1) xs ≤
        k + 2 * Potential.total Prod.snd xs := by
  obtain ⟨F, G, H, φ, hG, hH, howes⟩ := h.owes hpc
  refine ⟨φ, fun xs d' hsteps => ?_⟩
  have hstep : ∀ (d : Destruction L T N V) x d' φ,
      (∃ log, d.Inv t log) ∧ d.Ready t ∧ Owes F G H t d φ →
      Transition t d x d' → ∃ φ', ((∃ log, d'.Inv t log) ∧ d'.Ready t ∧ Owes F G H t d' φ') ∧
        threadSteps x.1 + φ' ≤ φ + 2 * x.2 := by
    rintro d x d' φ ⟨⟨log, hinv⟩, hr, howes⟩ ⟨⟨e, hs⟩, hlt, hback⟩
    obtain ⟨φ', howes', hle⟩ := howes.step hG hH hr hinv hs
    rw [← hback] at hle
    exact ⟨φ', ⟨⟨_, hinv.step hs⟩, hr.step hinv hs hlt, howes'⟩, hle⟩
  obtain ⟨φ', ⟨⟨log', hinv'⟩, hr', -⟩, htotal⟩ := hsteps.total_le_of_rel _
    (fun x => threadSteps x.1) (fun x => 2 * x.2) hstep ⟨⟨log, h⟩, hr, howes⟩
  refine ⟨hr'.goes hinv', ?_⟩
  rw [Potential.total_mul] at htotal
  omega

end Destruction

namespace QueueSystem

variable {L T N V : Type} [DecidableEq L] [DecidableEq T] [DecidableEq N]
  {s : QueueSystem L T N V} {log : List (SystemEvent L T N V)} {t : T} {ls : List L}

/-- `destroy` ends. When all operations have returned and the tables have room for the thread, it
has a step in every state of every run in which the epoch fits into the 63 bits of a status, until
everything is destroyed; only in `pthread_join` it may have to wait for a step of the maintainer.
And the number of its steps is bounded, but for exchanges that fail. -/
theorem destroy_ends {nodes : Nodes N V} (hr : Run InBounds (QueueSystem.start nodes) log s)
    (hidle : ∀ u, s.queues.pcs u = .idle) (hls : ∀ l ∉ ls, (s.queues.lists l).head.ptr = none)
    (hthreads : s.epochs.HasRoom t) (hcaches : s.allocator.HasRoom t) :
    ∃ k, ∀ xs d, Potential.Steps (Destruction.Transition t) (s.destroy ls) xs d →
      d.Goes t ∧ Potential.total (fun x => Destruction.threadSteps x.1) xs ≤
        k + 2 * Potential.total Prod.snd xs := by
  have hready : (s.destroy ls).Ready t := ⟨hr.inv.epochs, trivial, hthreads, hcaches⟩
  exact hready.ends (hr.inv.destroy hidle hls) rfl

end QueueSystem

end RockCoro
