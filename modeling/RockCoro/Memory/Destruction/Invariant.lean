import RockCoro.Memory.Destruction.Accounts

/-!
# The invariant of `destroy`

The lists, the threads and the caches that are destroyed are empty, and every node is accounted for.
-/

namespace RockCoro

open EpochBasedReclamation TSLinkedListNodeAllocator

namespace Destruction

variable {L T N V : Type} [DecidableEq L] [DecidableEq T] [DecidableEq N]

/-- The nodes of records. -/
def recordNodes {N : Type} (rs : List (RetireRecord (TaggedPtr N))) : List (Option N) :=
  rs.map fun r => r.ptr.ptr

/-- The `first` nodes of the lists. -/
def heads {L T N V : Type} (d : Destruction L T N V) (l : L) : Option N := (d.lists l).head.ptr

/-- The first node of each list that is not retired. -/
def first (d : Destruction L T N V) (t : T) : L → Option N :=
  match d.pc with
  | .loop l cur _ => Function.update d.heads l cur.ptr
  | .retire l cur _ =>
    Function.update d.heads l
      (if (d.epochs.threads t).pc = .idle then cur.ptr.bind (Nodes.next d.nodes) else cur.ptr)
  | _ => d.heads

/-- The nodes of each thread that wait for their release. -/
def waiting {L T N V : Type} [DecidableEq T] (d : Destruction L T N V) : T → List (Option N) :=
  let pending u := recordNodes (d.epochs.threads u).pending
  match d.pc with
  | .popFront u _ => Function.update pending u (recordNodes (d.epochs.threads u).retireList.tail)
  | _ => pending

/-- The thread is behind a call of `release`. -/
def Releasing {L T N V : Type} (d : Destruction L T N V) (t : T) : Prop :=
  (∃ cur, (d.epochs.threads t).pc = .popFront cur) ∨ ∃ u us, d.pc = .popFront u us

end Destruction

namespace DestructionPc

variable {L T N : Type}

/-- The lists that are still to be destroyed. -/
def restLists : DestructionPc L T N → List L
  | .lists ls | .clearTail _ ls | .exitEpoch ls => ls
  | .loadHead l ls | .loop l _ ls | .retire l _ ls => l :: ls
  | .epochs _ | .popFront .. | .join | .caches _ => []

/-- The threads whose records are still to be released. -/
def restThreads (registered : List T) : DestructionPc L T N → List T
  | .lists _ | .loadHead .. | .loop .. | .retire .. | .clearTail .. | .exitEpoch _ => registered
  | .epochs us => us
  | .popFront u us => u :: us
  | .join | .caches _ => []

/-- Where the thread can be in the epochs. -/
def Calls : DestructionPc L T N → ThreadPc (TaggedPtr N) → Prop
  | .lists _, pc | .loadHead .., pc => ∀ ptr, pc ≠ .retiring ptr
  | .retire _ cur _, pc => pc = .idle ∨ pc = .retiring cur
  | _, pc => pc = .idle

/-- At the check of `head_`, or in `enter_epoch` or `exit_epoch`. -/
def Outside : DestructionPc L T N → Prop
  | .lists _ | .loadHead .. => True
  | _ => False

variable {pc : DestructionPc L T N}

/-- Outside of a drain the thread is in any call but `retire`. -/
theorem Outside.calls_iff (h : pc.Outside) {x : ThreadPc (TaggedPtr N)} :
    pc.Calls x ↔ ∀ ptr, x ≠ .retiring ptr := by
  cases pc with
  | lists | loadHead => rfl
  | _ => exact h.elim

/-- Outside of a drain all records are still to be released. -/
theorem Outside.restThreads_eq (h : pc.Outside) (registered : List T) :
    pc.restThreads registered = registered := by
  cases pc with
  | lists | loadHead => rfl
  | _ => exact h.elim

/-- Outside of a drain the thread is in none of the loops. -/
theorem Outside.ne (h : pc.Outside) : (∀ u us, pc ≠ .popFront u us) ∧ (∀ us, pc ≠ .caches us) ∧
    ∀ l cur ls, pc ≠ .retire l cur ls := by
  cases pc with
  | lists | loadHead => simp
  | _ => exact h.elim

end DestructionPc

namespace Destruction

variable {L T N V : Type} [DecidableEq L] [DecidableEq T] [DecidableEq N]

/-- The invariant of `destroy`: every node is accounted for, and the parts that are done are
empty. -/
structure Inv (t : T) (log : List (SystemEvent L T N V)) (d : Destruction L T N V) : Prop where
  accounts : ∃ w cached live, Accounts d.nodes d.allocator (d.first t) d.waiting w cached live
  lists : ∀ l ∉ d.pc.restLists, d.heads l = none
  threads : ∀ u ∉ d.pc.restThreads d.epochs.registered, d.waiting u = []
  caches : ∀ us, d.pc = .caches us → ∀ u ∉ us, (d.allocator.caches u).head.ptr = none
  others : ∀ u ≠ t, (d.epochs.threads u).pc = .idle ∧ d.allocator.pcs u = .idle
  calls : d.pc.Calls (d.epochs.threads t).pc
  releases : d.allocator.pcs t ≠ .idle →
    (d.allocator.pcs t).allocatorCall = some .release ∧ d.Releasing t
  retires : ∀ l cur ls, d.pc = .retire l cur ls → cur.ptr ≠ none ∧ t ∈ d.epochs.registered
  heap : ∀ n, heapOf n log = some (d.allocator.allocated n)

variable {d d' : Destruction L T N V} {log : List (SystemEvent L T N V)} {t u : T} {n : N}
  {e : Option (SystemEvent L T N V)}

/-- Between two calls of the thread no thread is in a function of the epochs. -/
theorem Inv.epochs_idle (h : d.Inv t log) (hidle : (d.epochs.threads t).pc = .idle) (u : T) :
    (d.epochs.threads u).pc = .idle := by
  rcases eq_or_ne u t with rfl | hu
  · exact hidle
  · exact (h.others u hu).1

/-- Between two calls of the thread no thread is in a function of the allocator. -/
theorem Inv.allocator_idle (h : d.Inv t log) (halloc : d.allocator.pcs t = .idle) (u : T) :
    d.allocator.pcs u = .idle := by
  rcases eq_or_ne u t with rfl | hu
  · exact halloc
  · exact (h.others u hu).2

omit [DecidableEq L] [DecidableEq T] in
/-- No event, no change of the heap. -/
theorem heapOf_none :
    heapOf n (log ++ (none : Option (SystemEvent L T N V)).toList) = heapOf n log := by
  rw [Option.toList_none, List.append_nil]

/-- Everything is destroyed: no node is allocated. -/
theorem Inv.deleted (h : d.Inv t log) (hpc : d.pc = .caches []) : heapOf n log = some false := by
  obtain ⟨w, cached, live, haccounts⟩ := h.accounts
  have hfirst : d.first t = d.heads := by rw [first, hpc]
  have hw : ∀ l, w l = [] := by
    intro l
    have hchain := haccounts.chain l
    rw [hfirst, h.lists l (by rw [hpc]; exact List.not_mem_nil)] at hchain
    exact hchain.unique rfl
  have hcached : ∀ u, cached u = [] := by
    intro u
    have hchain := haccounts.owns.chain u
    rw [h.caches [] hpc u List.not_mem_nil] at hchain
    exact hchain.unique rfl
  have hidle : d.allocator.pcs t = .idle := by
    by_contra hbusy
    have hcalls := h.calls
    rw [hpc] at hcalls
    have hcalls : (d.epochs.threads t).pc = .idle := hcalls
    rcases (h.releases hbusy).2 with ⟨cur, hcur⟩ | ⟨v, us, hv⟩
    · cases hcalls.symm.trans hcur
    · cases hpc.symm.trans hv
  rw [h.heap n]
  obtain ⟨p, hp⟩ := (haccounts.places.live_iff n).1 trivial
  cases p with
  | linked l =>
    rw [At, hw] at hp
    exact absurd hp List.not_mem_nil
  | retired u =>
    rw [At, h.threads u (by rw [hpc]; exact List.not_mem_nil)] at hp
    exact absurd hp List.not_mem_nil
  | free =>
    obtain ⟨q, hq⟩ := (haccounts.owns.places.live_iff n).1 hp
    cases q with
    | cached u =>
      rw [TSLinkedListNodeAllocator.At, hcached] at hq
      exact absurd hq List.not_mem_nil
    | hand u =>
      rw [TSLinkedListNodeAllocator.At, h.allocator_idle hidle] at hq
      cases hq
    | heap => exact congrArg some hq

/-! ## The steps -/

omit [DecidableEq L] [DecidableEq T] in
/-- A delete frees its node and no other. -/
theorem heapOf_delete {allocated : N → Bool} {m : N}
    (h : ∀ n, heapOf n log = some (allocated n)) (hm : allocated m = true) (n : N) :
    heapOf n (log ++ [.delete m]) = some (Function.update allocated m false n) := by
  rw [heapOf_append, h n, Option.bind_some]
  rcases eq_or_ne n m with rfl | hn
  · simp [SystemEvent.onHeap, hm]
  · simp [SystemEvent.onHeap, hn, hn.symm]

/-- A step that hands over no node. -/
theorem Inv.frame (h : d.Inv t log) (halloc : d.allocator.pcs t = .idle)
    (hnodes : d'.nodes = d.nodes) (hallocator : d'.allocator = d.allocator)
    (hfirst : d'.first t = d.first t) (hwaiting : d'.waiting = d.waiting)
    (hlists : ∀ l ∉ d'.pc.restLists, d'.heads l = none)
    (hthreads : ∀ u ∉ d'.pc.restThreads d'.epochs.registered, d.waiting u = [])
    (hcaches : ∀ us, d'.pc = .caches us → ∀ u ∉ us, (d.allocator.caches u).head.ptr = none)
    (hothers : ∀ u ≠ t, (d'.epochs.threads u).pc = .idle)
    (hcalls : d'.pc.Calls (d'.epochs.threads t).pc)
    (hretires : ∀ l cur ls, d'.pc = .retire l cur ls →
      cur.ptr ≠ none ∧ t ∈ d'.epochs.registered) :
    d'.Inv t (log ++ (none : Option (SystemEvent L T N V)).toList) where
  accounts := by
    rw [hnodes, hallocator, hfirst, hwaiting]
    exact h.accounts
  lists := hlists
  threads u hu := by
    rw [hwaiting]
    exact hthreads u hu
  caches := by
    rw [hallocator]
    exact hcaches
  others u hu := ⟨hothers u hu, by rw [hallocator]; exact (h.others u hu).2⟩
  calls := hcalls
  releases hbusy := by
    rw [hallocator] at hbusy
    exact absurd halloc hbusy
  retires := hretires
  heap n := by
    rw [heapOf_none, hallocator]
    exact h.heap n

/-- A thread in `release` follows no list and deletes no cache. -/
theorem Inv.releasing_pc (h : d.Inv t log) (hbusy : d.allocator.pcs t ≠ .idle) :
    (∀ l cur ls, d.pc ≠ .retire l cur ls) ∧ ∀ us, d.pc ≠ .caches us := by
  obtain ⟨-, hreleasing⟩ := h.releases hbusy
  have hcalls := h.calls
  refine ⟨fun l cur ls hpc => ?_, fun us hpc => ?_⟩
  · rw [hpc] at hcalls
    rcases hreleasing with ⟨g, hg⟩ | ⟨v, us, hv⟩
    · rw [hg] at hcalls
      rcases hcalls with hc | hc <;> cases hc
    · cases hpc.symm.trans hv
  · rw [hpc] at hcalls
    rcases hreleasing with ⟨g, hg⟩ | ⟨v, us, hv⟩
    · rw [hg] at hcalls
      cases hcalls
    · cases hpc.symm.trans hv

omit [DecidableEq T] in
/-- `release` moves no `first` node. -/
theorem first_allocator {nodes : Nodes N V} {allocator : TSLinkedListNodeAllocator T N}
    (hpc : ∀ l cur ls, d.pc ≠ .retire l cur ls) :
    first { d with nodes := nodes, allocator := allocator } t = d.first t := by
  rw [first, first]
  cases hc : d.pc with
  | retire l cur ls => exact absurd hc (hpc l cur ls)
  | _ => rfl

/-- A step in the allocator. -/
theorem Inv.allocatorStep (h : d.Inv t log) (hbusy : d.allocator.pcs t ≠ .idle)
    (hs : d.allocatorStep t = some (d', e)) : d'.Inv t (log ++ e.toList) := by
  obtain ⟨⟨nodes, allocator, x⟩, hstep, hs⟩ := Option.bind_eq_some_iff.1 hs
  obtain ⟨hcall, hreleasing⟩ := h.releases hbusy
  obtain ⟨hpcs, hheap, hnew, hdelete⟩ := frame_of_threadStep hstep
  obtain ⟨w, cached, live, haccounts⟩ := h.accounts
  obtain ⟨cached', haccounts', -⟩ := haccounts.allocatorStep hstep hcall
  have hpc := h.releasing_pc hbusy
  have hfirst : first { d with nodes := nodes, allocator := allocator } t = d.first t :=
    first_allocator hpc.1
  have hinv : ∀ {log'}, (∀ n, heapOf n log' = some (allocator.allocated n)) →
      Inv t log' { d with nodes := nodes, allocator := allocator } := by
    intro log' hlog'
    refine ⟨⟨w, cached', live, ?_⟩, h.lists, h.threads, fun us hus => absurd hus (hpc.2 us),
      fun u hu => ⟨(h.others u hu).1, ?_⟩, h.calls, fun hbusy' =>
      ⟨?_, hreleasing⟩, h.retires, hlog'⟩
    · rw [hfirst]
      exact haccounts'
    · change allocator.pcs u = .idle
      rw [hpcs, Function.update_of_ne hu]
      exact (h.others u hu).2
    · rcases allocatorCall_of_threadStep hstep with hnone | hsame
      · exact absurd (AllocatorPc.allocatorCall_eq_none.1 hnone) hbusy'
      · exact hsame.trans hcall
  rcases x with _ | m | m | p
  · cases hs
    refine hinv fun n => ?_
    rw [heapOf_none, hheap]
    exact h.heap n
  · exact absurd rfl (hnew m)
  · cases hs
    refine hinv fun n => ?_
    rw [hheap]
    exact heapOf_delete h.heap (haccounts.owns.allocated_of_head (hdelete m rfl)) n
  · cases hs
    refine hinv fun n => ?_
    rw [heapOf_none, hheap]
    exact h.heap n

omit [DecidableEq L] [DecidableEq N] in
/-- Outside `pop_front` the waiting nodes are those of the records. -/
theorem waiting_eq (hpc : ∀ u us, d.pc ≠ .popFront u us) :
    d.waiting = fun u => recordNodes (d.epochs.threads u).pending := by
  rw [waiting]
  split
  · exact absurd ‹_› (hpc _ _)
  · rfl

omit [DecidableEq T] in
/-- Outside of a drain the first nodes that are not retired are at the heads of the lists. -/
theorem first_of_outside (hpc : d.pc.Outside) : d.first t = d.heads := by
  rw [first]
  cases hc : d.pc with
  | loop | retire =>
    rw [hc] at hpc
    exact hpc.elim
  | _ => rfl

omit [DecidableEq L] [DecidableEq N] in
/-- The records that wait stay, and with them their nodes. -/
theorem waiting_epochs {epochs : EpochBasedReclamation T (TaggedPtr N)} {pc : DestructionPc L T N}
    (hpc : ∀ u us, d.pc ≠ .popFront u us) (hpc' : ∀ u us, pc ≠ .popFront u us)
    (hpending : ∀ u, (epochs.threads u).pending = (d.epochs.threads u).pending) :
    waiting { d with epochs := epochs, pc := pc } = d.waiting := by
  rw [waiting_eq hpc, waiting_eq]
  · exact funext fun u => congrArg recordNodes (hpending u)
  · exact hpc'

/-- The thread goes on in `enter_epoch` or `exit_epoch`, calls it or returns. -/
theorem Inv.epochMove {epochs : EpochBasedReclamation T (TaggedPtr N)} {pc : DestructionPc L T N}
    (h : d.Inv t log) (halloc : d.allocator.pcs t = .idle) (hold : d.first t = d.heads)
    (hpc : ∀ u us, d.pc ≠ .popFront u us)
    (hthreads : d.pc.restThreads d.epochs.registered = d.epochs.registered)
    (hpc' : pc.Outside) (hlists : ∀ l ∉ pc.restLists, d.heads l = none)
    (hpending : ∀ u, (epochs.threads u).pending = (d.epochs.threads u).pending)
    (hreg : d.epochs.registered ⊆ epochs.registered)
    (hother : ∀ u ≠ t, epochs.threads u = d.epochs.threads u)
    (hcalls : ∀ ptr, (epochs.threads t).pc ≠ .retiring ptr) :
    Inv t (log ++ (none : Option (SystemEvent L T N V)).toList)
      { d with epochs := epochs, pc := pc } := by
  have hwaiting : waiting { d with epochs := epochs, pc := pc } = d.waiting :=
    waiting_epochs hpc hpc'.ne.1 hpending
  have hnone : ∀ u ∉ epochs.registered, d.waiting u = [] := by
    intro u hu
    refine h.threads u fun hmem => hu (hreg ?_)
    rw [hthreads] at hmem
    exact hmem
  have hothers : ∀ u ≠ t, (epochs.threads u).pc = .idle := by
    intro u hu
    rw [hother u hu]
    exact (h.others u hu).1
  refine h.frame halloc rfl rfl ?_ hwaiting hlists (fun u hu => ?_) (fun us hus => ?_) hothers
    (hpc'.calls_iff.2 hcalls) fun l cur ls hl => ?_
  · rw [hold]
    exact first_of_outside hpc'
  · refine hnone u ?_
    rw [← hpc'.restThreads_eq epochs.registered]
    exact hu
  · exact absurd hus (hpc'.ne.2.1 us)
  · exact absurd hl (hpc'.ne.2.2 l cur ls)

/-- A record is handed to `release`. -/
theorem Inv.release {p : TaggedPtr N} {rest : List (Option N)} (h : d.Inv t log)
    (hwaiting : d.waiting u = p.ptr :: rest)
    (hcall : d.allocator.call t (.releaseMark p) = some d'.allocator) (hnodes : d'.nodes = d.nodes)
    (hfirst : d'.first t = d.first t) (hwaiting' : d'.waiting = Function.update d.waiting u rest)
    (hlists : ∀ l ∉ d'.pc.restLists, d'.heads l = none)
    (hthreads : ∀ v ∉ d'.pc.restThreads d'.epochs.registered, d.waiting v = [])
    (hmem : u ∈ d'.pc.restThreads d'.epochs.registered) (hcaches : ∀ us, d'.pc ≠ .caches us)
    (hothers : ∀ v ≠ t, (d'.epochs.threads v).pc = .idle)
    (hcalls : d'.pc.Calls (d'.epochs.threads t).pc) (hreleasing : d'.Releasing t)
    (hretires : ∀ l cur ls, d'.pc ≠ .retire l cur ls) :
    d'.Inv t (log ++ (none : Option (SystemEvent L T N V)).toList) := by
  obtain ⟨-, hpcs, hallocated⟩ := frame_of_call hcall
  obtain ⟨w, cached, live, haccounts⟩ := h.accounts
  obtain ⟨live', haccounts'⟩ := haccounts.release hwaiting hcall
  refine ⟨⟨w, cached, live', ?_⟩, hlists, fun v hv => ?_, fun us hus => absurd hus (hcaches us),
    fun v hv => ⟨hothers v hv, ?_⟩, hcalls, fun _ => ⟨?_, hreleasing⟩,
    fun l cur ls hl => absurd hl (hretires l cur ls), fun n => ?_⟩
  · rw [hnodes, hfirst, hwaiting']
    exact haccounts'
  · have hvu : v ≠ u := by
      rintro rfl
      exact hv hmem
    rw [hwaiting', Function.update_of_ne hvu]
    exact hthreads v hv
  · rw [hpcs, Function.update_of_ne hv]
    exact (h.others v hv).2
  · rw [hpcs, Function.update_self]
    rfl
  · rw [heapOf_none, hallocated]
    exact h.heap n

omit [DecidableEq N] in
/-- The other threads wait for the same nodes. -/
theorem recordNodes_setThread {epochs : EpochBasedReclamation T (TaggedPtr N)}
    {x : Thread (TaggedPtr N)} : (fun u => recordNodes ((epochs.setThread t x).threads u).pending) =
      Function.update (fun u => recordNodes (epochs.threads u).pending) t
        (recordNodes x.pending) := by
  funext u
  rcases eq_or_ne u t with rfl | hu
  · rw [setThread_self, Function.update_self]
  · rw [setThread_of_ne hu, Function.update_of_ne hu]

/-- The first record of the thread is handed to `release`, and does not wait any more. -/
theorem released_moves {cur : UInt64} {r : RetireRecord (TaggedPtr N)}
    {rs : List (RetireRecord (TaggedPtr N))} (allocator : TSLinkedListNodeAllocator T N)
    (hpc : d.pc.Outside) (hold : (d.epochs.threads t).pc = .reclaim cur)
    (hlist : (d.epochs.threads t).retireList = r :: rs) :
    d.waiting t = r.ptr.ptr :: recordNodes rs ∧
      first { d with epochs := d.epochs.setPc t (.popFront cur), allocator := allocator } t =
        d.first t ∧
      waiting { d with epochs := d.epochs.setPc t (.popFront cur), allocator := allocator } =
        Function.update d.waiting t (recordNodes rs) := by
  have hpopFront := hpc.ne.1
  have hpending : (d.epochs.threads t).pending = r :: rs := by
    rw [Thread.pending_eq (by simp [hold]), hlist]
  refine ⟨?_, ?_, ?_⟩
  · exact (congrFun (waiting_eq hpopFront) t).trans (congrArg recordNodes hpending)
  · rw [first_of_outside hpc]
    exact first_of_outside hpc
  · rw [waiting_eq hpopFront]
    refine Eq.trans (waiting_eq ?_) (recordNodes_setThread.trans ?_)
    · exact hpopFront
    · rw [Thread.pending, hlist]
      rfl

/-- A step in `enter_epoch` or `exit_epoch`. -/
theorem Inv.outsideStep {spurious : Bool} (h : d.Inv t log) (halloc : d.allocator.pcs t = .idle)
    (hpc : d.pc.Outside) (hs : d.epochStep t spurious = some (d', e)) :
    d'.Inv t (log ++ e.toList) := by
  obtain ⟨⟨epochs, x⟩, hstep, hs⟩ := Option.bind_eq_some_iff.1 hs
  obtain ⟨hother, hreg⟩ := threads_of_threadStep hstep
  obtain ⟨hpopFront, hcaches, hretire⟩ := hpc.ne
  have hcalls := hpc.calls_iff.1 h.calls
  have hmove : (∀ u, (epochs.threads u).pending = (d.epochs.threads u).pending) →
      (∀ ptr, (epochs.threads t).pc ≠ .retiring ptr) →
        Inv t (log ++ (none : Option (SystemEvent L T N V)).toList) { d with epochs := epochs } :=
    fun hpending hcalls' => h.epochMove halloc (first_of_outside hpc) hpopFront
      (hpc.restThreads_eq _) hpc h.lists hpending (hreg ▸ List.Subset.refl _) hother hcalls'
  cases observed_of_threadStep hstep with
  | moved hlist =>
    cases hs
    refine hmove (setThread_pending hlist) fun ptr hptr => ?_
    -- the thread calls `retire` in `destroy` only
    rcases epochCall_of_threadStep hstep with hnone | hsame
    · rw [hptr] at hnone
      cases hnone
    · rw [hptr] at hsame
      cases hold : (d.epochs.threads t).pc with
      | retiring ptr' => exact hcalls ptr' hold
      | _ =>
        rw [hold] at hsame
        cases hsame
  | entered hold =>
    cases hs
    refine hmove (setThread_pending (Thread.pending_congr (by simp) (by simp [hold]) rfl)) ?_
    rw [setThread_self]
    simp
  | exited hold =>
    cases hs
    refine hmove (setThread_pending (Thread.pending_congr (by simp) (by simp [hold]) rfl)) ?_
    rw [setThread_self]
    simp
  | @released cur r rs hold hlist hle =>
    obtain ⟨allocator, hcall, ⟨⟩⟩ := Option.bind_eq_some_iff.1 hs
    obtain ⟨hwaiting, hfirst, hwaiting'⟩ := released_moves allocator hpc hold hlist
    have hmem : t ∈ d.epochs.registered := by
      by_contra ht
      have hnil := h.threads t (by rw [hpc.restThreads_eq]; exact ht)
      rw [hwaiting] at hnil
      cases hnil
    refine h.release hwaiting hcall rfl hfirst hwaiting' h.lists h.threads ?_ hcaches
      (fun v hv => ?_) ?_ ?_ hretire
    · rw [hpc.restThreads_eq]
      exact hmem
    · change ((d.epochs.setThread t _).threads v).pc = .idle
      rw [setThread_of_ne hv]
      exact (h.others v hv).1
    · refine hpc.calls_iff.2 ?_
      rw [EpochBasedReclamation.setPc, setThread_self]
      simp
    · refine .inl ⟨cur, ?_⟩
      rw [EpochBasedReclamation.setPc, setThread_self]
  | @retired ptr hold => exact absurd hold (hcalls ptr)

/-- `retire` puts the node into a record: the list starts behind it, and the record waits. -/
theorem Inv.retired_moves {l : L} {cur : TaggedPtr N} {ls : List L} {x : Thread (TaggedPtr N)}
    {r : RetireRecord (TaggedPtr N)} (h : d.Inv t log) (hpc : d.pc = .retire l cur ls)
    (hretiring : (d.epochs.threads t).pc = .retiring cur) (hx : x.pc = .idle)
    (hpending : x.pending = (d.epochs.threads t).pending ++ [r]) (hr : r.ptr = cur) :
    ∃ n, d.first t l = some n ∧
      first { d with epochs := d.epochs.setThread t x } t =
        Function.update (d.first t) l (Nodes.next d.nodes n) ∧
      waiting { d with epochs := d.epochs.setThread t x } =
        Function.update d.waiting t (d.waiting t ++ [some n]) := by
  obtain ⟨n, hn⟩ := Option.ne_none_iff_exists'.1 (h.retires l cur ls hpc).1
  have hpopFront : ∀ u us, d.pc ≠ .popFront u us := fun u us hu => by cases hpc.symm.trans hu
  have hfirst : d.first t = Function.update d.heads l (some n) := by
    rw [first, hpc]
    simp only [hretiring, reduceCtorEq, if_false, hn]
  refine ⟨n, ?_, ?_, ?_⟩
  · rw [hfirst, Function.update_self]
  · rw [hfirst, Function.update_idem, first]
    simp only [hpc, setThread_self, hx, if_true, hn, Option.bind_some]
    rfl
  · rw [waiting_eq hpopFront]
    refine Eq.trans (waiting_eq ?_) (recordNodes_setThread.trans ?_)
    · exact hpopFront
    · rw [hpending, recordNodes, List.map_append, ← hn, ← hr]
      rfl

/-- `retire` has put the node into a record. -/
theorem Inv.retired {l : L} {cur : TaggedPtr N} {ls : List L} {x : Thread (TaggedPtr N)}
    {r : RetireRecord (TaggedPtr N)} (h : d.Inv t log) (halloc : d.allocator.pcs t = .idle)
    (hpc : d.pc = .retire l cur ls) (hretiring : (d.epochs.threads t).pc = .retiring cur)
    (hx : x.pc = .idle) (hpending : x.pending = (d.epochs.threads t).pending ++ [r])
    (hr : r.ptr = cur) : Inv t (log ++ (none : Option (SystemEvent L T N V)).toList)
      { d with epochs := d.epochs.setThread t x } := by
  obtain ⟨w, cached, live, haccounts⟩ := h.accounts
  have hreg := (h.retires l cur ls hpc).2
  obtain ⟨n, hn, hfirst, hwaiting⟩ := h.retired_moves hpc hretiring hx hpending hr
  have hnodes := haccounts.retire (t := t) hn
  rw [← hfirst, ← hwaiting] at hnodes
  refine ⟨⟨_, cached, live, hnodes⟩, h.lists, fun u hu => ?_, fun us hus => ?_,
    fun u hu => ⟨?_, (h.others u hu).2⟩, ?_, fun hbusy => absurd halloc hbusy, h.retires,
    fun n => ?_⟩
  · have hut : u ≠ t := by
      rintro rfl
      refine hu ?_
      rw [hpc]
      exact hreg
    rw [hwaiting, Function.update_of_ne hut]
    exact h.threads u hu
  · cases hpc.symm.trans hus
  · change ((d.epochs.setThread t _).threads u).pc = .idle
    rw [setThread_of_ne hu]
    exact (h.others u hu).1
  · change d.pc.Calls ((d.epochs.setThread t _).threads t).pc
    rw [setThread_self, hpc]
    exact .inl hx
  · rw [heapOf_none]
    exact h.heap n

/-- A step in one of the functions of the epochs. -/
theorem Inv.epochStep {spurious : Bool} (h : d.Inv t log) (halloc : d.allocator.pcs t = .idle)
    (hbusy : (d.epochs.threads t).pc ≠ .idle)
    (hs : d.epochStep t spurious = some (d', e)) : d'.Inv t (log ++ e.toList) := by
  have hcalls := h.calls
  cases hpc : d.pc with
  | lists | loadHead => exact h.outsideStep halloc (hpc ▸ trivial) hs
  | retire l cur ls =>
    rw [hpc] at hcalls
    have hretiring := hcalls.resolve_left hbusy
    obtain ⟨⟨epochs, x⟩, hstep, hs⟩ := Option.bind_eq_some_iff.1 hs
    simp only [EpochBasedReclamation.threadStep, hretiring] at hstep
    cases hstep
    cases hs
    refine h.retired (r := ⟨cur, getEpochStatus d.epochs.globalEpoch false⟩) halloc hpc hretiring
      rfl ?_ rfl
    exact congrArg (· ++ _) (Thread.pending_eq (by simp [hretiring])).symm
  | _ =>
    rw [hpc] at hcalls
    exact absurd hcalls hbusy

omit [DecidableEq T] [DecidableEq N] in
/-- The head of one list changes. -/
theorem heads_setList {l : L} {x : TSLinkedList N} :
    (d.setList l x).heads = Function.update d.heads l x.head.ptr := by
  funext l'
  change (Function.update d.lists l x l').head.ptr = _
  rcases eq_or_ne l' l with rfl | hl
  · rw [Function.update_self, Function.update_self]
  · rw [Function.update_of_ne hl, Function.update_of_ne hl, heads]

/-- A step in `TSLinkedList::destroy` of the next list, outside of its critical section. -/
theorem Inv.listsStep {ls : List L} (h : d.Inv t log) (halloc : d.allocator.pcs t = .idle)
    (hidle : (d.epochs.threads t).pc = .idle) (hpc : d.pc = .lists ls)
    (hs : d.destroyStep t = some (d', e)) : d'.Inv t (log ++ e.toList) := by
  have hothers : ∀ u ≠ t, (d.epochs.threads u).pc = .idle := fun u hu => (h.others u hu).1
  have hlists := h.lists
  have hthreads := h.threads
  rw [hpc] at hlists hthreads
  have hfirst : d.first t = d.heads := by simp only [first, hpc]
  cases ls with
  | nil =>
    simp only [Destruction.destroyStep, hpc] at hs
    cases hs
    refine h.frame halloc rfl rfl hfirst.symm ?_ hlists hthreads (by simp) hothers hidle (by simp)
    simp only [waiting, hpc]
  | cons l ls =>
    simp only [Destruction.destroyStep, hpc] at hs
    split at hs
    · rename_i hnull
      cases hs
      refine h.frame halloc rfl rfl hfirst.symm ?_
        (fun l' hl' => ?_) hthreads (by simp) hothers ?_ (by simp)
      · simp only [waiting, hpc]
      · rcases eq_or_ne l' l with rfl | hne
        · exact hnull
        · exact hlists l' fun hmem => hl' ((List.mem_cons.1 hmem).resolve_left hne)
      · simp [hidle, DestructionPc.Calls]
    · obtain ⟨epochs, hcall, ⟨⟩⟩ := Option.bind_eq_some_iff.1 hs
      obtain ⟨-, registered, rfl, hreg, -⟩ := call_eq hcall
      refine h.epochMove halloc hfirst ?_ ?_ trivial hlists ?_ hreg ?_ ?_
      · rw [hpc]
        simp
      · rw [hpc]
        rfl
      · exact setThread_pending (Thread.pending_congr (by simp) (by simp [hidle]) rfl)
      · exact fun u hu => setThread_of_ne hu
      · rw [EpochBasedReclamation.setPc, setThread_self]
        simp

/-- A step in the loop over the nodes of a list. -/
theorem Inv.loopStep {l : L} {cur : TaggedPtr N} {ls : List L} (h : d.Inv t log)
    (halloc : d.allocator.pcs t = .idle) (hidle : (d.epochs.threads t).pc = .idle)
    (hpc : d.pc = .loop l cur ls) (hs : d.destroyStep t = some (d', e)) :
    d'.Inv t (log ++ e.toList) := by
  have hothers : ∀ u ≠ t, (d.epochs.threads u).pc = .idle := fun u hu => (h.others u hu).1
  have hlists := h.lists
  have hthreads := h.threads
  rw [hpc] at hlists hthreads
  have hfirst : d.first t = Function.update d.heads l cur.ptr := by simp only [first, hpc]
  simp only [Destruction.destroyStep, hpc] at hs
  split at hs
  · rename_i hnull
    cases hs
    have hheads : heads { d.setList l { d.lists l with head := {} } with pc := .clearTail l ls } =
        Function.update d.heads l none := heads_setList
    refine h.frame halloc rfl rfl ?_ ?_ (fun l' hl' => ?_) hthreads (by simp) hothers hidle
      (by simp)
    · rw [hfirst, hnull]
      exact hheads
    · simp only [waiting, hpc]
      rfl
    · rw [hheads]
      rcases eq_or_ne l' l with rfl | hne
      · exact Function.update_self ..
      · rw [Function.update_of_ne hne]
        exact hlists l' fun hmem => hl' ((List.mem_cons.1 hmem).resolve_left hne)
  · obtain ⟨epochs, hcall, ⟨⟩⟩ := Option.bind_eq_some_iff.1 hs
    obtain ⟨-, hreg, -, rfl⟩ := callRetire_eq hcall
    have hretiring : ((d.epochs.setPc t (.retiring cur)).threads t).pc = .retiring cur := by
      rw [EpochBasedReclamation.setPc, setThread_self]
    refine h.frame halloc rfl rfl ?_ ?_ hlists hthreads (by simp) (fun u hu => ?_) (.inr hretiring)
      fun l' cur' ls' he => ?_
    · rw [hfirst]
      simp only [first, hretiring, reduceCtorEq, if_false]
      rfl
    · simp only [waiting, hpc]
      refine funext fun u => congrArg recordNodes (setThread_pending ?_ u)
      exact Thread.pending_congr (by simp) (by simp [hidle]) rfl
    · change ((d.epochs.setThread t _).threads u).pc = .idle
      rw [setThread_of_ne hu]
      exact hothers u hu
    · cases he
      exact ⟨‹_›, hreg⟩

/-- A step in `EpochBasedReclamation::destroy`. -/
theorem Inv.epochsStep {us : List T} (h : d.Inv t log) (halloc : d.allocator.pcs t = .idle)
    (hidle : ∀ u, (d.epochs.threads u).pc = .idle) (hpc : d.pc = .epochs us)
    (hs : d.destroyStep t = some (d', e)) : d'.Inv t (log ++ e.toList) := by
  have hothers : ∀ u ≠ t, (d.epochs.threads u).pc = .idle := fun u _ => hidle u
  have hlists := h.lists
  have hthreads := h.threads
  rw [hpc] at hlists hthreads
  have hfirst : d.first t = d.heads := by simp only [first, hpc]
  have hwaiting : ∀ u, d.waiting u = recordNodes (d.epochs.threads u).retireList := by
    intro u
    refine (congrFun (waiting_eq ?_) u).trans (congrArg recordNodes (Thread.pending_eq ?_))
    · rw [hpc]
      simp
    · rw [hidle]
      simp
  cases us with
  | nil =>
    simp only [Destruction.destroyStep, hpc] at hs
    cases hs
    refine h.frame halloc rfl rfl hfirst.symm ?_ hlists hthreads (by simp) hothers (hidle t)
      (by simp)
    simp only [waiting, hpc]
  | cons u us =>
    simp only [Destruction.destroyStep, hpc] at hs
    split at hs
    · rename_i hnil
      cases hs
      refine h.frame halloc rfl rfl hfirst.symm ?_ hlists (fun v hv => ?_) (by simp) hothers
        (hidle t)
        (by simp)
      · simp only [waiting, hpc]
      · rcases eq_or_ne v u with rfl | hne
        · rw [hwaiting, hnil]
          rfl
        · exact hthreads v fun hmem => hv ((List.mem_cons.1 hmem).resolve_left hne)
    · rename_i r rs hlist
      obtain ⟨allocator, hcall, ⟨⟩⟩ := Option.bind_eq_some_iff.1 hs
      have hu : d.waiting u = r.ptr.ptr :: recordNodes rs := by
        rw [hwaiting, hlist]
        rfl
      refine h.release hu hcall rfl hfirst.symm ?_ hlists hthreads List.mem_cons_self
        (by simp) hothers
        (hidle t) (.inr ⟨u, us, rfl⟩) (by simp)
      simp only [waiting, hpc, hlist]
      rfl

/-- `pop_front` in `EpochBasedReclamation::destroy`. -/
theorem Inv.popFrontStep {us : List T} (h : d.Inv t log) (halloc : d.allocator.pcs t = .idle)
    (hidle : ∀ u, (d.epochs.threads u).pc = .idle) (hpc : d.pc = .popFront u us)
    (hs : d.destroyStep t = some (d', e)) : d'.Inv t (log ++ e.toList) := by
  have hlists := h.lists
  have hthreads := h.threads
  rw [hpc] at hlists hthreads
  simp only [Destruction.destroyStep, hpc] at hs
  cases hs
  generalize hx : { d.epochs.threads u with
    retireList := (d.epochs.threads u).retireList.tail } = x
  have hxpc : x.pc = .idle := by
    rw [← hx]
    exact hidle u
  have hpcs : ∀ v, ((d.epochs.setThread u x).threads v).pc = .idle := by
    intro v
    rcases eq_or_ne v u with rfl | hv
    · rw [setThread_self]
      exact hxpc
    · rw [setThread_of_ne hv]
      exact hidle v
  refine h.frame halloc rfl rfl ?_ ?_ hlists hthreads (by simp) (fun v _ => hpcs v) (hpcs t)
    (by simp)
  · simp only [first, hpc]
    rfl
  · simp only [waiting, hpc]
    refine recordNodes_setThread.trans ?_
    rw [Thread.pending_eq (x := x) (by simp [hxpc]), ← hx]

/-- A step in `TSLinkedListNodeAllocator::destroy`. -/
theorem Inv.cachesStep {us : List T} (h : d.Inv t log) (halloc : d.allocator.pcs t = .idle)
    (hidle : ∀ u, (d.epochs.threads u).pc = .idle) (hpc : d.pc = .caches us)
    (hs : d.destroyStep t = some (d', e)) : d'.Inv t (log ++ e.toList) := by
  have hothers : ∀ u ≠ t, (d.epochs.threads u).pc = .idle := fun u _ => hidle u
  have hlists := h.lists
  have hthreads := h.threads
  rw [hpc] at hlists hthreads
  have hfirst : d.first t = d.heads := by simp only [first, hpc]
  cases us with
  | nil =>
    simp only [Destruction.destroyStep, hpc] at hs
    cases hs
  | cons u us =>
    simp only [Destruction.destroyStep, hpc] at hs
    split at hs
    · rename_i hnull
      cases hs
      refine h.frame halloc rfl rfl hfirst.symm ?_ hlists hthreads (fun us' hus v hv => ?_) hothers
        (hidle t) (by simp)
      · simp only [waiting, hpc]
      · cases hus
        rcases eq_or_ne v u with rfl | hne
        · exact hnull
        · exact h.caches _ hpc v fun hmem => hv ((List.mem_cons.1 hmem).resolve_left hne)
    · rename_i n hn
      cases hs
      obtain ⟨w, cached, live, haccounts⟩ := h.accounts
      have hdelete := haccounts.delete hn (h.allocator_idle halloc u)
      rw [hfirst, waiting_eq (by rw [hpc]; simp)] at hdelete
      refine ⟨⟨w, _, live, hdelete⟩, hlists, fun v hv => ?_, fun us' hus v hv => ?_, h.others,
        hidle t, fun hbusy => absurd halloc hbusy, (by simp), ?_⟩
      · refine Eq.trans ?_ (hthreads v hv)
        rw [waiting_eq (d := d) (by rw [hpc]; simp)]
        rfl
      · cases hus
        have hne : v ≠ u := by
          rintro rfl
          exact hv List.mem_cons_self
        change ((d.allocator.setCache u _).caches v).head.ptr = none
        rw [setCache_caches_of_ne hne]
        exact h.caches _ hpc v hv
      · exact heapOf_delete h.heap (haccounts.owns.allocated_of_head hn)

/-- A step in one of the functions `destroy`. -/
theorem Inv.destroyStep (h : d.Inv t log) (halloc : d.allocator.pcs t = .idle)
    (hidle : (d.epochs.threads t).pc = .idle) (hs : d.destroyStep t = some (d', e)) :
    d'.Inv t (log ++ e.toList) := by
  have hothers : ∀ u ≠ t, (d.epochs.threads u).pc = .idle := fun u hu => (h.others u hu).1
  have hall := h.epochs_idle hidle
  have hlists := h.lists
  have hthreads := h.threads
  cases hpc : d.pc with
  | lists ls => exact h.listsStep halloc hidle hpc hs
  | loadHead l ls =>
    rw [hpc] at hlists hthreads
    simp only [Destruction.destroyStep, hpc] at hs
    cases hs
    refine h.frame halloc rfl rfl ?_ ?_ hlists hthreads (by simp) hothers hidle (by simp)
    · simp only [first, hpc]
      exact Function.update_eq_self l d.heads
    · simp only [waiting, hpc]
  | loop l cur ls => exact h.loopStep halloc hidle hpc hs
  | retire l cur ls =>
    rw [hpc] at hlists hthreads
    simp only [Destruction.destroyStep, hpc] at hs
    obtain ⟨n, hn, ⟨⟩⟩ := Option.bind_eq_some_iff.1 hs
    refine h.frame halloc rfl rfl ?_ ?_ hlists hthreads (by simp) hothers hidle (by simp)
    · simp only [first, hpc, hidle, if_true, hn, Option.bind_some]
      rfl
    · simp only [waiting, hpc]
  | clearTail l ls =>
    rw [hpc] at hlists hthreads
    simp only [Destruction.destroyStep, hpc] at hs
    cases hs
    have hheads : heads { d.setList l { d.lists l with tail := {} } with pc := .exitEpoch ls } =
        d.heads := heads_setList.trans (Function.update_eq_self l d.heads)
    refine h.frame halloc rfl rfl ?_ ?_ (fun l' hl' => ?_) hthreads (by simp) hothers hidle
      (by simp)
    · simp only [first, hpc]
      exact hheads
    · simp only [waiting, hpc]
      rfl
    · rw [hheads]
      exact hlists l' hl'
  | exitEpoch ls =>
    rw [hpc] at hlists
    simp only [Destruction.destroyStep, hpc] at hs
    obtain ⟨epochs, hcall, ⟨⟩⟩ := Option.bind_eq_some_iff.1 hs
    obtain ⟨-, registered, rfl, hreg, -⟩ := call_eq hcall
    refine h.epochMove halloc ?_ ?_ ?_ trivial hlists ?_ hreg ?_ ?_
    · simp only [first, hpc]
    · rw [hpc]
      simp
    · rw [hpc]
      rfl
    · exact setThread_pending (Thread.pending_congr (by simp) (by simp [hidle]) rfl)
    · exact fun u hu => setThread_of_ne hu
    · rw [EpochBasedReclamation.setPc, setThread_self]
      simp
  | epochs us => exact h.epochsStep halloc hall hpc hs
  | popFront u us => exact h.popFrontStep halloc hall hpc hs
  | join =>
    rw [hpc] at hlists hthreads
    simp only [Destruction.destroyStep, hpc] at hs
    split at hs
    · cases hs
      obtain ⟨w, cached, live, haccounts⟩ := h.accounts
      refine h.frame halloc rfl rfl ?_ ?_ hlists hthreads (fun us hus u hu => ?_) hothers hidle
        (by simp)
      · simp only [first, hpc]
        rfl
      · simp only [waiting, hpc]
      · cases hus
        -- a thread that is not registered has no cache
        have hnil := (haccounts.owns.unregistered u fun hmem => hu (List.mem_reverse.2 hmem)).2
        have hchain := haccounts.owns.chain u
        rw [hnil] at hchain
        exact hchain
    · cases hs
  | caches us => exact h.cachesStep halloc hall hpc hs

/-- The maintainer moves no node. -/
theorem advanceEpoch_moves {epochs : EpochBasedReclamation T (TaggedPtr N)}
    (hs : d.epochs.advanceEpoch = some epochs) :
    first { d with epochs := epochs } t = d.first t ∧
      waiting { d with epochs := epochs } = d.waiting := by
  obtain ⟨-, hsame⟩ := frame_of_advanceEpoch hs
  have hpending : ∀ u, (epochs.threads u).pending = (d.epochs.threads u).pending := by
    intro u
    rw [Thread.pending, Thread.pending, (hsame u).1, (hsame u).2]
  constructor
  · simp only [first, (hsame t).1]
    rfl
  · simp only [waiting, hpending, (hsame _).2]

/-- The maintainer changes no list of records. -/
theorem Inv.advanceEpoch {epochs : EpochBasedReclamation T (TaggedPtr N)} (h : d.Inv t log)
    (hs : d.epochs.advanceEpoch = some epochs) :
    Inv t (log ++ (none : Option (SystemEvent L T N V)).toList) { d with epochs := epochs } := by
  obtain ⟨hreg, hsame⟩ := frame_of_advanceEpoch hs
  obtain ⟨hfirst, hwaiting⟩ := advanceEpoch_moves (t := t) hs
  refine ⟨?_, h.lists, fun u hu => ?_, h.caches, fun u hu => ⟨?_, (h.others u hu).2⟩, ?_,
    fun hbusy => ⟨(h.releases hbusy).1, ?_⟩, fun l cur ls hpc => ?_, fun n => ?_⟩
  · rw [hfirst, hwaiting]
    exact h.accounts
  · rw [hwaiting]
    exact h.threads u (by rw [← hreg]; exact hu)
  · exact (hsame u).1.trans (h.others u hu).1
  · rw [(hsame t).1]
    exact h.calls
  · rw [Releasing, (hsame t).1]
    exact (h.releases hbusy).2
  · rw [hreg]
    exact h.retires l cur ls hpc
  · rw [heapOf_none]
    exact h.heap n

/-- A step of `destroy` keeps the invariant. -/
theorem Inv.step {a : DestructionAction} (h : d.Inv t log) (hs : d.step t a = some (d', e)) :
    d'.Inv t (log ++ e.toList) := by
  cases a with
  | thread spurious =>
    rw [Destruction.step, Destruction.threadStep] at hs
    split at hs
    · exact h.allocatorStep ‹_› hs
    · rename_i halloc
      split at hs
      · exact h.epochStep (of_not_not halloc) ‹_› hs
      · exact h.destroyStep (of_not_not halloc) (of_not_not ‹_›) hs
  | advanceEpoch =>
    simp only [Destruction.step] at hs
    split at hs
    · cases hs
    · obtain ⟨epochs, hadvance, ⟨⟩⟩ := Option.map_eq_some_iff.1 hs
      exact h.advanceEpoch hadvance

/-- The invariant holds in every run of `destroy`. -/
theorem Run.inv {log₀ : List (SystemEvent L T N V)} {d₀ : Destruction L T N V}
    (hr : Run t log₀ d₀ log d) (h : d₀.Inv t log₀) : d.Inv t log := by
  induction hr with
  | start => exact h
  | step _ hs ih => exact ih.step hs

end Destruction

end RockCoro
