import RockCoro.Memory.QueueSystem.Frame

/-!
# The invariant of the lists with their epochs and their allocator

Every step of the system is a run of the lists: what the lists take for granted of the epochs and of
the allocator (`Reclaims`, and the guards of `Queues.get` and `Queues.release`) is what the
invariants of these two give.
-/

namespace RockCoro

open EpochBasedReclamation TSLinkedListNodeAllocator

variable {L T N V : Type}

/-! ## The log -/

section
variable {log : List (SystemEvent L T N V)} {e : Option (SystemEvent L T N V)}

/-- Whether the node is allocated behind an event; `none` if it is allocated or deleted twice. -/
def SystemEvent.onHeap [DecidableEq N] (n : N) (allocated : Bool) :
    SystemEvent L T N V → Option Bool
  | .new m => if m = n then if allocated then none else some true else some allocated
  | .delete m => if m = n then if allocated then some false else none else some allocated
  | .list _ => some allocated

/-- Whether the node is allocated at the end of the log. -/
def heapOf [DecidableEq N] (n : N) (log : List (SystemEvent L T N V)) : Option Bool :=
  log.foldlM (SystemEvent.onHeap n) false

/-- The heap after a log that goes on. -/
theorem heapOf_append [DecidableEq N] {n : N} {l : List (SystemEvent L T N V)} :
    heapOf n (log ++ l) = (heapOf n log).bind fun b => l.foldlM (SystemEvent.onHeap n) b :=
  List.foldlM_append ..

/-- The list events of a log that goes on. -/
theorem listEvents_append {l : List (SystemEvent L T N V)} :
    listEvents (log ++ l) = listEvents log ++ listEvents l :=
  List.filterMap_append ..

/-- The list events of a step of a list. -/
theorem listEvents_list (e : Option (ListEvent L T N V)) :
    listEvents (e.map SystemEvent.list).toList = e.toList := by
  cases e <;> rfl

/-- A step of a list does not allocate or delete. -/
theorem heapOf_list [DecidableEq N] {n : N} (e : Option (ListEvent L T N V)) :
    heapOf n (log ++ (e.map SystemEvent.list).toList) = heapOf n log := by
  rw [heapOf_append]
  cases e <;> cases heapOf n log <;> rfl

end

/-! ## The invariant -/

section
variable [DecidableEq L] [DecidableEq T] [DecidableEq N]

/-- A state of the lists that their steps lead to. -/
def ListsOk (log : List (ListEvent L T N V)) (q : Queues L T N V) : Prop :=
  ∃ c : Config L T N V, c.toQueues = q ∧ c.log = log ∧ c.Inv fun _ => True

/-- A step of the lists leads to a state that their steps lead to. -/
theorem ListsOk.step {log : List (ListEvent L T N V)} {q q' : Queues L T N V}
    {a : ListAction L T N V}
    {e : Option (ListEvent L T N V)} (h : ListsOk log q) (ha : Reclaims log a) (hp : OneInit q a)
    (hs : q.step a = some (q', e)) : ListsOk (log ++ e.toList) q' := by
  obtain ⟨c, rfl, rfl, hinv⟩ := h
  obtain ⟨c', hfollows⟩ := hinv.follows ha hp hs
  exact ⟨c', hfollows.state, hfollows.log, hfollows.inv⟩

/-- The allocator writes to a node of its own. -/
theorem ListsOk.write {log : List (ListEvent L T N V)} {q : Queues L T N V} {nodes : Nodes N V}
    (h : ListsOk log q)
    (t : T) (hnodes : nodes = q.nodes ∨ ∃ n x, q.free n = true ∧
    nodes = Function.update q.nodes n x) :
    ListsOk log { q with nodes := nodes } := by
  rcases hnodes with rfl | ⟨n, x, hfree, rfl⟩
  · exact h
  · have hs : q.step (.write t n x) = some (q.setNode n x, none) := if_pos hfree
    have hlists := h.step (a := .write t n x) trivial trivial hs
    rw [Option.toList_none, List.append_nil] at hlists
    exact hlists

namespace QueueSystem

/-- A record of the retire list of `t` waits for the release of the node. -/
def Records (s : QueueSystem L T N V) (p : TaggedPtr N) (t : T) : Prop :=
  p ∈ (s.epochs.threads t).pending.map RetireRecord.ptr

/-- The invariant: each part has its own, and they agree on threads, records and nodes. -/
structure Inv (log : List (SystemEvent L T N V)) (s : QueueSystem L T N V) : Prop where
  lists : ListsOk (listEvents log) s.queues
  epochs : s.epochs.Inv
  tracks : Tracks (RockCoro.epochs (listEvents log)) s.epochs
  owns : ∃ cached, Owns s.queues.nodes s.allocator cached fun n => s.queues.free n = true
  synced : ∀ t, Synced (s.queues.pcs t) (s.epochs.threads t) (s.allocator.pcs t)
  records : Placement.Exclusive s.Records (· ∈ s.queues.retired)
  distinct : ∀ t, ((s.epochs.threads t).pending.map RetireRecord.ptr).Nodup
  unregistered : ∀ t, t ∉ s.epochs.registered → (s.epochs.threads t).pending = []
  heap : ∀ n, heapOf n log = some (s.allocator.allocated n)

variable {s : QueueSystem L T N V} {log : List (SystemEvent L T N V)} {t u : T}

/-- A step in the epochs that the lists do not see. -/
theorem Inv.setEpochs {epochs : EpochBasedReclamation T (TaggedPtr N)} (h : s.Inv log)
    (hinv : epochs.Inv)
    (htracks : Tracks (RockCoro.epochs (listEvents log)) epochs)
    (hpending : ∀ t, (epochs.threads t).pending = (s.epochs.threads t).pending)
    (hreg : ∀ t ∈ s.epochs.registered, t ∈ epochs.registered)
    (hsynced : ∀ t, Synced (s.queues.pcs t) (epochs.threads t) (s.allocator.pcs t)) :
    Inv log { s with epochs := epochs } where
  lists := h.lists
  epochs := hinv
  tracks := htracks
  owns := h.owns
  synced := hsynced
  records := h.records.congr (fun p t => by rw [Records, hpending]; rfl) fun _ => .rfl
  distinct t := by
    rw [show (epochs.threads t).pending = _ from hpending t]
    exact h.distinct t
  unregistered t ht := (hpending t).trans (h.unregistered t fun hmem => ht (hreg t hmem))
  heap := h.heap

/-- A step of an operation, together with one of the epochs that it sees. -/
theorem Inv.sees {q : Queues L T N V} {epochs : EpochBasedReclamation T (TaggedPtr N)}
    {e : Option (ListEvent L T N V)} {spurious : Bool} (rs : List (RetireRecord (TaggedPtr N)))
    (h : s.Inv log) (hp : OneInit s.queues (.thread t spurious))
    (hs : s.queues.threadStep t spurious = some (q, e)) (hinv : epochs.Inv)
    (htracks : Tracks (RockCoro.epochs (listEvents log) ++ RockCoro.epochs e.toList) epochs)
    (hthreads : ∀ u ≠ t, epochs.threads u = s.epochs.threads u)
    (hreg : epochs.registered = s.epochs.registered) (ht : rs ≠ [] → t ∈ s.epochs.registered)
    (hsynced : Synced (q.pcs t) (epochs.threads t) (s.allocator.pcs t))
    (hpending : (epochs.threads t).pending = (s.epochs.threads t).pending ++ rs)
    (hrs : rs.map RetireRecord.ptr = newlyRetired e)
    (hnew : ∀ p ∈ newlyRetired e, p ∉ s.queues.retired) :
    Inv (log ++ (e.map .list).toList) { s with queues := q, epochs := epochs } := by
  have hstays := stays_of_threadStep hs
  obtain ⟨pc, hpcs, -⟩ := hstays.pcs
  have hother : ∀ u ≠ t, (epochs.threads u).pending = (s.epochs.threads u).pending :=
    fun u hu => congrArg Thread.pending (hthreads u hu)
  refine ⟨?_, hinv, ?_, ?_, fun u => ?_, ?_, fun u => ?_, fun u hu => ?_, fun n => ?_⟩
  · rw [listEvents_append, listEvents_list]
    exact h.lists.step (a := .thread t spurious) trivial hp hs
  · rw [listEvents_append, listEvents_list, epochs_append]
    exact htracks
  · -- the step writes to no node of the allocator
    obtain ⟨cached, howns⟩ := h.owns
    obtain ⟨c, hc, -, hcinv⟩ := h.lists
    refine ⟨cached, (howns.congr fun n hn => ?_).live_congr fun n => by rw [hstays.free]⟩
    rw [← hc] at hs hn ⊢
    exact hcinv.nodes_of_free hs hn
  · rcases eq_or_ne u t with rfl | hu
    · exact hsynced
    · rw [hthreads u hu, hpcs, Function.update_of_ne hu]
      exact h.synced u
  · have hrecords : ∀ p u, Records { s with queues := q, epochs := epochs } p u ↔
        s.Records p u ∨ u = t ∧ p ∈ newlyRetired e := by
      intro p u
      rcases eq_or_ne u t with rfl | hu
      · rw [Records, hpending, List.map_append, List.mem_append, hrs]
        exact or_congr_right (and_iff_right rfl).symm
      · rw [Records, hother u hu]
        exact ⟨.inl, fun he => he.resolve_right fun he => hu he.1⟩
    have hmem : ∀ p, p ∈ q.retired ↔ p ∈ s.queues.retired ∨ p ∈ newlyRetired e := by
      intro p
      rw [hstays.retired, List.mem_append]
    refine ⟨fun p => ?_, fun {p u v} hu hv => ?_⟩
    · rw [hmem, h.records.live_iff p]
      refine ⟨fun he => ?_, fun ⟨u, hu⟩ => ?_⟩
      · rcases he with ⟨u, hu⟩ | he
        · exact ⟨u, (hrecords p u).2 (.inl hu)⟩
        · exact ⟨t, (hrecords p t).2 (.inr ⟨rfl, he⟩)⟩
      · exact ((hrecords p u).1 hu).imp (fun hu => ⟨u, hu⟩) And.right
    · have hold : ∀ w, s.Records p w → p ∉ newlyRetired e :=
        fun w hw hp => hnew p hp (h.records.live_of_at hw)
      rcases (hrecords p u).1 hu with hu | ⟨rfl, hu⟩
      · rcases (hrecords p v).1 hv with hv | ⟨-, hv⟩
        · exact h.records.unique hu hv
        · exact absurd hv (hold u hu)
      · rcases (hrecords p v).1 hv with hv | ⟨rfl, -⟩
        · exact absurd hu (hold v hv)
        · rfl
  · rcases eq_or_ne u t with rfl | hu
    · rw [hpending, List.map_append, hrs]
      refine List.nodup_append'.2 ⟨h.distinct u, ?_, fun p hp hpnew => ?_⟩
      · rcases e with _ | ⟨_ | _ | _ | _⟩ | _ | _ <;> simp [newlyRetired]
      · exact hnew p hpnew (h.records.live_of_at (show s.Records p u from hp))
    · rw [hother u hu]
      exact h.distinct u
  · have hu : u ∉ s.epochs.registered := hreg ▸ hu
    rcases eq_or_ne u t with rfl | hut
    · have hnil : rs = [] := by
        by_contra hne
        exact hu (ht hne)
      rw [hpending, h.unregistered u hu, hnil]
      rfl
    · rw [hother u hut]
      exact h.unregistered u hu
  · rw [heapOf_list]
    exact h.heap n

omit [DecidableEq L] [DecidableEq T] [DecidableEq N] in
/-- An event that is not of the epochs is not seen by them. -/
theorem epochs_of_not_epoch {e : Option (ListEvent L T N V)} (he : ∀ x, e ≠ some (.epoch x)) :
    RockCoro.epochs e.toList = [] := by
  rcases e with _ | x | x | ⟨l, p⟩
  · rfl
  · exact absurd rfl (he x)
  · rfl
  · rfl

/-- The call of an operation on a list. -/
theorem Inv.call {q : Queues L T N V} {op : ListOp L V} {e : Option (ListEvent L T N V)}
    (h : s.Inv log)
    (hs : s.queues.step (.call t op) = some (q, e)) :
    Inv (log ++ (e.map .list).toList) { s with queues := q } := by
  have hlists := h.lists.step (a := .call t op) trivial trivial hs
  simp only [Queues.step] at hs
  split at hs
  · rename_i hpc
    cases hs
    have hepoch : RockCoro.epochs (op.toQueueOp?.map fun op =>
        ListEvent.op (AtomicObject.Event.call t op) : Option (ListEvent L T N V)).toList = [] := by
      refine epochs_of_not_epoch fun x => ?_
      cases op <;> simp [ListOp.toQueueOp?]
    refine ⟨?_, h.epochs, ?_, h.owns, fun u => ?_, h.records, h.distinct, h.unregistered,
      fun n => ?_⟩
    · rw [listEvents_append, listEvents_list]
      exact hlists
    · rw [listEvents_append, listEvents_list, epochs_append, hepoch, List.append_nil]
      exact h.tracks
    · change Synced (Function.update s.queues.pcs t _ u) _ _
      rcases eq_or_ne u t with rfl | hu
      · have hsynced := h.synced u
        rw [hpc] at hsynced
        have hidle := hsynced.idle rfl
        have halloc := hsynced.allocator_idle id (by simp [hidle])
        rw [Function.update_self]
        refine ⟨fun k hk => ?_, hsynced.active.trans (by cases op <;> rfl), fun hk => ?_,
          hsynced.release⟩
        · rw [hidle] at hk
          cases hk
        · rw [halloc] at hk
          cases hk
      · rw [Function.update_of_ne hu]
        exact h.synced u
    · rw [heapOf_list]
      exact h.heap n
  · cases hs

/-- A thread calls a function of the epochs. -/
theorem Inv.callEpochs {epochs : EpochBasedReclamation T (TaggedPtr N)}
    {a : EpochAction T (TaggedPtr N)}
    {k : EpochCall (TaggedPtr N)} {pc : ThreadPc (TaggedPtr N)} (h : s.Inv log)
    (hs : s.epochs.step a = some (epochs, none)) (hlt : epochs.globalEpoch.toNat < 2 ^ 63)
    (ha : s.epochs.RetiresOnce a) (hidle : (s.epochs.threads t).pc = .idle)
    (hthreads : epochs.threads =
      Function.update s.epochs.threads t { s.epochs.threads t with pc := pc })
    (hreg : ∀ u ∈ s.epochs.registered, u ∈ epochs.registered) (hpc : pc.epochCall = some k)
    (hk : k ≠ .reclaim) (hcall : (s.queues.pcs t).epochCall = some k)
    (halloc : s.allocator.pcs t = .idle) :
    Inv log { s with epochs := epochs } := by
  have hnot : ∀ cur, pc ≠ .popFront cur := by
    rintro cur rfl
    exact hk (Option.some.inj hpc).symm
  have hpending : ∀ u, (epochs.threads u).pending = (s.epochs.threads u).pending := by
    intro u
    rw [hthreads]
    rcases eq_or_ne u t with rfl | hu
    · rw [Function.update_self]
      exact Thread.pending_congr hnot (by simp [hidle]) rfl
    · rw [Function.update_of_ne hu]
  have htracks := h.tracks.step h.epochs ha hs
  rw [Option.toList_none, List.append_nil] at htracks
  refine h.setEpochs (h.epochs.step hs hlt) htracks hpending hreg fun u => ?_
  rw [hthreads]
  rcases eq_or_ne u t with rfl | hu
  · rw [Function.update_self, halloc]
    refine ⟨fun k' hk' => ?_, (h.synced u).active, fun he => (by cases he), fun he => by cases he⟩
    rw [hcall, ← hpc]
    exact hk'
  · rw [Function.update_of_ne hu]
    exact h.synced u

/-! ## The steps of the threads -/

/-- The node that a thread is about to retire waits for no release. -/
theorem Inv.not_retired {p : TaggedPtr N} (h : s.Inv log)
    (hp : (s.queues.pcs t).footprint.popped = some p) : p ∉ s.queues.retired := by
  intro hmem
  obtain ⟨c, hc, -, hinv⟩ := h.lists
  rw [← hc] at hp hmem
  obtain ⟨n, rfl⟩ := (hinv.threads t).popped p hp
  have hpopped : c.At n (.popped t) := congrArg (Option.bind · TaggedPtr.ptr) hp
  cases hinv.places.unique hpopped (show c.At n .retired from ⟨_, hmem, rfl⟩)

/-- The node that a thread is about to retire has no record yet. -/
theorem Inv.retiresOnce {spurious : Bool} (h : s.Inv log) :
    s.epochs.RetiresOnce (.thread t spurious) := by
  rw [RetiresOnce]
  cases hpc : (s.epochs.threads t).pc with
  | retiring ptr =>
    intro u r hr hptr
    have hcall := (h.synced t).epochs (.retire ptr) (by rw [hpc]; rfl)
    have hrecords : s.Records ptr u := List.mem_map.2 ⟨r, hr, hptr⟩
    exact h.not_retired (popped_of_epochCall hcall) (h.records.live_of_at hrecords)
  | _ => trivial

/-- A step of an operation that calls neither the epochs nor the allocator. -/
theorem Inv.ownStep {q : Queues L T N V} {e : Option (ListEvent L T N V)} {spurious : Bool}
    (h : s.Inv log)
    (hp : OneInit s.queues (.thread t spurious)) (hpc : ¬(s.queues.pcs t).AtEpoch)
    (hidle : (s.epochs.threads t).pc = .idle) (halloc : s.allocator.pcs t = .idle)
    (hs : s.queues.threadStep t spurious = some (q, e)) :
    Inv (log ++ (e.map .list).toList) { s with queues := q } := by
  have hstays := stays_of_threadStep hs
  have hepoch : ∀ x, e ≠ some (.epoch x) := fun x he => hpc (hstays.epoch x he)
  have hnew : newlyRetired e = [] := by
    rcases e with _ | ⟨_ | _ | _ | _⟩ | _ | _
    any_goals rfl
    exact absurd rfl (hepoch _)
  refine h.sees [] hp hs h.epochs ?_ (fun _ _ => rfl) rfl (fun hne => absurd rfl hne) ?_
    (List.append_nil _).symm hnew.symm ?_
  · rw [epochs_of_not_epoch hepoch, List.append_nil]
    exact h.tracks
  · obtain ⟨pc, hpcs, hinside⟩ := hstays.pcs
    have hinside : pc.footprint.inside = (s.queues.pcs t).footprint.inside := by
      rw [hinside]
      rcases e with _ | x | _ | _
      · rfl
      · exact absurd rfl (hepoch x)
      · rfl
      · rfl
    rw [hpcs, Function.update_self]
    refine ⟨fun k hk => ?_, (h.synced t).active.trans hinside.symm, fun hk => ?_, fun hk => ?_⟩
    · rw [hidle] at hk
      cases hk
    · rw [halloc] at hk
      cases hk
    · rw [halloc] at hk
      cases hk
  · rw [hnew]
    exact fun _ hp => absurd hp List.not_mem_nil

/-- A thread calls `get`. -/
theorem Inv.callGet {allocator : TSLinkedListNodeAllocator T N} (h : s.Inv log)
    (hgets : (s.queues.pcs t).Gets)
    (hs : s.allocator.call t .getPop = some allocator) :
    Inv log { s with allocator := allocator } := by
  obtain ⟨-, hpcs, hallocated⟩ := frame_of_call hs
  obtain ⟨cached, howns⟩ := h.owns
  refine ⟨h.lists, h.epochs, h.tracks, ⟨cached, howns.callGet hs⟩, fun u => ?_, h.records,
    h.distinct,
    h.unregistered, fun n => ?_⟩
  · change Synced _ _ (allocator.pcs u)
    rw [hpcs]
    rcases eq_or_ne u t with rfl | hu
    · rw [Function.update_self]
      exact ⟨(h.synced u).epochs, (h.synced u).active, fun _ => hgets, fun hk => by cases hk⟩
    · rw [Function.update_of_ne hu]
      exact h.synced u
  · change _ = some (allocator.allocated n)
    rw [hallocated]
    exact h.heap n

/-- A step of an operation keeps the invariant. -/
theorem Inv.listStep {s' : QueueSystem L T N V} {e : Option (SystemEvent L T N V)} {spurious : Bool}
    (h : s.Inv log) (hp : OneInit s.queues (.thread t spurious))
    (hlt : s'.epochs.globalEpoch.toNat < 2 ^ 63)
    (hidle : (s.epochs.threads t).pc = .idle) (halloc : s.allocator.pcs t = .idle)
    (hs : s.listStep t spurious = some (s', e)) : Inv (log ++ e.toList) s' := by
  cases hpc : s.queues.pcs t with
  | initGet | pushGet =>
    simp only [QueueSystem.listStep, hpc] at hs
    obtain ⟨allocator, hcall, ⟨⟩⟩ := Option.bind_eq_some_iff.1 hs
    rw [Option.toList_none, List.append_nil]
    exact h.callGet (by rw [hpc]; trivial) hcall
  | pushEnter | popEnter =>
    simp only [QueueSystem.listStep, hpc] at hs
    obtain ⟨epochs, hcall, ⟨⟩⟩ := Option.bind_eq_some_iff.1 hs
    rw [Option.toList_none, List.append_nil]
    obtain ⟨-, registered, rfl, hreg, -⟩ := call_eq hcall
    refine h.callEpochs (a := .enterEpoch t) (k := .enterEpoch) ?_ hlt trivial hidle rfl hreg rfl
      (by simp) (by rw [hpc]; rfl) halloc
    rw [EpochBasedReclamation.step, hcall]
    rfl
  | pushExit | popExit =>
    simp only [QueueSystem.listStep, hpc] at hs
    obtain ⟨epochs, hcall, ⟨⟩⟩ := Option.bind_eq_some_iff.1 hs
    rw [Option.toList_none, List.append_nil]
    obtain ⟨-, registered, rfl, hreg, -⟩ := call_eq hcall
    refine h.callEpochs (a := .exitEpoch t) (k := .exitEpoch) ?_ hlt trivial hidle rfl hreg rfl
      (by simp) (by rw [hpc]; rfl) halloc
    rw [EpochBasedReclamation.step, hcall]
    rfl
  | popRetire l first next value =>
    simp only [QueueSystem.listStep, hpc] at hs
    split at hs
    · cases hs
    · obtain ⟨epochs, hcall, ⟨⟩⟩ := Option.bind_eq_some_iff.1 hs
      rw [Option.toList_none, List.append_nil]
      obtain ⟨-, -, -, rfl⟩ := callRetire_eq hcall
      refine h.callEpochs (a := .retire t first) (k := .retire first) ?_ hlt trivial hidle rfl
        (fun _ => id) rfl (by simp) (by rw [hpc]; rfl) halloc
      rw [EpochBasedReclamation.step, hcall]
      rfl
  | _ =>
    simp only [QueueSystem.listStep, hpc] at hs
    obtain ⟨⟨q, e⟩, hstep, ⟨⟩⟩ := Option.bind_eq_some_iff.1 hs
    exact h.ownStep hp (by rw [hpc]; exact id) hidle halloc hstep

/-- A thread goes on in a function of the epochs, or returns. -/
theorem Inv.epochMove {epochs : EpochBasedReclamation T (TaggedPtr N)} {spurious : Bool}
    (h : s.Inv log)
    (halloc : s.allocator.pcs t = .idle) (hlt : epochs.globalEpoch.toNat < 2 ^ 63)
    (hs : s.epochs.threadStep t spurious = some (epochs, none)) :
    Inv log { s with epochs := epochs } := by
  have hcall := epochCall_of_threadStep hs
  have htracks := h.tracks.step (a := .thread t spurious) h.epochs h.retiresOnce hs
  rw [Option.toList_none, List.append_nil] at htracks
  have hinv := h.epochs.step (a := .thread t spurious) hs hlt
  cases observed_of_threadStep hs with
  | moved hlist hstatus =>
    refine h.setEpochs hinv htracks (setThread_pending hlist) (fun _ => id) fun u => ?_
    rcases eq_or_ne u t with rfl | hu
    · rw [setThread_self, halloc] at *
      refine ⟨fun k hk => ?_, ?_, fun hk => (by cases hk), fun hk => by cases hk⟩
      · rcases hcall with hnone | hsame
        · rw [hnone] at hk
          cases hk
        · rw [hsame] at hk
          exact (h.synced u).epochs k hk
      · rw [hstatus]
        exact (h.synced u).active
    · rw [setThread_of_ne hu]
      exact h.synced u

/-- The exchanges of the status and the stamp are seen by the operation. -/
theorem Inv.epochSeen {epochs : EpochBasedReclamation T (TaggedPtr N)} {q : Queues L T N V}
    {e : Option (ListEvent L T N V)} {x : EpochEvent T (TaggedPtr N)} {spurious : Bool}
    (h : s.Inv log)
    (halloc : s.allocator.pcs t = .idle) (hlt : epochs.globalEpoch.toNat < 2 ^ 63)
    (hs : s.epochs.threadStep t spurious = some (epochs, some x)) (hx : ∀ p, x ≠ .released t p)
    (hq : s.queues.threadStep t spurious = some (q, e)) :
    Inv (log ++ (e.map .list).toList) { s with queues := q, epochs := epochs } := by
  have htracks := h.tracks.step (a := .thread t spurious) h.epochs h.retiresOnce hs
  have hinv := h.epochs.step (a := .thread t spurious) hs hlt
  have hreg := (threads_of_threadStep hs).2
  have hthreads := (threads_of_threadStep hs).1
  obtain ⟨pc, hpcs, hinside⟩ := (stays_of_threadStep hq).pcs
  -- the operation is at the function of the epochs that the thread is in
  have hseen : ∀ k, (s.epochs.threads t).pc.epochCall = some k → k ≠ .reclaim → k.event t = some x →
      OneInit s.queues (.thread t spurious) ∧ e = some (.epoch x) ∧
        (k = .exitEpoch → pc.epochCall = some .reclaim) := by
    intro k hk hne hev
    have hcall := (h.synced t).epochs k hk
    obtain ⟨he, hexit⟩ := event_of_threadStep hq hcall hne
    rw [hpcs, Function.update_self] at hexit
    refine ⟨fun l hl => ?_, by rw [he, hev]; rfl, hexit⟩
    cases hpc : s.queues.pcs t with
    | initLoad op =>
      rw [hpc] at hcall
      cases hcall
    | _ =>
      rw [hpc] at hl
      cases hl
  have hreleased : ∀ {k}, ¬(s.allocator.pcs t).allocatorCall = some k := by
    intro k hk
    rw [halloc] at hk
    cases hk
  cases observed_of_threadStep hs with
  | @entered old new hpc =>
    obtain ⟨hone, rfl, -⟩ := hseen .enterEpoch (by rw [hpc]; rfl) (by simp) rfl
    obtain ⟨-, -, -, hactive⟩ : s.epochs.PcOk (s.epochs.threads t) (.enterCas old new) :=
      hpc ▸ h.epochs.pc_ok t
    refine h.sees [] hone hq hinv htracks hthreads hreg (fun hne => absurd rfl hne) ?_ ?_ rfl
      fun _ hp => absurd hp List.not_mem_nil
    · rw [hpcs, Function.update_self, setThread_self]
      refine ⟨fun k hk => (by cases hk), ?_, fun hk => absurd hk hreleased, fun hk =>
        absurd hk hreleased⟩
      rw [hinside, insideAfter, if_pos rfl]
      exact hactive
    · rw [setThread_self, List.append_nil]
      exact Thread.pending_congr (by simp) (by simp [hpc]) rfl
  | @exited old hpc =>
    obtain ⟨hone, rfl, hexit⟩ := hseen .exitEpoch (by rw [hpc]; rfl) (by simp) rfl
    refine h.sees [] hone hq hinv htracks hthreads hreg (fun hne => absurd rfl hne) ?_ ?_ rfl
      fun _ hp => absurd hp List.not_mem_nil
    · rw [hpcs, Function.update_self, setThread_self]
      refine ⟨fun k hk => ?_, ?_, fun hk => absurd hk hreleased, fun hk => absurd hk hreleased⟩
      · cases hk
        exact hexit rfl
      · rw [hinside, insideAfter, if_pos rfl]
        exact isEpochStatusActive_getEpochStatus_false old
    · rw [setThread_self, List.append_nil]
      exact Thread.pending_congr (by simp) (by simp [hpc]) rfl
  | released => exact absurd rfl (hx _)
  | @retired ptr hpc =>
    obtain ⟨hone, rfl, -⟩ := hseen (.retire ptr) (by rw [hpc]; rfl) (by simp) rfl
    have hpopped : (s.queues.pcs t).footprint.popped = some ptr := popped_of_epochCall
      ((h.synced t).epochs _ (by rw [hpc]; rfl))
    refine h.sees [⟨ptr, getEpochStatus s.epochs.globalEpoch false⟩] hone hq hinv htracks
      hthreads hreg
      (fun _ => h.epochs.mem_registered (by simp [hpc])) ?_ ?_ rfl fun p hp => ?_
    · rw [hpcs, Function.update_self, setThread_self]
      refine ⟨fun k hk => (by cases hk), ?_, fun hk => absurd hk hreleased, fun hk =>
        absurd hk hreleased⟩
      rw [hinside]
      exact (h.synced t).active
    · rw [setThread_self, Thread.pending_eq (x := s.epochs.threads t) (by simp [hpc])]
      exact Thread.pending_eq (by simp)
    · obtain rfl := List.mem_singleton.1 hp
      exact h.not_retired hpopped

/-- `exit_epoch` calls `release`: the stamp of the node is not above the published epoch. -/
theorem Inv.epochRelease {epochs : EpochBasedReclamation T (TaggedPtr N)}
    {allocator : TSLinkedListNodeAllocator T N} {ptr : TaggedPtr N} {spurious : Bool}
    (h : s.Inv log)
    (hlt : epochs.globalEpoch.toNat < 2 ^ 63)
    (hs : s.epochs.threadStep t spurious = some (epochs, some (.released t ptr)))
    (hcall : s.allocator.call t (.releaseMark ptr) = some allocator) :
    Inv (log ++ [.list (.epoch (.released t ptr))])
      { queues := s.queues.releases ptr, epochs := epochs, allocator := allocator } := by
  have htracks := h.tracks.step (a := .thread t spurious) h.epochs h.retiresOnce hs
  have hinv := h.epochs.step (a := .thread t spurious) hs hlt
  obtain ⟨hthreads, hreg⟩ := threads_of_threadStep hs
  obtain ⟨-, hpcs, hallocated⟩ := frame_of_call hcall
  generalize hx : some (EpochEvent.released t ptr) = x at hs
  cases observed_of_threadStep hs with
  | moved | entered | exited | retired => cases hx
  | @released cur r rs hpc hlist hle =>
    cases hx
    have hpending : (s.epochs.threads t).pending = r :: rs := by
      rw [Thread.pending_eq (by simp [hpc]), hlist]
    have hpending' : ((s.epochs.setPc t (.popFront cur)).threads t).pending = rs := by
      rw [EpochBasedReclamation.setPc, setThread_self]
      exact congrArg List.tail hlist
    have hother : ∀ u ≠ t, ((s.epochs.setPc t (.popFront cur)).threads u).pending =
        (s.epochs.threads u).pending := fun u hu => congrArg Thread.pending (hthreads u hu)
    have hgc := (UInt64.le_iff_toNat_le.1 hle).trans (h.epochs.curGcEpoch_le hpc)
    have hrecord : s.Records r.ptr t := by
      rw [Records, hpending]
      exact List.mem_cons_self
    have hmem := h.records.live_of_at hrecord
    have hdistinct := h.distinct t
    rw [hpending] at hdistinct
    obtain ⟨c, hc, hclog, hcinv⟩ := h.lists
    obtain ⟨n, hn⟩ : ∃ n, r.ptr = c.ref n := hcinv.retired _ (by rw [hc]; exact hmem)
    have hptr : r.ptr.ptr = some n := congrArg TaggedPtr.ptr hn
    have hnodup : s.queues.retired.Nodup := hc ▸ hcinv.nodup
    have hdead : ¬s.queues.free n = true := by
      intro hfree
      rw [← hc] at hfree hmem
      cases hcinv.places.unique (show c.At n .retired from ⟨_, hmem, hptr⟩)
        (show c.At n .free from hfree)
    have hstep : s.queues.step (.release t r.ptr) =
        some (s.queues.releases r.ptr, some (.epoch (.released t r.ptr))) := by
      simp only [Queues.step, Queues.releases, hptr, Option.bind_eq_bind, Option.bind_some,
        if_pos hmem,
        Option.elim_some]
    have hfree : ∀ m, (s.queues.releases r.ptr).free m = true ↔ m = n ∨ s.queues.free m = true := by
      intro m
      rw [Queues.releases, hptr, Option.elim_some]
      rcases eq_or_ne m n with rfl | hm
      · simp
      · simp [hm]
    refine ⟨?_, hinv, ?_, ?_, fun u => ?_, ?_, fun u => ?_, fun u hu => ?_, fun m => ?_⟩
    · rw [listEvents_append]
      refine h.lists.step (a := .release t r.ptr) (fun u hu => ?_) trivial hstep
      exact h.tracks.not_protects h.epochs (hpending ▸ List.mem_cons_self) hgc hu
    · rw [listEvents_append, epochs_append]
      exact htracks
    · obtain ⟨cached, howns⟩ := h.owns
      exact ⟨cached, (howns.callRelease hptr hdead hcall).live_congr hfree⟩
    · change Synced (s.queues.pcs u) ((s.epochs.setPc t _).threads u) (allocator.pcs u)
      rw [hpcs]
      rcases eq_or_ne u t with rfl | hu
      · rw [Function.update_self, EpochBasedReclamation.setPc, setThread_self]
        refine ⟨fun k hk => ?_, (h.synced u).active, fun hk => (by cases hk), fun _ => ⟨cur, rfl⟩⟩
        exact (h.synced u).epochs k (by rw [hpc]; exact hk)
      · rw [Function.update_of_ne hu, hthreads u hu]
        exact h.synced u
    · -- the record is gone, and no other has the node
      refine h.records.remove hrecord (fun u hu => ?_) (fun p hp u => ?_) fun p =>
        hnodup.mem_erase_iff
      · rcases eq_or_ne u t with rfl | hut
        · rw [Records, hpending'] at hu
          exact absurd hu (List.nodup_cons.1 hdistinct).1
        · rw [Records, hother u hut] at hu
          exact ⟨hu, hut⟩
      · rcases eq_or_ne u t with rfl | hut
        · rw [Records, Records, hpending', hpending, List.map_cons, List.mem_cons]
          exact (or_iff_right hp).symm
        · rw [Records, Records, hother u hut]
    · rcases eq_or_ne u t with rfl | hut
      · rw [hpending']
        exact (List.nodup_cons.1 hdistinct).2
      · rw [hother u hut]
        exact h.distinct u
    · have hu : u ∉ s.epochs.registered := hu
      rcases eq_or_ne u t with rfl | hut
      · exact absurd (h.epochs.mem_registered (by simp [hpc])) hu
      · rw [hother u hut]
        exact h.unregistered u hu
    · refine (heapOf_list (some (.epoch _))).trans ?_
      rw [h.heap m]
      exact congrArg some (congrFun hallocated m).symm

/-- A step of a thread in a function of the epochs. -/
theorem Inv.epochStep {s' : QueueSystem L T N V} {e : Option (SystemEvent L T N V)}
    {spurious : Bool}
    (h : s.Inv log) (hlt : s'.epochs.globalEpoch.toNat < 2 ^ 63)
    (halloc : s.allocator.pcs t = .idle)
    (hs : s.epochStep t spurious = some (s', e)) : Inv (log ++ e.toList) s' := by
  obtain ⟨⟨epochs, x⟩, hstep, hs⟩ := Option.bind_eq_some_iff.1 hs
  have hsynced := h.synced t
  have hactive : isEpochStatusActive (s.epochs.threads t).epochStatus =
    (s.queues.pcs t).footprint.inside :=
    hsynced.active
  cases x with
  | none =>
    dsimp only at hs
    split at hs
    · rename_i hpc hidle
      -- the calls of the operations are no duplicates
      rw [(duplicate_of_threadStep hstep hidle).1 hpc] at hactive
      have hcall := hsynced.epochs .enterEpoch (by rw [hpc]; rfl)
      rw [inside_of_epochCall hcall] at hactive
      cases hactive
    · rename_i hpc hidle
      rw [(duplicate_of_threadStep hstep hidle).2 hpc] at hactive
      have hcall := hsynced.epochs .exitEpoch (by rw [hpc]; rfl)
      rw [inside_of_epochCall hcall] at hactive
      cases hactive
    · cases hs
      rw [Option.toList_none, List.append_nil]
      exact h.epochMove halloc hlt hstep
  | some x =>
    dsimp only at hs
    split at hs
    · rename_i he
      cases he
      obtain ⟨allocator, hcall, ⟨⟩⟩ := Option.bind_eq_some_iff.1 hs
      obtain rfl := thread_of_released hstep
      exact h.epochRelease hlt hstep hcall
    · rename_i hne he
      cases he
      obtain ⟨⟨q, e⟩, hq, ⟨⟩⟩ := Option.bind_eq_some_iff.1 hs
      exact h.epochSeen halloc hlt hstep (hne t) hq
    · rename_i he
      cases he

/-- A thread moves in the allocator, and what the lists see of it is `q`. -/
theorem Inv.setAllocator {q : Queues L T N V} {allocator : TSLinkedListNodeAllocator T N}
    {e : Option (SystemEvent L T N V)} {cached : T → List N} (h : s.Inv log)
    (hlists : ListsOk (listEvents log) q) (he : listEvents e.toList = [])
    (hretired : q.retired = s.queues.retired)
    (howns : Owns q.nodes allocator cached fun n => q.free n = true)
    (hpcs : ∀ u ≠ t, q.pcs u = s.queues.pcs u ∧ allocator.pcs u = s.allocator.pcs u)
    (hsynced : Synced (q.pcs t) (s.epochs.threads t) (allocator.pcs t))
    (hheap : ∀ n, (e.elim (some (s.allocator.allocated n)) fun e =>
    e.onHeap n (s.allocator.allocated n)) =
      some (allocator.allocated n)) :
    Inv (log ++ e.toList) { s with queues := q, allocator := allocator } where
  lists := by
    rw [listEvents_append, he, List.append_nil]
    exact hlists
  epochs := h.epochs
  tracks := by
    rw [listEvents_append, he, List.append_nil]
    exact h.tracks
  owns := ⟨cached, howns⟩
  synced u := by
    change Synced (q.pcs u) (s.epochs.threads u) (allocator.pcs u)
    rcases eq_or_ne u t with rfl | hu
    · exact hsynced
    · rw [(hpcs u hu).1, (hpcs u hu).2]
      exact h.synced u
  records := h.records.congr (fun _ _ => .rfl) fun p => by
    change p ∈ q.retired ↔ _
    rw [hretired]
  distinct := h.distinct
  unregistered := h.unregistered
  heap n := by
    rw [heapOf_append, h.heap n, Option.bind_some]
    refine Eq.trans ?_ (hheap n)
    cases e with
    | none => rfl
    | some e => exact bind_pure _

/-- A step in the allocator keeps the invariant. -/
theorem Inv.allocatorStep {s' : QueueSystem L T N V} {e : Option (SystemEvent L T N V)}
    (h : s.Inv log)
    (hs : s.allocatorStep t = some (s', e)) : Inv (log ++ e.toList) s' := by
  obtain ⟨⟨nodes, allocator, x⟩, hstep, hs⟩ := Option.bind_eq_some_iff.1 hs
  obtain ⟨cached, howns⟩ := h.owns
  obtain ⟨⟨cached', howns', -⟩, hnodes⟩ := howns.threadStep hstep
  obtain ⟨hpcs, hheap, hnew, hdelete⟩ := frame_of_threadStep hstep
  have hlists := h.lists.write t hnodes
  have hother : ∀ u ≠ t, allocator.pcs u = s.allocator.pcs u := by
    intro u hu
    rw [hpcs, Function.update_of_ne hu]
  have hsynced : Synced (s.queues.pcs t) (s.epochs.threads t) (allocator.pcs t) := by
    refine ⟨(h.synced t).epochs, (h.synced t).active, fun hk => ?_, fun hk => ?_⟩
    · rcases allocatorCall_of_threadStep hstep with hnone | hsame
      · rw [hnone] at hk
        cases hk
      · exact (h.synced t).get (hsame ▸ hk)
    · rcases allocatorCall_of_threadStep hstep with hnone | hsame
      · rw [hnone] at hk
        cases hk
      · exact (h.synced t).release (hsame ▸ hk)
  rcases x with _ | n | n | ptr
  · cases hs
    exact h.setAllocator hlists rfl rfl howns' (fun u hu => ⟨rfl, hother u hu⟩) hsynced
      fun n => by rw [hheap]; rfl
  · exact absurd rfl (hnew n)
  · cases hs
    refine h.setAllocator hlists rfl rfl howns' (fun u hu => ⟨rfl, hother u hu⟩) hsynced fun m => ?_
    have hn := howns.allocated_of_head (hdelete n rfl)
    rw [hheap, Option.elim_some, SystemEvent.onHeap, heapAfter]
    rcases eq_or_ne n m with rfl | hm
    · rw [if_pos rfl, hn, Function.update_self]
      rfl
    · rw [if_neg hm, Function.update_of_ne hm.symm]
  · cases hs
    obtain ⟨hpc, n, hn, hnode, hidle⟩ := getNext_of_got hstep
    have hgets := (h.synced t).get (by rw [hpc]; rfl)
    have hhand : s.allocator.At cached n (.hand t) := by rw [At, hpc]; exact hn
    change Inv _ { s with
      queues := Queues.got { s.queues with nodes := nodes } t ptr
      allocator := allocator }
    generalize hq : { s.queues with nodes := nodes } = q at hlists ⊢
    have hmemory : q.nodes = nodes := hq ▸ rfl
    have hqpcs : q.pcs = s.queues.pcs := hq ▸ rfl
    have hqfree : q.free = s.queues.free := hq ▸ rfl
    have hqretired : q.retired = s.queues.retired := hq ▸ rfl
    have hget : q.step (.get t ptr) = some (q.got t ptr, none) := by
      refine got_of_gets (by rw [hqpcs]; exact hgets) hn ?_ ?_ ?_
      · rw [hqfree]
        exact howns.places.live_of_at hhand
      · rw [hmemory, hnode]
        exact howns.ready t ptr n hpc hn
      · rw [hmemory, hnode]
    have hlists := hlists.step (a := .get t ptr) trivial trivial hget
    rw [Option.toList_none, List.append_nil] at hlists
    obtain ⟨hnodes', hretired', hfree'⟩ := frame_of_got (s := q) (t := t) (p := ptr)
    obtain ⟨pc, hgot, hinside⟩ :=
      footprint_of_got (s := q) (t := t) (p := ptr) (by rw [hqpcs]; exact hgets)
    refine h.setAllocator (t := t) (e := none) hlists rfl (hretired'.trans hqretired)
      (?_ : Owns _ _ cached' _)
      (fun u hu => ?_) ?_ fun m => by rw [hheap]; rfl
    · rw [hnodes', hmemory]
      refine howns'.live_congr fun m => ?_
      rw [hfree', hqfree, hn, Option.elim_some, Keeps, hn]
      rcases eq_or_ne m n with rfl | hm
      · simp
      · simp [hm, hm.symm]
    · rw [hgot, Function.update_of_ne hu, hqpcs]
      exact ⟨rfl, hother u hu⟩
    · rw [hqpcs] at hinside
      rw [hgot, Function.update_self, hidle]
      refine ⟨fun k hk => ?_, (h.synced t).active.trans hinside.symm, fun hk =>
        (by cases hk), fun hk => by cases hk⟩
      have hcall := (h.synced t).epochs k hk
      rw [epochCall_of_gets hgets] at hcall
      cases hcall

/-- The cache is empty, and `get` calls `new`. -/
theorem Inv.new {nodes : Nodes N V} {allocator : TSLinkedListNodeAllocator T N} {n : N}
    (h : s.Inv log) (hs : s.allocator.new s.queues.nodes t n = some (nodes, allocator)) :
    Inv (log ++ [.new n])
      { s with queues := { s.queues with nodes := nodes }, allocator := allocator } := by
  obtain ⟨cached, howns⟩ := h.owns
  obtain ⟨howns', hfree, rfl⟩ := howns.new hs
  rw [TSLinkedListNodeAllocator.new] at hs
  split at hs
  · rename_i hok
    obtain ⟨hpc, -, hheap⟩ := hok
    cases hs
    refine h.setAllocator (t := t) (e := some (.new n))
      (h.lists.write t (.inr ⟨n, _, hfree, rfl⟩)) rfl rfl howns'
      (fun u hu => ⟨rfl, setPc_pcs_of_ne hu⟩) ?_ fun m => ?_
    · rw [setPc_pcs_self]
      refine ⟨(h.synced t).epochs, (h.synced t).active, fun _ => (h.synced t).get ?_, fun hk => by
        cases hk⟩
      rw [hpc]
      rfl
    · change (SystemEvent.new n : SystemEvent L T N V).onHeap m _ =
        some (Function.update s.allocator.allocated n true m)
      rw [SystemEvent.onHeap]
      rcases eq_or_ne n m with rfl | hm
      · rw [if_pos rfl, hheap, Function.update_self]
        rfl
      · rw [if_neg hm, Function.update_of_ne hm.symm]
  · cases hs

/-- A step of the maintainer keeps the invariant, as long as the epoch fits. -/
theorem Inv.advanceEpoch {epochs : EpochBasedReclamation T (TaggedPtr N)} (h : s.Inv log)
    (hlt : epochs.globalEpoch.toNat < 2 ^ 63) (hs : s.epochs.advanceEpoch = some epochs) :
    Inv log { s with epochs := epochs } := by
  have hstep : s.epochs.step .advanceEpoch = some (epochs, none) := by
    rw [EpochBasedReclamation.step, hs]
    rfl
  have htracks := h.tracks.step (a := .advanceEpoch) h.epochs trivial hstep
  rw [Option.toList_none, List.append_nil] at htracks
  obtain ⟨hreg, hthreads⟩ := frame_of_advanceEpoch hs
  refine h.setEpochs (h.epochs.step hstep hlt) htracks (fun t => ?_) (fun t ht => hreg ▸ ht)
    fun t => ?_
  · obtain ⟨hpc, hlist⟩ := hthreads t
    rw [Thread.pending, Thread.pending, hpc, hlist]
  · have hpc := (hthreads t).1
    have hactive := active_of_advanceEpoch h.epochs hs t
    have hsynced := h.synced t
    exact ⟨hpc ▸ hsynced.epochs, hactive.trans hsynced.active, hsynced.get, hpc ▸ hsynced.release⟩

/-! ## Runs -/

/-- When a thread checks `head_` in `init`, no other thread is behind its own check there. -/
def OneInit (s : QueueSystem L T N V) : SystemAction L T N V → Prop
  | .thread t spurious => RockCoro.OneInit s.queues (.thread t spurious)
  | _ => True

/-- A step keeps the invariant, as long as the epoch fits into a status. -/
theorem Inv.step {s' : QueueSystem L T N V} {a : SystemAction L T N V}
    {e : Option (SystemEvent L T N V)}
    (h : s.Inv log) (hp : s.OneInit a) (hlt : s'.epochs.globalEpoch.toNat < 2 ^ 63)
    (hs : s.step a = some (s', e)) : Inv (log ++ e.toList) s' := by
  cases a with
  | call t op =>
    obtain ⟨⟨q, e⟩, hq, ⟨⟩⟩ := Option.map_eq_some_iff.1 hs
    exact h.call hq
  | thread t spurious =>
    rw [QueueSystem.step, QueueSystem.threadStep] at hs
    split at hs
    · exact h.allocatorStep hs
    · rename_i halloc
      split at hs
      · exact h.epochStep hlt (of_not_not halloc) hs
      · exact h.listStep hp hlt (of_not_not ‹_›) (of_not_not halloc) hs
  | new t n =>
    obtain ⟨⟨nodes, allocator⟩, hnew, ⟨⟩⟩ := Option.map_eq_some_iff.1 hs
    exact h.new hnew
  | advanceEpoch =>
    obtain ⟨epochs, hadvance, ⟨⟩⟩ := Option.map_eq_some_iff.1 hs
    rw [Option.toList_none, List.append_nil]
    exact h.advanceEpoch hlt hadvance

/-- No list is initialized, and no node is allocated. -/
def start (nodes : Nodes N V) : QueueSystem L T N V where
  queues := { nodes := nodes, free := fun _ => true }

/-- The invariant holds at the start. -/
theorem inv_start {nodes : Nodes N V} : Inv [] (start nodes : QueueSystem L T N V) where
  lists := by
    have hstarts : (start nodes : QueueSystem L T N V).queues.Starts :=
      ⟨fun _ => rfl, rfl, fun _ => .inl rfl, fun l l' n hn => by cases hn⟩
    have hlive : (fun n => ∃ p, (start nodes : QueueSystem L T N V).queues.config.At n p) =
      fun _ => True :=
      funext fun n => propext ⟨fun _ => trivial, fun _ => ⟨.free, rfl⟩⟩
    exact ⟨_, rfl, rfl, hlive ▸ hstarts.inv⟩
  epochs := inv_init
  tracks := tracks_init
  owns := ⟨_, owns_init.live_congr fun _ => ⟨fun _ => trivial, fun _ => rfl⟩⟩
  synced t := ⟨fun k hk => (by cases hk), isEpochStatusActive_zero, fun hk =>
  (by cases hk), fun hk => by cases hk⟩
  records := ⟨fun p => ⟨fun hp => absurd hp List.not_mem_nil, fun ⟨t, ht⟩ =>
    absurd ht List.not_mem_nil⟩,
    fun hp => absurd hp List.not_mem_nil⟩
  distinct _ := List.nodup_nil
  unregistered _ _ := rfl
  heap _ := rfl

end QueueSystem

end

end RockCoro
