import RockCoro.Memory.Destruction.Invariant

/-!
# Nodes are conserved

In every run each allocated node is at one place, and when the lists, the epochs and the allocator
are destroyed it is deleted (`run_conserves`). A record stays in its retire list while its node is
released, and once the epoch has overflown its 63 bits a node is lost (`not_conserves`).
-/

namespace RockCoro

open EpochBasedReclamation TSLinkedListNodeAllocator

variable {L T N V : Type} [DecidableEq L] [DecidableEq T] [DecidableEq N]

namespace QueueSystem

variable {s : QueueSystem L T N V} {log : List (SystemEvent L T N V)} {t : T} {ls : List L}

/-- No thread is in an operation: every node is in a list, in a record or in the allocator. -/
theorem Inv.accounts (h : s.Inv log) (hidle : ∀ u, s.queues.pcs u = .idle) :
    ∃ w cached live, Destruction.Accounts s.queues.nodes s.allocator
      (fun l => (s.queues.lists l).head.ptr)
      (fun u => Destruction.recordNodes (s.epochs.threads u).pending)
      (w : L → List N) cached live := by
  obtain ⟨c, hc, -, hinv⟩ := h.lists
  obtain ⟨cached, howns⟩ := h.owns
  have hfoot : ∀ u, c.footprint u = {} := by
    intro u
    rw [Config.footprint, hc, hidle u]
    rfl
  have hchain : ∀ l, Chain.Linked c.next (c.lists l).head.ptr (c.chain l) := fun l =>
    hinv.linked_chain fun u p hu => by
      rw [hfoot] at hu
      cases hu
  have hretired : ∀ n, (∃ u, some n ∈ Destruction.recordNodes (s.epochs.threads u).pending) ↔
      c.At n .retired := by
    intro n
    rw [Config.At, hc]
    constructor
    · rintro ⟨u, hu⟩
      obtain ⟨r, hr, hn⟩ := List.mem_map.1 hu
      exact ⟨r.ptr, h.records.live_of_at (show s.Records r.ptr u from List.mem_map_of_mem hr), hn⟩
    · rintro ⟨p, hp, hn⟩
      obtain ⟨u, hu⟩ := (h.records.live_iff p).1 hp
      obtain ⟨r, hr, rfl⟩ := List.mem_map.1 hu
      exact ⟨u, List.mem_map.2 ⟨r, hr, hn⟩⟩
  have hfree : ∀ n, s.queues.free n = true ↔ c.At n .free := by
    intro n
    rw [Config.At, hc]
  refine ⟨c.chain, cached, fun n => s.queues.free n = true, ?_,
    ⟨fun n => ⟨fun _ => ?_, fun _ => ?_⟩,
    fun {n p q} hp hq => ?_⟩, h.conserves.records, fun u hu => ?_, howns⟩
  · rw [hc] at hchain
    exact hchain
  · obtain ⟨q, hq⟩ := (hinv.places.live_iff n).1 trivial
    cases q with
    | chain l => exact ⟨.linked l, hq⟩
    | held u | popped u =>
      rw [Config.At, hfoot] at hq
      cases hq
    | retired =>
      obtain ⟨u, hu⟩ := (hretired n).2 hq
      exact ⟨.retired u, hu⟩
    | free => exact ⟨.free, (hfree n).2 hq⟩
  · trivial
  · cases p with
    | linked l =>
      have hl : c.At n (.chain l) := hp
      cases q with
      | linked l' =>
        rw [Config.Place.chain.inj (hinv.places.unique hl (show c.At n (.chain l') from hq))]
      | retired u => cases hinv.places.unique hl ((hretired n).1 ⟨u, hq⟩)
      | free => cases hinv.places.unique hl ((hfree n).1 hq)
    | retired u =>
      have hu := (hretired n).1 ⟨u, hp⟩
      cases q with
      | linked l => cases hinv.places.unique hu (show c.At n (.chain l) from hq)
      | retired v =>
        obtain ⟨r, hr, hn⟩ := List.mem_map.1 hp
        obtain ⟨r', hr', hn'⟩ := List.mem_map.1 hq
        have hru : s.Records r.ptr u := List.mem_map_of_mem hr
        have hrv : s.Records r'.ptr v := List.mem_map_of_mem hr'
        rw [← h.record_eq hr hr' (hn.trans hn'.symm)] at hrv
        rw [h.records.unique hru hrv]
      | free => cases hinv.places.unique hu ((hfree n).1 hq)
    | free =>
      have hp := (hfree n).1 hp
      cases q with
      | linked l => cases hinv.places.unique hp (show c.At n (.chain l) from hq)
      | retired u => cases hinv.places.unique hp ((hretired n).1 ⟨u, hq⟩)
      | free => rfl
  · obtain ⟨r, hr, hnull⟩ := List.mem_map.1 hu
    have hmem := h.records.live_of_at (show s.Records r.ptr u from List.mem_map_of_mem hr)
    rw [← hc] at hmem
    obtain ⟨n, hn⟩ := hinv.retired _ hmem
    rw [hn] at hnull
    cases hnull

/-- All operations have returned, and every list that is initialized is in `ls`. -/
theorem Inv.destroy (h : s.Inv log) (hidle : ∀ u, s.queues.pcs u = .idle)
    (hls : ∀ l ∉ ls, (s.queues.lists l).head.ptr = none) : (s.destroy ls).Inv t log := by
  have hepochs : ∀ u, (s.epochs.threads u).pc = .idle := fun u =>
    (h.synced u).idle (by rw [hidle]; rfl)
  have hallocator : ∀ u, s.allocator.pcs u = .idle := fun u =>
    (h.synced u).allocator_idle (by rw [hidle]; exact id) (by simp [hepochs])
  refine ⟨h.accounts hidle, hls, fun u hu => ?_, fun us hus => ?_, fun u _ => ?_,
    fun ptr hptr => ?_,
    fun hbusy => absurd (hallocator t) hbusy, fun l cur ls hpc => ?_, h.heap⟩
  · exact congrArg Destruction.recordNodes (h.unregistered u hu)
  · cases hus
  · exact ⟨hepochs u, hallocator u⟩
  · cases (hepochs t).symm.trans hptr
  · cases hpc

/-- When all operations have returned and `destroy` has run for all lists, no node is allocated.
That `destroy` gets there is `destroy_ends`. -/
def DestroysAll (log : List (SystemEvent L T N V)) (s : QueueSystem L T N V) : Prop :=
  ∀ t ls log' d, (∀ u, s.queues.pcs u = .idle) → (∀ l ∉ ls, (s.queues.lists l).head.ptr = none) →
    Destruction.Run t log (s.destroy ls) log' d → d.pc = .caches [] →
      ∀ n, heapOf n log' = some false

/-- Nodes are conserved: in every run in which the epoch fits into the 63 bits of a status, each
allocated node is at one place, and `destroy` deletes it. -/
theorem run_conserves {nodes : Nodes N V} (hr : Run InBounds (QueueSystem.start nodes) log s) :
    Conserves log s ∧ DestroysAll log s :=
  ⟨hr.inv.conserves, fun _ _ _ _ hidle hls hdestroy hpc _ =>
    (hdestroy.inv (hr.inv.destroy hidle hls)).deleted hpc⟩

/-! ## A run -/

/-- The thread `false` pushes `7` and pops it, and the node `0` is retired. -/
def popsOnce : List (SystemAction Unit Bool ℕ ℕ) :=
  initAndPush false ++ .call false (.pop ()) :: threadSteps false 20

/-- The list and its retired node are destroyed. -/
theorem run_conserves_newSystem :
    ∃ log s log' d, newSystem.exec InBounds [] popsOnce = some (s, log) ∧
    (s.destroy [()]).exec false log (List.replicate 30 (.thread false)) = some (d, log') ∧
    Conserves log s ∧ ∀ n, heapOf n log' = some false := by
  have hdone : ((newSystem.exec InBounds [] popsOnce).any fun p =>
      decide (∀ t, p.1.queues.pcs t = .idle) &&
        ((p.1.destroy [()]).exec false p.2 (List.replicate 30 (.thread false))).any fun q =>
          decide (q.1.pc = .caches [])) = true := by decide +kernel
  obtain ⟨⟨s, log⟩, hrun, hs⟩ := (Option.any_eq_true _ _).1 hdone
  obtain ⟨hidle, hd⟩ := Bool.and_eq_true_iff.1 hs
  obtain ⟨⟨d, log'⟩, hdestroy, hpc⟩ := (Option.any_eq_true _ _).1 hd
  obtain ⟨hconserves, hall⟩ := run_conserves (Run.start.exec hrun)
  exact ⟨log, s, log', d, hrun, hdestroy, hconserves, hall false [()] log' d
    (of_decide_eq_true hidle) (fun l hl => absurd (List.mem_singleton_self l) hl)
    (Destruction.Run.start.exec hdestroy) (of_decide_eq_true hpc)⟩

/-! ## Two places, and none -/

/-- After two advances of the epoch the thread `false` has put the node `0` into its cache, and not
yet taken the record out of its retire list. -/
def popsTwice : List (SystemAction Unit Bool ℕ ℕ) :=
  popsOnce ++ List.replicate 14 .advanceEpoch ++ .call false (.pop ()) :: threadSteps false 17

/-- The thread `true` is to link the node `1` to the node `0`. The epoch overflows, and `false`
pushes, takes the node `0` out, releases it and gets it again. -/
def linksAtWrap : List (SystemAction Unit Bool ℕ ℕ) :=
  .call false (.init ()) :: threadSteps false 2 ++ .new false 0 :: threadSteps false 4 ++
    .call true (.push () 5) :: threadSteps true 2 ++ .new true 1 :: threadSteps true 9 ++
    List.replicate 2 .advanceEpoch ++
    .call false (.push () 7) :: threadSteps false 2 ++ .new false 2 :: threadSteps false 17 ++
    .call false (.pop ()) :: threadSteps false 24 ++ .call false (.push () 8) ::
      threadSteps false 4 ++
    threadSteps true 1 ++ threadSteps false 1

/-- The record of a node that is released is in the retire list when the node is in the cache. When
the epoch has overflown, an allocated node is at no place. -/
theorem not_conserves :
    (∃ log s, Run InBounds newSystem log s ∧
      (∃ r ∈ (s.epochs.threads false).retireList, r.ptr.ptr = some 0) ∧ s.At 0 (.cached false)) ∧
      ∃ log s, Run (fun s a _ => s.OneInit a) newSystem log s ∧
        s.allocator.allocated 1 = true ∧ ∀ p, ¬s.At 1 p := by
  constructor
  · have htwo : ((newSystem.exec InBounds [] popsTwice).any fun p =>
        decide ((∃ r ∈ (p.1.epochs.threads false).retireList, r.ptr.ptr = some 0) ∧
          (p.1.allocator.caches false).head.ptr = some 0 ∧
          (p.1.queues.nodes 0).next.ptr = none)) = true := by decide +kernel
    obtain ⟨⟨s, log⟩, hrun, hs⟩ := (Option.any_eq_true _ _).1 htwo
    obtain ⟨hrecord, hhead, hnext⟩ := of_decide_eq_true hs
    exact ⟨log, s, Run.start.exec hrun, hrecord, [0], ⟨hhead, hnext⟩, List.mem_singleton_self 0⟩
  · have hnone : ((QueueSystem.exec (fun s a _ => s.OneInit a) { newSystem with
        epochs := {
          globalEpoch := UInt64.ofNat (2 ^ 63 - 3 + 2)
          gcEpoch := UInt64.ofNat (2 ^ 63 - 3) } } []
        linksAtWrap).any fun p => decide (p.1.allocator.allocated 1 = true ∧
          (p.1.queues.lists ()).head.ptr = some 2 ∧ (p.1.queues.nodes 2).next.ptr = none ∧
          ∀ t, (p.1.queues.pcs t).footprint.holds.bind TaggedPtr.ptr ≠ some 1 ∧
            (p.1.queues.pcs t).footprint.popped.bind TaggedPtr.ptr ≠ some 1 ∧
            (p.1.epochs.threads t).pending = [] ∧
            (p.1.allocator.pcs t).node.bind TaggedPtr.ptr ≠ some 1 ∧
            (p.1.allocator.caches t).head.ptr = none)) = true := by decide +kernel
    obtain ⟨⟨s, log⟩, hrun, hs⟩ := (Option.any_eq_true _ _).1 hnone
    obtain ⟨hallocated, hhead, hnext, hthreads⟩ := of_decide_eq_true hs
    have hstart : Run (fun s a _ => s.OneInit a) newSystem [] newSystem := .start
    have hr := hstart.advances (fun _ _ => trivial) (advances_init (2 ^ 63 - 3) (by decide))
    refine ⟨log, s, hr.exec hrun, hallocated, fun p hp => ?_⟩
    cases p with
    | linked l =>
      obtain ⟨w, hw, hmem⟩ := hp
      have hlist : Chain.Linked s.queues.next (s.queues.lists l).head.ptr [2] := ⟨hhead, hnext⟩
      rw [hw.unique hlist] at hmem
      exact absurd (List.mem_singleton.1 hmem) (by decide)
    | held t => exact (hthreads t).1 hp.2
    | popped t => exact (hthreads t).2.1 hp
    | retired t =>
      obtain ⟨r, hr, -⟩ := hp
      rw [(hthreads t).2.2.1] at hr
      exact absurd hr List.not_mem_nil
    | hand t => exact (hthreads t).2.2.2.1 hp
    | cached t =>
      obtain ⟨w, hw, hmem⟩ := hp
      rw [(hthreads t).2.2.2.2] at hw
      rw [hw.unique (show Chain.Linked (Nodes.next s.queues.nodes) none [] from rfl)] at hmem
      exact absurd hmem List.not_mem_nil

end QueueSystem

end RockCoro
