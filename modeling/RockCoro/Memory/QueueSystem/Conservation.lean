import RockCoro.Memory.QueueSystem.Recycling

/-!
# No node is lost

Every node that `new` returned and that was not deleted is at one place: it is linked in a list, an
operation holds it, a record waits for its release, or the allocator has it.
-/

namespace RockCoro

open EpochBasedReclamation TSLinkedListNodeAllocator

variable {L T N V : Type}

/-- The places of an allocated node. -/
inductive NodePlace (L T : Type)
  | linked (l : L)
  /-- `init` or `push_back` has it and has not linked it. -/
  | held (t : T)
  /-- `pop_front` has taken it out and not retired it. -/
  | popped (t : T)
  /-- In a record of a retire list that was not handed to `release`. -/
  | retired (t : T)
  /-- `get` or `release` is in progress. -/
  | hand (t : T)
  | cached (t : T)

namespace QueueSystem

/-- Where a node is, read off the state. -/
def At (s : QueueSystem L T N V) (n : N) : NodePlace L T → Prop
  | .linked l => ∃ w, Chain.Linked s.queues.next (s.queues.lists l).head.ptr w ∧ n ∈ w
  | .held t => (s.queues.pcs t).footprint.stored = none ∧
    (s.queues.pcs t).footprint.holds.bind TaggedPtr.ptr = some n
  | .popped t => (s.queues.pcs t).footprint.popped.bind TaggedPtr.ptr = some n
  | .retired t => ∃ r ∈ (s.epochs.threads t).pending, r.ptr.ptr = some n
  | .hand t => (s.allocator.pcs t).node.bind TaggedPtr.ptr = some n
  | .cached t => ∃ w, Chain.Linked (Nodes.next s.queues.nodes) (s.allocator.caches t).head.ptr w ∧
    n ∈ w

/-- Every allocated node is at one place, in one record if it is retired, and it was allocated and
deleted by turns. -/
structure Conserves [DecidableEq N] (log : List (SystemEvent L T N V))
    (s : QueueSystem L T N V) : Prop where
  places : Placement.Exclusive s.At fun n => s.allocator.allocated n = true
  records : ∀ t, ((s.epochs.threads t).pending.map fun r => r.ptr.ptr).Nodup
  heap : ∀ n, heapOf n log = some (s.allocator.allocated n)

end QueueSystem

/-! ## The places of the lists -/

variable [DecidableEq L] [DecidableEq T]

/-- Without a node on its way into the list, the nodes from `head_` on are those of the list. -/
theorem Config.Inv.linked_chain {c : Config L T N V} {live : N → Prop} {l : L} (h : c.Inv live)
    (hstored : ∀ t p, (c.footprint t).stored ≠ some (l, p)) :
    Chain.Linked c.next (c.lists l).head.ptr (c.chain l) := by
  by_cases hl : c.chain l = []
  · rcases (h.fresh l hl).2 with hhead | ⟨t, ht⟩
    · rw [hl, hhead]
      rfl
    · exact absurd ht (hstored t _)
  · have hok := h.list l hl
    rw [show (c.lists l).head.ptr = (c.chain l).head? by
      rw [hok.head]; cases (c.chain l).head? <;> rfl]
    exact hok.linked

/-- The nodes from `head_` on are those of the list, or the dummy node when `init` is between its
stores. -/
theorem Config.Inv.linked_iff {c : Config L T N V} {live : N → Prop} {l : L} {n : N}
    (h : c.Inv live) : (∃ w, Chain.Linked c.next (c.lists l).head.ptr w ∧ n ∈ w) ↔
      n ∈ c.chain l ∨ ∃ t p, (c.footprint t).stored = some (l, p) ∧ p.ptr = some n := by
  by_cases hstored : ∃ t p, (c.footprint t).stored = some (l, p)
  · obtain ⟨t, p, ht⟩ := hstored
    have hl : c.chain l = [] := (h.threads t).initializes l (initializes_of_stored ht)
    obtain ⟨m, rfl, hnull, -⟩ := (h.threads t).held _ (holds_of_stored ht)
    have hhead := h.stored t l _ ht
    have hsingle : Chain.Linked c.next (c.lists l).head.ptr [m] := by
      rw [hhead]
      exact ⟨rfl, congrArg TaggedPtr.ptr hnull⟩
    rw [hl, or_iff_right List.not_mem_nil]
    refine ⟨fun ⟨w, hw, hn⟩ => ?_, fun ⟨u, p, hu, hp⟩ => ⟨[m], hsingle, ?_⟩⟩
    · rw [hw.unique hsingle] at hn
      obtain rfl := List.mem_singleton.1 hn
      exact ⟨t, _, ht, rfl⟩
    · obtain rfl := (h.stored u l p hu).symm.trans hhead
      obtain rfl := Option.some.inj hp
      exact List.mem_singleton_self _
  · have hchain := h.linked_chain (l := l) fun t p ht => hstored ⟨t, p, ht⟩
    refine ⟨fun ⟨w, hw, hn⟩ => .inl (hw.unique hchain ▸ hn), fun hn => ?_⟩
    rcases hn with hn | ⟨t, p, ht, -⟩
    · exact ⟨_, hchain, hn⟩
    · exact absurd ⟨t, p, ht⟩ hstored

namespace QueueSystem

variable {s : QueueSystem L T N V} {log : List (SystemEvent L T N V)} {cached : T → List N}
  {c : Config L T N V} {live : N → Prop}

/-- What the place of a node in the lists says of its place. -/
def Refines (s : QueueSystem L T N V) (cached : T → List N) :
    Config.Place L T → N → NodePlace L T → Prop
  | .chain l, _, p => p = .linked l
  | .held t, _, p => p = (s.queues.pcs t).footprint.stored.elim (.held t) fun x => .linked x.1
  | .popped t, _, p => p = .popped t
  | .retired, n, p => ∃ t, p = .retired t ∧ ∃ r ∈ (s.epochs.threads t).pending, r.ptr.ptr = some n
  | .free, n, p => ∃ t, p = .hand t ∧ s.allocator.At cached n (.hand t) ∨
    p = .cached t ∧ s.allocator.At cached n (.cached t)

/-- The places in the state are those of the invariants. -/
theorem Inv.at_iff [DecidableEq N] (h : s.Inv log) (hc : c.toQueues = s.queues) (hinv : c.Inv live)
    (howns : Owns s.queues.nodes s.allocator cached fun n => s.queues.free n = true)
    (n : N) (p : NodePlace L T) : s.At n p ↔ ∃ q, c.At n q ∧ s.Refines cached q n p := by
  have hfoot : ∀ t, c.footprint t = (s.queues.pcs t).footprint := fun t => by
    rw [← hc]
    rfl
  constructor
  · intro hp
    cases p with
    | linked l =>
      have hp : ∃ w, Chain.Linked c.next (c.lists l).head.ptr w ∧ n ∈ w := by
        rw [hc]
        exact hp
      rcases hinv.linked_iff.1 hp with hn | ⟨t, p, ht, hp⟩
      · exact ⟨.chain l, hn, rfl⟩
      · refine ⟨.held t, ?_, ?_⟩
        · rw [Config.At, Config.footprint, Config.holds_of_stored ht]
          exact hp
        · rw [Refines, ← hfoot, ht]
          rfl
    | held t =>
      refine ⟨.held t, ?_, ?_⟩
      · rw [Config.At, hfoot]
        exact hp.2
      · rw [Refines, hp.1]
        rfl
    | popped t =>
      refine ⟨.popped t, ?_, rfl⟩
      rw [Config.At, hfoot]
      exact hp
    | retired t =>
      obtain ⟨r, hr, hn⟩ := hp
      refine ⟨.retired, ⟨r.ptr, ?_, hn⟩, t, rfl, r, hr, hn⟩
      rw [hc]
      exact h.records.live_of_at (show s.Records r.ptr t from List.mem_map_of_mem hr)
    | hand t =>
      have hp : s.allocator.At cached n (.hand t) := hp
      refine ⟨.free, ?_, t, .inl ⟨rfl, hp⟩⟩
      rw [Config.At, hc]
      exact howns.places.live_of_at hp
    | cached t =>
      obtain ⟨w, hw, hn⟩ := hp
      have hp : s.allocator.At cached n (.cached t) := by
        rw [hw.unique (howns.chain t)] at hn
        exact hn
      refine ⟨.free, ?_, t, .inr ⟨rfl, hp⟩⟩
      rw [Config.At, hc]
      exact howns.places.live_of_at hp
  · rintro ⟨q, hq, hp⟩
    cases q with
    | chain l =>
      obtain rfl := hp
      have hq : ∃ w, Chain.Linked c.next (c.lists l).head.ptr w ∧ n ∈ w :=
        hinv.linked_iff.2 (.inl hq)
      rw [hc] at hq
      exact hq
    | held t =>
      rw [Config.At] at hq
      rw [Refines, ← hfoot] at hp
      cases hstored : (c.footprint t).stored with
      | none =>
        rw [hstored] at hp
        obtain rfl := hp
        rw [hfoot] at hstored hq
        exact ⟨hstored, hq⟩
      | some x =>
        rw [hstored] at hp
        obtain rfl := hp
        rw [Config.footprint, Config.holds_of_stored hstored] at hq
        have hq : ∃ w, Chain.Linked c.next (c.lists x.1).head.ptr w ∧ n ∈ w :=
          hinv.linked_iff.2 (.inr ⟨t, x.2, hstored, hq⟩)
        rw [hc] at hq
        exact hq
    | popped t =>
      obtain rfl := hp
      rw [Config.At, hfoot] at hq
      exact hq
    | retired =>
      obtain ⟨t, rfl, hr⟩ := hp
      exact hr
    | free =>
      obtain ⟨t, ⟨rfl, ht⟩ | ⟨rfl, ht⟩⟩ := hp
      · exact ht
      · exact ⟨_, howns.chain t, ht⟩

/-- A node has one tag in all its records. -/
theorem Inv.record_eq [DecidableEq N] (h : s.Inv log) {t u : T} {r r' : RetireRecord (TaggedPtr N)}
    (hr : r ∈ (s.epochs.threads t).pending) (hr' : r' ∈ (s.epochs.threads u).pending)
    (hptr : r.ptr.ptr = r'.ptr.ptr) : r.ptr = r'.ptr := by
  obtain ⟨c, hc, -, hinv⟩ := h.lists
  have href : ∀ {v} {r : RetireRecord (TaggedPtr N)}, r ∈ (s.epochs.threads v).pending →
      ∃ n, r.ptr = c.ref n := by
    intro v r hr
    refine hinv.retired _ ?_
    rw [hc]
    exact h.records.live_of_at (show s.Records r.ptr v from List.mem_map_of_mem hr)
  obtain ⟨n, hn⟩ := href hr
  obtain ⟨m, hm⟩ := href hr'
  rw [hn, hm] at hptr ⊢
  exact congrArg c.ref (Option.some.inj hptr)

/-- In a state with the invariant every node is at one place. -/
theorem Inv.conserves [DecidableEq N] (h : s.Inv log) : Conserves log s := by
  obtain ⟨c, hc, -, hinv⟩ := h.lists
  obtain ⟨cached, howns⟩ := h.owns
  have hat := h.at_iff hc hinv howns
  refine ⟨hinv.places.refine hat (fun {n q p p'} hq hp hp' => ?_) fun n => ?_, fun t => ?_, h.heap⟩
  · cases q with
    | chain | held | popped => exact hp.trans hp'.symm
    | retired =>
      obtain ⟨t, rfl, r, hr, hn⟩ := hp
      obtain ⟨u, rfl, r', hr', hn'⟩ := hp'
      have ht : s.Records r.ptr t := List.mem_map_of_mem hr
      have hu : s.Records r'.ptr u := List.mem_map_of_mem hr'
      rw [← h.record_eq hr hr' (hn.trans hn'.symm)] at hu
      rw [h.records.unique ht hu]
    | free =>
      obtain ⟨t, ⟨rfl, ht⟩ | ⟨rfl, ht⟩⟩ := hp
      · obtain ⟨u, ⟨rfl, hu⟩ | ⟨rfl, hu⟩⟩ := hp'
        · rw [AllocatorPlace.hand.inj (howns.places.unique ht hu)]
        · cases howns.places.unique ht hu
      · obtain ⟨u, ⟨rfl, hu⟩ | ⟨rfl, hu⟩⟩ := hp'
        · cases howns.places.unique ht hu
        · rw [AllocatorPlace.cached.inj (howns.places.unique ht hu)]
  · refine ⟨fun hn => ?_, fun ⟨p, hp⟩ => ?_⟩
    · obtain ⟨q, hq⟩ := (hinv.places.live_iff n).1 trivial
      suffices hp : ∃ p, s.Refines cached q n p from hp.imp fun p hp => (hat n p).2 ⟨q, hq, hp⟩
      cases q with
      | chain | held | popped => exact ⟨_, rfl⟩
      | retired =>
        obtain ⟨p, hp, hpn⟩ := hq
        rw [hc] at hp
        obtain ⟨t, ht⟩ := (h.records.live_iff p).1 hp
        obtain ⟨r, hr, rfl⟩ := List.mem_map.1 ht
        exact ⟨_, t, rfl, r, hr, hpn⟩
      | free =>
        rw [Config.At, hc] at hq
        obtain ⟨p, hp⟩ := (howns.places.live_iff n).1 hq
        cases p with
        | cached t => exact ⟨_, t, .inr ⟨rfl, hp⟩⟩
        | hand t => exact ⟨_, t, .inl ⟨rfl, hp⟩⟩
        | heap => cases hn.symm.trans hp
    · rw [← Bool.not_eq_false]
      intro hheap
      have hheap : s.allocator.At cached n .heap := hheap
      have hfree : c.At n .free := by
        rw [Config.At, hc]
        exact howns.places.live_of_at hheap
      obtain ⟨q, hq, hp⟩ := (hat n p).1 hp
      obtain rfl := hinv.places.unique hq hfree
      obtain ⟨t, ⟨-, ht⟩ | ⟨-, ht⟩⟩ := hp
      · cases howns.places.unique ht hheap
      · cases howns.places.unique ht hheap
  · have hmap : (s.epochs.threads t).pending.map (fun r => r.ptr.ptr) =
        ((s.epochs.threads t).pending.map RetireRecord.ptr).map TaggedPtr.ptr := by
      rw [List.map_map]
      rfl
    rw [hmap]
    refine (h.distinct t).map_on fun p hp p' hp' hptr => ?_
    obtain ⟨r, hr, rfl⟩ := List.mem_map.1 hp
    obtain ⟨r', hr', rfl⟩ := List.mem_map.1 hp'
    exact h.record_eq hr hr' hptr

end QueueSystem

end RockCoro
