import RockCoro.Memory.NodeAllocator

/-!
# The cache of one thread

The cache of a thread in `memory/ts_linked_list.cpp` is a stack of nodes that is bounded by
`TS_LINKED_LIST_NODE_CACHE_COUNT`: `Calls` says what a sequence of `get` and `release` does to it.
The stack is linked through the `next_` of its nodes, which the queues wrote before, and its length
is kept in `count_`. `CacheRun` is one thread in these functions, step by step, while everything
that is not in its cache or in its hands may change; `Follows` says how far the thread has come with
the call that it is in.
-/

namespace RockCoro

/-- What a thread asked the allocator for, and what became of it. -/
inductive CacheEvent (N : Type)
  | new (n : N)
  | got (n : N)
  | release (n : N)
  | delete (n : N)
  deriving DecidableEq

/-- The sequences of calls of `get` and `release`, with the stack that they leave; its first node
was released last. A `release` that fills the stack deletes the upper nodes. -/
inductive Calls {N : Type} : List (CacheEvent N) → List N → Prop
  | nil : Calls [] []
  | get {tr n l} : Calls tr (n :: l) → Calls (tr ++ [.got n]) l
  | getNew {tr n} : Calls tr [] → Calls (tr ++ [.new n, .got n]) []
  | release {tr n l} : Calls tr l → n ∉ l → (l.length : ℤ) + 1 < TS_LINKED_LIST_NODE_CACHE_COUNT →
      Calls (tr ++ [.release n]) (n :: l)
  | batchRelease {tr n l} : Calls tr l → n ∉ l →
      (l.length : ℤ) + 1 = TS_LINKED_LIST_NODE_CACHE_COUNT →
      Calls (tr ++ .release n ::
          ((n :: l).take TS_LINKED_LIST_NODE_CACHE_BATCH_RELEASE_COUNT).map .delete)
        ((n :: l).drop TS_LINKED_LIST_NODE_CACHE_BATCH_RELEASE_COUNT)

/-- The stack never fills: the call that would fill it deletes half of it. -/
theorem Calls.length_lt {N : Type} {tr : List (CacheEvent N)} {l : List N} (h : Calls tr l) :
    (l.length : ℤ) < TS_LINKED_LIST_NODE_CACHE_COUNT := by
  induction h with
  | nil | getNew => exact Int.ofNat_lt.2 (Nat.succ_pos 127)
  | get _ ih =>
    rw [List.length_cons] at ih
    omega
  | release _ _ hlen => exact hlen
  | batchRelease _ _ hlen =>
    rw [List.length_drop, List.length_cons]
    unfold TS_LINKED_LIST_NODE_CACHE_BATCH_RELEASE_COUNT
    omega

/-- The nodes of the stack are different, so no batch deletes a node twice. -/
theorem Calls.nodup {N : Type} {tr : List (CacheEvent N)} {l : List N} (h : Calls tr l) :
    l.Nodup := by
  induction h with
  | nil | getNew => exact .nil
  | get _ ih => exact (List.nodup_cons.1 ih).2
  | release _ hn _ ih => exact List.nodup_cons.2 ⟨hn, ih⟩
  | batchRelease _ hn _ ih => exact (List.nodup_cons.2 ⟨hn, ih⟩).sublist (List.drop_sublist _ _)

namespace TSLinkedListNodeAllocator

variable {T N V : Type}

/-- The chain from `head_` has the node. -/
def InCache (nodes : Nodes N V) (a : TSLinkedListNodeAllocator T N) (t : T) (n : N) : Prop :=
  ∃ l, Chain.Linked nodes.next (a.caches t).head.ptr l ∧ n ∈ l

/-- The node is in the hands of the thread. -/
def InHand (a : TSLinkedListNodeAllocator T N) (t : T) (n : N) : Prop :=
  (a.pcs t).node.bind TaggedPtr.ptr = some n

/-- What the other threads do, and `t` outside the allocator. -/
structure Leaves (t : T) (nodes : Nodes N V) (a : TSLinkedListNodeAllocator T N)
    (nodes' : Nodes N V) (a' : TSLinkedListNodeAllocator T N) : Prop where
  cache : a'.caches t = a.caches t
  pc : a'.pcs t = a.pcs t
  memory : ∀ n, InCache nodes a t n ∨ a.InHand t n → nodes' n = nodes n
  allocated : ∀ n, InCache nodes a t n ∨ a.InHand t n → a'.allocated n = a.allocated n

/-- The events of a step. -/
def eventsOf : Option (AllocatorEvent N) → List (CacheEvent N)
  | some (.new n) => [.new n]
  | some (.delete n) => [.delete n]
  | some (.got p) => p.ptr.toList.map .got
  | none => []

/-- The steps of `t` in `get` and `release`, between steps of others. A node that is released is
allocated and not in the cache. -/
inductive CacheRun [DecidableEq T] [DecidableEq N] (t : T) (nodes₀ : Nodes N V)
    (a₀ : TSLinkedListNodeAllocator T N) :
    List (CacheEvent N) → Nodes N V → TSLinkedListNodeAllocator T N → Prop
  | start : CacheRun t nodes₀ a₀ [] nodes₀ a₀
  | get {tr nodes a a'} : CacheRun t nodes₀ a₀ tr nodes a → a.call t .getPop = some a' →
      CacheRun t nodes₀ a₀ tr nodes a'
  | release {tr nodes a a' p n} : CacheRun t nodes₀ a₀ tr nodes a → p.ptr = some n →
      a.allocated n = true → ¬InCache nodes a t n → a.call t (.releaseMark p) = some a' →
      CacheRun t nodes₀ a₀ (tr ++ [.release n]) nodes a'
  | new {tr nodes a nodes' a' n} : CacheRun t nodes₀ a₀ tr nodes a →
      a.new nodes t n = some (nodes', a') → CacheRun t nodes₀ a₀ (tr ++ [.new n]) nodes' a'
  | step {tr nodes a nodes' a' e} : CacheRun t nodes₀ a₀ tr nodes a →
      a.threadStep nodes t = some (nodes', a', e) →
      CacheRun t nodes₀ a₀ (tr ++ eventsOf e) nodes' a'
  | others {tr nodes a nodes' a'} : CacheRun t nodes₀ a₀ tr nodes a →
      Leaves t nodes a nodes' a' → CacheRun t nodes₀ a₀ tr nodes' a'

/-! ## How far a call has come -/

variable {nodes nodes' nodes₀ : Nodes N V} {a a' a₀ : TSLinkedListNodeAllocator T N} {t : T} {n : N}
  {p : TaggedPtr N} {tr : List (CacheEvent N)} {cached : List N}

/-- `get` has a node that is not in the cache any more or was not before. -/
def Taken (tr : List (CacheEvent N)) (cached : List N) (n : N) : Prop :=
  Calls tr (n :: cached) ∨ ∃ tr₀, tr = tr₀ ++ [.new n] ∧ Calls tr₀ [] ∧ cached = []

/-- `release` has a node that is not in the cache yet. -/
def Released (tr : List (CacheEvent N)) (cached : List N) (n : N) : Prop :=
  ∃ tr₀, tr = tr₀ ++ [.release n] ∧ Calls tr₀ cached ∧ n ∉ cached

/-- The calls behind a thread that stands at a place, and the part of the one that it is in. -/
def Follows (nodes : Nodes N V) (tr : List (CacheEvent N)) (cached : List N) :
    AllocatorPc N → Prop
  | .idle | .getPop => Calls tr cached
  | .getReleased p => ∃ n, p.ptr = some n ∧ Taken tr cached n
  | .getNext p => ∃ n, p.ptr = some n ∧ Taken tr cached n ∧ (nodes n).released = false
  | .releaseMark p | .releasePush p => ∃ n, p.ptr = some n ∧ Released tr cached n
  | .batchRelease i => ∃ tr₀ n l, tr = tr₀ ++ .release n :: ((n :: l).take i).map .delete ∧
      Calls tr₀ l ∧ n ∉ l ∧ (l.length : ℤ) + 1 = TS_LINKED_LIST_NODE_CACHE_COUNT ∧
      i < TS_LINKED_LIST_NODE_CACHE_BATCH_RELEASE_COUNT ∧ cached = (n :: l).drop i

/-- The cache holds the nodes of the list, and the thread has come to its place through calls. -/
structure Holds (t : T) (nodes : Nodes N V) (a : TSLinkedListNodeAllocator T N)
    (tr : List (CacheEvent N)) (cached : List N) : Prop where
  chain : Chain.Linked nodes.next (a.caches t).head.ptr cached
  count : (a.caches t).count = cached.length
  allocated : ∀ n ∈ cached, a.allocated n = true
  hand : ∀ n, a.InHand t n → n ∉ cached ∧ a.allocated n = true
  follows : Follows nodes tr cached (a.pcs t)

/-- The nodes in the cache are those of the list. -/
theorem Holds.inCache_iff (h : Holds t nodes a tr cached) : InCache nodes a t n ↔ n ∈ cached := by
  constructor
  · rintro ⟨l, hl, hn⟩
    exact hl.unique h.chain ▸ hn
  · exact fun hn => ⟨cached, h.chain, hn⟩

/-- The places of a thread that has no node in its hands. -/
theorem not_inHand {pc : AllocatorPc N} (hpc : a.pcs t = pc) (hnone : pc.node = none) :
    ¬a.InHand t n := by
  intro hhand
  rw [InHand, hpc, hnone] at hhand
  cases hhand

/-- The node that a thread has in its hands. -/
theorem eq_of_inHand {pc : AllocatorPc N} {m : N} (hpc : a.pcs t = pc) (hnode : pc.node = some p)
    (hp : p.ptr = some n) (hhand : a.InHand t m) : m = n := by
  rw [InHand, hpc, hnode, Option.bind_some, hp] at hhand
  exact (Option.some.inj hhand).symm

/-- What others do leaves the cache and the thread's node alone. -/
theorem Holds.others (h : Holds t nodes a tr cached) (hothers : Leaves t nodes a nodes' a') :
    Holds t nodes' a' tr cached where
  chain := by
    rw [hothers.cache]
    refine h.chain.congr fun n hn => ?_
    rw [Nodes.next, Nodes.next, hothers.memory n (.inl (h.inCache_iff.2 hn))]
  count := by
    rw [hothers.cache]
    exact h.count
  allocated n hn := by
    rw [hothers.allocated n (.inl (h.inCache_iff.2 hn))]
    exact h.allocated n hn
  hand n hn := by
    have hhand : a.InHand t n := by
      rw [InHand, ← hothers.pc]
      exact hn
    rw [hothers.allocated n (.inr hhand)]
    exact h.hand n hhand
  follows := by
    rw [hothers.pc]
    have hfollows := h.follows
    cases hpc : a.pcs t with
    | getNext p =>
      rw [hpc] at hfollows
      obtain ⟨n, hp, htaken, hreleased⟩ := hfollows
      have hhand : a.InHand t n := by
        rw [InHand, hpc]
        exact hp
      refine ⟨n, hp, htaken, ?_⟩
      rw [hothers.memory n (.inr hhand)]
      exact hreleased
    | idle | getPop | getReleased | releaseMark | releasePush | batchRelease =>
      rw [hpc] at hfollows
      exact hfollows

section
variable [DecidableEq T]

/-- A call changes no cache. -/
theorem cache_of_call {pc : AllocatorPc N} (hs : a.call t pc = some a') :
    a'.caches = a.caches := by
  rw [call] at hs
  split at hs
  · obtain ⟨a₁, hs₁, rfl⟩ := Option.map_eq_some_iff.1 hs
    rw [initThreadLocalCache] at hs₁
    split at hs₁
    · cases hs₁
      rfl
    · split at hs₁
      · cases hs₁
        rfl
      · cases hs₁
  · cases hs

/-- A call of `get` has not taken a node yet. -/
theorem Holds.get (h : Holds t nodes a tr cached) (hs : a.call t .getPop = some a') :
    Holds t nodes a' tr cached := by
  obtain ⟨hidle, hpcs, halloc⟩ := frame_of_call hs
  have hpc : a'.pcs t = .getPop := by rw [hpcs, Function.update_self]
  have hfollows := h.follows
  rw [hidle] at hfollows
  refine ⟨?_, ?_, ?_, fun n hn => absurd hn (not_inHand hpc rfl), ?_⟩
  · rw [cache_of_call hs]
    exact h.chain
  · rw [cache_of_call hs]
    exact h.count
  · rw [halloc]
    exact h.allocated
  · rw [hpc]
    exact hfollows

/-- A call of `release` with an allocated node that is not in the cache. -/
theorem Holds.release (h : Holds t nodes a tr cached) (hp : p.ptr = some n)
    (hn : a.allocated n = true) (hout : ¬InCache nodes a t n)
    (hs : a.call t (.releaseMark p) = some a') :
    Holds t nodes a' (tr ++ [.release n]) cached := by
  obtain ⟨hidle, hpcs, halloc⟩ := frame_of_call hs
  have hpc : a'.pcs t = .releaseMark p := by rw [hpcs, Function.update_self]
  have hfollows := h.follows
  rw [hidle] at hfollows
  rw [h.inCache_iff] at hout
  refine ⟨?_, ?_, ?_, fun m hm => ?_, ?_⟩
  · rw [cache_of_call hs]
    exact h.chain
  · rw [cache_of_call hs]
    exact h.count
  · rw [halloc]
    exact h.allocated
  · obtain rfl := eq_of_inHand hpc rfl hp hm
    rw [halloc]
    exact ⟨hout, hn⟩
  · rw [hpc]
    exact ⟨n, hp, tr, rfl, hfollows, hout⟩

variable [DecidableEq N]

/-- A node from `new` comes when the cache is empty. -/
theorem Holds.new (h : Holds t nodes a tr cached) (hs : a.new nodes t n = some (nodes', a')) :
    Holds t nodes' a' (tr ++ [.new n]) cached := by
  rw [TSLinkedListNodeAllocator.new] at hs
  split at hs
  · rename_i hok
    obtain ⟨hpc, hhead, hn⟩ := hok
    cases hs
    obtain rfl : cached = [] := by
      have hchain := h.chain
      rw [hhead] at hchain
      exact hchain.unique rfl
    have hfollows := h.follows
    rw [hpc] at hfollows
    refine ⟨hhead, h.count, by simp, fun m hm => ?_, ?_⟩
    · obtain rfl := eq_of_inHand (n := n) setPc_pcs_self rfl rfl hm
      exact ⟨List.not_mem_nil, Function.update_self ..⟩
    · rw [setPc_pcs_self]
      exact ⟨n, rfl, .inr ⟨tr, rfl, hfollows, rfl⟩⟩
  · cases hs

omit [DecidableEq N] in
/-- `pop` takes the first node off the chain. -/
theorem Holds.pop {w : List N} {allocated : N → Bool} {pc : AllocatorPc N}
    {tr' : List (CacheEvent N)} (h : Holds t nodes a tr (n :: w))
    (halloc : ∀ m ∈ w, allocated m = a.allocated m)
    (hhand : ∀ m, pc.node.bind TaggedPtr.ptr = some m → m = n ∧ allocated n = true)
    (hfollows : Follows nodes tr' w pc) :
    Holds t nodes ({ a.setCache t ((a.caches t).pop nodes n) with
      allocated := allocated }.setPc t pc) tr' w where
  chain := by
    change Chain.Linked nodes.next ((a.setCache t _).caches t).head.ptr w
    rw [setCache_caches_self]
    exact h.chain.2
  count := by
    change ((a.setCache t _).caches t).count = _
    rw [setCache_caches_self]
    change (a.caches t).count - 1 = w.length
    rw [h.count, List.length_cons]
    omega
  allocated m hm := (halloc m hm).trans (h.allocated m (List.mem_cons_of_mem _ hm))
  hand m hm := by
    rw [InHand, setPc_pcs_self] at hm
    obtain ⟨rfl, hn⟩ := hhand m hm
    exact ⟨(List.nodup_cons.1 h.chain.nodup).1, hn⟩
  follows := by
    rw [setPc_pcs_self]
    exact hfollows

/-- A write to the node in the hands of the thread, which keeps it or returns it. -/
theorem Holds.write {x : TSLinkedListNode N V} {pc : AllocatorPc N} {tr' : List (CacheEvent N)}
    (h : Holds t nodes a tr cached) (hp : p.ptr = some n) (hnode : (a.pcs t).node = some p)
    (hpc : ∀ q, pc.node = some q → q = p)
    (hfollows : Follows (Function.update nodes n x) tr' cached pc) :
    Holds t (Function.update nodes n x) (a.setPc t pc) tr' cached where
  chain := by
    have hhand : a.InHand t n := by rw [InHand, hnode]; exact hp
    refine h.chain.congr fun m hm => ?_
    rw [Nodes.next, Function.update_of_ne (ne_of_mem_of_not_mem hm (h.hand n hhand).1)]
    rfl
  count := h.count
  allocated := h.allocated
  hand m hm := by
    rw [InHand, setPc_pcs_self] at hm
    obtain ⟨q, hq, hm⟩ := Option.bind_eq_some_iff.1 hm
    obtain rfl := hpc q hq
    refine h.hand m ?_
    rw [InHand, hnode]
    exact hm
  follows := by
    rw [setPc_pcs_self]
    exact hfollows

/-- `push` puts the node in front of the chain. -/
theorem Holds.push {pc : AllocatorPc N} {tr' : List (CacheEvent N)} {count : ℤ}
    (h : Holds t nodes a tr cached) (hp : p.ptr = some n) (hhand : a.InHand t n)
    (hcount : count = cached.length + 1) (hnone : pc.node = none)
    (hfollows : ∀ nodes : Nodes N V, Follows nodes tr' (n :: cached) pc) :
    Holds t (Function.update nodes n { nodes n with next := (a.caches t).head })
      ((a.setCache t { head := p, count := count }).setPc t pc) tr' (n :: cached) where
  chain := by
    change Chain.Linked _ ((a.setCache t _).caches t).head.ptr _
    rw [setCache_caches_self]
    refine ⟨hp, ?_⟩
    rw [Nodes.next, Function.update_self]
    refine h.chain.congr fun m hm => ?_
    rw [Nodes.next, Function.update_of_ne (ne_of_mem_of_not_mem hm (h.hand n hhand).1)]
    rfl
  count := by
    change ((a.setCache t _).caches t).count = _
    rw [setCache_caches_self, List.length_cons]
    exact hcount
  allocated m hm := by
    rcases List.mem_cons.1 hm with rfl | hm
    · exact (h.hand m hhand).2
    · exact h.allocated m hm
  hand m hm := by
    rw [InHand, setPc_pcs_self, hnone] at hm
    cases hm
  follows := by
    rw [setPc_pcs_self]
    exact hfollows _

omit [DecidableEq T] [DecidableEq N] in
/-- The cache of a thread that has a first node. -/
theorem Holds.exists_cons (h : Holds t nodes a tr cached)
    (hhead : (a.caches t).head.ptr = some n) : ∃ w, cached = n :: w := by
  have hchain := h.chain
  rw [hhead] at hchain
  cases cached with
  | nil => cases hchain
  | cons m w =>
    obtain rfl := Option.some.inj hchain.1
    exact ⟨w, rfl⟩

omit [DecidableEq N] in
/-- The next node of a list that is taken off node by node. -/
theorem take_drop_succ {l w : List N} {i : ℕ} (h : l.drop i = n :: w) :
    l.take (i + 1) = l.take i ++ [n] ∧ l.drop (i + 1) = w := by
  refine ⟨?_, ?_⟩
  · rw [List.take_add_one, ← List.head?_drop, h]
    rfl
  · rw [← List.tail_drop, h]
    rfl

/-- The released node is pushed, and a full cache releases a batch. -/
theorem Holds.pushStep {e : Option (AllocatorEvent N)} (h : Holds t nodes a tr cached)
    (hpc : a.pcs t = .releasePush p) (hs : a.threadStep nodes t = some (nodes', a', e)) :
    ∃ cached', Holds t nodes' a' (tr ++ eventsOf e) cached' := by
  have hfollows := h.follows
  rw [hpc] at hfollows
  simp only [TSLinkedListNodeAllocator.threadStep, hpc] at hs
  obtain ⟨n, hn, ⟨⟩⟩ := Option.bind_eq_some_iff.1 hs
  obtain ⟨n', hn', tr₀, rfl, hcalls, hout⟩ := hfollows
  obtain rfl := Option.some.inj (hn.symm.trans hn')
  have hhand : a.InHand t n := by rw [InHand, hpc]; exact hn
  rw [eventsOf, List.append_nil]
  refine ⟨n :: cached, h.push hn hhand (by rw [h.count]) (by split <;> rfl) fun _ => ?_⟩
  have hlt := hcalls.length_lt
  split
  · rename_i hfull
    rw [h.count] at hfull
    refine ⟨tr₀, n, cached, rfl, hcalls, hout, by omega, by decide, rfl⟩
  · rename_i hroom
    rw [h.count] at hroom
    exact hcalls.release hout (by omega)

/-- A round of the loop of `batch_release`. -/
theorem Holds.batchStep {i : ℕ} {e : Option (AllocatorEvent N)} (h : Holds t nodes a tr cached)
    (hpc : a.pcs t = .batchRelease i) (hs : a.threadStep nodes t = some (nodes', a', e)) :
    ∃ cached', Holds t nodes' a' (tr ++ eventsOf e) cached' := by
  have hfollows := h.follows
  rw [hpc] at hfollows
  obtain ⟨tr₀, m, l, rfl, hcalls, hout, hlen, hi, rfl⟩ := hfollows
  simp only [TSLinkedListNodeAllocator.threadStep, hpc] at hs
  split at hs
  · -- the cache is not empty before the end of the loop
    rename_i hnone
    have hempty : (m :: l).drop i = [] := h.chain.unique hnone
    have hnil := congrArg List.length hempty
    rw [List.length_drop, List.length_cons, List.length_nil] at hnil
    have hi' : i < 64 := hi
    have hlen' : (l.length : ℤ) + 1 = 128 := hlen
    omega
  · rename_i n hn
    cases hs
    obtain ⟨w, hw⟩ := h.exists_cons hn
    obtain ⟨htake, hdrop⟩ := take_drop_succ hw
    rw [hw] at h
    have hnw := (List.nodup_cons.1 h.chain.nodup).1
    refine ⟨w, h.pop (fun q hq => ?_) (fun q hq => ?_) ?_⟩
    · exact Function.update_of_ne (ne_of_mem_of_not_mem hq hnw) ..
    · split at hq <;> cases hq
    · have hevents : tr₀ ++ .release m :: ((m :: l).take i).map .delete ++
          eventsOf (some (.delete n)) =
          tr₀ ++ .release m :: ((m :: l).take (i + 1)).map CacheEvent.delete := by
        rw [htake, List.map_append, List.append_assoc]
        rfl
      rw [hevents, ← hdrop]
      split
      · rename_i hnext
        exact ⟨tr₀, m, l, rfl, hcalls, hout, hlen, hnext, rfl⟩
      · rename_i hlast
        have hend : i + 1 = TS_LINKED_LIST_NODE_CACHE_BATCH_RELEASE_COUNT := by omega
        rw [hend]
        exact hcalls.batchRelease hout hlen

/-- A step of the thread goes on with its call, and the cache with it. -/
theorem Holds.step {e : Option (AllocatorEvent N)} (h : Holds t nodes a tr cached)
    (hs : a.threadStep nodes t = some (nodes', a', e)) :
    ∃ cached', Holds t nodes' a' (tr ++ eventsOf e) cached' := by
  have hfollows := h.follows
  cases hpc : a.pcs t with
  | idle =>
    simp only [TSLinkedListNodeAllocator.threadStep, hpc] at hs
    cases hs
  | getPop =>
    rw [hpc] at hfollows
    simp only [TSLinkedListNodeAllocator.threadStep, hpc] at hs
    obtain ⟨n, hn, ⟨⟩⟩ := Option.bind_eq_some_iff.1 hs
    obtain ⟨w, rfl⟩ := h.exists_cons hn
    rw [eventsOf, List.append_nil]
    refine ⟨w, h.pop (fun _ _ => rfl) (fun m hm => ?_) ⟨n, hn, .inl hfollows⟩⟩
    obtain rfl := Option.some.inj (hn.symm.trans hm)
    exact ⟨rfl, h.allocated _ List.mem_cons_self⟩
  | getReleased p =>
    rw [hpc] at hfollows
    simp only [TSLinkedListNodeAllocator.threadStep, hpc] at hs
    obtain ⟨n, hn, ⟨⟩⟩ := Option.bind_eq_some_iff.1 hs
    obtain ⟨n', hn', htaken⟩ := hfollows
    obtain rfl := Option.some.inj (hn.symm.trans hn')
    rw [eventsOf, List.append_nil]
    refine ⟨cached, h.write hn (by rw [hpc]; rfl) (fun q hq => (Option.some.inj hq).symm)
      ⟨n, hn, htaken, ?_⟩⟩
    rw [Function.update_self]
  | getNext p =>
    rw [hpc] at hfollows
    simp only [TSLinkedListNodeAllocator.threadStep, hpc] at hs
    obtain ⟨n, hn, ⟨⟩⟩ := Option.bind_eq_some_iff.1 hs
    obtain ⟨n', hn', htaken, -⟩ := hfollows
    obtain rfl := Option.some.inj (hn.symm.trans hn')
    have hevents : eventsOf (some (.got p)) = [CacheEvent.got n] := by
      rw [eventsOf, hn]
      rfl
    rw [hevents]
    refine ⟨cached, h.write hn (by rw [hpc]; rfl) (fun q hq => by cases hq) ?_⟩
    rcases htaken with hcalls | ⟨tr₀, rfl, hcalls, rfl⟩
    · exact hcalls.get
    · rw [List.append_assoc]
      exact hcalls.getNew
  | releaseMark p =>
    rw [hpc] at hfollows
    simp only [TSLinkedListNodeAllocator.threadStep, hpc] at hs
    obtain ⟨n, hn, ⟨⟩⟩ := Option.bind_eq_some_iff.1 hs
    rw [eventsOf, List.append_nil]
    exact ⟨cached, h.write hn (by rw [hpc]; rfl) (fun q hq => (Option.some.inj hq).symm) hfollows⟩
  | releasePush p => exact h.pushStep hpc hs
  | batchRelease i => exact h.batchStep hpc hs

/-- The cache holds the nodes of its list in every run. -/
theorem CacheRun.holds (hidle : a₀.pcs t = .idle) (hempty : a₀.caches t = {})
    (hrun : CacheRun t nodes₀ a₀ tr nodes a) : ∃ cached, Holds t nodes a tr cached := by
  induction hrun with
  | start =>
    refine ⟨[], ?_, ?_, by simp, fun n hn => absurd hn (not_inHand hidle rfl), ?_⟩
    · rw [hempty]
      rfl
    · rw [hempty]
      rfl
    · rw [hidle]
      exact .nil
  | get _ hs ih =>
    obtain ⟨cached, h⟩ := ih
    exact ⟨cached, h.get hs⟩
  | release _ hp hn hout hs ih =>
    obtain ⟨cached, h⟩ := ih
    exact ⟨cached, h.release hp hn hout hs⟩
  | new _ hs ih =>
    obtain ⟨cached, h⟩ := ih
    exact ⟨cached, h.new hs⟩
  | step _ hs ih =>
    obtain ⟨cached, h⟩ := ih
    exact h.step hs
  | others _ hothers ih =>
    obtain ⟨cached, h⟩ := ih
    exact ⟨cached, h.others hothers⟩

/-- In a call each step of the thread is possible. -/
theorem Holds.enabled (h : Holds t nodes a tr cached) (hpc : a.pcs t ≠ .idle) :
    (∃ r, a.threadStep nodes t = some r) ∨ a.pcs t = .getPop ∧ (a.caches t).head.ptr = none := by
  have hfollows := h.follows
  cases hp : a.pcs t with
  | idle => exact absurd hp hpc
  | getPop =>
    cases hhead : (a.caches t).head.ptr with
    | none => exact .inr ⟨rfl, rfl⟩
    | some n =>
      simp only [TSLinkedListNodeAllocator.threadStep, hp, hhead]
      exact .inl ⟨_, rfl⟩
  | getReleased p | getNext p | releaseMark p | releasePush p =>
    rw [hp] at hfollows
    obtain ⟨n, hn, -⟩ := hfollows
    simp only [TSLinkedListNodeAllocator.threadStep, hp, hn]
    exact .inl ⟨_, rfl⟩
  | batchRelease i =>
    simp only [TSLinkedListNodeAllocator.threadStep, hp]
    split
    · exact .inl ⟨_, rfl⟩
    · exact .inl ⟨_, rfl⟩

/-- The node that `get` returns. -/
theorem Holds.got (h : Holds t nodes a tr cached)
    (hs : a.threadStep nodes t = some (nodes', a', some (.got p))) :
    ∃ n, p.ptr = some n ∧ ¬InCache nodes' a' t n ∧ a'.allocated n = true ∧ (nodes' n).next = {} ∧
      (nodes' n).released = false := by
  obtain ⟨hpc, n, hn, -⟩ := getNext_of_got hs
  have hhand : a.InHand t n := by rw [InHand, hpc]; exact hn
  obtain ⟨hout, halloc⟩ := h.hand n hhand
  have hfollows := h.follows
  rw [hpc] at hfollows
  obtain ⟨n', hn', -, hreleased⟩ := hfollows
  obtain rfl := Option.some.inj (hn.symm.trans hn')
  simp only [TSLinkedListNodeAllocator.threadStep, hpc, hn] at hs
  cases hs
  refine ⟨n, hn, ?_, halloc, ?_, ?_⟩
  · rintro ⟨l, hl, hmem⟩
    have hchain : Chain.Linked (Nodes.next (Function.update nodes n { nodes n with next := {} }))
        (a.caches t).head.ptr cached := by
      refine h.chain.congr fun m hm => ?_
      rw [Nodes.next, Function.update_of_ne (ne_of_mem_of_not_mem hm hout)]
      rfl
    exact hout (hl.unique hchain ▸ hmem)
  · rw [Function.update_self]
  · rw [Function.update_self]
    exact hreleased

/-- The cache of a thread is a bounded stack. In every state that `get`, `release` and the other
threads reach, the links from `head_` end and are the nodes of the stack, each once; `count_` is
their number; between calls it is below the bound, and the calls have had the effects of `Calls`, so
a batch deletes the nodes that were released last, each once. A node that `get` returns is neither
in the cache nor deleted, and its fields are reset. No step of the thread fails. -/
theorem run_boundedStack (hidle : a₀.pcs t = .idle) (hempty : a₀.caches t = {})
    (hrun : CacheRun t nodes₀ a₀ tr nodes a) :
    ∃ cached, Chain.Linked nodes.next (a.caches t).head.ptr cached ∧ cached.Nodup ∧
      (a.caches t).count = cached.length ∧
      (a.pcs t = .idle → Calls tr cached ∧ (a.caches t).count < TS_LINKED_LIST_NODE_CACHE_COUNT) ∧
      (∀ nodes' a' p, a.threadStep nodes t = some (nodes', a', some (.got p)) →
        ∃ n, p.ptr = some n ∧ ¬InCache nodes' a' t n ∧ a'.allocated n = true ∧
          (nodes' n).next = {} ∧ (nodes' n).released = false) ∧
      (a.pcs t ≠ .idle →
        (∃ r, a.threadStep nodes t = some r) ∨ a.pcs t = .getPop ∧
        (a.caches t).head.ptr = none) := by
  obtain ⟨cached, h⟩ := hrun.holds hidle hempty
  refine ⟨cached, h.chain, h.chain.nodup, h.count, fun hpc => ?_, fun _ _ _ hs => h.got hs,
    h.enabled⟩
  have hfollows := h.follows
  rw [hpc] at hfollows
  have hcalls : Calls tr cached := hfollows
  exact ⟨hcalls, h.count ▸ hcalls.length_lt⟩

/-- A thread gets a new node and releases it. -/
theorem run_boundedStack_one :
    ∃ (nodes : Nodes ℕ ℕ) (a : TSLinkedListNodeAllocator Unit ℕ) (cached : List ℕ),
      (a.caches ()).count = 1 ∧ Chain.Linked nodes.next (a.caches ()).head.ptr cached ∧
      (a.caches ()).count = cached.length ∧ Calls [.new 5, .got 5, .release 5] cached := by
  have hrun : ∃ (nodes : Nodes ℕ ℕ) (a : TSLinkedListNodeAllocator Unit ℕ),
      a.pcs () = .idle ∧ (a.caches ()).count = 1 ∧
      CacheRun () (fun _ => {}) {} [.new 5, .got 5, .release 5] nodes a := by
    refine ⟨_, _, ?_, ?_, .step (e := none) (.step (e := none) (.release (p := ⟨some 5, 0⟩)
      (.step (e := some (.got ⟨some 5, 0⟩)) (.step (e := none) (.new (n := 5) (.get .start rfl) rfl)
      rfl) rfl) rfl rfl ?_ rfl) rfl) rfl⟩
    · rfl
    · rfl
    · rintro ⟨l, hl, hn⟩
      cases l with
      | nil => cases hn
      | cons m l => cases hl.1
  obtain ⟨nodes, a, hidle, hcount, hrun⟩ := hrun
  obtain ⟨cached, hchain, -, hlen, hcalls, -⟩ := run_boundedStack rfl rfl hrun
  exact ⟨nodes, a, cached, hcount, hchain, hlen, (hcalls hidle).1⟩

/-! ## The other threads -/

/-- What a step writes. -/
theorem writes_of_threadStep {u : T} {e : Option (AllocatorEvent N)}
    (hs : a.threadStep nodes u = some (nodes', a', e)) :
    (∀ t, t ≠ u → a'.caches t = a.caches t) ∧
      ∀ n, ¬a.InHand u n → nodes' n = nodes n := by
  cases hpc : a.pcs u with
  | idle =>
    simp only [TSLinkedListNodeAllocator.threadStep, hpc] at hs
    cases hs
  | getPop =>
    simp only [TSLinkedListNodeAllocator.threadStep, hpc] at hs
    obtain ⟨n, -, ⟨⟩⟩ := Option.bind_eq_some_iff.1 hs
    exact ⟨fun t ht => setCache_caches_of_ne ht, fun _ _ => rfl⟩
  | getReleased p | getNext p | releaseMark p =>
    simp only [TSLinkedListNodeAllocator.threadStep, hpc] at hs
    obtain ⟨n, hn, ⟨⟩⟩ := Option.bind_eq_some_iff.1 hs
    refine ⟨fun _ _ => rfl, fun m hm => Function.update_of_ne ?_ ..⟩
    rintro rfl
    exact hm (by rw [InHand, hpc]; exact hn)
  | releasePush p =>
    simp only [TSLinkedListNodeAllocator.threadStep, hpc] at hs
    obtain ⟨n, hn, ⟨⟩⟩ := Option.bind_eq_some_iff.1 hs
    refine ⟨fun t ht => setCache_caches_of_ne ht, fun m hm => Function.update_of_ne ?_ ..⟩
    rintro rfl
    exact hm (by rw [InHand, hpc]; exact hn)
  | batchRelease i =>
    simp only [TSLinkedListNodeAllocator.threadStep, hpc] at hs
    split at hs
    · cases hs
      exact ⟨fun _ _ => rfl, fun _ _ => rfl⟩
    · cases hs
      exact ⟨fun t ht => setCache_caches_of_ne ht, fun _ _ => rfl⟩

/-- The steps of other threads in the allocator are among those that `CacheRun` allows. -/
theorem Owns.leaves {cached : T → List N} {live : N → Prop} {u : T}
    {e : Option (AllocatorEvent N)} (h : Owns nodes a cached live) (htu : t ≠ u)
    (hs : a.threadStep nodes u = some (nodes', a', e)) : Leaves t nodes a nodes' a' := by
  obtain ⟨hcaches, hwrites⟩ := writes_of_threadStep hs
  obtain ⟨hpcs, halloc, hnew, hdelete⟩ := frame_of_threadStep hs
  -- the nodes of `t` have their places there
  have hplace : ∀ n, InCache nodes a t n ∨ a.InHand t n →
      ∃ q, a.At cached n q ∧ (q = .cached t ∨ q = .hand t) := by
    rintro n (⟨l, hl, hn⟩ | hn)
    · obtain rfl := hl.unique (h.chain t)
      exact ⟨.cached t, hn, .inl rfl⟩
    · exact ⟨.hand t, hn, .inr rfl⟩
  refine ⟨hcaches t htu, ?_, fun n hn => hwrites n fun hu => ?_, fun n hn => ?_⟩
  · rw [hpcs, Function.update_of_ne htu]
  · obtain ⟨q, hq, hqt⟩ := hplace n hn
    cases h.places.unique hq (show a.At cached n (.hand u) from hu)
    rcases hqt with hqt | hqt
    · cases hqt
    · exact htu (AllocatorPlace.hand.inj hqt).symm
  · rw [halloc]
    cases e with
    | none => rfl
    | some e =>
      cases e with
      | new m => exact absurd rfl (hnew m)
      | got p => rfl
      | delete m =>
        refine Function.update_of_ne ?_ ..
        rintro rfl
        obtain ⟨w, hw⟩ := h.cached_cons (hdelete n rfl)
        have hu : a.At cached n (.cached u) := by rw [At, hw]; exact List.mem_cons_self
        obtain ⟨q, hq, hqt⟩ := hplace n hn
        cases h.places.unique hq hu
        rcases hqt with hqt | hqt
        · exact htu (AllocatorPlace.cached.inj hqt).symm
        · cases hqt

end

end TSLinkedListNodeAllocator

end RockCoro
