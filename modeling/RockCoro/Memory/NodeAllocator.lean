import RockCoro.Lib.Chain
import RockCoro.Lib.Placement
import RockCoro.Memory.TSLinkedList.Basic

/-!
# The node allocator

`TSLinkedListNodeAllocator` of `memory/ts_linked_list.cpp`, one atomic operation a step, on the
memory `nodes`. The cache of a thread is read and written by that thread only; its links are the
`next_` of the nodes. `Owns` says which nodes the allocator has: each of them is in one cache, in
the hands of one thread, or not allocated.
-/

namespace RockCoro

/-- `TS_LINKED_LIST_NODE_CACHE_MAX_THREADS`. -/
abbrev TS_LINKED_LIST_NODE_CACHE_MAX_THREADS : ℕ := 1024

/-- `TS_LINKED_LIST_NODE_CACHE_COUNT`. -/
abbrev TS_LINKED_LIST_NODE_CACHE_COUNT : ℤ := 128

/-- `TS_LINKED_LIST_NODE_CACHE_BATCH_RELEASE_COUNT`. -/
abbrev TS_LINKED_LIST_NODE_CACHE_BATCH_RELEASE_COUNT : ℕ := 64

/-- `TSLinkedListNodeCache`: a stack of nodes, linked by `next_`. -/
structure TSLinkedListNodeCache (N : Type) where
  head : TaggedPtr N := {}
  count : ℤ := 0
  deriving DecidableEq

/-- Where a thread stands. The arguments are its local variables. -/
inductive AllocatorPc (N : Type)
  /-- In none of the functions. -/
  | idle
  | getPop
  | getReleased (node : TaggedPtr N)
  | getNext (node : TaggedPtr N)
  | releaseMark (node : TaggedPtr N)
  | releasePush (node : TaggedPtr N)
  /-- At the head of the loop of `batch_release`. -/
  | batchRelease (i : ℕ)
  deriving DecidableEq

/-- The node that the thread has taken from its cache, or not yet put there. -/
def AllocatorPc.node {N : Type} : AllocatorPc N → Option (TaggedPtr N)
  | .getReleased node | .getNext node | .releaseMark node | .releasePush node => some node
  | .idle | .getPop | .batchRelease _ => none

/-- The steps that a call has before it, beside one for each node that it deletes. -/
def AllocatorPc.stepsLeft {N : Type} : AllocatorPc N → ℕ
  | .idle => 0
  | .getNext _ | .batchRelease _ => 1
  | .getReleased _ => 2
  | .getPop | .releasePush _ => 3
  | .releaseMark _ => 4

/-- What is observed of the allocator. -/
inductive AllocatorEvent (N : Type)
  | new (n : N)
  | delete (n : N)
  /-- `get` returns. -/
  | got (ptr : TaggedPtr N)
  deriving DecidableEq

/-- The nodes in memory. -/
abbrev Nodes (N V : Type) := N → TSLinkedListNode N V

/-- The threads with a cache are in `registered`, in the order of their `ts_node_cache_index`; its
length is `tl_node_cache_count_`. `allocated` is the heap. -/
structure TSLinkedListNodeAllocator (T N : Type) where
  caches : T → TSLinkedListNodeCache N := fun _ => {}
  registered : List T := []
  pcs : T → AllocatorPc N := fun _ => .idle
  allocated : N → Bool := fun _ => false

/-- `TSLinkedListNodeCache::pop` of a cache that is not empty. -/
def TSLinkedListNodeCache.pop {N V : Type} (c : TSLinkedListNodeCache N) (nodes : Nodes N V)
    (n : N) :
    TSLinkedListNodeCache N :=
  { head := (nodes n).next, count := c.count - 1 }

namespace TSLinkedListNodeAllocator

variable {T N V : Type} [DecidableEq T] [DecidableEq N]

/-- The thread `t` comes to `pc`. -/
def setPc (a : TSLinkedListNodeAllocator T N) (t : T) (pc : AllocatorPc N) :
    TSLinkedListNodeAllocator T N :=
  { a with pcs := Function.update a.pcs t pc }

/-- The cache of `t` becomes `c`. -/
def setCache (a : TSLinkedListNodeAllocator T N) (t : T) (c : TSLinkedListNodeCache N) :
    TSLinkedListNodeAllocator T N :=
  { a with caches := Function.update a.caches t c }

/-- `init_thread_local_cache`. -/
def initThreadLocalCache (a : TSLinkedListNodeAllocator T N) (t : T) :
    Option (TSLinkedListNodeAllocator T N) :=
  if t ∈ a.registered then some a
  else if a.registered.length < TS_LINKED_LIST_NODE_CACHE_MAX_THREADS then
    some { a with registered := a.registered ++ [t] }
  else none

/-- The call of `get` or `release`, up to its first access to a node. -/
def call (a : TSLinkedListNodeAllocator T N) (t : T) (pc : AllocatorPc N) :
    Option (TSLinkedListNodeAllocator T N) :=
  match a.pcs t with
  | .idle => (a.initThreadLocalCache t).map fun a => a.setPc t pc
  | _ => none

/-- `get` with an empty cache: `new` returns the node `n`. -/
def new (a : TSLinkedListNodeAllocator T N) (nodes : Nodes N V) (t : T) (n : N) :
    Option (Nodes N V × TSLinkedListNodeAllocator T N) :=
  if a.pcs t = .getPop ∧ (a.caches t).head.ptr = none ∧ a.allocated n = false then
    some (Function.update nodes n {},
      { a with allocated := Function.update a.allocated n true }.setPc t (.getReleased ⟨some n, 0⟩))
  else none

/-- The next step of a thread in one of the functions, apart from `new`. -/
def threadStep (a : TSLinkedListNodeAllocator T N) (nodes : Nodes N V) (t : T) :
    Option (Nodes N V × TSLinkedListNodeAllocator T N × Option (AllocatorEvent N)) :=
  let cache := a.caches t
  match a.pcs t with
  | .idle => none
  | .getPop => do
    let n ← cache.head.ptr
    some (nodes, (a.setCache t (cache.pop nodes n)).setPc t (.getReleased cache.head), none)
  | .getReleased node => do
    let n ← node.ptr
    some (Function.update nodes n { nodes n with released := false },
    a.setPc t (.getNext node), none)
  | .getNext node => do
    let n ← node.ptr
    some (Function.update nodes n { nodes n with next := {} }, a.setPc t .idle, some (.got node))
  | .releaseMark node => do
    let n ← node.ptr
    some (Function.update nodes n { nodes n with released := true },
    a.setPc t (.releasePush node), none)
  | .releasePush node => do
    let n ← node.ptr
    let pc := if cache.count + 1 ≥ TS_LINKED_LIST_NODE_CACHE_COUNT then .batchRelease 0 else .idle
    some (Function.update nodes n { nodes n with next := cache.head },
      (a.setCache t { head := node, count := cache.count + 1 }).setPc t pc, none)
  | .batchRelease i =>
    match cache.head.ptr with
    | none => some (nodes, a.setPc t .idle, none)
    | some n =>
      let pc := if i + 1 < TS_LINKED_LIST_NODE_CACHE_BATCH_RELEASE_COUNT then
        .batchRelease (i + 1) else .idle
      some (nodes, { a.setCache t (cache.pop nodes n) with
        allocated := Function.update a.allocated n false }.setPc t pc, some (.delete n))

/-! ## What the allocator has -/

end TSLinkedListNodeAllocator

/-- The node that `next_` points to. -/
def Nodes.next {N V : Type} (nodes : Nodes N V) (n : N) : Option N := (nodes n).next.ptr

/-- The places of a node that the allocator has. -/
inductive AllocatorPlace (T : Type)
  | cached (t : T)
  | hand (t : T)
  /-- Not allocated. -/
  | heap

namespace TSLinkedListNodeAllocator

variable {T N V : Type} {nodes nodes' : Nodes N V} {a a' : TSLinkedListNodeAllocator T N}
  {cached : T → List N} {live live' : N → Prop} {t u : T} {n m : N}

/-- Where the allocator has the node. -/
def At (a : TSLinkedListNodeAllocator T N) (cached : T → List N) (n : N) : AllocatorPlace T → Prop
  | .cached t => n ∈ cached t
  | .hand t => (a.pcs t).node.bind TaggedPtr.ptr = some n
  | .heap => a.allocated n = false

/-- The allocator has the nodes of `live`, each of them once; those of `cached t` are in the cache
of `t`. -/
structure Owns (nodes : Nodes N V) (a : TSLinkedListNodeAllocator T N) (cached : T → List N)
    (live : N → Prop) : Prop where
  chain : ∀ t, Chain.Linked nodes.next (a.caches t).head.ptr (cached t)
  places : Placement.Exclusive (a.At cached) live
  hand : ∀ t p, (a.pcs t).node = some p → p.ptr ≠ none
  ready : ∀ t p n, a.pcs t = .getNext p → p.ptr = some n → (nodes n).released = false
  unregistered : ∀ t, t ∉ a.registered → a.pcs t = .idle ∧ cached t = []

/-- No node is allocated. -/
theorem owns_init : Owns nodes ({} : TSLinkedListNodeAllocator T N) (fun _ => [])
    fun _ => True where
  chain _ := rfl
  places := by
    have hheap : ∀ {n p}, ({} : TSLinkedListNodeAllocator T N).At (fun _ => []) n p →
      p = .heap := by
      intro n p hp
      cases p with
      | cached t => exact absurd hp List.not_mem_nil
      | hand t => cases hp
      | heap => rfl
    exact ⟨fun _ => ⟨fun _ => ⟨.heap, rfl⟩, fun _ => trivial⟩, fun hp hq =>
      (hheap hp).trans (hheap hq).symm⟩
  hand _ _ hp := by cases hp
  ready _ _ _ hp := by cases hp
  unregistered _ _ := ⟨rfl, rfl⟩

/-- The memory of the other nodes may change. -/
theorem Owns.congr (h : Owns nodes a cached live) (hnodes : ∀ n, live n → nodes' n = nodes n) :
    Owns nodes' a cached live where
  chain t := (h.chain t).congr fun n hn =>
    congrArg (TaggedPtr.ptr ∘ TSLinkedListNode.next)
    (hnodes n (h.places.live_of_at (show a.At cached n (.cached t) from hn)))
  places := h.places
  hand := h.hand
  ready t p n hpc hp := by
    have hn : a.At cached n (.hand t) := by rw [At, hpc]; exact hp
    rw [hnodes n (h.places.live_of_at hn)]
    exact h.ready t p n hpc hp
  unregistered := h.unregistered

section
variable [DecidableEq T]

@[simp] theorem setPc_pcs_self {pc : AllocatorPc N} : (a.setPc t pc).pcs t = pc :=
  Function.update_self ..

/-- The other threads stay where they are. -/
theorem setPc_pcs_of_ne {pc : AllocatorPc N} (hu : u ≠ t) : (a.setPc t pc).pcs u = a.pcs u :=
  Function.update_of_ne hu ..

@[simp] theorem setCache_caches_self {c : TSLinkedListNodeCache N} :
    (a.setCache t c).caches t = c :=
  Function.update_self ..

/-- The other caches are as before. -/
theorem setCache_caches_of_ne {c : TSLinkedListNodeCache N} (hu : u ≠ t) :
    (a.setCache t c).caches u = a.caches u :=
  Function.update_of_ne hu ..

/-- A thread in a call has a cache. -/
theorem Owns.mem_registered (h : Owns nodes a cached live) (hpc : a.pcs t ≠ .idle) :
    t ∈ a.registered := by
  by_contra ht
  exact hpc (h.unregistered t ht).1

/-! ### The steps -/

variable {pc : AllocatorPc N} {p : TaggedPtr N} {w : List N} {x : TSLinkedListNode N V}

/-- A thread is at another place, with the same node in its hands. -/
theorem at_setPc (hnode : pc.node = (a.pcs t).node) (n : N) (q : AllocatorPlace T) :
    (a.setPc t pc).At cached n q ↔ a.At cached n q := by
  cases q with
  | hand u =>
    rcases eq_or_ne u t with rfl | hu
    · rw [At, At, setPc_pcs_self, hnode]
    · rw [At, At, setPc_pcs_of_ne hu]
  | cached | heap => exact .rfl

/-- A thread goes on with the same node in its hands. -/
theorem Owns.setPc (h : Owns nodes a cached live) (hnode : pc.node = (a.pcs t).node)
    (hready : ∀ p, pc ≠ .getNext p) (hreg : t ∈ a.registered) :
    Owns nodes (a.setPc t pc) cached live where
  chain := h.chain
  places := h.places.congr (at_setPc hnode) fun _ => .rfl
  hand u p hu := by
    rcases eq_or_ne u t with rfl | hut
    · rw [setPc_pcs_self, hnode] at hu
      exact h.hand u p hu
    · rw [setPc_pcs_of_ne hut] at hu
      exact h.hand u p hu
  ready u p n hu := by
    rcases eq_or_ne u t with rfl | hut
    · rw [setPc_pcs_self] at hu
      exact absurd hu (hready p)
    · rw [setPc_pcs_of_ne hut] at hu
      exact h.ready u p n hu
  unregistered u hu := by
    have hut : u ≠ t := by
      rintro rfl
      exact hu hreg
    rw [setPc_pcs_of_ne hut]
    exact h.unregistered u hu

variable [DecidableEq N]

/-- The thread writes to the node in its hands. -/
theorem Owns.write (h : Owns nodes a cached live) (hp : (a.pcs t).node = some p)
    (hn : p.ptr = some n)
    (hpc : pc.node = some p) (hready : pc = .getNext p → x.released = false) :
    Owns (Function.update nodes n x) (a.setPc t pc) cached live where
  chain u := by
    refine (h.chain u).congr fun m hm => ?_
    have hmn : m ≠ n := by
      rintro rfl
      have hhand : a.At cached m (.hand t) := by rw [At, hp]; exact hn
      cases h.places.unique (show a.At cached m (.cached u) from hm) hhand
    rw [Nodes.next, Function.update_of_ne hmn]
    rfl
  places := h.places.congr (at_setPc (hpc.trans hp.symm)) fun _ => .rfl
  hand u q hu := by
    rcases eq_or_ne u t with rfl | hut
    · rw [setPc_pcs_self, hpc] at hu
      exact h.hand u q (hp.trans hu)
    · rw [setPc_pcs_of_ne hut] at hu
      exact h.hand u q hu
  ready u q m hu hq := by
    rcases eq_or_ne u t with rfl | hut
    · rw [setPc_pcs_self] at hu
      subst hu
      obtain rfl := Option.some.inj hpc
      obtain rfl := Option.some.inj (hq.symm.trans hn)
      rw [Function.update_self]
      exact hready rfl
    · rw [setPc_pcs_of_ne hut] at hu
      have hmn : m ≠ n := by
        rintro rfl
        have hhand : a.At cached m (.hand t) := by rw [At, hp]; exact hn
        have hhand' : a.At cached m (.hand u) := by rw [At, hu]; exact hq
        exact hut (AllocatorPlace.hand.inj (h.places.unique hhand' hhand))
      rw [Function.update_of_ne hmn]
      exact h.ready u q m hu hq
  unregistered u hu := by
    have hut : u ≠ t := by
      rintro rfl
      rw [(h.unregistered u hu).1] at hp
      cases hp
    rw [setPc_pcs_of_ne hut]
    exact h.unregistered u hu

/-- `get` returns the node, which the allocator then has no more. -/
theorem Owns.got (h : Owns nodes a cached live) (hpc : a.pcs t = .getNext p) (hn : p.ptr = some n) :
    Owns (Function.update nodes n x) (a.setPc t .idle) cached fun m => p.ptr ≠ some m ∧ live m := by
  have hhand : a.At cached n (.hand t) := by rw [At, hpc]; exact hn
  have hlive : ∀ m, (p.ptr ≠ some m ∧ live m) ↔ m ≠ n ∧ live m := by
    intro m
    rw [hn, ne_eq, Option.some.injEq, eq_comm]
  have hplaces : Placement.Exclusive ((a.setPc t .idle).At cached) fun m => p.ptr ≠ some m ∧
    live m := by
    refine h.places.remove hhand (fun q hq => ?_) (fun m hm q => ?_) hlive
    · cases q with
      | hand u =>
        rcases eq_or_ne u t with rfl | hu
        · rw [At, setPc_pcs_self] at hq
          cases hq
        · rw [At, setPc_pcs_of_ne hu] at hq
          exact ⟨hq, fun he => hu (AllocatorPlace.hand.inj he)⟩
      | cached | heap => exact ⟨hq, by simp⟩
    · cases q with
      | hand u =>
        rcases eq_or_ne u t with rfl | hu
        · rw [At, At, setPc_pcs_self, hpc]
          exact ⟨fun he => (by cases he), fun he => absurd (Option.some.inj (he.symm.trans hn)) hm⟩
        · rw [At, At, setPc_pcs_of_ne hu]
      | cached | heap => exact .rfl
  suffices hkeep : Owns nodes (a.setPc t .idle) cached fun m => p.ptr ≠ some m ∧ live m from
    hkeep.congr fun m hm => Function.update_of_ne ((hlive m).1 hm).1 _ _
  refine ⟨h.chain, hplaces, fun u q hu => ?_, fun u q m hu hq => ?_, fun u hu => ?_⟩
  · rcases eq_or_ne u t with rfl | hut
    · rw [setPc_pcs_self] at hu
      cases hu
    · rw [setPc_pcs_of_ne hut] at hu
      exact h.hand u q hu
  · rcases eq_or_ne u t with rfl | hut
    · rw [setPc_pcs_self] at hu
      cases hu
    · rw [setPc_pcs_of_ne hut] at hu
      exact h.ready u q m hu hq
  · have hut : u ≠ t := by
      rintro rfl
      exact hu (h.mem_registered (by rw [hpc]; simp))
    rw [setPc_pcs_of_ne hut]
    exact h.unregistered u hu

omit [DecidableEq T] [DecidableEq N] in
/-- The first node of a cache. -/
theorem Owns.cached_cons (h : Owns nodes a cached live) (hhead : (a.caches t).head.ptr = some n) :
    ∃ w, cached t = n :: w := by
  have hchain := h.chain t
  cases hc : cached t with
  | nil =>
    rw [hc, hhead] at hchain
    cases hchain
  | cons m w =>
    rw [hc, hhead] at hchain
    obtain rfl := Option.some.inj hchain.1
    exact ⟨w, rfl⟩

/-- The first node of the cache goes to the hands of the thread or back to the heap. -/
theorem Owns.places_pop {c : TSLinkedListNodeCache N} {allocated : N → Bool} {w : List N}
    (h : Owns nodes a cached live) (hw : cached t = n :: w)
    (hhead : (a.caches t).head.ptr = some n) (hnone : (a.pcs t).node = none)
    (hto : pc.node = some (a.caches t).head ∧ allocated = a.allocated ∨
      pc.node = none ∧ allocated = Function.update a.allocated n false) :
    Placement.Exclusive (({ a.setCache t c with allocated := allocated }.setPc t pc).At
      (Function.update cached t w)) live := by
  have hnodup : (n :: w).Nodup := hw ▸ (h.chain t).nodup
  have hnw : n ∉ w := (List.nodup_cons.1 hnodup).1
  have hcached : a.At cached n (.cached t) := by rw [At, hw]; exact List.mem_cons_self
  have hother : Placement.OnlyMoves (a.At cached)
      (({ a.setCache t c with allocated := allocated }.setPc t pc).At
      (Function.update cached t w)) n := by
    intro m hm q
    cases q with
    | cached u =>
      rcases eq_or_ne u t with rfl | hu
      · rw [At, At, Function.update_self, hw, List.mem_cons]
        exact ⟨.inr, fun he => he.resolve_left hm⟩
      · rw [At, At, Function.update_of_ne hu]
    | hand u =>
      rcases eq_or_ne u t with rfl | hu
      · rw [At, At, setPc_pcs_self, hnone]
        rcases hto with ⟨hpc, -⟩ | ⟨hpc, -⟩
        · rw [hpc]
          exact ⟨fun he => absurd (Option.some.inj (he.symm.trans hhead)) hm, fun he => by
            cases he⟩
        · rw [hpc]
      · rw [At, At, setPc_pcs_of_ne hu]
        exact .rfl
    | heap =>
      change allocated m = false ↔ _
      rcases hto with ⟨-, rfl⟩ | ⟨-, rfl⟩
      · exact .rfl
      · rw [Function.update_of_ne hm]
        exact .rfl
  have hsub : ∀ q, ({ a.setCache t c with allocated := allocated }.setPc t pc).At
      (Function.update cached t w) n q → q = (if pc.node = none then .heap else .hand t) ∨
        a.At cached n q ∧ q ≠ .cached t := by
    intro q hq
    cases q with
    | cached u =>
      rcases eq_or_ne u t with rfl | hu
      · rw [At, Function.update_self] at hq
        exact absurd hq hnw
      · rw [At, Function.update_of_ne hu] at hq
        exact .inr ⟨hq, fun he => hu (AllocatorPlace.cached.inj he)⟩
    | hand u =>
      rcases eq_or_ne u t with rfl | hu
      · rcases hto with ⟨hpc, -⟩ | ⟨hpc, -⟩
        · exact .inl (by rw [hpc]; rfl)
        · rw [At, setPc_pcs_self, hpc] at hq
          cases hq
      · rw [At, setPc_pcs_of_ne hu] at hq
        exact .inr ⟨hq, by simp⟩
    | heap =>
      rcases hto with ⟨-, rfl⟩ | ⟨hpc, -⟩
      · exact .inr ⟨hq, by simp⟩
      · exact .inl (by rw [if_pos hpc])
  refine h.places.move hcached ?_ hsub hother fun _ => .rfl
  rcases hto with ⟨hpc, rfl⟩ | ⟨hpc, rfl⟩
  · rw [hpc, if_neg (by simp), At, setPc_pcs_self, hpc]
    exact hhead
  · rw [if_pos hpc]
    exact Function.update_self ..

/-- A thread takes the first node out of its cache, and has it in its hands or deletes it. -/
theorem Owns.pop {c : TSLinkedListNodeCache N} {allocated : N → Bool} (h : Owns nodes a cached live)
    (hhead : (a.caches t).head.ptr = some n) (hnone : (a.pcs t).node = none)
    (hc : c.head = (nodes n).next) (hready : ∀ p, pc ≠ .getNext p)
    (hto : pc.node = some (a.caches t).head ∧ allocated = a.allocated ∨
      pc.node = none ∧ allocated = Function.update a.allocated n false) :
    Owns nodes ({ a.setCache t c with allocated := allocated }.setPc t pc)
      (Function.update cached t (cached t).tail) live := by
  obtain ⟨w, hw⟩ := h.cached_cons hhead
  have hreg : t ∈ a.registered := by
    by_contra ht
    have hnil := (h.unregistered t ht).2
    rw [hw] at hnil
    cases hnil
  rw [hw, List.tail_cons]
  refine ⟨fun u => ?_, ?_, fun u q hu => ?_, fun u q m hu => ?_, fun u hu => ?_⟩
  · change Chain.Linked _ ((a.setCache t c).caches u).head.ptr _
    rcases eq_or_ne u t with rfl | hu
    · have hchain := h.chain u
      rw [hw] at hchain
      rw [setCache_caches_self, Function.update_self, hc]
      exact hchain.2
    · rw [setCache_caches_of_ne hu, Function.update_of_ne hu]
      exact h.chain u
  · exact h.places_pop hw hhead hnone hto
  · rcases eq_or_ne u t with rfl | hut
    · rw [setPc_pcs_self] at hu
      rcases hto with ⟨hpc, -⟩ | ⟨hpc, -⟩
      · rw [hpc] at hu
        cases hu
        rw [hhead]
        simp
      · rw [hpc] at hu
        cases hu
    · rw [setPc_pcs_of_ne hut] at hu
      exact h.hand u q hu
  · rcases eq_or_ne u t with rfl | hut
    · rw [setPc_pcs_self] at hu
      exact absurd hu (hready q)
    · rw [setPc_pcs_of_ne hut] at hu
      exact h.ready u q m hu
  · have hut : u ≠ t := by
      rintro rfl
      exact hu hreg
    rw [setPc_pcs_of_ne hut, Function.update_of_ne hut]
    exact h.unregistered u hu

/-- A thread puts the node in its hands into its cache. -/
theorem Owns.push {count : ℤ} (h : Owns nodes a cached live) (hpc : a.pcs t = .releasePush p)
    (hn : p.ptr = some n) (hnone : pc.node = none) :
    Owns (Function.update nodes n { nodes n with next := (a.caches t).head })
      ((a.setCache t { head := p, count := count }).setPc t pc)
      (Function.update cached t (n :: cached t)) live := by
  have hhand : a.At cached n (.hand t) := by rw [At, hpc]; exact hn
  have hout : ∀ u, n ∉ cached u := by
    intro u hu
    cases h.places.unique (show a.At cached n (.cached u) from hu) hhand
  have hchain : ∀ u, Chain.Linked (Nodes.next (Function.update nodes n
      { nodes n with next := (a.caches t).head })) (a.caches u).head.ptr (cached u) := by
    refine fun u => (h.chain u).congr fun m hm => ?_
    rw [Nodes.next, Function.update_of_ne (ne_of_mem_of_not_mem hm (hout u))]
    rfl
  refine ⟨fun u => ?_, ?_, fun u q hu => ?_, fun u q m hu hq => ?_, fun u hu => ?_⟩
  · change Chain.Linked _ ((a.setCache t _).caches u).head.ptr _
    rcases eq_or_ne u t with rfl | hu
    · rw [setCache_caches_self, Function.update_self]
      refine ⟨hn, ?_⟩
      rw [Nodes.next, Function.update_self]
      exact hchain u
    · rw [setCache_caches_of_ne hu, Function.update_of_ne hu]
      exact hchain u
  · refine h.places.move (q := .cached t) hhand ?_ (fun q hq => ?_) (fun m hm q => ?_) fun _ => .rfl
    · rw [At, Function.update_self]
      exact List.mem_cons_self
    · cases q with
      | cached u =>
        rcases eq_or_ne u t with rfl | hu
        · exact .inl rfl
        · rw [At, Function.update_of_ne hu] at hq
          exact absurd hq (hout u)
      | hand u =>
        rcases eq_or_ne u t with rfl | hu
        · rw [At, setPc_pcs_self, hnone] at hq
          cases hq
        · rw [At, setPc_pcs_of_ne hu] at hq
          exact .inr ⟨hq, fun he => hu (AllocatorPlace.hand.inj he)⟩
      | heap => exact .inr ⟨hq, by simp⟩
    · cases q with
      | cached u =>
        rcases eq_or_ne u t with rfl | hu
        · rw [At, At, Function.update_self, List.mem_cons]
          exact ⟨fun he => he.resolve_left hm, .inr⟩
        · rw [At, At, Function.update_of_ne hu]
      | hand u =>
        rcases eq_or_ne u t with rfl | hu
        · rw [At, At, setPc_pcs_self, hnone, hpc]
          exact ⟨fun he => (by cases he), fun he => absurd (Option.some.inj (he.symm.trans hn)) hm⟩
        · rw [At, At, setPc_pcs_of_ne hu]
          exact .rfl
      | heap => exact .rfl
  · rcases eq_or_ne u t with rfl | hut
    · rw [setPc_pcs_self, hnone] at hu
      cases hu
    · rw [setPc_pcs_of_ne hut] at hu
      exact h.hand u q hu
  · rcases eq_or_ne u t with rfl | hut
    · rw [setPc_pcs_self] at hu
      rw [hu] at hnone
      cases hnone
    · rw [setPc_pcs_of_ne hut] at hu
      have hmn : m ≠ n := by
        rintro rfl
        have hhand' : a.At cached m (.hand u) := by
          rw [At, show a.pcs u = .getNext q from hu]
          exact hq
        exact hut (AllocatorPlace.hand.inj (h.places.unique hhand' hhand))
      rw [Function.update_of_ne hmn]
      exact h.ready u q m hu hq
  · have hut : u ≠ t := by
      rintro rfl
      exact hu (h.mem_registered (by rw [hpc]; simp))
    rw [setPc_pcs_of_ne hut, Function.update_of_ne hut]
    exact h.unregistered u hu

/-- `new` returns a node that is not allocated. -/
theorem Owns.new {a' : TSLinkedListNodeAllocator T N} (h : Owns nodes a cached live)
    (hs : a.new nodes t n = some (nodes', a')) :
    Owns nodes' a' cached live ∧ live n ∧ nodes' = Function.update nodes n {} := by
  rw [TSLinkedListNodeAllocator.new] at hs
  split at hs
  · rename_i hok
    obtain ⟨hpc, -, hn⟩ := hok
    cases hs
    have hheap : a.At cached n .heap := hn
    have hlive := h.places.live_of_at hheap
    refine ⟨⟨fun u => ?_, ?_, fun u q hu => ?_, fun u q m hu hq => ?_, fun u hu => ?_⟩, hlive, rfl⟩
    · refine (h.chain u).congr fun m hm => ?_
      have hmn : m ≠ n := by
        rintro rfl
        cases h.places.unique (show a.At cached m (.cached u) from hm) hheap
      rw [Nodes.next, Function.update_of_ne hmn]
      rfl
    · refine h.places.move (q := .hand t) hheap ?_ (fun q hq => ?_) (fun m hm q => ?_) fun _ => .rfl
      · rw [At, setPc_pcs_self]
        rfl
      · cases q with
        | cached u => exact .inr ⟨hq, by simp⟩
        | hand u =>
          rcases eq_or_ne u t with rfl | hu
          · exact .inl rfl
          · rw [At, setPc_pcs_of_ne hu] at hq
            exact .inr ⟨hq, by simp⟩
        | heap =>
          change Function.update a.allocated n true n = false at hq
          rw [Function.update_self] at hq
          cases hq
      · cases q with
        | cached u => exact .rfl
        | hand u =>
          rcases eq_or_ne u t with rfl | hu
          · rw [At, At, setPc_pcs_self, hpc]
            exact ⟨fun he => absurd (Option.some.inj he).symm hm, fun he => by cases he⟩
          · rw [At, At, setPc_pcs_of_ne hu]
        | heap =>
          change Function.update a.allocated n true m = false ↔ _
          rw [Function.update_of_ne hm]
          exact .rfl
    · rcases eq_or_ne u t with rfl | hut
      · rw [setPc_pcs_self] at hu
        cases hu
        simp
      · rw [setPc_pcs_of_ne hut] at hu
        exact h.hand u q hu
    · rcases eq_or_ne u t with rfl | hut
      · rw [setPc_pcs_self] at hu
        cases hu
      · rw [setPc_pcs_of_ne hut] at hu
        have hmn : m ≠ n := by
          rintro rfl
          have hhand : a.At cached m (.hand u) := by
            rw [At, show a.pcs u = .getNext q from hu]
            exact hq
          cases h.places.unique hhand hheap
        rw [Function.update_of_ne hmn]
        exact h.ready u q m hu hq
    · have hut : u ≠ t := by
        rintro rfl
        exact hu (h.mem_registered (by rw [hpc]; simp))
      rw [setPc_pcs_of_ne hut]
      exact h.unregistered u hu
  · cases hs

omit [DecidableEq N] in
/-- A new cache is empty, so registration changes nothing that the allocator has. -/
theorem Owns.initThreadLocalCache (h : Owns nodes a cached live)
    (hs : a.initThreadLocalCache t = some a') :
    Owns nodes a' cached live ∧ t ∈ a'.registered ∧ a'.pcs = a.pcs := by
  rw [TSLinkedListNodeAllocator.initThreadLocalCache] at hs
  split at hs
  · rename_i hreg
    cases hs
    exact ⟨h, hreg, rfl⟩
  · split at hs
    · cases hs
      refine ⟨⟨h.chain, h.places, h.hand, h.ready, fun u hu => ?_⟩,
        List.mem_append_right _ (List.mem_singleton_self t), rfl⟩
      exact h.unregistered u fun hreg => hu (List.mem_append_left _ hreg)
    · cases hs

omit [DecidableEq N] in
/-- A call moves its thread and leaves the heap alone. -/
theorem frame_of_call (hs : a.call t pc = some a') : a.pcs t = .idle ∧
    a'.pcs = Function.update a.pcs t pc ∧ a'.allocated = a.allocated := by
  rw [call] at hs
  split at hs
  · rename_i hidle
    obtain ⟨a₁, hs₁, rfl⟩ := Option.map_eq_some_iff.1 hs
    refine ⟨hidle, ?_⟩
    rw [TSLinkedListNodeAllocator.initThreadLocalCache] at hs₁
    split at hs₁
    · cases hs₁
      exact ⟨rfl, rfl⟩
    · split at hs₁
      · cases hs₁
        exact ⟨rfl, rfl⟩
      · cases hs₁
  · cases hs

omit [DecidableEq N] in
/-- A call of `get` changes nothing that the allocator has. -/
theorem Owns.callGet (h : Owns nodes a cached live) (hs : a.call t .getPop = some a') :
    Owns nodes a' cached live := by
  rw [call] at hs
  split at hs
  · rename_i hidle
    obtain ⟨a₁, hs₁, rfl⟩ := Option.map_eq_some_iff.1 hs
    obtain ⟨h₁, hreg, hpcs⟩ := h.initThreadLocalCache hs₁
    exact h₁.setPc (by rw [hpcs, hidle]; rfl) (by simp) hreg
  · cases hs

omit [DecidableEq N] in
/-- `release` is called with a node that the allocator has not. -/
theorem Owns.callRelease (h : Owns nodes a cached live) (hn : p.ptr = some n) (hdead : ¬live n)
    (hs : a.call t (.releaseMark p) = some a') : Owns nodes a' cached fun m => m = n ∨ live m := by
  rw [call] at hs
  split at hs
  · rename_i hidle
    obtain ⟨a₁, hs₁, rfl⟩ := Option.map_eq_some_iff.1 hs
    obtain ⟨h₁, hreg, hpcs⟩ := h.initThreadLocalCache hs₁
    refine ⟨h₁.chain, ?_, fun u q hu => ?_, fun u q m hu hq => ?_, fun u hu => ?_⟩
    · refine h₁.places.add (q := .hand t) hdead ?_ (fun q hq => ?_) (fun m hm q => ?_) fun _ => .rfl
      · rw [At, setPc_pcs_self]
        exact hn
      · cases q with
        | hand u =>
          rcases eq_or_ne u t with rfl | hu
          · exact .inl rfl
          · rw [At, setPc_pcs_of_ne hu] at hq
            exact .inr hq
        | cached | heap => exact .inr hq
      · cases q with
        | hand u =>
          rcases eq_or_ne u t with rfl | hu
          · rw [At, At, setPc_pcs_self, hpcs, hidle]
            exact ⟨fun he => absurd (Option.some.inj (he.symm.trans hn)) hm, fun he => by cases he⟩
          · rw [At, At, setPc_pcs_of_ne hu]
        | cached | heap => exact .rfl
    · rcases eq_or_ne u t with rfl | hut
      · rw [setPc_pcs_self] at hu
        cases hu
        rw [hn]
        simp
      · rw [setPc_pcs_of_ne hut] at hu
        exact h₁.hand u q hu
    · rcases eq_or_ne u t with rfl | hut
      · rw [setPc_pcs_self] at hu
        cases hu
      · rw [setPc_pcs_of_ne hut] at hu
        exact h₁.ready u q m hu hq
    · have hut : u ≠ t := by
        rintro rfl
        exact hu hreg
      rw [setPc_pcs_of_ne hut]
      exact h₁.unregistered u hu
  · cases hs

/-- The nodes that the allocator has behind a step. -/
def Keeps (live : N → Prop) : Option (AllocatorEvent N) → N → Prop
  | some (.got p) => fun n => p.ptr ≠ some n ∧ live n
  | _ => live

/-- The call of the thread is a step nearer to its end, and the caches of the others stay. -/
structure Nearer (a a' : TSLinkedListNodeAllocator T N) (t : T) (cached cached' : T → List N) :
    Prop where
  others : ∀ u ≠ t, cached' u = cached u
  steps : (cached' t).length + (a'.pcs t).stepsLeft + 1 ≤
    (cached t).length + (a.pcs t).stepsLeft

omit [DecidableEq N] in
/-- A step that only goes on is a step nearer. -/
theorem nearer_setPc (hleft : pc.stepsLeft + 1 ≤ (a.pcs t).stepsLeft) :
    Nearer a (a.setPc t pc) t cached cached := by
  refine ⟨fun _ _ => rfl, ?_⟩
  rw [setPc_pcs_self]
  omega

/-- A step writes to nodes that the allocator has, and it has them still or returns them. -/
theorem Owns.threadStep {e : Option (AllocatorEvent N)} (h : Owns nodes a cached live)
    (hs : a.threadStep nodes t = some (nodes', a', e)) :
    (∃ cached', Owns nodes' a' cached' (Keeps live e) ∧ Nearer a a' t cached cached') ∧
      (nodes' = nodes ∨ ∃ n x, live n ∧ nodes' = Function.update nodes n x) := by
  have hhand : ∀ {p n}, (a.pcs t).node = some p → p.ptr = some n → live n := by
    intro p n hp hn
    exact h.places.live_of_at (show a.At cached n (.hand t) by rw [At, hp]; exact hn)
  cases hpc : a.pcs t with
  | idle =>
    simp only [TSLinkedListNodeAllocator.threadStep, hpc] at hs
    cases hs
  | getPop =>
    simp only [TSLinkedListNodeAllocator.threadStep, hpc] at hs
    obtain ⟨n, hn, ⟨⟩⟩ := Option.bind_eq_some_iff.1 hs
    refine ⟨⟨_, h.pop hn ?_ rfl (by simp) (.inl ⟨rfl, rfl⟩), ?_, ?_⟩, .inl rfl⟩
    · rw [hpc]
      rfl
    · exact fun u hu => Function.update_of_ne hu ..
    · rw [setPc_pcs_self, Function.update_self, List.length_tail, hpc]
      change _ - 1 + 2 + 1 ≤ _ + 3
      omega
  | getReleased p =>
    simp only [TSLinkedListNodeAllocator.threadStep, hpc] at hs
    obtain ⟨n, hn, ⟨⟩⟩ := Option.bind_eq_some_iff.1 hs
    have hp : (a.pcs t).node = some p := by rw [hpc]; rfl
    exact ⟨⟨cached, h.write hp hn rfl fun _ => rfl, nearer_setPc (by rw [hpc]; exact le_rfl)⟩,
      .inr ⟨n, _, hhand hp hn, rfl⟩⟩
  | getNext p =>
    simp only [TSLinkedListNodeAllocator.threadStep, hpc] at hs
    obtain ⟨n, hn, ⟨⟩⟩ := Option.bind_eq_some_iff.1 hs
    exact ⟨⟨cached, h.got hpc hn, nearer_setPc (by rw [hpc]; exact le_rfl)⟩,
      .inr ⟨n, _, hhand (by rw [hpc]; rfl) hn, rfl⟩⟩
  | releaseMark p =>
    simp only [TSLinkedListNodeAllocator.threadStep, hpc] at hs
    obtain ⟨n, hn, ⟨⟩⟩ := Option.bind_eq_some_iff.1 hs
    have hp : (a.pcs t).node = some p := by rw [hpc]; rfl
    exact ⟨⟨cached, h.write hp hn rfl (by simp), nearer_setPc (by rw [hpc]; exact le_rfl)⟩,
      .inr ⟨n, _, hhand hp hn, rfl⟩⟩
  | releasePush p =>
    simp only [TSLinkedListNodeAllocator.threadStep, hpc] at hs
    obtain ⟨n, hn, ⟨⟩⟩ := Option.bind_eq_some_iff.1 hs
    refine ⟨⟨_, h.push hpc hn ?_, ?_, ?_⟩, .inr ⟨n, _, hhand (by rw [hpc]; rfl) hn, rfl⟩⟩
    · split <;> rfl
    · exact fun u hu => Function.update_of_ne hu ..
    · rw [setPc_pcs_self, Function.update_self, List.length_cons, hpc]
      change _ + 1 + _ + 1 ≤ _ + 3
      split
      · exact le_rfl
      · exact Nat.le_succ _
  | batchRelease i =>
    have hnone : (a.pcs t).node = none := by rw [hpc]; rfl
    have hidle : a.pcs t ≠ .idle := by rw [hpc]; simp
    simp only [TSLinkedListNodeAllocator.threadStep, hpc] at hs
    split at hs
    · cases hs
      exact ⟨⟨cached, h.setPc hnone.symm (by simp) (h.mem_registered hidle),
        nearer_setPc (by rw [hpc]; exact le_rfl)⟩, .inl rfl⟩
    · rename_i n hn
      cases hs
      refine ⟨⟨_, h.pop hn hnone rfl (fun q => ?_) (.inr ⟨?_, rfl⟩), ?_, ?_⟩, .inl rfl⟩
      · split <;> simp
      · split <;> rfl
      · exact fun u hu => Function.update_of_ne hu ..
      · obtain ⟨w, hw⟩ := h.cached_cons hn
        rw [setPc_pcs_self, Function.update_self, hw, hpc]
        change w.length + _ + 1 ≤ w.length + 1 + 1
        split
        · exact le_rfl
        · exact Nat.le_succ _

/-- The heap behind a step. -/
def heapAfter (allocated : N → Bool) : Option (AllocatorEvent N) → N → Bool
  | some (.new n) => Function.update allocated n true
  | some (.delete n) => Function.update allocated n false
  | _ => allocated

/-- A step of a thread leaves the places of the others. -/
theorem frame_of_threadStep {e : Option (AllocatorEvent N)}
    (hs : a.threadStep nodes t = some (nodes', a', e)) :
    a'.pcs = Function.update a.pcs t (a'.pcs t) ∧
      a'.allocated = heapAfter a.allocated e ∧ (∀ n, e ≠ some (.new n)) ∧
      ∀ n, e = some (.delete n) → (a.caches t).head.ptr = some n := by
  have hpcs : ∀ {b : TSLinkedListNodeAllocator T N} {pc : AllocatorPc N}, b.pcs = a.pcs →
      (b.setPc t pc).pcs = Function.update a.pcs t ((b.setPc t pc).pcs t) := by
    intro b pc hb
    rw [setPc_pcs_self, ← hb]
    rfl
  cases hpc : a.pcs t with
  | idle =>
    simp only [TSLinkedListNodeAllocator.threadStep, hpc] at hs
    cases hs
  | getPop | getReleased p | getNext p | releaseMark p | releasePush p =>
    simp only [TSLinkedListNodeAllocator.threadStep, hpc] at hs
    obtain ⟨n, hn, ⟨⟩⟩ := Option.bind_eq_some_iff.1 hs
    exact ⟨hpcs rfl, rfl, by simp, by simp⟩
  | batchRelease i =>
    simp only [TSLinkedListNodeAllocator.threadStep, hpc] at hs
    split at hs
    · cases hs
      exact ⟨hpcs rfl, rfl, by simp, by simp⟩
    · rename_i n hn
      cases hs
      refine ⟨hpcs rfl, rfl, by simp, fun m hm => ?_⟩
      cases hm
      exact hn

/-- `get` returns behind the store to `next_`. -/
theorem getNext_of_got (hs : a.threadStep nodes t = some (nodes', a', some (.got p))) :
    a.pcs t = .getNext p ∧ ∃ n, p.ptr = some n ∧ nodes' n = { nodes n with next := {} } ∧
      a'.pcs t = .idle := by
  cases hpc : a.pcs t with
  | idle =>
    simp only [TSLinkedListNodeAllocator.threadStep, hpc] at hs
    cases hs
  | getNext q =>
    simp only [TSLinkedListNodeAllocator.threadStep, hpc] at hs
    obtain ⟨n, hn, ⟨⟩⟩ := Option.bind_eq_some_iff.1 hs
    exact ⟨rfl, n, hn, Function.update_self .., setPc_pcs_self⟩
  | getPop | getReleased q | releaseMark q | releasePush q =>
    simp only [TSLinkedListNodeAllocator.threadStep, hpc] at hs
    obtain ⟨n, -, he⟩ := Option.bind_eq_some_iff.1 hs
    cases he
  | batchRelease i =>
    simp only [TSLinkedListNodeAllocator.threadStep, hpc] at hs
    split at hs <;> cases hs

omit [DecidableEq T] [DecidableEq N] in
/-- The first node of a cache is allocated. -/
theorem Owns.allocated_of_head (h : Owns nodes a cached live)
    (hhead : (a.caches t).head.ptr = some n) :
    a.allocated n = true := by
  obtain ⟨w, hw⟩ := h.cached_cons hhead
  rw [← Bool.not_eq_false]
  intro hheap
  have hcached : a.At cached n (.cached t) := by rw [At, hw]; exact List.mem_cons_self
  cases h.places.unique hcached (show a.At cached n .heap from hheap)

omit [DecidableEq T] [DecidableEq N] in
/-- Only which nodes are live matters. -/
theorem Owns.live_congr (h : Owns nodes a cached live) (hlive : ∀ n, live' n ↔ live n) :
    Owns nodes a cached live' :=
  ⟨h.chain, h.places.congr (fun _ _ => .rfl) hlive, h.hand, h.ready, h.unregistered⟩

end

end TSLinkedListNodeAllocator

end RockCoro
