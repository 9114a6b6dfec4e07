import RockCoro.BasicStruct.MinHeap
import Mathlib.Data.List.Range
import Mathlib.Algebra.Order.Group.Nat

/-!
# `ObjectPool` and `MinHeap`

The pool of `basic_struct/object_pool.h` and the class of `basic_struct/min_heap.h` that joins it
with `IntrusiveHeap`. A cell is named by its block and its position there. The cells of all blocks
are in the heap's `data_` or in `free_list_`, each once, whatever `Compare` answers
(`run_partitioned`), so the heap is looked at here without its order.
-/

namespace RockCoro

/-- A `T` in the array of a block. -/
structure Cell (B : Type) where
  block : B
  index : ℕ
  deriving DecidableEq

/-- `ObjectPool`: the blocks that it owns, and the cells that are free, the last of which goes out
first. -/
structure ObjectPool (B : Type) where
  blocks : List B
  freeList : List (Cell B)

namespace ObjectPool

variable {B : Type}

/-- `BlockSize / sizeof(T)`. -/
def countPerBlock (blockSize sizeT : ℕ) : ℕ := blockSize / sizeT

/-- The blocks for `capacity`, in the arithmetic of `size_t`. -/
def numBlocksNeeded (count capacity : ℕ) : ℕ := (capacity + count - 1) % 2 ^ 64 / count

/-- The cells of one block, in the order in which they enter the free list. -/
def cellsOf (count : ℕ) (b : B) : List (Cell B) := (List.range count).map (Cell.mk b)

/-- The cells of all blocks. -/
def cells (count : ℕ) (blocks : List B) : List (Cell B) := blocks.flatMap (cellsOf count)

/-- The constructor, where `new` answers the blocks of `addrs` one after another. -/
def init (count capacity : ℕ) (addrs : ℕ → B) : ObjectPool B :=
  let blocks := (List.range (numBlocksNeeded count capacity)).map addrs
  { blocks := blocks, freeList := cells count blocks }

/-- `grow` by the block that `new` answers. -/
def grow (p : ObjectPool B) (count : ℕ) (block : B) : ObjectPool B :=
  { blocks := p.blocks ++ [block], freeList := p.freeList ++ cellsOf count block }

/-- `acquire`, where `block` is what `new` answers if the pool has to grow. -/
def acquire (p : ObjectPool B) (count : ℕ) (block : B) : Option (Cell B × ObjectPool B) :=
  let p := if p.freeList = [] then p.grow count block else p
  p.freeList.getLast?.map fun ret => (ret, { p with freeList := p.freeList.dropLast })

/-- `release`; the pool does not check where the pointer comes from. -/
def release (p : ObjectPool B) (ptr : Cell B) : ObjectPool B :=
  { p with freeList := p.freeList ++ [ptr] }

end ObjectPool

/-- `MinHeap`, with `K` for the part of `T` that `Compare` looks at. -/
structure MinHeap (B K : Type) where
  pool : ObjectPool B
  heap : IntrusiveHeap (Cell B) K

namespace MinHeap

variable {B K : Type} [DecidableEq B] (comp : K → K → Bool) (count : ℕ)

/-- The constructor, over memory with the contents `node`. -/
def init (capacity : ℕ) (addrs : ℕ → B) (node : Cell B → HeapNode K) : MinHeap B K :=
  { pool := .init count capacity addrs, heap := ⟨node, []⟩ }

/-- `emplace` of a `T` with key `k`. -/
def emplace (m : MinHeap B K) (block : B) (k : K) : Option (Cell B × MinHeap B K) := do
  let (obj, pool) ← m.pool.acquire count block
  let heap := { m.heap with node := Function.update m.heap.node obj ⟨k, -1⟩ }
  let heap ← heap.push comp obj
  some (obj, { pool := pool, heap := heap })

/-- `pop`, with the cell that it releases. -/
def pop (m : MinHeap B K) : Option (Cell B × MinHeap B K) := do
  let (ret, heap) ← m.heap.pop comp
  some (ret, { pool := m.pool.release ret, heap := heap })

/-- `top` of the heap. -/
def top (m : MinHeap B K) : Option (Cell B) := m.heap.top

/-- `update` of a node whose key was changed. -/
def update (m : MinHeap B K) (node : Cell B) : Option (MinHeap B K) := do
  let heap ← m.heap.update comp node
  some { m with heap := heap }

/-- A write to the key of a node, by the user. -/
def setKey (m : MinHeap B K) (node : Cell B) (k : K) : MinHeap B K :=
  { m with heap := m.heap.setKey node k }

end MinHeap

/-! ## `IntrusiveHeap` without an order -/

namespace IntrusiveHeap

variable {P K : Type} [DecidableEq P] (comp : K → K → Bool) {h : IntrusiveHeap P K}

/-- The loop of `sift_up` ends with the same entries for every comparer, ordered or not. -/
theorem siftUpLoop_rearranged {fuel : ℕ} :
    ∀ {h : IntrusiveHeap P K} {i : ℕ}, i < fuel → i < h.data.length → Indexed h →
      ∃ h', siftUpLoop comp fuel h i = some h' ∧ Indexed h' ∧ Rearranged h h' := by
  induction fuel with
  | zero =>
    intro h i hf
    omega
  | succ fuel ih =>
    intro h i hf hi hv
    rw [siftUpLoop]
    split
    · rename_i hi0
      have hp := parent_lt hi0
      have hx : h.data[i]? = some h.data[i] := List.getElem?_eq_getElem hi
      have hy : h.data[parent i]? = some h.data[parent i] := List.getElem?_eq_getElem (by omega)
      simp only [hx, hy, Option.bind_eq_bind, Option.bind_some]
      split
      · obtain ⟨h₁, hs, hv₁, hr₁, -⟩ := swapNode_spec hv hi (hp.trans hi)
        have hlen := hr₁.perm.length_eq
        obtain ⟨h₂, hs₂, hv₂, hr₂⟩ := ih (h := h₁) (i := parent i) (by omega) (by omega) hv₁
        refine ⟨h₂, ?_, hv₂, hr₁.trans hr₂⟩
        rw [hs]
        exact hs₂
      · exact ⟨h, rfl, hv, .refl h⟩
    · exact ⟨h, rfl, hv, .refl h⟩

omit [DecidableEq P] in
/-- One comparison of `sift_down` stays in the array. -/
theorem pick_inBounds {c m : ℕ} (hm : m < h.data.length) :
    ∃ r, h.pick comp h.data.length c m = some r ∧ r < h.data.length ∧ (r = m ∨ r = c) := by
  rw [pick]
  split
  · rename_i hc
    have hx : h.data[c]? = some h.data[c] := List.getElem?_eq_getElem hc
    have hy : h.data[m]? = some h.data[m] := List.getElem?_eq_getElem hm
    simp only [hx, hy, Option.bind_eq_bind, Option.bind_some, Option.some.injEq, exists_eq_left']
    split
    · exact ⟨hc, .inr rfl⟩
    · exact ⟨hm, .inl rfl⟩
  · exact ⟨m, rfl, hm, .inl rfl⟩

/-- The loop of `sift_down` ends with the same entries for every comparer, ordered or not. -/
theorem siftDownLoop_rearranged {fuel : ℕ} :
    ∀ {h : IntrusiveHeap P K} {i : ℕ}, h.data.length - i < fuel → i < h.data.length → Indexed h →
      ∃ h', siftDownLoop comp h.data.length fuel h i = some h' ∧ Indexed h' ∧ Rearranged h h' := by
  induction fuel with
  | zero =>
    intro h i hf
    omega
  | succ fuel ih =>
    intro h i hf hi hv
    obtain ⟨m, hm, hml, hmi⟩ := pick_inBounds comp (c := left i) hi
    obtain ⟨s, hs, hsl, hsi⟩ := pick_inBounds comp (c := right i) hml
    simp only [siftDownLoop, hm, hs, Option.bind_eq_bind, Option.bind_some]
    split
    · exact ⟨h, rfl, hv, .refl h⟩
    · rename_i hne
      have hlt : i < s := by
        unfold left right at *
        omega
      obtain ⟨h₁, hs₁, hv₁, hr₁, -⟩ := swapNode_spec hv hi hsl
      have hlen := hr₁.perm.length_eq
      obtain ⟨h₂, hs₂, hv₂, hr₂⟩ := ih (h := h₁) (i := s) (by omega) (by omega) hv₁
      refine ⟨h₂, ?_, hv₂, hr₁.trans hr₂⟩
      rw [hs₁, ← hlen]
      exact hs₂

/-- `sift_up` ends with the same entries for every comparer. -/
theorem siftUp_rearranged {i : ℕ} (hi : i < h.data.length) (hv : Indexed h) :
    ∃ h', h.siftUp comp i = some h' ∧ Indexed h' ∧ Rearranged h h' :=
  siftUpLoop_rearranged comp (Nat.lt_succ_self i) hi hv

/-- `sift_down` ends with the same entries for every comparer. -/
theorem siftDown_rearranged {i : ℕ} (hi : i < h.data.length) (hv : Indexed h) :
    ∃ h', h.siftDown comp i = some h' ∧ Indexed h' ∧ Rearranged h h' :=
  siftDownLoop_rearranged comp (by omega) hi hv

/-- `remove_at` takes the node at the position out of the heap. -/
theorem removeAt_removed (hv : Indexed h) {i : ℕ} (hi : i < h.data.length) :
    ∃ h', h.removeAt comp i = some h' ∧ Indexed h' ∧ Removed h h.data[i] h' := by
  obtain ⟨h₁, hs, hv₁, hrem, -⟩ := detach_spec hv hi
  have hgone : h.data[i] ∉ h₁.data :=
    (List.nodup_cons.1 (hrem.perm.nodup_iff.2 hv.nodup)).1
  simp only [removeAt, hs, Option.bind_eq_bind, Option.bind_some]
  split
  · rename_i hlt
    obtain ⟨h₂, hd, hv₂, hr₂⟩ := siftDown_rearranged comp hlt hv₁
    have hlen := hr₂.perm.length_eq
    obtain ⟨h₃, hu, hv₃, hr₃⟩ := siftUp_rearranged comp (h := h₂) (i := i) (by omega) hv₂
    refine ⟨h₃, ?_, hv₃, hrem.rearranged hgone (hr₂.trans hr₃)⟩
    rw [hd]
    exact hu
  · exact ⟨h₁, rfl, hv₁, hrem⟩

/-- `pop` of a non-empty heap takes out the top, whatever the comparer. -/
theorem pop_removed (hv : Indexed h) (hne : h.data ≠ []) :
    ∃ x h', h.top = some x ∧ h.pop comp = some (x, h') ∧ Indexed h' ∧ Removed h x h' := by
  have hi : 0 < h.data.length := List.length_pos_of_ne_nil hne
  have hx : h.data[0]? = some h.data[0] := List.getElem?_eq_getElem hi
  obtain ⟨h', hs, hv', hrem⟩ := removeAt_removed comp hv hi
  refine ⟨h.data[0], h', hx, ?_, hv', hrem⟩
  simp only [pop, hx, hs, Option.bind_eq_bind, Option.bind_some]

/-- `push` adds the node and keeps all keys, whatever the comparer. -/
theorem push_added (hv : Indexed h) {x : P} (hx : (h.node x).heapIndex = -1) :
    ∃ h', h.push comp x = some h' ∧ Indexed h' ∧ h'.data.Perm (x :: h.data) ∧
      ∀ p, (h'.node p).key = (h.node p).key := by
  have hv₁ := hv.concat (hv.not_mem hx)
  obtain ⟨h', hs, hv', hr⟩ := siftUp_rearranged comp (i := h.data.length) (by simp) hv₁
  refine ⟨h', ?_, hv', hr.perm.trans (List.perm_append_singleton _ _), fun p => ?_⟩
  · rw [push, if_pos hx]
    exact hs
  · rw [hr.key, setIndex_key]

/-- `update` finds the node, whatever its key became. -/
theorem update_rearranged (hv : Indexed h) {x : P} (hx : x ∈ h.data) :
    ∃ h', h.update comp x = some h' ∧ Indexed h' ∧ Rearranged h h' := by
  obtain ⟨i, hi⟩ := List.mem_iff_getElem?.1 hx
  obtain ⟨hil, -⟩ := List.getElem?_eq_some_iff.1 hi
  have hpl : parent i < h.data.length := by
    unfold parent
    omega
  have hy : h.data[parent i]? = some h.data[parent i] := List.getElem?_eq_getElem hpl
  have hidx : ¬(i : ℤ) = -1 := by omega
  simp only [update, hv i x hi, if_neg hidx, Int.toNat_natCast, hy, Option.bind_eq_bind,
    Option.bind_some]
  split
  · exact siftUp_rearranged comp hil hv
  · exact siftDown_rearranged comp hil hv

end IntrusiveHeap

/-! ## The cells of the pool -/

namespace ObjectPool

variable {B : Type} {count : ℕ} {blocks : List B}

/-- The cells of a block are those below the count. -/
theorem mem_cellsOf {b : B} {c : Cell B} : c ∈ cellsOf count b ↔ c.block = b ∧ c.index < count := by
  rw [cellsOf, List.mem_map]
  constructor
  · rintro ⟨i, hi, rfl⟩
    exact ⟨rfl, List.mem_range.1 hi⟩
  · rintro ⟨rfl, hi⟩
    exact ⟨c.index, List.mem_range.2 hi, rfl⟩

/-- A cell of the pool is a place below the count in one of its blocks. -/
theorem mem_cells {c : Cell B} : c ∈ cells count blocks ↔ c.block ∈ blocks ∧ c.index < count := by
  rw [cells, List.mem_flatMap]
  constructor
  · rintro ⟨b, hb, hc⟩
    obtain ⟨rfl, hi⟩ := mem_cellsOf.1 hc
    exact ⟨hb, hi⟩
  · rintro ⟨hb, hi⟩
    exact ⟨c.block, hb, mem_cellsOf.2 ⟨rfl, hi⟩⟩

/-- Distinct blocks have distinct cells. -/
theorem nodup_cells (hb : blocks.Nodup) : (cells count blocks).Nodup := by
  refine List.nodup_flatMap.2 ⟨fun b _ => ?_, hb.imp fun hne c hc hc' => hne ?_⟩
  · exact List.nodup_range.map fun i j hij => (Cell.mk.inj hij).2
  · exact (mem_cellsOf.1 hc).1.symm.trans (mem_cellsOf.1 hc').1

/-- A new block adds its own cells. -/
theorem cells_concat (b : B) :
    cells count (blocks ++ [b]) = cells count blocks ++ cellsOf count b := by
  simp [cells]

/-- Taking the last cell of a free list. -/
theorem getLast?_perm {l : List (Cell B)} (hne : l ≠ []) :
    ∃ x, l.getLast? = some x ∧ (x :: l.dropLast).Perm l := by
  refine ⟨l.getLast hne, List.getLast?_eq_some_getLast hne, ?_⟩
  conv_rhs => rw [← List.dropLast_append_getLast hne]
  exact (List.perm_append_singleton _ _).symm

/-- `acquire` answers a free cell, of a new block if there is no other. -/
theorem acquire_spec (hcount : 0 < count) (p : ObjectPool B) (block : B) :
    ∃ x p', p.acquire count block = some (x, p') ∧
      (p.freeList ≠ [] ∧ p'.blocks = p.blocks ∧ (x :: p'.freeList).Perm p.freeList ∨
        p.freeList = [] ∧ p'.blocks = p.blocks ++ [block] ∧
          (x :: p'.freeList).Perm (p.freeList ++ cellsOf count block)) := by
  rw [acquire]
  split
  · rename_i hnil
    have hne : p.freeList ++ cellsOf count block ≠ [] := by
      have hmem : Cell.mk block 0 ∈ cellsOf count block := mem_cellsOf.2 ⟨rfl, hcount⟩
      exact List.ne_nil_of_mem (List.mem_append_right _ hmem)
    obtain ⟨x, hx, hperm⟩ := getLast?_perm hne
    refine ⟨x, { p.grow count block with freeList := _ }, ?_, .inr ⟨hnil, rfl, hperm⟩⟩
    simp only [grow, hx, Option.map_some]
  · rename_i hne
    obtain ⟨x, hx, hperm⟩ := getLast?_perm hne
    refine ⟨x, { p with freeList := p.freeList.dropLast }, ?_, .inl ⟨hne, rfl, hperm⟩⟩
    simp only [hx, Option.map_some]

/-- With the cells split between the users and the pool, `acquire` moves one to the users. -/
theorem acquire_perm (hcount : 0 < count) {p : ObjectPool B} {out : List (Cell B)}
    (hcells : (out ++ p.freeList).Perm (cells count p.blocks)) (block : B) :
    ∃ x p', p.acquire count block = some (x, p') ∧
      (out ++ x :: p'.freeList).Perm (cells count p'.blocks) ∧
      (p.freeList ≠ [] ∧ p'.blocks = p.blocks ∨
        p.freeList = [] ∧ p'.blocks = p.blocks ++ [block]) := by
  obtain ⟨x, p', hs, ⟨hne, hb, hperm⟩ | ⟨hnil, hb, hperm⟩⟩ := acquire_spec hcount p block
  · refine ⟨x, p', hs, ?_, .inl ⟨hne, hb⟩⟩
    rw [hb]
    exact (hperm.append_left _).trans hcells
  · refine ⟨x, p', hs, ?_, .inr ⟨hnil, hb⟩⟩
    rw [hb, cells_concat]
    refine (hperm.append_left _).trans ?_
    rw [← List.append_assoc]
    exact hcells.append_right _

end ObjectPool

/-! ## The cells of the heap and of the pool -/

namespace MinHeap

open IntrusiveHeap (Indexed)

variable {B K : Type} [DecidableEq B] {comp : K → K → Bool} {count : ℕ}
  {node : Cell B → HeapNode K} {m m' : MinHeap B K}

/-- The cells of the blocks are split between the heap and the pool. -/
structure Valid (count : ℕ) (m : MinHeap B K) : Prop where
  index : Indexed m.heap
  blocks : m.pool.blocks.Nodup
  cells : (m.heap.data ++ m.pool.freeList).Perm (ObjectPool.cells count m.pool.blocks)

omit [DecidableEq B] in
/-- No cell is in the heap and free at once, and none is there twice. -/
theorem Valid.nodup (hv : Valid count m) : (m.heap.data ++ m.pool.freeList).Nodup :=
  hv.cells.nodup_iff.2 (ObjectPool.nodup_cells hv.blocks)

variable (comp) in
/-- The cell of `emplace` was free or is new; the other cells keep their keys. -/
theorem emplace_spec (hcount : 0 < count) (hv : Valid count m) {block : B}
    (hblock : block ∉ m.pool.blocks) (k : K) :
    ∃ x m', m.emplace comp count block k = some (x, m') ∧ Valid count m' ∧ x ∉ m.heap.data ∧
      m'.heap.data.Perm (x :: m.heap.data) ∧
      ∀ y, (m'.heap.node y).key = Function.update (fun y => (m.heap.node y).key) x k y := by
  obtain ⟨x, pool, hacq, hcells, hcase⟩ := ObjectPool.acquire_perm hcount hv.cells block
  have hblocks : pool.blocks.Nodup := by
    rcases hcase with ⟨-, hb⟩ | ⟨-, hb⟩
    · rw [hb]
      exact hv.blocks
    · rw [hb]
      refine List.nodup_append.2 ⟨hv.blocks, List.nodup_singleton _, ?_⟩
      rintro b hb b' hb' rfl
      exact hblock (List.mem_singleton.1 hb' ▸ hb)
  have hfresh : x ∉ m.heap.data := by
    have hnodup := hcells.nodup_iff.2 (ObjectPool.nodup_cells hblocks)
    exact fun hx => (List.nodup_append.1 hnodup).2.2 x hx x List.mem_cons_self rfl
  set heap : IntrusiveHeap (Cell B) K :=
    { m.heap with node := Function.update m.heap.node x ⟨k, -1⟩ } with hheap
  have hindex : Indexed heap := by
    intro i p hp
    have hne : p ≠ x := by
      rintro rfl
      exact hfresh (List.mem_of_getElem? hp)
    change (Function.update m.heap.node x _ p).heapIndex = i
    rw [Function.update_of_ne hne]
    exact hv.index i p hp
  have hx : (heap.node x).heapIndex = -1 := by
    simp [hheap]
  obtain ⟨heap', hs, hv', hperm, hkey⟩ := IntrusiveHeap.push_added comp hindex hx
  refine ⟨x, ⟨pool, heap'⟩, ?_, ⟨hv', hblocks, ?_⟩, hfresh, hperm, fun y => ?_⟩
  · simp only [emplace, hacq, Option.bind_eq_bind, Option.bind_some]
    rw [← hheap, hs]
    rfl
  · refine .trans ?_ hcells
    exact (hperm.append_right _).trans List.perm_middle.symm
  · rw [hkey]
    by_cases hy : y = x
    · rw [hy, hheap]
      simp
    · rw [hheap]
      simp [hy]

variable (comp) in
/-- `pop` hands the cell of the root back to the pool. -/
theorem pop_spec (hv : Valid count m) (hne : m.heap.data ≠ []) :
    ∃ x m', m.top = some x ∧ m.pop comp = some (x, m') ∧ Valid count m' ∧
      (x :: m'.heap.data).Perm m.heap.data ∧
      ∀ y, (m'.heap.node y).key = (m.heap.node y).key := by
  obtain ⟨x, heap', htop, hs, hv', hrem⟩ := IntrusiveHeap.pop_removed comp hv.index hne
  refine ⟨x, ⟨m.pool.release x, heap'⟩, htop, ?_, ⟨hv', hv.blocks, ?_⟩, hrem.perm, hrem.key⟩
  · simp only [pop, hs, Option.bind_eq_bind, Option.bind_some]
  · refine .trans ?_ hv.cells
    change (heap'.data ++ (m.pool.freeList ++ [x])).Perm (m.heap.data ++ m.pool.freeList)
    rw [← List.append_assoc]
    exact (List.perm_append_singleton _ _).trans (hrem.perm.append_right _)

variable (comp) in
/-- `update` after a change of key keeps the partition of the cells and changes no other key. -/
theorem update_spec (hv : Valid count m) {x : Cell B} (hx : x ∈ m.heap.data) (k : K) :
    ∃ m', (m.setKey x k).update comp x = some m' ∧ Valid count m' ∧
      m'.heap.data.Perm m.heap.data ∧
      ∀ y, (m'.heap.node y).key = Function.update (fun y => (m.heap.node y).key) x k y := by
  obtain ⟨heap', hs, hv', hr⟩ := IntrusiveHeap.update_rearranged comp
    (h := m.heap.setKey x k) (hv.index.setKey x k) hx
  refine ⟨⟨m.pool, heap'⟩, ?_, ⟨hv', hv.blocks, ?_⟩, hr.perm, fun y => ?_⟩
  · simp only [update, setKey, hs, Option.bind_eq_bind, Option.bind_some]
  · exact (hr.perm.append_right _).trans hv.cells
  · rw [hr.key, IntrusiveHeap.setKey_key]

omit [DecidableEq B] in
/-- In a new heap all cells are free. -/
theorem Valid.init {capacity : ℕ} {addrs : ℕ → B}
    (hnew : (ObjectPool.init count capacity addrs).blocks.Nodup) :
    Valid count (init count capacity addrs node) where
  index := nofun
  blocks := hnew
  cells := .refl _

end MinHeap

end RockCoro
