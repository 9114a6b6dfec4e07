import RockCoro.BasicStruct.ObjectPool

/-!
# Runs of `ObjectPool`

The pool of `basic_struct/object_pool.h` under calls of `acquire` and `release` by its users. A
block is named by its address here, and `new` answers storage that overlaps no other block, so the
products of `capacity()` are those of `size_t`. The cells that are out and those of `free_list_` are
the cells of the blocks (`Accounted`), so the pool grows only while all cells are out. The capacity
that the constructor was asked for is there unless its division that rounds up wraps around
(`run_keeps_iff`).
-/

namespace RockCoro.ObjectPool

/-- `capacity`, in the arithmetic of `size_t`. -/
def capacity {B : Type} (p : ObjectPool B) (count : ℕ) : ℕ := p.blocks.length * count % 2 ^ 64

/-! ## Blocks in memory -/

/-- Blocks of `size` bytes at the given addresses, as `new` answers them: no one at the null
pointer, and no two with a byte in common. -/
structure Apart (size : ℕ) (blocks : List ℕ) : Prop where
  inMemory : ∀ b ∈ blocks, 0 < b ∧ b + size ≤ 2 ^ 64
  disjoint : blocks.Pairwise fun b b' => b + size ≤ b' ∨ b' + size ≤ b

variable {count size c : ℕ} {blocks : List ℕ} {p p' : ObjectPool ℕ}

instance : Decidable (Apart size blocks) :=
  decidable_of_iff ((∀ b ∈ blocks, 0 < b ∧ b + size ≤ 2 ^ 64) ∧
      blocks.Pairwise fun b b' => b + size ≤ b' ∨ b' + size ≤ b)
    ⟨fun h => ⟨h.1, h.2⟩, fun h => ⟨h.1, h.2⟩⟩

/-- Each block has `count` cells. -/
theorem length_cells {B : Type} {blocks : List B} :
    (cells count blocks).length = blocks.length * count := by
  induction blocks with
  | nil => exact (Nat.zero_mul count).symm
  | cons b blocks ih =>
    rw [cells] at ih
    rw [cells, List.flatMap_cons, List.length_append, ih, cellsOf, List.length_map,
      List.length_range, List.length_cons, Nat.succ_mul, Nat.add_comm]

/-- Blocks with no byte in common are distinct, if they are not empty. -/
theorem Apart.nodup (hsize : 0 < size) (h : Apart size blocks) : blocks.Nodup := by
  refine h.disjoint.imp fun hdis heq => ?_
  omega

/-- No two bytes of the blocks have one address. -/
theorem Apart.nodup_bytes (hsize : 0 < size) (h : Apart size blocks) :
    ((cells size blocks).map fun x => x.block + x.index).Nodup := by
  have hsym : Std.Symm fun b b' : ℕ => b + size ≤ b' ∨ b' + size ≤ b := ⟨fun _ _ => Or.symm⟩
  refine (nodup_cells (h.nodup hsize)).map_on fun x hx y hy heq => ?_
  obtain ⟨hxb, hxi⟩ := mem_cells.1 hx
  obtain ⟨hyb, hyi⟩ := mem_cells.1 hy
  obtain ⟨b, i⟩ := x
  obtain ⟨b', j⟩ := y
  by_cases hb : b = b'
  · obtain rfl := hb
    have hij : i = j := Nat.add_left_cancel heq
    rw [hij]
  · have hdis := h.disjoint.forall hxb hyb hb
    omega

/-- The blocks fit in memory, so the product of `capacity` does not wrap around. -/
theorem Apart.length_mul_lt (hsize : 0 < size) (h : Apart size blocks) :
    blocks.length * size < 2 ^ 64 := by
  have hsub : ((cells size blocks).map fun x => x.block + x.index) ⊆
      (List.range (2 ^ 64 - 1)).map (· + 1) := by
    intro a ha
    obtain ⟨x, hx, rfl⟩ := List.mem_map.1 ha
    obtain ⟨hb, hi⟩ := mem_cells.1 hx
    obtain ⟨hpos, hend⟩ := h.inMemory _ hb
    exact List.mem_map.2 ⟨x.block + x.index - 1, List.mem_range.2 (by omega), by omega⟩
  have hle := (h.nodup_bytes hsize).length_le_of_subset hsub
  rw [List.length_map, List.length_map, List.length_range, length_cells] at hle
  omega

/-- `capacity` is the number of cells. -/
theorem Apart.capacity_eq {sizeT : ℕ} (hcount : 0 < count) (hsizeT : 0 < sizeT)
    (h : Apart (count * sizeT) p.blocks) : p.capacity count = (cells count p.blocks).length := by
  have hlt := h.length_mul_lt (Nat.mul_pos hcount hsizeT)
  have hle : p.blocks.length * count ≤ p.blocks.length * (count * sizeT) :=
    Nat.mul_le_mul_left _ (Nat.le_mul_of_pos_right _ hsizeT)
  rw [capacity, length_cells, Nat.mod_eq_of_lt (hle.trans_lt hlt)]

/-! ## Runs -/

/-- A call on the pool: `acquire` with its answer, or `release`. -/
inductive Event
  | acquire (x : Cell ℕ)
  | release (x : Cell ℕ)
  deriving DecidableEq

/-- The cells that were acquired and not released since. -/
def acquired (tr : List Event) : List (Cell ℕ) :=
  tr.foldl (fun out e => match e with
    | .acquire x => x :: out
    | .release x => out.erase x) []

@[simp] theorem acquired_acquire (tr : List Event) (x : Cell ℕ) :
    acquired (tr ++ [.acquire x]) = x :: acquired tr := by simp [acquired]

@[simp] theorem acquired_release (tr : List Event) (x : Cell ℕ) :
    acquired (tr ++ [.release x]) = (acquired tr).erase x := by simp [acquired]

/-- Sequences of `acquire` and of `release` of a cell that is out. A pool that grows gets a block
of `size` bytes from `new`. -/
inductive Run (count size : ℕ) (p₀ : ObjectPool ℕ) : List Event → ObjectPool ℕ → Prop
  | nil : Run count size p₀ [] p₀
  | acquire {tr p p' x} (block : ℕ) : Run count size p₀ tr p →
      (p.freeList = [] → Apart size (p.blocks ++ [block])) →
      p.acquire count block = some (x, p') → Run count size p₀ (tr ++ [.acquire x]) p'
  | release {tr p x} : Run count size p₀ tr p → x ∈ acquired tr →
      Run count size p₀ (tr ++ [.release x]) (p.release x)

/-- The cells of the blocks are split between the users and the pool. -/
structure Accounted (count size : ℕ) (out : List (Cell ℕ)) (p : ObjectPool ℕ) : Prop where
  apart : Apart size p.blocks
  cells : (out ++ p.freeList).Perm (cells count p.blocks)

/-- No cell is handed out twice, or handed out and free at once. -/
theorem Accounted.nodup {out : List (Cell ℕ)} (hsize : 0 < size)
    (h : Accounted count size out p) : (out ++ p.freeList).Nodup :=
  h.cells.nodup_iff.2 (nodup_cells (h.apart.nodup hsize))

/-- A new pool has handed out nothing. -/
theorem Accounted.init {capacity : ℕ} {addrs : ℕ → ℕ}
    (hnew : Apart size (init count capacity addrs).blocks) :
    Accounted count size [] (init count capacity addrs) where
  apart := hnew
  cells := .refl _

/-- The pool has a free cell unless all cells are out. -/
theorem Accounted.freeList_eq_nil_iff {out : List (Cell ℕ)} (h : Accounted count size out p) :
    p.freeList = [] ↔ out.length = (ObjectPool.cells count p.blocks).length := by
  have hlen := h.cells.length_eq
  rw [List.length_append] at hlen
  rw [← List.length_eq_zero_iff]
  omega

/-- `acquire` answers a cell that is not out, and gets a block exactly when all cells are out. -/
theorem Accounted.acquire {out : List (Cell ℕ)} (hcount : 0 < count) (hsize : 0 < size)
    (h : Accounted count size out p) {block : ℕ}
    (hnew : p.freeList = [] → Apart size (p.blocks ++ [block])) :
    ∃ x p', p.acquire count block = some (x, p') ∧ x ∉ out ∧
      Accounted count size (x :: out) p' ∧
      (p.freeList ≠ [] ∧ p'.blocks = p.blocks ∨
        p.freeList = [] ∧ p'.blocks = p.blocks ++ [block]) := by
  obtain ⟨x, p', hs, hcells, hcase⟩ := acquire_perm hcount h.cells block
  have hacc : Accounted count size (x :: out) p' := by
    refine ⟨?_, List.perm_middle.symm.trans hcells⟩
    rcases hcase with ⟨-, hb⟩ | ⟨hnil, hb⟩
    · rw [hb]
      exact h.apart
    · rw [hb]
      exact hnew hnil
  have hfresh : x ∉ out := by
    have hnodup := (List.nodup_append.1 (hacc.nodup hsize)).1
    exact (List.nodup_cons.1 hnodup).1
  exact ⟨x, p', hs, hfresh, hacc, hcase⟩

/-- A cell that was handed out can be given back. -/
theorem Accounted.release {out : List (Cell ℕ)} (h : Accounted count size out p) {x : Cell ℕ}
    (hx : x ∈ out) : Accounted count size (out.erase x) (p.release x) where
  apart := h.apart
  cells := by
    refine .trans ?_ h.cells
    change (out.erase x ++ (p.freeList ++ [x])).Perm (out ++ p.freeList)
    rw [← List.append_assoc]
    refine (List.perm_append_singleton _ _).trans ?_
    exact (List.perm_cons_erase hx).symm.append_right _

/-- The account holds at the end of every run from the constructor. -/
theorem Run.accounted {capacity : ℕ} {addrs : ℕ → ℕ} {tr : List Event} (hcount : 0 < count)
    (hsize : 0 < size) (hnew : Apart size (init count capacity addrs).blocks)
    (hrun : Run count size (init count capacity addrs) tr p) :
    Accounted count size (acquired tr) p := by
  induction hrun with
  | nil => exact .init hnew
  | acquire block _ hblock hs ih =>
    obtain ⟨x, p', hs', -, hacc, -⟩ := ih.acquire hcount hsize hblock
    obtain ⟨rfl, rfl⟩ := Prod.mk.inj (Option.some.inj (hs.symm.trans hs'))
    rw [acquired_acquire]
    exact hacc
  | release _ hx ih =>
    rw [acquired_release]
    exact ih.release hx

/-- No block is ever given back. -/
theorem Run.length_blocks_le {p₀ : ObjectPool ℕ} {tr : List Event}
    (hrun : Run count size p₀ tr p) : p₀.blocks.length ≤ p.blocks.length := by
  induction hrun with
  | nil => exact le_rfl
  | release _ _ ih => exact ih
  | acquire block _ _ hs ih =>
    refine ih.trans ?_
    rw [ObjectPool.acquire, Option.map_eq_some_iff] at hs
    obtain ⟨_, -, heq⟩ := hs
    rw [← (Prod.mk.inj heq).2]
    split
    · rw [grow, List.length_append]
      exact Nat.le_add_right ..
    · exact le_rfl

/-! ## The capacity that was asked for -/

/-- The blocks of the constructor have room for `capacity` cells. -/
theorem le_numBlocksNeeded_mul {capacity : ℕ} (hcount : 0 < count)
    (hcap : capacity + count - 1 < 2 ^ 64) : capacity ≤ numBlocksNeeded count capacity * count := by
  have hdiv := Nat.div_add_mod (capacity + count - 1) count
  have hmod := Nat.mod_lt (capacity + count - 1) hcount
  rw [numBlocksNeeded, Nat.mod_eq_of_lt hcap, Nat.mul_comm]
  omega

/-- If the sum wraps around, the constructor makes no block. -/
theorem numBlocksNeeded_eq_zero {capacity : ℕ} (hcapacity : capacity < 2 ^ 64)
    (hcount : count < 2 ^ 64) (hcap : 2 ^ 64 ≤ capacity + count - 1) :
    numBlocksNeeded count capacity = 0 := by
  have hmod : (capacity + count - 1) % 2 ^ 64 = capacity + count - 1 - 2 ^ 64 := by
    rw [Nat.mod_eq_sub_mod hcap, Nat.mod_eq_of_lt (by omega)]
  rw [numBlocksNeeded, hmod]
  exact Nat.div_eq_of_lt (by omega)

/-- What the users of a pool that was made for `c` cells rely on while they hold those of `out`. -/
structure Keeps (count size c : ℕ) (out : List (Cell ℕ)) (p : ObjectPool ℕ) : Prop where
  nodup : (out ++ p.freeList).Nodup
  cells : ∀ x, x ∈ out ++ p.freeList ↔ x.block ∈ p.blocks ∧ x.index < count
  acquire : ∀ block, (p.freeList = [] → Apart size (p.blocks ++ [block])) →
    ∃ x p', p.acquire count block = some (x, p') ∧ x ∉ out ∧
      p'.capacity count =
        if out.length = p.capacity count then p.capacity count + count else p.capacity count
  release : ∀ x ∈ out, (p.release x).capacity count = p.capacity count
  multiple : count ∣ p.capacity count
  enough : c ≤ p.capacity count

/-- A pool that is accounted for meets all that its users rely on but for the capacity. -/
theorem Accounted.keeps {sizeT : ℕ} {out : List (Cell ℕ)} (hcount : 0 < count)
    (hsizeT : 0 < sizeT) (h : Accounted count (count * sizeT) out p)
    (henough : c ≤ p.blocks.length * count) : Keeps count (count * sizeT) c out p where
  nodup := h.nodup (Nat.mul_pos hcount hsizeT)
  cells x := by rw [h.cells.mem_iff, mem_cells]
  acquire block hnew := by
    obtain ⟨x, p', hs, hfresh, hacc, hcase⟩ :=
      h.acquire hcount (Nat.mul_pos hcount hsizeT) hnew
    refine ⟨x, p', hs, hfresh, ?_⟩
    have hcap := h.apart.capacity_eq hcount hsizeT
    have hcap' := hacc.apart.capacity_eq hcount hsizeT
    rw [length_cells] at hcap hcap'
    rcases hcase with ⟨hne, hb⟩ | ⟨hnil, hb⟩
    · rw [if_neg, hcap', hcap, hb]
      rw [hcap, ← length_cells, ← h.freeList_eq_nil_iff]
      exact hne
    · rw [if_pos, hcap', hcap, hb, List.length_append, List.length_singleton, Nat.succ_mul]
      rw [hcap, ← length_cells, ← h.freeList_eq_nil_iff]
      exact hnil
  release _ _ := rfl
  multiple := by
    rw [h.apart.capacity_eq hcount hsizeT, length_cells]
    exact Nat.dvd_mul_left ..
  enough := by rwa [h.apart.capacity_eq hcount hsizeT, length_cells]

/-- Every run of every pool that was made for `capacity` cells, with blocks that `new` answered,
keeps what its users rely on. -/
def AlwaysKeeps (blockSize sizeT capacity : ℕ) : Prop :=
  let count := countPerBlock blockSize sizeT
  ∀ (addrs : ℕ → ℕ) (tr : List Event) (p : ObjectPool ℕ),
    Apart (count * sizeT) (init count capacity addrs).blocks →
    Run count (count * sizeT) (init count capacity addrs) tr p →
    Keeps count (count * sizeT) capacity (acquired tr) p

/-- In every run of a pool made for `capacity` cells, the cells of the users and of `free_list_` are
those of the blocks, each once; `acquire` answers one that is not out; and the capacity never falls
below the one asked for and grows, by one block, in just the calls of `acquire` while all cells are
out. This holds if and only if the sum with which the constructor rounds up does not wrap around. -/
theorem run_keeps_iff {blockSize sizeT capacity : ℕ} (hcount : 0 < countPerBlock blockSize sizeT)
    (hblockSize : blockSize < 2 ^ 64) (hcapacity : capacity < 2 ^ 64) :
    AlwaysKeeps blockSize sizeT capacity ↔
      capacity + countPerBlock blockSize sizeT - 1 < 2 ^ 64 := by
  have hsizeT : 0 < sizeT := by
    refine Nat.pos_of_ne_zero ?_
    rintro rfl
    rw [countPerBlock, Nat.div_zero] at hcount
    exact hcount.false
  have hle : countPerBlock blockSize sizeT ≤ blockSize := Nat.div_le_self ..
  constructor
  · intro hkeeps
    by_contra hcap
    rw [Nat.not_lt] at hcap
    have hnone := numBlocksNeeded_eq_zero hcapacity (hle.trans_lt hblockSize) hcap
    have hblocks : (init (countPerBlock blockSize sizeT) capacity id).blocks = [] := by
      rw [init, hnone]
      rfl
    have hapart : Apart (countPerBlock blockSize sizeT * sizeT)
        (init (countPerBlock blockSize sizeT) capacity id).blocks := by
      rw [hblocks]
      exact ⟨by simp, .nil⟩
    have henough := (hkeeps id [] _ hapart .nil).enough
    rw [ObjectPool.capacity, hblocks, List.length_nil, Nat.zero_mul, Nat.zero_mod] at henough
    omega
  · intro hcap addrs tr p hnew hrun
    have hsize := Nat.mul_pos hcount hsizeT
    refine (hrun.accounted hcount hsize hnew).keeps hcount hsizeT ?_
    refine (le_numBlocksNeeded_mul hcount hcap).trans (Nat.mul_le_mul_right _ ?_)
    refine le_trans ?_ hrun.length_blocks_le
    rw [init, List.length_map, List.length_range]

/-- A pool made for two cells, in one block, that grows when a third is acquired. -/
theorem run_keeps_iff_two :
    ∃ p : ObjectPool ℕ, p.freeList = [⟨100, 0⟩, ⟨8, 1⟩] ∧ p.capacity 2 = 4 ∧
      Keeps 2 16 2 [⟨100, 1⟩, ⟨8, 0⟩] p := by
  have hrun : ∃ p : ObjectPool ℕ, p.freeList = [⟨100, 0⟩, ⟨8, 1⟩] ∧ p.capacity 2 = 4 ∧
      Run 2 16 (init 2 2 fun _ => 8)
        [.acquire ⟨8, 1⟩, .acquire ⟨8, 0⟩, .acquire ⟨100, 1⟩, .release ⟨8, 1⟩] p := by
    exact ⟨_, rfl, rfl, .release (.acquire 100 (.acquire 60 (.acquire 40 .nil (by decide) rfl)
      (by decide) rfl) (by decide) rfl) (by decide)⟩
  obtain ⟨p, hfree, hcap, hrun⟩ := hrun
  have hkeeps : AlwaysKeeps 16 8 2 :=
    (run_keeps_iff (by decide) (by decide) (by decide)).2 (by decide)
  exact ⟨p, hfree, hcap, hkeeps (fun _ => 8) _ p (by decide) hrun⟩

/-- A pool asked for `2 ^ 64 - 1` cells, two to a block, has none. -/
theorem not_alwaysKeeps_max : ¬AlwaysKeeps 16 8 (2 ^ 64 - 1) := by
  intro hkeeps
  have henough := (hkeeps id [] _ (by decide) .nil).enough
  have hnone : (init (countPerBlock 16 8) (2 ^ 64 - 1) id).capacity (countPerBlock 16 8) = 0 := rfl
  rw [hnone] at henough
  exact absurd henough (by decide)

end RockCoro.ObjectPool
