import RockCoro.BasicStruct.HeapIndices
import Mathlib.Data.Fintype.EquivFin

/-!
# Runs of `MinHeap`

`MinHeap` as its users call it, with the `int` indices of its `IntrusiveHeap`: a call that overflows
or breaks an assert has no result. The cells of all blocks stay split between the heap and the pool,
and no call fails as long as the heap is small enough for its indices (`run_partitioned`). A heap of
`2 ^ 30` nodes is too large: `update` of its last node overflows (`run_overflows`).
-/

namespace RockCoro.MinHeap

open IntrusiveHeap (Event held keyOf Indexed Valid.setKey)
open ObjectPool (countPerBlock)

section
variable {B K : Type} [DecidableEq B] (comp : K → K → Bool) (count : ℕ)

/-- `emplace` of a `T` with key `k`. -/
def emplaceInt (m : MinHeap B K) (block : B) (k : K) : Option (Cell B × MinHeap B K) := do
  let (obj, pool) ← m.pool.acquire count block
  let heap := { m.heap with node := Function.update m.heap.node obj ⟨k, -1⟩ }
  let heap ← heap.pushInt comp obj
  some (obj, { pool := pool, heap := heap })

/-- `pop`, with the cell that it releases. -/
def popInt (m : MinHeap B K) : Option (Cell B × MinHeap B K) := do
  let (ret, heap) ← m.heap.popInt comp
  some (ret, { pool := m.pool.release ret, heap := heap })

/-- `update`. -/
def updateInt (m : MinHeap B K) (node : Cell B) : Option (MinHeap B K) := do
  let heap ← m.heap.updateInt comp node
  some { m with heap := heap }

end

variable {B K : Type} [DecidableEq B] {comp : K → K → Bool} {count : ℕ}
  {node : Cell B → HeapNode K} {m m' : MinHeap B K} {tr : List (Event (Cell B) K)}

/-! ## Where the indices are in range -/

/-- `emplace` is in range on every heap whose size is an `int`. -/
theorem emplaceInt_eq (hn : m.heap.data.length < 2 ^ 31) (block : B) (k : K) :
    m.emplaceInt comp count block k = m.emplace comp count block k := by
  rw [emplaceInt, emplace]
  refine Option.bind_congr fun p _ => ?_
  obtain ⟨obj, pool⟩ := p
  let heap : IntrusiveHeap (Cell B) K := ⟨Function.update m.heap.node obj ⟨k, -1⟩, m.heap.data⟩
  have hpush : heap.pushInt comp obj = heap.push comp obj :=
    IntrusiveHeap.pushInt_eq (h := heap) hn obj
  change (heap.pushInt comp obj).bind _ = (heap.push comp obj).bind _
  rw [hpush]

/-- `pop` is in range on every heap that `sift_down` can go through. -/
theorem popInt_eq (hv : Indexed m.heap) (hn : m.heap.data.length < 2 ^ 30)
    (hne : m.heap.data ≠ []) : m.popInt comp = m.pop comp := by
  rw [popInt, pop, IntrusiveHeap.popInt_eq hv hn hne]

/-- So is `update` of a node of the heap. -/
theorem updateInt_eq (hv : Indexed m.heap) (hn : m.heap.data.length < 2 ^ 30) {x : Cell B}
    (hx : x ∈ m.heap.data) : m.updateInt comp x = m.update comp x := by
  rw [updateInt, update, IntrusiveHeap.updateInt_eq hv hn hx]

/-! ## Runs -/

/-- Sequences of calls of `emplace`, `pop` of a heap that is not empty, and `update` of a node of
the heap whose key alone was written. `new` answers memory that is not in use. The heap has a size
for which the indices of the call are in range. -/
inductive Run (comp : K → K → Bool) (count : ℕ) (m₀ : MinHeap B K) :
    List (Event (Cell B) K) → MinHeap B K → Prop
  | nil : Run comp count m₀ [] m₀
  | emplace {tr m m' x} (block : B) (k : K) : Run comp count m₀ tr m → block ∉ m.pool.blocks →
      m.heap.data.length < 2 ^ 31 → m.emplaceInt comp count block k = some (x, m') →
      Run comp count m₀ (tr ++ [.push x k]) m'
  | pop {tr m m' x} : Run comp count m₀ tr m → m.heap.data ≠ [] → m.heap.data.length < 2 ^ 30 →
      m.popInt comp = some (x, m') → Run comp count m₀ (tr ++ [.pop x]) m'
  | update {tr m m' x k} : Run comp count m₀ tr m → x ∈ m.heap.data →
      m.heap.data.length < 2 ^ 30 → (m.setKey x k).updateInt comp x = some m' →
      Run comp count m₀ (tr ++ [.update x k]) m'

/-- What the heap and the pool are after the calls of `tr`. -/
structure Refines (count : ℕ) (node : Cell B → HeapNode K) (tr : List (Event (Cell B) K))
    (m : MinHeap B K) : Prop where
  valid : Valid count m
  contents : m.heap.data.Perm (held tr)
  keys : ∀ x, (m.heap.node x).key = keyOf node tr x

/-- `emplace` adds the cell that it answers. -/
theorem Refines.emplace (hcount : 0 < count) (hr : Refines count node tr m) {block : B}
    (hblock : block ∉ m.pool.blocks) (hn : m.heap.data.length < 2 ^ 31) (k : K) :
    ∃ x m', m.emplaceInt comp count block k = some (x, m') ∧ x ∉ m.heap.data ∧
      m'.heap.data.Perm (x :: m.heap.data) ∧
      (∀ y, (m'.heap.node y).key = Function.update (fun y => (m.heap.node y).key) x k y) ∧
      Refines count node (tr ++ [.push x k]) m' := by
  obtain ⟨x, m', hs, hv', hfresh, hperm, hkey⟩ := emplace_spec comp hcount hr.valid hblock k
  refine ⟨x, m', (emplaceInt_eq hn block k).trans hs, hfresh, hperm, hkey, hv', ?_, fun y => ?_⟩
  · rw [IntrusiveHeap.held_push]
    exact hperm.trans (hr.contents.cons _)
  · rw [hkey, IntrusiveHeap.keyOf_push, funext hr.keys]

/-- `pop` takes the root out. -/
theorem Refines.pop (hr : Refines count node tr m) (hne : m.heap.data ≠ [])
    (hn : m.heap.data.length < 2 ^ 30) :
    ∃ x m', m.top = some x ∧ m.popInt comp = some (x, m') ∧
      (x :: m'.heap.data).Perm m.heap.data ∧
      (∀ y, (m'.heap.node y).key = (m.heap.node y).key) ∧
      Refines count node (tr ++ [.pop x]) m' := by
  obtain ⟨x, m', htop, hs, hv', hperm, hkey⟩ := pop_spec comp hr.valid hne
  refine ⟨x, m', htop, (popInt_eq hr.valid.index hn hne).trans hs, hperm, hkey, hv', ?_,
    fun y => ?_⟩
  · rw [IntrusiveHeap.held_pop]
    have herase := (hperm.trans hr.contents).erase x
    rwa [List.erase_cons_head] at herase
  · rw [hkey, IntrusiveHeap.keyOf_pop, hr.keys]

/-- `update` finds the node and leaves the cells where they are. -/
theorem Refines.update (hr : Refines count node tr m) {x : Cell B} (hx : x ∈ m.heap.data)
    (hn : m.heap.data.length < 2 ^ 30) (k : K) :
    ∃ m', (m.setKey x k).updateInt comp x = some m' ∧ m'.heap.data.Perm m.heap.data ∧
      (∀ y, (m'.heap.node y).key = Function.update (fun y => (m.heap.node y).key) x k y) ∧
      Refines count node (tr ++ [.update x k]) m' := by
  obtain ⟨m', hs, hv', hperm, hkey⟩ := update_spec comp hr.valid hx k
  have hsame : (m.setKey x k).updateInt comp x = (m.setKey x k).update comp x :=
    updateInt_eq (m := m.setKey x k) (hr.valid.index.setKey x k) hn hx
  refine ⟨m', hsame.trans hs, hperm, hkey, hv', ?_, fun y => ?_⟩
  · rw [IntrusiveHeap.held_update]
    exact hperm.trans hr.contents
  · rw [hkey, IntrusiveHeap.keyOf_update, funext hr.keys]

/-- After every run the heap has what was emplaced and not popped. -/
theorem Run.refines {capacity : ℕ} {addrs : ℕ → B} (hcount : 0 < count)
    (hnew : (ObjectPool.init count capacity addrs).blocks.Nodup)
    (hrun : Run comp count (init count capacity addrs node) tr m) : Refines count node tr m := by
  induction hrun with
  | nil => exact ⟨.init hnew, .refl _, fun _ => rfl⟩
  | emplace block k _ hblock hn hs ih =>
    obtain ⟨x, m', hs', -, -, -, hr⟩ := ih.emplace hcount hblock hn k
    obtain ⟨rfl, rfl⟩ := Prod.mk.inj (Option.some.inj (hs.symm.trans hs'))
    exact hr
  | pop _ hne hn hs ih =>
    obtain ⟨x, m', -, hs', -, -, hr⟩ := ih.pop hne hn
    obtain ⟨rfl, rfl⟩ := Prod.mk.inj (Option.some.inj (hs.symm.trans hs'))
    exact hr
  | @update _ _ _ _ k _ hx hn hs ih =>
    obtain ⟨m', hs', -, -, hr⟩ := ih.update hx hn k
    obtain rfl := Option.some.inj (hs.symm.trans hs')
    exact hr

/-- A call that hands out `x`. -/
def isPushOf (x : Cell B) : Event (Cell B) K → Bool
  | .push y _ => y = x
  | _ => false

/-- While `x` is not popped, each call that hands it out adds it to the heap once more. -/
theorem count_held_append {x : Cell B} {tr₁ : List (Event (Cell B) K)} :
    ∀ {tr₂ : List (Event (Cell B) K)}, .pop x ∉ tr₂ →
      (held (tr₁ ++ tr₂)).count x = (held tr₁).count x + tr₂.countP (isPushOf x) := by
  intro tr₂
  induction tr₂ using List.reverseRecOn with
  | nil => simp
  | append_singleton tr₂ e ih =>
    intro hpop
    simp only [List.mem_append, List.mem_singleton, not_or] at hpop
    rw [← List.append_assoc, List.countP_append]
    cases e with
    | push y k =>
      rw [IntrusiveHeap.held_push, List.count_cons, ih hpop.1]
      simp [isPushOf, Nat.add_assoc]
    | pop y =>
      have hne : y ≠ x := by
        rintro rfl
        exact hpop.2 rfl
      rw [IntrusiveHeap.held_pop, List.count_erase_of_ne hne.symm, ih hpop.1]
      simp [isPushOf]
    | update y k =>
      rw [IntrusiveHeap.held_update, ih hpop.1]
      simp [isPushOf]

/-- The key of a node does not depend on the calls before `emplace` answered it. -/
theorem keyOf_append {x : Cell B} {k : K} {tr₁ : List (Event (Cell B) K)} :
    ∀ {tr₂ : List (Event (Cell B) K)},
      keyOf node (tr₁ ++ [.push x k] ++ tr₂) x = keyOf (fun _ => ⟨k, -1⟩) tr₂ x := by
  intro tr₂
  induction tr₂ using List.reverseRecOn with
  | nil =>
    rw [List.append_nil, IntrusiveHeap.keyOf_push, Function.update_self]
    rfl
  | append_singleton tr₂ e ih =>
    rw [← List.append_assoc]
    cases e with
    | push y k' =>
      rw [IntrusiveHeap.keyOf_push, IntrusiveHeap.keyOf_push]
      simp only [Function.update_apply, ih]
    | pop y =>
      rw [IntrusiveHeap.keyOf_pop, IntrusiveHeap.keyOf_pop]
      exact ih
    | update y k' =>
      rw [IntrusiveHeap.keyOf_update, IntrusiveHeap.keyOf_update]
      simp only [Function.update_apply, ih]

/-- After every sequence of calls the cells of the blocks are split between the heap and the pool,
each in one of them and once. So `emplace` answers a cell that no element occupies and leaves the
keys of the other elements alone; a cell that `emplace` answered is in the heap with its key, good
for `update` and not handed out again, until it is popped. No call fails: `emplace` while the size
is an `int`, `pop` and `update` while the heap has fewer than `2 ^ 30` nodes. -/
theorem run_partitioned {blockSize sizeT capacity : ℕ} {addrs : ℕ → B}
    (hcount : 0 < countPerBlock blockSize sizeT)
    (hnew : (ObjectPool.init (countPerBlock blockSize sizeT) capacity addrs).blocks.Nodup)
    (hrun : Run comp (countPerBlock blockSize sizeT)
      (init (countPerBlock blockSize sizeT) capacity addrs node) tr m) :
    (m.heap.data ++ m.pool.freeList).Nodup ∧
    (∀ c, c ∈ m.heap.data ++ m.pool.freeList ↔
      c.block ∈ m.pool.blocks ∧ c.index < countPerBlock blockSize sizeT) ∧
    (∀ block k, block ∉ m.pool.blocks → m.heap.data.length < 2 ^ 31 →
      ∃ x m', m.emplaceInt comp (countPerBlock blockSize sizeT) block k = some (x, m') ∧
        x ∉ m.heap.data ∧ m'.heap.data.Perm (x :: m.heap.data) ∧
        ∀ y ∈ m.heap.data, (m'.heap.node y).key = (m.heap.node y).key) ∧
    (∀ tr₁ x k tr₂, tr = tr₁ ++ .push x k :: tr₂ → .pop x ∉ tr₂ →
      x ∈ m.heap.data ∧ (m.heap.node x).key = keyOf (fun _ => ⟨k, -1⟩) tr₂ x ∧
        (∀ k', .push x k' ∉ tr₂) ∧
        (m.heap.data.length < 2 ^ 30 →
          ∀ k', ∃ m', (m.setKey x k').updateInt comp x = some m' ∧ (m'.heap.node x).key = k' ∧
            m'.heap.data.Perm m.heap.data ∧
            ∀ y, y ≠ x → (m'.heap.node y).key = (m.heap.node y).key)) ∧
    (m.heap.data ≠ [] → m.heap.data.length < 2 ^ 30 →
      ∃ x m', m.top = some x ∧ m.popInt comp = some (x, m') ∧
        (x :: m'.heap.data).Perm m.heap.data ∧
        ∀ y, (m'.heap.node y).key = (m.heap.node y).key) := by
  have hr := hrun.refines hcount hnew
  have hv := hr.valid
  refine ⟨hv.nodup, fun c => ?_, fun block k hblock hn => ?_, fun tr₁ x k tr₂ htr hpop => ?_,
    fun hne hn => ?_⟩
  · rw [hv.cells.mem_iff, ObjectPool.mem_cells]
  · obtain ⟨x, m', hs, hfresh, hperm, hkey, -⟩ := hr.emplace hcount hblock hn k
    refine ⟨x, m', hs, hfresh, hperm, fun y hy => ?_⟩
    have hne : y ≠ x := by
      rintro rfl
      exact hfresh hy
    rw [hkey, Function.update_of_ne hne]
  · -- the heap holds `x` once, so no call of `tr₂` handed it out
    have hle : (held tr).count x ≤ 1 := by
      rw [← hr.contents.count_eq]
      exact List.nodup_iff_count_le_one.1 hv.index.nodup x
    have hcountx : (held tr).count x = (held (tr₁ ++ [.push x k])).count x +
        tr₂.countP (isPushOf x) := by
      rw [htr, ← count_held_append hpop, List.append_assoc, List.singleton_append]
    rw [IntrusiveHeap.held_push, List.count_cons_self] at hcountx
    have hx : x ∈ m.heap.data := by
      rw [hr.contents.mem_iff, ← List.count_pos_iff]
      omega
    have hnone : ∀ k', Event.push x k' ∉ tr₂ := by
      intro k' hmem
      have hpos : 0 < tr₂.countP (isPushOf x) :=
        List.countP_pos_iff.2 ⟨_, hmem, by simp [isPushOf]⟩
      omega
    refine ⟨hx, ?_, hnone, fun hn k' => ?_⟩
    · rw [hr.keys, htr, ← List.singleton_append, ← List.append_assoc, keyOf_append]
    · obtain ⟨m', hs, hperm, hkey, -⟩ := hr.update hx hn k'
      refine ⟨m', hs, ?_, hperm, fun y hy => ?_⟩
      · rw [hkey, Function.update_self]
      · rw [hkey, Function.update_of_ne hy]
  · obtain ⟨x, m', htop, hs, hperm, hkey, -⟩ := hr.pop hne hn
    exact ⟨x, m', htop, hs, hperm, hkey⟩

/-- A block of two cells; the third `emplace` lets the pool grow, and the fourth answers the cell
that `pop` handed back. -/
theorem run_partitioned_int :
    ∃ m : MinHeap ℕ ℤ, m.heap.data = [⟨0, 0⟩, ⟨0, 1⟩, ⟨7, 1⟩] ∧ m.pool.freeList = [⟨7, 0⟩] ∧
      (m.heap.data ++ m.pool.freeList).Nodup := by
  have hrun : ∃ m : MinHeap ℕ ℤ,
      m.heap.data = [⟨0, 0⟩, ⟨0, 1⟩, ⟨7, 1⟩] ∧ m.pool.freeList = [⟨7, 0⟩] ∧
      Run (fun a b => decide (a < b)) (countPerBlock 16 8)
        (init (countPerBlock 16 8) 2 id fun _ => ⟨0, 0⟩)
        [.push ⟨0, 1⟩ 5, .push ⟨0, 0⟩ 3, .push ⟨7, 1⟩ 4, .pop ⟨0, 0⟩, .push ⟨0, 0⟩ 9,
          .update ⟨0, 0⟩ (-1)] m :=
    ⟨_, rfl, rfl, .update (.emplace 8 9 (.pop (.emplace 7 4 (.emplace 6 3 (.emplace 5 5 .nil
      (by decide) (by decide) rfl) (by decide) (by decide) rfl) (by decide) (by decide) rfl)
      (by decide) (by decide) rfl) (by decide) (by decide) rfl) (by decide) (by decide) rfl⟩
  obtain ⟨m, hdata, hfree, hrun⟩ := hrun
  exact ⟨m, hdata, hfree, (run_partitioned (by decide) (by decide) hrun).1⟩

/-! ## A large heap -/

/-- Any number of elements can be emplaced while the size is an `int`. -/
theorem exists_emplaced (hcount : 0 < count) (k : ℕ) (comp : ℕ → ℕ → Bool) :
    ∀ n ≤ 2 ^ 31, ∃ (tr : List (Event (Cell ℕ) ℕ)) (m : MinHeap ℕ ℕ),
      Run comp count (init count 0 id fun _ => ⟨k, -1⟩) tr m ∧ tr.length = n ∧
        m.heap.data.length = n ∧ (∀ x, (m.heap.node x).key = k) ∧
        (∀ x ∈ m.heap.data, .push x k ∈ tr) ∧ ∀ e ∈ tr, ∃ x, e = .push x k := by
  intro n
  induction n with
  | zero =>
    intro _
    refine ⟨[], _, .nil, rfl, rfl, fun _ => rfl, fun x hx => ?_, fun e he => ?_⟩
    · cases hx
    · cases he
  | succ n ih =>
    intro hn
    obtain ⟨tr, m, hrun, hcalls, hlen, hkeys, hheld, hpush⟩ := ih (Nat.le_of_succ_le hn)
    have hr := hrun.refines hcount (by simp [ObjectPool.init, List.nodup_range])
    obtain ⟨block, hblock⟩ := Infinite.exists_notMem_finset m.pool.blocks.toFinset
    rw [List.mem_toFinset] at hblock
    have hfits : m.heap.data.length < 2 ^ 31 := by omega
    obtain ⟨x, m', hs, -, hperm, hkey, -⟩ := hr.emplace hcount hblock hfits k
    refine ⟨_, m', .emplace block k hrun hblock hfits hs, ?_, ?_, fun y => ?_, fun y hy => ?_,
      fun e he => ?_⟩
    · rw [List.length_append, hcalls, List.length_singleton]
    · rw [hperm.length_eq, List.length_cons, hlen]
    · rw [hkey, Function.update_apply, hkeys, ite_self]
    · rcases List.mem_cons.1 (hperm.mem_iff.1 hy) with rfl | hy
      · exact List.mem_append_right _ List.mem_cons_self
      · exact List.mem_append_left _ (hheld y hy)
    · rcases List.mem_append.1 he with he | he
      · exact hpush e he
      · exact ⟨x, List.mem_singleton.1 he⟩

/-- After `2 ^ 30` calls of `emplace` with one key there is a cell that `emplace` answered and that
was not popped, and `update` of it with that key overflows. -/
theorem run_overflows :
    ∃ (tr : List (Event (Cell ℕ) ℕ)) (m : MinHeap ℕ ℕ) (x : Cell ℕ),
      Run (fun a b => decide (a < b)) (countPerBlock 16 8)
        (init (countPerBlock 16 8) 0 id fun _ => ⟨7, -1⟩) tr m ∧
      tr.length = 2 ^ 30 ∧ .push x 7 ∈ tr ∧ (∀ y, .pop y ∉ tr) ∧ x ∈ m.heap.data ∧
      (m.setKey x 7).updateInt (fun a b => decide (a < b)) x = none := by
  obtain ⟨n, hn⟩ : ∃ n : ℕ, n = 2 ^ 30 := ⟨_, rfl⟩
  have hcount : 0 < countPerBlock 16 8 := by decide
  obtain ⟨tr, m, hrun, hcalls, hlen, hkeys, hheld, hpush⟩ :=
    exists_emplaced hcount 7 (fun a b => decide (a < b)) n (by omega)
  have hv := (hrun.refines hcount (by simp [ObjectPool.init, List.nodup_range])).valid
  have hi : n - 1 < m.heap.data.length := by omega
  have hp := IntrusiveHeap.parent_lt (show 0 < n - 1 by omega)
  have hx : m.heap.data[n - 1]? = some m.heap.data[n - 1] := List.getElem?_eq_getElem hi
  have hy : m.heap.data[IntrusiveHeap.parent (n - 1)]? =
      some m.heap.data[IntrusiveHeap.parent (n - 1)] := List.getElem?_eq_getElem (hp.trans hi)
  have hmem : m.heap.data[n - 1] ∈ m.heap.data := List.getElem_mem hi
  refine ⟨tr, m, m.heap.data[n - 1], hrun, hcalls.trans hn, hheld _ hmem, fun y hpop => ?_, hmem,
    ?_⟩
  · obtain ⟨z, hz⟩ := hpush _ hpop
    cases hz
  · have hkey : m.heap.setKey m.heap.data[n - 1] 7 = m.heap := by
      rw [← hkeys m.heap.data[n - 1]]
      exact IntrusiveHeap.setKey_self _
    have hnotLess : m.heap.less (fun a b => decide (a < b)) m.heap.data[n - 1]
        m.heap.data[IntrusiveHeap.parent (n - 1)] = false := by
      rw [IntrusiveHeap.less, hkeys, hkeys]
      exact decide_eq_false (Nat.lt_irrefl 7)
    have hnone := IntrusiveHeap.updateInt_overflow hv.index (by omega) (by omega) hx hy hnotLess
    rw [updateInt, setKey, hkey, hnone]
    rfl

end RockCoro.MinHeap
