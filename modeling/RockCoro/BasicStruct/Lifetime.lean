import Mathlib.Data.List.Perm.Basic
import RockCoro.BasicStruct.ObjectPool

/-!
# Lifetimes of the objects in a `MinHeap`

Where a `T` is constructed and destroyed: `new Block()` constructs one in each cell of the block,
`emplace` one in the cell that the pool answers, and `delete` destroys what is in the cells of a
block. A cell that the pool answers has the `T` of its block or of an earlier `emplace`, so the
account is balanced in no run with an `emplace` (`lifetimes_balanced_iff`).
-/

namespace RockCoro

/-- A step of the lifetimes of objects in places `C`. With `handBack` a place may be used again. -/
inductive Lifetime (C : Type)
  | construct (c : C)
  | destroy (c : C)
  | handBack (c : C)

namespace Lifetime

variable {C : Type} [DecidableEq C]

/-- The places with an object after a step. -/
def next (live : C → Bool) : Lifetime C → C → Bool
  | construct c => Function.update live c true
  | destroy c => Function.update live c false
  | handBack _ => live

/-- Objects are constructed in places without one and destroyed where there is one; a place is
handed back without one; and at the end there are none. -/
def Balanced : (C → Bool) → List (Lifetime C) → Prop
  | live, [] => ∀ c, live c = false
  | live, construct c :: log => live c = false ∧ Balanced (next live (construct c)) log
  | live, destroy c :: log => live c = true ∧ Balanced (next live (destroy c)) log
  | live, handBack c :: log => live c = false ∧ Balanced (next live (handBack c)) log

variable {live : C → Bool} {log : List (Lifetime C)} {cs : List C} {c : C}

/-- The rest of a balanced log is balanced from what the first part leaves alive. -/
theorem Balanced.append {log₁ log₂ : List (Lifetime C)} :
    ∀ {live : C → Bool}, Balanced live (log₁ ++ log₂) → Balanced (log₁.foldl next live) log₂ := by
  induction log₁ with
  | nil => exact fun h => h
  | cons e log₁ ih =>
    intro live h
    cases e with
    | construct | destroy | handBack => exact ih h.2

/-- After the constructions of `cs` the cells of `cs` are alive, and those that were before. -/
theorem foldl_construct (c : C) :
    ∀ live : C → Bool, (cs.map construct).foldl next live c = (live c || decide (c ∈ cs)) := by
  induction cs with
  | nil => simp
  | cons d cs ih =>
    intro live
    rw [List.map_cons, List.foldl_cons, ih, next]
    by_cases hc : c = d
    · subst hc
      simp
    · simp [hc]

/-- Distinct cells that are not alive can be constructed in front of a balanced log. -/
theorem balanced_construct :
    ∀ {live : C → Bool}, cs.Nodup → (∀ c ∈ cs, live c = false) →
      Balanced ((cs.map construct).foldl next live) log →
      Balanced live (cs.map construct ++ log) := by
  induction cs with
  | nil => exact fun _ _ h => h
  | cons d cs ih =>
    intro live hnodup hlive h
    obtain ⟨hd, hnodup⟩ := List.nodup_cons.1 hnodup
    refine ⟨hlive d List.mem_cons_self, ih hnodup (fun c hc => ?_) h⟩
    have hne : c ≠ d := fun he => hd (he ▸ hc)
    rw [next, Function.update_of_ne hne]
    exact hlive c (List.mem_cons_of_mem d hc)

/-- Destroying each living cell once is balanced. -/
theorem balanced_destroy :
    ∀ {live : C → Bool}, cs.Nodup → (∀ c, live c = true ↔ c ∈ cs) →
      Balanced live (cs.map destroy) := by
  induction cs with
  | nil =>
    intro live _ hlive c
    exact Bool.eq_false_iff.2 fun hc => List.not_mem_nil ((hlive c).1 hc)
  | cons d cs ih =>
    intro live hnodup hlive
    obtain ⟨hd, hnodup⟩ := List.nodup_cons.1 hnodup
    refine ⟨(hlive d).2 List.mem_cons_self, ih hnodup fun c => ?_⟩
    by_cases hc : c = d
    · subst hc
      simp [next, hd]
    · rw [next, Function.update_of_ne hc, hlive, List.mem_cons, or_iff_right hc]

end Lifetime

/-! ## The calls -/

namespace MinHeap

open Lifetime ObjectPool

variable {B K : Type} [DecidableEq B] (comp : K → K → Bool) (count : ℕ)

/-- `new Block()`. -/
def newBlock (block : B) : List (Lifetime (Cell B)) := (cellsOf count block).map construct

/-- `delete block`, which begins with the last cell. -/
def deleteBlock (block : B) : List (Lifetime (Cell B)) := (cellsOf count block).reverse.map destroy

/-- A call. `block` is what `new` answers if the pool has to grow. -/
inductive Call (B K : Type)
  | emplace (block : B) (k : K)
  | pop

/-- A call, on a heap and the steps so far. `new` answers no block that is in use. -/
def call : MinHeap B K × List (Lifetime (Cell B)) → Call B K →
    Option (MinHeap B K × List (Lifetime (Cell B)))
  | (m, log), .emplace block k =>
    if block ∈ m.pool.blocks then none
    else do
      let (obj, m') ← m.emplace comp count block k
      let grown := if m.pool.freeList = [] then newBlock count block else []
      some (m', log ++ grown ++ [.construct obj])
  | (m, log), .pop => do
    let (obj, m') ← m.pop comp
    some (m', log ++ [.handBack obj])

/-- Calls on a new heap. -/
def calls (capacity : ℕ) (addrs : ℕ → B) (node : Cell B → HeapNode K) (cs : List (Call B K)) :
    Option (MinHeap B K × List (Lifetime (Cell B))) :=
  let m := init count capacity addrs node
  cs.foldlM (call comp count) (m, m.pool.blocks.flatMap (newBlock count))

/-- The destructor of the heap, which is that of the pool. -/
def destruct (m : MinHeap B K) : List (Lifetime (Cell B)) :=
  m.pool.blocks.flatMap (deleteBlock count)

/-! ## The account -/

variable {comp count} {m m' : MinHeap B K} {log log' : List (Lifetime (Cell B))}
  {x : Cell B} {k : K}
  {block : B} {e : Call B K} {cs : List (Call B K)}

/-- Each cell of the pool has an object, from its block on. -/
structure Accounted (count : ℕ) (m : MinHeap B K) (log : List (Lifetime (Cell B))) : Prop where
  valid : Valid count m
  live : ∀ c ∈ cells count m.pool.blocks, log.foldl next (fun _ => false) c = true

omit [DecidableEq B] in
/-- The log of fresh blocks constructs every cell of them, block by block. -/
theorem flatMap_newBlock (blocks : List B) :
    blocks.flatMap (newBlock count) = (cells count blocks).map construct := by
  rw [cells, List.map_flatMap]
  rfl

/-- A new pool has constructed exactly the cells of its blocks. -/
theorem Accounted.init {capacity : ℕ} {addrs : ℕ → B} {node : Cell B → HeapNode K}
    (hnew : (ObjectPool.init count capacity addrs).blocks.Nodup) :
    Accounted count (init count capacity addrs node)
      ((ObjectPool.init count capacity addrs).blocks.flatMap (newBlock count)) := by
  refine ⟨.init hnew, fun c hc => ?_⟩
  rw [flatMap_newBlock, foldl_construct]
  exact decide_eq_true hc

/-- `emplace` adds its block to the pool exactly when no node is free. -/
theorem emplace_blocks (hs : m.emplace comp count block k = some (x, m')) :
    m'.pool.blocks =
      if m.pool.freeList = [] then m.pool.blocks ++ [block] else m.pool.blocks := by
  obtain ⟨⟨obj, pool⟩, hacquire, hs⟩ := Option.bind_eq_some_iff.1 hs
  obtain ⟨heap, -, hs⟩ := Option.bind_eq_some_iff.1 hs
  cases hs
  obtain ⟨ret, -, hret⟩ := Option.map_eq_some_iff.1 hacquire
  cases hret
  split
  · rfl
  · rfl

/-- A pool with empty blocks has no cell. -/
theorem emplace_zero (hv : Valid 0 m) : m.emplace comp 0 block k = none := by
  have hcells : ∀ blocks : List B, cells 0 blocks = [] := fun _ => by simp [cells, cellsOf]
  have hfree : m.pool.freeList = [] := by
    have hperm := hv.cells
    rw [hcells] at hperm
    exact (List.append_eq_nil_iff.1 hperm.eq_nil).2
  have hacquire : m.pool.acquire 0 block = none := by
    rw [acquire, if_pos hfree, grow, hfree]
    rfl
  rw [emplace, hacquire]
  rfl

/-- `emplace` constructs an object where there is one. -/
theorem Accounted.emplace (h : Accounted count m log) (hblock : block ∉ m.pool.blocks)
    (hs : m.emplace comp count block k = some (x, m')) :
    let grown := if m.pool.freeList = [] then newBlock count block else []
    Accounted count m' (log ++ grown ++ [.construct x]) ∧
      ∀ post, ¬Balanced (fun _ => false) (log ++ grown ++ [.construct x] ++ post) := by
  intro grown
  have hcount : 0 < count := by
    rcases Nat.eq_zero_or_pos count with rfl | hpos
    · cases (emplace_zero h.valid).symm.trans hs
    · exact hpos
  obtain ⟨x', m'', hs', hv', -, hperm, -⟩ := emplace_spec comp hcount h.valid hblock k
  obtain ⟨rfl, rfl⟩ := Prod.mk.inj (Option.some.inj (hs.symm.trans hs'))
  have hlive : ∀ c ∈ cells count m'.pool.blocks, (log ++ grown).foldl next (fun _ => false) c =
    true := by
    intro c hc
    rw [emplace_blocks hs] at hc
    rw [List.foldl_append]
    by_cases hfree : m.pool.freeList = []
    · rw [if_pos hfree, cells_concat, List.mem_append] at hc
      rw [show grown = newBlock count block from if_pos hfree, newBlock, foldl_construct]
      rcases hc with hc | hc
      · simp [h.live c hc]
      · simp [hc]
    · rw [if_neg hfree] at hc
      rw [show grown = [] from if_neg hfree]
      exact h.live c hc
  have hx : x ∈ cells count m'.pool.blocks :=
    hv'.cells.mem_iff.1 (List.mem_append_left _ (hperm.mem_iff.2 List.mem_cons_self))
  refine ⟨⟨hv', fun c hc => ?_⟩, fun post hbalanced => ?_⟩
  · rw [List.foldl_append, List.foldl_cons, List.foldl_nil, next]
    by_cases hcx : c = x
    · rw [hcx, Function.update_self]
    · rw [Function.update_of_ne hcx, hlive c hc]
  · rw [List.append_assoc (log ++ grown)] at hbalanced
    exact Bool.false_ne_true (hbalanced.append.1.symm.trans (hlive x hx))

/-- `pop` hands one cell back and leaves the account balanced otherwise. -/
theorem Accounted.pop (h : Accounted count m log) (hs : m.pop comp = some (x, m')) :
    Accounted count m' (log ++ [.handBack x]) := by
  have hne : m.heap.data ≠ [] := by
    intro hnil
    rw [MinHeap.pop, IntrusiveHeap.pop, hnil] at hs
    cases hs
  obtain ⟨x', m'', -, hs', hv', -, -⟩ := pop_spec comp h.valid hne
  obtain ⟨rfl, rfl⟩ := Prod.mk.inj (Option.some.inj (hs.symm.trans hs'))
  obtain ⟨⟨ret, heap⟩, -, hs⟩ := Option.bind_eq_some_iff.1 hs
  cases hs
  refine ⟨hv', fun c hc => ?_⟩
  rw [List.foldl_append]
  exact h.live c hc

/-- Every call keeps the account and extends the log; after an `emplace` no continuation balances
it. -/
theorem call_accounted (h : Accounted count m log)
    (hs : call comp count (m, log) e = some (m', log')) :
    Accounted count m' log' ∧ (∃ rest, log' = log ++ rest) ∧
      ∀ block k, e = .emplace block k → ∀ post, ¬Balanced (fun _ => false) (log' ++ post) := by
  cases e with
  | emplace block k =>
    rw [call] at hs
    split at hs
    · cases hs
    · obtain ⟨⟨obj, m₁⟩, hemplace, hs⟩ := Option.bind_eq_some_iff.1 hs
      cases hs
      obtain ⟨h', hunbalanced⟩ := h.emplace ‹_› hemplace
      exact ⟨h', ⟨_, List.append_assoc ..⟩, fun _ _ _ => hunbalanced⟩
  | pop =>
    obtain ⟨⟨obj, m₁⟩, hpop, hs⟩ := Option.bind_eq_some_iff.1 hs
    cases hs
    exact ⟨h.pop hpop, ⟨_, rfl⟩, fun _ _ he => nomatch he⟩

/-- After an `emplace` the account is not balanced, whatever follows. -/
theorem foldlM_unbalanced {log' : List (Lifetime (Cell B))} :
    ∀ {m : MinHeap B K} {log}, Accounted count m log →
      cs.foldlM (call comp count) (m, log) = some (m', log') →
      (∃ rest, log' = log ++ rest) ∧
        ∀ block k, .emplace block k ∈ cs → ∀ post, ¬Balanced (fun _ => false) (log' ++ post) := by
  induction cs with
  | nil =>
    intro m log _ hs
    cases hs
    exact ⟨⟨[], (List.append_nil _).symm⟩, fun _ _ hmem => nomatch hmem⟩
  | cons e cs ih =>
    intro m log h hs
    rw [List.foldlM_cons] at hs
    obtain ⟨⟨m₁, log₁⟩, he, hs⟩ := Option.bind_eq_some_iff.1 hs
    obtain ⟨h₁, ⟨rest₁, rfl⟩, hunbalanced⟩ := call_accounted h he
    obtain ⟨⟨rest, rfl⟩, hlater⟩ := ih h₁ hs
    refine ⟨⟨rest₁ ++ rest, List.append_assoc ..⟩, fun block k hmem post => ?_⟩
    rcases List.mem_cons.1 hmem with he | hmem
    · rw [List.append_assoc]
      exact hunbalanced block k he.symm (rest ++ post)
    · exact hlater block k hmem post

/-- The account of a heap that is destroyed as it was constructed. -/
theorem balanced_blocks {blocks : List B} (h : blocks.Nodup) :
    Balanced (fun _ => false)
      (blocks.flatMap (newBlock count) ++ blocks.flatMap (deleteBlock count)) := by
  have hdelete : blocks.flatMap (deleteBlock count) =
      (blocks.flatMap fun b => (cellsOf count b).reverse).map destroy := by
    rw [List.map_flatMap]
    rfl
  have hperm : (blocks.flatMap fun b => (cellsOf count b).reverse).Perm (cells count blocks) :=
    List.Perm.flatMap_left _ fun b _ => List.reverse_perm _
  have hnodup : (cells count blocks).Nodup := nodup_cells h
  rw [flatMap_newBlock, hdelete]
  refine balanced_construct hnodup (fun _ _ => rfl) (balanced_destroy (hperm.nodup_iff.2 hnodup) ?_)
  intro c
  rw [foldl_construct, hperm.mem_iff]
  simp

/-- The account of the objects is balanced if and only if no element was emplaced. -/
theorem lifetimes_balanced_iff {capacity : ℕ} {addrs : ℕ → B} {node : Cell B → HeapNode K}
    (hnew : (ObjectPool.init count capacity addrs).blocks.Nodup)
    (hcalls : calls comp count capacity addrs node cs = some (m, log)) :
    Balanced (fun _ => false) (log ++ m.destruct count) ↔ ∀ block k, .emplace block k ∉ cs := by
  constructor
  · intro hbalanced block k hmem
    exact (foldlM_unbalanced (.init hnew) hcalls).2 block k hmem _ hbalanced
  · intro hnone
    cases cs with
    | nil =>
      cases hcalls
      exact balanced_blocks hnew
    | cons e cs =>
      cases e with
      | emplace block k => exact absurd List.mem_cons_self (hnone block k)
      | pop => cases hcalls

/-- The run without calls: two cells are constructed and destroyed, and the log is balanced. -/
theorem lifetimes_balanced_iff_nil : ∃ (m : MinHeap ℕ ℤ) (log : List (Lifetime (Cell ℕ))),
    calls (fun a b => decide (a < b)) 2 1 id (fun _ => ⟨0, 0⟩) [] = some (m, log) ∧
      Balanced (fun _ => false) (log ++ m.destruct 2) := by
  obtain ⟨m, log, hcalls⟩ : ∃ (m : MinHeap ℕ ℤ) (log : List (Lifetime (Cell ℕ))),
      calls (fun a b => decide (a < b)) 2 1 id (fun _ => ⟨0, 0⟩) [] = some (m, log) := ⟨_, _, rfl⟩
  exact ⟨m, log, hcalls, (lifetimes_balanced_iff (by decide) hcalls).2 fun _ _ => List.not_mem_nil⟩

/-- The third object is constructed in the cell of the second one, which is never destroyed. -/
theorem not_balanced_emplace : ∃ (m : MinHeap ℕ ℤ) (log : List (Lifetime (Cell ℕ))),
    calls (fun a b => decide (a < b)) 2 1 id (fun _ => ⟨0, 0⟩) [.emplace 1 5, .pop] =
      some (m, log) ∧
      log ++ m.destruct 2 = [.construct ⟨0, 0⟩, .construct ⟨0, 1⟩, .construct ⟨0, 1⟩,
        .handBack ⟨0, 1⟩, .destroy ⟨0, 1⟩, .destroy ⟨0, 0⟩] ∧
      ¬Balanced (fun _ => false) (log ++ m.destruct 2) :=
  ⟨_, _, rfl, rfl, fun h => absurd h.2.2.1 (by decide)⟩

end MinHeap

end RockCoro
