import RockCoro.Lib.HeapOrder
import Mathlib.Data.List.Nodup
import Mathlib.Tactic.Common

/-!
# `IntrusiveHeap`

The binary heap of `basic_struct/min_heap.h` over a memory of nodes: `data_` holds node pointers,
each node carries its own position in `heap_index_`. Array reads are `[·]?` and asserts are
`Option`-valued, so a run that succeeds has read no slot outside `data_` and has broken no assert;
the loops get one unit of fuel per level they can visit, and every theorem below proves that they
do not run out. Positions are exact naturals, which is what `int` computes for heaps below `2^30`.

`sift_up` and `sift_down` are instances of the hole moves of `HeapOrder`; `Rearranged` is what both
leave alone.
-/

namespace RockCoro

/-- What `IntrusiveHeap` reads and writes of a `T`: the part `Compare` looks at, and
`heap_index_`. -/
structure HeapNode (K : Type) where
  key : K
  heapIndex : Int

/-- The heap's array of node pointers, over the memory of the nodes. -/
structure IntrusiveHeap (P K : Type) where
  node : P → HeapNode K
  data : List P

namespace IntrusiveHeap

section
variable {P K : Type}

/-- `parent`; at 0 it is 0, where the source has 0 as well because the division rounds towards
zero. -/
def parent (i : Nat) : Nat := (i - 1) / 2

/-- `left`. -/
def left (i : Nat) : Nat := i * 2 + 1

/-- `right`. -/
def right (i : Nat) : Nat := i * 2 + 2

/-- `top`, with its assert that the heap is not empty. -/
def top (h : IntrusiveHeap P K) : Option P := h.data[0]?

variable [DecidableEq P]

/-- `data_[i]->heap_index_ = i` for the node `p`. -/
def setIndex (h : IntrusiveHeap P K) (p : P) (i : Int) : IntrusiveHeap P K :=
  { h with node := Function.update h.node p { h.node p with heapIndex := i } }

/-- A write to the key of a node, by the heap's user. -/
def setKey (h : IntrusiveHeap P K) (p : P) (k : K) : IntrusiveHeap P K :=
  { h with node := Function.update h.node p { h.node p with key := k } }

/-- `swap_node`: the two entries change places and each learns its new index. -/
def swapNode (h : IntrusiveHeap P K) (i j : Nat) : Option (IntrusiveHeap P K) := do
  let a ← h.data[i]?
  let b ← h.data[j]?
  some (({ h with data := (h.data.set i b).set j a }.setIndex b i).setIndex a j)

variable (comp : K → K → Bool)

/-- `comp_(a, b)` on two node pointers. -/
def less (h : IntrusiveHeap P K) (a b : P) : Bool := comp (h.node a).key (h.node b).key

/-- The loop of `sift_up`: the entry goes up while it comes before its parent. -/
def siftUpLoop : Nat → IntrusiveHeap P K → Nat → Option (IntrusiveHeap P K)
  | 0, _, _ => none
  | fuel + 1, h, i =>
    if 0 < i then do
      let x ← h.data[i]?
      let y ← h.data[parent i]?
      if h.less comp x y then do
        let h ← h.swapNode i (parent i)
        siftUpLoop fuel h (parent i)
      else some h
    else some h

/-- `sift_up`; the loop runs at most once for each position up to `i`. -/
def siftUp (h : IntrusiveHeap P K) (i : Nat) : Option (IntrusiveHeap P K) :=
  siftUpLoop comp (i + 1) h i

/-- One comparison of `sift_down`: child `c`, if it is in the array, against the smallest so
far. -/
def pick (h : IntrusiveHeap P K) (n c smallest : Nat) : Option Nat :=
  if c < n then do
    let x ← h.data[c]?
    let y ← h.data[smallest]?
    some (if h.less comp x y then c else smallest)
  else some smallest

/-- The loop of `sift_down`: the smaller child goes up until no child comes before the entry. -/
def siftDownLoop (n : Nat) : Nat → IntrusiveHeap P K → Nat → Option (IntrusiveHeap P K)
  | 0, _, _ => none
  | fuel + 1, h, i => do
    let smallest ← h.pick comp n (left i) i
    let smallest ← h.pick comp n (right i) smallest
    if smallest = i then some h
    else do
      let h ← h.swapNode i smallest
      siftDownLoop n fuel h smallest

/-- `sift_down`, with one round for each position at most. -/
def siftDown (h : IntrusiveHeap P K) (i : Nat) : Option (IntrusiveHeap P K) :=
  siftDownLoop comp h.data.length (h.data.length + 1) h i

/-- The part of `remove_at` before its sifts. -/
def detach (h : IntrusiveHeap P K) (idx : Nat) : Option (IntrusiveHeap P K) := do
  let last := h.data.length - 1
  let removed ← h.data[idx]?
  let h ← (if idx ≠ last then h.swapNode idx last else some h)
  some ({ h with data := h.data.dropLast }.setIndex removed (-1))

/-- `remove_at`: the last entry takes the place of the removed one and is moved down, then up. -/
def removeAt (h : IntrusiveHeap P K) (idx : Nat) : Option (IntrusiveHeap P K) := do
  let h ← h.detach idx
  if idx < h.data.length then do
    -- the node now at `idx` may belong above or below
    let h ← h.siftDown comp idx
    h.siftUp comp idx
  else some h

/-- `push`: the node goes to the end and up from there. -/
def push (h : IntrusiveHeap P K) (x : P) : Option (IntrusiveHeap P K) :=
  if (h.node x).heapIndex = -1 then
    let idx := h.data.length
    ({ h with data := h.data ++ [x] }.setIndex x idx).siftUp comp idx
  else none

/-- `pop`: the first entry, and the heap without it. -/
def pop (h : IntrusiveHeap P K) : Option (P × IntrusiveHeap P K) := do
  let ret ← h.data[0]?
  let h ← h.removeAt comp 0
  some (ret, h)

/-- `update`: the node at its stored index goes up when it comes before its parent, and down
otherwise. -/
def update (h : IntrusiveHeap P K) (x : P) : Option (IntrusiveHeap P K) :=
  let idx := (h.node x).heapIndex
  if idx = -1 then none
  else do
    let y ← h.data[parent idx.toNat]?
    if h.less comp x y then h.siftUp comp idx.toNat else h.siftDown comp idx.toNat

end

/-! ## The invariant -/

section
variable {P K : Type} {comp : K → K → Bool} {h h' h'' : IntrusiveHeap P K}

/-- `data_[x->heap_index_] == x` for every node of the heap, seen from the positions: the node at
position `i` carries `i`. -/
def Indexed (h : IntrusiveHeap P K) : Prop :=
  ∀ (i : Nat) (x : P), h.data[i]? = some x → (h.node x).heapIndex = i

/-- No node compares less than its parent. -/
def InOrder (comp : K → K → Bool) (h : IntrusiveHeap P K) : Prop :=
  ∀ (i : Nat) (x y : P), 0 < i → h.data[i]? = some x → h.data[parent i]? = some y →
    h.less comp x y = false

/-- The heap's invariant. -/
structure Valid (comp : K → K → Bool) (h : IntrusiveHeap P K) : Prop where
  order : InOrder comp h
  index : Indexed h

/-- The same nodes in another arrangement: keys and the nodes outside the heap are unchanged. -/
structure Rearranged (h h' : IntrusiveHeap P K) : Prop where
  perm : h'.data.Perm h.data
  key : ∀ p, (h'.node p).key = (h.node p).key
  off : ∀ p, p ∉ h.data → h'.node p = h.node p

/-- A heap is a rearrangement of itself. -/
theorem Rearranged.refl (h : IntrusiveHeap P K) : Rearranged h h :=
  ⟨.refl _, fun _ => rfl, fun _ _ => rfl⟩

/-- Rearrangements compose. -/
theorem Rearranged.trans (h₁ : Rearranged h h') (h₂ : Rearranged h' h'') : Rearranged h h'' where
  perm := h₂.perm.trans h₁.perm
  key p := (h₂.key p).trans (h₁.key p)
  off p hp := (h₂.off p (fun hm => hp (h₁.perm.mem_iff.1 hm))).trans (h₁.off p hp)

/-- The order that `Compare` induces on keys. -/
abbrev Before (comp : K → K → Bool) (a b : K) : Prop := comp a b = true

/-- The key at a position, the array that `HeapOrder` speaks of. -/
def keyAt (h : IntrusiveHeap P K) (i : Nat) : Option K := h.data[i]?.map fun x => (h.node x).key

/-- A parent lies before its child, which is what ends `sift_up`. -/
theorem parent_lt {i : Nat} (hi : 0 < i) : parent i < i := by unfold parent; omega

/-- The children of `i` are `left i` and `right i`. -/
theorem child_iff {c i : Nat} : (0 < c ∧ parent c = i) ↔ c = left i ∨ c = right i := by
  unfold parent left right; omega

/-- The keys of a heap stand at the positions below its size. -/
theorem keyAt_dense : HeapOrder.Dense h.keyAt := by
  intro i j hij hj
  simp only [keyAt, Option.isSome_map, isSome_getElem?] at hj ⊢
  omega

/-- The heap order of the array is the one of `HeapOrder` for its parent function. -/
theorem inOrder_iff :
    InOrder comp h ↔ HeapOrder.Ordered (Before comp) parent h.keyAt := by
  constructor
  · intro ho i hi kx hkx ky hky hlt
    obtain ⟨x, hx, rfl⟩ := Option.map_eq_some_iff.1 hkx
    obtain ⟨y, hy, rfl⟩ := Option.map_eq_some_iff.1 hky
    exact Bool.false_ne_true ((ho i x y hi hx hy).symm.trans hlt)
  · intro ho i x y hi hx hy
    exact Bool.eq_false_iff.2
      (ho i hi _ (by simp [keyAt, hx]) _ (by simp [keyAt, hy]))

/-- Nodes at different positions are different. -/
theorem Indexed.inj (hi : Indexed h) {i j : Nat} {x : P} (h₁ : h.data[i]? = some x)
    (h₂ : h.data[j]? = some x) : i = j := by
  exact_mod_cast (hi i x h₁).symm.trans (hi j x h₂)

/-- Stored indices are positions, so no node stands at two of them. -/
theorem Indexed.nodup (hi : Indexed h) : h.data.Nodup :=
  List.nodup_iff_getElem?_ne_getElem?.2 fun i j hij hj he => by
    have hx : h.data[j]? = some h.data[j] := List.getElem?_eq_getElem hj
    exact absurd (hi.inj (he.trans hx) hx) (by omega)

/-! ## `swap_node` -/

/-- The array after a swap, position by position. -/
theorem getElem?_set_set {l : List P} {i j : Nat} {a b : P} (hi : l[i]? = some a)
    (hj : l[j]? = some b) (m : Nat) :
    ((l.set i b).set j a)[m]? = l[Equiv.swap i j m]? := by
  obtain ⟨hil, -⟩ := List.getElem?_eq_some_iff.1 hi
  obtain ⟨hjl, -⟩ := List.getElem?_eq_some_iff.1 hj
  by_cases hmj : m = j
  · subst hmj
    simp [hi, hjl]
  · by_cases hmi : m = i
    · subst hmi
      simp [hj, hil, Ne.symm hmj]
    · rw [Equiv.swap_apply_of_ne_of_ne hmi hmj]
      simp [Ne.symm hmi, Ne.symm hmj]

variable [DecidableEq P]

@[simp] theorem setIndex_data (p : P) (i : Int) : (h.setIndex p i).data = h.data := rfl

@[simp] theorem setIndex_key (p q : P) (i : Int) :
    ((h.setIndex p i).node q).key = (h.node q).key := by
  by_cases hq : q = p
  · subst hq; simp [setIndex]
  · simp [setIndex, hq]

/-- `setIndex` writes the index of its node. -/
theorem setIndex_node_self (p : P) (i : Int) : ((h.setIndex p i).node p).heapIndex = i := by
  simp [setIndex]

/-- `setIndex` leaves every other node alone. -/
theorem setIndex_node_ne {p q : P} (i : Int) (hq : q ≠ p) : (h.setIndex p i).node q = h.node q := by
  simp [setIndex, hq]

/-- `swap_node` exchanges two positions and keeps the index. -/
theorem swapNode_spec (hv : Indexed h) {i j : Nat} (hi : i < h.data.length)
    (hj : j < h.data.length) :
    ∃ h', h.swapNode i j = some h' ∧ Indexed h' ∧ Rearranged h h' ∧
      h'.keyAt = h.keyAt ∘ Equiv.swap i j := by
  have ha : h.data[i]? = some h.data[i] := List.getElem?_eq_getElem hi
  have hb : h.data[j]? = some h.data[j] := List.getElem?_eq_getElem hj
  have hs : h.swapNode i j = some (({ h with
      data := (h.data.set i h.data[j]).set j h.data[i] }.setIndex h.data[j] i).setIndex
        h.data[i] j) := by simp [swapNode, ha, hb]
  refine ⟨_, hs, ?_, ?_, ?_⟩
  · intro m x hm
    simp only [setIndex_data] at hm
    rw [getElem?_set_set ha hb] at hm
    by_cases hxa : x = h.data[i]
    · subst hxa
      have := hv.inj hm ha
      rw [Equiv.swap_apply_eq_iff, Equiv.swap_apply_left] at this
      rw [setIndex_node_self, this]
    · rw [setIndex_node_ne _ hxa]
      by_cases hxb : x = h.data[j]
      · subst hxb
        have := hv.inj hm hb
        rw [Equiv.swap_apply_eq_iff, Equiv.swap_apply_right] at this
        rw [setIndex_node_self, this]
      · rw [setIndex_node_ne _ hxb]
        have hmi : m ≠ i := by
          rintro rfl
          rw [Equiv.swap_apply_left, hb] at hm
          exact hxb (Option.some.inj hm).symm
        have hmj : m ≠ j := by
          rintro rfl
          rw [Equiv.swap_apply_right, ha] at hm
          exact hxa (Option.some.inj hm).symm
        rw [Equiv.swap_apply_of_ne_of_ne hmi hmj] at hm
        exact hv m x hm
  · refine ⟨List.set_set_perm hi hj, fun p => by simp, fun p hp => ?_⟩
    have hpa : p ≠ h.data[i] := fun he => hp (he ▸ List.getElem_mem hi)
    have hpb : p ≠ h.data[j] := fun he => hp (he ▸ List.getElem_mem hj)
    rw [setIndex_node_ne _ hpa, setIndex_node_ne _ hpb]
  · funext m
    simp only [keyAt, setIndex_data, Function.comp_apply, getElem?_set_set ha hb]
    simp

/-! ## The sifts -/

variable [IsStrictWeakOrder K (Before comp)]

/-- `sift_up` restores the order of a heap whose only bad edge goes up from `i`. -/
theorem siftUpLoop_spec {fuel : Nat} :
    ∀ {h : IntrusiveHeap P K} {i : Nat}, i < fuel → i < h.data.length → Indexed h →
      HeapOrder.UpHole (Before comp) parent h.keyAt i →
      ∃ h', siftUpLoop comp fuel h i = some h' ∧ Valid comp h' ∧ Rearranged h h' := by
  induction fuel with
  | zero => intro h i hf; omega
  | succ fuel ih =>
    intro h i hf hi hv ho
    by_cases hi0 : 0 < i
    · have hp := parent_lt hi0
      have hx : h.data[i]? = some h.data[i] := List.getElem?_eq_getElem hi
      have hy : h.data[parent i]? = some h.data[parent i] := List.getElem?_eq_getElem (by omega)
      have hkx : h.keyAt i = some (h.node h.data[i]).key := by simp [keyAt, hx]
      have hky : h.keyAt (parent i) = some (h.node h.data[parent i]).key := by simp [keyAt, hy]
      simp only [siftUpLoop, if_pos hi0, hx, hy, Option.bind_eq_bind, Option.bind_some]
      by_cases hlt : h.less comp h.data[i] h.data[parent i] = true
      · obtain ⟨h₁, hs, hv₁, hr₁, hk₁⟩ :=
          swapNode_spec hv hi (show parent i < h.data.length by omega)
        have ho₁ := ho.swap (fun _ => parent_lt) hi0 hkx hky hlt
        rw [← hk₁] at ho₁
        obtain ⟨h₂, hs₂, hv₂, hr₂⟩ :=
          ih (by omega) (by rw [hr₁.perm.length_eq]; omega) hv₁ ho₁
        exact ⟨h₂, by rw [if_pos hlt, hs]; exact hs₂, hv₂, hr₁.trans hr₂⟩
      · refine ⟨h, by rw [if_neg hlt], ⟨inOrder_iff.2 (ho.ordered fun _ => ?_), hv⟩, .refl h⟩
        intro kx hkx' ky hky' hc
        obtain rfl := Option.some.inj (hkx.symm.trans hkx')
        obtain rfl := Option.some.inj (hky.symm.trans hky')
        exact hlt hc
    · exact ⟨h, by simp [siftUpLoop, hi0],
        ⟨inOrder_iff.2 (ho.ordered fun hi' => absurd hi' hi0), hv⟩, .refl h⟩

/-- `sift_up` from a position that may come before its parent, and only there, makes a heap. -/
theorem siftUp_spec {i : Nat} (hi : i < h.data.length) (hv : Indexed h)
    (ho : HeapOrder.UpHole (Before comp) parent h.keyAt i) :
    ∃ h', h.siftUp comp i = some h' ∧ Valid comp h' ∧ Rearranged h h' :=
  siftUpLoop_spec (Nat.lt_succ_self i) hi hv ho

omit [DecidableEq P] in
variable (comp) in
/-- One comparison of `sift_down` chooses the child or keeps the smallest so far, and neither of
the two is before the choice. -/
theorem pick_spec {c m : Nat} (hm : m < h.data.length) :
    ∃ r, h.pick comp h.data.length c m = some r ∧ r < h.data.length ∧
      HeapOrder.NLt (Before comp) h.keyAt c r ∧
      HeapOrder.NLt (Before comp) h.keyAt m r ∧
      (r = m ∨ r = c ∧ ∃ x ∈ h.keyAt c, ∃ y ∈ h.keyAt m, comp x y = true) := by
  have hy : h.data[m]? = some h.data[m] := List.getElem?_eq_getElem hm
  have hky : h.keyAt m = some (h.node h.data[m]).key := by simp [keyAt, hy]
  have hself : ∀ {j}, HeapOrder.NLt (Before comp) h.keyAt j j := by
    intro j x hx y hy
    obtain rfl := Option.some.inj (hx.symm.trans hy)
    exact irrefl (r := Before comp) x
  by_cases hc : c < h.data.length
  · have hx : h.data[c]? = some h.data[c] := List.getElem?_eq_getElem hc
    have hkx : h.keyAt c = some (h.node h.data[c]).key := by simp [keyAt, hx]
    by_cases hlt : h.less comp h.data[c] h.data[m] = true
    · exact ⟨c, by simp [pick, hc, hy, hlt], hc, hself,
        HeapOrder.NLt.of_lt hkx hky hlt, .inr ⟨rfl, _, hkx, _, hky, hlt⟩⟩
    · refine ⟨m, by simp [pick, hc, hy, hlt], hm, ?_, hself, .inl rfl⟩
      intro x hx' y hy' hxy
      obtain rfl := Option.some.inj (hkx.symm.trans hx')
      obtain rfl := Option.some.inj (hky.symm.trans hy')
      exact hlt hxy
  · refine ⟨m, by simp [pick, hc], hm, ?_, hself, .inl rfl⟩
    intro x hx
    simp only [keyAt, List.getElem?_eq_none (Nat.le_of_not_lt hc)] at hx
    cases hx

omit [DecidableEq P] in
variable (comp) in
/-- The two comparisons of one round of `sift_down` end at `i` or at a child before `i`; no child
is before their choice. -/
theorem pick_pick_spec {i : Nat} (hi : i < h.data.length) :
    ∃ m s, h.pick comp h.data.length (left i) i = some m ∧
      h.pick comp h.data.length (right i) m = some s ∧ s < h.data.length ∧
      (∀ c, 0 < c → parent c = i →
        HeapOrder.NLt (Before comp) h.keyAt c s) ∧
      (s = i ∨ 0 < s ∧ parent s = i ∧ ∃ x ∈ h.keyAt s, ∃ y ∈ h.keyAt i, comp x y = true) := by
  obtain ⟨m, hm, hml, hlm, -, hmi⟩ := pick_spec comp (h := h) (c := left i) hi
  obtain ⟨s, hs, hsl, hrs, hms, hsm⟩ := pick_spec comp (h := h) (c := right i) hml
  have hmsome : (h.keyAt m).isSome := by simp [keyAt, hml]
  refine ⟨m, s, hm, hs, hsl, fun c hc hci => ?_, ?_⟩
  · rcases child_iff.1 ⟨hc, hci⟩ with rfl | rfl
    · exact hlm.trans hms hmsome
    · exact hrs
  · have hleft := (child_iff (c := left i)).2 (.inl rfl)
    have hright := (child_iff (c := right i)).2 (.inr rfl)
    rcases hsm with rfl | ⟨rfl, x, hx, y, hy, hxy⟩
    · rcases hmi with rfl | ⟨rfl, hlt⟩
      · exact .inl rfl
      · exact .inr ⟨hleft.1, hleft.2, hlt⟩
    · refine .inr ⟨hright.1, hright.2, x, hx, ?_⟩
      rcases hmi with rfl | ⟨rfl, x', hx', y', hy', hxy'⟩
      · exact ⟨y, hy, hxy⟩
      · obtain rfl := Option.some.inj (hy.symm.trans hx')
        exact ⟨y', hy', IsTrans.trans (r := Before comp) _ _ _ hxy hxy'⟩

/-- `sift_down` restores the order below a hole: from a hole open on both sides it leaves one that
is open only upwards at the same position, from a hole open only downwards it leaves a heap. -/
theorem siftDownLoop_spec {fuel : Nat} :
    ∀ {h : IntrusiveHeap P K} {i : Nat}, h.data.length < i + fuel → i < h.data.length →
      Indexed h → HeapOrder.Hole (Before comp) parent h.keyAt i →
      ∃ h', siftDownLoop comp h.data.length fuel h i = some h' ∧ Indexed h' ∧
        Rearranged h h' ∧ HeapOrder.UpHole (Before comp) parent h'.keyAt i ∧
        (HeapOrder.DownHole (Before comp) parent h.keyAt i → InOrder comp h') := by
  induction fuel with
  | zero => intro h i hf hi; omega
  | succ fuel ih =>
    intro h i hf hi hv ho
    obtain ⟨m, s, hm, hs, hsl, hmin, hcase⟩ := pick_pick_spec comp hi
    simp only [siftDownLoop, hm, hs, Option.bind_eq_bind, Option.bind_some]
    by_cases hsi : s = i
    · subst hsi
      exact ⟨h, by rw [if_pos rfl], hv, .refl h, ho.upHole hmin,
        fun hd => inOrder_iff.2 (hd.ordered hmin)⟩
    · obtain rfl | ⟨hs0, hps, x, hx, y, hy, hxy⟩ := hcase
      · exact absurd rfl hsi
      · have his : i < s := hps ▸ parent_lt hs0
        obtain ⟨h₁, hsw, hv₁, hr₁, hk₁⟩ := swapNode_spec hv hi hsl
        have hd₁ := ho.swap (fun _ => parent_lt) hs0 hps hx hy hxy hmin
        rw [← hk₁] at hd₁
        have hlen : h₁.data.length = h.data.length := hr₁.perm.length_eq
        obtain ⟨h₂, hs₂, hv₂, hr₂, -, hin⟩ :=
          ih (h := h₁) (i := s) (by omega) (by omega) hv₁ hd₁.hole
        refine ⟨h₂, ?_, hv₂, hr₁.trans hr₂, ?_, fun _ => hin hd₁⟩
        · rw [if_neg hsi, hsw, ← hs₂, hlen]
          rfl
        · have hord := inOrder_iff.1 (hin hd₁)
          exact (hord.hole (fun _ => parent_lt) keyAt_dense i).upHole
            fun c hc hci => hci ▸ hord c hc

/-- `sift_down` ends and moves what is out of order at `i` away from below it; the rest of the
array is kept in order, and when nothing was wrong above `i` the result is in order everywhere. -/
theorem siftDown_spec {i : Nat} (hi : i < h.data.length) (hv : Indexed h)
    (ho : HeapOrder.Hole (Before comp) parent h.keyAt i) :
    ∃ h', h.siftDown comp i = some h' ∧ Indexed h' ∧ Rearranged h h' ∧
      HeapOrder.UpHole (Before comp) parent h'.keyAt i ∧
      (HeapOrder.DownHole (Before comp) parent h.keyAt i → InOrder comp h') :=
  siftDownLoop_spec (by omega) hi hv ho

/-! ## The operations -/

/-- `h'` is `h` with `x` taken out. -/
structure Removed (h : IntrusiveHeap P K) (x : P) (h' : IntrusiveHeap P K) : Prop where
  perm : (x :: h'.data).Perm h.data
  key : ∀ p, (h'.node p).key = (h.node p).key
  index : (h'.node x).heapIndex = -1
  off : ∀ p, p ∉ h.data → h'.node p = h.node p

omit [DecidableEq P] [IsStrictWeakOrder K (Before comp)] in
/-- Rearranging the rest after a removal is still a removal. -/
theorem Removed.rearranged {x : P} (h₁ : Removed h x h') (hx : x ∉ h'.data)
    (h₂ : Rearranged h' h'') : Removed h x h'' where
  perm := (h₂.perm.cons x).trans h₁.perm
  key p := (h₂.key p).trans (h₁.key p)
  index := by rw [h₂.off x hx, h₁.index]
  off p hp :=
    (h₂.off p fun hm => hp (h₁.perm.mem_iff.1 (List.mem_cons_of_mem _ hm))).trans (h₁.off p hp)

omit [IsStrictWeakOrder K (Before comp)] in
/-- The swap of `remove_at`, or its absence, brings the node to the last position. -/
theorem swapLast_spec (hv : Indexed h) {idx : Nat} (hi : idx < h.data.length) :
    ∃ h₁, (if idx ≠ h.data.length - 1 then h.swapNode idx (h.data.length - 1) else some h) =
      some h₁ ∧
      Indexed h₁ ∧ Rearranged h h₁ ∧ h₁.data[h.data.length - 1]? = some h.data[idx] ∧
      ∀ j, j ≠ idx → j < h.data.length - 1 → h₁.keyAt j = h.keyAt j := by
  have hlast : h.data.length - 1 < h.data.length := by omega
  by_cases hne : idx ≠ h.data.length - 1
  · obtain ⟨h₁, hs, hv₁, hr₁, hk₁⟩ := swapNode_spec hv hi hlast
    refine ⟨h₁, by rw [if_pos hne, hs], hv₁, hr₁, ?_, fun j hj hjl => ?_⟩
    · have ha : h.data[idx]? = some h.data[idx] := List.getElem?_eq_getElem hi
      have hb : h.data[h.data.length - 1]? = some h.data[h.data.length - 1] :=
        List.getElem?_eq_getElem hlast
      simp only [swapNode, ha, hb, Option.bind_eq_bind, Option.bind_some, Option.some.injEq] at hs
      rw [← hs]
      simp [setIndex, hlast]
    · rw [hk₁, Function.comp_apply, Equiv.swap_apply_of_ne_of_ne hj (by omega)]
  · refine ⟨h, by rw [if_neg hne], hv, .refl h, ?_, fun _ _ _ => rfl⟩
    simp [← not_not.1 hne, hi]

omit [IsStrictWeakOrder K (Before comp)] in
/-- Before its sifts `remove_at` has taken the node out, and only `idx` has another key. -/
theorem detach_spec (hv : Indexed h) {idx : Nat} (hi : idx < h.data.length) :
    ∃ h', h.detach idx = some h' ∧ Indexed h' ∧ Removed h h.data[idx] h' ∧
      ∀ j, j ≠ idx → ∀ k ∈ h'.keyAt j, k ∈ h.keyAt j := by
  have hx : h.data[idx]? = some h.data[idx] := List.getElem?_eq_getElem hi
  obtain ⟨h₁, hs, hv₁, hr₁, hat, hk₁⟩ := swapLast_spec hv hi
  have hlen : h₁.data.length = h.data.length := hr₁.perm.length_eq
  have hsplit : h₁.data = h₁.data.dropLast ++ [h.data[idx]] := by
    have hne : h₁.data ≠ [] := List.ne_nil_of_length_pos (by omega)
    have hgl : h₁.data.getLast hne = h.data[idx] := by
      rw [List.getLast_eq_getElem]
      have := List.getElem?_eq_some_iff.1 hat
      simpa only [hlen] using this.2
    rw [← hgl]
    exact (List.dropLast_append_getLast hne).symm
  have hgone : h.data[idx] ∉ h₁.data.dropLast := by
    intro hm
    have hnodup : (h₁.data.dropLast ++ [h.data[idx]]).Nodup := hsplit ▸ hv₁.nodup
    exact (List.nodup_append.1 hnodup).2.2 _ hm _ (List.mem_singleton_self _) rfl
  have hdrop : ∀ {j : Nat} {p : P}, h₁.data.dropLast[j]? = some p →
      h₁.data[j]? = some p ∧ j < h.data.length - 1 := by
    intro j p hj
    obtain ⟨hjl, -⟩ := List.getElem?_eq_some_iff.1 hj
    refine ⟨?_, by simpa [hlen] using hjl⟩
    rw [hsplit, List.getElem?_append_left hjl, hj]
  have hd : h.detach idx =
      some ({ h₁ with data := h₁.data.dropLast }.setIndex h.data[idx] (-1)) := by
    simp only [detach, hx, hs, Option.bind_eq_bind, Option.bind_some]
  refine ⟨_, hd, fun j p hj => ?_, ⟨?_, fun p => ?_, setIndex_node_self _ _, fun p hp => ?_⟩,
    fun j hj k hk => ?_⟩
  · simp only [setIndex_data] at hj
    have hne : p ≠ h.data[idx] := fun he => hgone (he ▸ List.mem_of_getElem? hj)
    rw [setIndex_node_ne _ hne]
    exact hv₁ j p (hdrop hj).1
  · refine .trans ?_ hr₁.perm
    simp only [setIndex_data]
    conv_rhs => rw [hsplit]
    exact (List.perm_append_singleton _ _).symm
  · rw [setIndex_key]
    exact hr₁.key p
  · have hne : p ≠ h.data[idx] := fun he => hp (he ▸ List.getElem_mem hi)
    rw [setIndex_node_ne _ hne]
    exact hr₁.off p hp
  · obtain ⟨p, hp, rfl⟩ := Option.map_eq_some_iff.1 hk
    simp only [setIndex_data] at hp
    obtain ⟨hp₁, hjl⟩ := hdrop hp
    rw [← hk₁ j hj hjl, setIndex_key]
    simp [keyAt, hp₁]

/-- `remove_at` takes out the node at `idx` and leaves a heap. -/
theorem removeAt_spec (hv : Valid comp h) {idx : Nat} (hi : idx < h.data.length) :
    ∃ h', h.removeAt comp idx = some h' ∧ Valid comp h' ∧ Removed h h.data[idx] h' := by
  obtain ⟨h₂, hs, hv₂, hrem, hkeys⟩ := detach_spec hv.index hi
  simp only [removeAt, hs, Option.bind_eq_bind, Option.bind_some]
  have hgone : h.data[idx] ∉ h₂.data :=
    (List.nodup_cons.1 (hrem.perm.nodup_iff.2 hv.index.nodup)).1
  have hord := inOrder_iff.1 hv.order
  by_cases hlt : idx < h₂.data.length
  · have hhole : HeapOrder.Hole (Before comp) parent h₂.keyAt idx :=
      (hord.hole (fun _ => parent_lt) keyAt_dense idx).mono (fun _ => parent_lt) hkeys
    obtain ⟨h₃, hd, hv₃, hr₃, hup, -⟩ := siftDown_spec hlt hv₂ hhole
    obtain ⟨h₄, hu, hv₄, hr₄⟩ := siftUp_spec (by rw [hr₃.perm.length_eq]; exact hlt) hv₃ hup
    exact ⟨h₄, by simp only [if_pos hlt, hd, Option.bind_some, hu], hv₄,
      hrem.rearranged hgone (hr₃.trans hr₄)⟩
  · refine ⟨h₂, by rw [if_neg hlt], ⟨inOrder_iff.2 (hord.mono fun j k hk => ?_), hv₂⟩, hrem⟩
    refine hkeys j ?_ k hk
    rintro rfl
    simp [keyAt, List.getElem?_eq_none (Nat.le_of_not_lt hlt)] at hk

omit [DecidableEq P] [IsStrictWeakOrder K (Before comp)] in
/-- A node with index `-1` is not in the heap. -/
theorem Indexed.not_mem (hv : Indexed h) {x : P} (hx : (h.node x).heapIndex = -1) :
    x ∉ h.data := by
  intro hm
  obtain ⟨i, hi⟩ := List.mem_iff_getElem?.1 hm
  have := hv i x hi
  omega

omit [DecidableEq P] [IsStrictWeakOrder K (Before comp)] in
/-- A position after `push_back` is the new one or an old one. -/
theorem getElem?_concat_cases {l : List P} {x p : P} {i : Nat} (hp : (l ++ [x])[i]? = some p) :
    i = l.length ∧ p = x ∨ i < l.length ∧ l[i]? = some p := by
  rcases Nat.lt_trichotomy i l.length with hi | hi | hi
  · exact .inr ⟨hi, by rwa [List.getElem?_append_left hi] at hp⟩
  · subst hi
    exact .inl ⟨rfl, by simpa using hp.symm⟩
  · simp [List.getElem?_append_right (Nat.le_of_lt hi), Nat.sub_ne_zero_of_lt hi] at hp

omit [IsStrictWeakOrder K (Before comp)] in
/-- `push_back` of a new node, with its position as its index. -/
theorem Indexed.concat (hv : Indexed h) {x : P} (hx : x ∉ h.data) :
    Indexed ({ h with data := h.data ++ [x] }.setIndex x h.data.length) := by
  intro i p hp
  rcases getElem?_concat_cases hp with ⟨rfl, rfl⟩ | ⟨hi, hp⟩
  · exact setIndex_node_self _ _
  · have hne : p ≠ x := fun he => hx (he ▸ List.mem_of_getElem? hp)
    rw [setIndex_node_ne _ hne]
    exact hv i p hp

/-- `push` adds the node, at the key it has. -/
theorem push_spec (hv : Valid comp h) {x : P} (hx : (h.node x).heapIndex = -1) :
    ∃ h', h.push comp x = some h' ∧ Valid comp h' ∧ h'.data.Perm (x :: h.data) ∧
      (∀ p, (h'.node p).key = (h.node p).key) ∧
      ∀ p, p ∉ x :: h.data → h'.node p = h.node p := by
  have hv₁ := hv.index.concat (hv.index.not_mem hx)
  have hhole := ((inOrder_iff.1 hv.order).hole (fun _ => parent_lt) keyAt_dense
    h.data.length).mono (b := ({ h with data := h.data ++ [x] }.setIndex x h.data.length).keyAt)
    (fun _ => parent_lt) fun j hj k hk => by
      obtain ⟨p, hp, rfl⟩ := Option.map_eq_some_iff.1 hk
      rcases getElem?_concat_cases hp with ⟨rfl, -⟩ | ⟨-, hp⟩
      · exact absurd rfl hj
      · simp [keyAt, hp]
  have hup := hhole.upHole fun c hc hci k hk => by
    obtain ⟨p, hp, rfl⟩ := Option.map_eq_some_iff.1 hk
    have := parent_lt hc
    rcases getElem?_concat_cases hp with ⟨rfl, -⟩ | ⟨hlt, -⟩ <;> omega
  obtain ⟨h₂, hs, hv₂, hr₂⟩ := siftUp_spec (by simp) hv₁ hup
  refine ⟨h₂, by rw [push, if_pos hx]; exact hs, hv₂, ?_, fun p => ?_, fun p hp => ?_⟩
  · exact hr₂.perm.trans (List.perm_append_singleton _ _)
  · rw [hr₂.key, setIndex_key]
  · have hp' : p ∉ h.data ++ [x] := by simpa [or_comm] using hp
    have hne : p ≠ x := fun he => hp (he ▸ List.mem_cons_self)
    rw [hr₂.off p hp', setIndex_node_ne _ hne]

/-- `pop` answers the root and takes it out. -/
theorem pop_spec (hv : Valid comp h) (hne : h.data ≠ []) :
    ∃ x h', h.top = some x ∧ h.pop comp = some (x, h') ∧ Valid comp h' ∧ Removed h x h' := by
  have hi : 0 < h.data.length := List.length_pos_of_ne_nil hne
  obtain ⟨h', hs, hv', hrem⟩ := removeAt_spec hv hi
  have hx : h.data[0]? = some h.data[0] := List.getElem?_eq_getElem hi
  exact ⟨h.data[0], h', hx,
    by simp only [pop, hx, hs, Option.bind_eq_bind, Option.bind_some], hv', hrem⟩

omit [IsStrictWeakOrder K (Before comp)] in
/-- `setKey` changes one key. -/
theorem setKey_key (x y : P) (k : K) :
    ((h.setKey x k).node y).key = Function.update (fun p => (h.node p).key) x k y := by
  by_cases hy : y = x
  · subst hy; simp [setKey]
  · simp [setKey, hy]

omit [IsStrictWeakOrder K (Before comp)] in
@[simp] theorem setKey_heapIndex (x y : P) (k : K) :
    ((h.setKey x k).node y).heapIndex = (h.node y).heapIndex := by
  by_cases hy : y = x
  · subst hy; simp [setKey]
  · simp [setKey, hy]

omit [IsStrictWeakOrder K (Before comp)] in
@[simp] theorem setKey_data (x : P) (k : K) : (h.setKey x k).data = h.data := rfl

omit [IsStrictWeakOrder K (Before comp)] in
/-- Keys do not matter for the stored indices. -/
theorem Indexed.setKey (hv : Indexed h) (x : P) (k : K) : Indexed (h.setKey x k) := by
  intro i p hp
  rw [setKey_heapIndex]
  exact hv i p hp

/-- `update` restores the heap after a write to the key of one of its nodes. -/
theorem update_spec (hv : Valid comp h) {x : P} (hx : x ∈ h.data) (k : K) :
    ∃ h', (h.setKey x k).update comp x = some h' ∧ Valid comp h' ∧
      Rearranged (h.setKey x k) h' := by
  obtain ⟨i, hi⟩ := List.mem_iff_getElem?.1 hx
  obtain ⟨hil, -⟩ := List.getElem?_eq_some_iff.1 hi
  have hidx : ((h.setKey x k).node x).heapIndex = i := by
    simpa [setKey] using hv.index i x hi
  have hv₁ := hv.index.setKey x k
  have hhole := ((inOrder_iff.1 hv.order).hole (fun _ => parent_lt) keyAt_dense i).mono
    (b := (h.setKey x k).keyAt) (fun _ => parent_lt) fun j hj k' hk' => by
      obtain ⟨p, hp, rfl⟩ := Option.map_eq_some_iff.1 hk'
      have hne : p ≠ x := by
        rintro rfl
        exact hj (hv₁.inj hp hi)
      simp only [keyAt, Option.mem_def, Option.map_eq_some_iff]
      exact ⟨p, hp, by simp [setKey, hne]⟩
  have hpl : parent i < (h.setKey x k).data.length := by
    show (i - 1) / 2 < h.data.length
    omega
  have hxk : (h.setKey x k).data[i]? = some x := hi
  have hy : (h.setKey x k).data[parent i]? = some (h.setKey x k).data[parent i] :=
    List.getElem?_eq_getElem hpl
  have hkx : (h.setKey x k).keyAt i = some ((h.setKey x k).node x).key := by
    rw [keyAt, hxk, Option.map_some]
  have hky : (h.setKey x k).keyAt (parent i) =
      some ((h.setKey x k).node (h.setKey x k).data[parent i]).key := by
    rw [keyAt, hy, Option.map_some]
  have hnil : ¬ (i : Int) = -1 := by omega
  simp only [update, hidx, if_neg hnil, Int.toNat_natCast, hy, Option.bind_eq_bind,
    Option.bind_some]
  by_cases hlt : (h.setKey x k).less comp x (h.setKey x k).data[parent i] = true
  · have hi0 : 0 < i := by
      refine Nat.pos_of_ne_zero ?_
      rintro rfl
      obtain he := Option.some.inj (hy.symm.trans hxk)
      rw [he] at hlt
      exact irrefl (r := Before comp) _ hlt
    rw [if_pos hlt]
    exact siftUp_spec (h := h.setKey x k) hil hv₁ (hhole.upHole_of_lt hi0 hkx hky hlt)
  · rw [if_neg hlt]
    obtain ⟨h', hs, hv', hr', -, hin⟩ := siftDown_spec (h := h.setKey x k) hil hv₁ hhole
    refine ⟨h', hs, ⟨hin (hhole.downHole fun _ => ?_), hv'⟩, hr'⟩
    intro kx hkx' ky hky' hc
    obtain rfl := Option.some.inj (hkx.symm.trans hkx')
    obtain rfl := Option.some.inj (hky.symm.trans hky')
    exact hlt hc

omit [DecidableEq P] in
/-- No node of the heap compares less than the root. -/
theorem top_min (hv : Valid comp h) {x : P} (hx : h.top = some x) :
    ∀ y ∈ h.data, h.less comp y x = false := by
  intro y hy
  obtain ⟨i, hi⟩ := List.mem_iff_getElem?.1 hy
  have hroot := (inOrder_iff.1 hv.order).root (fun _ => parent_lt) keyAt_dense i
  have hx0 : h.data[0]? = some x := hx
  exact Bool.eq_false_iff.2 (hroot _ (by simp [keyAt, hi]) _ (by simp [keyAt, hx0]))

end

/-! ## Runs -/

section
variable {P K : Type} [DecidableEq P] {comp : K → K → Bool} {node : P → HeapNode K}
  {h h' : IntrusiveHeap P K}

/-- A call on the heap: `push` of a node at key `k`, `pop` with its answer, and `update` of a node
after its key became `k`. -/
inductive Event (P K : Type)
  | push (x : P) (k : K)
  | pop (x : P)
  | update (x : P) (k : K)
  deriving DecidableEq

/-- The nodes pushed and not yet popped. -/
def held (tr : List (Event P K)) : List P :=
  tr.foldl (fun l e => match e with
    | .push x _ => x :: l
    | .pop x => l.erase x
    | .update _ _ => l) []

/-- The key of each node after the calls of `tr`, from the keys in `node`. -/
def keyOf (node : P → HeapNode K) (tr : List (Event P K)) : P → K :=
  tr.foldl (fun f e => match e with
    | .push x k => Function.update f x k
    | .pop _ => f
    | .update x k => Function.update f x k) fun x => (node x).key

/-- Sequences of calls that keep to the callers' side: `push` of nodes whose index is `-1`, `pop`
of a heap that is not empty, `update` of a node of the heap whose key alone was written. -/
inductive Run (comp : K → K → Bool) (h₀ : IntrusiveHeap P K) :
    List (Event P K) → IntrusiveHeap P K → Prop
  | nil : Run comp h₀ [] h₀
  | push {tr h h' x k} : Run comp h₀ tr h → (h.node x).heapIndex = -1 →
      (h.setKey x k).push comp x = some h' → Run comp h₀ (tr ++ [.push x k]) h'
  | pop {tr h h' x} : Run comp h₀ tr h → h.data ≠ [] → h.pop comp = some (x, h') →
      Run comp h₀ (tr ++ [.pop x]) h'
  | update {tr h h' x k} : Run comp h₀ tr h → x ∈ h.data →
      (h.setKey x k).update comp x = some h' → Run comp h₀ (tr ++ [.update x k]) h'

/-- What the heap is after the calls of `tr`. -/
structure Refines (comp : K → K → Bool) (node : P → HeapNode K) (tr : List (Event P K))
    (h : IntrusiveHeap P K) : Prop where
  valid : Valid comp h
  contents : h.data.Perm (held tr)
  keys : ∀ x, (h.node x).key = keyOf node tr x
  popped : ∀ x, .pop x ∈ tr → x ∉ h.data → (h.node x).heapIndex = -1

@[simp] theorem held_push (tr : List (Event P K)) (x : P) (k : K) :
    held (tr ++ [.push x k]) = x :: held tr := by simp [held]

@[simp] theorem held_pop (tr : List (Event P K)) (x : P) :
    held (tr ++ [.pop x]) = (held tr).erase x := by simp [held]

@[simp] theorem held_update (tr : List (Event P K)) (x : P) (k : K) :
    held (tr ++ [.update x k]) = held tr := by simp [held]

@[simp] theorem keyOf_push (tr : List (Event P K)) (x : P) (k : K) :
    keyOf node (tr ++ [.push x k]) = Function.update (keyOf node tr) x k := by simp [keyOf]

@[simp] theorem keyOf_pop (tr : List (Event P K)) (x : P) :
    keyOf node (tr ++ [.pop x]) = keyOf node tr := by simp [keyOf]

@[simp] theorem keyOf_update (tr : List (Event P K)) (x : P) (k : K) :
    keyOf node (tr ++ [.update x k]) = Function.update (keyOf node tr) x k := by simp [keyOf]

/-- A write to the key of a node outside the heap keeps the invariant. -/
theorem Valid.setKey (hv : Valid comp h) {x : P} (hx : x ∉ h.data) (k : K) :
    Valid comp (h.setKey x k) where
  order i p q hi hp hq := by
    have hpx : p ≠ x := fun he => hx (he ▸ List.mem_of_getElem? hp)
    have hqx : q ≠ x := fun he => hx (he ▸ List.mem_of_getElem? hq)
    simpa [less, IntrusiveHeap.setKey, hpx, hqx] using hv.order i p q hi hp hq
  index := hv.index.setKey x k

variable [IsStrictWeakOrder K (Before comp)]

/-- `push` of a node that is in no heap refines the event that puts it into the reference. -/
theorem Refines.push {tr : List (Event P K)} (hr : Refines comp node tr h) {x : P} {k : K}
    (hx : (h.node x).heapIndex = -1) :
    ∃ h', (h.setKey x k).push comp x = some h' ∧ Refines comp node (tr ++ [.push x k]) h' := by
  obtain ⟨h', hs, hv', hp, hk, hoff⟩ :=
    push_spec (hr.valid.setKey (hr.valid.index.not_mem hx) k) (x := x) (by simpa using hx)
  refine ⟨h', hs, hv', ?_, fun y => ?_, fun y hy hny => ?_⟩
  · rw [held_push]
    exact hp.trans (hr.contents.cons x)
  · rw [hk, setKey_key, keyOf_push]
    exact congrFun (congrArg (fun f => Function.update f x k) (funext hr.keys)) y
  · have hny' : y ∉ x :: h.data := fun hm => hny (hp.mem_iff.2 hm)
    have hyx : y ≠ x := fun he => hny' (he ▸ List.mem_cons_self)
    rw [hoff y hny', setKey_heapIndex]
    refine hr.popped y ?_ fun hm => hny' (List.mem_cons_of_mem _ hm)
    simpa using hy

/-- `pop` of a non-empty heap answers the top and refines its removal from the reference. -/
theorem Refines.pop {tr : List (Event P K)} (hr : Refines comp node tr h) (hne : h.data ≠ []) :
    ∃ x h', h.top = some x ∧ h.pop comp = some (x, h') ∧
      Refines comp node (tr ++ [.pop x]) h' := by
  obtain ⟨x, h', ht, hs, hv', hrem⟩ := pop_spec hr.valid hne
  refine ⟨x, h', ht, hs, hv', ?_, fun y => ?_, fun y hy hny => ?_⟩
  · rw [held_pop]
    have := (hrem.perm.trans hr.contents).erase x
    rwa [List.erase_cons_head] at this
  · rw [hrem.key, keyOf_pop, hr.keys]
  · by_cases hyx : y = x
    · subst hyx
      exact hrem.index
    · have hny' : y ∉ h.data := fun hm =>
        hny ((List.mem_cons.1 (hrem.perm.mem_iff.2 hm)).resolve_left hyx)
      rw [hrem.off y hny']
      refine hr.popped y ?_ hny'
      simpa [hyx] using hy

/-- `update` after a change of key refines the change in the reference. -/
theorem Refines.update {tr : List (Event P K)} (hr : Refines comp node tr h) {x : P} {k : K}
    (hx : x ∈ h.data) :
    ∃ h', (h.setKey x k).update comp x = some h' ∧
      Refines comp node (tr ++ [.update x k]) h' := by
  obtain ⟨h', hs, hv', hre⟩ := update_spec hr.valid hx k
  refine ⟨h', hs, hv', ?_, fun y => ?_, fun y hy hny => ?_⟩
  · rw [held_update]
    exact hre.perm.trans hr.contents
  · rw [hre.key, setKey_key, keyOf_update]
    exact congrFun (congrArg (fun f => Function.update f x k) (funext hr.keys)) y
  · have hny' : y ∉ h.data := fun hm => hny (hre.perm.mem_iff.2 hm)
    rw [hre.off y hny', setKey_heapIndex]
    refine hr.popped y ?_ hny'
    simpa using hy

/-- Every run keeps the heap a priority queue. -/
theorem Run.refines {tr : List (Event P K)} (hrun : Run comp ⟨node, []⟩ tr h) :
    Refines comp node tr h := by
  induction hrun with
  | nil =>
    exact ⟨⟨fun i x y _ hx => by simp at hx, fun i x hx => by simp at hx⟩, .refl _,
      fun _ => rfl, fun x hx => by simp at hx⟩
  | push _ hx hs ih =>
    obtain ⟨_, hs', hr⟩ := ih.push hx
    obtain rfl := Option.some.inj (hs.symm.trans hs')
    exact hr
  | pop _ hne hs ih =>
    obtain ⟨_, _, -, hs', hr⟩ := ih.pop hne
    obtain ⟨rfl, rfl⟩ := Prod.mk.inj (Option.some.inj (hs.symm.trans hs'))
    exact hr
  | update _ hx hs ih =>
    obtain ⟨_, hs', hr⟩ := ih.update hx
    obtain rfl := Option.some.inj (hs.symm.trans hs')
    exact hr

/-- `IntrusiveHeap` is a priority queue with a correct position index after every sequence of
calls: `data_` holds exactly the pushed and not yet popped nodes, each once and at the key its user
wrote last; no node compares less than its parent; `heap_index_` is the node's position, and `-1`
for a popped node; no call fails; and `top` and `pop` answer a node that no other one compares less
than. -/
theorem run_priorityQueue {tr : List (Event P K)} (hrun : Run comp ⟨node, []⟩ tr h) :
    h.data.Perm (held tr) ∧ h.data.Nodup ∧ (∀ x, (h.node x).key = keyOf node tr x) ∧
    InOrder comp h ∧
    (∀ x ∈ h.data, ∃ i : Nat, (h.node x).heapIndex = i ∧ h.data[i]? = some x) ∧
    (∀ x, .pop x ∈ tr → x ∉ h.data → (h.node x).heapIndex = -1) ∧
    (∀ x k, (h.node x).heapIndex = -1 → ((h.setKey x k).push comp x).isSome) ∧
    (∀ x k, x ∈ h.data → ((h.setKey x k).update comp x).isSome) ∧
    (h.data ≠ [] → ∃ x h', h.top = some x ∧ h.pop comp = some (x, h') ∧
      (x :: h'.data).Perm h.data ∧ ∀ y ∈ h.data, h.less comp y x = false) := by
  have hr := hrun.refines
  refine ⟨hr.contents, hr.valid.index.nodup, hr.keys, hr.valid.order, fun x hx => ?_, hr.popped,
    fun x k hx => ?_, fun x k hx => ?_, fun hne => ?_⟩
  · obtain ⟨i, hi⟩ := List.mem_iff_getElem?.1 hx
    exact ⟨i, hr.valid.index i x hi, hi⟩
  · obtain ⟨h', hs, -⟩ := hr.push (k := k) hx
    exact hs ▸ rfl
  · obtain ⟨h', hs, -⟩ := hr.update (k := k) hx
    exact hs ▸ rfl
  · obtain ⟨x, h', ht, hs, -, hrem⟩ := pop_spec hr.valid hne
    exact ⟨x, h', ht, hs, hrem.perm, top_min hr.valid ht⟩

end

/-- Three calls on an integer heap: an `update` that lets node `0` overtake node `1`, and the `pop`
that answers it. -/
theorem run_priorityQueue_int :
    ∃ h : IntrusiveHeap Nat Int, h.data = [1] ∧
      h.data.Perm (held [.push 0 5, .push 1 3, .update 0 (-1), .pop 0]) ∧
      InOrder (fun a b => decide (a < b)) h := by
  have hlt : IsStrictWeakOrder Int (Before fun a b => decide (a < b)) :=
    { irrefl := fun a => by simp
      trans := fun a b c => by simpa using Int.lt_trans
      incomp_trans := fun a b c => by simp only [Before, decide_eq_true_eq]; omega }
  have hrun : ∃ h : IntrusiveHeap Nat Int, h.data = [1] ∧
      Run (fun a b => decide (a < b)) ⟨fun _ => ⟨0, -1⟩, []⟩
        [.push 0 5, .push 1 3, .update 0 (-1), .pop 0] h :=
    ⟨_, rfl, .pop (.update (.push (.push .nil rfl rfl) rfl rfl) (by decide) rfl) (by decide) rfl⟩
  obtain ⟨h, hd, hrun⟩ := hrun
  have hp := run_priorityQueue hrun
  exact ⟨h, hd, hp.1, hp.2.2.2.1⟩

end IntrusiveHeap

end RockCoro
