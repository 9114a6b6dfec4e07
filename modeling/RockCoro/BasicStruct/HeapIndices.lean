import RockCoro.BasicStruct.ObjectPool
import Mathlib.Algebra.Ring.Int.Defs

/-!
# Indices of `IntrusiveHeap`

The same functions as in `MinHeap`, with the indices as the source has them: values of type `int`,
whose arithmetic is undefined when it overflows, and which are negative for a `heap_index_` of `-1`.
`sift_down` computes both children before it compares them with the size, so it overflows from the
position `2 ^ 30 - 1` on. Below that the functions are those of `MinHeap`, which is how the heap
order that is proved there becomes one of `removeAtInt`.
-/

namespace RockCoro.IntrusiveHeap

/-- The result of an operation on `int`. -/
def checkedInt (z : ℤ) : Option ℤ := if -2 ^ 31 ≤ z ∧ z < 2 ^ 31 then some z else none

section
variable {P K : Type}

/-- `parent`; the division rounds towards zero. -/
def parentInt (i : ℤ) : Option ℤ := do
  let d ← checkedInt (i - 1)
  checkedInt (d.tdiv 2)

/-- `left`; both operations can overflow. -/
def leftInt (i : ℤ) : Option ℤ := do
  let d ← checkedInt (i * 2)
  checkedInt (d + 1)

/-- `right`; both operations can overflow. -/
def rightInt (i : ℤ) : Option ℤ := do
  let d ← checkedInt (i * 2)
  checkedInt (d + 2)

/-- `(int)data_.size()`. -/
def sizeInt (h : IntrusiveHeap P K) : ℤ := (h.data.length : ℤ).bmod (2 ^ 32)

/-- `data_[i]`. -/
def entry (h : IntrusiveHeap P K) (i : ℤ) : Option P :=
  if 0 ≤ i then h.data[i.toNat]? else none

variable [DecidableEq P]

/-- `swap_node` at indices of type `int`. -/
def swapNodeInt (h : IntrusiveHeap P K) (i j : ℤ) : Option (IntrusiveHeap P K) := do
  let a ← h.entry i
  let b ← h.entry j
  some (({ h with data := (h.data.set i.toNat b).set j.toNat a }.setIndex b i).setIndex a j)

variable (comp : K → K → Bool)

/-- The loop of `sift_up` at indices of type `int`. -/
def siftUpIntLoop : ℕ → IntrusiveHeap P K → ℤ → Option (IntrusiveHeap P K)
  | 0, _, _ => none
  | fuel + 1, h, i =>
    if 0 < i then do
      let p ← parentInt i
      let x ← h.entry i
      let y ← h.entry p
      if h.less comp x y then do
        let h ← h.swapNodeInt i p
        siftUpIntLoop fuel h p
      else some h
    else some h

/-- `sift_up`; the loop runs at most once for each position up to `i`. -/
def siftUpInt (h : IntrusiveHeap P K) (i : ℤ) : Option (IntrusiveHeap P K) :=
  siftUpIntLoop comp (i.toNat + 1) h i

/-- The smaller of `smallest` and child `c`, when `c` lies inside the array of size `n`. -/
def pickInt (h : IntrusiveHeap P K) (n c smallest : ℤ) : Option ℤ :=
  if c < n then do
    let x ← h.entry c
    let y ← h.entry smallest
    some (if h.less comp x y then c else smallest)
  else some smallest

/-- The loop of `sift_down`; both children are computed before they are compared with the size. -/
def siftDownIntLoop (n : ℤ) : ℕ → IntrusiveHeap P K → ℤ → Option (IntrusiveHeap P K)
  | 0, _, _ => none
  | fuel + 1, h, i => do
    let l ← leftInt i
    let r ← rightInt i
    let smallest ← h.pickInt comp n l i
    let smallest ← h.pickInt comp n r smallest
    if smallest = i then some h
    else do
      let h ← h.swapNodeInt i smallest
      siftDownIntLoop n fuel h smallest

/-- `sift_down`, with one round for each position at most. -/
def siftDownInt (h : IntrusiveHeap P K) (i : ℤ) : Option (IntrusiveHeap P K) :=
  siftDownIntLoop comp h.sizeInt (h.data.length + 1) h i

/-- The part of `remove_at` before its sifts. -/
def detachInt (h : IntrusiveHeap P K) (idx : ℤ) : Option (IntrusiveHeap P K) := do
  let last ← checkedInt (h.sizeInt - 1)
  let removed ← h.entry idx
  let h ← (if idx ≠ last then h.swapNodeInt idx last else some h)
  some ({ h with data := h.data.dropLast }.setIndex removed (-1))

/-- `remove_at` at an index of type `int`. -/
def removeAtInt (h : IntrusiveHeap P K) (idx : ℤ) : Option (IntrusiveHeap P K) := do
  let h ← h.detachInt idx
  if idx < h.sizeInt then do
    let h ← h.siftDownInt comp idx
    h.siftUpInt comp idx
  else some h

/-- `push`; the index of the new entry is the size before, converted to `int`. -/
def pushInt (h : IntrusiveHeap P K) (x : P) : Option (IntrusiveHeap P K) :=
  if (h.node x).heapIndex = -1 then
    let idx := h.sizeInt
    ({ h with data := h.data ++ [x] }.setIndex x idx).siftUpInt comp idx
  else none

/-- `pop`. -/
def popInt (h : IntrusiveHeap P K) : Option (P × IntrusiveHeap P K) := do
  let ret ← h.entry 0
  let h ← h.removeAtInt comp 0
  some (ret, h)

/-- `update`, from the stored index of the node. -/
def updateInt (h : IntrusiveHeap P K) (x : P) : Option (IntrusiveHeap P K) :=
  let idx := (h.node x).heapIndex
  if idx = -1 then none
  else do
    let p ← parentInt idx
    let y ← h.entry p
    if h.less comp x y then h.siftUpInt comp idx else h.siftDownInt comp idx

end

/-! ## Where the indices are in range -/

section
variable {P K : Type} {comp : K → K → Bool} {h h' : IntrusiveHeap P K} {i j n : ℕ}

/-- A natural number below `2 ^ 31` is in range of `int`. -/
theorem checkedInt_natCast (hi : i < 2 ^ 31) : checkedInt i = some (i : ℤ) := by
  rw [checkedInt, if_pos (by omega)]

/-- `parent` does not overflow at a position of an array with `int` positions. -/
theorem parentInt_natCast (hi : i < 2 ^ 31) : parentInt i = some (parent i : ℤ) := by
  have hsub : checkedInt ((i : ℤ) - 1) = some ((i : ℤ) - 1) := by
    rw [checkedInt, if_pos (by omega)]
  have hdiv : ((i : ℤ) - 1).tdiv 2 = (parent i : ℤ) := by
    rcases Nat.eq_zero_or_pos i with rfl | hpos
    · rfl
    · rw [Int.tdiv_eq_ediv_of_nonneg (by omega), parent]
      omega
  have hp : parent i < 2 ^ 31 := by
    unfold parent
    omega
  rw [parentInt, hsub, Option.bind_eq_bind, Option.bind_some, hdiv, checkedInt_natCast hp]

/-- `left` does not overflow below `2 ^ 30`. -/
theorem leftInt_natCast (hi : i < 2 ^ 30) : leftInt i = some (left i : ℤ) := by
  have hmul : (i : ℤ) * 2 = (i * 2 : ℕ) := by omega
  have hadd : ((i * 2 : ℕ) : ℤ) + 1 = (left i : ℕ) := by
    rw [left]
    omega
  rw [leftInt, hmul, checkedInt_natCast (by omega), Option.bind_eq_bind, Option.bind_some, hadd]
  exact checkedInt_natCast (by unfold left; omega)

/-- `right` does not overflow below `2 ^ 30 - 1`. -/
theorem rightInt_natCast (hi : i < 2 ^ 30 - 1) : rightInt i = some (right i : ℤ) := by
  have hmul : (i : ℤ) * 2 = (i * 2 : ℕ) := by omega
  have hadd : ((i * 2 : ℕ) : ℤ) + 2 = (right i : ℕ) := by
    rw [right]
    omega
  rw [rightInt, hmul, checkedInt_natCast (by omega), Option.bind_eq_bind, Option.bind_some, hadd]
  exact checkedInt_natCast (by unfold right; omega)

/-- The right child of the position `2 ^ 30 - 1` and of those after it overflows. -/
theorem rightInt_overflow (hi : 2 ^ 30 - 1 ≤ i) : rightInt i = none := by
  rw [rightInt]
  by_cases hmul : (i : ℤ) * 2 < 2 ^ 31
  · rw [checkedInt, if_pos (by omega), Option.bind_eq_bind, Option.bind_some, checkedInt,
      if_neg (by omega)]
  · rw [checkedInt, if_neg (by omega), Option.bind_eq_bind, Option.bind_none]

/-- The conversion of the size to `int` keeps sizes below `2 ^ 31`. -/
theorem sizeInt_eq (hn : h.data.length < 2 ^ 31) : h.sizeInt = h.data.length := by
  unfold sizeInt
  apply Int.bmod_eq_of_le
  · omega
  · omega

@[simp] theorem entry_natCast : h.entry (i : ℤ) = h.data[i]? := by
  rw [entry, if_pos (Int.natCast_nonneg i), Int.toNat_natCast]

variable [DecidableEq P]

/-- At natural positions `swapNodeInt` is `swapNode`. -/
theorem swapNodeInt_natCast : h.swapNodeInt (i : ℤ) (j : ℤ) = h.swapNode i j := by
  simp only [swapNodeInt, entry_natCast, Int.toNat_natCast, swapNode]

/-- The loop of `sift_up` only looks at parents, so it stays below its first position. -/
theorem siftUpIntLoop_natCast {fuel : ℕ} :
    ∀ {h : IntrusiveHeap P K} {i : ℕ}, i < 2 ^ 31 →
      siftUpIntLoop comp fuel h i = siftUpLoop comp fuel h i := by
  induction fuel with
  | zero =>
    intro h i _
    rfl
  | succ fuel ih =>
    intro h i hi
    have hp : parent i < 2 ^ 31 := by
      unfold parent
      omega
    simp only [siftUpIntLoop, siftUpLoop, parentInt_natCast hi, entry_natCast, swapNodeInt_natCast,
      ih hp, Int.natCast_pos, Option.bind_eq_bind, Option.bind_some]

/-- At positions below `2 ^ 31`, `siftUpInt` is `siftUp`. -/
theorem siftUpInt_natCast (hi : i < 2 ^ 31) : h.siftUpInt comp i = h.siftUp comp i := by
  rw [siftUpInt, Int.toNat_natCast, siftUpIntLoop_natCast hi, siftUp]

omit [DecidableEq P] in
/-- At natural positions `pickInt` is `pick`. -/
theorem pickInt_natCast {c m : ℕ} :
    h.pickInt comp n c m = (h.pick comp n c m).map fun r : ℕ => (r : ℤ) := by
  simp only [pickInt, pick, entry_natCast, Int.ofNat_lt]
  split
  · cases h.data[c]? with
    | none => rfl
    | some x =>
      cases h.data[m]? with
      | none => rfl
      | some y =>
        simp only [Option.bind_eq_bind, Option.bind_some, Option.map_some]
        split
        · rfl
        · rfl
  · rfl

/-- A swap keeps the number of entries. -/
theorem swapNode_length (hs : h.swapNode i j = some h') : h'.data.length = h.data.length := by
  rw [swapNode, Option.bind_eq_bind, Option.bind_eq_some_iff] at hs
  obtain ⟨a, -, hs⟩ := hs
  obtain ⟨b, -, hs⟩ := Option.bind_eq_some_iff.1 hs
  cases hs
  rw [setIndex_data, setIndex_data, List.length_set, List.length_set]

/-- `sift_down` visits positions of the heap only, so its children fit into `int`. -/
theorem siftDownIntLoop_natCast {fuel : ℕ} :
    ∀ {h : IntrusiveHeap P K} {i : ℕ}, h.data.length < 2 ^ 30 → i < h.data.length →
      siftDownIntLoop comp h.data.length fuel h i = siftDownLoop comp h.data.length fuel h i := by
  induction fuel with
  | zero =>
    intro h i _ _
    rfl
  | succ fuel ih =>
    intro h i hn hi
    obtain ⟨m, hm, hml, -⟩ := pick_inBounds comp (c := left i) hi
    obtain ⟨s, hs, hsl, -⟩ := pick_inBounds comp (c := right i) hml
    rw [siftDownIntLoop, siftDownLoop, leftInt_natCast (by omega), rightInt_natCast (by omega)]
    simp only [Option.bind_eq_bind, Option.bind_some, pickInt_natCast, hm, hs, Option.map_some,
      swapNodeInt_natCast, Int.natCast_inj]
    split
    · rfl
    · cases hsw : h.swapNode i s with
      | none => rfl
      | some h₁ =>
        have hlen := swapNode_length hsw
        rw [Option.bind_some, Option.bind_some, ← hlen]
        exact ih (hlen ▸ hn) (hlen ▸ hsl)

/-- Below `2 ^ 30` entries `siftDownInt` does not overflow and is `siftDown`. -/
theorem siftDownInt_natCast (hn : h.data.length < 2 ^ 30) (hi : i < h.data.length) :
    h.siftDownInt comp i = h.siftDown comp i := by
  rw [siftDownInt, sizeInt_eq (by omega), siftDownIntLoop_natCast hn hi, siftDown]

/-- Below `2 ^ 31` entries `detachInt` is `detach`. -/
theorem detachInt_natCast (hn : h.data.length < 2 ^ 31) (hi : i < h.data.length) :
    h.detachInt i = h.detach i := by
  have hlast : (h.data.length : ℤ) - 1 = (h.data.length - 1 : ℕ) := by omega
  simp only [detachInt, detach, sizeInt_eq hn, hlast, entry_natCast, swapNodeInt_natCast,
    checkedInt_natCast (show h.data.length - 1 < 2 ^ 31 by omega), Option.bind_eq_bind,
    Option.bind_some, ne_eq, Int.natCast_inj]

/-- Below `2 ^ 30` entries `removeAtInt` is `removeAt`; the entry that moved up has a natural
index. -/
theorem removeAtInt_natCast (hv : Indexed h) (hn : h.data.length < 2 ^ 30)
    (hi : i < h.data.length) : h.removeAtInt comp i = h.removeAt comp i := by
  obtain ⟨h₁, hs, hv₁, hrem, -⟩ := detach_spec hv hi
  have hlen := hrem.perm.length_eq
  rw [List.length_cons] at hlen
  have hdetach : h.detachInt i = some h₁ := by
    rw [detachInt_natCast (hn.trans (by decide)) hi, hs]
  have hsize : h₁.sizeInt = h₁.data.length := sizeInt_eq (by omega)
  rw [removeAtInt, removeAt, hdetach, hs, Option.bind_eq_bind, Option.bind_some, Option.bind_some,
    hsize]
  by_cases hlt : i < h₁.data.length
  · rw [if_pos (Int.ofNat_lt.2 hlt), if_pos hlt, siftDownInt_natCast (by omega) hlt]
    refine Option.bind_congr fun h₂ _ => siftUpInt_natCast ?_
    omega
  · rw [if_neg (mt Int.ofNat_lt.1 hlt), if_neg hlt]

/-- `push` only needs the new index to fit into an `int`. -/
theorem pushInt_eq (hn : h.data.length < 2 ^ 31) (x : P) : h.pushInt comp x = h.push comp x := by
  simp only [pushInt, push, sizeInt_eq hn, siftUpInt_natCast hn]

/-- Below `2 ^ 30` entries `popInt` is `pop`. -/
theorem popInt_eq (hv : Indexed h) (hn : h.data.length < 2 ^ 30) (hne : h.data ≠ []) :
    h.popInt comp = h.pop comp := by
  have hi := List.length_pos_of_ne_nil hne
  have hremove : h.removeAtInt comp ((0 : ℕ) : Int) = h.removeAt comp 0 :=
    removeAtInt_natCast hv hn hi
  have hentry := entry_natCast (h := h) (i := 0)
  rw [Int.natCast_zero] at hremove hentry
  simp only [popInt, pop, hremove, hentry]

/-- Below `2 ^ 30` entries `updateInt` is `update` for an entry of the heap. -/
theorem updateInt_eq (hv : Indexed h) (hn : h.data.length < 2 ^ 30) {x : P} (hx : x ∈ h.data) :
    h.updateInt comp x = h.update comp x := by
  obtain ⟨i, hi⟩ := List.mem_iff_getElem?.1 hx
  obtain ⟨hil, -⟩ := List.getElem?_eq_some_iff.1 hi
  simp only [updateInt, update, hv i x hi, Int.toNat_natCast, entry_natCast, Option.bind_eq_bind,
    Option.bind_some, parentInt_natCast (show i < 2 ^ 31 by omega), siftDownInt_natCast hn hil,
    siftUpInt_natCast (show i < 2 ^ 31 by omega)]

/-- `sift_down` overflows where it starts, if that is far down the heap. -/
theorem siftDownInt_overflow (hi : 2 ^ 30 - 1 ≤ i) : h.siftDownInt comp i = none := by
  rw [siftDownInt, siftDownIntLoop, rightInt_overflow hi]
  cases leftInt i with
  | none => rfl
  | some l => rfl

/-- So does `update` of a node there that is not less than its parent. -/
theorem updateInt_overflow (hv : Indexed h) (hlow : 2 ^ 30 - 1 ≤ i) (hi : i < 2 ^ 31) {x y : P}
    (hx : h.data[i]? = some x) (hy : h.data[parent i]? = some y) (hle : h.less comp x y = false) :
    h.updateInt comp x = none := by
  have hidx : ¬(i : ℤ) = -1 := by omega
  simp only [updateInt, hv i x hx, if_neg hidx, parentInt_natCast hi, entry_natCast, hy, hle,
    siftDownInt_overflow hlow, Option.bind_eq_bind, Option.bind_some, Bool.false_eq_true, if_false]

/-! ## The calls -/

/-- No call on the heap overflows or reads past its array, and all loops end. -/
structure InRange (comp : K → K → Bool) (h : IntrusiveHeap P K) : Prop where
  push : ∀ x k, (h.node x).heapIndex = -1 → ((h.setKey x k).pushInt comp x).isSome
  pop : h.data ≠ [] → (h.popInt comp).isSome
  update : ∀ x k, x ∈ h.data → ((h.setKey x k).updateInt comp x).isSome

omit [DecidableEq P] in
/-- Writing a node's own key changes nothing. -/
theorem setKey_self [DecidableEq P] (x : P) : h.setKey x (h.node x).key = h := by
  rw [setKey, Function.update_eq_self]

/-- In a large heap a node that did not change cannot be updated. -/
theorem not_inRange (hv : Valid comp h) (hn : h.data.length < 2 ^ 31)
    (hbig : 2 ^ 30 ≤ h.data.length) : ¬InRange comp h := by
  intro hin
  have hi : h.data.length - 1 < h.data.length := by omega
  have hp := parent_lt (show 0 < h.data.length - 1 by omega)
  have hx : h.data[h.data.length - 1]? = some h.data[h.data.length - 1] :=
    List.getElem?_eq_getElem hi
  have hy : h.data[parent (h.data.length - 1)]? = some h.data[parent (h.data.length - 1)] :=
    List.getElem?_eq_getElem (hp.trans hi)
  have hle := hv.order _ _ _ (by omega) hx hy
  have hsome := hin.update h.data[h.data.length - 1] (h.node h.data[h.data.length - 1]).key
    (List.getElem_mem hi)
  rw [setKey_self, updateInt_overflow hv.index (by omega) (by omega) hx hy hle] at hsome
  cases hsome

/-- `push` is in range on every heap whose size fits into `int`: `sift_up` computes no child. -/
theorem pushInt_inRange (hv : Indexed h) (hn : h.data.length < 2 ^ 31) {x : P} (k : K)
    (hx : (h.node x).heapIndex = -1) :
    ∃ h', (h.setKey x k).pushInt comp x = some h' ∧ Indexed h' ∧ h'.data.Perm (x :: h.data) := by
  have hx' : ((h.setKey x k).node x).heapIndex = -1 := by rwa [setKey_heapIndex]
  obtain ⟨h', hs, hv', hperm, -⟩ := push_added comp (hv.setKey x k) hx'
  exact ⟨h', (pushInt_eq (h := h.setKey x k) hn x).trans hs, hv', hperm⟩

/-- A heap whose size fits into `int` takes every call if and only if it is smaller than
`2 ^ 30`. -/
theorem inRange_iff (hv : Valid comp h) (hn : h.data.length < 2 ^ 31) :
    InRange comp h ↔ h.data.length < 2 ^ 30 := by
  constructor
  · intro hin
    by_contra hbig
    exact not_inRange hv hn (Nat.not_lt.1 hbig) hin
  · intro hsmall
    refine ⟨fun x k hx => ?_, fun hne => ?_, fun x k hx => ?_⟩
    · obtain ⟨h', hs, -⟩ := pushInt_inRange hv.index hn k hx
      rw [hs]
      rfl
    · obtain ⟨x, h', -, hs, -⟩ := pop_removed comp hv.index hne
      rw [popInt_eq hv.index hsmall hne, hs]
      rfl
    · obtain ⟨h', hs, -⟩ := update_rearranged comp (h := h.setKey x k) (hv.index.setKey x k) hx
      rw [updateInt_eq (h := h.setKey x k) (hv.index.setKey x k) hsmall hx, hs]
      rfl

/-- The heap with the nodes `0`, …, `n - 1` at the positions of that name. -/
def ofKeys (key : ℕ → K) (n : ℕ) : IntrusiveHeap ℕ K :=
  ⟨fun i => ⟨key i, i⟩, List.range n⟩

omit [DecidableEq P] in
/-- Entry `i` of `ofKeys` is node `i`. -/
theorem ofKeys_getElem? {key : ℕ → K} {x : ℕ} (hx : (ofKeys key n).data[i]? = some x) :
    i < n ∧ x = i := by
  obtain ⟨hlt, heq⟩ := List.getElem?_eq_some_iff.1 hx
  have hlen : (ofKeys key n).data.length = n := List.length_range
  exact ⟨hlen ▸ hlt, heq.symm.trans (List.getElem_range hlt)⟩

omit [DecidableEq P] in
/-- `ofKeys` is a heap when no key comes before the key of its parent. -/
theorem ofKeys_valid {key : ℕ → K} (hkey : ∀ i < n, 0 < i → comp (key i) (key (parent i)) = false) :
    Valid comp (ofKeys key n) where
  order i x y hi hx hy := by
    obtain ⟨hin, rfl⟩ := ofKeys_getElem? hx
    obtain ⟨-, rfl⟩ := ofKeys_getElem? hy
    exact hkey _ hin hi
  index i x hx := by
    obtain ⟨-, rfl⟩ := ofKeys_getElem? hx
    rfl

/-- A heap of seven nodes, where the last one belongs above the position `3`. -/
def twoBranches : IntrusiveHeap ℕ ℤ := ofKeys ([0, 10, 1, 11, 12, 2, 3].getD · 0) 7

/-- `twoBranches` is a heap. -/
theorem twoBranches_valid : Valid (fun a b => decide (a < b)) twoBranches :=
  ofKeys_valid (by decide)

/-- Every entry of `twoBranches` can be removed without an overflow. -/
theorem inRange_iff_seven : InRange (fun a b => decide (a < b)) twoBranches :=
  (inRange_iff twoBranches_valid (by decide)).2 (by decide)

/-- In a heap of `2 ^ 30` nodes the last one cannot be updated. -/
theorem not_inRange_ofKeys :
    ∃ h : IntrusiveHeap ℕ ℕ, Valid (fun a b => decide (a < b)) h ∧ h.data.length ≤ 2 ^ 31 - 1 ∧
      ¬InRange (fun a b => decide (a < b)) h := by
  obtain ⟨n, hn⟩ : ∃ n : ℕ, n = 2 ^ 30 := ⟨_, rfl⟩
  have hv : Valid (fun a b => decide (a < b)) (ofKeys id n) := by
    refine ofKeys_valid fun i _ hi => decide_eq_false ?_
    exact Nat.lt_asymm (parent_lt hi)
  have hlen : (ofKeys id n).data.length = n := List.length_range
  exact ⟨ofKeys id n, hv, by omega, not_inRange hv (by omega) (by omega)⟩

/-! ## `remove_at` at any position -/

/-- `remove_at` takes out the node at the position it is given, and leaves the other nodes in a heap
that knows their positions, in whichever direction the node that takes the place has to move. -/
theorem removeAtInt_restores [IsStrictWeakOrder K (Before comp)] (hv : Valid comp h)
    (hn : h.data.length < 2 ^ 30) (hi : i < h.data.length) :
    ∃ h', h.removeAtInt comp i = some h' ∧ (h'.node h.data[i]).heapIndex = -1 ∧
      (h.data[i] :: h'.data).Perm h.data ∧ h'.data.Nodup ∧ InOrder comp h' ∧
      (∀ x ∈ h'.data, ∃ j : ℕ, (h'.node x).heapIndex = j ∧ h'.data[j]? = some x) ∧
      (∀ x, (h'.node x).key = (h.node x).key) ∧ ∀ x, x ∉ h.data → h'.node x = h.node x := by
  obtain ⟨h', hs, hv', hrem⟩ := removeAt_spec hv hi
  refine ⟨h', ?_, hrem.index, hrem.perm, hv'.index.nodup, hv'.order, fun x hx => ?_, hrem.key,
    hrem.off⟩
  · rw [removeAtInt_natCast hv.index hn hi, hs]
  · obtain ⟨j, hj⟩ := List.mem_iff_getElem?.1 hx
    exact ⟨j, hv'.index j x hj, hj⟩

/-- The last node takes the place of the node `3` and moves up. -/
theorem removeAtInt_restores_up :
    ∃ h, twoBranches.removeAtInt (fun a b => decide (a < b)) 3 = some h ∧
      h.data = [0, 6, 2, 1, 4, 5] ∧ InOrder (fun a b => decide (a < b)) h := by
  have hlt : IsStrictWeakOrder ℤ (Before fun a b => decide (a < b)) :=
    { irrefl := fun a => by simp
      trans := fun a b c => by simpa using Int.lt_trans
      incomp_trans := fun a b c => by simp only [Before, decide_eq_true_eq]; omega }
  obtain ⟨h', hs, -, -, -, hord, -⟩ :=
    removeAtInt_restores (i := 3) twoBranches_valid (by decide) (by decide)
  have hdata : (twoBranches.removeAtInt (fun a b => decide (a < b)) 3).map (·.data) =
      some [0, 6, 2, 1, 4, 5] := by decide
  have hs' : twoBranches.removeAtInt (fun a b => decide (a < b)) 3 = some h' := hs
  rw [hs'] at hdata
  exact ⟨h', hs', Option.some.inj hdata, hord⟩

end

end RockCoro.IntrusiveHeap
