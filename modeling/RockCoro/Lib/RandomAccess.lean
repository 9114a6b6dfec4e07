import Mathlib.Algebra.Ring.Int.Defs
import Mathlib.Algebra.Ring.Nat
import Mathlib.Logic.Function.Basic

/-!
# Random-access iterators

An iterator into a sequence has a position, from `0` to the number of elements. `Laws` says that the
iterators at an offset from the first one behave as their positions, which are integers, although
an offset is a signed word. The laws carry over along a map between two classes of iterators that
commutes with the operations (`Laws.map`), and the loop over all positions reads the elements in
order (`Laws.mapEach`).
-/

namespace RockCoro.RandomAccess

/-! ## Signed words -/

/-- A difference of signed words. Overflow is undefined. -/
def signedSub (a b : Int64) : Option Int64 :=
  if -2 ^ 63 ≤ a.toInt - b.toInt ∧ a.toInt - b.toInt < 2 ^ 63 then some (a - b) else none

/-- The difference of numbers that are not negative does not overflow. -/
theorem signedSub_of_nonneg {a b : Int64} (ha : 0 ≤ a.toInt) (hb : 0 ≤ b.toInt) :
    (signedSub a b).map Int64.toInt = some (a.toInt - b.toInt) := by
  have hamax := a.toInt_lt
  have hbmax := b.toInt_lt
  have hrange : -2 ^ 63 ≤ a.toInt - b.toInt ∧ a.toInt - b.toInt < 2 ^ 63 := by omega
  rw [signedSub, if_pos hrange, Option.map_some, Int64.toInt_sub, Int.bmod_eq_of_le]
  · omega
  · omega

/-! ## Positions as words -/

/-- The positions of a sequence, with that past its last element. -/
def Position (size : ℕ) (k : ℤ) : Prop := 0 ≤ k ∧ k ≤ size

section
variable {size : ℕ} {i j : ℤ}

/-- A position below `2 ^ 63` is a `ptrdiff_t`. -/
theorem toInt_ofInt (hsize : size < 2 ^ 63) (hi : Position size i) : (Int64.ofInt i).toInt = i := by
  obtain ⟨h0, hle⟩ := hi
  exact Int64.toInt_ofInt_of_le (by omega) (by omega)

/-- A word that is not negative reads the same without its sign. -/
theorem toNat_index (hsize : size < 2 ^ 63) (hi : Position size i) :
    (Int64.ofInt i).toUInt64.toNat = i.toNat := by
  have hread := toInt_ofInt hsize hi
  have hnonneg : 0 ≤ Int64.ofInt i := by
    rw [Int64.le_iff_toInt_le, hread]
    exact hi.1
  rw [Int64.toNat_toUInt64_of_le hnonneg, Int64.toNatClampNeg, hread]

/-- Indices are ordered as the positions. -/
theorem index_lt_index (hsize : size < 2 ^ 63) (hi : Position size i) (hj : Position size j) :
    (Int64.ofInt i).toUInt64 < (Int64.ofInt j).toUInt64 ↔ i < j := by
  rw [UInt64.lt_iff_toNat_lt, toNat_index hsize hi, toNat_index hsize hj]
  obtain ⟨hi, -⟩ := hi
  omega

/-- Indices are ordered as the positions, ties included. -/
theorem index_le_index (hsize : size < 2 ^ 63) (hi : Position size i) (hj : Position size j) :
    (Int64.ofInt i).toUInt64 ≤ (Int64.ofInt j).toUInt64 ↔ i ≤ j := by
  rw [← UInt64.not_lt, index_lt_index hsize hj hi, Int.not_lt]

/-- Different positions have different indices. -/
theorem index_eq_index (hsize : size < 2 ^ 63) (hi : Position size i) (hj : Position size j) :
    (Int64.ofInt i).toUInt64 = (Int64.ofInt j).toUInt64 ↔ i = j := by
  rw [← UInt64.toNat_inj, toNat_index hsize hi, toNat_index hsize hj]
  obtain ⟨hi, -⟩ := hi
  obtain ⟨hj, -⟩ := hj
  omega

/-- The difference of two positions does not overflow. -/
theorem signedSub_index (hsize : size < 2 ^ 63) (hi : Position size i) (hj : Position size j) :
    (signedSub (Int64.ofInt j) (Int64.ofInt i)).map Int64.toInt = some (j - i) := by
  have hi' := toInt_ofInt hsize hi
  have hj' := toInt_ofInt hsize hj
  rw [signedSub_of_nonneg (hj'.symm ▸ hj.1) (hi'.symm ▸ hi.1), hi', hj']

end

/-! ## Operations and laws -/

/-- The operations of a class of iterators. The postfix operators answer the result and the iterator
that they leave. -/
structure Operations (It Ref : Type) where
  deref : It → Option Ref
  arrow : It → Option Ref
  preIncrement : It → It
  postIncrement : It → It × It
  preDecrement : It → It
  postDecrement : It → It × It
  addAssign : It → Int64 → It
  subAssign : It → Int64 → It
  add : It → Int64 → It
  sub : It → Int64 → It
  difference : It → It → Option Int64
  subscript : It → Int64 → Option Ref
  eq : It → It → Bool
  ne : It → It → Bool
  lt : It → It → Bool
  gt : It → It → Bool
  le : It → It → Bool
  ge : It → It → Bool

variable {It It' Ref : Type}

/-- `first + k`. -/
def Operations.at (ops : Operations It Ref) (first : It) (k : ℤ) : It :=
  ops.add first (Int64.ofInt k)

/-- The other ways to move an iterator and to read through it agree with `+`. -/
structure Agrees (ops : Operations It Ref) : Prop where
  preIncrement : ∀ it, ops.preIncrement it = ops.add it 1
  postIncrement : ∀ it, ops.postIncrement it = (it, ops.add it 1)
  preDecrement : ∀ it, ops.preDecrement it = ops.add it (-1)
  postDecrement : ∀ it, ops.postDecrement it = (it, ops.add it (-1))
  addAssign : ∀ it n, ops.addAssign it n = ops.add it n
  subAssign : ∀ it n, ops.subAssign it n = ops.sub it n
  sub : ∀ it n, ops.sub it n = ops.add it (-n)
  arrow : ∀ it, ops.arrow it = ops.deref it
  subscript : ∀ it n, ops.subscript it n = ops.deref (ops.add it n)

/-- The iterators `at i` and `at j` compare as `i` and `j`. -/
structure Compares (ops : Operations It Ref) (it it' : It) (i j : ℤ) : Prop where
  eq : ops.eq it it' = decide (i = j)
  ne : ops.ne it it' = decide (i ≠ j)
  lt : ops.lt it it' = decide (i < j)
  gt : ops.gt it it' = decide (i > j)
  le : ops.le it it' = decide (i ≤ j)
  ge : ops.ge it it' = decide (i ≥ j)

/-- The iterators from `first` to `last` are the positions of a sequence; `element` is what
there is to refer to at a position. -/
structure Laws (ops : Operations It Ref) (first last : It) (size : ℕ) (element : ℤ → Option Ref) :
    Prop where
  at_zero : ops.at first 0 = first
  at_size : ops.at first size = last
  add_add : ∀ (i : ℤ) (n : Int64), Position size i → Position size (i + n.toInt) →
    ops.add (ops.at first i) n = ops.at first (i + n.toInt)
  add_sub : ∀ (i : ℤ) (n : Int64), Position size i → Position size (i + n.toInt) →
    ops.sub (ops.add (ops.at first i) n) n = ops.at first i
  difference : ∀ i j : ℤ, Position size i → Position size j →
    (ops.difference (ops.at first j) (ops.at first i)).map Int64.toInt = some (j - i)
  subscript : ∀ (i : ℤ) (n : Int64), Position size i → Position size (i + n.toInt) →
    i + n.toInt < size → ops.subscript (ops.at first i) n = element (i + n.toInt) ∧
      ops.deref (ops.add (ops.at first i) n) = element (i + n.toInt)
  compares : ∀ i j : ℤ, Position size i → Position size j →
    Compares ops (ops.at first i) (ops.at first j) i j
  agrees : Agrees ops

/-- `f` commutes with the operations of the two classes. -/
structure Hom (ops : Operations It Ref) (ops' : Operations It' Ref) (f : It → It') : Prop where
  deref : ∀ it, ops'.deref (f it) = ops.deref it
  arrow : ∀ it, ops'.arrow (f it) = ops.arrow it
  preIncrement : ∀ it, ops'.preIncrement (f it) = f (ops.preIncrement it)
  postIncrement : ∀ it, ops'.postIncrement (f it) = (ops.postIncrement it).map f f
  preDecrement : ∀ it, ops'.preDecrement (f it) = f (ops.preDecrement it)
  postDecrement : ∀ it, ops'.postDecrement (f it) = (ops.postDecrement it).map f f
  addAssign : ∀ it n, ops'.addAssign (f it) n = f (ops.addAssign it n)
  subAssign : ∀ it n, ops'.subAssign (f it) n = f (ops.subAssign it n)
  add : ∀ it n, ops'.add (f it) n = f (ops.add it n)
  sub : ∀ it n, ops'.sub (f it) n = f (ops.sub it n)
  difference : ∀ it it', ops'.difference (f it) (f it') = ops.difference it it'
  subscript : ∀ it n, ops'.subscript (f it) n = ops.subscript it n
  eq : ∀ it it', ops'.eq (f it) (f it') = ops.eq it it'
  ne : ∀ it it', ops'.ne (f it) (f it') = ops.ne it it'
  lt : ∀ it it', ops'.lt (f it) (f it') = ops.lt it it'
  gt : ∀ it it', ops'.gt (f it) (f it') = ops.gt it it'
  le : ∀ it it', ops'.le (f it) (f it') = ops.le it it'
  ge : ∀ it it', ops'.ge (f it) (f it') = ops.ge it it'

section
variable {ops : Operations It Ref} {ops' : Operations It' Ref} {f : It → It'} {first last : It}
  {size : ℕ} {element : ℤ → Option Ref}

/-- A map of the operations takes positions to positions. -/
theorem Hom.at (h : Hom ops ops' f) (k : ℤ) : ops'.at (f first) k = f (ops.at first k) :=
  h.add first (Int64.ofInt k)

/-- The agreement of the operations carries over along a surjective map. -/
theorem Agrees.map (h : Hom ops ops' f) (hf : Function.Surjective f) (ha : Agrees ops) :
    Agrees ops' where
  preIncrement := hf.forall.2 fun it => by rw [h.preIncrement, h.add, ha.preIncrement]
  postIncrement := hf.forall.2 fun it => by
    rw [h.postIncrement, h.add, ha.postIncrement, Prod.map_apply]
  preDecrement := hf.forall.2 fun it => by rw [h.preDecrement, h.add, ha.preDecrement]
  postDecrement := hf.forall.2 fun it => by
    rw [h.postDecrement, h.add, ha.postDecrement, Prod.map_apply]
  addAssign := hf.forall.2 fun it n => by rw [h.addAssign, h.add, ha.addAssign]
  subAssign := hf.forall.2 fun it n => by rw [h.subAssign, h.sub, ha.subAssign]
  sub := hf.forall.2 fun it n => by rw [h.sub, h.add, ha.sub]
  arrow := hf.forall.2 fun it => by rw [h.arrow, h.deref, ha.arrow]
  subscript := hf.forall.2 fun it n => by rw [h.subscript, h.add, h.deref, ha.subscript]

/-- Comparisons carry over along a map of the operations. -/
theorem Compares.map (h : Hom ops ops' f) {it it' : It} {i j : ℤ}
    (hc : Compares ops it it' i j) : Compares ops' (f it) (f it') i j where
  eq := (h.eq it it').trans hc.eq
  ne := (h.ne it it').trans hc.ne
  lt := (h.lt it it').trans hc.lt
  gt := (h.gt it it').trans hc.gt
  le := (h.le it it').trans hc.le
  ge := (h.ge it it').trans hc.ge

/-- The laws carry over along a surjective map of the operations. -/
theorem Laws.map (h : Hom ops ops' f) (hf : Function.Surjective f)
    (hl : Laws ops first last size element) : Laws ops' (f first) (f last) size element where
  at_zero := by rw [h.at, hl.at_zero]
  at_size := by rw [h.at, hl.at_size]
  add_add i n hi hn := by rw [h.at, h.at, h.add, hl.add_add i n hi hn]
  add_sub i n hi hn := by rw [h.at, h.add, h.sub, hl.add_sub i n hi hn]
  difference i j hi hj := by rw [h.at, h.at, h.difference, hl.difference i j hi hj]
  subscript i n hi hn hlt := by
    rw [h.at, h.subscript, h.add, h.deref]
    exact hl.subscript i n hi hn hlt
  compares i j hi hj := by
    rw [h.at, h.at]
    exact (hl.compares i j hi hj).map h
  agrees := hl.agrees.map h hf

/-! ## Loops -/

/-- The references that the loop `for (; it != last; ++it)` reads. A loop that does not end is
undefined. -/
def Operations.mapEach (ops : Operations It Ref) (last : It) : ℕ → It → Option (List Ref)
  | 0, _ => none
  | fuel + 1, it =>
    if ops.ne it last then do
      let r ← ops.deref it
      let rs ← ops.mapEach last fuel (ops.preIncrement it)
      some (r :: rs)
    else some []

/-- Below `last` an iterator is dereferenced to its element. -/
theorem Laws.deref (hl : Laws ops first last size element) {k : ℕ} (hk : k < size) :
    ops.deref (ops.at first k) = element k := by
  have hpos : Position size k := ⟨by omega, by omega⟩
  have hadd := hl.add_add k 0 hpos (by rwa [Int64.toInt_zero, Int.add_zero])
  have hread := (hl.subscript k 0 hpos (by rwa [Int64.toInt_zero, Int.add_zero])
    (by rw [Int64.toInt_zero]; omega)).2
  rwa [hadd, Int64.toInt_zero, Int.add_zero] at hread

/-- `++` leads to the next position. -/
theorem Laws.preIncrement (hl : Laws ops first last size element) {k : ℕ} (hk : k < size) :
    ops.preIncrement (ops.at first k) = ops.at first ↑(k + 1) := by
  have hone : (1 : Int64).toInt = 1 := rfl
  rw [hl.agrees.preIncrement, hl.add_add k 1 ⟨by omega, by omega⟩ ⟨by omega, by omega⟩, hone]
  rfl

/-- From any position on, the loop reads the elements in order and ends. -/
theorem Laws.mapEach (hl : Laws ops first last size element) {place : ℕ → Ref}
    (hplace : ∀ k < size, element k = some (place k)) :
    ∀ {fuel k : ℕ}, k ≤ size → size - k < fuel →
      ops.mapEach last fuel (ops.at first k) = some ((List.range' k (size - k)).map place) := by
  intro fuel
  induction fuel with
  | zero =>
    intro k _ hfuel
    omega
  | succ fuel ih =>
    intro k hk hfuel
    have hne := (hl.compares k size ⟨by omega, by omega⟩ ⟨by omega, by omega⟩).ne
    rw [hl.at_size] at hne
    rw [Operations.mapEach, hne]
    rcases Nat.lt_or_eq_of_le hk with hlt | rfl
    · obtain ⟨d, hd⟩ : ∃ d, size - k = d + 1 := ⟨size - (k + 1), by omega⟩
      have hrest : size - (k + 1) = d := by omega
      rw [if_pos (by simp; omega), hl.deref hlt, hplace k hlt, hl.preIncrement hlt,
        ih hlt (by omega), hd, hrest, List.range'_succ]
      rfl
    · simp

end

/-- When every result is there, so is the list of them. -/
theorem mapM_eq_some {α β : Type} {f : α → Option β} {xs : List α} {ys : List β}
    (h : xs.map f = ys.map some) : xs.mapM f = some ys := by
  have hmap := List.mapM_map (f := f) (g := id) (l := xs)
  rw [h, List.mapM_map] at hmap
  exact hmap.symm.trans (List.mapM_pure.trans (congrArg some (List.map_id ys)))

end RockCoro.RandomAccess
