import RockCoro.BasicStruct.ChunkedVector.Refine
import RockCoro.Lib.RandomAccess

/-!
# The iterators of `ChunkedVector`

`iterator` and `const_iterator` are two copies of one class. Their index is a `size_t`, which wraps,
and their offsets are `ptrdiff_t`, which is converted to `size_t` before a sum. A reference is the
place of an element, not its value. Differences of `ptrdiff_t` that overflow and reads through a
pointer to no vector are undefined.
-/

namespace RockCoro

namespace ChunkedVector

open RandomAccess

variable {P T : Type} (blockSize : ℕ) (vectors : P → Option (ChunkedVector T))

/-! ## References -/

/-- The element `blocks_[block][offset]` of the vector at `container`. -/
structure Reference (P : Type) where
  container : P
  block : ℕ
  offset : ℕ
  deriving DecidableEq

/-- The value of the element. -/
def Reference.load (r : Reference P) : Option T := do
  let s ← vectors r.container
  let b ← s.blocks[r.block]?
  b[r.offset]?

/-- `get_block_and_offset`. -/
def getBlockAndOffset (index : ℕ) : ℕ × ℕ := (index / blockSize, index % blockSize)

/-- `operator[]` of the vector at `p`, both overloads, as the reference that it answers. -/
def referTo (p : P) (s : ChunkedVector T) (index : ℕ) : Option (Reference P) :=
  if index < s.totalSize then
    let (b, o) := getBlockAndOffset blockSize index
    match s.blocks[b]? with
    | some block => if o < block.length then some ⟨p, b, o⟩ else none
    | none => none
  else none

/-- `(*container_)[index]`. -/
def referAt (container : Option P) (index : UInt64) : Option (Reference P) := do
  let p ← container
  let s ← vectors p
  s.referTo blockSize p index.toNat

section
variable {p : P} {s : ChunkedVector T} {l : List T} {B : ℕ}

/-- The reference of `operator[]` exists when its value does, and names block and offset of the
index. -/
theorem referTo_eq (p : P) (s : ChunkedVector T) (i : ℕ) :
    s.referTo B p i = (s.subscript B i).map fun _ => ⟨p, i / B, i % B⟩ := by
  rw [referTo, ChunkedVector.subscript]
  split
  · cases hb : s.blocks[i / B]? with
    | none => simp [getBlockAndOffset, hb]
    | some b =>
      by_cases ho : i % B < b.length
      · simp [getBlockAndOffset, hb, ho]
      · simp [getBlockAndOffset, hb, ho]
  · rfl

/-- A reference from `operator[]` reads the element that `operator[]` reads. -/
theorem load_referTo (hs : vectors p = some s) (i : ℕ) :
    (s.referTo B p i).bind (·.load vectors) = s.subscript B i := by
  rw [referTo_eq]
  cases h : s.subscript B i with
  | none => rfl
  | some x =>
    rw [ChunkedVector.subscript] at h
    split at h
    · simpa [Reference.load, hs] using h
    · cases h

/-- Where the elements of the list are. -/
theorem Holds.referTo (hB : 0 < B) (h : Holds B s l) (hs : vectors p = some s) {i : ℕ}
    (hi : i < l.length) :
    s.referTo B p i = some ⟨p, i / B, i % B⟩ ∧
      Reference.load vectors ⟨p, i / B, i % B⟩ = some l[i] := by
  have hsub : s.subscript B i = some l[i] := by
    rw [h.subscript hB, List.getElem?_eq_getElem hi]
  have href : s.referTo B p i = some ⟨p, i / B, i % B⟩ := by
    rw [referTo_eq, hsub, Option.map_some]
  have hload := load_referTo (B := B) vectors hs i
  rw [href, hsub] at hload
  exact ⟨href, hload⟩

end

/-! ## `iterator` -/

/-- A null `container_` is `none`. -/
structure Iterator (P : Type) where
  container : Option P := none
  index : UInt64 := 0
  deriving DecidableEq

namespace Iterator

/-- `operator*`, both overloads. -/
def deref (it : Iterator P) : Option (Reference P) :=
  referAt blockSize vectors it.container it.index

/-- `operator->`. -/
def arrow (it : Iterator P) : Option (Reference P) :=
  referAt blockSize vectors it.container it.index

/-- `++it`; the index wraps. -/
def preIncrement (it : Iterator P) : Iterator P := { it with index := it.index + 1 }

/-- `it++`, with the old iterator first. -/
def postIncrement (it : Iterator P) : Iterator P × Iterator P := (it, it.preIncrement)

/-- `--it`; the index wraps. -/
def preDecrement (it : Iterator P) : Iterator P := { it with index := it.index - 1 }

/-- `it--`, with the old iterator first. -/
def postDecrement (it : Iterator P) : Iterator P × Iterator P := (it, it.preDecrement)

/-- `it += n`; the offset is converted to `size_t` first. -/
def addAssign (it : Iterator P) (n : Int64) : Iterator P :=
  { it with index := it.index + n.toUInt64 }

/-- `it -= n`. -/
def subAssign (it : Iterator P) (n : Int64) : Iterator P :=
  { it with index := it.index - n.toUInt64 }

/-- `it + n`. -/
def add (it : Iterator P) (n : Int64) : Iterator P := ⟨it.container, it.index + n.toUInt64⟩

/-- `it - n`. -/
def sub (it : Iterator P) (n : Int64) : Iterator P := ⟨it.container, it.index - n.toUInt64⟩

/-- Subtraction on wrapped indices is the addition of the negated offset. -/
theorem sub_eq_add_neg (it : Iterator P) (n : Int64) : it.sub n = it.add (-n) := by
  rw [sub, add, UInt64.sub_eq_add_neg, Int64.toUInt64_neg]

/-- `--it` is `it + (-1)`, also at index 0, where it wraps. -/
theorem preDecrement_eq (it : Iterator P) : it.preDecrement = it.add (-1) := it.sub_eq_add_neg 1

/-- `operator-` of two iterators. -/
def difference (it o : Iterator P) : Option Int64 := signedSub it.index.toInt64 o.index.toInt64

/-- `operator[]`, both overloads. -/
def subscript (it : Iterator P) (n : Int64) : Option (Reference P) :=
  referAt blockSize vectors it.container (it.index + n.toUInt64)

variable [DecidableEq P]

/-- `==`: the same vector and the same index. -/
def eq (it o : Iterator P) : Bool := it.container == o.container && it.index == o.index

/-- `!=`. -/
def ne (it o : Iterator P) : Bool := !it.eq o

/-- `<`; only the indices are compared. -/
def lt (it o : Iterator P) : Bool := it.index < o.index

/-- `>`. -/
def gt (it o : Iterator P) : Bool := it.index > o.index

/-- `<=`. -/
def le (it o : Iterator P) : Bool := it.index ≤ o.index

/-- `>=`. -/
def ge (it o : Iterator P) : Bool := it.index ≥ o.index

/-- The operators of the class, for the laws of `RandomAccess`. -/
def operations : Operations (Iterator P) (Reference P) where
  deref := deref blockSize vectors
  arrow := arrow blockSize vectors
  preIncrement := preIncrement
  postIncrement := postIncrement
  preDecrement := preDecrement
  postDecrement := postDecrement
  addAssign := addAssign
  subAssign := subAssign
  add := add
  sub := sub
  difference := difference
  subscript := subscript blockSize vectors
  eq := eq
  ne := ne
  lt := lt
  gt := gt
  le := le
  ge := ge

end Iterator

/-- `begin()`. -/
def beginIterator (p : P) : Iterator P := ⟨some p, 0⟩

/-- `end()`. -/
def endIterator (p : P) (s : ChunkedVector T) : Iterator P := ⟨some p, .ofNat s.totalSize⟩

/-! ## `const_iterator` -/

/-- A null `container_` is `none`, as in `Iterator`. -/
structure ConstIterator (P : Type) where
  container : Option P := none
  index : UInt64 := 0
  deriving DecidableEq

namespace ConstIterator

/-- The constructor from an `iterator`. -/
def ofIterator (it : Iterator P) : ConstIterator P := ⟨it.container, it.index⟩

/-- Every `const_iterator` comes from an `iterator`, so a law of one class carries over to the
other. -/
theorem ofIterator_surjective : Function.Surjective (ofIterator (P := P)) := by
  rintro ⟨container, index⟩
  exact ⟨⟨container, index⟩, rfl⟩

/-- `operator*`. -/
def deref (it : ConstIterator P) : Option (Reference P) :=
  referAt blockSize vectors it.container it.index

/-- `operator->`. -/
def arrow (it : ConstIterator P) : Option (Reference P) :=
  referAt blockSize vectors it.container it.index

/-- `++it`; the index wraps. -/
def preIncrement (it : ConstIterator P) : ConstIterator P := { it with index := it.index + 1 }

/-- `it++`, with the old iterator first. -/
def postIncrement (it : ConstIterator P) : ConstIterator P × ConstIterator P :=
  (it, it.preIncrement)

/-- `--it`; the index wraps. -/
def preDecrement (it : ConstIterator P) : ConstIterator P := { it with index := it.index - 1 }

/-- `it--`, with the old iterator first. -/
def postDecrement (it : ConstIterator P) : ConstIterator P × ConstIterator P :=
  (it, it.preDecrement)

/-- `it += n`; the offset is converted to `size_t` first. -/
def addAssign (it : ConstIterator P) (n : Int64) : ConstIterator P :=
  { it with index := it.index + n.toUInt64 }

/-- `it -= n`. -/
def subAssign (it : ConstIterator P) (n : Int64) : ConstIterator P :=
  { it with index := it.index - n.toUInt64 }

/-- `it + n`. -/
def add (it : ConstIterator P) (n : Int64) : ConstIterator P :=
  ⟨it.container, it.index + n.toUInt64⟩

/-- `it - n`. -/
def sub (it : ConstIterator P) (n : Int64) : ConstIterator P :=
  ⟨it.container, it.index - n.toUInt64⟩

/-- `operator-` of two iterators. -/
def difference (it o : ConstIterator P) : Option Int64 :=
  signedSub it.index.toInt64 o.index.toInt64

/-- `operator[]`. -/
def subscript (it : ConstIterator P) (n : Int64) : Option (Reference P) :=
  referAt blockSize vectors it.container (it.index + n.toUInt64)

variable [DecidableEq P]

/-- `==`: the same vector and the same index. -/
def eq (it o : ConstIterator P) : Bool := it.container == o.container && it.index == o.index

/-- `!=`. -/
def ne (it o : ConstIterator P) : Bool := !it.eq o

/-- `<`; only the indices are compared. -/
def lt (it o : ConstIterator P) : Bool := it.index < o.index

/-- `>`. -/
def gt (it o : ConstIterator P) : Bool := it.index > o.index

/-- `<=`. -/
def le (it o : ConstIterator P) : Bool := it.index ≤ o.index

/-- `>=`. -/
def ge (it o : ConstIterator P) : Bool := it.index ≥ o.index

/-- The operators of the class, for the laws of `RandomAccess`. -/
def operations : Operations (ConstIterator P) (Reference P) where
  deref := deref blockSize vectors
  arrow := arrow blockSize vectors
  preIncrement := preIncrement
  postIncrement := postIncrement
  preDecrement := preDecrement
  postDecrement := postDecrement
  addAssign := addAssign
  subAssign := subAssign
  add := add
  sub := sub
  difference := difference
  subscript := subscript blockSize vectors
  eq := eq
  ne := ne
  lt := lt
  gt := gt
  le := le
  ge := ge

end ConstIterator

/-- `begin() const`. -/
def beginConstIterator (p : P) : ConstIterator P := ⟨some p, 0⟩

/-- `end() const`. -/
def endConstIterator (p : P) (s : ChunkedVector T) : ConstIterator P :=
  ⟨some p, .ofNat s.totalSize⟩

/-! ## The laws -/

section
variable [DecidableEq P] {p : P} {s : ChunkedVector T} {l : List T} {B : ℕ}

/-- The iterator `k` places after `begin()`, also for a negative `k`, whose index wraps. -/
theorem Iterator.at_begin (k : ℤ) :
    (Iterator.operations B vectors).at (beginIterator p) k =
      ⟨some p, (Int64.ofInt k).toUInt64⟩ := by
  change Iterator.add ⟨some p, 0⟩ (Int64.ofInt k) = _
  rw [Iterator.add, UInt64.zero_add]

/-- The increments, decrements and assignments are what `+` and `-` make of them. -/
theorem Iterator.agrees : Agrees (Iterator.operations B vectors) where
  preIncrement _ := rfl
  postIncrement _ := rfl
  preDecrement := Iterator.preDecrement_eq
  postDecrement it := congrArg (it, ·) it.preDecrement_eq
  addAssign _ _ := rfl
  subAssign _ _ := rfl
  sub := Iterator.sub_eq_add_neg
  arrow _ := rfl
  subscript _ _ := rfl

/-- Below `2 ^ 63` elements the comparisons of wrapped indices are those of the positions. -/
theorem Iterator.compares {size : ℕ} {i j : ℤ} (hsize : size < 2 ^ 63) (hi : Position size i)
    (hj : Position size j) :
    Compares (Iterator.operations B vectors) ⟨some p, (Int64.ofInt i).toUInt64⟩
      ⟨some p, (Int64.ofInt j).toUInt64⟩ i j where
  eq := by simp [Iterator.operations, Iterator.eq, index_eq_index hsize hi hj, beq_eq_decide]
  ne := by
    simp [Iterator.operations, Iterator.ne, Iterator.eq, index_eq_index hsize hi hj, beq_eq_decide]
  lt := by simp [Iterator.operations, Iterator.lt, index_lt_index hsize hi hj]
  gt := by simp [Iterator.operations, Iterator.gt, index_lt_index hsize hj hi]
  le := by simp [Iterator.operations, Iterator.le, index_le_index hsize hi hj]
  ge := by simp [Iterator.operations, Iterator.ge, index_le_index hsize hj hi]

/-- A conversion to `size_t` turns a sum of `ptrdiff_t` into one of `size_t`. -/
theorem Iterator.add_at (k : ℤ) (n : Int64) :
    (Iterator.operations B vectors).add
        ((Iterator.operations B vectors).at (beginIterator p) k) n =
      (Iterator.operations B vectors).at (beginIterator p) (k + n.toInt) := by
  rw [Iterator.at_begin, Iterator.at_begin, Int64.ofInt_add, Int64.ofInt_toInt, Int64.toUInt64_add]
  rfl

/-- Dereferencing the iterator at position `k` is `operator[]` at `k`. -/
theorem Iterator.deref_at {k : ℤ} (hs : vectors p = some s) (hsize : s.totalSize < 2 ^ 63)
    (hk : Position s.totalSize k) :
    (Iterator.operations B vectors).deref
        ((Iterator.operations B vectors).at (beginIterator p) k) = s.referTo B p k.toNat := by
  rw [Iterator.at_begin]
  change referAt B vectors (some p) _ = _
  simp [referAt, hs, toNat_index hsize hk]

/-- The difference of two positions is their distance; below `2 ^ 63` elements it does not
overflow. -/
theorem Iterator.difference_at {i j : ℤ} (hsize : s.totalSize < 2 ^ 63)
    (hi : Position s.totalSize i) (hj : Position s.totalSize j) :
    ((Iterator.operations B vectors).difference
        ((Iterator.operations B vectors).at (beginIterator p) j)
        ((Iterator.operations B vectors).at (beginIterator p) i)).map Int64.toInt =
      some (j - i) := by
  rw [Iterator.at_begin, Iterator.at_begin]
  exact signedSub_index hsize hi hj

/-- The laws of a random access iterator hold of `iterator` from `begin()` to `end()`. -/
theorem Iterator.laws (hs : vectors p = some s) (hsize : s.totalSize < 2 ^ 63) :
    Laws (Iterator.operations B vectors) (beginIterator p) (endIterator p s) s.totalSize
      fun k => s.referTo B p k.toNat where
  at_zero := by
    rw [Iterator.at_begin]
    rfl
  at_size := by
    rw [Iterator.at_begin, endIterator, Int64.ofInt_eq_ofNat, Int64.toUInt64_ofNat']
  add_add i n _ _ := Iterator.add_at vectors i n
  add_sub i n _ _ := by
    rw [Iterator.at_begin]
    change Iterator.mk (some p) ((Int64.ofInt i).toUInt64 + n.toUInt64 - n.toUInt64) = _
    rw [UInt64.add_sub_cancel]
  difference i j hi hj := Iterator.difference_at vectors hsize hi hj
  subscript i n _ hn _ := by
    rw [(Iterator.agrees vectors).subscript, Iterator.add_at, Iterator.deref_at vectors hs hsize hn]
    exact ⟨rfl, rfl⟩
  compares i j hi hj := by
    rw [Iterator.at_begin, Iterator.at_begin]
    exact Iterator.compares vectors hsize hi hj
  agrees := Iterator.agrees vectors

/-! ## The conversion to `const_iterator` -/

/-- The two copies of the class agree. -/
theorem ConstIterator.ofIterator_hom :
    Hom (Iterator.operations B vectors) (ConstIterator.operations B vectors)
      ConstIterator.ofIterator where
  deref _ := rfl
  arrow _ := rfl
  preIncrement _ := rfl
  postIncrement _ := rfl
  preDecrement _ := rfl
  postDecrement _ := rfl
  addAssign _ _ := rfl
  subAssign _ _ := rfl
  add _ _ := rfl
  sub _ _ := rfl
  difference _ _ := rfl
  subscript _ _ := rfl
  eq _ _ := rfl
  ne _ _ := rfl
  lt _ _ := rfl
  gt _ _ := rfl
  le _ _ := rfl
  ge _ _ := rfl

/-- The laws carry over to `const_iterator`, whose operators are those of `iterator`. -/
theorem ConstIterator.laws (hs : vectors p = some s) (hsize : s.totalSize < 2 ^ 63) :
    Laws (ConstIterator.operations B vectors) (beginConstIterator p) (endConstIterator p s)
      s.totalSize fun k => s.referTo B p k.toNat :=
  (Iterator.laws vectors hs hsize).map (ConstIterator.ofIterator_hom vectors)
    ConstIterator.ofIterator_surjective

/-- The iterators of one vector behave as their positions, and below `size()` they refer to its
elements. -/
theorem iterators_randomAccess {P T : Type} [DecidableEq P] (B : ℕ)
    (vectors : P → Option (ChunkedVector T)) (p : P) (s : ChunkedVector T)
    (hs : vectors p = some s) (hsize : s.totalSize < 2 ^ 63) :
    Laws (Iterator.operations B vectors) (beginIterator p) (endIterator p s) s.totalSize
        (fun k => s.referTo B p k.toNat) ∧
      Laws (ConstIterator.operations B vectors) (beginConstIterator p) (endConstIterator p s)
        s.totalSize (fun k => s.referTo B p k.toNat) ∧
      ∀ l, 0 < B → Holds B s l → ∀ i (hi : i < l.length), ∃ r,
        s.referTo B p i = some r ∧ r.load vectors = some l[i] :=
  ⟨Iterator.laws vectors hs hsize, ConstIterator.laws vectors hs hsize,
    fun _ hB h _ hi => ⟨_, h.referTo vectors hB hs hi⟩⟩

/-- Moves between the last element and the second one, which has the value of the third. -/
theorem iterators_randomAccess_two :
    let s : ChunkedVector ℕ := ⟨[[1, 7], [7, 9]], 4, [2, 2]⟩
    let ops := Iterator.operations 2 fun _ : Unit => some s
    let ops' := ConstIterator.operations 2 fun _ : Unit => some s
    ops.add (ops.at (beginIterator ()) 3) (-2) = ops.at (beginIterator ()) 1 ∧
      ops'.subscript (ops'.at (beginConstIterator ()) 3) (-2) = some ⟨(), 0, 1⟩ ∧
      (ops'.difference (ops'.at (beginConstIterator ()) 1)
        (ops'.at (beginConstIterator ()) 3)).map Int64.toInt = some (-2) ∧
      ops.lt (ops.at (beginIterator ()) 1) (ops.at (beginIterator ()) 3) = true := by
  intro s ops ops'
  obtain ⟨hlaws, hlaws', -⟩ :=
    iterators_randomAccess 2 (fun _ : Unit => some s) () s rfl (by decide)
  have hone : Position s.totalSize 1 := ⟨by decide, by decide⟩
  have hthree : Position s.totalSize 3 := ⟨by decide, by decide⟩
  have hmove : (3 : ℤ) + (-2 : Int64).toInt = 1 := by decide
  refine ⟨?_, ?_, ?_, ?_⟩
  · have h := hlaws.add_add 3 (-2) hthree (by rwa [hmove])
    rwa [hmove] at h
  · have h := (hlaws'.subscript 3 (-2) hthree (by rwa [hmove]) (by decide)).1
    rw [hmove] at h
    exact h.trans (by decide)
  · exact hlaws'.difference 3 1 hthree hone
  · exact (hlaws.compares 1 3 hone hthree).lt

/-! ## Loops -/

/-- A loop over a vector with iterators of either class ends, and reads what `elements` answers. -/
theorem Holds.mapEach (hB : 0 < B) (h : Holds B s l) (hs : vectors p = some s)
    (hsize : l.length < 2 ^ 63) :
    ∃ rs, (Iterator.operations B vectors).mapEach (endIterator p s) (l.length + 1)
        (beginIterator p) = some rs ∧
      (ConstIterator.operations B vectors).mapEach (endConstIterator p s) (l.length + 1)
        (beginConstIterator p) = some rs ∧
      rs.mapM (·.load vectors) = s.elements B := by
  have hsize' : s.totalSize < 2 ^ 63 := by rwa [h.size]
  have hlaws := Iterator.laws (B := B) vectors hs hsize'
  have hlaws' := ConstIterator.laws (B := B) vectors hs hsize'
  have hplace : ∀ k < s.totalSize, s.referTo B p (k : ℤ).toNat = some ⟨p, k / B, k % B⟩ := by
    intro k hk
    exact (h.referTo vectors hB hs (h.size ▸ hk)).1
  have hfuel : s.totalSize - 0 < l.length + 1 := by
    rw [h.size]
    exact Nat.lt_succ_self _
  have hloop := hlaws.mapEach hplace (Nat.zero_le _) hfuel
  have hloop' := hlaws'.mapEach hplace (Nat.zero_le _) hfuel
  rw [Int.natCast_zero, hlaws.at_zero] at hloop
  rw [Int.natCast_zero, hlaws'.at_zero] at hloop'
  refine ⟨_, hloop, hloop', ?_⟩
  rw [ChunkedVector.elements, h.iterate hB (Nat.zero_le _) (by rw [h.size]; omega), List.drop_zero]
  refine mapM_eq_some (List.ext_getElem? fun i => ?_)
  rw [Nat.sub_zero, h.size, List.getElem?_map, List.getElem?_map, List.getElem?_map]
  rcases Nat.lt_or_ge i l.length with hi | hi
  · simp [hi, (h.referTo vectors hB hs hi).2]
  · simp [hi]

end

end ChunkedVector

end RockCoro
