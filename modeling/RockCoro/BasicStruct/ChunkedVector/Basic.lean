import Mathlib.Algebra.BigOperators.Group.List.Basic
import Mathlib.Algebra.Ring.Nat
import RockCoro.Lib.Fallible

/-!
# `ChunkedVector`

The vector of `basic_struct/chunked_vector.h`, over `std::vector` as lists with capacities. Each
operation of a `std::vector` that allocates or copies is one step that may throw and then has no
effect. Reads past the end and calls on an empty `std::vector` are undefined, and so are reads
through a reference to an element of a block that got other storage since. The blocks keep theirs
when `blocks_` gets other storage: it moves them. `size_t` wraps.
-/

namespace RockCoro

/-- How `std::vector` chooses its capacities. The standard leaves it open. -/
class CapacityPolicy where
  /-- The capacity that `reserve(n)` gives. -/
  reserve : ℕ → ℕ
  /-- The capacity for a vector that grows from a size to another. -/
  grow : ℕ → ℕ → ℕ

/-- The capacity is doubled, or more if that is not enough. -/
instance doubling : CapacityPolicy where
  reserve n := n
  grow size n := max (2 * size) n

/-- `capacities` are the capacities of the blocks. -/
structure ChunkedVector (T : Type) where
  blocks : List (List T) := []
  totalSize : ℕ := 0
  capacities : List ℕ := []
  deriving DecidableEq

/-- A sum of `size_t`. -/
def sizeAdd (a b : ℕ) : ℕ := (a + b) % 2 ^ 64

/-- What `std::vector::resize(n, value)` leaves. -/
def vectorResize {T : Type} (b : List T) (n : ℕ) (value : T) : List T :=
  b.take n ++ List.replicate (n - b.length) value

namespace ChunkedVector

open Fallible

variable {T : Type} [CapacityPolicy] (blockSize : ℕ)

/-- The elements in all blocks. -/
def objects (s : ChunkedVector T) : ℕ := (s.blocks.map List.length).sum

/-- The capacity of block `i`. -/
def capacity (s : ChunkedVector T) (i : ℕ) : ℕ := s.capacities.getD i 0

/-- `(n + BlockSize - 1) / BlockSize`. -/
def newBlockCount (n : ℕ) : ℕ := (n + blockSize - 1) % 2 ^ 64 / blockSize

/-- A change of block `i`, which gets a new capacity if the old one is exceeded. -/
def setBlock (s : ChunkedVector T) (i : ℕ) (f : List T → List T) : Option (ChunkedVector T) :=
  s.blocks[i]?.map fun b => { s with
    blocks := s.blocks.set i (f b)
    capacities :=
      if (f b).length ≤ s.capacity i then s.capacities
      else s.capacities.set i (CapacityPolicy.grow b.length (f b).length) }

/-- A change of `blocks_.back()`. -/
def setBack (s : ChunkedVector T) (f : List T → List T) : Option (ChunkedVector T) :=
  if s.blocks = [] then none else s.setBlock (s.blocks.length - 1) f

/-- `blocks_.empty() || blocks_.back().size() == BlockSize`. -/
def BackFull (s : ChunkedVector T) : Prop :=
  match s.blocks.getLast? with
  | some b => b.length = blockSize
  | none => True

instance (s : ChunkedVector T) : Decidable (s.BackFull blockSize) := by
  unfold BackFull
  split
  · infer_instance
  · infer_instance

/-- `blocks_.back().reserve(n)`. -/
def reserveBack (s : ChunkedVector T) (n : ℕ) : ChunkedVector T :=
  let i := s.blocks.length - 1
  if n ≤ s.capacity i then s
  else { s with capacities := s.capacities.set i (CapacityPolicy.reserve n) }

/-- A step that leaves the vector `s'`, and needs memory for its elements. -/
def holding (s' : ChunkedVector T) : ℕ × ChunkedVector T := (s'.objects, s')

/-! ## References -/

/-- A reference to an object that is not in the vector, or to an element of block `block`; or one to
an element that is gone. -/
inductive Ref (T : Type)
  | value (x : T)
  | slot (block offset : ℕ)
  | dangling
  deriving DecidableEq

/-- The object that is referred to. -/
def load (s : ChunkedVector T) : Ref T → Option T
  | .value x => some x
  | .slot block offset => do
    let b ← s.blocks[block]?
    b[offset]?
  | .dangling => none

/-- The reference when block `i` got other storage. -/
def Ref.moved (i : ℕ) : Ref T → Ref T
  | .slot block offset => if block = i then .dangling else .slot block offset
  | r => r

omit [CapacityPolicy] in
@[simp] theorem Ref.moved_value (i : ℕ) (x : T) : (Ref.value x).moved i = .value x := rfl

/-! ## Operations -/

/-- `emplace_back` and `reserve` are two steps. -/
def ensureBackBlock : Fallible (ChunkedVector T) Unit := do
  let s ← get
  if s.BackFull blockSize then
    attempt fun s => some (s.blocks.length + 1,
      { s with blocks := s.blocks ++ [[]], capacities := s.capacities ++ [0] })
    attempt fun s => some (blockSize, s.reserveBack blockSize)
  else pure ()

/-- The body that the overloads of `push_back` and `emplace_back` share. `std::vector` constructs
the new element before it releases the old storage, so `read` may be of its own elements. -/
def append (read : ChunkedVector T → Option T) : Fallible (ChunkedVector T) Unit := do
  ensureBackBlock blockSize
  attempt fun s => do
    let v ← read s
    let s' ← s.setBack (· ++ [v])
    some (holding s')
  modify fun s => some { s with totalSize := s.totalSize + 1 }

/-- `push_back(const T &)`. -/
def pushBack (v : Ref T) : Fallible (ChunkedVector T) Unit := append blockSize (·.load v)

/-- `push_back(T &&)`. The argument goes on to `std::vector`, which may take an rvalue reference for
the only one to its object; so the object is no element of the vector. -/
def pushBackMove (v : T) : Fallible (ChunkedVector T) Unit := append blockSize fun _ => some v

/-- `emplace_back`. `make` is what the constructor of `T` makes of the arguments: objects that are
not in the vector, and elements by reference. -/
def emplaceBack (make : List T → T) (args : List (Ref T)) : Fallible (ChunkedVector T) Unit :=
  append blockSize fun s => (args.mapM s.load).map make

/-- `pop_back`. -/
def popBack : Fallible (ChunkedVector T) Unit := do
  let s ← get
  if s.totalSize = 0 then pure ()
  else
    modify fun s =>
      match s.blocks.getLast? with
      | some (_ :: _) => s.setBack List.dropLast
      | _ => none
    modify fun s => some { s with totalSize := s.totalSize - 1 }
    modify fun s => some <|
      match s.blocks.getLast? with
      | some [] => { s with
          blocks := s.blocks.dropLast
          capacities := s.capacities.take (s.blocks.length - 1) }
      | _ => s

/-- `clear`. -/
def clear : Fallible (ChunkedVector T) Unit := modify fun _ => some {}

/-- `std::vector::resize(n, value)` of block `i`. `value` is read after all that may throw, and only
if elements are added; after that it refers to nothing if the block got other storage. -/
def resizeBlock (i n : ℕ) (value : Ref T) : Fallible (ChunkedVector T) (Ref T) := do
  let s ← get
  let b ← act fun s => s.blocks[i]?.map (·, s)
  if b.length < n then
    attempt fun s => some (s.objects + (n - b.length), s)
    modify fun s => do
      let x ← s.load value
      s.setBlock i (vectorResize · n x)
    pure (if n ≤ s.capacity i then value else value.moved i)
  else
    modify fun s => s.setBlock i (List.take n)
    pure value

/-- "Fill full blocks in bulk": the `while` loop of `resize` from `old_size`; it answers `old_size`
at the end, and the reference. A loop that does not end is undefined. -/
def fillBlocks (n : ℕ) : ℕ → ℕ → Ref T → Fallible (ChunkedVector T) (ℕ × Ref T)
  | 0, _, _ => fun _ _ _ => .undefined
  | fuel + 1, oldSize, value =>
    if sizeAdd oldSize blockSize ≤ n then do
      let value ← resizeBlock (oldSize / blockSize) blockSize value
      fillBlocks n fuel (sizeAdd oldSize blockSize) value
    else pure (oldSize, value)

/-- The part of `resize` that shrinks. `std::vector::resize` to a smaller size does not throw, and
block `n / BlockSize` has more than `n % BlockSize` elements here. -/
def shrink (n : ℕ) : Fallible (ChunkedVector T) Unit := do
  let s ← get
  if s.blocks = [] then pure ()
  else modify fun s => s.setBlock (n / blockSize) (List.take (n % blockSize))
  modify fun s => some { s with
    blocks := s.blocks.take (newBlockCount blockSize n)
    capacities := s.capacities.take (newBlockCount blockSize n) }
  modify fun s => some { s with totalSize := n }

/-- "Ensure enough blocks." -/
def ensureBlocks (n : ℕ) : Fallible (ChunkedVector T) Unit := do
  let s ← get
  if s.blocks.length < newBlockCount blockSize n then
    let more := newBlockCount blockSize n - s.blocks.length
    attempt fun s => some (newBlockCount blockSize n, { s with
      blocks := s.blocks ++ List.replicate more []
      capacities := s.capacities ++ List.replicate more 0 })
  else pure ()

/-- "Fill existing last block." -/
def fillLastBlock (n : ℕ) (value : Ref T) (oldSize : ℕ) :
    Fallible (ChunkedVector T) (ℕ × Ref T) := do
  let s ← get
  let oldBlock := oldSize / blockSize
  let oldOffset := oldSize % blockSize
  if oldBlock < s.blocks.length then
    let fillInBlock := min (blockSize - oldOffset) (n - oldSize)
    let value ← resizeBlock oldBlock (oldOffset + fillInBlock) value
    pure (oldSize + fillInBlock, value)
  else pure (oldSize, value)

/-- "Final partial block." -/
def fillPartialBlock (n : ℕ) (value : Ref T) (oldSize : ℕ) : Fallible (ChunkedVector T) Unit :=
  if oldSize < n then do
    let _ ← resizeBlock (oldSize / blockSize) (n % blockSize) value
    pure ()
  else pure ()

/-- The part of `resize` that grows. -/
def grow (n : ℕ) (value : Ref T) : Fallible (ChunkedVector T) Unit := do
  let s ← get
  ensureBlocks blockSize n
  let (oldSize, value) ← fillLastBlock blockSize n value s.totalSize
  let (oldSize, value) ← fillBlocks blockSize n (2 * (n / blockSize) + 3) oldSize value
  fillPartialBlock blockSize n value oldSize
  modify fun s => some { s with totalSize := n }

/-- `resize`. -/
def resize (n : ℕ) (value : Ref T) : Fallible (ChunkedVector T) Unit := do
  let s ← get
  if n = s.totalSize then pure ()
  else if n < s.totalSize then shrink blockSize n
  else grow blockSize n value

/-! ## Reads -/

/-- `operator[]`, with its assert. -/
def subscript (s : ChunkedVector T) (index : ℕ) : Option T :=
  if index < s.totalSize then do
    let b ← s.blocks[index / blockSize]?
    b[index % blockSize]?
  else none

/-- `at`. -/
def checkedAt (s : ChunkedVector T) (index : ℕ) : Option (Except String T) :=
  if s.totalSize ≤ index then some (.error "out of range")
  else (s.subscript blockSize index).map .ok

/-- `front`. -/
def front (s : ChunkedVector T) : Option T := s.subscript blockSize 0

/-- `back`. -/
def back (s : ChunkedVector T) : Option T :=
  s.subscript blockSize ((s.totalSize + (2 ^ 64 - 1)) % 2 ^ 64)

/-- The elements from the iterator at `index` to `end()`. -/
def iterate (s : ChunkedVector T) : ℕ → ℕ → Option (List T)
  | 0, _ => none
  | fuel + 1, index =>
    if index = s.totalSize then some []
    else do
      let x ← s.subscript blockSize index
      let xs ← s.iterate fuel (index + 1)
      some (x :: xs)

/-- The iteration from `begin()` to `end()`. -/
def elements (s : ChunkedVector T) : Option (List T) := s.iterate blockSize (s.totalSize + 1) 0

/-! ## Calls -/

/-- An argument of a call: an object that is not in the vector, or its element `i`. -/
inductive Arg (T : Type)
  | value (x : T)
  | element (i : ℕ)

/-- The reference that the caller passes for an argument: `operator[]` answers those to elements. -/
def refer (s : ChunkedVector T) : Arg T → Option (Ref T)
  | .value x => some (.value x)
  | .element i => (s.subscript blockSize i).map fun _ => .slot (i / blockSize) (i % blockSize)

/-- A call of a member function. -/
inductive Call (T : Type)
  | pushBack (v : Arg T)
  | pushBackMove (v : T)
  | emplaceBack (make : List T → T) (args : List (Arg T))
  | popBack
  | clear
  | resize (n : ℕ) (value : Arg T)

/-- A call, after its arguments. -/
def call : Call T → Fallible (ChunkedVector T) Unit
  | .pushBack a => do
    let v ← act fun s => (s.refer blockSize a).map (·, s)
    pushBack blockSize v
  | .pushBackMove v => pushBackMove blockSize v
  | .emplaceBack make args => do
    let rs ← act fun s => (args.mapM (s.refer blockSize)).map (·, s)
    emplaceBack blockSize make rs
  | .popBack => popBack
  | .clear => clear
  | .resize n a => do
    let value ← act fun s => (s.refer blockSize a).map (·, s)
    resize blockSize n value

/-- The number of blocks for the new size does not overflow. -/
def Call.Fits : Call T → Prop
  | .resize n _ => n + blockSize - 1 < 2 ^ 64
  | _ => True

/-- `resize` gives other storage to the block of its own argument, which it has to read again. -/
def Call.Dangles (s : ChunkedVector T) : Call T → Prop
  | .resize n (.element i) =>
    s.totalSize < n ∧ i / blockSize = s.totalSize / blockSize ∧
      s.capacity (i / blockSize) < blockSize ∧ (s.totalSize / blockSize + 1) * blockSize < n
  | _ => False

instance (s : ChunkedVector T) : (c : Call T) → Decidable (c.Dangles blockSize s)
  | .resize _ (.element _) => inferInstanceAs (Decidable (_ ∧ _))
  | .resize _ (.value _) | .pushBack _ | .pushBackMove _ | .emplaceBack .. | .popBack | .clear =>
    inferInstanceAs (Decidable False)

/-- The value of an argument. The element has to exist. -/
def Arg.get (l : List T) : Arg T → Option T
  | value x => some x
  | element i => l[i]?

/-- The same call on a list. It is possible if its arguments exist. -/
def Call.onList (l : List T) : Call T → Option (List T)
  | .pushBack a => (a.get l).map fun v => l ++ [v]
  | .pushBackMove v => some (l ++ [v])
  | .emplaceBack make args => (args.mapM (Arg.get l)).map fun vs => l ++ [make vs]
  | .popBack => some l.dropLast
  | .clear => some []
  | .resize n a => (a.get l).map fun value => vectorResize l n value

/-- One call after another. -/
def run (calls : List (Call T)) : Fallible (ChunkedVector T) Unit := runAll (call blockSize) calls

end ChunkedVector

end RockCoro
