import RockCoro.Lib.RedBlack
import Mathlib.Data.Finset.Erase
import Mathlib.Data.Finset.Insert
import Mathlib.Logic.Function.Basic

/-!
# `RBTree`

The red-black tree of `basic_struct/red_black_tree.h` at the level of its pointers. The memory of
`RBTreeNode`s is one map per field; `_left` and `_right` are the map `child` at a side, so that the
mirrored blocks of the source are one definition at a side `d`. `new` and `delete` are a parameter
`Alloc`: any address that is not live, and any contents of a released node.

A loop takes a unit of fuel per round and answers `none` when it runs out; `none` also stands for
comparing with a node that has no data. The theorems about the operations prove that neither
happens.
-/

namespace RockCoro

open RedBlack (Color Dir)

/-- The nodes of a tree: its memory, `_root` and `_nil`; `live` are the nodes that
`get_rbtree_node` returned and `release_rbtree_node` did not take back, `news` counts the calls of
`get_rbtree_node`. -/
structure RBTree (Ptr T : Type) where
  data : Ptr → Option T
  color : Ptr → Color
  child : Dir → Ptr → Ptr
  parent : Ptr → Ptr
  root : Ptr
  nil : Ptr
  live : Finset Ptr
  news : ℕ

/-- What the tree takes from the allocator: `malloc n s` is the address of the `n`-th node when `s`
is live, and a released node holds the contents `junk`. -/
structure Alloc (Ptr T : Type) where
  malloc : ℕ → Finset Ptr → Ptr
  fresh : ∀ n s, malloc n s ∉ s
  junkData : Ptr → Option T
  junkColor : Ptr → Color
  junkChild : Dir → Ptr → Ptr
  junkParent : Ptr → Ptr

namespace RBTree

section
variable {Ptr T : Type} [DecidableEq Ptr]

/-- `p->color = c`. -/
def setColor (s : RBTree Ptr T) (p : Ptr) (c : Color) : RBTree Ptr T :=
  { s with color := Function.update s.color p c }

/-- `p->parent = q`. -/
def setParent (s : RBTree Ptr T) (p q : Ptr) : RBTree Ptr T :=
  { s with parent := Function.update s.parent p q }

/-- `p->left = q` or `p->right = q`. -/
def setChild (s : RBTree Ptr T) (d : Dir) (p q : Ptr) : RBTree Ptr T :=
  { s with child := Function.update s.child d (Function.update (s.child d) p q) }

/-- The constructor: the sentinel, black and linked to itself, is the root. -/
def init (A : Alloc Ptr T) : RBTree Ptr T :=
  let nil := A.malloc 0 ∅
  { data := fun _ => none
    color := fun _ => .black
    child := fun _ _ => nil
    parent := fun _ => nil
    root := nil
    nil := nil
    live := {nil}
    news := 1 }

/-! ## Rotations -/

/-- The link to `u` in `u`'s parent becomes `v`. -/
def relink (s : RBTree Ptr T) (u v : Ptr) : RBTree Ptr T :=
  if s.parent u = s.nil then { s with root := v }
  else if u = s.child .left (s.parent u) then s.setChild .left (s.parent u) v
  else s.setChild .right (s.parent u) v

/-- The rotation that lowers `x` to side `d`. -/
def rotate (d : Dir) (s : RBTree Ptr T) (x : Ptr) : RBTree Ptr T :=
  let y := s.child d.flip x
  let s := s.setChild d.flip x (s.child d y)
  let s := if s.child d y ≠ s.nil then s.setParent (s.child d y) x else s
  let s := s.setParent y (s.parent x)
  let s := s.relink x y
  let s := s.setChild d y x
  s.setParent x y

/-- `leftRotate`. -/
def leftRotate (s : RBTree Ptr T) (x : Ptr) : RBTree Ptr T := rotate .left s x

/-- `rightRotate`. -/
def rightRotate (s : RBTree Ptr T) (y : Ptr) : RBTree Ptr T := rotate .right s y

/-! ## Insertion -/

/-- The uncle `y` of `z` is red. -/
def fixInsertRecolor (s : RBTree Ptr T) (z y : Ptr) : RBTree Ptr T × Ptr :=
  let s := s.setColor (s.parent z) .black
  let s := s.setColor y .black
  let s := s.setColor (s.parent (s.parent z)) .red
  (s, s.parent (s.parent z))

/-- The uncle is black and `z` is the inner child: `z` moves up and is rotated to the outside. -/
def fixInsertInner (d : Dir) (s : RBTree Ptr T) (z : Ptr) : RBTree Ptr T × Ptr :=
  if z = s.child d.flip (s.parent z) then (rotate d s (s.parent z), s.parent z) else (s, z)

/-- The uncle is black and `z` is the outer child. -/
def fixInsertOuter (d : Dir) (s : RBTree Ptr T) (z : Ptr) : RBTree Ptr T :=
  let s := s.setColor (s.parent z) .black
  let s := s.setColor (s.parent (s.parent z)) .red
  rotate d.flip s (s.parent (s.parent z))

/-- A round of `fixInsert` at `z` whose parent is the grandparent's child on side `d`. -/
def fixInsertSide (d : Dir) (s : RBTree Ptr T) (z : Ptr) : RBTree Ptr T × Ptr :=
  let y := s.child d.flip (s.parent (s.parent z))
  if s.color y = .red then s.fixInsertRecolor z y
  else
    let (s, z) := s.fixInsertInner d z
    (s.fixInsertOuter d z, z)

/-- The loop of `fixInsert`, and the root that is coloured black after it. -/
def fixInsert : ℕ → RBTree Ptr T → Ptr → Option (RBTree Ptr T)
  | 0, _, _ => none
  | fuel + 1, s, z =>
    if s.color (s.parent z) = .red then
      let r :=
        if s.parent z = s.child .left (s.parent (s.parent z)) then fixInsertSide .left s z
        else fixInsertSide .right s z
      fixInsert fuel r.1 r.2
    else some (s.setColor s.root .black)

/-- `get_rbtree_node`, with the writes of `insert` to the new node. -/
def newNode (A : Alloc Ptr T) (s : RBTree Ptr T) (val : T) (parent : Ptr) : RBTree Ptr T × Ptr :=
  let node := A.malloc s.news s.live
  ({ s with
    data := Function.update s.data node (some val)
    color := Function.update s.color node .red
    child := fun d => Function.update (s.child d) node s.nil
    parent := Function.update s.parent node parent
    live := insert node s.live
    news := s.news + 1 }, node)

/-- `release_rbtree_node`. -/
def releaseNode (A : Alloc Ptr T) (s : RBTree Ptr T) (z : Ptr) : RBTree Ptr T :=
  { s with
    data := Function.update s.data z (A.junkData z)
    color := Function.update s.color z (A.junkColor z)
    child := fun d => Function.update (s.child d) z (A.junkChild d z)
    parent := Function.update s.parent z (A.junkParent z)
    live := s.live.erase z }

section
variable (compare : T → T → Bool)

/-- The search loop of `insert` and `findNode`: the last node visited and the node where the search
stops, `_nil` when no node is equivalent to `val`. -/
def descend (s : RBTree Ptr T) (val : T) : ℕ → Ptr → Ptr → Option (Ptr × Ptr)
  | 0, _, _ => none
  | fuel + 1, parent, cur =>
    if cur = s.nil then some (parent, cur)
    else do
      let x ← s.data cur
      if compare val x then descend s val fuel cur (s.child .left cur)
      else if compare x val then descend s val fuel cur (s.child .right cur)
      else some (cur, cur)

/-- `insert`: the search for the place, the new node, its link and the repair. -/
def insert (A : Alloc Ptr T) (fuel : ℕ) (s : RBTree Ptr T) (val : T) :
    Option (Bool × RBTree Ptr T) := do
  let (parent, cur) ← descend compare s val fuel s.nil s.root
  if cur ≠ s.nil then some (false, s)
  else do
    let (s, node) := s.newNode A val parent
    let s ← (if parent = s.nil then some { s with root := node }
      else (s.data parent).map fun x =>
        if compare val x then s.setChild .left parent node else s.setChild .right parent node)
    let s ← fixInsert fuel s node
    some (true, s)

/-- The node that the search for `val` ends at, or `_nil`. -/
def findNode (fuel : ℕ) (s : RBTree Ptr T) (val : T) : Option Ptr :=
  (descend compare s val fuel s.nil s.root).map Prod.snd

/-- `find`, as the element or nothing. -/
def find (fuel : ℕ) (s : RBTree Ptr T) (val : T) : Option (Option T) :=
  (s.findNode compare fuel val).map fun n => if n = s.nil then none else s.data n

end

/-! ## Minimum and maximum -/

/-- `leftMost` and `rightMost`: the last node on the way down side `d`. -/
def sideMost (d : Dir) (s : RBTree Ptr T) : ℕ → Ptr → Option Ptr
  | 0, _ => none
  | fuel + 1, node =>
    if s.child d node ≠ s.nil then sideMost d s fuel (s.child d node) else some node

/-- The leftmost node below `node`. -/
def leftMost (fuel : ℕ) (s : RBTree Ptr T) (node : Ptr) : Option Ptr := sideMost .left s fuel node

/-- The rightmost node below `node`. -/
def rightMost (fuel : ℕ) (s : RBTree Ptr T) (node : Ptr) : Option Ptr := sideMost .right s fuel node

/-- The least element, if the tree has one. -/
def minimum (fuel : ℕ) (s : RBTree Ptr T) : Option (Option T) :=
  if s.root = s.nil then some none else (s.leftMost fuel s.root).map s.data

/-- The greatest element, if the tree has one. -/
def maximum (fuel : ℕ) (s : RBTree Ptr T) : Option (Option T) :=
  if s.root = s.nil then some none else (s.rightMost fuel s.root).map s.data

/-! ## Deletion -/

/-- The link to `u` becomes `v`; `v`'s parent is written even when `v` is the sentinel. -/
def transplant (s : RBTree Ptr T) (u v : Ptr) : RBTree Ptr T :=
  let s := s.relink u v
  s.setParent v (s.parent u)

/-- The sibling `w` of `x` is red: `x` gets a black one. -/
def fixDeleteRed (d : Dir) (s : RBTree Ptr T) (x w : Ptr) : RBTree Ptr T × Ptr :=
  if s.color w = .red then
    let s := s.setColor w .black
    let s := s.setColor (s.parent x) .red
    let s := rotate d s (s.parent x)
    (s, s.child d.flip (s.parent x))
  else (s, w)

/-- The sibling `w` is black with a black far child: the far child becomes red. -/
def fixDeleteNear (d : Dir) (s : RBTree Ptr T) (x w : Ptr) : RBTree Ptr T × Ptr :=
  if s.color (s.child d.flip w) = .black then
    let s := s.setColor (s.child d w) .black
    let s := s.setColor w .red
    let s := rotate d.flip s w
    (s, s.child d.flip (s.parent x))
  else (s, w)

/-- The sibling `w` is black with a red far child. -/
def fixDeleteFar (d : Dir) (s : RBTree Ptr T) (x w : Ptr) : RBTree Ptr T :=
  let s := s.setColor w (s.color (s.parent x))
  let s := s.setColor (s.parent x) .black
  let s := s.setColor (s.child d.flip w) .black
  rotate d s (s.parent x)

/-- A round whose sibling `w` is black. -/
def fixDeleteBlack (d : Dir) (s : RBTree Ptr T) (x w : Ptr) : RBTree Ptr T × Ptr :=
  if s.color (s.child d w) = .black ∧ s.color (s.child d.flip w) = .black then
    (s.setColor w .red, s.parent x)
  else
    let (s, w) := s.fixDeleteNear d x w
    let s := s.fixDeleteFar d x w
    (s, s.root)

/-- A round of `fixDelete` at `x`, the child on side `d` of its parent. -/
def fixDeleteSide (d : Dir) (s : RBTree Ptr T) (x : Ptr) : RBTree Ptr T × Ptr :=
  let (s, w) := s.fixDeleteRed d x (s.child d.flip (s.parent x))
  s.fixDeleteBlack d x w

/-- The loop of `fixDelete`, and the node that is coloured black after it. -/
def fixDelete : ℕ → RBTree Ptr T → Ptr → Option (RBTree Ptr T)
  | 0, _, _ => none
  | fuel + 1, s, x =>
    if x ≠ s.root ∧ s.color x = .black then
      let r :=
        if x = s.child .left (s.parent x) then fixDeleteSide .left s x
        else fixDeleteSide .right s x
      fixDelete fuel r.1 r.2
    else some (s.setColor x .black)

/-- `y`, the leftmost node of the right subtree of `z`, leaves its place; the right subtree of `z`
becomes its own. -/
def freeSuccessor (s : RBTree Ptr T) (z y : Ptr) : RBTree Ptr T :=
  let x := s.child .right y
  if s.parent y = z then s.setParent x y
  else
    let s := s.transplant y (s.child .right y)
    let s := s.setChild .right y (s.child .right z)
    s.setParent (s.child .right y) y

/-- `y` takes the place of `z`, its left subtree and its colour. -/
def takePlace (s : RBTree Ptr T) (z y : Ptr) : RBTree Ptr T :=
  let s := s.transplant z y
  let s := s.setChild .left y (s.child .left z)
  let s := s.setParent (s.child .left y) y
  s.setColor y (s.color z)

/-- The three ways `deleteNode` unlinks `z`: the new memory, `x` and `yOriginalColor`. -/
def unlink (fuel : ℕ) (s : RBTree Ptr T) (z : Ptr) : Option (RBTree Ptr T × Ptr × Color) :=
  if s.child .left z = s.nil then
    some (s.transplant z (s.child .right z), s.child .right z, s.color z)
  else if s.child .right z = s.nil then
    some (s.transplant z (s.child .left z), s.child .left z, s.color z)
  else
    (s.leftMost fuel (s.child .right z)).map fun y =>
      ((s.freeSuccessor z y).takePlace z y, s.child .right y, s.color y)

/-- `deleteNode`: the node leaves the tree, the colours are repaired when a black one is missing,
and the node is released last. -/
def deleteNode (A : Alloc Ptr T) (fuel : ℕ) (s : RBTree Ptr T) (z : Ptr) :
    Option (RBTree Ptr T) := do
  let (s, x, yOriginalColor) ← s.unlink fuel z
  let s ← (if yOriginalColor = .black then fixDelete fuel s x else some s)
  some (s.releaseNode A z)

/-- `erase`, with the answer whether there was such an element. -/
def erase (compare : T → T → Bool) (A : Alloc Ptr T) (fuel : ℕ) (s : RBTree Ptr T) (val : T) :
    Option (Bool × RBTree Ptr T) := do
  let z ← s.findNode compare fuel val
  if z = s.nil then some (false, s)
  else do
    let s ← s.deleteNode A fuel z
    some (true, s)

/-- The in-order traversal below `p`. -/
def mapEach (s : RBTree Ptr T) : ℕ → Ptr → Option (List T)
  | 0, _ => none
  | fuel + 1, p =>
    if p = s.nil then some []
    else do
      let l ← mapEach s fuel (s.child .left p)
      let x ← s.data p
      let r ← mapEach s fuel (s.child .right p)
      some (l ++ x :: r)

end

end RBTree

end RockCoro
