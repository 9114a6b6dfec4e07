import RockCoro.BasicStruct.RedBlackTree.Refine
import RockCoro.Lib.Accesses

/-!
# `RBTree` access by access

The member functions of `basic_struct/red_black_tree.h` as programs over the cells of the nodes, in
the order of the source's reads and writes, with marks where a rotation is called, where `fixInsert`
comes to a grandparent, where `fixDelete` starts and where it takes a sibling. `Op.run_code` says
that they do what the functions on whole memories do.
-/

namespace RockCoro.RBTree

open RedBlack (Color Dir)

/-- The fields of the nodes, `_root`, and the allocator's books. -/
inductive Cell (Ptr : Type)
  | data (p : Ptr)
  | color (p : Ptr)
  | child (d : Dir) (p : Ptr)
  | parent (p : Ptr)
  | root
  | live
  | news

/-- What a cell holds. -/
abbrev Cell.Val (Ptr T : Type) : Cell Ptr → Type
  | .data _ => Option T
  | .color _ => Color
  | .child .. | .parent _ | .root => Ptr
  | .live => Finset Ptr
  | .news => ℕ

/-- The points that the properties of a run speak of. -/
inductive Mark (Ptr : Type)
  /-- The call of the rotation that lowers `x` to side `d`. -/
  | rotate (d : Dir) (x : Ptr)
  /-- A round of `fixInsert` whose grandparent is `g`. -/
  | grandparent (g : Ptr)
  /-- The call of `fixDelete`. -/
  | fixDelete (x : Ptr)
  /-- `fixDelete` takes `w` as the sibling. -/
  | sibling (w : Ptr)

section
variable {Ptr T : Type} [DecidableEq Ptr]

instance : Cells (RBTree Ptr T) (Cell.Val Ptr T) where
  get s
    | .data p => s.data p
    | .color p => s.color p
    | .child d p => s.child d p
    | .parent p => s.parent p
    | .root => s.root
    | .live => s.live
    | .news => s.news
  set s
    | .data p, v => { s with data := Function.update s.data p v }
    | .color p, v => s.setColor p v
    | .child d p, v => s.setChild d p v
    | .parent p, v => s.setParent p v
    | .root, v => { s with root := v }
    | .live, v => { s with live := v }
    | .news, v => { s with news := v }
  get_set_self s i v := by
    cases i with
    | data p | color p | parent p => exact Function.update_self ..
    | child d p => simp [setChild]
    | root | live | news => rfl
  get_set_of_ne s i v j h := by
    cases i with
    | data p | color p | parent p =>
      cases j <;> first
        | rfl
        | exact Function.update_of_ne (fun hp => h (congrArg _ hp)) ..
    | child d p =>
      cases j with
      | child e q =>
        rcases eq_or_ne e d with rfl | hd
        · have hq : q ≠ p := fun hp => h (congrArg _ hp)
          simp [setChild, hq]
        · simp [setChild, hd]
      | data | color | parent | root | live | news => rfl
    | root | live | news =>
      cases j <;> first
        | rfl
        | exact absurd rfl h

end

/-- A program over the cells of the tree. -/
abbrev Code (Ptr T α : Type) : Type := Prog (Cell.Val Ptr T) (Mark Ptr) α

namespace Code

section
variable {Ptr T : Type}

/-- Reads `p->data`. -/
abbrev data (p : Ptr) : Code Ptr T (Option T) := .read (.data p) .ret

/-- Reads `p->color`. -/
abbrev color (p : Ptr) : Code Ptr T Color := .read (.color p) .ret

/-- Reads `p->left` or `p->right`. -/
abbrev child (d : Dir) (p : Ptr) : Code Ptr T Ptr := .read (.child d p) .ret

/-- Reads `p->parent`. -/
abbrev parent (p : Ptr) : Code Ptr T Ptr := .read (.parent p) .ret

/-- Reads `_root`. -/
abbrev root : Code Ptr T Ptr := .read .root .ret

/-- Writes `p->color`. -/
abbrev setColor (p : Ptr) (c : Color) : Code Ptr T Unit := .write (.color p) c (.ret ())

/-- Writes `p->left` or `p->right`. -/
abbrev setChild (d : Dir) (p q : Ptr) : Code Ptr T Unit := .write (.child d p) q (.ret ())

/-- Writes `p->parent`. -/
abbrev setParent (p q : Ptr) : Code Ptr T Unit := .write (.parent p) q (.ret ())

/-- Writes `_root`. -/
abbrev setRoot (p : Ptr) : Code Ptr T Unit := .write .root p (.ret ())

/-- Passes the point `e` of the source, without an access. -/
abbrev mark (e : Mark Ptr) : Code Ptr T Unit := Prog.mark e (.ret ())

variable [DecidableEq Ptr] (nil : Ptr)

/-! ## Rotations -/

/-- The link to `u` in `u`'s parent becomes `v`. -/
def relink (u v : Ptr) : Code Ptr T Unit := do
  if (← parent u) = nil then setRoot v
  else do
    if u = (← child .left (← parent u)) then setChild .left (← parent u) v
    else setChild .right (← parent u) v

/-- `leftRotate` and `rightRotate`. -/
def rotate (d : Dir) (x : Ptr) : Code Ptr T Unit := do
  mark (.rotate d x)
  let y ← child d.flip x
  setChild d.flip x (← child d y)
  if (← child d y) ≠ nil then setParent (← child d y) x
  setParent y (← parent x)
  relink nil x y
  setChild d y x
  setParent x y

/-! ## Insertion -/

/-- The uncle `y` of `z` is red. -/
def fixInsertRecolor (z y : Ptr) : Code Ptr T Ptr := do
  setColor (← parent z) .black
  setColor y .black
  setColor (← parent (← parent z)) .red
  parent (← parent z)

/-- The uncle is black and `z` is the inner child. -/
def fixInsertInner (d : Dir) (z : Ptr) : Code Ptr T Ptr := do
  if z = (← child d.flip (← parent z)) then do
    let z ← parent z
    rotate nil d z
    return z
  else return z

/-- The uncle is black and `z` is the outer child. -/
def fixInsertOuter (d : Dir) (z : Ptr) : Code Ptr T Unit := do
  setColor (← parent z) .black
  setColor (← parent (← parent z)) .red
  rotate nil d.flip (← parent (← parent z))

/-- A round of `fixInsert` at `z` whose parent is the child on side `d`. -/
def fixInsertSide (d : Dir) (z : Ptr) : Code Ptr T Ptr := do
  let y ← child d.flip (← parent (← parent z))
  if (← color y) = .red then fixInsertRecolor z y
  else do
    let z ← fixInsertInner nil d z
    fixInsertOuter nil d z
    return z

/-- The loop of `fixInsert`; it passes a mark with the grandparent that it is about to use. -/
def fixInsert : ℕ → Ptr → Code Ptr T Unit
  | 0, _ => .fail
  | fuel + 1, z => do
    if (← color (← parent z)) = .red then do
      let g ← parent (← parent z)
      mark (.grandparent g)
      if (← parent z) = (← child .left g) then do
        let z ← fixInsertSide nil .left z
        fixInsert fuel z
      else do
        let z ← fixInsertSide nil .right z
        fixInsert fuel z
    else setColor (← root) .black

variable (A : Alloc Ptr T)

/-- `get_rbtree_node`, with the writes of `insert` to the new node. -/
def newNode (val : T) (parent : Ptr) : Code Ptr T Ptr := do
  let live ← .read .live .ret
  let news ← .read .news .ret
  let node := A.malloc news live
  Prog.write .live (Insert.insert node live) (.ret ())
  Prog.write .news (news + 1) (.ret ())
  Prog.write (.data node) (some val) (.ret ())
  setChild .left node nil
  setChild .right node nil
  setParent node parent
  setColor node .red
  return node

/-- `release_rbtree_node`. -/
def releaseNode (z : Ptr) : Code Ptr T Unit := do
  Prog.write (.data z) (A.junkData z) (.ret ())
  setColor z (A.junkColor z)
  setChild .left z (A.junkChild .left z)
  setChild .right z (A.junkChild .right z)
  setParent z (A.junkParent z)
  let live ← .read .live .ret
  Prog.write .live (live.erase z) (.ret ())

/-- The element of a node that has one. -/
def value (p : Ptr) : Code Ptr T T := do
  match ← data p with
  | some x => return x
  | none => .fail

section
variable (compare : T → T → Bool)

/-- The search for `val` from `cur`, whose parent comes along. -/
def descend (val : T) : ℕ → Ptr → Ptr → Code Ptr T (Ptr × Ptr)
  | 0, _, _ => .fail
  | fuel + 1, parent, cur =>
    if cur = nil then return (parent, cur)
    else do
      let x ← value cur
      if compare val x then do
        let next ← child .left cur
        descend val fuel cur next
      else if compare x val then do
        let next ← child .right cur
        descend val fuel cur next
      else return (cur, cur)

/-- The new node becomes the root or a child of the last node visited. -/
def link (val : T) (parent node : Ptr) : Code Ptr T Unit := do
  if parent = nil then setRoot node
  else do
    let x ← value parent
    if compare val x then setChild .left parent node else setChild .right parent node

/-- `insert`, as accesses. -/
def insert (fuel : ℕ) (val : T) : Code Ptr T Bool := do
  let (parent, cur) ← descend nil compare val fuel nil (← root)
  if cur ≠ nil then return false
  else do
    let node ← newNode nil A val parent
    link nil compare val parent node
    fixInsert nil fuel node
    return true

/-- The node that the search for `val` ends at, or `_nil`. -/
def findNode (fuel : ℕ) (val : T) : Code Ptr T Ptr := do
  let (_, cur) ← descend nil compare val fuel nil (← root)
  return cur

/-- `find`, as the element or nothing. -/
def find (fuel : ℕ) (val : T) : Code Ptr T (Option T) := do
  let n ← findNode nil compare fuel val
  if n = nil then return none else data n

end

/-! ## Minimum and maximum -/

/-- The last node on side `d` below a node. -/
def sideMost (d : Dir) : ℕ → Ptr → Code Ptr T Ptr
  | 0, _ => .fail
  | fuel + 1, node => do
    if (← child d node) ≠ nil then do
      let node ← child d node
      sideMost d fuel node
    else return node

/-- The least element, if the tree has one. -/
def minimum (fuel : ℕ) : Code Ptr T (Option T) := do
  if (← root) = nil then return none else data (← sideMost nil .left fuel (← root))

/-- The greatest element, if the tree has one. -/
def maximum (fuel : ℕ) : Code Ptr T (Option T) := do
  if (← root) = nil then return none else data (← sideMost nil .right fuel (← root))

/-! ## Deletion -/

/-- `transplant`; the parent of `v` is written even if `v` is `_nil`. -/
def transplant (u v : Ptr) : Code Ptr T Unit := do
  relink nil u v
  setParent v (← parent u)

/-- The sibling `w` of `x` is red. -/
def fixDeleteRed (d : Dir) (x w : Ptr) : Code Ptr T Ptr := do
  if (← color w) = .red then do
    setColor w .black
    setColor (← parent x) .red
    rotate nil d (← parent x)
    let w ← child d.flip (← parent x)
    mark (.sibling w)
    return w
  else return w

/-- The far child of the sibling is black. -/
def fixDeleteNear (d : Dir) (x w : Ptr) : Code Ptr T Ptr := do
  if (← color (← child d.flip w)) = .black then do
    setColor (← child d w) .black
    setColor w .red
    rotate nil d.flip w
    let w ← child d.flip (← parent x)
    mark (.sibling w)
    return w
  else return w

/-- The sibling is black and has a red child on the far side. -/
def fixDeleteFar (d : Dir) (x w : Ptr) : Code Ptr T Unit := do
  setColor w (← color (← parent x))
  setColor (← parent x) .black
  setColor (← child d.flip w) .black
  rotate nil d (← parent x)

/-- Whether both children of the sibling are black; the second is not read unless the first is. -/
def bothBlack (d : Dir) (w : Ptr) : Code Ptr T Bool := do
  if (← color (← child d w)) = .black then do
    let c ← color (← child d.flip w)
    return decide (c = .black)
  else return false

/-- The sibling `w` is black; the answer is the node to go on with. -/
def fixDeleteBlack (d : Dir) (x w : Ptr) : Code Ptr T Ptr := do
  if ← bothBlack d w then do
    setColor w .red
    parent x
  else do
    let w ← fixDeleteNear nil d x w
    fixDeleteFar nil d x w
    root

/-- A round of `fixDelete` at `x`, the child on side `d`. -/
def fixDeleteSide (d : Dir) (x : Ptr) : Code Ptr T Ptr := do
  let w ← child d.flip (← parent x)
  mark (.sibling w)
  let w ← fixDeleteRed nil d x w
  fixDeleteBlack nil d x w

/-- The condition of the loop. -/
def blackBelowRoot (x : Ptr) : Code Ptr T Bool := do
  if x ≠ (← root) then do
    let c ← color x
    return decide (c = .black)
  else return false

/-- The loop of `fixDelete`. -/
def fixDelete : ℕ → Ptr → Code Ptr T Unit
  | 0, _ => .fail
  | fuel + 1, x => do
    if ← blackBelowRoot x then do
      if x = (← child .left (← parent x)) then do
        let x ← fixDeleteSide nil .left x
        fixDelete fuel x
      else do
        let x ← fixDeleteSide nil .right x
        fixDelete fuel x
    else setColor x .black

/-- `y`, the leftmost node of the right subtree of `z`, leaves its place. -/
def freeSuccessor (z y x : Ptr) : Code Ptr T Unit := do
  if (← parent y) = z then setParent x y
  else do
    transplant nil y (← child .right y)
    setChild .right y (← child .right z)
    setParent (← child .right y) y

/-- `y` takes the place of `z`. -/
def takePlace (z y : Ptr) : Code Ptr T Unit := do
  transplant nil z y
  setChild .left y (← child .left z)
  setParent (← child .left y) y
  setColor y (← color z)

/-- `deleteNode` up to its call of `fixDelete`: `x` and `yOriginalColor`. -/
def unlink (fuel : ℕ) (z : Ptr) : Code Ptr T (Ptr × Color) := do
  let yOriginalColor ← color z
  if (← child .left z) = nil then do
    let x ← child .right z
    transplant nil z (← child .right z)
    return (x, yOriginalColor)
  else do
    if (← child .right z) = nil then do
      let x ← child .left z
      transplant nil z (← child .left z)
      return (x, yOriginalColor)
    else do
      let y ← sideMost nil .left fuel (← child .right z)
      let yOriginalColor ← color y
      let x ← child .right y
      freeSuccessor nil z y x
      takePlace nil z y
      return (x, yOriginalColor)

/-- The call of `fixDelete`. -/
def repair (fuel : ℕ) (x : Ptr) (yOriginalColor : Color) : Code Ptr T Unit := do
  if yOriginalColor = .black then do
    mark (.fixDelete x)
    fixDelete nil fuel x

/-- `deleteNode`, as accesses. -/
def deleteNode (fuel : ℕ) (z : Ptr) : Code Ptr T Unit := do
  let (x, yOriginalColor) ← unlink nil fuel z
  repair nil fuel x yOriginalColor
  releaseNode A z

/-- `erase`, as accesses. -/
def erase (compare : T → T → Bool) (fuel : ℕ) (val : T) : Code Ptr T Bool := do
  let z ← findNode nil compare fuel val
  if z = nil then return false
  else do
    deleteNode nil A fuel z
    return true

end

/-! ## The runs -/

variable {Ptr T : Type} [DecidableEq Ptr] {s : RBTree Ptr T}

@[simp] theorem get_data (p : Ptr) : Cells.get s (.data p) = s.data p := rfl
@[simp] theorem get_color (p : Ptr) : Cells.get s (.color p) = s.color p := rfl
@[simp] theorem get_child (d : Dir) (p : Ptr) : Cells.get s (.child d p) = s.child d p := rfl
@[simp] theorem get_parent (p : Ptr) : Cells.get s (.parent p) = s.parent p := rfl
@[simp] theorem get_root : Cells.get s .root = s.root := rfl
@[simp] theorem get_live : Cells.get s .live = s.live := rfl
@[simp] theorem get_news : Cells.get s .news = s.news := rfl
@[simp] theorem set_color (p : Ptr) (c : Color) : Cells.set s (.color p) c = s.setColor p c := rfl
@[simp] theorem set_child (d : Dir) (p q : Ptr) :
    Cells.set s (.child d p) q = s.setChild d p q := rfl
@[simp] theorem set_parent (p q : Ptr) : Cells.set s (.parent p) q = s.setParent p q := rfl
@[simp] theorem set_root (p : Ptr) : Cells.set s .root p = { s with root := p } := rfl

@[simp] theorem setColor_nil (p : Ptr) (c : Color) : (s.setColor p c).nil = s.nil := by
  cases s
  rfl

@[simp] theorem setChild_nil (d : Dir) (p q : Ptr) : (s.setChild d p q).nil = s.nil := by
  cases s
  rfl

@[simp] theorem setParent_nil (p q : Ptr) : (s.setParent p q).nil = s.nil := by
  cases s
  rfl

@[simp] theorem relink_nil (u v : Ptr) : (s.relink u v).nil = s.nil := by
  unfold RBTree.relink
  split_ifs
  · rfl
  · exact setChild_nil ..
  · exact setChild_nil ..

@[simp] theorem rotate_nil (d : Dir) (x : Ptr) : (s.rotate d x).nil = s.nil := by
  unfold RBTree.rotate
  simp only [setParent_nil, setChild_nil, relink_nil]
  split
  · exact setParent_nil ..
  · rfl

variable {nil : Ptr}

/-- No cell holds the address `_nil`. -/
theorem set_nil (i : Cell Ptr) (v : Cell.Val Ptr T i) : (Cells.set s i v).nil = s.nil := by
  cases i <;> rfl

/-- No program writes `_nil`. -/
theorem nil_of_run {α : Type} {p : Code Ptr T α} {r : α × RBTree Ptr T} (h : p.run s = some r) :
    r.2.nil = s.nil := by
  induction p generalizing s with
  | ret a =>
    obtain rfl := Option.some.inj h
    rfl
  | fail => exact absurd h (by simp)
  | read i k ih => exact ih _ h
  | write i v k ih => exact (ih h).trans (set_nil i v)
  | mark e k ih => exact ih h

@[simp] theorem run_relink (u v : Ptr) (hn : s.nil = nil) :
    (relink nil u v).run s = some ((), s.relink u v) := by
  subst hn
  simp [relink, RBTree.relink]
  split_ifs <;> rfl

@[simp] theorem run_rotate (d : Dir) (x : Ptr) (hn : s.nil = nil) :
    (rotate nil d x).run s = some ((), s.rotate d x) := by
  subst hn
  simp [rotate, RBTree.rotate, Prog.run_bind]
  split_ifs <;> simp

@[simp] theorem run_fixInsertRecolor (z y : Ptr) :
    (fixInsertRecolor z y).run s = some ((s.fixInsertRecolor z y).2, (s.fixInsertRecolor z y).1) :=
  rfl

@[simp] theorem run_fixInsertInner (d : Dir) (z : Ptr) (hn : s.nil = nil) :
    (fixInsertInner nil d z).run s =
      some ((s.fixInsertInner d z).2, (s.fixInsertInner d z).1) := by
  subst hn
  simp [fixInsertInner, RBTree.fixInsertInner, Prog.run_bind]
  split_ifs <;> simp

@[simp] theorem fixInsertInner_nil (d : Dir) (z : Ptr) :
    (s.fixInsertInner d z).1.nil = s.nil := nil_of_run (run_fixInsertInner d z rfl)

@[simp] theorem run_fixInsertOuter (d : Dir) (z : Ptr) (hn : s.nil = nil) :
    (fixInsertOuter nil d z).run s = some ((), s.fixInsertOuter d z) := by
  subst hn
  simp [fixInsertOuter, RBTree.fixInsertOuter]

@[simp] theorem run_fixInsertSide (d : Dir) (z : Ptr) (hn : s.nil = nil) :
    (fixInsertSide nil d z).run s =
      some ((s.fixInsertSide d z).2, (s.fixInsertSide d z).1) := by
  subst hn
  simp [fixInsertSide, RBTree.fixInsertSide, Prog.run_bind]
  split_ifs <;> simp

@[simp] theorem fixInsertSide_nil (d : Dir) (z : Ptr) :
    (s.fixInsertSide d z).1.nil = s.nil := nil_of_run (run_fixInsertSide d z rfl)

@[simp] theorem run_fixInsert (fuel : ℕ) (z : Ptr) (hn : s.nil = nil) :
    (fixInsert nil fuel z).run s = (s.fixInsert fuel z).map ((), ·) := by
  induction fuel generalizing s z with
  | zero => rfl
  | succ fuel ih =>
    subst hn
    simp [fixInsert, RBTree.fixInsert, Prog.run_bind]
    split_ifs
    · simp [ih]
    · simp [ih]
    · rfl

/-- Both links of a node. -/
theorem update_children (f : Dir → Ptr → Ptr) (p : Ptr) (g : Dir → Ptr) :
    Function.update (Function.update f .left (Function.update (f .left) p (g .left))) .right
        (Function.update (f .right) p (g .right)) =
      fun d => Function.update (f d) p (g d) := by
  funext d
  cases d <;> simp

@[simp] theorem run_newNode (A : Alloc Ptr T) (val : T) (p : Ptr) (hn : s.nil = nil) :
    (newNode nil A val p).run s = some ((s.newNode A val p).2, (s.newNode A val p).1) := by
  subst hn
  have hchild := update_children s.child (A.malloc s.news s.live) fun _ => s.nil
  simp only [RBTree.newNode, ← hchild]
  rfl

@[simp] theorem newNode_nil (A : Alloc Ptr T) (val : T) (p : Ptr) :
    (s.newNode A val p).1.nil = s.nil := nil_of_run (run_newNode A val p rfl)

@[simp] theorem run_releaseNode (A : Alloc Ptr T) (z : Ptr) :
    (releaseNode A z).run s = some ((), s.releaseNode A z) := by
  have hchild := update_children s.child z fun d => A.junkChild d z
  simp only [RBTree.releaseNode, ← hchild]
  rfl

@[simp] theorem run_value (p : Ptr) : (value p).run s = (s.data p).map (·, s) := by
  simp only [value, Prog.bind_eq, Prog.read_bind, Prog.ret_bind, Prog.run_read, get_data]
  cases s.data p <;> rfl

section
variable (compare : T → T → Bool)

@[simp] theorem run_descend (fuel : ℕ) (val : T) (p q : Ptr) (hn : s.nil = nil) :
    (descend nil compare val fuel p q).run s =
      (RBTree.descend compare s val fuel p q).map (·, s) := by
  induction fuel generalizing p q with
  | zero => rfl
  | succ fuel ih =>
    subst hn
    simp [descend, RBTree.descend, Prog.run_bind]
    split_ifs
    · simp
    · cases s.data q with
      | none => rfl
      | some x =>
        simp
        split_ifs <;> simp [ih]

@[simp] theorem run_link (val : T) (p q : Ptr) (hn : s.nil = nil) :
    (link nil compare val p q).run s =
      (if p = s.nil then some { s with root := q }
        else (s.data p).map fun x =>
          if compare val x then s.setChild .left p q else s.setChild .right p q).map ((), ·) := by
  subst hn
  simp [link, Prog.run_bind]
  split_ifs
  · rfl
  · cases s.data p with
    | none => rfl
    | some x =>
      simp
      split_ifs <;> rfl

@[simp] theorem run_insert (A : Alloc Ptr T) (fuel : ℕ) (val : T) (hn : s.nil = nil) :
    (insert nil A compare fuel val).run s = s.insert compare A fuel val := by
  subst hn
  simp [insert, RBTree.insert, Prog.run_bind]
  cases RBTree.descend compare s val fuel s.nil s.root with
  | none => rfl
  | some r =>
    obtain ⟨parent, cur⟩ := r
    simp
    split_ifs
    · simp [Option.bind_map]
    · cases (s.newNode A val parent).1.data parent with
      | none => rfl
      | some x =>
        simp
        split_ifs <;> simp [Option.bind_map]
    · rfl

@[simp] theorem run_findNode (fuel : ℕ) (val : T) (hn : s.nil = nil) :
    (findNode nil compare fuel val).run s = (s.findNode compare fuel val).map (·, s) := by
  subst hn
  simp [findNode, RBTree.findNode, Prog.run_bind]
  cases RBTree.descend compare s val fuel s.nil s.root <;> rfl

@[simp] theorem run_find (fuel : ℕ) (val : T) (hn : s.nil = nil) :
    (find nil compare fuel val).run s = (s.find compare fuel val).map (·, s) := by
  subst hn
  simp [find, RBTree.find, Prog.run_bind]
  cases s.findNode compare fuel val with
  | none => rfl
  | some n =>
    simp
    split_ifs <;> rfl

end

@[simp] theorem run_sideMost (d : Dir) (fuel : ℕ) (p : Ptr) (hn : s.nil = nil) :
    (sideMost nil d fuel p).run s = (s.sideMost d fuel p).map (·, s) := by
  induction fuel generalizing p with
  | zero => rfl
  | succ fuel ih =>
    subst hn
    simp [sideMost, RBTree.sideMost]
    split_ifs <;> simp [ih]

@[simp] theorem run_minimum (fuel : ℕ) (hn : s.nil = nil) :
    (minimum nil fuel).run s = (s.minimum fuel).map (·, s) := by
  subst hn
  simp [minimum, RBTree.minimum, RBTree.leftMost, Prog.run_bind]
  split_ifs
  · rfl
  · cases s.sideMost .left fuel s.root <;> rfl

@[simp] theorem run_maximum (fuel : ℕ) (hn : s.nil = nil) :
    (maximum nil fuel).run s = (s.maximum fuel).map (·, s) := by
  subst hn
  simp [maximum, RBTree.maximum, RBTree.rightMost, Prog.run_bind]
  split_ifs
  · rfl
  · cases s.sideMost .right fuel s.root <;> rfl

/-! ### Deletion -/

@[simp] theorem run_transplant (u v : Ptr) (hn : s.nil = nil) :
    (transplant nil u v).run s = some ((), s.transplant u v) := by
  subst hn
  simp [transplant, RBTree.transplant, Prog.run_bind]

@[simp] theorem transplant_nil (u v : Ptr) : (s.transplant u v).nil = s.nil :=
  nil_of_run (run_transplant u v rfl)

@[simp] theorem run_fixDeleteRed (d : Dir) (x w : Ptr) (hn : s.nil = nil) :
    (fixDeleteRed nil d x w).run s =
      some ((s.fixDeleteRed d x w).2, (s.fixDeleteRed d x w).1) := by
  subst hn
  simp [fixDeleteRed, RBTree.fixDeleteRed, Prog.run_bind]
  split_ifs <;> simp

@[simp] theorem fixDeleteRed_nil (d : Dir) (x w : Ptr) : (s.fixDeleteRed d x w).1.nil = s.nil :=
  nil_of_run (run_fixDeleteRed d x w rfl)

@[simp] theorem run_fixDeleteNear (d : Dir) (x w : Ptr) (hn : s.nil = nil) :
    (fixDeleteNear nil d x w).run s =
      some ((s.fixDeleteNear d x w).2, (s.fixDeleteNear d x w).1) := by
  subst hn
  simp [fixDeleteNear, RBTree.fixDeleteNear, Prog.run_bind]
  split_ifs <;> simp

@[simp] theorem fixDeleteNear_nil (d : Dir) (x w : Ptr) : (s.fixDeleteNear d x w).1.nil = s.nil :=
  nil_of_run (run_fixDeleteNear d x w rfl)

@[simp] theorem run_fixDeleteFar (d : Dir) (x w : Ptr) (hn : s.nil = nil) :
    (fixDeleteFar nil d x w).run s = some ((), s.fixDeleteFar d x w) := by
  subst hn
  simp [fixDeleteFar, RBTree.fixDeleteFar]

@[simp] theorem run_bothBlack (d : Dir) (w : Ptr) :
    (bothBlack d w).run s = some (decide (s.color (s.child d w) = .black ∧
      s.color (s.child d.flip w) = .black), s) := by
  simp [bothBlack]
  split_ifs with h
  · simp [h]
  · simp [h]

@[simp] theorem run_fixDeleteBlack (d : Dir) (x w : Ptr) (hn : s.nil = nil) :
    (fixDeleteBlack nil d x w).run s =
      some ((s.fixDeleteBlack d x w).2, (s.fixDeleteBlack d x w).1) := by
  subst hn
  simp [fixDeleteBlack, RBTree.fixDeleteBlack, Prog.run_bind]
  split_ifs <;> simp

@[simp] theorem run_fixDeleteSide (d : Dir) (x : Ptr) (hn : s.nil = nil) :
    (fixDeleteSide nil d x).run s = some ((s.fixDeleteSide d x).2, (s.fixDeleteSide d x).1) := by
  subst hn
  simp [fixDeleteSide, RBTree.fixDeleteSide, Prog.run_bind]

@[simp] theorem fixDeleteSide_nil (d : Dir) (x : Ptr) : (s.fixDeleteSide d x).1.nil = s.nil :=
  nil_of_run (run_fixDeleteSide d x rfl)

@[simp] theorem run_blackBelowRoot (x : Ptr) :
    (blackBelowRoot x).run s = some (decide (x ≠ s.root ∧ s.color x = .black), s) := by
  simp [blackBelowRoot]
  split_ifs with h
  · simp [h]
  · simp [h]

@[simp] theorem run_fixDelete (fuel : ℕ) (x : Ptr) (hn : s.nil = nil) :
    (fixDelete nil fuel x).run s = (s.fixDelete fuel x).map ((), ·) := by
  induction fuel generalizing s x with
  | zero => rfl
  | succ fuel ih =>
    subst hn
    simp [fixDelete, RBTree.fixDelete, Prog.run_bind]
    split_ifs
    · simp [ih]
    · simp [ih]
    · rfl

@[simp] theorem run_freeSuccessor (z y : Ptr) (hn : s.nil = nil) :
    (freeSuccessor nil z y (s.child .right y)).run s = some ((), s.freeSuccessor z y) := by
  subst hn
  simp [freeSuccessor, RBTree.freeSuccessor, Prog.run_bind]
  split_ifs <;> simp

@[simp] theorem freeSuccessor_nil (z y : Ptr) : (s.freeSuccessor z y).nil = s.nil :=
  nil_of_run (run_freeSuccessor z y rfl)

@[simp] theorem run_takePlace (z y : Ptr) (hn : s.nil = nil) :
    (takePlace nil z y).run s = some ((), s.takePlace z y) := by
  subst hn
  simp [takePlace, RBTree.takePlace, Prog.run_bind]

@[simp] theorem run_unlink (fuel : ℕ) (z : Ptr) (hn : s.nil = nil) :
    (unlink nil fuel z).run s = (s.unlink fuel z).map fun r => (r.2, r.1) := by
  subst hn
  simp [unlink, RBTree.unlink, RBTree.leftMost, Prog.run_bind]
  split_ifs
  · simp
  · simp
  · cases s.sideMost .left fuel (s.child .right z) with
    | none => rfl
    | some y => simp

@[simp] theorem run_repair (fuel : ℕ) (x : Ptr) (c : Color) (hn : s.nil = nil) :
    (repair nil fuel x c).run s =
      (if c = .black then s.fixDelete fuel x else some s).map ((), ·) := by
  subst hn
  simp [repair]
  split_ifs <;> simp

@[simp] theorem run_deleteNode (A : Alloc Ptr T) (fuel : ℕ) (z : Ptr) (hn : s.nil = nil) :
    (deleteNode nil A fuel z).run s = (s.deleteNode A fuel z).map ((), ·) := by
  subst hn
  have hun : ∀ r, s.unlink fuel z = some r → r.1.nil = s.nil := fun r hr =>
    nil_of_run (r := (r.2, r.1)) (by rw [run_unlink fuel z rfl, hr, Option.map_some])
  simp [deleteNode, RBTree.deleteNode, Prog.run_bind]
  cases hr : s.unlink fuel z with
  | none => rfl
  | some r =>
    obtain ⟨s₁, x, c⟩ := r
    have hn : s₁.nil = s.nil := hun _ hr
    simp [hn]
    split_ifs
    · cases s₁.fixDelete fuel x <;> simp
    · simp

@[simp] theorem run_erase (compare : T → T → Bool) (A : Alloc Ptr T) (fuel : ℕ) (val : T)
    (hn : s.nil = nil) :
    (erase nil A compare fuel val).run s = s.erase compare A fuel val := by
  subst hn
  simp [erase, RBTree.erase, Prog.run_bind]
  cases s.findNode compare fuel val with
  | none => rfl
  | some z =>
    simp
    split_ifs
    · rfl
    · cases s.deleteNode A fuel z <;> simp

end Code

section
variable {Ptr T : Type} [DecidableEq Ptr]

/-- A call as a program. -/
def Op.code (nil : Ptr) (compare : T → T → Bool) (A : Alloc Ptr T) (fuel : ℕ) :
    Op T → Code Ptr T (Answer T)
  | .insert x => do return .bool (← Code.insert nil A compare fuel x)
  | .erase x => do return .bool (← Code.erase nil A compare fuel x)
  | .find x => do return .ptr (← Code.find nil compare fuel x)
  | .minimum => do return .ptr (← Code.minimum nil fuel)
  | .maximum => do return .ptr (← Code.maximum nil fuel)

/-- The program of a call does what the call does. -/
theorem Op.run_code {s : RBTree Ptr T} (compare : T → T → Bool) (A : Alloc Ptr T) (fuel : ℕ)
    (op : Op T) : (op.code s.nil compare A fuel).run s = op.run compare A fuel s := by
  cases op with
  | insert x | erase x => simp [code, Op.run, Prog.run_bind_ret]
  | find x | minimum | maximum =>
    simp [code, Op.run, Prog.run_bind_ret]
    rfl

end

end RockCoro.RBTree
