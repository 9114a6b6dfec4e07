import Mathlib.Algebra.Ring.Nat
import Mathlib.Data.List.Basic
import Mathlib.Data.Nat.Log

/-!
# Red-black trees with a hole

Trees with coloured nodes, and contexts: a tree with one subtree missing, as the list of frames
from the hole up to the root. Both come with a side `Dir`, so that a rule and its mirror image are
one statement: `ColorTree.on d c a v b` is the node with child `a` on side `d` and child `b` on the
other.

`IsRB t c n` says that `t` is a red-black tree with root colour `c` and black height `n`;
`Ctx.IsRB N k c n` says the same of `k` around a hole that expects colour `c` and black height
`n`. The sections on insertion and deletion prove, for each local move of the two fix-up loops,
that the move keeps these invariants.
-/

namespace RedBlack

/-- The colour of a node. -/
inductive Color
  | red
  | black
  deriving DecidableEq

/-- A side of a node. -/
inductive Dir
  | left
  | right
  deriving DecidableEq

/-- The other side. -/
def Dir.flip : Dir → Dir
  | .left => .right
  | .right => .left

/-- The two sides are different. -/
theorem Dir.flip_ne (d : Dir) : d.flip ≠ d := by cases d <;> simp [flip]

/-- There are two sides. -/
theorem Dir.eq_or_eq_flip (d e : Dir) : e = d ∨ e = d.flip := by cases d <;> cases e <;> simp [flip]

/-- A binary tree with a colour and a value at each node. -/
inductive ColorTree (β : Type*)
  | nil
  | node (c : Color) (l : ColorTree β) (v : β) (r : ColorTree β)

/-- A frame of a context: the node around the hole, whose child on side `dir` is the hole and whose
other child is `sib`. -/
structure Frame (β : Type*) where
  dir : Dir
  color : Color
  val : β
  sib : ColorTree β

/-- A tree with a hole, from the hole up. -/
abbrev Ctx (β : Type*) := List (Frame β)

section
variable {β : Type*} {t l r a b g : ColorTree β} {k : Ctx β} {f : Frame β} {d : Dir}
  {c c₁ c₂ : Color}
  {v x y : β} {n m N : ℕ}

namespace ColorTree

/-- The node with child `a` on side `d` and child `b` on the other side. -/
def on (d : Dir) (c : Color) (a : ColorTree β) (v : β) (b : ColorTree β) : ColorTree β :=
  match d with
  | .left => node c a v b
  | .right => node c b v a

/-- A node, seen from the other side. -/
theorem on_flip : on d.flip c a v b = on d c b v a := by cases d <;> rfl

/-- Every node has a child on side `d` and one on the other side. -/
theorem exists_on (d : Dir) (h : t ≠ nil) : ∃ c a v b, t = on d c a v b := by
  cases t with
  | nil => exact absurd rfl h
  | node c l v r =>
    cases d with
    | left => exact ⟨c, l, v, r, rfl⟩
    | right => exact ⟨c, r, v, l, rfl⟩

/-- A node is not the empty tree. -/
theorem on_ne_nil : on d c a v b ≠ nil := by cases d <;> simp [on]

/-- The colour of the root, black for the empty tree. -/
def color : ColorTree β → Color
  | nil => .black
  | node c _ _ _ => c

@[simp] theorem color_on : (on d c a v b).color = c := by cases d <;> rfl

/-- The tree with its root made black. -/
def blacken : ColorTree β → ColorTree β
  | nil => nil
  | node _ l v r => node .black l v r

@[simp] theorem blacken_on : (on d c a v b).blacken = on d .black a v b := by cases d <;> rfl

/-- The elements in order. -/
def toList : ColorTree β → List β
  | nil => []
  | node _ l v r => l.toList ++ v :: r.toList

@[simp] theorem toList_nil : (nil : ColorTree β).toList = [] := rfl

@[simp] theorem toList_node : (node c l v r).toList = l.toList ++ v :: r.toList := rfl

@[simp] theorem toList_blacken : t.blacken.toList = t.toList := by cases t <;> rfl

/-- The order of a node that is seen from the left. -/
theorem toList_on_left : (on .left c a v b).toList = a.toList ++ v :: b.toList := rfl

/-- The order of a node that is seen from the right. -/
theorem toList_on_right : (on .right c a v b).toList = b.toList ++ v :: a.toList := rfl

/-- The elements of a node do not depend on its colour. -/
theorem toList_on_color : (on d c₁ a v b).toList = (on d c₂ a v b).toList := by cases d <;> rfl

/-- Subtrees with the same elements are exchangeable. -/
theorem toList_on_congr {a' b' : ColorTree β} (ha : a.toList = a'.toList)
    (hb : b.toList = b'.toList) :
    (on d c₁ a v b).toList = (on d c₂ a' v b').toList := by
  cases d <;> simp only [toList_on_left, toList_on_right, ha, hb]

/-- A rotation keeps the order of the elements. -/
theorem toList_rotate {c₃ c₄ : Color} :
    (on d c₁ (on d c₂ a x b) y g).toList = (on d c₃ a x (on d c₄ b y g)).toList := by
  cases d <;> simp [toList_on_left, toList_on_right]

/-- The number of nodes on a longest path down. -/
def height : ColorTree β → ℕ
  | nil => 0
  | node _ l _ r => max l.height r.height + 1

end ColorTree

open ColorTree

/-- A frame around a subtree. -/
def Frame.fill (f : Frame β) (t : ColorTree β) : ColorTree β := on f.dir f.color t f.val f.sib

namespace Ctx

/-- A context around a subtree. -/
def plug : Ctx β → ColorTree β → ColorTree β
  | [], t => t
  | f :: k, t => plug k (f.fill t)

@[simp] theorem plug_nil : plug ([] : Ctx β) t = t := rfl

@[simp] theorem plug_cons : plug (f :: k) t = plug k (f.fill t) := rfl

/-- Contexts compose. -/
theorem plug_append (k₁ k₂ : Ctx β) : plug (k₁ ++ k₂) t = plug k₂ (plug k₁ t) := by
  induction k₁ generalizing t with
  | nil => rfl
  | cons f k₁ ih => exact ih

/-- A context around a node is not empty. -/
theorem plug_ne_nil (h : t ≠ ColorTree.nil) : plug k t ≠ ColorTree.nil := by
  induction k generalizing t with
  | nil => exact h
  | cons f k ih => exact ih on_ne_nil

/-- The frame of a node around its child on side `d`. -/
theorem plug_near : plug (⟨d, c, v, b⟩ :: k) a = plug k (on d c a v b) := rfl

/-- The frame of a node around its child on the other side. -/
theorem plug_far : plug (⟨d.flip, c, v, a⟩ :: k) b = plug k (on d c a v b) := by
  rw [plug_cons, Frame.fill, on_flip]

/-- The elements before the hole. -/
def before : Ctx β → List β
  | [] => []
  | f :: k => before k ++ match f.dir with
    | .left => []
    | .right => f.sib.toList ++ [f.val]

/-- The elements after the hole. -/
def after : Ctx β → List β
  | [] => []
  | f :: k => (match f.dir with
    | .left => f.val :: f.sib.toList
    | .right => []) ++ after k

/-- The order of a tree is what is before the hole, the subtree, and what is after it. -/
theorem toList_plug (k : Ctx β) (t : ColorTree β) :
    (plug k t).toList = before k ++ (t.toList ++ after k) := by
  induction k generalizing t with
  | nil => simp [before, after]
  | cons f k ih =>
    obtain ⟨d, c, v, s⟩ := f
    rw [plug_cons, ih]
    cases d <;> simp [Frame.fill, before, after, toList_on_left, toList_on_right]

/-- Nothing is before a hole that is reached going left only. -/
theorem before_eq_nil (h : ∀ f ∈ k, f.dir = .left) : before k = [] := by
  induction k with
  | nil => rfl
  | cons f k ih =>
    rw [before, ih fun g hg => h g (List.mem_cons_of_mem _ hg), h f List.mem_cons_self]
    rfl

/-- Nothing is after a hole that is reached going right only. -/
theorem after_eq_nil (h : ∀ f ∈ k, f.dir = .right) : after k = [] := by
  induction k with
  | nil => rfl
  | cons f k ih =>
    rw [after, ih fun g hg => h g (List.mem_cons_of_mem _ hg), h f List.mem_cons_self]
    rfl

/-- A context has no more frames than the tree has nodes outside the subtree. -/
theorem length_le_toList (k : Ctx β) (t : ColorTree β) :
    k.length + t.toList.length ≤ (plug k t).toList.length := by
  induction k generalizing t with
  | nil => simp
  | cons f k ih =>
    have h := ih (f.fill t)
    have hf : t.toList.length + 1 ≤ (f.fill t).toList.length := by
      obtain ⟨d, c, v, s⟩ := f
      cases d <;> simp [Frame.fill, toList_on_left, toList_on_right]
    rw [plug_cons, List.length_cons]
    omega

/-- Subtrees with the same elements are exchangeable in a context. -/
theorem toList_plug_congr (h : a.toList = b.toList) : (plug k a).toList = (plug k b).toList := by
  rw [toList_plug, toList_plug, h]

end Ctx

open Ctx

/-! ## Balance -/

/-- `t` is a red-black tree with root colour `c` and black height `n`. -/
inductive IsRB : ColorTree β → Color → ℕ → Prop
  | nil : IsRB nil .black 0
  | red {l r : ColorTree β} {v : β} {n : ℕ} :
    IsRB l .black n → IsRB r .black n → IsRB (node .red l v r) .red n
  | black {l r : ColorTree β} {v : β} {c₁ c₂ : Color} {n : ℕ} : IsRB l c₁ n → IsRB r c₂ n →
      IsRB (node .black l v r) .black (n + 1)

/-- The colour that the invariant is about is the root's. -/
theorem IsRB.color_eq (h : IsRB t c n) : t.color = c := by cases h <;> rfl

/-- A red node on two black trees of one black height. -/
theorem IsRB.on_red (ha : IsRB a .black n) (hb : IsRB b .black n) :
    IsRB (on d .red a v b) .red n := by
  cases d with
  | left => exact .red ha hb
  | right => exact .red hb ha

/-- A black node adds one to the black height. -/
theorem IsRB.on_black (ha : IsRB a c₁ n) (hb : IsRB b c₂ n) :
    IsRB (on d .black a v b) .black (n + 1) := by
  cases d with
  | left => exact .black ha hb
  | right => exact .black hb ha

/-- The children of a red node are black and of its height. -/
theorem IsRB.of_on_red (h : IsRB (on d .red a v b) c n) :
    c = .red ∧ IsRB a .black n ∧ IsRB b .black n := by
  cases d <;> cases h with
  | red hl hr => first | exact ⟨rfl, hl, hr⟩ | exact ⟨rfl, hr, hl⟩

/-- The children of a black node are one lower. -/
theorem IsRB.of_on_black (h : IsRB (on d .black a v b) c n) :
    ∃ m c₁ c₂, n = m + 1 ∧ c = .black ∧ IsRB a c₁ m ∧ IsRB b c₂ m := by
  cases d <;> cases h with
  | black hl hr => first | exact ⟨_, _, _, rfl, rfl, hl, hr⟩ | exact ⟨_, _, _, rfl, rfl, hr, hl⟩

/-- A tree of positive black height is a node. -/
theorem IsRB.ne_nil (h : IsRB t c (n + 1)) : t ≠ ColorTree.nil := by
  rintro rfl
  cases h

/-- Blackening a red root raises the height by one, a black root stays as it is. -/
theorem IsRB.blacken (h : IsRB t c n) :
    IsRB t.blacken .black (if c = .red then n + 1 else n) := by
  cases h with
  | nil => exact .nil
  | red hl hr => exact .black hl hr
  | black hl hr => exact .black hl hr

/-- A red-black tree of black height `n` has at least `2 ^ n - 1` elements, and at least
`2 ^ (n + 1) - 1` under a red root. -/
theorem IsRB.le_length (h : IsRB t c n) :
    2 ^ (if c = .red then n + 1 else n) ≤ t.toList.length + 1 := by
  induction h with
  | nil => simp
  | red _ _ ihl ihr =>
    simp only [reduceCtorEq, if_false, if_true, toList, List.length_append, List.length_cons] at *
    omega
  | @black l r v c₁ c₂ n _ _ ihl ihr =>
    have hmono : ∀ c : Color, 2 ^ n ≤ 2 ^ (if c = .red then n + 1 else n) := fun c =>
      Nat.pow_le_pow_right (by omega) (by split <;> omega)
    have h₁ := (hmono c₁).trans ihl
    have h₂ := (hmono c₂).trans ihr
    simp only [reduceCtorEq, if_false, toList, List.length_append, List.length_cons] at *
    omega

/-- No path is longer than twice the black height, plus one under a red root. -/
theorem IsRB.height_le (h : IsRB t c n) :
    t.height ≤ 2 * n + (if c = .red then 1 else 0) := by
  induction h with
  | nil => simp [height]
  | red _ _ ihl ihr =>
    simp only [reduceCtorEq, if_false, if_true, height] at *
    omega
  | @black l r v c₁ c₂ n _ _ ihl ihr =>
    have hle : ∀ c : Color, (if c = .red then 1 else 0) ≤ 1 := fun c => by split <;> omega
    have h₁ := hle c₁
    have h₂ := hle c₂
    simp only [reduceCtorEq, if_false, height] at *
    omega

/-- A red-black tree with a black root has logarithmic height. -/
theorem IsRB.height_le_log (h : IsRB t .black n) :
    t.height ≤ 2 * Nat.log 2 (t.toList.length + 1) := by
  have h₁ := h.height_le
  have h₂ := h.le_length
  simp only [reduceCtorEq, if_false] at h₁ h₂
  have : n ≤ Nat.log 2 (t.toList.length + 1) := Nat.le_log_of_pow_le (by omega) h₂
  omega

/-- `k` is a red-black tree with a black root and black height `N`, around a hole that expects a
subtree of colour `c` and black height `n`. -/
inductive Ctx.IsRB (N : ℕ) : Ctx β → Color → ℕ → Prop
  | root : Ctx.IsRB N [] .black N
  | red {f : Frame β} {k : Ctx β} {n : ℕ} : f.color = .red →
      RedBlack.IsRB f.sib .black n → Ctx.IsRB N k .red n →
      Ctx.IsRB N (f :: k) .black n
  | black {f : Frame β} {k : Ctx β} {c c₂ : Color} {n : ℕ} : f.color = .black →
      RedBlack.IsRB f.sib c₂ n →
      Ctx.IsRB N k .black (n + 1) → Ctx.IsRB N (f :: k) c n

/-- A context filled with what its hole expects is a red-black tree. -/
theorem Ctx.IsRB.plug (hk : Ctx.IsRB N k c n) :
    ∀ {t : ColorTree β}, RedBlack.IsRB t c n → RedBlack.IsRB (k.plug t) .black N := by
  induction hk with
  | root => intro t ht; exact ht
  | red hc hs _ ih =>
    intro t ht
    rw [plug_cons, Frame.fill, hc]
    exact ih (.on_red ht hs)
  | black hc hs _ ih =>
    intro t ht
    rw [plug_cons, Frame.fill, hc]
    exact ih (.on_black ht hs)

/-- Every subtree of a red-black tree is what the context around it expects. -/
theorem IsRB.of_plug (h : IsRB (k.plug t) .black N) :
    ∃ c n, IsRB t c n ∧ Ctx.IsRB N k c n := by
  induction k generalizing t with
  | nil => exact ⟨_, _, h, .root⟩
  | cons f k ih =>
    obtain ⟨c, n, ht, hk⟩ := ih h
    obtain ⟨d, cf, v, s⟩ := f
    simp only [Frame.fill] at ht
    cases cf with
    | red =>
      obtain ⟨rfl, ha, hb⟩ := ht.of_on_red
      exact ⟨_, _, ha, .red rfl hb hk⟩
    | black =>
      obtain ⟨m, c₁, c₂, rfl, rfl, ha, hb⟩ := ht.of_on_black
      exact ⟨_, _, ha, .black rfl hb hk⟩

/-- The frame above a hole that may not be red is black. -/
theorem Ctx.IsRB.of_red (h : Ctx.IsRB N k .red n) :
    ∃ f k' c, k = f :: k' ∧ f.color = .black ∧ RedBlack.IsRB f.sib c n ∧
      Ctx.IsRB N k' .black (n + 1) := by
  cases h with
  | black hc hs hk => exact ⟨_, _, _, rfl, hc, hs, hk⟩

/-- A hole that expects a red subtree takes a black one of the same height. -/
theorem Ctx.IsRB.to_black (h : Ctx.IsRB N k .red n) : Ctx.IsRB N k .black n := by
  obtain ⟨f, k', c, rfl, hc, hs, hk⟩ := h.of_red
  exact .black hc hs hk

/-- The balance of a context does not depend on its elements. -/
theorem Ctx.IsRB.setVal {k₁ k₂ : Ctx β}
    (h : Ctx.IsRB N (k₁ ++ ⟨d, c₁, x, a⟩ :: k₂) c n) :
    Ctx.IsRB N (k₁ ++ ⟨d, c₁, y, a⟩ :: k₂) c n := by
  induction k₁ generalizing c n with
  | nil =>
    cases h with
    | red hc hs hk => exact .red hc hs hk
    | black hc hs hk => exact .black hc hs hk
  | cons f k₁ ih =>
    cases h with
    | red hc hs hk => exact .red hc hs (ih hk)
    | black hc hs hk => exact .black hc hs (ih hk)

/-! ## Insertion

The focus is a red subtree `t` under a red parent `x` with other child `s`; `y` is the grandparent
and `u` the uncle.
-/

/-- Red uncle: the grandparent becomes red and one higher. -/
theorem IsRB.insert_recolor {s u : ColorTree β} {e : Dir} (ht : IsRB t c₁ n)
    (hs : IsRB s c₂ n) (hu : IsRB u .red n) :
    IsRB (on d .red (on e .black t x s) y u.blacken) .red (n + 1) :=
  .on_red (.on_black ht hs) hu.blacken

/-! ## Deletion

The focus is a subtree `t` of black height `n` in a hole that expects black height `n + 1`: the hole
is in the frame `f`, and `f.sib` is the sibling.
-/

/-- The sibling of a hole of positive height is a node. -/
theorem Ctx.IsRB.sib_ne_nil (h : Ctx.IsRB N (f :: k) .black (n + 1)) :
    f.sib ≠ ColorTree.nil := by
  cases h with
  | red _ hs _ => exact hs.ne_nil
  | black _ hs _ => exact hs.ne_nil

/-- Red sibling: a rotation gives the hole a black sibling under a red parent. -/
theorem Ctx.IsRB.delete_red {fv wv : β} {wa wb : ColorTree β}
    (h : Ctx.IsRB N (⟨d, c, fv, on d .red wa wv wb⟩ :: k) .black (n + 1)) :
    c = .black ∧
      Ctx.IsRB N (⟨d, .red, fv, wa⟩ :: ⟨d, .black, wv, wb⟩ :: k) .black (n + 1) := by
  cases h with
  | red _ hs _ =>
    obtain ⟨hc, -⟩ := hs.of_on_red
    cases hc
  | black hc hs hk =>
    obtain ⟨-, ha, hb⟩ := hs.of_on_red
    exact ⟨hc, .red rfl ha (.black rfl hb hk)⟩

/-- Black sibling with black children: the sibling becomes red. Under a red parent the repair
ends, else the deficit moves to the parent. -/
theorem Ctx.IsRB.delete_recolor {fv wv : β} {wa wb : ColorTree β}
    (h : Ctx.IsRB N (⟨d, c, fv, on d .black wa wv wb⟩ :: k) .black (n + 1))
    (ht : RedBlack.IsRB t .black n) (hwa : wa.color = .black) (hwb : wb.color = .black) :
    RedBlack.IsRB (on d .black t fv (on d .red wa wv wb)) .black (n + 1) ∧
      Ctx.IsRB N k .black (if c = .red then n + 1 else n + 2) := by
  have hnode : ∀ {c' m}, RedBlack.IsRB (on d .black wa wv wb) c' (m + 1) →
      RedBlack.IsRB (on d .red wa wv wb) .red m := by
    intro c' m hw
    obtain ⟨m', c₁, c₂, hm, -, ha, hb⟩ := hw.of_on_black
    obtain rfl : m = m' := by omega
    rw [← ha.color_eq, hwa] at ha
    rw [← hb.color_eq, hwb] at hb
    exact .on_red ha hb
  cases h with
  | red hc hs hk =>
    obtain rfl : c = .red := hc
    exact ⟨.on_black ht (hnode hs), hk.to_black⟩
  | black hc hs hk =>
    obtain rfl : c = .black := hc
    exact ⟨.on_black ht (hnode hs), hk⟩

/-- Black sibling with a red far child: one rotation at the parent ends the repair. -/
theorem Ctx.IsRB.delete_rotate {fv wv : β} {wa wb : ColorTree β}
    (h : Ctx.IsRB N (⟨d, c, fv, on d .black wa wv wb⟩ :: k) .black (n + 1))
    (ht : RedBlack.IsRB t .black n) (hwb : wb.color = .red) :
    RedBlack.IsRB (k.plug (on d c (on d .black t fv wa) wv wb.blacken)) .black N := by
  have hnode : ∀ {c' m}, RedBlack.IsRB (on d .black wa wv wb) c' (m + 1) →
      (∃ c₁, RedBlack.IsRB wa c₁ m) ∧ RedBlack.IsRB wb.blacken .black (m + 1) := by
    intro c' m hw
    obtain ⟨m', c₁, c₂, hm, -, ha, hb⟩ := hw.of_on_black
    obtain rfl : m = m' := by omega
    rw [← hb.color_eq, hwb] at hb
    exact ⟨⟨_, ha⟩, hb.blacken⟩
  cases h with
  | red hc hs hk =>
    obtain rfl : c = .red := hc
    obtain ⟨⟨_, ha⟩, hb⟩ := hnode hs
    exact hk.plug (.on_red (.on_black ht ha) hb)
  | black hc hs hk =>
    obtain rfl : c = .black := hc
    obtain ⟨⟨_, ha⟩, hb⟩ := hnode hs
    exact hk.plug (.on_black (.on_black ht ha) hb)

/-- Black sibling with a red near child and a black far child: a rotation at the sibling makes the
far child red. -/
theorem Ctx.IsRB.delete_near {fv wv av : β} {a₁ a₂ wb : ColorTree β}
    (h : Ctx.IsRB N (⟨d, c, fv, on d .black (on d .red a₁ av a₂) wv wb⟩ :: k) .black (n + 1))
    (hwb : wb.color = .black) :
    Ctx.IsRB N (⟨d, c, fv, on d .black a₁ av (on d .red a₂ wv wb)⟩ :: k) .black (n + 1) := by
  have hnode : ∀ {c' m}, RedBlack.IsRB (on d .black (on d .red a₁ av a₂) wv wb) c' m →
      RedBlack.IsRB (on d .black a₁ av (on d .red a₂ wv wb)) c' m := by
    intro c' m hw
    obtain ⟨m', c₁, c₂, rfl, rfl, ha, hb⟩ := hw.of_on_black
    obtain ⟨rfl, h₁, h₂⟩ := ha.of_on_red
    rw [← hb.color_eq, hwb] at hb
    exact .on_black h₁ (.on_red h₂ hb)
  cases h with
  | red hc hs hk => exact .red hc (hnode hs) hk
  | black hc hs hk => exact .black hc (hnode hs) hk

end

end RedBlack
