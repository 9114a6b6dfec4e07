import RockCoro.BasicStruct.RedBlackTree.Basic
import Mathlib.Data.List.Nodup
import Mathlib.Tactic.Common

/-!
# The tree that the memory holds

`Holds s T` says that following the links from `_root` reads the tree `T` of nodes, each an address
with its element, and that every `_parent` link points up. `CRep` is the same for the context of a
subtree, so that a fix-up loop can speak of the place it works at. Each write of the source has a
frame lemma: it leaves alone every subtree and context that does not own the written node. The
rotation is the one composite step, `Holds.rotate`.
-/

namespace RockCoro.RBTree

open RedBlack

section
variable {Ptr T : Type}

/-- The address of a subtree's root. -/
def addr (s : RBTree Ptr T) : ColorTree (Ptr × T) → Ptr
  | .nil => s.nil
  | .node _ _ v _ => v.1

/-- The addresses of a tree. -/
def ptrs (t : ColorTree (Ptr × T)) : List Ptr := t.toList.map Prod.fst

/-- The address of the node around a context's hole. -/
def above (s : RBTree Ptr T) : Ctx (Ptr × T) → Ptr
  | [] => s.nil
  | f :: _ => f.val.1

/-- The addresses of a context. -/
def kptrs : Ctx (Ptr × T) → List Ptr
  | [] => []
  | f :: k => f.val.1 :: (ptrs f.sib ++ kptrs k)

/-- The node at `v` carries `v`'s element and colour `c`, below `q`, with children `a` on side `d`
and `b` on the other. -/
structure NodeAt (s : RBTree Ptr T) (v : Ptr × T) (c : Color) (q : Ptr) (d : Dir) (a b : Ptr) :
    Prop where
  ne : v.1 ≠ s.nil
  data : s.data v.1 = some v.2
  color : s.color v.1 = c
  parent : s.parent v.1 = q
  near : s.child d v.1 = a
  far : s.child d.flip v.1 = b

/-- The memory holds the subtree `t` below `q`. -/
def Rep (s : RBTree Ptr T) : Ptr → ColorTree (Ptr × T) → Prop
  | _, .nil => True
  | q, .node c l v r => s.NodeAt v c q .left (s.addr l) (s.addr r) ∧ s.Rep v.1 l ∧ s.Rep v.1 r

/-- The memory holds the context `k` around the address `h`. -/
def CRep (s : RBTree Ptr T) : Ctx (Ptr × T) → Ptr → Prop
  | [], h => s.root = h
  | f :: k, h => s.NodeAt f.val f.color (s.above k) f.dir h (s.addr f.sib) ∧
      s.Rep f.val.1 f.sib ∧ s.CRep k f.val.1

/-- The memory holds the tree `t`. -/
def Holds (s : RBTree Ptr T) (t : ColorTree (Ptr × T)) : Prop := s.root = s.addr t ∧ s.Rep s.nil t

/-- The sentinel is black and has no children. -/
structure Sentinel (s : RBTree Ptr T) : Prop where
  color : s.color s.nil = .black
  child : ∀ d, s.child d s.nil = s.nil

variable {s s' : RBTree Ptr T} {t a b g : ColorTree (Ptr × T)} {k : Ctx (Ptr × T)}
  {f : Frame (Ptr × T)}
  {d e : Dir} {c cx cy : Color} {v x y : Ptr × T} {p q r h u w : Ptr}

/-! ## Addresses -/

@[simp] theorem addr_nil : s.addr .nil = s.nil := rfl

@[simp] theorem addr_node : s.addr (.node c a v b) = v.1 := rfl

@[simp] theorem addr_on : s.addr (.on d c a v b) = v.1 := by cases d <;> rfl

@[simp] theorem ptrs_nil : ptrs (.nil : ColorTree (Ptr × T)) = [] := rfl

/-- The addresses of a node and of its two subtrees, from either side. -/
theorem mem_ptrs_on : p ∈ ptrs (.on d c a v b) ↔ p = v.1 ∨ p ∈ ptrs a ∨ p ∈ ptrs b := by
  cases d <;> simp only [ptrs, ColorTree.toList_on_left, ColorTree.toList_on_right, List.map_append,
    List.map_cons, List.mem_append, List.mem_cons] <;> grind

/-- The addresses of a tree are those of the context and those of the subtree in it. -/
theorem mem_ptrs_plug : p ∈ ptrs (Ctx.plug k t) ↔ p ∈ kptrs k ∨ p ∈ ptrs t := by
  induction k generalizing t with
  | nil => simp [kptrs]
  | cons f k ih =>
    rw [Ctx.plug_cons, ih, Frame.fill, mem_ptrs_on]
    simp only [kptrs, List.mem_cons, List.mem_append]
    grind

/-- The addresses of a node and its subtrees are distinct when those of the parts are. -/
theorem nodup_ptrs_on : (ptrs (.on d c a v b)).Nodup ↔
    v.1 ∉ ptrs a ∧ v.1 ∉ ptrs b ∧ (ptrs a).Nodup ∧ (ptrs b).Nodup ∧
      ∀ p, p ∈ ptrs a → p ∉ ptrs b := by
  cases d <;> simp only [ptrs, ColorTree.toList_on_left, ColorTree.toList_on_right, List.map_append,
    List.map_cons, List.nodup_append, List.nodup_cons, List.mem_cons] <;> grind

/-- The addresses of a plugged tree are distinct when those of its parts are. -/
theorem nodup_ptrs_plug : (ptrs (Ctx.plug k t)).Nodup ↔
    (kptrs k).Nodup ∧ (ptrs t).Nodup ∧ ∀ p, p ∈ kptrs k → p ∉ ptrs t := by
  induction k generalizing t with
  | nil => simp [kptrs]
  | cons f k ih =>
    rw [Ctx.plug_cons, ih, Frame.fill, nodup_ptrs_on]
    simp only [mem_ptrs_on, kptrs, List.nodup_cons, List.nodup_append, List.mem_append,
      List.mem_cons]
    grind

/-! ## Subtrees and contexts -/

@[simp] theorem rep_nil : s.Rep q .nil := trivial

/-- A node's children, from either side. -/
theorem rep_on : s.Rep q (.on d c a v b) ↔
    s.NodeAt v c q d (s.addr a) (s.addr b) ∧ s.Rep v.1 a ∧ s.Rep v.1 b := by
  cases d with
  | left => exact Iff.rfl
  | right =>
    constructor
    · rintro ⟨hn, hl, hr⟩
      exact ⟨⟨hn.ne, hn.data, hn.color, hn.parent, hn.far, hn.near⟩, hr, hl⟩
    · rintro ⟨hn, hl, hr⟩
      exact ⟨⟨hn.ne, hn.data, hn.color, hn.parent, hn.far, hn.near⟩, hr, hl⟩

/-- No node of a represented subtree is the sentinel. -/
theorem Rep.ne_nil (hr : s.Rep q t) : ∀ p ∈ ptrs t, p ≠ s.nil := by
  induction t generalizing q with
  | nil => simp
  | node c l v r ihl ihr =>
    obtain ⟨hn, hl, hr⟩ := hr
    intro p hp
    rcases (mem_ptrs_on (d := .left) (c := c)).1 hp with rfl | hp | hp
    · exact hn.ne
    · exact ihl hl p hp
    · exact ihr hr p hp

/-- The address of a subtree that is not empty is one of its nodes. -/
theorem addr_mem (ht : t ≠ .nil) : s.addr t ∈ ptrs t := by
  cases t with
  | nil => exact absurd rfl ht
  | node c l v r => exact (mem_ptrs_on (d := .left)).2 (.inl rfl)

/-- A subtree's address is the sentinel's only if it is empty. -/
theorem Rep.addr_eq_nil (hr : s.Rep q t) : s.addr t = s.nil ↔ t = .nil := by
  constructor
  · intro ha
    cases t with
    | nil => rfl
    | node c l v r => exact absurd ha hr.1.ne
  · rintro rfl
    rfl

/-- No node of a represented context is the sentinel. -/
theorem CRep.ne_nil (hr : s.CRep k h) : ∀ p ∈ kptrs k, p ≠ s.nil := by
  induction k generalizing h with
  | nil => simp [kptrs]
  | cons f k ih =>
    obtain ⟨hn, hs, hk⟩ := hr
    intro p hp
    rcases List.mem_cons.1 hp with rfl | hp
    · exact hn.ne
    · rcases List.mem_append.1 hp with hp | hp
      · exact hs.ne_nil p hp
      · exact ih hk p hp

/-- The root of a tree with a subtree below it belongs to the context of the subtree. -/
theorem addr_plug_mem : s.addr (Ctx.plug (f :: k) t) ∈ kptrs (f :: k) := by
  induction k generalizing f t with
  | nil =>
    rw [Ctx.plug_cons, Ctx.plug_nil, Frame.fill, addr_on]
    exact List.mem_cons_self
  | cons f' k ih => exact List.mem_cons_of_mem _ (List.mem_append_right _ (ih (t := f.fill t)))

/-- The memory holds a tree iff it holds each subtree of it in its context. -/
theorem holds_plug : s.Holds (k.plug t) ↔ s.CRep k (s.addr t) ∧ s.Rep (s.above k) t := by
  induction k generalizing t with
  | nil => exact Iff.rfl
  | cons f k ih =>
    rw [Ctx.plug_cons, ih, Frame.fill, rep_on]
    simp only [addr_on, CRep, above]
    constructor
    · rintro ⟨hk, hn, ht, hs⟩
      exact ⟨⟨hn, hs, hk⟩, ht⟩
    · rintro ⟨⟨hn, hs, hk⟩, ht⟩
      exact ⟨hk, hn, ht, hs⟩

/-! ## Frames -/

/-- Nothing of the node at `p` changed. -/
structure Same (s s' : RBTree Ptr T) (p : Ptr) : Prop where
  nil : s'.nil = s.nil
  data : s'.data p = s.data p
  color : s'.color p = s.color p
  parent : s'.parent p = s.parent p
  child : ∀ d, s'.child d p = s.child d p

/-- The address of a tree depends on the sentinel only. -/
theorem addr_congr (hn : s'.nil = s.nil) : s'.addr t = s.addr t := by
  cases t with
  | nil => exact hn
  | node c l v r => rfl

/-- The address above a hole depends on the sentinel only. -/
theorem above_congr (hn : s'.nil = s.nil) : s'.above k = s.above k := by
  cases k with
  | nil => exact hn
  | cons f k => rfl

/-- A node whose cells did not change is as it was. -/
theorem NodeAt.congr (hv : s.NodeAt v c q d p r) (h : Same s s' v.1) : s'.NodeAt v c q d p r :=
  ⟨h.nil ▸ hv.ne, h.data.trans hv.data, h.color.trans hv.color, h.parent.trans hv.parent,
    (h.child d).trans hv.near, (h.child d.flip).trans hv.far⟩

/-- A node is the same as itself. -/
theorem Same.refl : Same s s p := ⟨rfl, rfl, rfl, rfl, fun _ => rfl⟩

/-- Sameness of a node composes. -/
theorem Same.trans {s'' : RBTree Ptr T} (h : Same s s' p) (h' : Same s' s'' p) : Same s s'' p :=
  ⟨h'.nil.trans h.nil, h'.data.trans h.data, h'.color.trans h.color, h'.parent.trans h.parent,
    fun d => (h'.child d).trans (h.child d)⟩

/-- A subtree is the business of its own nodes. -/
theorem Rep.congr (hr : s.Rep q t) (hs : ∀ p ∈ ptrs t, Same s s' p) : s'.Rep q t := by
  induction t generalizing q with
  | nil => trivial
  | node c l v r ihl ihr =>
    obtain ⟨hv, hl, hr⟩ := hr
    have hmem := fun p => (mem_ptrs_on (p := p) (d := .left) (c := c) (a := l) (v := v) (b := r)).2
    have hsv := hs v.1 (hmem _ (.inl rfl))
    refine ⟨?_, ihl hl fun p hp => hs p (hmem _ (.inr (.inl hp))),
      ihr hr fun p hp => hs p (hmem _ (.inr (.inr hp)))⟩
    rw [addr_congr hsv.nil, addr_congr hsv.nil]
    exact hv.congr hsv

/-- A context is the business of its own nodes and of `_root`. -/
theorem CRep.congr (hr : s.CRep k h) (hroot : s'.root = s.root)
    (hs : ∀ p ∈ kptrs k, Same s s' p) : s'.CRep k h := by
  induction k generalizing h with
  | nil => exact hroot.trans hr
  | cons f k ih =>
    obtain ⟨hf, hsib, hk⟩ := hr
    have hsf := hs f.val.1 List.mem_cons_self
    refine ⟨?_, hsib.congr fun p hp => hs p ?_, ih hk fun p hp => hs p ?_⟩
    · rw [addr_congr hsf.nil, above_congr hsf.nil]
      exact hf.congr hsf
    · exact List.mem_cons_of_mem _ (List.mem_append_left _ hp)
    · exact List.mem_cons_of_mem _ (List.mem_append_right _ hp)

/-- The sentinel and the allocator's books are as before. -/
structure Keeps (s s' : RBTree Ptr T) : Prop where
  same : Same s s' s.nil
  live : s'.live = s.live
  news : s'.news = s.news

/-- Nothing changed, so the sentinel and the books did not. -/
theorem Keeps.refl : Keeps s s := ⟨.refl, rfl, rfl⟩

/-- Keeping the sentinel and the books composes. -/
theorem Keeps.trans {s'' : RBTree Ptr T} (h : Keeps s s') (h' : Keeps s' s'') : Keeps s s'' :=
  ⟨h.same.trans (h.same.nil ▸ h'.same), h'.live.trans h.live, h'.news.trans h.news⟩

/-- The memory holds the tree `t`, whose nodes have distinct addresses, above the sentinel. -/
structure Stores (s : RBTree Ptr T) (t : ColorTree (Ptr × T)) : Prop where
  holds : s.Holds t
  nodup : (ptrs t).Nodup
  sentinel : s.Sentinel

/-- A sentinel that was kept is still black and childless. -/
theorem Sentinel.keeps (h : s.Sentinel) (hk : Keeps s s') : s'.Sentinel := by
  constructor
  · rw [hk.same.nil, hk.same.color, h.color]
  · intro d
    rw [hk.same.nil, hk.same.child, h.child]

/-! ## Reads -/

/-- The node at the root of the subtree in a context. -/
theorem Stores.node (hs : s.Stores (k.plug (.on d c a v b))) :
    s.NodeAt v c (s.above k) d (s.addr a) (s.addr b) :=
  (rep_on.1 (holds_plug.1 hs.holds).2).1

/-- Moving the focus to the child on side `d`. -/
theorem Stores.near (hs : s.Stores (k.plug (.on d c a v b))) :
    s.Stores (Ctx.plug (⟨d, c, v, b⟩ :: k) a) := by
  rw [Ctx.plug_near]
  exact hs

/-- Moving the focus to the child on the other side. -/
theorem Stores.far (hs : s.Stores (k.plug (.on d c a v b))) :
    s.Stores (Ctx.plug (⟨d.flip, c, v, a⟩ :: k) b) := by
  rw [Ctx.plug_far]
  exact hs

/-- The node just above the subtree in a context. -/
theorem Stores.frame (hs : s.Stores (Ctx.plug (f :: k) t)) :
    s.NodeAt f.val f.color (s.above k) f.dir (s.addr t) (s.addr f.sib) :=
  Stores.node hs

/-- The parent of the subtree's root is the node above it. -/
theorem Stores.parent (hs : s.Stores (k.plug t)) (ht : t ≠ .nil) :
    s.parent (s.addr t) = s.above k := by
  obtain ⟨c, a, v, b, rfl⟩ := ColorTree.exists_on .left ht
  rw [addr_on]
  exact hs.node.parent

/-- The colour of the subtree's root; the empty tree and the sentinel are both black. -/
theorem Stores.color (hs : s.Stores (k.plug t)) : s.color (s.addr t) = t.color := by
  rcases eq_or_ne t .nil with rfl | ht
  · exact hs.sentinel.color
  obtain ⟨c, a, v, b, rfl⟩ := ColorTree.exists_on .left ht
  rw [addr_on, ColorTree.color_on]
  exact hs.node.color

/-- Siblings have different addresses, unless both are empty. -/
theorem Stores.addr_ne_sib (hs : s.Stores (Ctx.plug (f :: k) t)) (hne : t ≠ .nil ∨ f.sib ≠ .nil) :
    s.addr t ≠ s.addr f.sib := by
  obtain ⟨⟨-, hsib, -⟩, ht⟩ := holds_plug.1 hs.holds
  obtain ⟨-, -, hd⟩ := nodup_ptrs_plug.1 hs.nodup
  intro heq
  have hiff : t = .nil ↔ f.sib = .nil := by
    rw [← ht.addr_eq_nil, heq, hsib.addr_eq_nil]
  have ht : t ≠ .nil := by grind
  have hf : f.sib ≠ .nil := by grind
  refine hd (s.addr f.sib) ?_ (heq ▸ addr_mem ht)
  exact List.mem_cons_of_mem _ (List.mem_append_left _ (addr_mem hf))

/-- The test of the source for the side of a child. -/
theorem Stores.eq_child (hs : s.Stores (Ctx.plug (f :: k) t)) (hne : t ≠ .nil ∨ f.sib ≠ .nil) :
    s.addr t = s.child e f.val.1 ↔ f.dir = e := by
  rcases Dir.eq_or_eq_flip f.dir e with rfl | rfl
  · simp [hs.frame.near]
  · simp [hs.frame.far, hs.addr_ne_sib hne, (Dir.flip_ne f.dir).symm]

/-- The loops pick the block for the side of the child. -/
theorem Stores.side [DecidableEq Ptr] {α : Type} (F : Dir → α)
    (hs : s.Stores (Ctx.plug (f :: k) t)) (hne : t ≠ .nil ∨ f.sib ≠ .nil) :
    (if s.addr t = s.child .left f.val.1 then F .left else F .right) = F f.dir := by
  have hl := hs.eq_child (e := .left) hne
  cases hd : f.dir with
  | left => rw [if_pos (hl.2 hd)]
  | right => rw [if_neg fun h => by simp [hl.1 h] at hd]

/-- `_root` is the address of the tree. -/
theorem Stores.root (hs : s.Stores t) : s.root = s.addr t := hs.holds.1

/-- A subtree in a context is not at the root. -/
theorem Stores.addr_ne_root (hs : s.Stores (Ctx.plug (f :: k) t)) : s.addr t ≠ s.root := by
  obtain ⟨hk, ht⟩ := holds_plug.1 hs.holds
  obtain ⟨-, -, hd⟩ := nodup_ptrs_plug.1 hs.nodup
  have hr : s.root ∈ kptrs (f :: k) := hs.root ▸ addr_plug_mem
  rcases eq_or_ne t .nil with rfl | h0
  · exact fun heq => hk.ne_nil _ hr heq.symm
  · exact fun heq => hd _ hr (heq ▸ addr_mem h0)

/-! ## Writes -/

variable [DecidableEq Ptr]

@[simp] theorem setColor_parent : (s.setColor p c).parent = s.parent := rfl

@[simp] theorem setColor_child : (s.setColor p c).child = s.child := rfl

/-- A write of one node's colour leaves the other nodes the same. -/
theorem same_setColor (h : p ≠ w) : Same s (s.setColor w c) p :=
  ⟨rfl, rfl, Function.update_of_ne h _ _, rfl, fun _ => rfl⟩

/-- A write of one node's parent leaves the other nodes the same. -/
theorem same_setParent (h : p ≠ w) : Same s (s.setParent w q) p :=
  ⟨rfl, rfl, rfl, Function.update_of_ne h _ _, fun _ => rfl⟩

/-- A write of one node's child leaves the other nodes the same. -/
theorem same_setChild (h : p ≠ w) : Same s (s.setChild d w q) p := by
  refine ⟨rfl, rfl, rfl, rfl, fun e => ?_⟩
  rcases eq_or_ne e d with rfl | he
  · simp [setChild, h]
  · simp [setChild, he]

/-- The link to a subtree's root, if it has one, becomes `q`. -/
def reparent (s : RBTree Ptr T) (p q : Ptr) : RBTree Ptr T :=
  if p ≠ s.nil then s.setParent p q else s

/-- The link into the hole of `k` becomes `p`. -/
def setLink (s : RBTree Ptr T) (k : Ctx (Ptr × T)) (p : Ptr) : RBTree Ptr T :=
  match k with
  | [] => { s with root := p }
  | f :: _ => s.setChild f.dir f.val.1 p

/-- `reparent` changes one node only. -/
theorem same_reparent (h : p ≠ w) : Same s (s.reparent w q) p := by
  unfold reparent
  split
  · exact same_setParent h
  · exact .refl

/-- `reparent` never changes the sentinel. -/
theorem same_reparent_nil : Same s (s.reparent w q) s.nil := by
  rcases eq_or_ne w s.nil with rfl | h
  · rw [RBTree.reparent, if_neg (by simp)]
    exact .refl
  · exact same_reparent h.symm

/-- `setLink` changes no node outside the context. -/
theorem same_setLink (h : p ∉ kptrs k) : Same s (s.setLink k q) p := by
  cases k with
  | nil => exact ⟨rfl, rfl, rfl, rfl, fun _ => rfl⟩
  | cons f k => exact same_setChild (List.ne_of_not_mem_cons h)

@[simp] theorem setLink_nil : (s.setLink k q).nil = s.nil := by cases k <;> rfl
@[simp] theorem setLink_data : (s.setLink k q).data = s.data := by cases k <;> rfl
@[simp] theorem setLink_color : (s.setLink k q).color = s.color := by cases k <;> rfl
@[simp] theorem setLink_parent : (s.setLink k q).parent = s.parent := by cases k <;> rfl
@[simp] theorem setLink_live : (s.setLink k q).live = s.live := by cases k <;> rfl
@[simp] theorem setLink_news : (s.setLink k q).news = s.news := by cases k <;> rfl
@[simp] theorem reparent_nil : (s.reparent p q).nil = s.nil := by unfold reparent; split <;> rfl
@[simp] theorem reparent_data : (s.reparent p q).data = s.data := by unfold reparent; split <;> rfl
@[simp] theorem reparent_color : (s.reparent p q).color = s.color := by
  unfold reparent; split <;> rfl
@[simp] theorem reparent_child : (s.reparent p q).child = s.child := by
  unfold reparent; split <;> rfl
@[simp] theorem reparent_root : (s.reparent p q).root = s.root := by unfold reparent; split <;> rfl
@[simp] theorem reparent_live : (s.reparent p q).live = s.live := by unfold reparent; split <;> rfl
@[simp] theorem reparent_news : (s.reparent p q).news = s.news := by unfold reparent; split <;> rfl

/-- `setLink` changes no child outside the context. -/
theorem setLink_child (h : p ∉ kptrs k) : (s.setLink k q).child e p = s.child e p :=
  (same_setLink h).child e

/-- `reparent` changes no other parent. -/
theorem reparent_parent (h : r ≠ p) : (s.reparent p q).parent r = s.parent r :=
  (same_reparent h).parent

/-- `relink` writes the link into the hole of the context around `u`. -/
theorem relink_eq (hk : s.CRep k u) (hu : s.parent u = s.above k) (hne : u ≠ s.nil)
    (hnk : u ∉ kptrs k) : s.relink u w = s.setLink k w := by
  cases k with
  | nil => exact if_pos hu
  | cons f k =>
    obtain ⟨hf, hsib, -⟩ := hk
    have hu : s.parent u = f.val.1 := hu
    rw [relink, hu, if_neg hf.ne]
    have hsib : s.addr f.sib ≠ u := by
      rcases eq_or_ne f.sib .nil with h0 | h0
      · rw [h0]; exact hne.symm
      · rintro rfl
        exact hnk (List.mem_cons_of_mem _ (List.mem_append_left _ (addr_mem h0)))
    obtain ⟨d, c, v, sib⟩ := f
    cases d with
    | left => rw [if_pos hf.near.symm]; rfl
    | right => rw [if_neg fun h => hsib (hf.far.symm.trans h.symm)]; rfl

/-- After `setLink` the context has the new address in its hole. -/
theorem CRep.setLink (hk : s.CRep k h) (hnd : (kptrs k).Nodup) : (s.setLink k w).CRep k w := by
  cases k with
  | nil => rfl
  | cons f k =>
    obtain ⟨hf, hsib, hk⟩ := hk
    obtain ⟨hfn, -⟩ := List.nodup_cons.1 hnd
    have hne : ∀ p, p ∈ ptrs f.sib ∨ p ∈ kptrs k → p ≠ f.val.1 := by
      rintro p hp rfl
      exact hfn (List.mem_append.2 hp)
    refine ⟨⟨hf.ne, hf.data, hf.color, ?_, ?_, ?_⟩,
      hsib.congr fun p hp => same_setChild (hne p (.inl hp)),
      hk.congr rfl fun p hp => same_setChild (hne p (.inr hp))⟩
    · exact hf.parent.trans (above_congr rfl).symm
    · simp [RBTree.setLink, setChild]
    · rw [addr_congr setLink_nil, ← hf.far]
      simp [RBTree.setLink, setChild, Dir.flip_ne]

/-- A subtree whose root is given the parent `r`. -/
theorem Rep.setParent (hr : s.Rep q t) (hnd : (ptrs t).Nodup) :
    (s.setParent (s.addr t) r).Rep r t := by
  rcases eq_or_ne t .nil with rfl | ht
  · trivial
  obtain ⟨c, a, v, b, rfl⟩ := ColorTree.exists_on .left ht
  obtain ⟨hv, ha, hb⟩ := rep_on.1 hr
  obtain ⟨hva, hvb, -⟩ := nodup_ptrs_on.1 hnd
  rw [addr_on]
  refine rep_on.2 ⟨⟨hv.ne, hv.data, hv.color, Function.update_self .., ?_, ?_⟩,
    ha.congr fun p hp => same_setParent (ne_of_mem_of_not_mem hp hva),
    hb.congr fun p hp => same_setParent (ne_of_mem_of_not_mem hp hvb)⟩
  · exact hv.near.trans (addr_congr rfl).symm
  · exact hv.far.trans (addr_congr rfl).symm

/-- After `reparent` the subtree hangs below the new parent. -/
theorem Rep.reparent (hr : s.Rep q t) (hnd : (ptrs t).Nodup) :
    (s.reparent (s.addr t) r).Rep r t := by
  rw [RBTree.reparent]
  split
  · exact hr.setParent hnd
  · next h =>
    rw [hr.addr_eq_nil.1 (not_not.1 h)]
    trivial

/-! ## Rotation -/

/-- Rotation at `x` rotates the tree. -/
theorem Stores.rotate (hs : s.Stores (k.plug (.on d cx a x (.on d cy b y g)))) :
    (rotate d s x.1).Stores (k.plug (.on d cy (.on d cx a x b) y g)) ∧
      Keeps s (RBTree.rotate d s x.1) := by
  obtain ⟨hs, hnd, hsen⟩ := hs
  have hnd' : (ptrs (k.plug (.on d cy (.on d cx a x b) y g))).Nodup := by
    rw [ptrs, Ctx.toList_plug_congr ColorTree.toList_rotate]
    exact hnd
  obtain ⟨hk, hx⟩ := holds_plug.1 hs
  obtain ⟨hx, ha, hyt⟩ := rep_on.1 hx
  obtain ⟨hy, hb, hg⟩ := rep_on.1 hyt
  simp only [nodup_ptrs_plug, nodup_ptrs_on, mem_ptrs_on] at hnd
  have hy' : s.child d.flip x.1 = y.1 := by simpa using hx.far
  have hk0 := hk.ne_nil
  have hxn := hx.ne
  have hyn := hy.ne
  have hbn : s.addr b ∈ ptrs b ∨ s.addr b = s.nil := by
    rcases eq_or_ne b .nil with rfl | hb
    · exact .inr rfl
    · exact .inl (addr_mem hb)
  have hb0 := hb.ne_nil
  have ha0 := ha.ne_nil
  have hg0 := hg.ne_nil
  have hxy : x.1 ≠ y.1 := by grind
  have hxk : x.1 ∉ kptrs k := by grind
  have hyk : y.1 ∉ kptrs k := by grind
  -- the memory before the link into the hole is written
  have hxb : x.1 ≠ s.addr b := by grind
  have hyb : y.1 ≠ s.addr b := by grind
  -- the memory after the first writes, after the link into the hole, and at the end
  let s₁ := (s.setChild d.flip x.1 (s.addr b)).reparent (s.addr b) x.1
  let s₂ := s₁.setParent y.1 (s.above k)
  let s₃ := s₂.setLink k y.1
  let s₄ := (s₃.setChild d y.1 x.1).setParent x.1 y.1
  have h₁ : ∀ p, p ≠ x.1 → p ≠ s.addr b → Same s s₁ p := fun p hx hb =>
    (same_setChild hx).trans (same_reparent hb)
  have h₃ : ∀ p, p ≠ y.1 → p ∉ kptrs k → Same s₁ s₃ p := fun p hy hk =>
    (same_setParent hy).trans (same_setLink hk)
  have h₄ : ∀ p, p ≠ x.1 → p ≠ y.1 → Same s₃ s₄ p := fun p hx hy =>
    (same_setChild hy).trans (same_setParent hx)
  have hp₁ : s₁.parent x.1 = s.above k := (reparent_parent hxb).trans hx.parent
  have hn₂ : s₂.nil = s.nil := reparent_nil
  have hr₂ : s₂.root = s.root := reparent_root
  have hk₂ : s₂.CRep k x.1 := by
    rw [addr_on] at hk
    refine hk.congr hr₂ fun p hp => ?_
    exact (h₁ p (by grind) (by grind)).trans (same_setParent (by grind))
  have hrot : RBTree.rotate d s x.1 = s₄ := by
    have hby : (s.setChild d.flip x.1 (s.addr b)).child d y.1 = s.addr b :=
      ((same_setChild hxy.symm).child d).trans hy.near
    have hn₁ : (s.setChild d.flip x.1 (s.addr b)).reparent (s.addr b) x.1 = s₁ := rfl
    rw [RBTree.reparent] at hn₁
    have hpx : s₂.parent x.1 = s₂.above k := (same_setParent hxy).parent.trans
      (hp₁.trans (above_congr hn₂).symm)
    have hrel : s₂.relink x.1 y.1 = s₃ := relink_eq hk₂ hpx (hn₂ ▸ hxn) hxk
    rw [RBTree.rotate, hy', hy.near]
    simp only [hby]
    rw [hn₁, hp₁]
    exact congrArg (fun s => (s.setChild d y.1 x.1).setParent x.1 y.1) hrel
  have h₁₄ : ∀ p, p ≠ x.1 → p ≠ y.1 → p ∉ kptrs k → Same s₁ s₄ p := fun p hx hy hk =>
    (h₃ p hy hk).trans (h₄ p hx hy)
  have hn₄ : s₄.nil = s.nil := setLink_nil.trans hn₂
  have hkeeps : Keeps s s₄ := by
    refine ⟨(same_setChild hxn.symm).trans (same_reparent_nil.trans (h₁₄ _ hxn.symm hyn.symm ?_)),
      ?_, ?_⟩
    · exact fun hm => hk0 _ hm rfl
    · simp [s₄, s₃, s₂, s₁, setParent, setChild]
    · simp [s₄, s₃, s₂, s₁, setParent, setChild]
  rw [hrot]
  refine ⟨⟨?_, hnd', hsen.keeps hkeeps⟩, hkeeps⟩
  rw [holds_plug, rep_on, rep_on]
  simp only [addr_on, addr_congr hn₄, above_congr hn₄]
  refine ⟨?_, ⟨hn₄ ▸ hyn, ?_, ?_, ?_, ?_, ?_⟩, ⟨⟨hn₄ ▸ hxn, ?_, ?_, ?_, ?_, ?_⟩, ?_, ?_⟩, ?_⟩
  · exact (hk₂.setLink hnd.1).congr rfl fun p hp => h₄ p (by grind) (by grind)
  · simpa [s₄, s₃, s₂, s₁, setParent, setChild] using hy.data
  · simpa [s₄, s₃, s₂, s₁, setParent, setChild] using hy.color
  · simp [s₄, s₃, s₂, setParent, setChild, hxy.symm]
  · simp [s₄, setParent, setChild]
  · have := (h₁ y.1 hxy.symm hyb).child d.flip
    simpa [s₄, s₃, setParent, setChild, Dir.flip_ne, setLink_child hyk, s₂, this] using hy.far
  · simpa [s₄, s₃, s₂, s₁, setParent, setChild] using hx.data
  · simpa [s₄, s₃, s₂, s₁, setParent, setChild] using hx.color
  · simp [s₄, setParent]
  · have hxa : s₄.child d x.1 = s.child d x.1 := by
      simp [s₄, s₃, s₂, s₁, setParent, setChild, hxy, setLink_child hxk, (Dir.flip_ne d).symm]
    rw [hxa, hx.near]
  · simp [s₄, s₃, s₂, s₁, setParent, setChild, Dir.flip_ne, setLink_child hxk]
  · exact ha.congr fun p hp =>
      (h₁ p (by grind) (by grind)).trans (h₁₄ p (by grind) (by grind) (by grind))
  · have hb₀ : (s.setChild d.flip x.1 (s.addr b)).Rep y.1 b :=
      hb.congr fun p hp => same_setChild (by grind)
    have hb₁ : s₁.Rep x.1 b := hb₀.reparent hnd.2.1.2.2.2.1.2.2.1
    exact hb₁.congr fun p hp => h₁₄ p (by grind) (by grind) (by grind)
  · exact hg.congr fun p hp =>
      (h₁ p (by grind) (by grind)).trans (h₁₄ p (by grind) (by grind) (by grind))


/-! ## Recolouring -/

/-- Writing a node's colour. -/
theorem Stores.setColor (c' : Color) (hs : s.Stores (k.plug (.on d c a v b))) :
    (s.setColor v.1 c').Stores (k.plug (.on d c' a v b)) ∧ Keeps s (s.setColor v.1 c') := by
  obtain ⟨hs, hnd, hsen⟩ := hs
  obtain ⟨hk, hv⟩ := holds_plug.1 hs
  obtain ⟨hv, ha, hb⟩ := rep_on.1 hv
  have hnd' : (ptrs (k.plug (.on d c' a v b))).Nodup := by
    rw [ptrs, Ctx.toList_plug_congr ColorTree.toList_on_color]
    exact hnd
  have hkeeps : Keeps s (s.setColor v.1 c') := ⟨same_setColor hv.ne.symm, rfl, rfl⟩
  simp only [nodup_ptrs_plug, nodup_ptrs_on, mem_ptrs_on] at hnd
  refine ⟨⟨?_, hnd', hsen.keeps hkeeps⟩, hkeeps⟩
  rw [addr_on] at hk
  rw [holds_plug, rep_on, addr_on, above_congr hkeeps.same.nil, addr_congr hkeeps.same.nil,
    addr_congr hkeeps.same.nil]
  refine ⟨hk.congr rfl fun p hp =>
    same_setColor ?_, ⟨hv.ne, hv.data, ?_, hv.parent, hv.near, hv.far⟩,
    ha.congr fun p hp => same_setColor ?_, hb.congr fun p hp => same_setColor ?_⟩
  · rintro rfl
    exact hnd.2.2 _ hp (.inl rfl)
  · exact Function.update_self ..
  · rintro rfl
    exact hnd.2.1.1 hp
  · rintro rfl
    exact hnd.2.1.2.1 hp

end

end RockCoro.RBTree
