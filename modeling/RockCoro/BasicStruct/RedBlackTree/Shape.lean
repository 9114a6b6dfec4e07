import RockCoro.BasicStruct.RedBlackTree.Refine
import Mathlib.Data.Finset.Card

/-!
# The red-black properties at pointer level

What the colours and the links of the nodes satisfy after any sequence of calls, said without the
tree that `Valid` speaks of: `Path s p ds q` follows the links of the memory from `p` to `q`. The
comparer is any function.
-/

namespace RockCoro.RBTree

open RedBlack

section
variable {Ptr T : Type} {s : RBTree Ptr T} {t : ColorTree (Ptr × T)} {k : Ctx (Ptr × T)}
  {p q r : Ptr}
  {d : Dir} {ds : List Dir} {c : Color} {n : ℕ}

/-- The links on the sides `ds` lead from `p` to `q`; no step leaves the sentinel. -/
inductive Path (s : RBTree Ptr T) : Ptr → List Dir → Ptr → Prop
  | here {p : Ptr} : Path s p [] p
  | step {p q : Ptr} {d : Dir} {ds : List Dir} : p ≠ s.nil → Path s (s.child d p) ds q →
      Path s p (d :: ds) q

/-- The black nodes that the links on the sides `ds` leave, from `p` on. -/
def blacks (s : RBTree Ptr T) : Ptr → List Dir → ℕ
  | _, [] => 0
  | p, d :: ds => (if s.color p = .black then 1 else 0) + blacks s (s.child d p) ds

/-- A path between different nodes takes a step. -/
theorem Path.of_ne (h : Path s p ds q) (hne : p ≠ q) :
    ∃ d ds', ds = d :: ds' ∧ Path s (s.child d p) ds' q := by
  cases h with
  | here => exact absurd rfl hne
  | step _ h => exact ⟨_, _, rfl, h⟩

/-- A path from the sentinel ends there. -/
theorem Path.of_nil (h : Path s s.nil ds q) : ds = [] ∧ q = s.nil := by
  cases h with
  | here => exact ⟨rfl, rfl⟩
  | step hp => exact absurd rfl hp

/-- Every node of a subtree is the root of a subtree. -/
theorem exists_plug (hp : p ∈ ptrs t) :
    ∃ k c l x r, t = Ctx.plug k (.on .left c l (p, x) r) := by
  induction t with
  | nil => simp at hp
  | node c l v r ihl ihr =>
    rcases (mem_ptrs_on (d := .left) (c := c)).1 hp with rfl | hp | hp
    · exact ⟨[], c, l, v.2, r, rfl⟩
    · obtain ⟨k, c', l', x, r', rfl⟩ := ihl hp
      refine ⟨k ++ [⟨.left, c, v, r⟩], c', l', x, r', ?_⟩
      rw [Ctx.plug_append]
      rfl
    · obtain ⟨k, c', l', x, r', rfl⟩ := ihr hp
      refine ⟨k ++ [⟨.right, c, v, l⟩], c', l', x, r', ?_⟩
      rw [Ctx.plug_append]
      rfl

/-- A path from the root of a subtree stays in it until it comes to the sentinel. -/
theorem Rep.path_mem (hr : s.Rep r t) (h : Path s (s.addr t) ds q) : q = s.nil ∨ q ∈ ptrs t := by
  induction t generalizing r ds with
  | nil => exact .inl h.of_nil.2
  | node c l v b ihl ihb =>
    obtain ⟨hv, hl, hb⟩ := hr
    have hmem := (mem_ptrs_on (p := q) (d := .left) (c := c) (a := l) (v := v) (b := b)).2
    cases h with
    | here => exact .inr (hmem (.inl rfl))
    | @step _ _ d _ _ h =>
      cases d with
      | left => exact (ihl hl (hv.near ▸ h)).imp_right fun hq => hmem (.inr (.inl hq))
      | right => exact (ihb hb (hv.far ▸ h)).imp_right fun hq => hmem (.inr (.inr hq))

/-- A node of a subtree is at the end of one path. -/
theorem Rep.path_unique (hr : s.Rep r t) (hnd : (ptrs t).Nodup) (hp : p ∈ ptrs t) :
    ∃! ds, Path s (s.addr t) ds p := by
  have hpn := hr.ne_nil p hp
  induction t generalizing r with
  | nil => simp at hp
  | node c l v b ihl ihb =>
    obtain ⟨hv, hl, hb⟩ := hr
    obtain ⟨hvl, hvb, hndl, hndb, hlb⟩ := (nodup_ptrs_on (d := .left) (c := c)).1 hnd
    have hleft : ∀ {ds}, Path s (s.child .left v.1) ds p → p ∈ ptrs l := fun h =>
      (hl.path_mem (hv.near ▸ h)).resolve_left hpn
    have hright : ∀ {ds}, Path s (s.child .right v.1) ds p → p ∈ ptrs b := fun h =>
      (hb.path_mem (hv.far ▸ h)).resolve_left hpn
    rcases (mem_ptrs_on (d := .left) (c := c)).1 hp with rfl | hpl | hpb
    · refine ⟨[], .here, fun ds h => ?_⟩
      cases h with
      | here => rfl
      | @step _ _ d _ _ h =>
        cases d with
        | left => exact absurd (hleft h) hvl
        | right => exact absurd (hright h) hvb
    · obtain ⟨ds, hds, huniq⟩ := ihl hl hndl hpl
      refine ⟨.left :: ds, .step hv.ne (hv.near.symm ▸ hds), fun ds' h => ?_⟩
      cases h with
      | here => exact absurd hpl hvl
      | @step _ _ d ds' _ h =>
        cases d with
        | left => rw [huniq ds' (hv.near ▸ h)]
        | right => exact absurd (hright h) (hlb p hpl)
    · obtain ⟨ds, hds, huniq⟩ := ihb hb hndb hpb
      refine ⟨.right :: ds, .step hv.ne (hv.far.symm ▸ hds), fun ds' h => ?_⟩
      cases h with
      | here => exact absurd hpb hvb
      | @step _ _ d ds' _ h =>
        cases d with
        | left => exact absurd hpb (hlb p (hleft h))
        | right => rw [huniq ds' (hv.far ▸ h)]

/-- A path that leaves the root of a subtree goes on from one of its children. -/
theorem Rep.path_child {l b : ColorTree (Ptr × T)} {v : Ptr × T} (hr : s.Rep r (.node c l v b))
    (h : Path s v.1 ds q) (hq : v.1 ≠ q) :
    ∃ d ds' t, (t = l ∨ t = b) ∧ ds = d :: ds' ∧ s.child d v.1 = s.addr t ∧ s.Rep v.1 t ∧
      Path s (s.addr t) ds' q := by
  obtain ⟨hv, hl, hb⟩ := hr
  obtain ⟨d, ds', rfl, h'⟩ := h.of_ne hq
  cases d with
  | left => exact ⟨.left, ds', l, .inl rfl, rfl, hv.near, hl, hv.near ▸ h'⟩
  | right => exact ⟨.right, ds', b, .inr rfl, rfl, hv.far, hb, hv.far ▸ h'⟩

/-- All paths from a red-black tree to the sentinel have its black height, and its height at
most. -/
theorem Rep.path_nil (hr : s.Rep r t) (hb : IsRB t c n) (h : Path s (s.addr t) ds s.nil) :
    blacks s (s.addr t) ds = n ∧ ds.length ≤ t.height := by
  induction hb generalizing r ds with
  | nil =>
    obtain ⟨rfl, -⟩ := h.of_nil
    exact ⟨rfl, Nat.le_refl _⟩
  | @red l b v n _ _ ihl ihb =>
    have hc : s.color v.1 = .red := hr.1.color
    obtain ⟨d, ds', t, ht, rfl, hd, ht', h'⟩ := hr.path_child h hr.1.ne
    have hsub : blacks s (s.addr t) ds' = n ∧ ds'.length ≤ max l.height b.height := by
      rcases ht with rfl | rfl
      · exact (ihl ht' h').imp_right (Nat.le_trans · (Nat.le_max_left _ _))
      · exact (ihb ht' h').imp_right (Nat.le_trans · (Nat.le_max_right _ _))
    refine ⟨?_, Nat.succ_le_succ hsub.2⟩
    simp [blacks, hc, hd, hsub.1]
  | @black l b v c₁ c₂ n _ _ ihl ihb =>
    have hc : s.color v.1 = .black := hr.1.color
    obtain ⟨d, ds', t, ht, rfl, hd, ht', h'⟩ := hr.path_child h hr.1.ne
    have hsub : blacks s (s.addr t) ds' = n ∧ ds'.length ≤ max l.height b.height := by
      rcases ht with rfl | rfl
      · exact (ihl ht' h').imp_right (Nat.le_trans · (Nat.le_max_left _ _))
      · exact (ihb ht' h').imp_right (Nat.le_trans · (Nat.le_max_right _ _))
    refine ⟨?_, Nat.succ_le_succ hsub.2⟩
    simp [blacks, hc, hd, hsub.1, Nat.add_comm]

/-- The red-black properties of the memory. A real node is a live one other than the sentinel. -/
structure RedBlackShape (s : RBTree Ptr T) : Prop where
  root_black : s.color s.root = .black
  root_parent : s.parent s.root = s.nil
  no_red_red : ∀ p ∈ s.live, p ≠ s.nil → s.color p = .red → ∀ d, s.color (s.child d p) = .black
  black_height : ∃ n, ∀ ds, Path s s.root ds s.nil → blacks s s.root ds = n
  child_parent : ∀ p ∈ s.live, p ≠ s.nil → ∀ d, s.child d p ≠ s.nil → s.parent (s.child d p) = p
  reachable_once : ∀ p ∈ s.live, p ≠ s.nil → ∃! ds, Path s s.root ds p
  nil_black : s.color s.nil = .black
  nil_child : ∀ d, s.child d s.nil = s.nil

/-- A valid tree has the shape of a red-black tree, read along its links. -/
theorem Valid.redBlackShape (hv : s.Valid t) : RedBlackShape s := by
  obtain ⟨hs, ⟨N, hb⟩, hlive, hpar⟩ := hv
  have hrep : s.Rep s.nil t := hs.holds.2
  have hreal : ∀ p ∈ s.live, p ≠ s.nil → p ∈ ptrs t := fun p hp hn =>
    ((hlive p).1 hp).resolve_left hn
  refine ⟨?_, ?_, ?_, ⟨N, ?_⟩, ?_, ?_, hs.sentinel.color, hs.sentinel.child⟩
  · rw [hs.root, Stores.color (k := []) hs, hb.color_eq]
  · rw [hs.root]
    rcases eq_or_ne t .nil with rfl | ht
    · exact hpar rfl
    · exact Stores.parent (k := []) hs ht
  · intro p hp hn hred d
    obtain ⟨k, c, l, x, r, rfl⟩ := exists_plug (hreal p hp hn)
    obtain ⟨c', n, hn, -⟩ := hb.of_plug
    have hc : s.color p = c := hs.node.color
    obtain rfl : c = .red := hc.symm.trans hred
    obtain ⟨-, hl, hr⟩ := hn.of_on_red
    cases d with
    | left => rw [hs.node.near, hs.near.color, hl.color_eq]
    | right => exact (congrArg s.color hs.node.far).trans (hs.far.color.trans hr.color_eq)
  · intro ds h
    rw [hs.root] at h ⊢
    exact (hrep.path_nil hb h).1
  · intro p hp hn d hd
    obtain ⟨k, c, l, x, r, rfl⟩ := exists_plug (hreal p hp hn)
    cases d with
    | left =>
      have hl : s.child .left p = s.addr l := hs.node.near
      rw [hl] at hd ⊢
      exact hs.near.parent fun h => hd (h ▸ rfl)
    | right =>
      have hr : s.child .right p = s.addr r := hs.node.far
      rw [hr] at hd ⊢
      exact hs.far.parent fun h => hd (h ▸ rfl)
  · intro p hp hn
    rw [hs.root]
    exact hrep.path_unique hs.nodup (hreal p hp hn)

/-- The height in terms of the number of real nodes. -/
theorem Valid.height_le [DecidableEq Ptr] (hv : s.Valid t) (h : Path s s.root ds s.nil) :
    ds.length ≤ 2 * Nat.log 2 ((s.live.erase s.nil).card + 1) := by
  obtain ⟨hs, ⟨N, hb⟩, hlive, -⟩ := hv
  have hreal : s.live.erase s.nil = (ptrs t).toFinset := by
    ext p
    rw [Finset.mem_erase, hlive, List.mem_toFinset]
    have := hs.holds.2.ne_nil p
    grind
  have hcard : (s.live.erase s.nil).card = t.toList.length := by
    rw [hreal, List.toFinset_card_of_nodup hs.nodup, ptrs, List.length_map]
  rw [hs.root] at h
  rw [hcard]
  exact (hs.holds.2.path_nil hb h).2.trans hb.height_le_log

end

section
variable {Ptr T : Type} [DecidableEq Ptr] {compare : T → T → Bool} {s : RBTree Ptr T}
  {t : ColorTree (Ptr × T)} {fuel : ℕ}

variable (compare) in
/-- A call keeps the invariant and adds one element at most, whatever the comparer. -/
theorem Valid.step (A : Alloc Ptr T) (hv : s.Valid t) (hfuel : t.toList.length < fuel) (op : Op T) :
    ∃ a s' t', op.run compare A fuel s = some (a, s') ∧ s'.Valid t' ∧
      t'.toList.length ≤ t.toList.length + 1 := by
  cases op with
  | insert x =>
    rcases hv.insert compare x A hfuel with ⟨k, s', t', rfl, -, hs, hv', hl⟩ | ⟨v, -, hs⟩
    · refine ⟨_, s', t', by rw [Op.run, hs]; rfl, hv', ?_⟩
      rw [hl, Ctx.toList_plug]
      simp
      omega
    · exact ⟨_, s, t, by rw [Op.run, hs]; rfl, hv, Nat.le_succ _⟩
  | erase x =>
    rcases hv.erase compare x A hfuel with ⟨k, -, -, hs⟩ | ⟨v, s', t', l₁, l₂, -, hl, hs, hv', hl'⟩
    · exact ⟨_, s, t, by rw [Op.run, hs]; rfl, hv, Nat.le_succ _⟩
    · refine ⟨_, s', t', by rw [Op.run, hs]; rfl, hv', ?_⟩
      rw [hl, hl']
      simp
      omega
  | find x =>
    rcases hv.find compare x hfuel with ⟨k, -, -, hs⟩ | ⟨v, -, hs⟩
    · exact ⟨_, s, t, by rw [Op.run, hs]; rfl, hv, Nat.le_succ _⟩
    · exact ⟨_, s, t, by rw [Op.run, hs]; rfl, hv, Nat.le_succ _⟩
  | minimum =>
    exact ⟨_, s, t, by rw [Op.run, hv.minimum (Nat.le_of_lt hfuel)]; rfl, hv, Nat.le_succ _⟩
  | maximum =>
    exact ⟨_, s, t, by rw [Op.run, hv.maximum (Nat.le_of_lt hfuel)]; rfl, hv, Nat.le_succ _⟩

/-- Any calls keep a tree valid and end, with fuel for every node they may add. -/
theorem Valid.run (A : Alloc Ptr T) (ops : List (Op T)) (hv : s.Valid t)
    (hfuel : t.toList.length + ops.length < fuel) :
    ∃ as s' t', run compare A fuel s ops = some (as, s') ∧ s'.Valid t' ∧
      t'.toList.length ≤ t.toList.length + ops.length := by
  induction ops generalizing s t with
  | nil => exact ⟨[], s, t, rfl, hv, Nat.le_refl _⟩
  | cons op ops ih =>
    rw [List.length_cons] at hfuel
    have ht : t.toList.length < fuel := by omega
    obtain ⟨a, s₁, t₁, hs₁, hv₁, hlen⟩ := hv.step compare A ht op
    obtain ⟨as, s₂, t₂, hs₂, hv₂, hlen₂⟩ := ih hv₁ (by omega)
    refine ⟨a :: as, s₂, t₂, ?_, hv₂, by rw [List.length_cons]; omega⟩
    simp only [RBTree.run, hs₁, Option.bind_eq_bind, Option.bind_some, hs₂]

variable (compare) in
/-- Any sequence of calls from the empty tree leaves the red-black properties at pointer level, and
no path to the sentinel is longer than twice the logarithm of one more than the number of
elements. -/
theorem run_redBlack (A : Alloc Ptr T) (ops : List (Op T)) (hfuel : ops.length < fuel) :
    ∃ as s, run compare A fuel (init A) ops = some (as, s) ∧ RedBlackShape s ∧
      ∀ ds, Path s s.root ds s.nil →
        ds.length ≤ 2 * Nat.log 2 ((s.live.erase s.nil).card + 1) := by
  obtain ⟨as, s, t, hs, hv, -⟩ := (valid_init A).run A ops (by simpa using hfuel)
  exact ⟨as, s, hs, hv.redBlackShape, fun ds h => hv.height_le h⟩

/-- Seven ascending insertions and the deletion of the root. -/
theorem run_redBlack_int :
    ∃ as s, run (fun a b : Int => decide (a < b)) (natAlloc Int) 9 (init (natAlloc Int))
        [.insert 1, .insert 2, .insert 3, .insert 4, .insert 5, .insert 6, .insert 7, .erase 2] =
      some (as, s) ∧ RedBlackShape s := by
  obtain ⟨as, s, hs, hshape, -⟩ := run_redBlack (fun a b : Int => decide (a < b)) (natAlloc Int)
    [.insert 1, .insert 2, .insert 3, .insert 4, .insert 5, .insert 6, .insert 7, .erase 2]
    (Nat.lt_succ_self 8)
  exact ⟨as, s, hs, hshape⟩

end

end RockCoro.RBTree
