import RockCoro.BasicStruct.RedBlackTree.Insert

/-!
# `fixDelete` and `deleteNode`

The loop of `fixDelete` works at the subtree `t` in the context `k`, whose black height is one too
small for its place. `t` may be empty: then the address of the focus is the sentinel, and the loop
relies on the parent that `transplant` wrote into it. No write of a round touches that parent.
-/

namespace RockCoro.RBTree

open RedBlack

section
variable {Ptr T : Type} [DecidableEq Ptr] {s s' : RBTree Ptr T} {t l wa wb : ColorTree (Ptr × T)}
  {k : Ctx (Ptr × T)} {d : Dir} {c : Color} {x y z v w : Ptr × T} {p : Ptr} {n N fuel : ℕ}

/-! ## The steps of a round -/

omit [DecidableEq Ptr] in
/-- The parent of the focus after writes that keep the sentinel. -/
theorem Keeps.parent (hk : Keeps s s') (hs' : s'.Stores (k.plug t)) (hp : s.parent (s.addr t) = p)
    (ha : s'.above k = p) : s'.parent (s.addr t) = p := by
  rcases eq_or_ne t .nil with rfl | ht
  · exact hk.same.parent.trans hp
  · rw [← addr_congr hk.same.nil, hs'.parent ht, ha]

/-- Red sibling. -/
theorem Stores.fixDeleteRed (hs : s.Stores (k.plug (.on d c t v (.on d .red wa w wb))))
    (hp : s.parent (s.addr t) = v.1) :
    ∃ s', fixDeleteRed d s (s.addr t) w.1 = (s', s.addr wa) ∧
      s'.Stores (k.plug (.on d .black (.on d .red t v wa) w wb)) ∧ Keeps s s' := by
  obtain ⟨h₁, k₁⟩ := hs.far.setColor .black
  rw [Ctx.plug_far] at h₁
  obtain ⟨h₂, k₂⟩ := h₁.setColor .red
  obtain ⟨h₃, k₃⟩ := h₂.rotate
  have hk := k₁.trans (k₂.trans k₃)
  refine ⟨_, ?_, h₃, hk⟩
  have hp₃ := hk.parent h₃.near.near hp rfl
  have hw : s.color w.1 = .red := hs.far.node.color
  have hc := h₃.near.node.far
  rw [addr_congr hk.same.nil] at hc
  simp only [RBTree.fixDeleteRed, if_pos hw, setColor_parent, hp]
  rw [hp₃, hc]

/-- Black sibling with a red near child and a black far child. -/
theorem Stores.fixDeleteNear {a b : ColorTree (Ptr × T)}
    (hs : s.Stores (k.plug (.on d c t v (.on d .black (.on d .red a x b) w wb))))
    (hp : s.parent (s.addr t) = v.1) (hwb : wb.color = .black) :
    ∃ s', fixDeleteNear d s (s.addr t) w.1 = (s', x.1) ∧
      s'.Stores (k.plug (.on d c t v (.on d .black a x (.on d .red b w wb)))) ∧ Keeps s s' := by
  obtain ⟨h₁, k₁⟩ := hs.far.near.setColor .black
  rw [Ctx.plug_near] at h₁
  obtain ⟨h₂, k₂⟩ := h₁.setColor .red
  rw [← ColorTree.on_flip, ← ColorTree.on_flip (v := x)] at h₂
  obtain ⟨h₃, k₃⟩ := h₂.rotate
  rw [ColorTree.on_flip, ColorTree.on_flip, Ctx.plug_far] at h₃
  have hk := k₁.trans (k₂.trans k₃)
  refine ⟨_, ?_, h₃, hk⟩
  have hp₃ := hk.parent h₃.near hp rfl
  have hx : s.child d w.1 = x.1 := hs.far.node.near.trans addr_on
  have hf : s.color (s.child d.flip w.1) = .black := by
    rw [hs.far.node.far, hs.far.far.color, hwb]
  have hc := h₃.node.far.trans addr_on
  simp only [RBTree.fixDeleteNear, if_pos hf, hx]
  rw [hp₃, hc]

/-- Black sibling with a red far child. -/
theorem Stores.fixDeleteFar (hs : s.Stores (k.plug (.on d c t v (.on d .black wa w wb))))
    (hp : s.parent (s.addr t) = v.1) (hwb : wb ≠ .nil) :
    (fixDeleteFar d s (s.addr t) w.1).Stores
        (k.plug (.on d c (.on d .black t v wa) w wb.blacken)) ∧
      Keeps s (fixDeleteFar d s (s.addr t) w.1) := by
  obtain ⟨cb, a, x, b, rfl⟩ := ColorTree.exists_on d hwb
  obtain ⟨h₁, k₁⟩ := hs.far.setColor c
  rw [Ctx.plug_far] at h₁
  obtain ⟨h₂, k₂⟩ := h₁.setColor .black
  obtain ⟨h₃, k₃⟩ := h₂.far.far.setColor .black
  rw [Ctx.plug_far, Ctx.plug_far] at h₃
  obtain ⟨h₄, k₄⟩ := h₃.rotate
  have hv : s.color v.1 = c := hs.node.color
  have hx : s.child d.flip w.1 = x.1 := hs.far.node.far.trans addr_on
  have hst : RBTree.fixDeleteFar d s (s.addr t) w.1 = RBTree.rotate d
      (((s.setColor w.1 c).setColor v.1 .black).setColor x.1 .black) v.1 := by
    simp only [RBTree.fixDeleteFar, setColor_parent, setColor_child, hp, hv, hx]
  rw [hst, ColorTree.blacken_on]
  exact ⟨h₄, k₁.trans (k₂.trans (k₃.trans k₄))⟩

/-! ## `fixDelete` -/

/-- The invariant of `fixDelete` at the subtree `t` in the context `k`. -/
structure Deficit (s : RBTree Ptr T) (k : Ctx (Ptr × T)) (t : ColorTree (Ptr × T)) (n N : ℕ) :
    Prop where
  stores : s.Stores (k.plug t)
  parent : s.parent (s.addr t) = s.above k
  black : t.color = .black → IsRB t .black n
  red : t.color = .red → IsRB t.blacken .black (n + 1)
  ctx : Ctx.IsRB N k .black (n + 1)

/-- The rounds that remain at most. -/
def rank (k : Ctx (Ptr × T)) (t : ColorTree (Ptr × T)) : ℕ := if t.color = .red then 0 else k.length

/-- What a round of `fixDelete` at `x` in a frame of colour `c` above the context `k` does. -/
def Round (s : RBTree Ptr T) (c : Color) (k : Ctx (Ptr × T)) (l : List (Ptr × T))
    (r : RBTree Ptr T × Ptr) : Prop :=
  ∃ k' t' n' N', Deficit r.1 k' t' n' N' ∧ r.2 = s.addr t' ∧
    rank k' t' ≤ (if c = .red then 0 else k.length) ∧ (k'.plug t').toList = l ∧ Keeps s r.1

/-- A round with a black sibling. -/
theorem Stores.fixDeleteBlack (hs : s.Stores (k.plug (.on d c t v (.on d .black wa w wb))))
    (hp : s.parent (s.addr t) = v.1) (ht : IsRB t .black n)
    (hk : Ctx.IsRB N (⟨d, c, v, .on d .black wa w wb⟩ :: k) .black (n + 1)) :
    Round s c k (k.plug (.on d c t v (.on d .black wa w wb))).toList
      (fixDeleteBlack d s (s.addr t) w.1) := by
  have hwa : s.color (s.child d w.1) = wa.color := by rw [hs.far.node.near, hs.far.near.color]
  have hwb : s.color (s.child d.flip w.1) = wb.color := by rw [hs.far.node.far, hs.far.far.color]
  rw [RBTree.fixDeleteBlack, hwa, hwb]
  -- the last case: the far child is red
  have hfar : ∀ {s' : RBTree Ptr T} {wa wb : ColorTree (Ptr × T)} {w : Ptr × T},
      s'.Stores (k.plug (.on d c t v (.on d .black wa w wb))) → Keeps s s' → wb.color = .red →
      Ctx.IsRB N (⟨d, c, v, .on d .black wa w wb⟩ :: k) .black (n + 1) →
      Round s c k (k.plug (.on d c t v (.on d .black wa w wb))).toList
        (s'.fixDeleteFar d (s.addr t) w.1, (s'.fixDeleteFar d (s.addr t) w.1).root) := by
    intro s' wa wb w hs' hss hred hk
    have hp' := hss.parent hs'.near hp rfl
    rw [← addr_congr hss.same.nil] at hp' ⊢
    obtain ⟨h₁, k₁⟩ := hs'.fixDeleteFar hp' (by rintro rfl; cases hred)
    have hbal := hk.delete_rotate ht hred
    have hkeeps := hss.trans k₁
    have hne : k.plug (.on d c (.on d .black t v wa) w wb.blacken) ≠ .nil :=
      Ctx.plug_ne_nil ColorTree.on_ne_nil
    refine ⟨[], _, N, N + 1, ⟨h₁, ?_, fun _ => hbal, fun h => ?_, .root⟩, ?_, by simp [rank],
      ?_, hkeeps⟩
    · exact Stores.parent (k := []) h₁ hne
    · rw [hbal.color_eq] at h
      cases h
    · rw [← addr_congr hkeeps.same.nil]
      exact h₁.root
    · have hwb : (ColorTree.on d c (.on d .black t v wa) w wb.blacken).toList =
          (ColorTree.on d c (.on d .black t v wa) w wb).toList :=
        ColorTree.toList_on_congr rfl ColorTree.toList_blacken
      rw [Ctx.plug_nil]
      exact Ctx.toList_plug_congr (hwb.trans ColorTree.toList_rotate)
  cases hcb : wb.color with
  | red =>
    rw [if_neg (by simp), RBTree.fixDeleteNear, hwb, hcb, if_neg (by decide)]
    exact hfar hs .refl hcb hk
  | black =>
    cases hca : wa.color with
    | black =>
      rw [if_pos ⟨rfl, rfl⟩, hp]
      obtain ⟨h₁, k₁⟩ := hs.far.setColor .red
      rw [Ctx.plug_far] at h₁
      obtain ⟨hb, hctx⟩ := hk.delete_recolor ht hca hcb
      refine ⟨k, _, if c = .red then n else n + 1, N, ⟨h₁, ?_, fun h => ?_, fun h => ?_, ?_⟩,
        addr_on.symm, by simp [rank], ?_, k₁⟩
      · exact h₁.parent ColorTree.on_ne_nil
      · obtain rfl : c = .black := by simpa using h
        exact hb
      · obtain rfl : c = .red := by simpa using h
        simpa using hb
      · cases c <;> simpa using hctx
      · exact Ctx.toList_plug_congr (ColorTree.toList_on_congr rfl ColorTree.toList_on_color)
    | red =>
      rw [if_neg (by simp)]
      obtain ⟨ca, a, x, b, rfl⟩ := ColorTree.exists_on d (t := wa) (by rintro rfl; cases hca)
      obtain rfl : ca = .red := by simpa using hca
      obtain ⟨s', hst, h₁, k₁⟩ := hs.fixDeleteNear hp hcb
      have hr := hfar h₁ k₁ (by simp) (hk.delete_near hcb)
      rw [hst]
      refine Eq.mp (congrArg (fun l => Round s c k l _) ?_) hr
      exact Ctx.toList_plug_congr (ColorTree.toList_on_congr rfl ColorTree.toList_rotate.symm)

/-- A round of `fixDelete`. -/
theorem Stores.fixDeleteSide {w : ColorTree (Ptr × T)} (hs : s.Stores (k.plug (.on d c t v w)))
    (hp : s.parent (s.addr t) = v.1) (ht : IsRB t .black n)
    (hk : Ctx.IsRB N (⟨d, c, v, w⟩ :: k) .black (n + 1)) :
    Round s c k (k.plug (.on d c t v w)).toList (fixDeleteSide d s (s.addr t)) := by
  obtain ⟨cw, wa, w, wb, rfl⟩ := ColorTree.exists_on d hk.sib_ne_nil
  have hw : s.child d.flip v.1 = w.1 := hs.node.far.trans addr_on
  have hcw : s.color w.1 = cw := hs.far.node.color
  rw [RBTree.fixDeleteSide, hp, hw]
  cases cw with
  | black =>
    rw [RBTree.fixDeleteRed, hcw, if_neg (by decide)]
    exact hs.fixDeleteBlack hp ht hk
  | red =>
    obtain ⟨s', hst, h₁, k₁⟩ := hs.fixDeleteRed hp
    obtain ⟨rfl, hk'⟩ := hk.delete_red
    have hp' := k₁.parent h₁.near.near hp rfl
    obtain ⟨cw, wa', w', wb', rfl⟩ := ColorTree.exists_on d hk'.sib_ne_nil
    obtain rfl : cw = .black := by
      cases hk' with
      | red _ hs _ => simpa using hs.color_eq
      | black hc _ _ => cases hc
    rw [← addr_congr k₁.same.nil] at hp'
    have hround := h₁.near.fixDeleteBlack hp' ht hk'
    rw [addr_congr k₁.same.nil] at hround
    obtain ⟨k', t', n', N', hd, hx, hr, hl, hkeep⟩ := hround
    rw [hst, addr_on]
    rw [addr_congr k₁.same.nil] at hx
    refine ⟨k', t', n', N', hd, hx, ?_, ?_, k₁.trans hkeep⟩
    · rw [if_pos rfl] at hr
      omega
    · rw [hl, Ctx.plug_near]
      exact Ctx.toList_plug_congr ColorTree.toList_rotate

/-- Writing the focus black at the end of `fixDelete`. -/
theorem Stores.blacken (hs : s.Stores (k.plug t)) :
    (s.setColor (s.addr t) .black).Stores (k.plug t.blacken) ∧
      Keeps s (s.setColor (s.addr t) .black) := by
  rcases eq_or_ne t .nil with rfl | ht
  · have hst : s.setColor (s.addr .nil) .black = s := by
      rw [addr_nil, RBTree.setColor, ← hs.sentinel.color, Function.update_eq_self]
    rw [hst]
    exact ⟨hs, .refl⟩
  · obtain ⟨c, a, v, b, rfl⟩ := ColorTree.exists_on .left ht
    rw [addr_on, ColorTree.blacken_on]
    exact hs.setColor .black

/-- `fixDelete` makes up for the missing black node and keeps the elements. -/
theorem Deficit.fixDelete (h : Deficit s k t n N) (hfuel : rank k t < fuel) :
    ∃ s' t' N', fixDelete fuel s (s.addr t) = some s' ∧ s'.Stores t' ∧ IsRB t' .black N' ∧
      t'.toList = (k.plug t).toList ∧ Keeps s s' := by
  induction fuel generalizing s k t n N with
  | zero => omega
  | succ fuel ih =>
    obtain ⟨hs, hp, hblack, hred, hk⟩ := h
    have hct : s.color (s.addr t) = t.color := hs.color
    obtain ⟨hs₁, k₁⟩ := hs.blacken
    have hl₁ : (k.plug t.blacken).toList = (k.plug t).toList :=
      Ctx.toList_plug_congr ColorTree.toList_blacken
    cases hc : t.color with
    | red =>
      refine ⟨_, _, N, ?_, hs₁, hk.plug (hred hc), hl₁, k₁⟩
      rw [RBTree.fixDelete, hct, hc, if_neg (by simp)]
    | black =>
      have hbal := hblack hc
      cases k with
      | nil =>
        refine ⟨_, _, n, ?_, hs₁, ?_, hl₁, k₁⟩
        · rw [RBTree.fixDelete, if_neg (fun h => h.1 hs.root.symm)]
        · simpa using hbal.blacken
      | cons f k =>
        obtain ⟨d, c, v, w⟩ := f
        obtain ⟨k', t', n', N', hd, hx, hr, hl, hkeep⟩ :=
          Stores.fixDeleteSide (k := k) hs hp hbal hk
        have hrank : rank k' t' < fuel := by
          have hk₀ : rank (⟨d, c, v, w⟩ :: k) t = k.length + 1 := by simp [rank, hc]
          have hk₁ : (if c = .red then 0 else k.length) ≤ k.length := by split <;> omega
          exact Nat.lt_of_le_of_lt (Nat.le_trans hr hk₁) (by omega)
        obtain ⟨s', t'', N'', hfix, hs', hb, hl', hk'⟩ := ih hd hrank
        refine ⟨s', t'', N'', ?_, hs', hb, hl'.trans hl, hkeep.trans hk'⟩
        have hside := Stores.side (k := k) (fun d => RBTree.fixDeleteSide d s (s.addr t)) hs
          (.inr hk.sib_ne_nil)
        rw [RBTree.fixDelete, if_pos ⟨hs.addr_ne_root, hct.trans hc⟩, hp]
        rw [← hfix, addr_congr hkeep.same.nil, ← hx]
        exact congrArg (fun r => RBTree.fixDelete fuel r.1 r.2) hside

/-! ## Unlinking a node -/

/-- The sentinel's address and the allocator's books are as before. -/
structure Books (s s' : RBTree Ptr T) : Prop where
  nil : s'.nil = s.nil
  live : s'.live = s.live
  news : s'.news = s.news

omit [DecidableEq Ptr] in
/-- Keeping the sentinel's cells keeps its address. -/
theorem Keeps.books (h : Keeps s s') : Books s s' := ⟨h.same.nil, h.live, h.news⟩

omit [DecidableEq Ptr] in
/-- Books compose along two calls. -/
theorem Books.trans {s'' : RBTree Ptr T} (h : Books s s') (h' : Books s' s'') : Books s s'' :=
  ⟨h'.nil.trans h.nil, h'.live.trans h.live, h'.news.trans h.news⟩

/-- A node with at most one child is replaced by that child, whose parent is written even if it is
the sentinel. -/
theorem Stores.transplant (hs : s.Stores (k.plug (.on d c .nil z t))) :
    (s.transplant z.1 (s.addr t)).Stores (k.plug t) ∧
      (s.transplant z.1 (s.addr t)).parent (s.addr t) = s.above k ∧
      (s.transplant z.1 (s.addr t)).data = s.data ∧ Books s (s.transplant z.1 (s.addr t)) := by
  obtain ⟨hs, hnd, hsen⟩ := hs
  obtain ⟨hk, hz⟩ := holds_plug.1 hs
  obtain ⟨hz, -, ht⟩ := rep_on.1 hz
  simp only [nodup_ptrs_plug, nodup_ptrs_on, mem_ptrs_on] at hnd
  rw [addr_on] at hk
  have hzk : z.1 ∉ kptrs k := by grind
  have hk0 := hk.ne_nil
  have haddr : s.addr t ∉ kptrs k := by
    rcases eq_or_ne t .nil with rfl | h0
    · exact fun hm => hk0 _ hm rfl
    · have := addr_mem (s := s) h0
      grind
  have hst : s.transplant z.1 (s.addr t) =
      (s.setLink k (s.addr t)).setParent (s.addr t) (s.above k) := by
    rw [RBTree.transplant, relink_eq hk hz.parent hz.ne hzk, setLink_parent, hz.parent]
  rw [hst]
  have hn : ((s.setLink k (s.addr t)).setParent (s.addr t) (s.above k)).nil = s.nil := setLink_nil
  refine ⟨⟨?_, ?_, ?_, ?_⟩, Function.update_self .., setLink_data, hn, setLink_live, setLink_news⟩
  · rw [holds_plug, addr_congr hn, above_congr hn]
    refine ⟨(hk.setLink hnd.1).congr rfl fun p hp => same_setParent (ne_of_mem_of_not_mem hp haddr),
      ?_⟩
    have ht' : (s.setLink k (s.addr t)).Rep z.1 t :=
      ht.congr fun p hp => same_setLink (by grind)
    have hset := Rep.setParent (r := s.above k) ht' hnd.2.1.2.2.2.1
    rwa [addr_congr setLink_nil] at hset
  · rw [nodup_ptrs_plug]
    exact ⟨hnd.1, hnd.2.1.2.2.2.1, by grind⟩
  · rw [hn]
    exact (congrFun setLink_color _).trans hsen.color
  · intro d
    rw [hn]
    exact (setLink_child fun hm => hk0 _ hm rfl).trans (hsen.child d)

/-- `y` is out of the tree and has the subtree `r`; `z` is still in its place `k`, with left subtree
`l`. -/
structure Freed (s : RBTree Ptr T) (k : Ctx (Ptr × T)) (c : Color) (z y : Ptr × T)
    (l r : ColorTree (Ptr × T)) : Prop where
  ctx : s.CRep k z.1
  left : s.Rep z.1 l
  right : s.Rep y.1 r
  parent : s.parent z.1 = s.above k
  color : s.color z.1 = c
  zleft : s.child .left z.1 = s.addr l
  yright : s.child .right y.1 = s.addr r
  data : s.data y.1 = some y.2
  zne : z.1 ≠ s.nil
  yne : y.1 ≠ s.nil
  sentinel : s.Sentinel
  nodup : (z.1 :: y.1 :: (kptrs k ++ (ptrs l ++ ptrs r))).Nodup

/-- `y` takes the place and the colour of `z`, which leaves the tree. -/
theorem Freed.takePlace {r : ColorTree (Ptr × T)} (h : Freed s k c z y l r) (hl : l ≠ .nil) :
    (s.takePlace z.1 y.1).Stores (k.plug (.on .left c l y r)) ∧ Keeps s (s.takePlace z.1 y.1) := by
  obtain ⟨hk, hl', hr, hp, hc, hzl, hyr, hd, hzn, hyn, hsen, hnd⟩ := h
  simp only [List.nodup_cons, List.nodup_append, List.mem_cons, List.mem_append] at hnd
  have hal := addr_mem (s := s) hl
  have hk0 := hk.ne_nil
  have hl0 := hl'.ne_nil
  have hr0 := hr.ne_nil
  let s₁ := (s.setLink k y.1).setParent y.1 (s.above k)
  let s₂ := s₁.setChild .left y.1 (s.addr l)
  let s₃ := s₂.setParent (s.addr l) y.1
  let s₄ := s₃.setColor y.1 c
  have hst : s.takePlace z.1 y.1 = s₄ := by
    have h₁ : s.transplant z.1 y.1 = s₁ := by
      rw [RBTree.transplant, relink_eq hk hp hzn (by grind), setLink_parent, hp]
    have h₂ : s₁.child .left z.1 = s.addr l := (setLink_child (by grind)).trans hzl
    have h₃ : s₂.child .left y.1 = s.addr l := by simp [s₂, setChild]
    have h₄ : s₃.color z.1 = c := (congrFun setLink_color _).trans hc
    simp only [RBTree.takePlace, h₁, h₂]
    exact congrArg₂ (fun p c => (s₂.setParent p y.1).setColor y.1 c) h₃ (h₃ ▸ h₄)
  have h₁ : ∀ p, p ∉ kptrs k → p ≠ y.1 → Same s s₂ p := fun p hk hy =>
    (same_setLink hk).trans ((same_setParent hy).trans (same_setChild hy))
  have h₂ : ∀ p, p ≠ y.1 → p ≠ s.addr l → Same s₂ s₄ p := fun p hy hl =>
    (same_setParent hl).trans (same_setColor hy)
  have hn : s₄.nil = s.nil := setLink_nil
  have hkeeps : Keeps s s₄ := ⟨(h₁ _ (by grind) hyn.symm).trans (h₂ _ hyn.symm (by grind)),
    setLink_live, setLink_news⟩
  rw [hst]
  refine ⟨⟨?_, ?_, hsen.keeps hkeeps⟩, hkeeps⟩
  · rw [holds_plug, rep_on, addr_on, addr_congr hn, addr_congr hn, above_congr hn]
    refine ⟨?_, ⟨hn ▸ hyn, ?_, ?_, ?_, ?_, ?_⟩, ?_, ?_⟩
    · refine (hk.setLink (by grind)).congr rfl fun p hp => ?_
      have hpy : p ≠ y.1 := by grind
      exact (same_setParent hpy).trans ((same_setChild hpy).trans (h₂ p hpy (by grind)))
    · exact (congrFun setLink_data _).trans hd
    · exact Function.update_self ..
    · simp [s₄, s₃, s₂, s₁, setColor, setParent, setChild, show y.1 ≠ s.addr l by grind]
    · simp [s₄, s₃, s₂, setColor, setParent, setChild]
    · have hyk : y.1 ∉ kptrs k := by grind
      simp [s₄, s₃, s₂, s₁, setColor, setParent, setChild, Dir.flip, setLink_child hyk, hyr]
    · have hl₂ : s₂.Rep z.1 l := hl'.congr fun p hp => h₁ p (by grind) (by grind)
      have hl₃ := Rep.setParent (r := y.1) hl₂ (by grind)
      have hn₂ : s₂.nil = s.nil := setLink_nil
      rw [addr_congr hn₂] at hl₃
      exact hl₃.congr fun p hp => same_setColor (by grind)
    · exact hr.congr fun p hp => (h₁ p (by grind) (by grind)).trans (h₂ p (by grind) (by grind))
  · simp only [nodup_ptrs_plug, nodup_ptrs_on, mem_ptrs_on]
    grind

/-- The successor is the right child of `z`: only the parent of its right child is written. -/
theorem Stores.freeSuccessor_child {cy : Color}
    (hs : s.Stores (k.plug (.on .left c l z (.on .left cy .nil y t)))) :
    Freed (freeSuccessor s z.1 y.1) k c z y l t ∧
      (freeSuccessor s z.1 y.1).parent (s.addr t) = y.1 ∧
      Books s (freeSuccessor s z.1 y.1) := by
  obtain ⟨hs', hnd, hsen⟩ := id hs
  have hy := hs.far.node
  obtain ⟨hk, hrep⟩ := holds_plug.1 hs'
  obtain ⟨hz, hl, hr⟩ := rep_on.1 hrep
  obtain ⟨-, -, ht⟩ := rep_on.1 hr
  rw [addr_on] at hk
  simp only [nodup_ptrs_plug, nodup_ptrs_on, mem_ptrs_on] at hnd
  have hk0 := hk.ne_nil
  have hl0 := hl.ne_nil
  have haddr : s.addr t ∈ ptrs t ∨ s.addr t = s.nil := by
    rcases eq_or_ne t .nil with rfl | h0
    · exact .inr rfl
    · exact .inl (addr_mem h0)
  have hzn := hz.ne
  have hst : RBTree.freeSuccessor s z.1 y.1 = s.setParent (s.addr t) y.1 := by
    have hx : s.child .right y.1 = s.addr t := hy.far
    have hp : s.parent y.1 = z.1 := hy.parent
    rw [RBTree.freeSuccessor, if_pos hp, hx]
  rw [hst]
  refine ⟨⟨?_, ?_, ?_, ?_, hz.color, hz.near, hy.far, hy.data, hz.ne, hy.ne,
    ⟨hsen.color, hsen.child⟩, ?_⟩, Function.update_self .., rfl, rfl, rfl⟩
  · exact hk.congr rfl fun p hp => same_setParent (by grind)
  · exact hl.congr fun p hp => same_setParent (by grind)
  · exact ht.setParent (by grind)
  · exact (same_setParent (by grind)).parent.trans hz.parent
  · simp only [List.nodup_cons, List.nodup_append, List.mem_cons, List.mem_append]
    grind

/-- The successor is deeper: its right child takes its place first. -/
theorem Stores.freeSuccessor_deep {cy : Color} {f : Frame (Ptr × T)} {ky : Ctx (Ptr × T)}
    (hs : s.Stores (k.plug (.on .left c l z (Ctx.plug (f :: ky) (.on .left cy .nil y t))))) :
    Freed (freeSuccessor s z.1 y.1) k c z y l (Ctx.plug (f :: ky) t) ∧
      (freeSuccessor s z.1 y.1).parent (s.addr t) = f.val.1 ∧
      Books s (freeSuccessor s z.1 y.1) := by
  have hnd := hs.nodup
  simp only [nodup_ptrs_plug, nodup_ptrs_on, mem_ptrs_on, mem_ptrs_plug, kptrs,
    List.mem_cons] at hnd
  have hs₀ : s.Stores (Ctx.plug (f :: (ky ++ ⟨.right, c, z, l⟩ :: k)) (.on .left cy .nil y t)) := by
    rw [← List.cons_append, Ctx.plug_append]
    exact hs.far
  have hy := hs₀.node
  obtain ⟨h₁, hp₁, hd₁, hb₁⟩ := hs₀.transplant
  rw [← List.cons_append, Ctx.plug_append] at h₁
  have h₁ : (s.transplant y.1 (s.addr t)).Stores
      (k.plug (.on .left c l z (Ctx.plug (f :: ky) t))) := h₁
  have hr0 : Ctx.plug (f :: ky) t ≠ .nil :=
    Ctx.plug_ne_nil (k := ky) (t := f.fill t) ColorTree.on_ne_nil
  generalize hs₁ : s.transplant y.1 (s.addr t) = s₁ at *
  obtain ⟨hk, hrep⟩ := holds_plug.1 h₁.holds
  obtain ⟨hz, hl, hr⟩ := rep_on.1 hrep
  rw [addr_on] at hk
  have hb₀ := hb₁.nil
  have hyn : y.1 ≠ s₁.nil := hb₀ ▸ hy.ne
  have har := addr_mem (s := s₁) hr0
  have hk0 := hk.ne_nil
  have hl0 := hl.ne_nil
  have hr₀ := hr.ne_nil
  have hyr : y.1 ∉ ptrs (Ctx.plug (f :: ky) t) := by
    rw [mem_ptrs_plug, kptrs, List.mem_cons]
    grind
  have haddr : t = .nil ∨ (s.addr t ≠ y.1 ∧ s.addr t ≠ s₁.addr (Ctx.plug (f :: ky) t)) := by
    rcases eq_or_ne t .nil with h0 | h0
    · exact .inl h0
    · have hat := addr_mem (s := s) h0
      have hroot := addr_plug_mem (s := s₁) (f := f) (k := ky) (t := t)
      rw [kptrs, List.mem_cons] at hroot
      exact .inr (by grind)
  have hyk : y.1 ∉ kptrs k := by grind
  have hyl : y.1 ∉ ptrs l := by grind
  have hzy : z.1 ≠ y.1 := by grind
  have hzf : z.1 ≠ f.val.1 := by grind
  clear hnd
  have hnd := h₁.nodup
  simp only [nodup_ptrs_plug (k := k), nodup_ptrs_on, mem_ptrs_on] at hnd
  generalize hR : Ctx.plug (f :: ky) t = r at *
  let s₂ := s₁.setChild .right y.1 (s₁.addr r)
  let s₃ := s₂.setParent (s₁.addr r) y.1
  have hst : RBTree.freeSuccessor s z.1 y.1 = s₃ := by
    have hx : s.child .right y.1 = s.addr t := hy.far
    have hp : s.parent y.1 = f.val.1 := hy.parent
    have hzr : s₁.child .right z.1 = s₁.addr r := hz.far
    have hy₂ : s₂.child .right y.1 = s₁.addr r := by simp [s₂, setChild]
    rw [RBTree.freeSuccessor, if_neg (by rw [hp]; exact hzf.symm), hx]
    simp only [hs₁, hzr]
    exact congrArg (fun p => s₂.setParent p y.1) hy₂
  have h₂ : ∀ p, p ≠ y.1 → p ≠ s₁.addr r → Same s₁ s₃ p := fun p hy hr =>
    (same_setChild hy).trans (same_setParent hr)
  have hn := h₂ s₁.nil hyn.symm (by grind)
  rw [hst]
  refine ⟨⟨?_, ?_, ?_, ?_, hz.color, ?_, ?_, ?_, ?_, ?_, ?_, ?_⟩, ?_, ?_⟩
  · exact hk.congr rfl fun p hp => h₂ p (by grind) (by grind)
  · exact hl.congr fun p hp => h₂ p (by grind) (by grind)
  · have hr₂ : s₂.Rep z.1 r := hr.congr fun p hp => same_setChild (by grind)
    exact hr₂.setParent (by grind)
  · exact (h₂ z.1 (by grind) (by grind)).parent.trans hz.parent
  · exact ((h₂ z.1 (by grind) (by grind)).child .left).trans hz.near
  · have hyr₃ : s₃.child .right y.1 = s₁.addr r := by simp [s₃, s₂, setParent, setChild]
    exact hyr₃
  · exact (congrFun hd₁ _).trans hy.data
  · exact hz.ne
  · exact hyn
  · constructor
    · exact hn.color.trans h₁.sentinel.color
    · exact fun d => (hn.child d).trans (h₁.sentinel.child d)
  · simp only [List.nodup_cons, List.nodup_append, List.mem_cons, List.mem_append]
    grind
  · rcases haddr with rfl | ⟨hay, har'⟩
    · rw [addr_nil, ← hb₀] at hp₁ ⊢
      exact hn.parent.trans hp₁
    · exact (h₂ _ hay har').parent.trans hp₁
  · exact hb₁.trans ⟨rfl, rfl, rfl⟩

/-- The way down side `d` ends at a node without child on that side. -/
theorem Stores.sideMost (hs : s.Stores (k.plug t)) (ht : t ≠ .nil)
    (hfuel : t.toList.length ≤ fuel) :
    ∃ (ky : Ctx (Ptr × T)) (cy : Color) (y : Ptr × T) (r : ColorTree (Ptr × T)),
      t = ky.plug (.on d cy .nil y r) ∧ (∀ f ∈ ky, f.dir = d) ∧
      sideMost d s fuel (s.addr t) = some y.1 := by
  induction fuel generalizing k t with
  | zero => cases t with
    | nil => exact absurd rfl ht
    | node c l v r => simp at hfuel
  | succ fuel ih =>
    obtain ⟨c, a, v, b, rfl⟩ := ColorTree.exists_on d ht
    have ha : s.child d v.1 = s.addr a := hs.node.near
    rw [addr_on]
    rcases eq_or_ne a .nil with rfl | ha0
    · refine ⟨[], c, v, b, rfl, by simp, ?_⟩
      rw [RBTree.sideMost, ha, if_neg (by simp)]
    · have hlen : a.toList.length ≤ fuel := by
        cases d <;> simp [ColorTree.on] at hfuel <;> omega
      obtain ⟨ky, cy, y, r, rfl, hky, hmost⟩ := ih hs.near ha0 hlen
      refine ⟨ky ++ [⟨d, c, v, b⟩], cy, y, r, ?_, ?_, ?_⟩
      · rw [Ctx.plug_append]
        rfl
      · intro f hf
        rcases List.mem_append.1 hf with hf | hf
        · exact hky f hf
        · rw [List.mem_singleton.1 hf]
      · have hne : s.child d v.1 ≠ s.nil := by
          rw [ha]
          exact fun h => ha0 ((holds_plug.1 hs.near.holds).2.addr_eq_nil.1 h)
        rw [RBTree.sideMost, if_pos hne, ha]
        exact hmost

/-- `unlink` at `z`: a node of colour `col` with the one child `t'` is gone from the shape of the
tree, and the element of `z` is gone from its list. -/
theorem Stores.unlink {r : ColorTree (Ptr × T)} (hs : s.Stores (k.plug (.on .left c l z r)))
    (hb : IsRB (k.plug (.on .left c l z r)) .black N) (hfuel : r.toList.length ≤ fuel) :
    ∃ s' k' t' col n, unlink fuel s z.1 = some (s', s.addr t', col) ∧ s'.Stores (k'.plug t') ∧
      s'.parent (s.addr t') = s.above k' ∧ (∃ d w, IsRB (.on d col .nil w t') col n) ∧
      Ctx.IsRB N k' col n ∧
      (k'.plug t').toList = k.before ++ (l.toList ++ r.toList ++ k.after) ∧ Books s s' := by
  have hz := hs.node
  have hl : s.child .left z.1 = s.addr l := hz.near
  have hr : s.child .right z.1 = s.addr r := hz.far
  have hl0 : s.addr l = s.nil ↔ l = .nil := (holds_plug.1 hs.near.holds).2.addr_eq_nil
  have hr0 : s.addr r = s.nil ↔ r = .nil := (holds_plug.1 hs.far.holds).2.addr_eq_nil
  obtain ⟨c', n, hbz, hbk⟩ := hb.of_plug
  obtain rfl : c = c' := by simpa using hbz.color_eq
  rw [RBTree.unlink, hl, hr]
  rcases eq_or_ne l .nil with rfl | hlne
  · rw [if_pos (hl0.2 rfl), hz.color]
    obtain ⟨h₁, hp, -, hbooks⟩ := hs.transplant
    refine ⟨_, k, r, c, n, rfl, h₁, hp, ⟨.left, z, hbz⟩, hbk, ?_, hbooks⟩
    rw [Ctx.toList_plug, ColorTree.toList_nil, List.nil_append]
  rw [if_neg fun h => hlne (hl0.1 h)]
  rcases eq_or_ne r .nil with rfl | hrne
  · rw [if_pos (hr0.2 rfl), hz.color]
    have hs' : s.Stores (k.plug (.on .right c .nil z l)) := hs
    obtain ⟨h₁, hp, -, hbooks⟩ := hs'.transplant
    refine ⟨_, k, l, c, n, rfl, h₁, hp, ⟨.right, z, hbz⟩, hbk, ?_, hbooks⟩
    rw [Ctx.toList_plug, ColorTree.toList_nil, List.append_nil]
  rw [if_neg fun h => hrne (hr0.1 h)]
  obtain ⟨ky, cy, y, t', rfl, hky, hmost⟩ := Stores.sideMost (d := .left) hs.far hrne hfuel
  have hs₀ : s.Stores ((ky ++ ⟨.right, c, z, l⟩ :: k).plug (.on .left cy .nil y t')) := by
    rw [Ctx.plug_append]
    exact hs.far
  have hy := hs₀.node
  have hyt : s.child .right y.1 = s.addr t' := hy.far
  rw [leftMost, hmost, Option.map_some, hyt, hy.color]
  have hb₀ : IsRB ((ky ++ ⟨.right, c, z, l⟩ :: k).plug (.on .left cy .nil y t')) .black N := by
    rw [Ctx.plug_append]
    exact hb
  obtain ⟨c', m, hby, hbk'⟩ := hb₀.of_plug
  obtain rfl : cy = c' := by simpa using hby.color_eq
  obtain ⟨hfreed, hp, hbooks⟩ : Freed (freeSuccessor s z.1 y.1) k c z y l (ky.plug t') ∧
      (freeSuccessor s z.1 y.1).parent (s.addr t') = s.above (ky ++ ⟨.right, c, y, l⟩ :: k) ∧
      Books s (freeSuccessor s z.1 y.1) := by
    cases ky with
    | nil => exact hs.freeSuccessor_child
    | cons f ky => exact hs.freeSuccessor_deep
  obtain ⟨h₂, k₂⟩ := hfreed.takePlace hlne
  have h₂' : ((freeSuccessor s z.1 y.1).takePlace z.1 y.1).Stores
      ((ky ++ ⟨.right, c, y, l⟩ :: k).plug t') := by
    rw [Ctx.plug_append]
    exact h₂
  refine ⟨_, ky ++ ⟨.right, c, y, l⟩ :: k, t', cy, m, rfl, h₂', ?_, ⟨.left, y, hby⟩, hbk'.setVal,
    ?_, hbooks.trans k₂.books⟩
  · rw [← addr_congr hbooks.nil] at hp ⊢
    rw [← above_congr hbooks.nil] at hp
    rw [k₂.parent h₂' hp (above_congr k₂.same.nil), above_congr hbooks.nil]
  · have hbefore := Ctx.before_eq_nil hky
    rw [Ctx.plug_append, Ctx.plug_cons, Frame.fill, Ctx.toList_plug k, ColorTree.toList_on_right,
      Ctx.toList_plug ky, Ctx.toList_plug ky, hbefore, ColorTree.toList_on_left]
    simp

/-! ## `deleteNode` -/

/-- Releasing a node that is not in the tree. -/
theorem Stores.releaseNode (A : Alloc Ptr T) (hs : s.Stores t) (hz : p ∉ ptrs t) (hn : p ≠ s.nil) :
    (s.releaseNode A p).Stores t := by
  have hsame : ∀ q, q ≠ p → Same s (s.releaseNode A p) q := fun q hq =>
    ⟨rfl, Function.update_of_ne hq _ _, Function.update_of_ne hq _ _, Function.update_of_ne hq _ _,
      fun _ => Function.update_of_ne hq _ _⟩
  obtain ⟨⟨hroot, hrep⟩, hnd, hsen⟩ := hs
  have hnil := hsame s.nil hn.symm
  refine ⟨⟨hroot.trans (addr_congr rfl).symm, hrep.congr fun q hq => hsame q ?_⟩, hnd,
    ⟨hnil.color.trans hsen.color, fun d => (hnil.child d).trans (hsen.child d)⟩⟩
  exact ne_of_mem_of_not_mem hq hz

/-- `deleteNode` removes the node `z` and keeps a red-black tree. -/
theorem Stores.deleteNode (A : Alloc Ptr T) {r : ColorTree (Ptr × T)}
    (hs : s.Stores (k.plug (.on .left c l z r))) (hb : IsRB (k.plug (.on .left c l z r)) .black N)
    (hfuel : (k.plug (.on .left c l z r)).toList.length ≤ fuel) :
    ∃ s' t' N', deleteNode A fuel s z.1 = some s' ∧ s'.Stores t' ∧ IsRB t' .black N' ∧
      t'.toList = k.before ++ (l.toList ++ r.toList ++ k.after) ∧ s'.nil = s.nil ∧
      s'.live = s.live.erase z.1 ∧ s'.news = s.news ∧ (t' = .nil → s'.parent s.nil = s.nil) := by
  have hlen : (k.plug (.on .left c l z r)).toList.length =
      (k.before ++ (l.toList ++ r.toList ++ k.after)).length + 1 := by
    rw [Ctx.toList_plug, ColorTree.toList_on_left]
    simp only [List.length_append, List.length_cons]
    omega
  have hr : r.toList.length ≤ fuel := by
    rw [hlen] at hfuel
    simp only [List.length_append] at hfuel
    omega
  obtain ⟨s₁, k', t', col, n, hun, h₁, hp, ⟨d, w, hbw⟩, hbk, hlist, hbooks⟩ := hs.unlink hb hr
  have hz : z.1 ∉ (k.before ++ (l.toList ++ r.toList ++ k.after)).map Prod.fst := by
    have hnd := hs.nodup
    rw [ptrs, Ctx.toList_plug, ColorTree.toList_on_left] at hnd
    simp only [List.map_append, List.map_cons, List.nodup_append, List.nodup_cons, List.mem_append,
      List.mem_cons] at hnd ⊢
    grind
  -- whatever repairs the colours, releasing `z` ends the operation
  have hdone : ∀ s₂ t₂ N', (if col = .black then RBTree.fixDelete fuel s₁ (s.addr t')
        else some s₁) = some s₂ → s₂.Stores t₂ → IsRB t₂ .black N' →
      t₂.toList = (k'.plug t').toList → Keeps s₁ s₂ →
      ∃ s' t' N', RBTree.deleteNode A fuel s z.1 = some s' ∧ s'.Stores t' ∧ IsRB t' .black N' ∧
        t'.toList = k.before ++ (l.toList ++ r.toList ++ k.after) ∧ s'.nil = s.nil ∧
        s'.live = s.live.erase z.1 ∧ s'.news = s.news ∧ (t' = .nil → s'.parent s.nil = s.nil) := by
    intro s₂ t₂ N' hfix h₂ hb₂ hl₂ k₂
    have hb := hbooks.trans k₂.books
    refine ⟨s₂.releaseNode A z.1, t₂, N', ?_, h₂.releaseNode A ?_ ?_, hb₂, hl₂.trans hlist, hb.nil,
      ?_, hb.news, ?_⟩
    · simp only [RBTree.deleteNode, hun, Option.bind_eq_bind, Option.bind_some, hfix]
    · rw [ptrs, hl₂, hlist]
      exact hz
    · rw [hb.nil]
      exact hs.node.ne
    · rw [← hb.live]
      rfl
    · -- the last node went: `transplant` wrote the sentinel's parent
      rintro rfl
      have hlen := Ctx.length_le_toList k' t'
      rw [← hl₂, ColorTree.toList_nil, List.length_nil] at hlen
      obtain rfl : k' = [] := List.eq_nil_of_length_eq_zero (by omega)
      have ht' : t' = .nil := by
        cases t' with
        | nil => rfl
        | node c l v r => simp at hlen
      rw [ht', addr_nil] at hp
      have hpar : s₂.parent s.nil = s.nil := by
        rw [← hbooks.nil] at hp ⊢
        exact k₂.same.parent.trans (hp.trans hbooks.nil.symm)
      exact (Function.update_of_ne hs.node.ne.symm _ _).trans hpar
  rw [← addr_congr hbooks.nil] at hp
  rw [← above_congr hbooks.nil] at hp
  cases col with
  | red =>
    obtain ⟨-, -, ht'⟩ := hbw.of_on_red
    exact hdone s₁ _ N (if_neg (by decide)) h₁ (hbk.to_black.plug ht') rfl .refl
  | black =>
    obtain ⟨m, c₁, c₂, rfl, -, -, ht'⟩ := hbw.of_on_black
    have hdef : Deficit s₁ k' t' m N := by
      refine ⟨h₁, hp, fun hc => ?_, fun hc => ?_, hbk⟩
      · rw [← hc, ht'.color_eq]
        exact ht'
      · have := ht'.blacken
        rwa [if_pos (ht'.color_eq.symm.trans hc)] at this
    have hrank : rank k' t' < fuel := by
      have h₁ : rank k' t' ≤ k'.length := by rw [rank]; split <;> omega
      have h₂ := Ctx.length_le_toList k' t'
      rw [hlist] at h₂
      omega
    obtain ⟨s₂, t₂, N', hfix, h₂, hb₂, hl₂, k₂⟩ := hdef.fixDelete hrank
    rw [addr_congr hbooks.nil] at hfix
    exact hdone s₂ t₂ N' ((if_pos rfl).trans hfix) h₂ hb₂ hl₂ k₂

end

end RockCoro.RBTree
