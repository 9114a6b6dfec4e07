import RockCoro.BasicStruct.RedBlackTree.Repr

/-!
# `fixInsert`

The loop works at a red node, the root of the subtree `t` in the context `k`; the tree is a
red-black tree but for the parent of `t`, which may be red too. A round either moves two nodes up or
ends the repair.
-/

namespace RockCoro.RBTree

open RedBlack

section
variable {Ptr T : Type} [DecidableEq Ptr] {s s' : RBTree Ptr T} {t a u : ColorTree (Ptr × T)}
  {k : Ctx (Ptr × T)} {d e : Dir} {c : Color} {x y : Ptr × T} {n N : ℕ}

/-- The invariant of `fixInsert` at the subtree `t` in the context `k`. -/
structure RedFocus (s : RBTree Ptr T) (k : Ctx (Ptr × T)) (t : ColorTree (Ptr × T)) (n N : ℕ) :
    Prop where
  stores : s.Stores (k.plug t)
  red : IsRB t .red n
  ctx : Ctx.IsRB N k .black n

omit [DecidableEq Ptr] in
/-- The loop is never at the sentinel. -/
theorem RedFocus.ne_nil (h : RedFocus s k t n N) : t ≠ .nil := by
  rintro rfl
  cases h.red

/-- Red uncle: parent, uncle and grandparent change colours. -/
theorem Stores.fixInsertRecolor (hs : s.Stores (k.plug (.on d .black (.on e .red t x a) y u)))
    (ht : t ≠ .nil) (hu : u ≠ .nil) :
    (fixInsertRecolor s (s.addr t) (s.addr u)).1.Stores
        (k.plug (.on d .red (.on e .black t x a) y u.blacken)) ∧
      Keeps s (fixInsertRecolor s (s.addr t) (s.addr u)).1 ∧
      (fixInsertRecolor s (s.addr t) (s.addr u)).2 = y.1 := by
  have hz : s.parent (s.addr t) = x.1 := hs.near.near.parent ht
  have hx : s.parent x.1 = y.1 := hs.near.node.parent
  obtain ⟨c, b, v, b', rfl⟩ := ColorTree.exists_on .left hu
  obtain ⟨h₁, k₁⟩ := hs.near.setColor .black
  rw [Ctx.plug_near] at h₁
  obtain ⟨h₂, k₂⟩ := h₁.far.setColor .black
  rw [Ctx.plug_far] at h₂
  obtain ⟨h₃, k₃⟩ := h₂.setColor .red
  have hst : (RBTree.fixInsertRecolor s (s.addr t) v.1) =
      (((s.setColor x.1 .black).setColor v.1 .black).setColor y.1 .red, y.1) := by
    simp only [RBTree.fixInsertRecolor, setColor_parent, hz, hx]
  rw [addr_on, hst, ColorTree.blacken_on]
  exact ⟨h₃, k₁.trans (k₂.trans k₃), rfl⟩

/-- Black uncle, outer child: parent and grandparent change colours and places. -/
theorem Stores.fixInsertOuter (hs : s.Stores (k.plug (.on d .black (.on d .red t x a) y u)))
    (ht : t ≠ .nil) :
    (fixInsertOuter d s (s.addr t)).Stores (k.plug (.on d .black t x (.on d .red a y u))) ∧
      Keeps s (fixInsertOuter d s (s.addr t)) := by
  have hz : s.parent (s.addr t) = x.1 := hs.near.near.parent ht
  have hx : s.parent x.1 = y.1 := hs.near.node.parent
  obtain ⟨h₁, k₁⟩ := hs.near.setColor .black
  rw [Ctx.plug_near] at h₁
  obtain ⟨h₂, k₂⟩ := h₁.setColor .red
  rw [← ColorTree.on_flip, ← ColorTree.on_flip (v := x)] at h₂
  obtain ⟨h₃, k₃⟩ := h₂.rotate
  rw [ColorTree.on_flip, ColorTree.on_flip] at h₃
  have hst : RBTree.fixInsertOuter d s (s.addr t) =
      RBTree.rotate d.flip ((s.setColor x.1 .black).setColor y.1 .red) y.1 := by
    simp only [RBTree.fixInsertOuter, setColor_parent, hz, hx]
  rw [hst]
  exact ⟨h₃, k₁.trans (k₂.trans k₃)⟩

/-- A round of `fixInsert` at `t`, with parent `x`, grandparent `y` and uncle `u`. -/
theorem Stores.fixInsertSide (hs : s.Stores (k.plug (.on d .black (.on e .red t x a) y u)))
    (ht : IsRB t .red n) (ha : IsRB a .black n) (hu : IsRB u c n)
    (hk : Ctx.IsRB N k .black (n + 1)) :
    ∃ k' t' n', RedFocus (fixInsertSide d s (s.addr t)).1 k' t' n' N ∧
      (fixInsertSide d s (s.addr t)).2 = s.addr t' ∧ k'.length ≤ k.length + 1 ∧
      (k'.plug t').toList = (k.plug (.on d .black (.on e .red t x a) y u)).toList ∧
      Keeps s (fixInsertSide d s (s.addr t)).1 := by
  have ht0 : t ≠ .nil := by
    rintro rfl
    cases ht
  have hz : s.parent (s.addr t) = x.1 := hs.near.near.parent ht0
  have hx : s.parent x.1 = y.1 := hs.near.node.parent
  have hy : s.child d.flip y.1 = s.addr u := hs.node.far
  have hcu : s.color (s.addr u) = c := hs.far.color.trans hu.color_eq
  have hside : s.addr t = s.child d.flip x.1 ↔ e = d.flip := hs.near.near.eq_child (.inl ht0)
  simp only [RBTree.fixInsertSide, hz, hx, hy, hcu]
  cases c with
  | red =>
    have hu0 : u ≠ .nil := by
      rintro rfl
      cases hu
    obtain ⟨h₁, k₁, h₂⟩ := hs.fixInsertRecolor ht0 hu0
    rw [if_pos rfl, h₂]
    refine ⟨k, _, _, ⟨h₁, .insert_recolor ht ha hu, hk⟩, addr_on.symm, by omega, ?_, k₁⟩
    exact Ctx.toList_plug_congr
      (ColorTree.toList_on_congr ColorTree.toList_on_color ColorTree.toList_blacken)
  | black =>
    rw [if_neg (by decide), RBTree.fixInsertInner, hz]
    rcases Dir.eq_or_eq_flip d e with rfl | rfl
    · rw [if_neg fun h => Dir.flip_ne e (hside.1 h).symm]
      obtain ⟨h₁, k₁⟩ := hs.fixInsertOuter ht0
      refine ⟨_, t, n, ⟨h₁.near, ht, .black rfl (.on_red ha hu) hk⟩, rfl, by simp, ?_, k₁⟩
      exact Ctx.toList_plug_congr ColorTree.toList_rotate.symm
    · rw [if_pos (hside.2 rfl)]
      obtain ⟨ct, ta, z, tb, rfl⟩ := ColorTree.exists_on d ht0
      obtain rfl : ct = .red := by simpa using ht.color_eq
      obtain ⟨-, hta, htb⟩ := ht.of_on_red
      rw [ColorTree.on_flip] at hs ⊢
      obtain ⟨h₁, k₁⟩ := hs.near.rotate
      rw [Ctx.plug_near] at h₁
      obtain ⟨h₂, k₂⟩ := h₁.fixInsertOuter ColorTree.on_ne_nil
      rw [addr_on] at h₂ k₂
      refine ⟨_, _, n, ⟨h₂.near, .on_red ha hta, .black rfl (.on_red htb hu) hk⟩, addr_on.symm,
        by simp, ?_, k₁.trans k₂⟩
      have hin : (ColorTree.on d .black (.on d .red (.on d .red a x ta) z tb) y u).toList =
          (ColorTree.on d .black (.on d .red a x (.on d .red ta z tb)) y u).toList :=
        ColorTree.toList_on_congr ColorTree.toList_rotate rfl
      rw [Ctx.plug_near]
      exact Ctx.toList_plug_congr (ColorTree.toList_rotate.symm.trans hin)

/-- Making the root black. -/
theorem Stores.setColor_root (hs : s.Stores t) :
    (s.setColor s.root .black).Stores t.blacken ∧ Keeps s (s.setColor s.root .black) := by
  rcases eq_or_ne t .nil with rfl | ht
  · have hroot : s.root = s.nil := hs.root
    have hst : s.setColor s.root .black = s := by
      rw [hroot, RBTree.setColor, ← hs.sentinel.color, Function.update_eq_self]
    rw [hst]
    exact ⟨hs, .refl⟩
  · obtain ⟨c, a, v, b, rfl⟩ := ColorTree.exists_on .left ht
    rw [hs.root, addr_on, ColorTree.blacken_on]
    exact Stores.setColor (k := []) .black hs

/-- `fixInsert` turns a red focus into a red-black tree with the same elements. -/
theorem RedFocus.fixInsert {fuel : ℕ} (h : RedFocus s k t n N) (hfuel : k.length < fuel) :
    ∃ s' t' N', fixInsert fuel s (s.addr t) = some s' ∧ s'.Stores t' ∧ IsRB t' .black N' ∧
      t'.toList = (k.plug t).toList ∧ Keeps s s' := by
  induction fuel generalizing s k t n with
  | zero => omega
  | succ fuel ih =>
    have ht := h.ne_nil
    obtain ⟨hs, hred, hctx⟩ := h
    have hz := hs.parent ht
    have hdone : s.color (s.above k) = .black → (∃ N', IsRB (k.plug t).blacken .black N') →
        ∃ s' t' N', RBTree.fixInsert (fuel + 1) s (s.addr t) = some s' ∧ s'.Stores t' ∧
          IsRB t' .black N' ∧ t'.toList = (k.plug t).toList ∧ Keeps s s' := by
      rintro hc ⟨N', hN⟩
      obtain ⟨h₁, k₁⟩ := hs.setColor_root
      refine ⟨_, _, N', ?_, h₁, hN, ColorTree.toList_blacken, k₁⟩
      rw [RBTree.fixInsert, hz, hc, if_neg (by decide)]
    cases hctx with
    | root => exact hdone hs.sentinel.color ⟨_, hred.blacken⟩
    | black hc hsib hk =>
      rename_i f k c
      refine hdone (hs.frame.color.trans hc) ⟨N, ?_⟩
      have hT : IsRB (Ctx.plug (f :: k) t) .black N := (Ctx.IsRB.black hc hsib hk).plug hred
      exact hT.blacken
    | red hc hsib hk =>
      rename_i f k
      obtain ⟨f₂, k, c, rfl, hc₂, hsib₂, hk₂⟩ := hk.of_red
      obtain ⟨e, cf, x, a⟩ := f
      obtain ⟨d, cy, y, u⟩ := f₂
      obtain rfl : cf = .red := hc
      obtain rfl : cy = .black := hc₂
      obtain ⟨k', t', n', h', hz', hlen, hlist, k₁⟩ :=
        Stores.fixInsertSide (k := k) (d := d) (e := e) hs hred hsib hsib₂ hk₂
      have hround : (if s.parent (s.addr t) = s.child .left (s.parent (s.parent (s.addr t)))
            then RBTree.fixInsertSide .left s (s.addr t)
            else RBTree.fixInsertSide .right s (s.addr t)) =
          RBTree.fixInsertSide d s (s.addr t) := by
        have hzx : s.parent (s.addr t) = s.addr (.on e .red t x a) := hz.trans addr_on.symm
        have hx : s.parent (s.addr (.on e .red t x a)) = y.1 :=
          Stores.parent (k := ⟨d, .black, y, u⟩ :: k) hs ColorTree.on_ne_nil
        rw [hzx, hx]
        exact Stores.side (f := ⟨d, .black, y, u⟩) (k := k)
          (fun d => RBTree.fixInsertSide d s (s.addr t)) hs (.inl ColorTree.on_ne_nil)
      obtain ⟨s', t'', N', hfix, hs', hbal, hlist', k₂⟩ := ih h' (by simp at hfuel; omega)
      refine ⟨s', t'', N', ?_, hs', hbal, hlist'.trans hlist, k₁.trans k₂⟩
      rw [RBTree.fixInsert, if_pos (by rw [hz]; exact hs.frame.color)]
      rw [hround, ← hfix, addr_congr k₁.same.nil, ← hz']

end

end RockCoro.RBTree
