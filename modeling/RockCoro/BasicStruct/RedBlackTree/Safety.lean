import RockCoro.BasicStruct.RedBlackTree.Code
import RockCoro.BasicStruct.RedBlackTree.Shape

/-!
# Rebalancing is well defined

What every access of a call satisfies (`Ok`): the rotations have the child that they lift, the
grandparent and the sibling are real nodes, and nothing makes the sentinel red or links it.
-/

namespace RockCoro.RBTree

open RedBlack

section
variable {Ptr T : Type} [DecidableEq Ptr]

/-- What holds of an access to the memory `s`. The sentinel's parent is read only if `free`, and
`fixDelete` starts at the sentinel only if `start`. -/
def Ok (free start : Prop) (s : RBTree Ptr T) : Access (Cell.Val Ptr T) (Mark Ptr) → Prop
  | .read (.child _ p) => p ≠ s.nil
  | .read (.parent p) => p = s.nil → free
  | .write (.child _ p) _ => p ≠ s.nil
  | .write (.color p) c => c = .red → p ≠ s.nil
  | .mark (.rotate d x) => x ≠ s.nil ∧ s.child d.flip x ≠ s.nil
  | .mark (.grandparent g) => g ≠ s.nil
  | .mark (.fixDelete x) => x = s.nil → start
  | .mark (.sibling w) => w ≠ s.nil
  | _ => True

variable {s s' : RBTree Ptr T} {t a u : ColorTree (Ptr × T)} {k : Ctx (Ptr × T)} {d e : Dir}
  {c : Color} {x y z v w : Ptr × T} {p q nil : Ptr} {n N fuel : ℕ} {free start : Prop}

open Prog

/-! ## Rotations -/

/-- `relink` of a node that is not the sentinel touches no cell of the sentinel. -/
theorem safe_relink (hn : s.nil = nil) (hp : p ≠ nil) :
    Safe (Ok free start) (Code.relink nil p q) s := by
  subst hn
  simp [Code.relink, Ok, hp]

/-- A rotation is safe at a node whose child on the other side is a node. -/
theorem safe_rotate (hn : s.nil = nil) (hp : p ≠ nil) (hq : s.child d.flip p ≠ nil) :
    Safe (Ok free start) (Code.rotate nil d p) s := by
  subst hn
  simp [Code.rotate, Ok, hp, hq, safe_bind, safe_relink]

/-! ## Insertion -/

/-- The red uncle's case is safe below a node that has a grandparent. -/
theorem safe_fixInsertRecolor (hn : s.nil = nil) (hp : p ≠ nil) (hpp : s.parent p ≠ nil)
    (hppp : s.parent (s.parent p) ≠ nil) :
    Safe (Ok free start) (Code.fixInsertRecolor p q) s := by
  subst hn
  simp [Code.fixInsertRecolor, Ok, hp, hpp, hppp]

/-- The outer case is safe: it rotates at the grandparent, whose near child is the red parent. -/
theorem Stores.safe_fixInsertOuter
    (hs : s.Stores (k.plug (.on d .black (.on d .red t x a) y u))) (ht : t ≠ .nil)
    (hn : s.nil = nil) : Safe (Ok free start) (Code.fixInsertOuter nil d (s.addr t)) s := by
  subst hn
  have ht0 : s.addr t ≠ s.nil := fun h => ht ((holds_plug.1 hs.near.near.holds).2.addr_eq_nil.1 h)
  have hz : s.parent (s.addr t) = x.1 := hs.near.near.parent ht
  have hx : s.parent x.1 = y.1 := hs.near.node.parent
  have hy : s.child d y.1 = x.1 := hs.node.near.trans addr_on
  have hx0 := hs.near.node.ne
  have hy0 := hs.node.ne
  simp [Code.fixInsertOuter, Ok, hz, hx, ht0, hx0, hy0]
  exact safe_rotate rfl hy0 (by cases d <;> exact fun h => hx0 (hy.symm.trans h))

/-- The rotation of an inner child, if there is one: afterwards the child is an outer one. -/
theorem Stores.safe_fixInsertInner
    (hs : s.Stores (k.plug (.on d .black (.on e .red t x a) y u))) (ht : t.color = .red)
    (hn : s.nil = nil) : Safe (Ok free start) (Code.fixInsertInner nil d (s.addr t)) s ∧
      ∃ t' x' a', t' ≠ .nil ∧ (s.fixInsertInner d (s.addr t)).2 = s.addr t' ∧
        (s.fixInsertInner d (s.addr t)).1.Stores
        (k.plug (.on d .black (.on d .red t' x' a') y u)) := by
  subst hn
  have ht0 : t ≠ .nil := by
    rintro rfl
    cases ht
  have hz0 : s.addr t ≠ s.nil :=
    fun h => ht0 ((holds_plug.1 hs.near.near.holds).2.addr_eq_nil.1 h)
  have hz : s.parent (s.addr t) = x.1 := hs.near.near.parent ht0
  have hx0 := hs.near.node.ne
  have hside : s.addr t = s.child d.flip x.1 ↔ e = d.flip := hs.near.near.eq_child (.inl ht0)
  simp only [Code.fixInsertInner, RBTree.fixInsertInner, bind_eq, read_bind, ret_bind,
    safe_read, hz,
    Code.get_parent, Code.get_child, safe_ite]
  rcases Dir.eq_or_eq_flip d e with rfl | rfl
  · have hout : ¬s.addr t = s.child e.flip x.1 := fun h => Dir.flip_ne e (hside.1 h).symm
    rw [if_neg hout, if_neg hout]
    exact ⟨by simp [Ok, hz0, hx0], t, x, a, ht0, rfl, hs⟩
  · have hin : s.addr t = s.child d.flip x.1 := hside.2 rfl
    rw [if_pos hin, if_pos hin]
    obtain ⟨ct, ta, z, tb, rfl⟩ := ColorTree.exists_on d ht0
    obtain rfl : ct = .red := by simpa using ht
    rw [ColorTree.on_flip] at hs
    obtain ⟨h₁, k₁⟩ := hs.near.rotate
    rw [Ctx.plug_near] at h₁
    refine ⟨⟨fun h => absurd h hz0, hx0, fun h => absurd h hz0, ?_⟩, .on d .red a x ta, z, tb,
      ColorTree.on_ne_nil, addr_on.symm, h₁⟩
    exact Safe.bind (safe_rotate rfl hx0 (hin ▸ hz0)) (Code.run_rotate d x.1 rfl) (by simp)

/-- A round of `fixInsert`. -/
theorem Stores.safe_fixInsertSide
    (hs : s.Stores (k.plug (.on d .black (.on e .red t x a) y u))) (ht : t.color = .red)
    (hn : s.nil = nil) : Safe (Ok free start) (Code.fixInsertSide nil d (s.addr t)) s := by
  subst hn
  have ht0 : t ≠ .nil := by
    rintro rfl
    cases ht
  have hz0 : s.addr t ≠ s.nil :=
    fun h => ht0 ((holds_plug.1 hs.near.near.holds).2.addr_eq_nil.1 h)
  have hz : s.parent (s.addr t) = x.1 := hs.near.near.parent ht0
  have hx : s.parent x.1 = y.1 := hs.near.node.parent
  have hx0 := hs.near.node.ne
  have hy0 := hs.node.ne
  simp [Code.fixInsertSide, Ok, hz, hx, hz0, hx0, hy0]
  split_ifs
  · exact safe_fixInsertRecolor rfl hz0 (hz ▸ hx0) (by rwa [hz, hx])
  · obtain ⟨hin, t', x', a', ht', haddr, hs'⟩ := hs.safe_fixInsertInner ht rfl
    have hn' : (s.fixInsertInner d (s.addr t)).1.nil = s.nil := Code.fixInsertInner_nil ..
    refine hin.bind (Code.run_fixInsertInner d _ rfl) ?_
    rw [haddr, ← addr_congr hn']
    exact (hs'.safe_fixInsertOuter ht' hn').bind (Code.run_fixInsertOuter d _ hn') (by simp)

/-- `fixInsert` finds a grandparent in every round. -/
theorem RedFocus.safe_fixInsert (h : RedFocus s k t n N) (hn : s.nil = nil)
    (hfuel : k.length < fuel) : Safe (Ok free start) (Code.fixInsert nil fuel (s.addr t)) s := by
  induction fuel generalizing s k t n with
  | zero => omega
  | succ fuel ih =>
    subst hn
    have ht := h.ne_nil
    obtain ⟨hs, hred, hctx⟩ := h
    have hz := hs.parent ht
    have hz0 : s.addr t ≠ s.nil := fun h => ht ((holds_plug.1 hs.holds).2.addr_eq_nil.1 h)
    -- the loop ends below a black parent
    have hdone : s.color (s.above k) = .black →
        Safe (Ok free start) (Code.fixInsert s.nil (fuel + 1) (s.addr t)) s := by
      intro hc
      simp [Code.fixInsert, Ok, hz0, hz, hc]
    cases hctx with
    | root => exact hdone hs.sentinel.color
    | black hc hsib hk => exact hdone (hs.frame.color.trans hc)
    | red hc hsib hk =>
      rename_i f k
      obtain ⟨f₂, k, c, rfl, hc₂, hsib₂, hk₂⟩ := hk.of_red
      obtain ⟨e, cf, x, a⟩ := f
      obtain ⟨d, cy, y, u⟩ := f₂
      obtain rfl : cf = .red := hc
      obtain rfl : cy = .black := hc₂
      have hs₀ : s.Stores (Ctx.plug k (.on d .black (.on e .red t x a) y u)) := hs
      have hzx : s.parent (s.addr t) = x.1 := hz
      have hx : s.parent x.1 = y.1 := hs₀.near.node.parent
      have hx0 := hs₀.near.node.ne
      have hy0 := hs₀.node.ne
      have hred₀ : s.color x.1 = .red := hs₀.near.node.color
      have hside : x.1 = s.child .left y.1 ↔ d = .left := by
        have h := hs₀.near.eq_child (e := .left) (.inl ColorTree.on_ne_nil)
        rwa [addr_on] at h
      obtain ⟨k', t', n', h', hz', hlen, -, k₁⟩ :=
        Stores.fixInsertSide (k := k) (d := d) (e := e) hs hred hsib hsib₂ hk₂
      have hrest := ih h' k₁.same.nil (by simp at hfuel; omega)
      rw [addr_congr k₁.same.nil, ← hz'] at hrest
      have hround : Safe (Ok free start)
          ((Code.fixInsertSide s.nil d (s.addr t)).bind (Code.fixInsert s.nil fuel)) s :=
        (hs₀.safe_fixInsertSide hred.color_eq rfl).bind (Code.run_fixInsertSide d _ rfl) hrest
      simp [Code.fixInsert, Ok, hz0, hzx, hx, hx0, hy0, hred₀]
      split_ifs with hleft
      · rwa [hside.1 hleft] at hround
      · obtain rfl : d = .right := by
          cases d
          · exact absurd (hside.2 rfl) hleft
          · rfl
        exact hround

/-! ## Searches -/

/-- Reading an element is safe at any node. -/
theorem safe_value : Safe (Ok free start) (Code.value p) s := by
  simp [Code.value, Ok]
  cases s.data p <;> simp

section
variable {compare : T → T → Bool} {val : T}

/-- The search reads children only of nodes it tested against the sentinel. -/
theorem safe_descend (hn : s.nil = nil) :
    Safe (Ok free start) (Code.descend nil compare val fuel p q) s := by
  subst hn
  induction fuel generalizing p q with
  | zero => simp [Code.descend]
  | succ fuel ih =>
    simp [Code.descend]
    intro hq
    refine safe_bind.2 ⟨safe_value, fun r hr => ?_⟩
    obtain ⟨x, -, rfl⟩ := Option.map_eq_some_iff.1 ((Code.run_value q).symm.trans hr)
    simp [Ok, hq]
    split_ifs
    · exact ih
    · exact fun _ => ih

/-- `findNode` is safe on any tree. -/
theorem safe_findNode (hn : s.nil = nil) :
    Safe (Ok free start) (Code.findNode nil compare fuel val) s := by
  simp [Code.findNode, Ok, safe_bind, safe_descend hn]

/-- `find` is safe on any tree. -/
theorem safe_find (hn : s.nil = nil) : Safe (Ok free start) (Code.find nil compare fuel val) s := by
  simp [Code.find, Ok, safe_bind, safe_findNode hn]

end

/-- Going down one side is safe from a node. -/
theorem safe_sideMost (hn : s.nil = nil) (hp : p ≠ nil) :
    Safe (Ok free start) (Code.sideMost nil d fuel p) s := by
  subst hn
  induction fuel generalizing p with
  | zero => simp [Code.sideMost]
  | succ fuel ih =>
    simp [Code.sideMost, Ok, hp]
    exact fun h => ih h

/-- The way down a side ends at a real node. -/
theorem sideMost_ne_nil (hp : p ≠ s.nil) (h : s.sideMost d fuel p = some q) : q ≠ s.nil := by
  induction fuel generalizing p with
  | zero => exact absurd h (by simp [RBTree.sideMost])
  | succ fuel ih =>
    rw [RBTree.sideMost] at h
    split_ifs at h with hd
    · exact ih hd h
    · obtain rfl := Option.some.inj h
      exact hp

/-- `minimum` is safe on any tree; it asks for the root first. -/
theorem safe_minimum (hn : s.nil = nil) : Safe (Ok free start) (Code.minimum nil fuel) s := by
  subst hn
  simp [Code.minimum, Ok, safe_bind]
  exact fun h => safe_sideMost rfl h

/-- `maximum` is safe on any tree; it asks for the root first. -/
theorem safe_maximum (hn : s.nil = nil) : Safe (Ok free start) (Code.maximum nil fuel) s := by
  subst hn
  simp [Code.maximum, Ok, safe_bind]
  exact fun h => safe_sideMost rfl h

/-! ## `insert` -/

/-- The allocator's node is not the sentinel, which is allocated, so the writes to it are safe. -/
theorem safe_newNode {A : Alloc Ptr T} {val : T} (hn : s.nil = nil) (hlive : nil ∈ s.live) :
    Safe (Ok free start) (Code.newNode nil A val p) s := by
  subst hn
  have hne : A.malloc s.news s.live ≠ s.nil :=
    (ne_of_mem_of_not_mem hlive (A.fresh s.news s.live)).symm
  simp [Code.newNode, Ok, Code.set_nil, hne]

/-- Linking a new node is safe; a parent that is the sentinel makes it the root. -/
theorem safe_link {compare : T → T → Bool} {val : T} (hn : s.nil = nil) :
    Safe (Ok free start) (Code.link nil compare val p q) s := by
  subst hn
  simp [Code.link, Ok]
  intro hp
  refine safe_bind.2 ⟨safe_value, fun r hr => ?_⟩
  obtain ⟨x, -, rfl⟩ := Option.map_eq_some_iff.1 ((Code.run_value p).symm.trans hr)
  simp [Ok, hp]

/-- `insert`, up to the call of `fixInsert` and in it. -/
theorem Valid.safe_insert (compare : T → T → Bool) (val : T) (A : Alloc Ptr T) (hv : s.Valid t)
    (hfuel : t.toList.length < fuel) :
    Safe (Ok free start) (Code.insert s.nil A compare fuel val) s := by
  have hlive := (hv.live _).2 (.inl rfl)
  simp [Code.insert, Ok]
  rcases hv.descend compare val hfuel with ⟨k, rfl, hg, hd⟩ | ⟨v, hh, hd⟩
  · refine (safe_descend rfl).bind ((Code.run_descend _ _ _ _ _ rfl).trans (congrArg _ hd)) ?_
    simp
    have hmem : ∀ p ∈ ptrs (Ctx.plug k .nil), p ∈ s.live := fun p hp => (hv.live p).2 (.inr hp)
    obtain ⟨h₁, hn, hfresh⟩ := hv.stores.newNode (s.above k) val A hmem hlive
    have hnk : (s.newNode A val (s.above k)).2 ∉ kptrs k := fun hm =>
      hfresh (hmem _ (mem_ptrs_plug.2 (.inl hm)))
    obtain ⟨N, hN⟩ := hv.balanced
    obtain ⟨c, n, hnil, hk⟩ := hN.of_plug
    cases hnil
    obtain ⟨h₂, k₂⟩ := h₁.setLink hn hnk
    have hred : RedFocus ((s.newNode A val (s.above k)).1.setLink k (s.newNode A val (s.above k)).2)
        k (.on .left .red .nil ((s.newNode A val (s.above k)).2, val) .nil) 0 N :=
      ⟨h₂, .on_red .nil .nil, hk⟩
    have hlen := Ctx.length_le_toList k (.nil : ColorTree (Ptr × T))
    have hlink := h₁.insert_link (s.newNode A val (s.above k)).2 hg
    rw [above_congr (Code.newNode_nil ..)] at hlink
    refine (safe_newNode rfl hlive).bind (Code.run_newNode A val _ rfl) ?_
    refine (safe_link (Code.newNode_nil ..)).bind ((Code.run_link compare val _ _
      (Code.newNode_nil ..)).trans (congrArg _ hlink)) ?_
    have hn₂ : _ = s.nil := k₂.same.nil.trans (Code.newNode_nil ..)
    exact safe_bind.2 ⟨hred.safe_fixInsert hn₂ (by omega), by simp⟩
  · refine (safe_descend rfl).bind ((Code.run_descend _ _ _ _ _ rfl).trans (congrArg _ hd)) ?_
    obtain ⟨-, k, c, l, r, rfl⟩ := hh
    simp [hv.stores.node.ne]

/-! ## `fixDelete`

The loop may read the parent of the sentinel, which `deleteNode` wrote. -/

section
variable {wa wb : ColorTree (Ptr × T)}

/-- A red sibling is rotated away, and the new one is a real node. -/
theorem Stores.safe_fixDeleteRed
    (hs : s.Stores (k.plug (.on d c t v (.on d .red wa w wb)))) (hp : s.parent (s.addr t) = v.1)
    (hwa : wa ≠ .nil) (hn : s.nil = nil) :
    Safe (Ok True start) (Code.fixDeleteRed nil d (s.addr t) w.1) s := by
  subst hn
  obtain ⟨s', hst, h₁, k₁⟩ := hs.fixDeleteRed hp
  have hp' : s'.parent (s.addr t) = v.1 := k₁.parent h₁.near.near hp rfl
  have hw : s.color w.1 = .red := hs.far.node.color
  have hv0 := hs.node.ne
  have hvw : s.child d.flip v.1 = w.1 := hs.node.far.trans addr_on
  have hw0 : s.child d.flip v.1 ≠ s.nil := hvw ▸ hs.far.node.ne
  have hwa0 : s.addr wa ≠ s.nil := fun h => hwa ((holds_plug.1 hs.far.near.holds).2.addr_eq_nil.1 h)
  simp only [RBTree.fixDeleteRed, if_pos hw, setColor_parent, hp] at hst
  obtain ⟨rfl, hc⟩ := Prod.mk.inj hst
  rw [hp'] at hc
  simp [Code.fixDeleteRed, Ok, hw, hp, hv0]
  refine (safe_rotate (by simp) hv0 (by simpa using hw0)).bind
    (Code.run_rotate d v.1 (by simp)) ?_
  simp [Ok, hp', hc, hv0, hwa0]

/-- A red near child of the sibling is rotated to its place. -/
theorem Stores.safe_fixDeleteNear {a b : ColorTree (Ptr × T)}
    (hs : s.Stores (k.plug (.on d c t v (.on d .black (.on d .red a x b) w wb))))
    (hp : s.parent (s.addr t) = v.1) (hwb : wb.color = .black) (hn : s.nil = nil) :
    Safe (Ok True start) (Code.fixDeleteNear nil d (s.addr t) w.1) s := by
  subst hn
  obtain ⟨s', hst, h₁, k₁⟩ := hs.fixDeleteNear hp hwb
  have hp' : s'.parent (s.addr t) = v.1 := k₁.parent h₁.near hp rfl
  have hx : s.child d w.1 = x.1 := hs.far.node.near.trans addr_on
  have hf : s.color (s.child d.flip w.1) = .black := by
    rw [hs.far.node.far, hs.far.far.color, hwb]
  have hv0 := hs.node.ne
  have hw0 := hs.far.node.ne
  have hx0 := hs.far.near.node.ne
  have hlift : s.child d.flip.flip w.1 ≠ s.nil := by
    cases d <;> exact fun h => hx0 (hx.symm.trans h)
  simp only [RBTree.fixDeleteNear, if_pos hf, hx] at hst
  obtain ⟨rfl, hc⟩ := Prod.mk.inj hst
  rw [hp'] at hc
  simp [Code.fixDeleteNear, Ok, hf, hx, hw0]
  refine (safe_rotate (by simp) hw0 (by simpa using hlift)).bind
    (Code.run_rotate d.flip w.1 (by simp)) ?_
  simp [Ok, hp', hc, hv0, hx0]

/-- The rotation that ends the repair lifts the sibling. -/
theorem Stores.safe_fixDeleteFar (hs : s.Stores (k.plug (.on d c t v (.on d .black wa w wb))))
    (hp : s.parent (s.addr t) = v.1) (hn : s.nil = nil) :
    Safe (Ok True start) (Code.fixDeleteFar nil d (s.addr t) w.1) s := by
  subst hn
  have hv0 := hs.node.ne
  have hw0 := hs.far.node.ne
  have hvw : s.child d.flip v.1 = w.1 := hs.node.far.trans addr_on
  simp [Code.fixDeleteFar, Ok, hp, hv0, hw0]
  exact safe_rotate (by simp) hv0 (by simp [hvw, hw0])

/-- The test for two black children is safe at a sibling that is a node. -/
theorem safe_bothBlack (hp : p ≠ s.nil) : Safe (Ok free start) (Code.bothBlack d p) s := by
  simp [Code.bothBlack, Ok, hp]

/-- The loop test of `fixDelete` only reads a colour. -/
theorem safe_blackBelowRoot : Safe (Ok free start) (Code.blackBelowRoot p) s := by
  simp [Code.blackBelowRoot, Ok]

/-- A round with a black sibling. -/
theorem Stores.safe_fixDeleteBlack (hs : s.Stores (k.plug (.on d c t v (.on d .black wa w wb))))
    (hp : s.parent (s.addr t) = v.1) (hn : s.nil = nil) :
    Safe (Ok True start) (Code.fixDeleteBlack nil d (s.addr t) w.1) s := by
  subst hn
  have hw0 := hs.far.node.ne
  have hwa : s.color (s.child d w.1) = wa.color := by rw [hs.far.node.near, hs.far.near.color]
  have hwb : s.color (s.child d.flip w.1) = wb.color := by rw [hs.far.node.far, hs.far.far.color]
  simp only [Code.fixDeleteBlack, bind_eq]
  refine (safe_bothBlack hw0).bind (Code.run_bothBlack d w.1) ?_
  rw [hwa, hwb]
  cases hcb : wb.color with
  | red =>
    -- the far child is red: the sibling stays
    have hnear : s.fixDeleteNear d (s.addr t) w.1 = (s, w.1) := by
      rw [RBTree.fixDeleteNear, hwb, hcb, if_neg (by decide)]
    have hrun := Code.run_fixDeleteNear d (s.addr t) w.1 (Eq.refl s.nil)
    rw [hnear] at hrun
    have hsafe : Safe (Ok True start) (Code.fixDeleteNear s.nil d (s.addr t) w.1) s := by
      simp [Code.fixDeleteNear, Ok, hw0, hwb, hcb]
    simp
    exact hsafe.bind hrun ((hs.safe_fixDeleteFar hp rfl).bind
      (Code.run_fixDeleteFar d _ _ rfl) (by simp [Ok]))
  | black =>
    cases hca : wa.color with
    | black => simp [Ok, hw0]
    | red =>
      obtain ⟨ca, a, x, b, rfl⟩ := ColorTree.exists_on d (t := wa) (by rintro rfl; cases hca)
      obtain rfl : ca = .red := by simpa using hca
      obtain ⟨s', hst, h₁, k₁⟩ := hs.fixDeleteNear hp hcb
      have hn' : s'.nil = s.nil := k₁.same.nil
      have hp' : s'.parent (s'.addr t) = v.1 := by
        rw [addr_congr hn']
        exact k₁.parent h₁.near hp rfl
      have hfar : Safe (Ok True start) _ _ := h₁.safe_fixDeleteFar hp' hn'
      rw [addr_congr hn'] at hfar
      have hrun := Code.run_fixDeleteNear d (s.addr t) w.1 (Eq.refl s.nil)
      rw [hst] at hrun
      simp
      exact (hs.safe_fixDeleteNear hp hcb rfl).bind hrun
        (hfar.bind (Code.run_fixDeleteFar d _ _ hn') (by simp [Ok]))

/-- A round of `fixDelete`: every sibling that it takes is a real node. -/
theorem Stores.safe_fixDeleteSide {w : ColorTree (Ptr × T)}
    (hs : s.Stores (k.plug (.on d c t v w))) (hp : s.parent (s.addr t) = v.1)
    (hk : Ctx.IsRB N (⟨d, c, v, w⟩ :: k) .black (n + 1)) (hn : s.nil = nil) :
    Safe (Ok True start) (Code.fixDeleteSide nil d (s.addr t)) s := by
  subst hn
  obtain ⟨cw, wa, w, wb, rfl⟩ := ColorTree.exists_on d hk.sib_ne_nil
  have hw : s.child d.flip v.1 = w.1 := hs.node.far.trans addr_on
  have hcw : s.color w.1 = cw := hs.far.node.color
  have hv0 := hs.node.ne
  have hw0 := hs.far.node.ne
  simp [Code.fixDeleteSide, Ok, hp, hw, hv0, hw0]
  cases cw with
  | black =>
    have hred : s.fixDeleteRed d (s.addr t) w.1 = (s, w.1) := by
      rw [RBTree.fixDeleteRed, hcw, if_neg (by decide)]
    have hrun := Code.run_fixDeleteRed d (s.addr t) w.1 (Eq.refl s.nil)
    rw [hred] at hrun
    have hsafe : Safe (Ok True start) (Code.fixDeleteRed s.nil d (s.addr t) w.1) s := by
      simp [Code.fixDeleteRed, Ok, hcw]
    exact hsafe.bind hrun (hs.safe_fixDeleteBlack hp rfl)
  | red =>
    obtain ⟨s', hst, h₁, k₁⟩ := hs.fixDeleteRed hp
    obtain ⟨rfl, hk'⟩ := hk.delete_red
    have hwa := hk'.sib_ne_nil
    have hsafe : Safe (Ok True start) _ _ := hs.safe_fixDeleteRed hp hwa rfl
    have hn' : s'.nil = s.nil := k₁.same.nil
    have hp' : s'.parent (s'.addr t) = v.1 := by
      rw [addr_congr hn']
      exact k₁.parent h₁.near.near hp rfl
    obtain ⟨cw, wa', w', wb', rfl⟩ := ColorTree.exists_on d hwa
    obtain rfl : cw = .black := by
      cases hk' with
      | red _ hs _ => simpa using hs.color_eq
      | black hc _ _ => cases hc
    have hround : Safe (Ok True start) _ _ := h₁.near.safe_fixDeleteBlack hp' hn'
    rw [addr_congr hn'] at hround
    have hrun := Code.run_fixDeleteRed d (s.addr t) w.1 (Eq.refl s.nil)
    rw [hst, addr_on] at hrun
    exact hsafe.bind hrun hround

/-- `fixDelete` finds a sibling in every round. -/
theorem Deficit.safe_fixDelete (h : Deficit s k t n N) (hn : s.nil = nil)
    (hfuel : rank k t < fuel) : Safe (Ok True start) (Code.fixDelete nil fuel (s.addr t)) s := by
  induction fuel generalizing s k t n N with
  | zero => omega
  | succ fuel ih =>
    subst hn
    obtain ⟨hs, hp, hblack, hred, hk⟩ := h
    have hct : s.color (s.addr t) = t.color := hs.color
    simp only [Code.fixDelete, bind_eq]
    refine safe_blackBelowRoot.bind (Code.run_blackBelowRoot _) ?_
    rw [hct]
    cases hc : t.color with
    | red => simp [Ok]
    | black =>
      cases k with
      | nil => simp [Ok, show s.root = s.addr t from hs.root]
      | cons f k =>
        obtain ⟨d, c, v, w⟩ := f
        have hv0 : v.1 ≠ s.nil := hs.frame.ne
        have hp₀ : s.parent (s.addr t) = v.1 := hp
        have hside : s.addr t = s.child .left v.1 ↔ d = .left :=
          hs.eq_child (e := .left) (.inr hk.sib_ne_nil)
        obtain ⟨k', t', n', N', hd, hx, hr, -, hkeep⟩ :=
          Stores.fixDeleteSide (k := k) hs hp (hblack hc) hk
        have hrank : rank k' t' < fuel := by
          have hk₀ : rank (⟨d, c, v, w⟩ :: k) t = k.length + 1 := by simp [rank, hc]
          have hk₁ : (if c = .red then 0 else k.length) ≤ k.length := by split <;> omega
          exact Nat.lt_of_le_of_lt (Nat.le_trans hr hk₁) (by omega)
        have hrest := ih hd hkeep.same.nil hrank
        rw [addr_congr hkeep.same.nil, ← hx] at hrest
        have hs₀ : s.Stores (Ctx.plug k (.on d c t v w)) := hs
        have hround : Safe (Ok True start)
            ((Code.fixDeleteSide s.nil d (s.addr t)).bind (Code.fixDelete s.nil fuel)) s :=
          (hs₀.safe_fixDeleteSide hp hk rfl).bind (Code.run_fixDeleteSide d _ rfl) hrest
        simp [Ok, hs.addr_ne_root, hp₀, hv0]
        split_ifs with hleft
        · rwa [hside.1 hleft] at hround
        · obtain rfl : d = .right := by
            cases d
            · exact absurd (hside.2 rfl) hleft
            · rfl
          exact hround

end

/-! ## `deleteNode` -/

/-- `transplant` is safe at a node; it may write the parent of the sentinel. -/
theorem safe_transplant (hn : s.nil = nil) (hp : p ≠ nil) :
    Safe (Ok free start) (Code.transplant nil p q) s := by
  subst hn
  exact (safe_relink rfl hp).bind (Code.run_relink p q rfl) (by simp [Ok, hp])

variable {pz py px : Ptr}

/-- Freeing the successor is safe at two nodes. -/
theorem safe_freeSuccessor (hn : s.nil = nil) (hz : pz ≠ nil) (hy : py ≠ nil) :
    Safe (Ok free start) (Code.freeSuccessor nil pz py px) s := by
  subst hn
  simp [Code.freeSuccessor, Ok, hy]
  intro _
  exact (safe_transplant rfl hy).bind (Code.run_transplant py _ rfl) (by simp [Ok, hz, hy])

/-- Taking the place of a node is safe at two nodes. -/
theorem safe_takePlace (hn : s.nil = nil) (hz : pz ≠ nil) (hy : py ≠ nil) :
    Safe (Ok free start) (Code.takePlace nil pz py) s := by
  subst hn
  exact (safe_transplant rfl hz).bind (Code.run_transplant pz _ rfl) (by simp [Ok, hz, hy])

/-- Unlinking a node is safe. -/
theorem safe_unlink (hn : s.nil = nil) (hz : pz ≠ nil) :
    Safe (Ok free start) (Code.unlink nil fuel pz) s := by
  subst hn
  simp [Code.unlink, Ok, hz]
  split_ifs with hl hr
  · simp [hz, safe_bind, safe_transplant]
  · simp [hz, safe_bind, safe_transplant]
  · refine safe_bind.2 ⟨safe_sideMost rfl hr, fun r hsome => ?_⟩
    obtain ⟨y, hy, rfl⟩ := Option.map_eq_some_iff.1 ((Code.run_sideMost .left fuel _ rfl).symm.trans
      hsome)
    have hy0 : y ≠ s.nil := sideMost_ne_nil hr hy
    simp [Ok, hy0]
    exact (safe_freeSuccessor rfl hz hy0).bind (Code.run_freeSuccessor pz y rfl)
      ((safe_takePlace (by simp) hz hy0).bind (Code.run_takePlace pz y (by simp)) (by simp))

/-- Releasing a node that is not the sentinel is safe. -/
theorem safe_releaseNode {A : Alloc Ptr T} (hp : p ≠ s.nil) :
    Safe (Ok free start) (Code.releaseNode A p) s := by
  simp [Code.releaseNode, Ok, Code.set_nil, hp]

/-- A red focus ends the loop at once. -/
theorem safe_fixDelete_red (hred : s.color p = .red) :
    Safe (Ok free start) (Code.fixDelete nil fuel p) s := by
  cases fuel with
  | zero => simp [Code.fixDelete]
  | succ fuel =>
    refine safe_blackBelowRoot.bind (Code.run_blackBelowRoot p) ?_
    simp [Ok, hred]

/-- Where `deleteNode` starts `fixDelete`: at the sentinel, whose parent is the node above the place
that lacks a black node, or at a red node. -/
theorem Stores.unlink_focus {l r : ColorTree (Ptr × T)}
    (hs : s.Stores (k.plug (.on .left c l z r))) (hb : IsRB (k.plug (.on .left c l z r)) .black N)
    (hfuel : (k.plug (.on .left c l z r)).toList.length ≤ fuel) :
    ∃ s₁ x col, RBTree.unlink fuel s z.1 = some (s₁, x, col) ∧ s₁.nil = s.nil ∧
      (col = .black → x = s.nil ∧ (∃ k₁, Deficit s₁ k₁ .nil 0 N ∧ k₁.length < fuel) ∨
        x ≠ s.nil ∧ s₁.color x = .red) := by
  have hlen : (k.plug (.on .left c l z r)).toList.length =
      (k.before ++ (l.toList ++ r.toList ++ k.after)).length + 1 := by
    rw [Ctx.toList_plug, ColorTree.toList_on_left]
    simp only [List.length_append, List.length_cons]
    omega
  have hr : r.toList.length ≤ fuel := by
    rw [hlen] at hfuel
    simp only [List.length_append] at hfuel
    omega
  obtain ⟨s₁, k', t', col, n, hun, h₁, hp, ⟨d, w, hbw⟩, hbk, hlist, hbooks⟩ := hs.unlink hb hr
  refine ⟨s₁, s.addr t', col, hun, hbooks.nil, ?_⟩
  rintro rfl
  obtain ⟨m, c₁, c₂, rfl, -, hnil, ht'⟩ := hbw.of_on_black
  cases hnil
  rw [← addr_congr hbooks.nil, ← above_congr hbooks.nil] at hp
  cases ht' with
  | nil =>
    have hdef : Deficit s₁ k' .nil 0 N :=
      ⟨h₁, hp, fun _ => .nil, fun h => absurd h (by simp [ColorTree.color]), hbk⟩
    have hlen' := Ctx.length_le_toList k' (.nil : ColorTree (Ptr × T))
    rw [hlist] at hlen'
    exact .inl ⟨rfl, k', hdef, by omega⟩
  | red hl hr =>
    have h₁' := Stores.node (d := .left) h₁
    rw [← hbooks.nil]
    exact .inr ⟨h₁'.ne, h₁'.color⟩

/-- The call of `fixDelete`, if there is one. The sentinel's parent is read only if the call starts
at the sentinel. -/
theorem safe_repair (hfocus : c = .black → p = s.nil ∧ (∃ k₁, Deficit s k₁ .nil 0 N ∧
      k₁.length < fuel) ∨ p ≠ s.nil ∧ s.color p = .red) (hn : s.nil = nil) :
    Safe (Ok (p = nil) True) (Code.repair nil fuel p c) s := by
  subst hn
  simp [Code.repair]
  intro hc
  refine ⟨fun _ => trivial, ?_⟩
  rcases hfocus hc with ⟨rfl, k₁, hdef, hlen⟩ | ⟨-, hred⟩
  · rw [eq_self]
    exact hdef.safe_fixDelete rfl (by simpa [rank, ColorTree.color] using hlen)
  · exact safe_fixDelete_red hred

omit [DecidableEq Ptr] in
/-- The free reads matter to the sentinel's parent only. -/
theorem Ok.of_imp {free' : Prop} (h : free → free') {x : Access (Cell.Val Ptr T) (Mark Ptr)}
    (hok : Ok free start s x) : Ok free' start s x := by
  cases x with
  | read i =>
    cases i with
    | parent p => exact fun hp => h (hok hp)
    | _ => exact hok
  | write i v => cases i <;> exact hok
  | mark e => cases e <;> exact hok

/-- The parts of `deleteNode`. -/
theorem Stores.safe_deleteNode (A : Alloc Ptr T) {l r : ColorTree (Ptr × T)}
    (hs : s.Stores (k.plug (.on .left c l z r))) (hb : IsRB (k.plug (.on .left c l z r)) .black N)
    (hfuel : (k.plug (.on .left c l z r)).toList.length ≤ fuel) :
    Safe (Ok True True) (Code.deleteNode s.nil A fuel z.1) s := by
  obtain ⟨s₁, x, col, hun, hn, hfocus⟩ := hs.unlink_focus hb hfuel
  have hz0 := hs.node.ne
  have hrun := Code.run_unlink fuel z.1 (Eq.refl s.nil)
  rw [hun, Option.map_some] at hrun
  refine (safe_unlink rfl hz0).bind hrun ?_
  rw [← hn] at hfocus
  refine safe_bind.2 ⟨(safe_repair hfocus hn).imp fun _ _ => Ok.of_imp fun _ => trivial,
    fun r hr => safe_releaseNode ?_⟩
  rw [Code.nil_of_run hr, hn]
  exact hz0

/-- `erase` is safe on a valid tree: the unlinking by its tests, the repair by the invariant of
the loop. -/
theorem Valid.safe_erase (compare : T → T → Bool) (val : T) (A : Alloc Ptr T) (hv : s.Valid t)
    (hfuel : t.toList.length < fuel) :
    Safe (Ok True True) (Code.erase s.nil A compare fuel val) s := by
  simp [Code.erase]
  rcases hv.findNode compare val hfuel with ⟨k, hk, hg, hf⟩ | ⟨v, hh, hf⟩
  · refine (safe_findNode rfl).bind ((Code.run_findNode _ _ _ rfl).trans (congrArg _ hf)) ?_
    simp
  · refine (safe_findNode rfl).bind ((Code.run_findNode _ _ _ rfl).trans (congrArg _ hf)) ?_
    obtain ⟨-, k, c, l, r, rfl⟩ := hh
    obtain ⟨N, hN⟩ := hv.balanced
    simp [hv.stores.node.ne]
    exact safe_bind.2 ⟨hv.stores.safe_deleteNode A hN (Nat.le_of_lt hfuel), by simp⟩

/-! ## Any call -/

/-- Every access of a call. -/
theorem Valid.safe_code (compare : T → T → Bool) (A : Alloc Ptr T) (hv : s.Valid t)
    (hfuel : t.toList.length < fuel) (op : Op T) :
    Safe (Ok True True) (op.code s.nil compare A fuel) s := by
  cases op with
  | insert x => exact safe_bind.2 ⟨hv.safe_insert compare x A hfuel, by simp⟩
  | erase x => exact safe_bind.2 ⟨hv.safe_erase compare x A hfuel, by simp⟩
  | find x => exact safe_bind.2 ⟨safe_find rfl, by simp⟩
  | minimum => exact safe_bind.2 ⟨safe_minimum rfl, by simp⟩
  | maximum => exact safe_bind.2 ⟨safe_maximum rfl, by simp⟩

/-- A write that is `Ok` leaves the sentinel black and without children. -/
theorem Sentinel.set {i : Cell Ptr} {u : Cell.Val Ptr T i} (h : s.Sentinel)
    (hok : Ok free start s (.write i u)) : (Cells.set s i u).Sentinel := by
  cases i with
  | color p =>
    refine ⟨?_, h.child⟩
    change Function.update s.color p u s.nil = .black
    rcases eq_or_ne s.nil p with rfl | hp
    · rw [Function.update_self]
      cases u with
      | red => exact absurd rfl (hok rfl)
      | black => rfl
    · rw [Function.update_of_ne hp, h.color]
  | child d p => exact ⟨h.color, fun e => ((same_setChild (Ne.symm hok)).child e).trans (h.child e)⟩
  | data | parent | root | live | news => exact ⟨h.color, h.child⟩

variable (compare : T → T → Bool)

/-- Rebalancing is well defined. After any calls the next one comes to an end, every access of it is
`Ok`, and in every state on the way the sentinel is black and without children. -/
theorem run_rebalances (A : Alloc Ptr T) (ops : List (Op T)) (op : Op T)
    (hfuel : ops.length < fuel) :
    ∃ as s a s', run compare A fuel (init A) ops = some (as, s) ∧
      (op.code s.nil compare A fuel).run s = some (a, s') ∧ s'.Sentinel ∧
      ∀ e ∈ (op.code s.nil compare A fuel).log s, Ok True True e.1 e.2 ∧ e.1.Sentinel := by
  obtain ⟨as, s, t, hs, hv, hlen⟩ := (valid_init A).run A ops (by simpa using hfuel)
  have ht : t.toList.length < fuel := by
    rw [ColorTree.toList_nil, List.length_nil] at hlen
    omega
  obtain ⟨a, s', t', hs', hv', -⟩ := hv.step compare A ht op
  have hsafe := hv.safe_code compare A ht op
  obtain ⟨hlog, -⟩ := hsafe.invariant (fun _ _ _ h hok => Sentinel.set h hok) hv.stores.sentinel
  refine ⟨as, s, a, s', hs, ?_, hv'.stores.sentinel, fun e he => ⟨hsafe e he, hlog e he⟩⟩
  rw [Op.run_code, hs']

/-- The erasure of a black leaf, whose repair starts at the sentinel. -/
theorem run_rebalances_int :
    ∃ as s a s', run (fun a b : Int => decide (a < b)) (natAlloc Int) 9 (init (natAlloc Int))
        [.insert 1, .insert 2, .insert 3, .insert 4, .erase 4] = some (as, s) ∧
      ((Op.erase 1).code s.nil (fun a b : Int => decide (a < b)) (natAlloc Int) 9).run s =
        some (a, s') ∧ s'.Sentinel := by
  obtain ⟨as, s, a, s', hs, hs', hsen, -⟩ := run_rebalances (fun a b : Int => decide (a < b))
    (natAlloc Int) [.insert 1, .insert 2, .insert 3, .insert 4, .erase 4] (.erase 1)
    (show 5 < 9 by decide)
  exact ⟨as, s, a, s', hs, hs', hsen⟩

end

end RockCoro.RBTree
