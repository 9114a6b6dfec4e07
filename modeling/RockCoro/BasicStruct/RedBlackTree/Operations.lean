import RockCoro.BasicStruct.RedBlackTree.Delete

/-!
# The operations of `RBTree`

`Valid s t` is the invariant between two calls: the memory stores the red-black tree `t`, and the
allocated nodes are its nodes and the sentinel. None of it depends on the comparer. `Guided val k`
says that the search for `val` goes down to the hole of `k`; what a search or an update answers is
stated with it, and only the last section assumes that the comparer is a strict weak order.
-/

namespace RockCoro.RBTree

open RedBlack

section
variable {Ptr T : Type} {compare : T → T → Bool} {s s' : RBTree Ptr T} {t a b : ColorTree (Ptr × T)}
  {k : Ctx (Ptr × T)} {f : Frame (Ptr × T)} {d : Dir} {c : Color} {v : Ptr × T} {val x : T}
  {p : Ptr} {fuel : ℕ}

/-- The invariant between two calls. -/
structure Valid (s : RBTree Ptr T) (t : ColorTree (Ptr × T)) : Prop where
  stores : s.Stores t
  balanced : ∃ N, IsRB t .black N
  live : ∀ p, p ∈ s.live ↔ p = s.nil ∨ p ∈ ptrs t
  parent : t = .nil → s.parent s.nil = s.nil

/-- The empty tree. -/
theorem valid_init (A : Alloc Ptr T) : (init A).Valid .nil where
  stores := ⟨⟨rfl, trivial⟩, by simp, rfl, fun _ => rfl⟩
  balanced := ⟨0, .nil⟩
  live p := by simp [init]
  parent _ := rfl

/-- Neither element compares less than the other. -/
def equiv (compare : T → T → Bool) (x y : T) : Bool := !compare x y && !compare y x

/-- The search for `val` goes down to the hole of the context. -/
def Guided (compare : T → T → Bool) (val : T) (k : Ctx (Ptr × T)) : Prop :=
  ∀ f ∈ k, match f.dir with
    | .left => compare val f.val.2 = true
    | .right => compare val f.val.2 = false ∧ compare f.val.2 val = true

/-- The search starts at the root with an empty context. -/
theorem guided_nil (compare : T → T → Bool) (val : T) :
    Guided compare val ([] : Ctx (Ptr × T)) := by simp [Guided]

/-- The node `v` of `t` has an element equivalent to `val`. -/
def Hit (compare : T → T → Bool) (val : T) (t : ColorTree (Ptr × T)) (v : Ptr × T) : Prop :=
  equiv compare val v.2 = true ∧
    ∃ (k : Ctx (Ptr × T)) (c : Color) (l r : ColorTree (Ptr × T)), t = k.plug (.on .left c l v r)

variable [DecidableEq Ptr]

/-! ## The search -/

/-- The search ends at an empty subtree or at an equivalent element. -/
theorem Stores.descend (hs : s.Stores (k.plug t)) (hk : Guided compare val k)
    (hfuel : t.toList.length < fuel) :
    (∃ k', k'.plug .nil = k.plug t ∧ Guided compare val k' ∧
      descend compare s val fuel (s.above k) (s.addr t) = some (s.above k', s.nil)) ∨
    ∃ v, Hit compare val (k.plug t) v ∧
      descend compare s val fuel (s.above k) (s.addr t) = some (v.1, v.1) := by
  induction fuel generalizing k t with
  | zero => omega
  | succ fuel ih =>
    cases t with
    | nil =>
      refine .inl ⟨k, rfl, hk, ?_⟩
      rw [RBTree.descend, if_pos addr_nil, addr_nil]
    | node c l v r =>
      have hs' : s.Stores (k.plug (.on .left c l v r)) := hs
      have hv := hs'.node
      have hne : s.addr (.node c l v r) ≠ s.nil := hv.ne
      have hd : s.data (s.addr (.node c l v r)) = some v.2 := hv.data
      have hl : s.child .left (s.addr (.node c l v r)) = s.addr l := hv.near
      have hr : s.child .right (s.addr (.node c l v r)) = s.addr r := hv.far
      simp only [ColorTree.toList_node, List.length_append, List.length_cons] at hfuel
      rw [RBTree.descend, if_neg hne, hd]
      simp only [Option.bind_eq_bind, Option.bind_some, hl, hr]
      cases hlt : compare val v.2 with
      | true =>
        have hk' : Guided compare val (⟨.left, c, v, r⟩ :: k) := by
          rintro f (_ | ⟨_, hf⟩)
          · exact hlt
          · exact hk f hf
        exact ih hs'.near hk' (by omega)
      | false =>
        cases hgt : compare v.2 val with
        | true =>
          have hk' : Guided compare val (⟨.right, c, v, l⟩ :: k) := by
            rintro f (_ | ⟨_, hf⟩)
            · exact ⟨hlt, hgt⟩
            · exact hk f hf
          exact ih hs'.far hk' (by omega)
        | false => exact .inr ⟨v, ⟨by simp [equiv, hlt, hgt], k, c, l, r, rfl⟩, rfl⟩

/-- The search from `_root`. -/
theorem Valid.descend (compare : T → T → Bool) (val : T) (hv : s.Valid t)
    (hfuel : t.toList.length < fuel) :
    (∃ k, Ctx.plug k .nil = t ∧ Guided compare val k ∧
      descend compare s val fuel s.nil s.root = some (s.above k, s.nil)) ∨
    ∃ v, Hit compare val t v ∧ descend compare s val fuel s.nil s.root = some (v.1, v.1) := by
  have hd := Stores.descend (k := []) hv.stores (guided_nil compare val) hfuel
  rwa [← hv.stores.root] at hd

/-- `findNode`: the node of an equivalent element, or the sentinel. -/
theorem Valid.findNode (compare : T → T → Bool) (val : T) (hv : s.Valid t)
    (hfuel : t.toList.length < fuel) :
    (∃ k, Ctx.plug k .nil = t ∧ Guided compare val k ∧
      findNode compare fuel s val = some s.nil) ∨
    ∃ v, Hit compare val t v ∧ findNode compare fuel s val = some v.1 := by
  rcases hv.descend compare val hfuel with ⟨k, hk, hg, hd⟩ | ⟨v, hh, hd⟩
  · exact .inl ⟨k, hk, hg, by rw [RBTree.findNode, hd]; rfl⟩
  · exact .inr ⟨v, hh, by rw [RBTree.findNode, hd]; rfl⟩

/-- `find`: the stored equivalent element. -/
theorem Valid.find (compare : T → T → Bool) (val : T) (hv : s.Valid t)
    (hfuel : t.toList.length < fuel) :
    (∃ k, Ctx.plug k .nil = t ∧ Guided compare val k ∧ find compare fuel s val = some none) ∨
    ∃ v, Hit compare val t v ∧ find compare fuel s val = some (some v.2) := by
  rcases hv.findNode compare val hfuel with ⟨k, hk, hg, hd⟩ | ⟨v, hh, hd⟩
  · exact .inl ⟨k, hk, hg, by rw [RBTree.find, hd, Option.map_some, if_pos rfl]⟩
  · refine .inr ⟨v, hh, ?_⟩
    obtain ⟨-, k, c, l, r, rfl⟩ := hh
    have hn := hv.stores.node
    rw [RBTree.find, hd, Option.map_some, if_neg hn.ne, hn.data]

/-! ## `minimum` and `maximum` -/

/-- `minimum` is the first element. -/
theorem Valid.minimum (hv : s.Valid t) (hfuel : t.toList.length ≤ fuel) :
    minimum fuel s = some (t.toList.head?.map Prod.snd) := by
  rcases eq_or_ne t .nil with rfl | ht
  · exact if_pos hv.stores.root
  · have hne : s.root ≠ s.nil := by
      rw [hv.stores.root]
      exact fun h => ht (hv.stores.holds.2.addr_eq_nil.1 h)
    obtain ⟨k, c, y, r, rfl, hk, hm⟩ := Stores.sideMost (k := []) (d := .left) hv.stores ht hfuel
    have hy : s.data y.1 = some y.2 := hv.stores.node.data
    rw [RBTree.minimum, if_neg hne, leftMost, hv.stores.root, hm, Option.map_some, hy,
      Ctx.toList_plug, Ctx.before_eq_nil hk]
    rfl

/-- `maximum` is the last element. -/
theorem Valid.maximum (hv : s.Valid t) (hfuel : t.toList.length ≤ fuel) :
    maximum fuel s = some (t.toList.getLast?.map Prod.snd) := by
  rcases eq_or_ne t .nil with rfl | ht
  · exact if_pos hv.stores.root
  · have hne : s.root ≠ s.nil := by
      rw [hv.stores.root]
      exact fun h => ht (hv.stores.holds.2.addr_eq_nil.1 h)
    obtain ⟨k, c, y, r, rfl, hk, hm⟩ := Stores.sideMost (k := []) (d := .right) hv.stores ht hfuel
    have hy : s.data y.1 = some y.2 := hv.stores.node.data
    rw [RBTree.maximum, if_neg hne, rightMost, hv.stores.root, hm, Option.map_some, hy,
      Ctx.toList_plug, Ctx.after_eq_nil hk, ColorTree.toList_on_right]
    simp

/-! ## `insert` -/

/-- A new red node at a hole. -/
theorem Stores.setLink (hs : s.Stores (k.plug .nil))
    (hn : s.NodeAt v .red (s.above k) .left s.nil s.nil) (hv : v.1 ∉ kptrs k) :
    (s.setLink k v.1).Stores (k.plug (.on .left .red .nil v .nil)) ∧
      Keeps s (s.setLink k v.1) := by
  obtain ⟨hs, hnd, hsen⟩ := hs
  obtain ⟨hk, -⟩ := holds_plug.1 hs
  simp only [nodup_ptrs_plug] at hnd
  have hkeeps : Keeps s (s.setLink k v.1) :=
    ⟨same_setLink fun hm => hk.ne_nil _ hm rfl, setLink_live, setLink_news⟩
  refine ⟨⟨?_, ?_, hsen.keeps hkeeps⟩, hkeeps⟩
  · rw [holds_plug, rep_on, addr_on, addr_nil, above_congr setLink_nil, setLink_nil]
    exact ⟨hk.setLink hnd.1, hn.congr (same_setLink hv), trivial, trivial⟩
  · simp only [nodup_ptrs_plug, nodup_ptrs_on, mem_ptrs_on, ptrs_nil]
    grind

/-- `get_rbtree_node` takes an address outside the tree. -/
theorem Stores.newNode (p : Ptr) (val : T) (A : Alloc Ptr T) (hs : s.Stores t)
    (hlive : ∀ p ∈ ptrs t, p ∈ s.live)
    (hnil : s.nil ∈ s.live) :
    (s.newNode A val p).1.Stores t ∧
      (s.newNode A val p).1.NodeAt ((s.newNode A val p).2, val) .red p .left s.nil s.nil ∧
      (s.newNode A val p).2 ∉ s.live := by
  have hfresh := A.fresh s.news s.live
  have hsame : ∀ q, q ≠ A.malloc s.news s.live → Same s (s.newNode A val p).1 q := fun q hq =>
    ⟨rfl, Function.update_of_ne hq _ _, Function.update_of_ne hq _ _, Function.update_of_ne hq _ _,
      fun _ => Function.update_of_ne hq _ _⟩
  obtain ⟨⟨hroot, hrep⟩, hnd, hsen⟩ := hs
  have hn := hsame s.nil (ne_of_mem_of_not_mem hnil hfresh)
  refine ⟨⟨⟨hroot.trans (addr_congr rfl).symm, hrep.congr fun q hq => hsame q ?_⟩, hnd,
    ⟨hn.color.trans hsen.color, fun d => (hn.child d).trans (hsen.child d)⟩⟩, ?_, hfresh⟩
  · exact ne_of_mem_of_not_mem (hlive q hq) hfresh
  · exact ⟨(ne_of_mem_of_not_mem hnil hfresh).symm, Function.update_self ..,
      Function.update_self ..,
      Function.update_self .., Function.update_self .., Function.update_self ..⟩

/-- The link that `insert` writes is the one the search came to. -/
theorem Stores.insert_link (node : Ptr) (hs : s.Stores (k.plug .nil))
    (hg : Guided compare val k) :
    (if s.above k = s.nil then some { s with root := node }
      else (s.data (s.above k)).map fun x =>
        if compare val x then s.setChild .left (s.above k) node
        else s.setChild .right (s.above k) node) = some (s.setLink k node) := by
  cases k with
  | nil => exact if_pos rfl
  | cons f k =>
    have hf := hs.frame
    have hgf := hg f List.mem_cons_self
    have hd : s.data (s.above (f :: k)) = some f.val.2 := hf.data
    have hne : s.above (f :: k) ≠ s.nil := hf.ne
    rw [if_neg hne, hd, Option.map_some]
    obtain ⟨d, c, v, sib⟩ := f
    cases d with
    | left => rw [if_pos hgf]; rfl
    | right => rw [if_neg (by simp [hgf.1])]; rfl

/-- `insert` adds a node at the hole its search came to, unless there is an equivalent element. -/
theorem Valid.insert (compare : T → T → Bool) (val : T) (A : Alloc Ptr T) (hv : s.Valid t)
    (hfuel : t.toList.length < fuel) :
    (∃ k s' t', Ctx.plug k .nil = t ∧ Guided compare val k ∧
      insert compare A fuel s val = some (true, s') ∧ s'.Valid t' ∧
      t'.toList = k.before ++ (A.malloc s.news s.live, val) :: k.after) ∨
    ∃ v, Hit compare val t v ∧ insert compare A fuel s val = some (false, s) := by
  rcases hv.descend compare val hfuel with ⟨k, rfl, hg, hd⟩ | ⟨v, hh, hd⟩
  · left
    have hlive : ∀ p ∈ ptrs (Ctx.plug k .nil), p ∈ s.live := fun p hp => (hv.live p).2 (.inr hp)
    obtain ⟨h₁, hn, hfresh⟩ := hv.stores.newNode (s.above k) val A hlive ((hv.live _).2 (.inl rfl))
    have hnk : (s.newNode A val (s.above k)).2 ∉ kptrs k := fun hm =>
      hfresh (hlive _ (mem_ptrs_plug.2 (.inl hm)))
    obtain ⟨N, hN⟩ := hv.balanced
    obtain ⟨c, n, hnil, hk⟩ := hN.of_plug
    cases hnil
    obtain ⟨h₂, k₂⟩ := h₁.setLink hn hnk
    have hred : RedFocus ((s.newNode A val (s.above k)).1.setLink k (s.newNode A val (s.above k)).2)
        k (.on .left .red .nil ((s.newNode A val (s.above k)).2, val) .nil) 0 N :=
      ⟨h₂, .on_red .nil .nil, hk⟩
    have hlen := Ctx.length_le_toList k (.nil : ColorTree (Ptr × T))
    have hk' : k.length < fuel := by omega
    obtain ⟨s', t', N', hfix, hs', hb', hl', k'⟩ := hred.fixInsert hk'
    have hlist : t'.toList = k.before ++ (A.malloc s.news s.live, val) :: k.after := by
      rw [hl', Ctx.toList_plug]
      rfl
    refine ⟨k, s', t', rfl, hg, ?_, ⟨hs', ⟨N', hb'⟩, fun p => ?_, ?_⟩, hlist⟩
    · have hlink := h₁.insert_link (s.newNode A val (s.above k)).2 hg
      rw [above_congr (show (s.newNode A val (s.above k)).1.nil = s.nil from rfl)] at hlink
      rw [addr_on] at hfix
      rw [RBTree.insert, hd]
      simp only [Option.bind_eq_bind, Option.bind_some, ne_eq, not_true_eq_false, if_false]
      rw [hlink, Option.bind_some, hfix, Option.bind_some]
    · have hs'l : s'.live = Insert.insert (A.malloc s.news s.live) s.live :=
        k'.live.trans k₂.live
      have hs'n : s'.nil = s.nil := k'.same.nil.trans k₂.same.nil
      rw [hs'l, hs'n, Finset.mem_insert, hv.live, ptrs, ptrs, hlist, Ctx.toList_plug]
      simp only [List.map_append, List.map_cons, List.mem_append, List.mem_cons,
        ColorTree.toList_nil,
        List.nil_append]
      grind
    · rintro rfl
      simp at hlist
  · right
    refine ⟨v, hh, ?_⟩
    obtain ⟨-, k, c, l, r, rfl⟩ := hh
    rw [RBTree.insert, hd]
    simp only [Option.bind_eq_bind, Option.bind_some]
    exact if_pos hv.stores.node.ne

/-! ## `erase` -/

/-- `erase` removes the node its search found. -/
theorem Valid.erase (compare : T → T → Bool) (val : T) (A : Alloc Ptr T) (hv : s.Valid t)
    (hfuel : t.toList.length < fuel) :
    (∃ k, Ctx.plug k .nil = t ∧ Guided compare val k ∧
      erase compare A fuel s val = some (false, s)) ∨
    ∃ v s' t' l₁ l₂, equiv compare val v.2 = true ∧ t.toList = l₁ ++ v :: l₂ ∧
      erase compare A fuel s val = some (true, s') ∧ s'.Valid t' ∧ t'.toList = l₁ ++ l₂ := by
  rcases hv.findNode compare val hfuel with ⟨k, hk, hg, hf⟩ | ⟨v, hh, hf⟩
  · left
    refine ⟨k, hk, hg, ?_⟩
    simp only [RBTree.erase, hf, Option.bind_eq_bind, Option.bind_some, if_true]
  · right
    obtain ⟨heq, k, c, l, r, rfl⟩ := hh
    obtain ⟨N, hN⟩ := hv.balanced
    obtain ⟨s', t', N', hdel, hs', hb', hl', hn', hlive, -, hpar⟩ :=
      hv.stores.deleteNode A hN (Nat.le_of_lt hfuel)
    have hvn := hv.stores.node.ne
    refine ⟨v, s', t', k.before ++ l.toList, r.toList ++ k.after, heq, ?_, ?_,
      ⟨hs', ⟨N', hb'⟩, fun p => ?_, fun h => by rw [hn', hpar h]⟩, ?_⟩
    · rw [Ctx.toList_plug, ColorTree.toList_on_left]
      simp
    · simp only [RBTree.erase, hf, Option.bind_eq_bind, Option.bind_some, if_neg hvn, hdel]
    · have hnd := hv.stores.nodup
      rw [hlive, hn', Finset.mem_erase, hv.live]
      rw [ptrs, Ctx.toList_plug, ColorTree.toList_on_left] at hnd ⊢
      rw [ptrs, hl']
      simp only [List.map_append, List.map_cons, List.nodup_append, List.nodup_cons,
        List.mem_append,
        List.mem_cons] at hnd ⊢
      grind
    · rw [hl']
      simp

/-! ## The traversal -/

/-- The traversal of a subtree answers its elements in order, with fuel for each of them. -/
theorem Stores.mapEach (hs : s.Stores (k.plug t)) (hfuel : t.toList.length < fuel) :
    mapEach s fuel (s.addr t) = some (t.toList.map Prod.snd) := by
  induction fuel generalizing k t with
  | zero => omega
  | succ fuel ih =>
    cases t with
    | nil => exact if_pos addr_nil
    | node c l v r =>
      have hs' : s.Stores (k.plug (.on .left c l v r)) := hs
      have hv := hs'.node
      have hne : s.addr (.node c l v r) ≠ s.nil := hv.ne
      have hd : s.data (s.addr (.node c l v r)) = some v.2 := hv.data
      have hl : s.child .left (s.addr (.node c l v r)) = s.addr l := hv.near
      have hr : s.child .right (s.addr (.node c l v r)) = s.addr r := hv.far
      simp only [ColorTree.toList_node, List.length_append, List.length_cons] at hfuel
      rw [RBTree.mapEach, if_neg hne, hl, hd, hr, ih hs'.near (by omega), ih hs'.far (by omega)]
      simp

end

end RockCoro.RBTree
