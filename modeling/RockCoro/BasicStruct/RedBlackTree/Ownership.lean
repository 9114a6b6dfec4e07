import RockCoro.BasicStruct.RedBlackTree.Stale
import RockCoro.Lib.Confinement

/-!
# The nodes that `RBTree` owns

No call comes to a node that is not allocated, and the destructor releases every node, once. The
functions between two calls of the allocator are `Confined` to the nodes that are allocated; that
no comparer matters to this is part of the result.
-/

namespace RockCoro.RBTree

open RedBlack Prog

/-- The cells of a node and the links; the books of the allocator are frozen. -/
def layout (Ptr T : Type) : Layout (Cell.Val Ptr T) Ptr where
  node
    | .data p | .color p | .child _ p | .parent p => some p
    | .root | .live | .news => none
  target
    | .child .., q | .parent _, q | .root, q => some q
    | .data _, _ | .color _, _ | .live, _ | .news, _ => none
  frozen
    | .live | .news => True
    | _ => False

section
variable {Ptr T : Type} [DecidableEq Ptr]

/-- An access to the cells of a node that is allocated. The allocator gives out a node that is not,
and takes back one that is. -/
def Alive (s : RBTree Ptr T) : Access (Cell.Val Ptr T) (Mark Ptr) → Prop
  | .write .live v =>
    (∃ p, p ∉ s.live ∧ v = Insert.insert p s.live) ∨ ∃ p ∈ s.live, v = s.live.erase p
  | .read i => ∀ p, (layout Ptr T).node i = some p → p ∈ s.live
  | .write i _ => ∀ p, (layout Ptr T).node i = some p → p ∈ s.live
  | .mark _ => True

variable {s s' : RBTree Ptr T} {t : ColorTree (Ptr × T)} {nil p q x y z w g : Ptr} {d : Dir}
  {c : Color} {val : T} {fuel : ℕ} {L : Set Ptr} {α : Type} {Q : α → Prop} {code : Code Ptr T α}

/-! ## Confined functions -/

section
variable {P : Ptr → Prop} {k : Ptr → Code Ptr T α}

omit [DecidableEq Ptr]

@[simp] theorem node_layout_color : (layout Ptr T).node (.color p) = some p := rfl
@[simp] theorem node_layout_data : (layout Ptr T).node (.data p) = some p := rfl
@[simp] theorem node_layout_child : (layout Ptr T).node (.child d p) = some p := rfl
@[simp] theorem node_layout_parent : (layout Ptr T).node (.parent p) = some p := rfl
@[simp] theorem node_layout_root : (layout Ptr T).node .root = none := rfl
@[simp] theorem target_layout_color : (layout Ptr T).target (.color p) c = none := rfl
@[simp] theorem target_layout_data {v} : (layout Ptr T).target (.data p) v = none := rfl
@[simp] theorem target_layout_child : (layout Ptr T).target (.child d p) q = some q := rfl
@[simp] theorem target_layout_parent : (layout Ptr T).target (.parent p) q = some q := rfl
@[simp] theorem target_layout_root : (layout Ptr T).target .root q = some q := rfl
@[simp] theorem frozen_layout_color : ¬(layout Ptr T).frozen (.color p) := nofun
@[simp] theorem frozen_layout_child : ¬(layout Ptr T).frozen (.child d p) := nofun
@[simp] theorem frozen_layout_parent : ¬(layout Ptr T).frozen (.parent p) := nofun
@[simp] theorem frozen_layout_root : ¬(layout Ptr T).frozen .root := nofun

end

/-- The program is confined to the nodes `L`; its result is `Q`. -/
abbrev Among (L : Set Ptr) (Q : α → Prop) (code : Code Ptr T α) : Prop :=
  code.Confined (layout Ptr T) L Q

section
variable {Q : Unit → Prop}

/-- `relink` stays among the nodes it is given and their parents. -/
theorem among_relink (hx : x ∈ L) (hy : y ∈ L) (h : Q ()) :
    Among L Q (Code.relink nil x y : Code Ptr T Unit) := by
  simp +contextual [Code.relink, hx, hy, h]

/-- A rotation stays among the nodes. -/
theorem among_rotate (hx : x ∈ L) (h : Q ()) :
    Among L Q (Code.rotate nil d x : Code Ptr T Unit) := by
  simp +contextual [Code.rotate, confined_bind, among_relink, hx, h]

/-- The outer case of `fixInsert` stays among the nodes. -/
theorem among_fixInsertOuter (hz : z ∈ L) (h : Q ()) :
    Among L Q (Code.fixInsertOuter nil d z : Code Ptr T Unit) := by
  simp +contextual [Code.fixInsertOuter, among_rotate, hz, h]

/-- `transplant` stays among the nodes. -/
theorem among_transplant (hx : x ∈ L) (hy : y ∈ L) (h : Q ()) :
    Among L Q (Code.transplant nil x y : Code Ptr T Unit) := by
  simp +contextual [Code.transplant, confined_bind, among_relink, hx, hy, h]

/-- The far case of `fixDelete` stays among the nodes. -/
theorem among_fixDeleteFar (hx : x ∈ L) (hw : w ∈ L) (h : Q ()) :
    Among L Q (Code.fixDeleteFar nil d x w : Code Ptr T Unit) := by
  simp +contextual [Code.fixDeleteFar, among_rotate, hx, hw, h]

/-- Freeing the successor stays among the nodes. -/
theorem among_freeSuccessor (hz : z ∈ L) (hy : y ∈ L) (hx : x ∈ L) (h : Q ()) :
    Among L Q (Code.freeSuccessor nil z y x : Code Ptr T Unit) := by
  simp +contextual [Code.freeSuccessor, confined_bind, among_transplant, hz, hy, hx, h]

/-- The successor takes the place of `z` within the nodes. -/
theorem among_takePlace (hz : z ∈ L) (hy : y ∈ L) (h : Q ()) :
    Among L Q (Code.takePlace nil z y : Code Ptr T Unit) := by
  simp +contextual [Code.takePlace, confined_bind, among_transplant, hz, hy, h]

end

section
variable {Q : Ptr → Prop}

omit [DecidableEq Ptr] in
/-- The red uncle's case answers a node of the set. -/
theorem among_fixInsertRecolor (hz : z ∈ L) (hy : y ∈ L) (h : ∀ p ∈ L, Q p) :
    Among L Q (Code.fixInsertRecolor z y : Code Ptr T Ptr) := by
  simp +contextual [Code.fixInsertRecolor, hz, hy, h]

/-- The inner case of `fixInsert` answers a node of the set. -/
theorem among_fixInsertInner (hz : z ∈ L) (h : ∀ p ∈ L, Q p) :
    Among L Q (Code.fixInsertInner nil d z : Code Ptr T Ptr) := by
  simp +contextual [Code.fixInsertInner, confined_bind, among_rotate, hz, h]

/-- A round of `fixInsert` answers a node of the set. -/
theorem among_fixInsertSide (hz : z ∈ L) (h : ∀ p ∈ L, Q p) :
    Among L Q (Code.fixInsertSide nil d z : Code Ptr T Ptr) := by
  simp +contextual [Code.fixInsertSide, confined_bind, among_fixInsertRecolor,
    among_fixInsertInner, among_fixInsertOuter, hz, h]

/-- Going down one side never leaves the set; the induction is on the fuel. -/
theorem among_sideMost (hp : p ∈ L) (h : ∀ p ∈ L, Q p) :
    Among L Q (Code.sideMost nil d fuel p : Code Ptr T Ptr) := by
  induction fuel generalizing p with
  | zero => trivial
  | succ fuel ih => simp +contextual [Code.sideMost, ih, hp, h]

/-- The red sibling's case of `fixDelete` answers a node of the set. -/
theorem among_fixDeleteRed (hx : x ∈ L) (hw : w ∈ L) (h : ∀ p ∈ L, Q p) :
    Among L Q (Code.fixDeleteRed nil d x w : Code Ptr T Ptr) := by
  simp +contextual [Code.fixDeleteRed, confined_bind, among_rotate, hx, hw, h]

/-- The near case of `fixDelete` answers a node of the set. -/
theorem among_fixDeleteNear (hx : x ∈ L) (hw : w ∈ L) (h : ∀ p ∈ L, Q p) :
    Among L Q (Code.fixDeleteNear nil d x w : Code Ptr T Ptr) := by
  simp +contextual [Code.fixDeleteNear, confined_bind, among_rotate, hx, hw, h]

omit [DecidableEq Ptr] in
/-- The test for two black children reads nodes of the set only. -/
theorem among_bothBlack {Q : Bool → Prop} (hw : w ∈ L) (h : ∀ b, Q b) :
    Among L Q (Code.bothBlack d w : Code Ptr T Bool) := by
  simp +contextual [Code.bothBlack, hw, h]

/-- The black sibling's case of `fixDelete` answers a node of the set. -/
theorem among_fixDeleteBlack (hx : x ∈ L) (hw : w ∈ L) (h : ∀ p ∈ L, Q p) :
    Among L Q (Code.fixDeleteBlack nil d x w : Code Ptr T Ptr) := by
  simp +contextual [Code.fixDeleteBlack, confined_bind, among_bothBlack, among_fixDeleteNear,
    among_fixDeleteFar, hx, hw, h]

/-- A round of `fixDelete` answers a node of the set. -/
theorem among_fixDeleteSide (hx : x ∈ L) (h : ∀ p ∈ L, Q p) :
    Among L Q (Code.fixDeleteSide nil d x : Code Ptr T Ptr) := by
  have hblack : ∀ w ∈ L, Among L Q (Code.fixDeleteBlack nil d x w : Code Ptr T Ptr) :=
    fun _ hw => among_fixDeleteBlack hx hw h
  simp +contextual [Code.fixDeleteSide, confined_bind, among_fixDeleteRed, hblack, hx]

end

/-- The loop of `fixInsert` never leaves the set, however long it runs. -/
theorem among_fixInsert {Q : Unit → Prop} (hz : z ∈ L) (h : Q ()) :
    Among L Q (Code.fixInsert nil fuel z : Code Ptr T Unit) := by
  induction fuel generalizing z with
  | zero => trivial
  | succ fuel ih =>
    simp +contextual [Code.fixInsert, confined_bind, among_fixInsertSide, ih, hz, h]

/-- The loop test of `fixDelete` reads nodes of the set only. -/
theorem among_blackBelowRoot {Q : Bool → Prop} (hx : x ∈ L) (h : ∀ b, Q b) :
    Among L Q (Code.blackBelowRoot x : Code Ptr T Bool) := by
  simp +contextual [Code.blackBelowRoot, hx, h]

/-- The loop of `fixDelete` never leaves the set, however long it runs. -/
theorem among_fixDelete {Q : Unit → Prop} (hx : x ∈ L) (h : Q ()) :
    Among L Q (Code.fixDelete nil fuel x : Code Ptr T Unit) := by
  induction fuel generalizing x with
  | zero => trivial
  | succ fuel ih =>
    simp +contextual [Code.fixDelete, confined_bind, among_blackBelowRoot, among_fixDeleteSide,
      ih, hx, h]

omit [DecidableEq Ptr] in
/-- Reading an element of a node of the set. -/
theorem among_value {Q : T → Prop} (hp : p ∈ L) (h : ∀ x, Q x) :
    Among L Q (Code.value p : Code Ptr T T) := by
  simp [Code.value, hp]
  intro v
  cases v with
  | none => trivial
  | some x => exact h x

/-- The search never leaves the set, whatever the comparer answers. -/
theorem among_descend {compare : T → T → Bool} {Q : Ptr × Ptr → Prop} (hp : p ∈ L) (hq : q ∈ L)
    (h : ∀ p ∈ L, ∀ q ∈ L, Q (p, q)) :
    Among L Q (Code.descend nil compare val fuel p q) := by
  induction fuel generalizing p q with
  | zero => trivial
  | succ fuel ih =>
    have hnil : q = nil → Q (p, nil) := fun hqn => h p hp nil (hqn ▸ hq)
    simp +contextual [Code.descend, confined_bind, among_value, ih, hnil, hq, h]

/-- Unlinking a node of the set answers a node of the set. -/
theorem among_unlink {Q : Ptr × Color → Prop} (hz : z ∈ L) (h : ∀ p ∈ L, ∀ c, Q (p, c)) :
    Among L Q (Code.unlink nil fuel z : Code Ptr T (Ptr × Color)) := by
  simp +contextual [Code.unlink, confined_bind, among_transplant, among_sideMost,
    among_freeSuccessor, among_takePlace, hz, h]

/-- The repair after unlinking stays among the nodes. -/
theorem among_repair {Q : Unit → Prop} (hx : x ∈ L) (h : Q ()) :
    Among L Q (Code.repair nil fuel x c : Code Ptr T Unit) := by
  simp +contextual [Code.repair, among_fixDelete, hx, h]

/-- `findNode` answers a node of the set, the sentinel included. -/
theorem among_findNode {compare : T → T → Bool} {Q : Ptr → Prop} (hn : nil ∈ L)
    (h : ∀ p ∈ L, Q p) : Among L Q (Code.findNode nil compare fuel val) := by
  simp +contextual [Code.findNode, confined_bind, among_descend, hn, h]

/-- Linking a new node stays among the nodes. -/
theorem among_link {compare : T → T → Bool} {Q : Unit → Prop} (hp : p ∈ L) (hq : q ∈ L)
    (h : Q ()) : Among L Q (Code.link nil compare val p q) := by
  simp +contextual [Code.link, confined_bind, among_value, hp, hq, h]

/-! ## Allocated nodes -/

/-- The invariant: the sentinel is allocated, and the allocated nodes and `_root` point to allocated
nodes. -/
structure Owned (s : RBTree Ptr T) : Prop where
  nil : s.nil ∈ s.live
  closed : Closed (layout Ptr T) {p | p ∈ s.live} s

/-- Ownership, link by link. -/
theorem owned_iff : s.Owned ↔ s.nil ∈ s.live ∧ s.root ∈ s.live ∧
    (∀ p ∈ s.live, ∀ d, s.child d p ∈ s.live) ∧ ∀ p ∈ s.live, s.parent p ∈ s.live := by
  constructor
  · rintro ⟨hn, hc⟩
    refine ⟨hn, ?_, fun p hp d => ?_, fun p hp => ?_⟩
    · exact inside_some.1 (hc .root inside_none)
    · exact inside_some.1 (hc (.child d p) (inside_some.2 hp))
    · exact inside_some.1 (hc (.parent p) (inside_some.2 hp))
  · rintro ⟨hn, hr, hchild, hparent⟩
    refine ⟨hn, fun i hi => ?_⟩
    cases i with
    | data p | color p | live | news => exact inside_none
    | child d p => exact inside_some.2 (hchild p (inside_some.1 hi) d)
    | parent p => exact inside_some.2 (hparent p (inside_some.1 hi))
    | root => exact inside_some.2 hr

/-- A part of a call between two calls of the allocator. -/
theorem Owned.among (h : s.Owned) (hcode : Among {p | p ∈ s.live} Q code) :
    Spec Alive (fun a s' => Q a ∧ s'.Owned ∧ s'.live = s.live ∧ s'.nil = s.nil) code s := by
  obtain ⟨hsafe, hrun⟩ := Confined.safe hcode h.closed
  constructor
  · refine hsafe.imp ?_
    rintro s' x ⟨hx, hs'⟩
    have hlive : s'.live = s.live := hs' .live trivial
    cases x with
    | read i =>
      intro p hp
      rw [hlive]
      exact hx p hp
    | write i v =>
      obtain ⟨hi, hx, -⟩ := hx
      cases i with
      | live => exact absurd trivial hi
      | data | color | child | parent | root | news =>
        intro p hp
        rw [hlive]
        exact hx p hp
    | mark e => trivial
  · intro r hr
    obtain ⟨hq, hclosed, hfrozen⟩ := hrun r hr
    have hlive : r.2.live = s.live := hfrozen .live trivial
    have hn : r.2.nil = s.nil := Code.nil_of_run hr
    refine ⟨hq, ⟨?_, ?_⟩, hlive, hn⟩
    · rw [hn, hlive]
      exact h.nil
    · rw [hlive]
      exact hclosed

/-- The node that the allocator gives out is owned, and its links are. -/
theorem Owned.newNode (A : Alloc Ptr T) (val : T) (h : s.Owned) (hp : p ∈ s.live) :
    Spec Alive (fun node s' => s'.Owned ∧ node ∈ s'.live ∧ p ∈ s'.live ∧ s'.nil = s.nil)
      (Code.newNode s.nil A val p) s := by
  have hfresh := A.fresh s.news s.live
  constructor
  · simp [Code.newNode, Alive, layout]
    exact ⟨.inl ⟨_, hfresh, rfl⟩, by simp [Cells.set, setChild, setParent]⟩
  · intro r hr
    rw [Code.run_newNode A val p rfl] at hr
    obtain rfl := Option.some.inj hr
    obtain ⟨hn, hr, hchild, hparent⟩ := owned_iff.1 h
    have hmem : ∀ {q}, q ∈ s.live → q ∈ (s.newNode A val p).1.live := Finset.mem_insert_of_mem
    have hself : (s.newNode A val p).2 ∈ (s.newNode A val p).1.live := Finset.mem_insert_self ..
    refine ⟨owned_iff.2 ⟨hmem hn, hmem hr, fun q hq d => ?_, fun q hq => ?_⟩, hself, hmem hp, rfl⟩
    · rcases Finset.mem_insert.1 hq with rfl | hq
      · have hc : (s.newNode A val p).1.child d (A.malloc s.news s.live) = s.nil :=
          Function.update_self ..
        rw [hc]
        exact hmem hn
      · have hc : (s.newNode A val p).1.child d q = s.child d q :=
          Function.update_of_ne (ne_of_mem_of_not_mem hq hfresh) ..
        rw [hc]
        exact hmem (hchild q hq d)
    · rcases Finset.mem_insert.1 hq with rfl | hq
      · have hc : (s.newNode A val p).1.parent (A.malloc s.news s.live) = p :=
          Function.update_self ..
        rw [hc]
        exact hmem hp
      · have hc : (s.newNode A val p).1.parent q = s.parent q :=
          Function.update_of_ne (ne_of_mem_of_not_mem hq hfresh) ..
        rw [hc]
        exact hmem (hparent q hq)

/-- A node that is allocated can be released. -/
theorem alive_releaseNode (A : Alloc Ptr T) (hp : p ∈ s.live) :
    Safe Alive (Code.releaseNode A p) s := by
  simp [Code.releaseNode, Alive, layout, hp, Cells.set, setChild, setParent, setColor]
  exact .inr ⟨p, hp, rfl⟩

/-- `insert` comes to allocated nodes only; the parts before and after the allocation are
confined. -/
theorem Owned.alive_insert (compare : T → T → Bool) (A : Alloc Ptr T) (h : s.Owned) :
    Spec Alive (fun _ _ => True) (Code.insert s.nil A compare fuel val) s := by
  have hdescend : Among {p | p ∈ s.live} (fun r => r.1 ∈ s.live ∧ r.2 ∈ s.live)
      (Code.descend s.nil compare val fuel s.nil s.root) :=
    among_descend h.nil (owned_iff.1 h).2.1 fun _ hp _ hq => ⟨hp, hq⟩
  refine spec_read (fun _ hp => nomatch hp) ((h.among hdescend).bind ?_)
  rintro ⟨parent, cur⟩ s₁ ⟨⟨hp, -⟩, h₁, hl₁, hn₁⟩
  dsimp only at hp ⊢
  rw [← hl₁] at hp
  split_ifs
  · exact spec_ret trivial
  · rw [← hn₁]
    refine (h₁.newNode A val hp).bind ?_
    rintro node s₂ ⟨h₂, hnode, hp₂, hn₂⟩
    rw [← hn₂]
    have hrest : Among {p | p ∈ s₂.live} (fun _ => True)
        ((Code.link s₂.nil compare val parent node).bind fun _ =>
          (Code.fixInsert s₂.nil fuel node).bind fun _ => ret true) :=
      confined_bind.2 (among_link hp₂ hnode
        (confined_bind.2 (among_fixInsert hnode trivial)))
    exact ⟨(h₂.among hrest).1, fun _ _ => trivial⟩

/-- `deleteNode` comes to allocated nodes only: it releases `z` after the last access to it. -/
theorem Owned.alive_deleteNode (A : Alloc Ptr T) (h : s.Owned) (hz : z ∈ s.live) :
    Spec Alive (fun _ _ => True) (Code.deleteNode s.nil A fuel z) s := by
  have hunlink : Among {p | p ∈ s.live} (fun r => r.1 ∈ s.live)
      (Code.unlink s.nil fuel z : Code Ptr T (Ptr × Color)) :=
    among_unlink hz fun _ hx _ => hx
  refine (h.among hunlink).bind ?_
  rintro ⟨x, c⟩ s₁ ⟨hx, h₁, hl₁, hn₁⟩
  rw [← hl₁] at hx hz
  rw [← hn₁]
  refine (h₁.among (among_repair (Q := fun _ => True) hx trivial)).bind ?_
  rintro _ s₂ ⟨-, -, hl₂, -⟩
  rw [← hl₂] at hz
  exact ⟨alive_releaseNode A hz, fun _ _ => trivial⟩

/-- `erase` comes to allocated nodes only. -/
theorem Owned.alive_erase (compare : T → T → Bool) (A : Alloc Ptr T) (h : s.Owned) :
    Spec Alive (fun _ _ => True) (Code.erase s.nil A compare fuel val) s := by
  have hfind : Among {p | p ∈ s.live} (· ∈ s.live) (Code.findNode s.nil compare fuel val) :=
    among_findNode h.nil fun _ hp => hp
  refine (h.among hfind).bind ?_
  rintro z s₁ ⟨hz, h₁, hl₁, hn₁⟩
  rw [← hl₁] at hz
  split_ifs
  · exact spec_ret trivial
  · rw [← hn₁]
    exact (h₁.alive_deleteNode A hz).bind fun _ _ _ => spec_ret trivial

/-- Every access of a call on allocated nodes is to an allocated node. -/
theorem Owned.alive_code (compare : T → T → Bool) (A : Alloc Ptr T) (h : s.Owned) (op : Op T) :
    Safe Alive (op.code s.nil compare A fuel) s := by
  have hreads : ∀ {code : Code Ptr T (Option T)}, Among {p | p ∈ s.live} (fun _ => True) code →
      Spec Alive (fun _ _ => True) code s := fun hcode => ⟨(h.among hcode).1, fun _ _ => trivial⟩
  have hcall : ∀ {α : Type} {code : Code Ptr T α} {f : α → Answer T},
      Spec Alive (fun _ _ => True) code s → Safe Alive (code.bind fun a => ret (f a)) s :=
    fun hcode => (hcode.bind fun _ _ _ => spec_ret (P := fun _ _ => True) trivial).1
  cases op with
  | insert x => exact hcall (h.alive_insert compare A)
  | erase x => exact hcall (h.alive_erase compare A)
  | find x =>
    refine hcall (hreads (confined_bind.2 (among_findNode h.nil fun p hp => ?_)))
    have hp : p ∈ s.live := hp
    simp [hp]
  | minimum =>
    refine hcall (hreads ?_)
    simp +contextual [Code.minimum, confined_bind, among_sideMost]
  | maximum =>
    refine hcall (hreads ?_)
    simp +contextual [Code.maximum, confined_bind, among_sideMost]

/-! ## Between two calls -/

/-- Between two calls the nodes are owned, but for what deletions left at the sentinel. -/
theorem Valid.owned (hv : s.Valid t) : (s.setParent s.nil s.nil).Owned := by
  have hnil : s.nil ∈ s.live := (hv.live _).2 (.inl rfl)
  have haddr : ∀ {a}, (∀ p ∈ ptrs a, p ∈ ptrs t) → s.addr a ∈ s.live := by
    intro a ha
    rcases eq_or_ne a .nil with rfl | hne
    · exact hnil
    · exact (hv.live _).2 (.inr (ha _ (addr_mem hne)))
  have habove : ∀ {k : Ctx (Ptr × T)}, (∀ p ∈ kptrs k, p ∈ ptrs t) → s.above k ∈ s.live := by
    intro k hk
    cases k with
    | nil => exact hnil
    | cons f k => exact (hv.live _).2 (.inr (hk _ List.mem_cons_self))
  refine owned_iff.2 ⟨hnil, ?_, fun p hp d => ?_, fun p hp => ?_⟩
  · change s.root ∈ s.live
    rw [hv.stores.holds.1]
    exact haddr fun _ hp => hp
  · change s.child d p ∈ s.live
    rcases (hv.live p).1 hp with rfl | hp
    · rw [hv.stores.sentinel.child]
      exact hnil
    · obtain ⟨k, c, l, x, r, rfl⟩ := exists_plug hp
      have hnode := hv.stores.node
      cases d with
      | left =>
        rw [show s.child .left p = s.addr l from hnode.near]
        exact haddr fun q hq => mem_ptrs_plug.2 (.inr (mem_ptrs_on.2 (.inr (.inl hq))))
      | right =>
        rw [show s.child .right p = s.addr r from hnode.far]
        exact haddr fun q hq => mem_ptrs_plug.2 (.inr (mem_ptrs_on.2 (.inr (.inr hq))))
  · rcases eq_or_ne p s.nil with rfl | hne
    · rw [show (s.setParent s.nil s.nil).parent s.nil = s.nil from Function.update_self ..]
      exact hnil
    · rw [show (s.setParent s.nil s.nil).parent p = s.parent p from Function.update_of_ne hne ..]
      obtain ⟨k, c, l, x, r, rfl⟩ := exists_plug (((hv.live p).1 hp).resolve_left hne)
      rw [show s.parent p = s.above k from hv.stores.node.parent]
      exact habove fun q hq => mem_ptrs_plug.2 (.inl hq)

omit [DecidableEq Ptr] in
/-- What is allocated decides whether an access is to an allocated node. -/
theorem Alive.congr {x : Access (Cell.Val Ptr T) (Mark Ptr)} [DecidableEq Ptr] (h : Alive s' x)
    (hlive : s'.live = s.live) : Alive s x := by
  unfold Alive at h ⊢
  rwa [hlive] at h

/-- Every access of a call is to an allocated node. -/
theorem Valid.alive_code (compare : T → T → Bool) (A : Alloc Ptr T) (hv : s.Valid t)
    (hfuel : t.toList.length < fuel) (op : Op T) :
    Safe Alive (op.code s.nil compare A fuel) s := by
  have hnil := hv.nilParent compare A hfuel op
  have hpre : ∀ i ∈ ({Cell.parent s.nil} : Set (Cell Ptr)), Preceded (IsRead i) (IsWrite i)
      ((op.code s.nil compare A fuel).log s) := by
    rintro i rfl
    exact hnil.read.trans hnil.written
  intro x hx
  obtain ⟨x', hx', heq, hagree⟩ := log_agree (agree_setParent_nil s.nil) hpre x hx
  have halive := hv.owned.alive_code compare A op x' hx'
  rw [heq] at halive
  exact halive.congr (hagree .live (by simp)).symm

end

end RockCoro.RBTree
