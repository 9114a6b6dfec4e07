import RockCoro.BasicStruct.RedBlackTree.Ownership

/-!
# The life of a tree

The destructor of `RBTree` after any calls. `run_life` follows a tree from its construction to the
end of its destructor: each access is to an allocated node, so none is used after it was released
and none is released twice, and in the end no node is left.
-/

namespace RockCoro.RBTree

open RedBlack Prog

namespace Code

section
variable {Ptr T : Type} [DecidableEq Ptr] (nil : Ptr) (A : Alloc Ptr T)

/-- The recursion of the destructor: both children, then the node. -/
def destroy : ℕ → Ptr → Code Ptr T Unit
  | 0, _ => .fail
  | fuel + 1, node =>
    if node = nil then return ()
    else do
      destroy fuel (← child .left node)
      destroy fuel (← child .right node)
      releaseNode A node

/-- The destructor. -/
def destruct (fuel : ℕ) : Code Ptr T Unit := do
  destroy nil A fuel (← root)
  releaseNode A nil

/-- The calls, one after the other. -/
def calls (compare : T → T → Bool) (fuel : ℕ) : List (Op T) → Code Ptr T (List (Answer T))
  | [] => return []
  | op :: ops => do
    let a ← op.code nil compare A fuel
    let as ← calls compare fuel ops
    return a :: as

/-- What happens to a tree after its construction: some calls and the destructor. -/
def life (compare : T → T → Bool) (fuel : ℕ) (ops : List (Op T)) :
    Code Ptr T (List (Answer T)) := do
  let as ← calls nil A compare fuel ops
  destruct nil A fuel
  return as

end

end Code

section
variable {Ptr T : Type} [DecidableEq Ptr] {s s' s'' : RBTree Ptr T} {t : ColorTree (Ptr × T)}
  {q : Ptr} {ps qs : List Ptr} {fuel : ℕ}

/-! ## The destructor -/

/-- The nodes `ps` were released, and nothing else happened. -/
structure Released (ps : List Ptr) (s s' : RBTree Ptr T) : Prop where
  root : s'.root = s.root
  same : ∀ p, p ∉ ps → Same s s' p
  live : ∀ p, p ∈ s'.live ↔ p ∈ s.live ∧ p ∉ ps

omit [DecidableEq Ptr] in
/-- Releasing nodes of the tree leaves the sentinel where it is. -/
theorem Released.nil (h : Released ps s s') (hn : s.nil ∉ ps) : s'.nil = s.nil :=
  (h.same s.nil hn).nil

omit [DecidableEq Ptr] in
/-- Releases compose. -/
theorem Released.trans (h : Released ps s s') (h' : Released qs s' s'') :
    Released (ps ++ qs) s s'' := by
  refine ⟨h'.root.trans h.root, fun p hp => ?_, fun p => ?_⟩
  · rw [List.mem_append, not_or] at hp
    exact (h.same p hp.1).trans (h'.same p hp.2)
  · rw [h'.live, h.live, List.mem_append, not_or, and_assoc]

/-- `release` of one node. -/
theorem released_releaseNode (A : Alloc Ptr T) (s : RBTree Ptr T) (p : Ptr) :
    Released [p] s (s.releaseNode A p) := by
  refine ⟨rfl, fun r hr => ?_, fun r => ?_⟩
  · have hr : r ≠ p := fun he => hr (List.mem_singleton.2 he)
    exact ⟨rfl, Function.update_of_ne hr .., Function.update_of_ne hr ..,
      Function.update_of_ne hr .., fun _ => Function.update_of_ne hr ..⟩
  · change r ∈ s.live.erase p ↔ _
    rw [Finset.mem_erase, List.mem_singleton, and_comm]

/-- `destroy` releases the nodes of a subtree. -/
theorem Rep.destroy (A : Alloc Ptr T) (hr : s.Rep q t) (hnd : (ptrs t).Nodup)
    (hlive : ∀ p ∈ ptrs t, p ∈ s.live) (hfuel : t.toList.length < fuel) :
    ∃ s' ps, (Code.destroy s.nil A fuel (s.addr t)).run s = some ((), s') ∧
      Safe Alive (Code.destroy s.nil A fuel (s.addr t)) s ∧ Released ps s s' ∧
      ∀ p, p ∈ ps ↔ p ∈ ptrs t := by
  induction t generalizing s q fuel with
  | nil =>
    obtain ⟨fuel, rfl⟩ := Nat.exists_eq_succ_of_ne_zero (Nat.ne_of_gt (Nat.zero_lt_of_lt hfuel))
    refine ⟨s, [], ?_, ?_, ⟨rfl, fun _ _ => .refl, by simp⟩, by simp⟩
    · simp [Code.destroy]
    · simp [Code.destroy]
  | node c l v r ihl ihr =>
    obtain ⟨fuel, rfl⟩ := Nat.exists_eq_succ_of_ne_zero (Nat.ne_of_gt (Nat.zero_lt_of_lt hfuel))
    obtain ⟨hv, hl, hr⟩ := hr
    have hmem := fun p => (mem_ptrs_on (p := p) (d := .left) (c := c) (a := l) (v := v) (b := r))
    obtain ⟨hvl, hvr, hndl, hndr, hlr⟩ := (nodup_ptrs_on (d := .left) (c := c)).1 hnd
    simp only [ColorTree.toList_node, List.length_append, List.length_cons] at hfuel
    have hlivel : ∀ p ∈ ptrs l, p ∈ s.live := fun p hp => hlive p ((hmem p).2 (.inr (.inl hp)))
    have hliver : ∀ p ∈ ptrs r, p ∈ s.live := fun p hp => hlive p ((hmem p).2 (.inr (.inr hp)))
    have hlivev : v.1 ∈ s.live := hlive _ ((hmem _).2 (.inl rfl))
    have hfuell : l.toList.length < fuel := by omega
    have hfuelr : r.toList.length < fuel := by omega
    obtain ⟨s₁, ps, hrun₁, hsafe₁, hrel₁, hps⟩ := ihl hl hndl hlivel hfuell
    have hnl : s.nil ∉ ps := fun hp => hl.ne_nil _ ((hps _).1 hp) rfl
    have hvps : v.1 ∉ ps := fun hp => hvl ((hps _).1 hp)
    have hsame₁ : ∀ p ∈ ptrs r, Same s s₁ p := fun p hp =>
      hrel₁.same p fun hp' => hlr p ((hps p).1 hp') hp
    have hlive₁ : ∀ p ∈ ptrs r, p ∈ s₁.live := fun p hp =>
      (hrel₁.live p).2 ⟨hliver p hp, fun hp' => hlr p ((hps p).1 hp') hp⟩
    obtain ⟨s₂, qs, hrun₂, hsafe₂, hrel₂, hqs⟩ :=
      ihr (hr.congr hsame₁) hndr hlive₁ hfuelr
    rw [hrel₁.nil hnl, addr_congr (hrel₁.nil hnl)] at hrun₂ hsafe₂
    have hvqs : v.1 ∉ qs := fun hp => hvr ((hqs _).1 hp)
    have hlive₁v : v.1 ∈ s₁.live := (hrel₁.live _).2 ⟨hlivev, hvps⟩
    have hlive₂v : v.1 ∈ s₂.live := (hrel₂.live _).2 ⟨hlive₁v, hvqs⟩
    have hleft : s.child .left v.1 = s.addr l := hv.near
    have hright : s₁.child .right v.1 = s.addr r := ((hrel₁.same _ hvps).child _).trans hv.far
    refine ⟨s₂.releaseNode A v.1, ps ++ qs ++ [v.1], ?_, ?_,
      (hrel₁.trans hrel₂).trans (released_releaseNode A s₂ v.1), fun p => ?_⟩
    · simp [Code.destroy, hv.ne, hleft, hright, run_bind, hrun₁, hrun₂]
    · simp [Code.destroy, hv.ne, hleft]
      refine ⟨?_, hsafe₁.bind hrun₁ ?_⟩
      · rintro p ⟨⟩
        exact hlivev
      · simp [hright]
        refine ⟨?_, hsafe₂.bind hrun₂ (alive_releaseNode A hlive₂v)⟩
        rintro p ⟨⟩
        exact hlive₁v
    · change _ ↔ p ∈ ptrs (.on .left c l v r)
      rw [hmem, List.mem_append, List.mem_append, List.mem_singleton, hps, hqs]
      exact or_comm

/-- The destructor releases all nodes. -/
theorem Valid.destruct (A : Alloc Ptr T) (hv : s.Valid t) (hfuel : t.toList.length < fuel) :
    ∃ s', (Code.destruct s.nil A fuel).run s = some ((), s') ∧ s'.live = ∅ ∧
      Safe Alive (Code.destruct s.nil A fuel) s := by
  have hrep := hv.stores.holds.2
  have hlive : ∀ p ∈ ptrs t, p ∈ s.live := fun p hp => (hv.live p).2 (.inr hp)
  obtain ⟨s₁, ps, hrun, hsafe, hrel, hps⟩ := hrep.destroy A hv.stores.nodup hlive hfuel
  have hnil : s.nil ∉ ps := fun hp => hrep.ne_nil _ ((hps _).1 hp) rfl
  have hnil₁ : s.nil ∈ s₁.live := (hrel.live _).2 ⟨(hv.live _).2 (.inl rfl), hnil⟩
  rw [← hv.stores.holds.1] at hrun hsafe
  refine ⟨s₁.releaseNode A s.nil, ?_, ?_, ?_⟩
  · simp [Code.destruct, run_bind, hrun]
  · refine Finset.eq_empty_of_forall_notMem fun p hp => ?_
    have hall := hrel.trans (released_releaseNode A s₁ s.nil)
    obtain ⟨hp, hgone⟩ := (hall.live p).1 hp
    rw [List.mem_append, List.mem_singleton, hps, not_or] at hgone
    rcases (hv.live p).1 hp with hp | hp
    · exact hgone.2 hp
    · exact hgone.1 hp
  · simp [Code.destruct]
    refine ⟨?_, hsafe.bind hrun (alive_releaseNode A hnil₁)⟩
    intro p hp
    cases hp

/-! ## From the construction to the end -/

variable (compare : T → T → Bool)

/-- The calls as a program. -/
theorem Valid.calls (A : Alloc Ptr T) (ops : List (Op T)) (hv : s.Valid t)
    (hfuel : t.toList.length + ops.length < fuel) :
    ∃ as s' t', RBTree.run compare A fuel s ops = some (as, s') ∧
      (Code.calls s.nil A compare fuel ops).run s = some (as, s') ∧
      Safe Alive (Code.calls s.nil A compare fuel ops) s ∧ s'.nil = s.nil ∧ s'.Valid t' ∧
      t'.toList.length < fuel := by
  induction ops generalizing s t with
  | nil => exact ⟨[], s, t, rfl, rfl, safe_ret, rfl, hv, by simpa using hfuel⟩
  | cons op ops ih =>
    rw [List.length_cons] at hfuel
    have ht : t.toList.length < fuel := by omega
    obtain ⟨a, s₁, t₁, hs₁, hv₁, hlen⟩ := hv.step compare A ht op
    have hcode := op.run_code compare A fuel (s := s)
    rw [hs₁] at hcode
    have hn₁ : s₁.nil = s.nil := Code.nil_of_run hcode
    obtain ⟨as, s₂, t₂, hs₂, hrun, hsafe, hn₂, hv₂, hlen₂⟩ := ih hv₁ (by omega)
    rw [hn₁] at hrun hsafe
    refine ⟨a :: as, s₂, t₂, ?_, ?_, ?_, hn₂.trans hn₁, hv₂, hlen₂⟩
    · simp only [RBTree.run, hs₁, Option.bind_eq_bind, Option.bind_some, hs₂]
    · simp [Code.calls, run_bind, hcode, hrun]
    · exact (hv.alive_code compare A ht op).bind hcode (hsafe.bind hrun safe_ret)

/-- The life of a tree, for any comparer and any allocator. Each call gives the answer that it gives
on its own, every access of the calls and of the destructor is to an allocated node, and in the end
no node is allocated. -/
theorem run_life (A : Alloc Ptr T) (ops : List (Op T)) (hfuel : ops.length < fuel) :
    ∃ as s s', run compare A fuel (init A) ops = some (as, s) ∧
      (Code.life (init A).nil A compare fuel ops).run (init A) = some (as, s') ∧
      s'.live = ∅ ∧ Safe Alive (Code.life (init A).nil A compare fuel ops) (init A) := by
  obtain ⟨as, s, t, hrun, hcalls, hsafe, hn, hv, hlen⟩ :=
    (valid_init A).calls compare A ops (by simpa using hfuel)
  obtain ⟨s', hdestruct, hlive, hsafe'⟩ := hv.destruct A hlen
  rw [hn] at hdestruct hsafe'
  refine ⟨as, s, s', hrun, ?_, hlive, ?_⟩
  · simp [Code.life, run_bind, hcalls, hdestruct]
  · exact hsafe.bind hcalls (hsafe'.bind hdestruct safe_ret)

/-- The life of a tree whose comparer is not an order. -/
theorem run_life_ne : ∃ as s s', run (fun a b : Int => a != b) (natAlloc Int) 9
      (init (natAlloc Int)) [.insert 1, .insert 2, .insert 1, .erase 2] = some (as, s) ∧
    (Code.life (init (natAlloc Int)).nil (natAlloc Int) (fun a b : Int => a != b) 9
      [.insert 1, .insert 2, .insert 1, .erase 2]).run (init (natAlloc Int)) = some (as, s') ∧
    s'.live = ∅ := by
  obtain ⟨as, s, s', hrun, hlife, hlive, -⟩ := run_life (fun a b : Int => a != b) (natAlloc Int)
    [.insert 1, .insert 2, .insert 1, .erase 2] (show 4 < 9 by decide)
  exact ⟨as, s, s', hrun, hlife, hlive⟩

end

end RockCoro.RBTree
