import RockCoro.BasicStruct.ChunkedVector.Refine

/-!
# Calls of `ChunkedVector` that throw

A step of `push_back`, `emplace_back` or `resize` that throws after the first one leaves the vector
with a block too many (`Outgrown`): the blocks are added before their elements, and nothing takes
them back. `total_size_` is written last, so the elements can still be read, but `pop_back` works on
the last block.
-/

namespace RockCoro

namespace ChunkedVector

open Fallible Blocks

section
variable {T : Type} [CapacityPolicy] {B n : ℕ} {s s' : ChunkedVector T} {l : List T}
  {env : Environment}

/-- The vectors that calls reach. -/
def Reachable (B : ℕ) (s : ChunkedVector T) : Prop :=
  ∃ (env : Environment) (calls : List (Call T)) (n : ℕ), (∀ k r, maxObjects < r → env k r = true) ∧
    (∀ c ∈ calls, c.Fits B) ∧ run B calls env 0 {} = .ok () n s

/-- A reachable vector holds a list. -/
theorem Reachable.holds (hB : 0 < B) (hr : Reachable B s) :
    ∃ l, Holds B s l ∧ l.length ≤ maxObjects := by
  obtain ⟨env, calls, n, henv, hfits, hrun⟩ := hr
  exact (run_holds hB henv hfits (.empty hB) (Nat.zero_le _)).ok hrun

/-- The calls that add elements. -/
def Call.Grows (s : ChunkedVector T) : Call T → Prop
  | .pushBack _ | .pushBackMove _ | .emplaceBack .. => True
  | .resize n _ => s.totalSize < n
  | .popBack | .clear => False

/-- Step `i` of a call throws, and no other. -/
def failAt (i : ℕ) : Environment := fun k _ => decide (k = i)

/-- `s'` has the size, the elements and the shape of `s`, and any later calls do on it what they do
on the list of `s`, until one throws. None is undefined. -/
structure Unharmed (B : ℕ) (s s' : ChunkedVector T) : Prop where
  size : s'.totalSize = s.totalSize
  elements : ∀ i, s'.subscript B i = s.subscript B i
  shape : Shape B s'
  later : ∀ l, Shows B s l → ∀ (env : Environment) (calls : List (Call T)) (l' : List T),
    (∀ k r, maxObjects < r → env k r = true) → (∀ c ∈ calls, c.Fits B) →
    calls.foldlM Call.onList l = some l' →
    Throughout (call B) (fun s c => ¬c.Dangles B s) env 0 s' calls →
    (run B calls).Meets env 0 s' (fun _ _ s'' => Shows B s'' l' ∧ Shape B s'') (fun _ => True) False

/-- A block has come that has no elements yet, or elements that do not count yet. -/
structure Outgrown (B : ℕ) (s s' : ChunkedVector T) : Prop where
  size : s'.totalSize = s.totalSize
  more : s.blocks.length < s'.blocks.length ∨ s.objects < s'.objects
  blocks : ∀ b ∈ s'.blocks, b.length ≤ B

omit [CapacityPolicy] in
/-- The elements in all blocks, when one block is replaced. -/
theorem sum_length_set {bs : List (List T)} {c : List T} :
    ∀ {i : ℕ} {b : List T}, bs[i]? = some b →
      ((bs.set i c).map List.length).sum + b.length = (bs.map List.length).sum + c.length := by
  induction bs with
  | nil =>
    intro i b hb
    cases hb
  | cons b₀ bs ih =>
    intro i b hb
    cases i with
    | zero =>
      cases hb
      simp
      omega
    | succ i =>
      have hrest := ih (i := i) hb
      simp only [List.set_cons_succ, List.map_cons, List.sum_cons]
      omega

omit [CapacityPolicy] in
/-- The new block has the new size, or is the old one or shorter. -/
theorem Resized.length_le {i k : ℕ} {s₁ s₂ : ChunkedVector T} {b b' : List T}
    (h : Resized i k s₁ s₂ b b') : b'.length ≤ k := by
  rcases Nat.lt_or_ge b.length k with hk | hk
  · exact (h.longer hk).le
  · rw [h.shorter hk, List.length_take]
    exact Nat.min_le_left ..

omit [CapacityPolicy] in
/-- Blocks stay within their size. -/
theorem Resized.blocks_le {i k : ℕ} {s₁ s₂ : ChunkedVector T} {b b' : List T}
    (h : Resized i k s₁ s₂ b b') (hk : k ≤ B) (hblocks : ∀ b ∈ s₁.blocks, b.length ≤ B) :
    ∀ b ∈ s₂.blocks, b.length ≤ B := by
  intro c hc
  rw [h.blocks] at hc
  rcases List.mem_or_eq_of_mem_set hc with hmem | rfl
  · exact hblocks c hmem
  · exact h.length_le.trans hk

omit [CapacityPolicy] in
/-- Filling a block takes no element back. -/
theorem Outgrown.resized {i : ℕ} {s₁ s₂ : ChunkedVector T} {b b' : List T} (h : Outgrown B s s₁)
    (hs : Resized i B s₁ s₂ b b') : Outgrown B s s₂ := by
  have hle : b.length ≤ b'.length := by
    rcases Nat.lt_or_ge b.length B with hk | hk
    · exact hk.le.trans (hs.longer hk).ge
    · rw [hs.shorter hk, List.length_take]
      exact Nat.le_min.2 ⟨h.blocks b (List.mem_of_getElem? hs.block), Nat.le_refl _⟩
  refine ⟨hs.size.trans h.size, ?_, hs.blocks_le (Nat.le_refl B) h.blocks⟩
  refine h.more.imp (fun hlt => ?_) fun hlt => hlt.trans_le ?_
  · rwa [hs.blocks, List.length_set]
  · have hsum := sum_length_set (c := b') hs.block
    rw [objects, objects, hs.blocks]
    omega

/-- The loop keeps a vector that is outgrown so. -/
theorem fillBlocks_outgrown {m : ℕ} :
    ∀ {fuel oldSize k : ℕ} {value : Ref T} {s₁ : ChunkedVector T}, Outgrown B s s₁ →
      (fillBlocks B m fuel oldSize value).Meets env k s₁ (fun _ _ s₂ => Outgrown B s s₂)
        (Outgrown B s) True := by
  intro fuel
  induction fuel with
  | zero =>
    intro oldSize k value s₁ _
    trivial
  | succ fuel ih =>
    intro oldSize k value s₁ h
    rw [fillBlocks]
    split
    · rw [meets_bind]
      refine (resizeBlock_resized.weaken fun _ hs' => hs'.1 ▸ h).mono fun _ _ s₂ hs₂ => ?_
      obtain ⟨b, b', hresized, -⟩ := hs₂
      exact ih (h.resized hresized)
    · exact h

/-- So does the last step. -/
theorem fillPartialBlock_outgrown {m k oldSize : ℕ} {value : Ref T} {s₁ : ChunkedVector T}
    (h : Outgrown B s s₁) :
    (fillPartialBlock B m value oldSize).Meets env k s₁ (fun _ _ _ => True)
      (Outgrown B s) True := by
  rw [fillPartialBlock]
  split
  · rw [meets_bind]
    exact (resizeBlock_resized.weaken fun _ hs' => hs'.1 ▸ h).mono fun _ _ _ _ => trivial
  · trivial

/-- The steps after `ensureBlocks`, when it added blocks. -/
theorem fillLastBlock_grown {m k oldSize : ℕ} {value : Ref T} {s₁ : ChunkedVector T} (hB : 0 < B)
    (h : Outgrown B s s₁) (hmore : s.blocks.length < s₁.blocks.length) :
    (fillLastBlock B m value oldSize).Meets env k s₁ (fun _ _ s₂ => Outgrown B s s₂) (Outgrown B s)
      True := by
  have hmod := Nat.mod_lt oldSize hB
  rw [fillLastBlock, meets_bind, meets_get]
  rcases Nat.lt_or_ge (oldSize / B) s₁.blocks.length with hblock | hblock
  · rw [if_pos hblock, meets_bind]
    refine (resizeBlock_resized.weaken fun _ hs' => hs'.1 ▸ h).mono fun _ _ s₂ hs₂ => ?_
    obtain ⟨b, b', hresized, -⟩ := hs₂
    refine ⟨hresized.size.trans h.size, .inl ?_, hresized.blocks_le (by omega) h.blocks⟩
    rwa [hresized.blocks, List.length_set]
  · rw [if_neg (Nat.not_lt.2 hblock)]
    exact h

/-- When no block is added, filling the last block is the first step. Where there is no such block
the calls that follow are undefined. -/
theorem fillLastBlock_thrown {m : ℕ} {value : Ref T} (hB : 0 < B) (h : Holds B s l)
    (hm : l.length < m) :
    (fillLastBlock B m value l.length).Meets env n s
      (fun p _ s₁ => (Outgrown B s s₁ ∧ ∃ r, env n r = false) ∨
        s₁ = s ∧ p.1 = l.length ∧ s.blocks.length ≤ l.length / B)
      (Thrown env n s) True := by
  have hmod := Nat.mod_lt l.length hB
  have hdiv := Nat.div_add_mod l.length B
  rw [Nat.mul_comm] at hdiv
  rw [fillLastBlock, meets_bind, meets_get]
  rcases Nat.lt_or_ge (l.length / B) s.blocks.length with hblock | hblock
  · rw [if_pos hblock, meets_bind]
    refine (resizeBlock_resized.weaken fun _ hs' => .inl hs').mono fun _ _ s₂ hs₂ => ?_
    obtain ⟨b, b', hresized, hgranted⟩ := hs₂
    have hb : b = block B l (l.length / B) := by
      have hb := hresized.block
      rw [h.blocks, length_split] at hblock
      rw [h.blocks, getElem?_split, if_pos hblock] at hb
      exact (Option.some.inj hb).symm
    have hlen : b.length = l.length % B := by
      rw [hb, length_block]
      omega
    have hlonger := hresized.longer (by omega)
    have hblocks : ∀ b ∈ s.blocks, b.length ≤ B := by
      intro b hb
      rw [h.blocks] at hb
      exact mem_split hb
    refine .inl ⟨⟨hresized.size, .inr ?_, hresized.blocks_le (by omega) hblocks⟩,
      hgranted (by omega)⟩
    have hsum := sum_length_set (c := b') hresized.block
    rw [objects, objects, hresized.blocks]
    omega
  · rw [if_neg (Nat.not_lt.2 hblock)]
    exact .inr ⟨rfl, rfl, hblock⟩

/-- Without a block to fill the loop is undefined or does nothing. -/
theorem fillBlocks_none {m fuel oldSize : ℕ} {value : Ref T} {E : ChunkedVector T → Prop}
    (hnone : s.blocks.length ≤ oldSize / B) :
    (fillBlocks B m fuel oldSize value).Meets env n s
      (fun p _ s' => p.1 = oldSize ∧ s' = s) E True := by
  cases fuel with
  | zero => trivial
  | succ fuel =>
    have hb : s.blocks[oldSize / B]?.map (·, s) = none := by
      rw [List.getElem?_eq_none hnone, Option.map_none]
    rw [fillBlocks]
    split
    · rw [meets_bind, resizeBlock, meets_bind, meets_get, meets_bind, meets_act_none hb]
      trivial
    · exact ⟨rfl, rfl⟩

/-- The part of `resize` that grows throws in its first step, or leaves more than there was. -/
theorem grow_thrown {m : ℕ} {value : Ref T} (hB : 0 < B) (h : Holds B s l) (hm : l.length < m) :
    (grow B m value).Meets env n s (fun _ _ _ => True) (Thrown env n s) True := by
  have hblocks : ∀ b ∈ s.blocks, b.length ≤ B := by
    intro b hb
    rw [h.blocks] at hb
    exact mem_split hb
  have hharmed : ∀ {s'}, (∃ r, env n r = false) → Outgrown B s s' → Thrown env n s s' :=
    fun hgranted hout => .inr ⟨⟨hout.size, hout.more⟩, hgranted⟩
  -- the steps from a vector that is outgrown already
  have hrest : ∀ (p : ℕ × Ref T) (k : ℕ) (s₁ : ChunkedVector T), (∃ r, env n r = false) →
      Outgrown B s s₁ →
      Meets (do
        let q ← fillBlocks B m (2 * (m / B) + 3) p.1 p.2
        fillPartialBlock B m q.2 q.1
        modify fun s => some { s with totalSize := m }) env k s₁ (fun _ _ _ => True)
          (Thrown env n s) True := by
    intro p k s₁ hgranted hout
    rw [meets_bind]
    refine ((fillBlocks_outgrown hout).weaken fun _ => hharmed hgranted).mono fun p _ _ hout => ?_
    rw [meets_bind]
    exact ((fillPartialBlock_outgrown hout).weaken fun _ => hharmed hgranted).mono fun _ _ _ _ =>
      trivial
  rw [grow, meets_bind, meets_get, meets_bind, ensureBlocks, meets_bind, meets_get, h.size]
  split
  · rename_i hmore
    rw [meets_attempt_some]
    refine ⟨fun hrefused => .inl ⟨rfl, _, hrefused⟩, fun hgranted => ?_⟩
    have hlonger : s.blocks.length <
        (s.blocks ++ List.replicate (newBlockCount B m - s.blocks.length) []).length := by
      rw [List.length_append, List.length_replicate]
      omega
    have hout : Outgrown B s { s with
        blocks := s.blocks ++ List.replicate (newBlockCount B m - s.blocks.length) []
        capacities := s.capacities ++
          List.replicate (newBlockCount B m - s.blocks.length) 0 } := by
      refine ⟨rfl, .inl hlonger, fun b hb => ?_⟩
      rcases List.mem_append.1 hb with hb | hb
      · exact hblocks b hb
      · rw [List.eq_of_mem_replicate hb]
        exact Nat.zero_le _
    rw [meets_bind]
    refine ((fillLastBlock_grown hB hout hlonger).weaken fun _ => hharmed ⟨_, hgranted⟩).mono
      fun p _ _ hout => ?_
    exact hrest p _ _ ⟨_, hgranted⟩ hout
  · rw [meets_pure, meets_bind]
    refine (fillLastBlock_thrown hB h hm).mono fun p k s₁ h₁ => ?_
    rcases h₁ with ⟨hout, hgranted⟩ | ⟨rfl, hsize, hnone⟩
    · exact hrest p _ _ hgranted hout
    · obtain ⟨oldSize, value⟩ := p
      obtain rfl : oldSize = l.length := hsize
      have hb : s₁.blocks[l.length / B]?.map (·, s₁) = none := by
        rw [List.getElem?_eq_none hnone, Option.map_none]
      change Meets (fillBlocks B m _ l.length value >>= _) _ _ _ _ _ _
      rw [meets_bind]
      refine (fillBlocks_none hnone).mono fun p _ s₂ hsame => ?_
      obtain ⟨oldSize, value⟩ := p
      obtain ⟨rfl, rfl⟩ := hsame
      change Meets (fillPartialBlock B m value l.length >>= _) _ _ _ _ _ _
      rw [meets_bind, fillPartialBlock, if_pos hm, meets_bind, resizeBlock, meets_bind, meets_get,
        meets_bind, meets_act_none hb]
      trivial

/-- The calls that add elements throw in their first step, or leave more than there was. -/
theorem call_thrown {c : Call T} (hB : 0 < B) (h : Holds B s l) (hc : c.Grows s) :
    (call B c).Meets env n s (fun _ _ _ => True) (Thrown env n s) True := by
  have hpush : ∀ {read : ChunkedVector T → Option T} {v : T}, Yields B l read v →
      (append B read).Meets env n s (fun _ _ _ => True) (Thrown env n s) True := by
    intro read v hread
    exact ((append_meets hB h hread).weaken fun _ hE => hE.2).mono (fun _ _ _ _ => trivial) |>.allow
      False.elim
  cases c with
  | pushBack a =>
    cases ha : a.get l with
    | none =>
      rw [call, meets_bind, meets_act_none (by rw [h.refer_eq_none hB ha]; rfl)]
      trivial
    | some v =>
      obtain ⟨r, hr, hrefers⟩ := h.refer hB ha
      rw [call, meets_bind, meets_act (by rw [hr]; rfl)]
      exact hpush fun _ _ hs hc => hrefers.load hB hs hc
  | pushBackMove v =>
    have hv : Yields B l (fun _ => some v) v := fun _ _ _ _ => rfl
    exact hpush hv
  | emplaceBack make args =>
    cases hvs : args.mapM (Arg.get l) with
    | none =>
      rw [call, meets_bind, meets_act_none (by rw [h.referAll_eq_none hB hvs]; rfl)]
      trivial
    | some vs =>
      obtain ⟨rs, hrs, hyields⟩ := h.referAll hB hvs
      rw [call, meets_bind, meets_act (by rw [hrs]; rfl)]
      exact hpush fun s' c hs hc => congrArg (Option.map make) (hyields s' c hs hc)
  | popBack => exact hc.elim
  | clear => exact hc.elim
  | resize m a =>
    have hm : s.totalSize < m := hc
    cases hr : s.refer B a with
    | none =>
      rw [call, meets_bind, meets_act_none (by rw [hr]; rfl)]
      trivial
    | some r =>
      rw [call, meets_bind, meets_act (by rw [hr]; rfl), resize, meets_bind, meets_get,
        if_neg (Nat.ne_of_gt hm), if_neg (Nat.lt_asymm hm)]
      exact grow_thrown hB h (h.size ▸ hm)

omit [CapacityPolicy] in
/-- With a block too many the vector has not its shape. -/
theorem Harmed.not_shape (hs : Shape B s) (h : Harmed s s') : ¬Shape B s' := by
  intro hs'
  rcases h.2 with hlt | hlt
  · rw [hs.count, hs'.count, h.1] at hlt
    exact Nat.lt_irrefl _ hlt
  · rw [hs.objects, hs'.objects, h.1] at hlt
    exact Nat.lt_irrefl _ hlt

omit [CapacityPolicy] in
/-- A vector that shows a list and has its shape holds the list. -/
theorem Holds.of_shows (hB : 0 < B) (h : Holds B s l) {l' : List T} (hl' : Shows B s l') :
    l' = l := by
  refine List.ext_getElem? fun i => ?_
  rw [← hl'.subscript, h.subscript hB]

/-- A call that adds elements and throws leaves the vector as it was if and only if the step that
throws is the first one of the call. -/
theorem thrown_unharmed_iff {c : Call T} {i : ℕ} (hB : 0 < B) (hr : Reachable B s)
    (hc : c.Grows s) (hthrown : call B c (failAt i) 0 s = .thrown s') :
    Unharmed B s s' ↔ i = 0 := by
  obtain ⟨l, h, hl⟩ := hr.holds hB
  rcases (call_thrown hB h hc).thrown hthrown with ⟨rfl, r, hfirst⟩ | ⟨hharmed, r, hlater⟩
  · have hi : 0 = i := of_decide_eq_true hfirst
    refine iff_of_true ⟨rfl, fun _ => rfl, h.shape hB, ?_⟩ hi.symm
    intro l₁ hl₁ env calls l' henv hfits hcalls hsafe
    obtain rfl := h.of_shows hB hl₁
    refine ((run_meets hB henv hfits h hl hcalls hsafe).weaken fun _ _ => trivial).mono
      fun _ _ s'' h'' => ?_
    exact ⟨h''.1.shows hB h''.2, h''.1.shape hB⟩
  · have hi : ¬0 = i := of_decide_eq_false hlater
    exact iff_of_false (fun hu => hharmed.not_shape (h.shape hB) hu.shape) (Ne.symm hi)

end

/-- A vector with one full block is reachable. -/
theorem reachable_two : Reachable 2 (⟨[[1, 2]], 2, [2]⟩ : ChunkedVector ℕ) := by
  refine ⟨fun _ r => decide (100 < r), [.pushBack (.value 1), .pushBackMove 2], 4,
    fun k r hr => ?_, ?_, ?_⟩
  · exact decide_eq_true (Nat.lt_trans (by decide) hr)
  · simp [Call.Fits]
  · decide +kernel

/-- The block for the third element cannot be added to `blocks_`. -/
theorem thrown_unharmed_iff_two :
    call 2 (.pushBack (.element 0)) (failAt 0) 0 ⟨[[1, 2]], 2, [2]⟩ =
        .thrown ⟨[[1, 2]], 2, [2]⟩ ∧
      Unharmed 2 (⟨[[1, 2]], 2, [2]⟩ : ChunkedVector ℕ) ⟨[[1, 2]], 2, [2]⟩ := by
  have hthrown : call 2 (.pushBack (.element 0)) (failAt 0) 0 ⟨[[1, 2]], 2, [2]⟩ =
      .thrown ⟨[[1, 2]], 2, [2]⟩ := by
    decide +kernel
  have hgrows : Call.Grows (⟨[[1, 2]], 2, [2]⟩ : ChunkedVector ℕ) (.pushBack (.element 0)) :=
    trivial
  exact ⟨hthrown, (thrown_unharmed_iff (by decide) reachable_two hgrows hthrown).2 rfl⟩

/-- The block for the third element is there when the memory for its elements is refused. It stays,
empty, and the next `pop_back` is one on an empty `std::vector`. -/
theorem not_unharmed_two :
    ∃ s s' : ChunkedVector ℕ, Reachable 2 s ∧ Call.Grows s (.pushBack (.value 3)) ∧
      call 2 (.pushBack (.value 3)) (failAt 1) 0 s = .thrown s' ∧ ¬Unharmed 2 s s' ∧
      call 2 .popBack (fun _ _ => false) 0 s' = .undefined := by
  refine ⟨⟨[[1, 2]], 2, [2]⟩, ⟨[[1, 2], []], 2, [2, 0]⟩, reachable_two, trivial,
    by decide +kernel, ?_, by decide +kernel⟩
  intro hu
  exact hu.shape.last [] rfl rfl

end ChunkedVector

end RockCoro
