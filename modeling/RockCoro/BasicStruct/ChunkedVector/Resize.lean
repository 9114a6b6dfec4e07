import RockCoro.BasicStruct.ChunkedVector.Refine

/-!
# `resize` to any size

The sum that rounds up to the number of blocks wraps around for sizes near the top of `size_t`. A
vector that grows to such a size gets no block (`newBlockCount_wraps`), and `resize` comes to a
block that is not there unless memory runs out first (`grow_wraps`). A vector with blocks of more
than `2 ^ 63` elements can shrink to such a size; it then loses its block and keeps the size
(`shrink_wraps`), so `Sized` knows these vectors next to those that hold a list.
-/

namespace RockCoro

namespace ChunkedVector

open Fallible Blocks

section
variable {T : Type} [CapacityPolicy] {B m n : ℕ} {s s' : ChunkedVector T} {l : List T}
  {env : Environment} {x : T} {value : Ref T}

/-- The argument is a `size_t`. -/
def Call.InRange : Call T → Prop
  | .resize n _ => n < 2 ^ 64
  | _ => True

/-- The vectors that any calls reach. -/
def ReachedByCalls (B : ℕ) (s : ChunkedVector T) : Prop :=
  ∃ (env : Environment) (calls : List (Call T)) (n : ℕ), (∀ k r, maxObjects < r → env k r = true) ∧
    (∀ c ∈ calls, c.InRange) ∧ run B calls env 0 {} = .ok () n s

/-- The vector holds a list, or it has a size and no block. -/
inductive Sized (B : ℕ) (s : ChunkedVector T) : Prop
  | holds (l : List T) : Holds B s l → l.length ≤ maxObjects → Sized B s
  | bare : s.blocks = [] → s.totalSize ≤ maxObjects → 2 ^ 63 < B → Sized B s

omit [CapacityPolicy] in
/-- If the sum wraps around, what is left is less than one block. -/
theorem newBlockCount_wraps (hB : B < 2 ^ 64) (hm : m < 2 ^ 64) (hwrap : 2 ^ 64 ≤ m + B - 1) :
    newBlockCount B m = 0 := by
  have hmod : (m + B - 1) % 2 ^ 64 = m + B - 1 - 2 ^ 64 := by
    rw [Nat.mod_eq_sub_mod hwrap, Nat.mod_eq_of_lt (by omega)]
  rw [newBlockCount, hmod]
  exact Nat.div_eq_of_lt (by omega)

/-! ## Sizes that wrap around -/

/-- The steps after the last block was filled, when the position is past all blocks. -/
theorem fill_past {oldSize fuel : ℕ} (hlt : oldSize < m) (hpast : s.blocks.length ≤ oldSize / B) :
    Meets (do
      let (oldSize, value) ← fillBlocks B m fuel oldSize value
      fillPartialBlock B m value oldSize
      modify fun s => some { s with totalSize := m }) env n s (fun _ _ _ => False)
      (fun _ => False) True := by
  have hb : s.blocks[oldSize / B]?.map (·, s) = none := by
    rw [List.getElem?_eq_none hpast, Option.map_none]
  have hnone : ∀ k (value : Ref T) (Q : Ref T → ℕ → ChunkedVector T → Prop),
      (resizeBlock (oldSize / B) k value).Meets env n s Q (fun _ => False) True := by
    intro k value Q
    rw [resizeBlock, meets_bind, meets_get, meets_bind, meets_act_none hb]
    trivial
  rw [meets_bind]
  cases fuel with
  | zero => trivial
  | succ fuel =>
    rw [fillBlocks]
    split
    · rw [meets_bind]
      exact hnone _ _ _
    · change Meets (fillPartialBlock B m value oldSize >>= _) _ _ _ _ _ _
      rw [meets_bind, fillPartialBlock, if_pos hlt, meets_bind]
      exact hnone _ _ _

/-- Growing to a size that wraps around comes to no good end: to a block that is not there, if all
blocks together fit into memory, and to an exception, if they do not. -/
theorem grow_wraps (hB : 0 < B) (hB64 : B < 2 ^ 64) (hm : m < 2 ^ 64) (hwrap : 2 ^ 64 ≤ m + B - 1)
    (henv : ∀ k r, maxObjects < r → env k r = true) (h : Holds B s l)
    (hl : l.length ≤ maxObjects) (hlt : l.length < m) (hvalue : RefersTo B l x value) :
    (grow B m value).Meets env n s (fun _ _ _ => False)
      (fun _ => maxObjects < s.blocks.length * B ∨ Refuses env maxObjects)
      (s.blocks.length * B ≤ maxObjects) := by
  have hdiv := Nat.div_add_mod l.length B
  rw [Nat.mul_comm] at hdiv
  have hmod := Nat.mod_lt l.length hB
  have hlen : s.blocks.length = (l.length + B - 1) / B := by rw [h.blocks, length_split]
  have hcount := blockCount_eq hB l.length
  rw [grow, meets_bind, meets_get, meets_bind, ensureBlocks, meets_bind, meets_get,
    newBlockCount_wraps hB64 hm hwrap, if_neg (Nat.not_lt_zero _), meets_pure, meets_bind,
    fillLastBlock, meets_bind, meets_get, h.size]
  by_cases h0 : l.length % B = 0
  · -- the last block is full
    rw [if_pos h0] at hcount
    have hU : s.blocks.length * B ≤ maxObjects := by
      rw [hlen, hcount]
      omega
    rw [if_neg (by rw [hlen, hcount]; exact Nat.lt_irrefl _), meets_pure]
    refine ((fill_past hlt ?_).allow fun _ => hU).weaken fun _ => False.elim
    rw [hlen, hcount]
  · rw [if_neg h0] at hcount
    have hlast : l.length / B < (l.length + B - 1) / B := hcount ▸ Nat.lt_succ_self _
    have hmul : s.blocks.length * B = l.length + (B - l.length % B) := by
      rw [hlen, hcount, Nat.succ_mul]
      omega
    set r := min (B - l.length % B) (m - l.length) with hr
    have hb : s.blocks[l.length / B]? = some (block B l (l.length / B)) := by
      rw [h.blocks, getElem?_split, if_pos hlast]
    have hlenb : (block B l (l.length / B)).length = l.length % B := by
      rw [length_block]
      omega
    have hmemory : s.objects + (l.length % B + r - (block B l (l.length / B)).length) =
        l.length + r := by
      rw [(h.shape hB).objects, h.size, hlenb]
      omega
    rw [if_pos (hlen ▸ hlast), meets_bind]
    refine resizeBlock_meets hb (by omega) (fun hrefused => ?_) fun hgranted => ?_
    · rw [hmemory] at hrefused
      rcases Nat.lt_or_ge maxObjects (l.length + r) with hmax | hmax
      · exact .inl (by omega)
      · exact .inr ⟨_, _, hrefused, hmax⟩
    rw [hmemory] at hgranted
    have hmax := le_maxObjects henv hgranted
    rw [hvalue.load hB h.blocks (le_blockCount_mul hB)]
    intro s₁ hset
    obtain ⟨s₂, hset₂, hblocks, -⟩ := setBlock_eq (vectorResize · (l.length % B + r) x) hb
    cases hset.symm.trans hset₂
    have hlen₁ : s₁.blocks.length = s.blocks.length := by rw [hblocks, List.length_set]
    rw [meets_pure]
    rcases Nat.le_total (B - l.length % B) (m - l.length) with hle | hle
    · -- the last block is filled, and the loop goes past it
      rw [Nat.min_eq_left hle] at hr
      have hU : s.blocks.length * B ≤ maxObjects := by omega
      have hpos : 0 < s.blocks.length := hlen ▸ Nat.zero_lt_of_lt hlast
      have hBle := Nat.le_mul_of_pos_left B hpos
      have hlt' : l.length + r < m := by
        unfold maxObjects at hU
        omega
      refine ((fill_past hlt' ?_).allow fun _ => hU).weaken fun _ => False.elim
      rw [hlen₁, hr, ← hmul, Nat.mul_div_cancel _ hB]
    · -- the new size is reached in the only block
      rw [Nat.min_eq_right hle] at hr
      have hlm : l.length + r = m := by omega
      have hB63 : maxObjects < B := by
        unfold maxObjects at *
        omega
      have hq : m / B = 0 := Nat.div_eq_of_lt (by omega)
      have hq₀ : l.length / B = 0 := Nat.div_eq_of_lt (by omega)
      have hsum : sizeAdd m B ≤ m := by
        rw [sizeAdd, Nat.mod_eq_sub_mod (by omega), Nat.mod_eq_of_lt (by omega)]
        omega
      have hone : s.blocks = [block B l 0] := by
        rw [h.blocks, hcount, hq₀]
        rfl
      have hone₁ : s₁.blocks = [vectorResize (block B l 0) (l.length % B + r) x] := by
        rw [hblocks, hone, hq₀]
        rfl
      have hmore : maxObjects < s.blocks.length * B := by omega
      rw [hlm]
      change Meets (fillBlocks B m _ m _ >>= _) _ _ _ _ _ _
      rw [meets_bind]
      refine Meets.mono ?_ fun _ _ _ => False.elim
      refine ((fillBlocks_tooLarge henv hB63 hone₁ ?_ hsum hq).weaken fun _ _ => ?_).allow
        False.elim
      · rw [length_vectorResize]
        omega
      · exact .inl hmore

/-- Shrinking to a size that wraps around drops the only block. -/
theorem shrink_wraps (hB64 : B < 2 ^ 64) (hwrap : 2 ^ 64 ≤ m + B - 1) (h : Holds B s l)
    (hl : l.length ≤ maxObjects) (hlt : m < l.length) {E : ChunkedVector T → Prop} :
    (shrink B m).Meets env n s (fun _ _ s' => s'.blocks = [] ∧ s'.totalSize = m) E False := by
  have hlm : m < B := by
    unfold maxObjects at hl
    omega
  have hpos : 0 < (l.length + B - 1) / B := by
    refine (lt_blockCount (by omega)).2 ?_
    omega
  have hlen : s.blocks.length = (l.length + B - 1) / B := by rw [h.blocks, length_split]
  have hne : s.blocks ≠ [] := List.ne_nil_of_length_pos (hlen ▸ hpos)
  obtain ⟨b, hb⟩ : ∃ b, s.blocks[m / B]? = some b := by
    rw [Nat.div_eq_of_lt hlm, List.getElem?_eq_getElem (hlen ▸ hpos)]
    exact ⟨_, rfl⟩
  obtain ⟨s₁, hcut, -⟩ := setBlock_eq (List.take (m % B)) hb
  have hm : m < 2 ^ 64 := by omega
  rw [shrink, meets_bind, meets_get, if_neg hne, meets_bind, meets_modify hcut, meets_bind,
    meets_modify_some, meets_modify_some, newBlockCount_wraps hB64 hm hwrap]
  exact ⟨rfl, rfl⟩

/-! ## Vectors without blocks -/

/-- A vector without blocks takes any smaller size. -/
theorem shrink_bare (hs : s.blocks = []) {E : ChunkedVector T → Prop} :
    (shrink B m).Meets env n s (fun _ _ s' => s'.blocks = [] ∧ s'.totalSize = m) E False := by
  rw [shrink, meets_bind, meets_get, if_pos hs, meets_bind, meets_modify_some, meets_modify_some]
  refine ⟨?_, rfl⟩
  change s.blocks.take _ = []
  rw [hs, List.take_nil]

/-- A larger size for which no block comes is undefined. -/
theorem grow_bare_wraps (hB64 : B < 2 ^ 64) (hm : m < 2 ^ 64) (hwrap : 2 ^ 64 ≤ m + B - 1)
    (hs : s.blocks = []) (hlt : s.totalSize < m) :
    (grow B m value).Meets env n s (fun _ _ _ => False) (fun _ => False) True := by
  rw [grow, meets_bind, meets_get, meets_bind, ensureBlocks, meets_bind, meets_get,
    newBlockCount_wraps hB64 hm hwrap, if_neg (Nat.not_lt_zero _), meets_pure, meets_bind,
    fillLastBlock, meets_bind, meets_get, if_neg (by rw [hs]; exact Nat.not_lt_zero _), meets_pure]
  exact fill_past hlt (hs ▸ Nat.zero_le _)

/-- The block that `resize` adds to a vector without blocks is filled in one step. -/
theorem fillLastBlock_bare {t : ℕ} (hs : s.blocks = [[]]) (hmB : m ≤ B)
    (henv : ∀ k r, maxObjects < r → env k r = true) (hlt : t < m) :
    (fillLastBlock B m (.value x) t).Meets env n s
      (fun p _ s' => p = (m, .value x) ∧ s'.blocks = [List.replicate m x] ∧ m ≤ maxObjects)
      (fun _ => True) False := by
  have hq : t / B = 0 := Nat.div_eq_of_lt (by omega)
  have hmod : t % B = t := Nat.mod_eq_of_lt (by omega)
  have hsum : t % B + min (B - t % B) (m - t) = m := by omega
  have hend : t + min (B - t % B) (m - t) = m := by omega
  have hb : s.blocks[t / B]? = some [] := by rw [hs, hq]; rfl
  have hblock : t / B < s.blocks.length := by
    rw [hs, hq]
    exact Nat.one_pos
  have hmemory : s.objects + (m - ([] : List T).length) = m := by
    simp [objects, hs]
  rw [fillLastBlock, meets_bind, meets_get, if_pos hblock, meets_bind, hsum]
  refine resizeBlock_meets hb (Nat.zero_lt_of_lt hlt) (fun _ => trivial) fun hgranted => ?_
  rw [hmemory] at hgranted
  intro s' hset
  obtain ⟨s₁, hset₁, hblocks, -⟩ := setBlock_eq (vectorResize · m x) hb
  cases hset.symm.trans hset₁
  refine ⟨?_, ?_, le_maxObjects henv hgranted⟩
  · rw [hend, Ref.moved_value, ite_self]
  · rw [hblocks, hs, hq]
    simp [vectorResize]

/-- Growing gives the vector a block again. The elements it had are lost to `x`. -/
theorem grow_bare (hB : 2 ^ 63 < B) (hwrap : m + B - 1 < 2 ^ 64)
    (henv : ∀ k r, maxObjects < r → env k r = true) (hs : s.blocks = []) (hlt : s.totalSize < m) :
    (grow B m (.value x)).Meets env n s
      (fun _ _ s' => Holds B s' (List.replicate m x) ∧ m ≤ maxObjects) (fun _ => True)
      False := by
  have hB0 : 0 < B := by omega
  have hmB : m ≤ B := by omega
  have hm : 0 < m := Nat.zero_lt_of_lt hlt
  have hcount : (m + B - 1) / B = 1 := by
    refine Nat.le_antisymm (blockCount_le hB0 ?_) ((lt_blockCount hB0).2 ?_)
    · rwa [Nat.one_mul]
    · rwa [Nat.zero_mul]
  have hN : newBlockCount B m = 1 := by rw [newBlockCount, Nat.mod_eq_of_lt hwrap, hcount]
  have hlen : (List.replicate m x).length = m := List.length_replicate
  have hfew : s.blocks.length < 1 := by
    rw [hs]
    exact Nat.one_pos
  rw [grow, meets_bind, meets_get, meets_bind, ensureBlocks, meets_bind, meets_get, hN,
    if_pos hfew, meets_attempt_some]
  refine ⟨fun _ => trivial, fun _ => ?_⟩
  have hone : s.blocks ++ List.replicate (1 - s.blocks.length) [] = [[]] := by rw [hs]; rfl
  rw [meets_bind]
  refine (fillLastBlock_bare hone hmB henv hlt).mono fun p k s₁ hfill => ?_
  obtain ⟨rfl, hblocks, hmax⟩ := hfill
  have hfilled : Filled B m x (List.replicate m x) s₁ (List.replicate m x) := by
    refine ⟨?_, hlen.le, ?_⟩
    · rw [hcount, hblocks]
      simp [split, block, List.take_of_length_le (hlen.trans_le hmB)]
    · simp [vectorResize]
  have hfuel : m - (List.replicate m x).length < (2 * (m / B) + 3) * B := by
    rw [hlen, Nat.sub_self]
    exact Nat.mul_pos (Nat.succ_pos _) hB0
  have hsettled : (List.replicate m x).length < m →
      Settled B (List.replicate m x) x (.value x) := fun hlt => absurd hlt (Nat.not_lt.2 hlen.ge)
  have hloop := fillBlocks_meets (n := k) hB0 henv hwrap hm hfilled (.inl hlen) hsettled
    (hlen.trans_le hmax) hfuel
  rw [hlen] at hloop
  change Meets (fillBlocks B m _ m (.value x) >>= _) _ _ _ _ _ _
  rw [meets_bind]
  refine (hloop.weaken fun _ _ => trivial).mono fun p _ s₂ hfill => ?_
  obtain ⟨oldSize, value⟩ := p
  obtain ⟨-, l₂, h₂, rfl, hmax₂, hvalue, hend⟩ := hfill
  change Meets (fillPartialBlock B m value l₂.length >>= _) _ _ _ _ _ _
  rw [meets_bind]
  refine ((fillPartialBlock_meets hB0 henv h₂ hmax₂ hvalue hend).weaken fun _ _ => trivial).mono
    fun _ _ s₃ hfill => ?_
  obtain ⟨h₃, hm⟩ := hfill
  rw [meets_modify_some]
  refine ⟨⟨hlen.symm, ?_⟩, hm⟩
  rw [hlen]
  exact h₃

/-! ## Vectors that calls reach -/

/-- `resize` of a vector that holds a list to a size that wraps around. -/
theorem resize_wraps (hB : 0 < B) (hB64 : B < 2 ^ 64) (hm : m < 2 ^ 64) (hwrap : 2 ^ 64 ≤ m + B - 1)
    (henv : ∀ k r, maxObjects < r → env k r = true) (h : Holds B s l) (hl : l.length ≤ maxObjects)
    (hvalue : RefersTo B l x value) :
    (resize B m value).Meets env n s (fun _ _ s' => Sized B s') (fun _ => True)
      (s.totalSize < m ∧ s.blocks.length * B ≤ maxObjects) := by
  refine resize_parts (fun _ => .holds l h hl) (fun hlt => ?_) fun hlt => ?_
  · refine ((shrink_wraps hB64 hwrap h hl (h.size ▸ hlt)).allow False.elim).mono
      fun _ _ _ hs' => ?_
    obtain ⟨hs', hsize'⟩ := hs'
    refine .bare hs' ?_ ?_
    · rw [hsize']
      exact hlt.le.trans (h.size ▸ hl)
    · have hlm := hlt.trans_le (h.size ▸ hl)
      unfold maxObjects at hlm
      omega
  · exact (((grow_wraps hB hB64 hm hwrap henv h hl (h.size ▸ hlt) hvalue).allow
      fun hU => ⟨hlt, hU⟩).weaken fun _ _ => trivial).mono fun _ _ _ => False.elim

/-- `resize` ends in a sized vector, if it ends at all. It is undefined only if the size wraps
around and is more than that of the vector, whose blocks together fit into memory. -/
theorem Sized.resize (hB : 0 < B) (hB64 : B < 2 ^ 64) (hm : m < 2 ^ 64)
    (henv : ∀ k r, maxObjects < r → env k r = true) (h : Sized B s) :
    (resize B m (.value x)).Meets env n s (fun _ _ s' => Sized B s') (fun _ => True)
      (2 ^ 64 ≤ m + B - 1 ∧ s.totalSize < m ∧ s.blocks.length * B ≤ maxObjects) := by
  cases h with
  | holds l h hl =>
    rcases Nat.lt_or_ge (m + B - 1) (2 ^ 64) with hwrap | hwrap
    · refine (((resize_meets hB henv hwrap h hl .value ?_).allow False.elim).weaken
        fun _ _ => trivial).mono fun _ _ _ h' => .holds _ h'.1 ?_
      · intro _ offset hslot
        cases hslot
      · rw [length_vectorResize]
        exact h'.2
    · exact (resize_wraps hB hB64 hm hwrap henv h hl .value).allow fun hU => ⟨hwrap, hU⟩
  | bare hs hsize hB63 =>
    refine resize_parts (fun _ => .bare hs hsize hB63) (fun hlt => ?_) fun hlt => ?_
    · refine ((shrink_bare hs).allow False.elim).mono fun _ _ _ hs' => ?_
      obtain ⟨hs', hsize'⟩ := hs'
      exact .bare hs' (hsize' ▸ hlt.le.trans hsize) hB63
    · rcases Nat.lt_or_ge (m + B - 1) (2 ^ 64) with hwrap | hwrap
      · refine ((grow_bare hB63 hwrap henv hs hlt).allow False.elim).mono fun _ _ _ hs' => ?_
        obtain ⟨h', hm'⟩ := hs'
        refine .holds _ h' ?_
        rwa [List.length_replicate]
      · refine (((grow_bare_wraps hB64 hm hwrap hs hlt).allow fun _ => ⟨hwrap, hlt, ?_⟩).weaken
          fun _ => False.elim).mono fun _ _ _ => False.elim
        rw [hs, List.length_nil, Nat.zero_mul]
        exact Nat.zero_le _

/-- A vector without blocks gets no element: the memory for the elements of a block is refused. -/
theorem append_bare {read : ChunkedVector T → Option T}
    (henv : ∀ k r, maxObjects < r → env k r = true) (hs : s.blocks = []) (hB : 2 ^ 63 < B) :
    (append B read).Meets env n s (fun _ _ _ => False) (fun _ => True) True := by
  have hfull : s.BackFull B := by
    unfold BackFull
    rw [hs]
    trivial
  rw [append, meets_bind, ensureBackBlock, meets_bind, meets_get, if_pos hfull, meets_bind,
    meets_attempt_some]
  refine ⟨fun _ => trivial, fun _ => ?_⟩
  rw [meets_attempt_some]
  refine ⟨fun _ => trivial, fun hgranted => ?_⟩
  have hle := le_maxObjects henv hgranted
  unfold maxObjects at hle
  omega

/-- Any call ends in a sized vector, if it ends at all. -/
theorem Sized.call {c : Call T} (hB : 0 < B) (hB64 : B < 2 ^ 64)
    (henv : ∀ k r, maxObjects < r → env k r = true) (hc : c.InRange) (h : Sized B s) :
    (call B c).Meets env n s (fun _ _ s' => Sized B s') (fun _ => True) True := by
  cases h with
  | holds l h hl =>
    have hfits : c.Fits B → (ChunkedVector.call B c).Meets env n s (fun _ _ s' => Sized B s')
        (fun _ => True) True := by
      intro hfits
      refine (call_holds hB henv hfits h hl).mono fun _ _ s' h' => ?_
      obtain ⟨l', h', hl'⟩ := h'
      exact .holds l' h' hl'
    cases c with
    | pushBack _ | pushBackMove _ | emplaceBack _ _ | popBack | clear => exact hfits trivial
    | resize m a =>
      rcases Nat.lt_or_ge (m + B - 1) (2 ^ 64) with hwrap | hwrap
      · exact hfits hwrap
      · cases ha : a.get l with
        | none =>
          rw [ChunkedVector.call, meets_bind,
            meets_act_none (by rw [h.refer_eq_none hB ha]; rfl)]
          trivial
        | some x =>
          obtain ⟨r, hr, hrefers⟩ := h.refer hB ha
          rw [ChunkedVector.call, meets_bind, meets_act (by rw [hr]; rfl)]
          exact (resize_wraps hB hB64 hc hwrap henv h hl hrefers).allow fun _ => trivial
  | bare hs hsize hB63 =>
    have hpush : ∀ {read : ChunkedVector T → Option T}, (append B read).Meets env n s
        (fun _ _ s' => Sized B s') (fun _ => True) True :=
      (append_bare henv hs hB63).mono fun _ _ _ => False.elim
    cases c with
    | pushBack a =>
      cases hr : s.refer B a with
      | none =>
        rw [ChunkedVector.call, meets_bind, meets_act_none (by rw [hr]; rfl)]
        trivial
      | some r =>
        rw [ChunkedVector.call, meets_bind, meets_act (by rw [hr]; rfl)]
        exact hpush
    | pushBackMove v => exact hpush
    | emplaceBack make args =>
      cases hrs : args.mapM (s.refer B) with
      | none =>
        rw [ChunkedVector.call, meets_bind, meets_act_none (by rw [hrs]; rfl)]
        trivial
      | some rs =>
        rw [ChunkedVector.call, meets_bind, meets_act (by rw [hrs]; rfl)]
        exact hpush
    | clear =>
      exact ((clear_meets hB).allow False.elim).mono fun _ _ _ h' => .holds [] h' (Nat.zero_le _)
    | popBack =>
      change popBack.Meets _ _ _ _ _ _
      rw [popBack, meets_bind, meets_get]
      split
      · exact .bare hs hsize hB63
      · rw [meets_bind, meets_modify_none (by rw [hs]; rfl)]
        trivial
    | resize m a =>
      cases a with
      | value x =>
        rw [ChunkedVector.call, meets_bind, meets_act rfl]
        exact ((Sized.bare hs hsize hB63).resize hB hB64 hc henv).allow fun _ => trivial
      | element i =>
        have hr : s.refer B (.element i) = none := by
          rw [refer, subscript, hs]
          split
          · rfl
          · rfl
        rw [ChunkedVector.call, meets_bind, meets_act_none (by rw [hr]; rfl)]
        trivial

/-- So do any calls, one after another. -/
theorem run_sized {calls : List (Call T)} (hB : 0 < B) (hB64 : B < 2 ^ 64)
    (henv : ∀ k r, maxObjects < r → env k r = true) :
    ∀ {n : ℕ} {s : ChunkedVector T}, (∀ c ∈ calls, c.InRange) → Sized B s →
      (run B calls).Meets env n s (fun _ _ s' => Sized B s') (fun _ => True) True := by
  induction calls with
  | nil =>
    intro n s _ h
    exact h
  | cons c calls ih =>
    intro n s hc h
    rw [run, runAll, meets_bind]
    exact (h.call hB hB64 henv (hc c List.mem_cons_self)).mono fun _ _ s' h' =>
      ih (fun c' hc' => hc c' (List.mem_cons_of_mem _ hc')) h'

/-- A vector that calls have reached is sized. -/
theorem ReachedByCalls.sized (hB : 0 < B) (hB64 : B < 2 ^ 64) (hr : ReachedByCalls B s) :
    Sized B s := by
  obtain ⟨env, calls, n, henv, hc, hrun⟩ := hr
  exact (run_sized hB hB64 henv hc (.holds [] (.empty hB) (Nat.zero_le _))).ok hrun

/-- `resize` uses no block that is not there and its loop ends, unless an exception ends it. -/
def ResizesInBounds (B m : ℕ) (x : T) (s : ChunkedVector T) : Prop :=
  ∀ (env : Environment) (n : ℕ), (∀ k r, maxObjects < r → env k r = true) →
    resize B m (.value x) env n s ≠ .undefined

/-- `resize` of a vector that calls have reached keeps to its blocks if and only if the sum that
rounds up to the number of blocks does not wrap around, the vector does not grow, or its blocks
are too large to be filled. -/
theorem resize_inBounds_iff (hB : 0 < B) (hB64 : B < 2 ^ 64) (hm : m < 2 ^ 64)
    (hr : ReachedByCalls B s) :
    ResizesInBounds B m x s ↔
      m + B - 1 < 2 ^ 64 ∨ m ≤ s.totalSize ∨ maxObjects < s.blocks.length * B := by
  have hs := hr.sized hB hB64
  constructor
  · intro hin
    by_contra hnot
    simp only [not_or, Nat.not_lt, Nat.not_le] at hnot
    obtain ⟨hwrap, hlt, hroom⟩ := hnot
    -- memory is refused only where it has to be
    set env : Environment := fun _ r => decide (maxObjects < r)
    have henv : ∀ k r, maxObjects < r → env k r = true := fun _ _ hr => decide_eq_true hr
    have hnever : ¬Refuses env maxObjects := by
      rintro ⟨k, r, hrefused, hle⟩
      exact Nat.not_lt.2 hle (of_decide_eq_true hrefused)
    refine hin env 0 henv (Meets.eq_undefined (U := True) ?_)
    refine resize_parts (fun h => absurd h (Nat.ne_of_gt hlt))
      (fun h => absurd h (Nat.lt_asymm hlt)) fun _ => ?_
    cases hs with
    | holds l h hl =>
      refine ((grow_wraps hB hB64 hm hwrap henv h hl (h.size ▸ hlt) .value).allow
        fun _ => trivial).weaken fun _ hE => hE.elim (Nat.not_lt.2 hroom) hnever
    | bare hs' hsize hB63 => exact grow_bare_wraps hB64 hm hwrap hs' hlt
  · intro hcond env n henv hundef
    obtain ⟨hwrap, hlt, hroom⟩ := (hs.resize hB hB64 hm henv).undefined hundef
    omega

end

/-- A vector with one full block can grow to five elements. -/
theorem resize_inBounds_iff_two : ResizesInBounds 2 5 7 (⟨[[1, 2]], 2, [2]⟩ : ChunkedVector ℕ) := by
  have hr : ReachedByCalls 2 (⟨[[1, 2]], 2, [2]⟩ : ChunkedVector ℕ) := by
    refine ⟨fun _ r => decide (100 < r), [.pushBack (.value 1), .pushBack (.value 2)], 4,
      fun k r hr => ?_, ?_, ?_⟩
    · exact decide_eq_true (Nat.lt_trans (by decide) hr)
    · simp [Call.InRange]
    · decide +kernel
  exact (resize_inBounds_iff (by decide) (by decide) (by decide) hr).2 (.inl (by decide))

/-- An empty vector that is to have one element less gets no block and fills the first one. -/
theorem not_resizesInBounds_empty :
    ReachedByCalls 1024 ({} : ChunkedVector ℕ) ∧
      ¬ResizesInBounds 1024 (2 ^ 64 - 1) 0 ({} : ChunkedVector ℕ) := by
  have henv : ∀ k r, maxObjects < r →
    (fun _ r => decide (maxObjects < r) : Environment) k r = true :=
    fun _ _ hr => decide_eq_true hr
  have hundef : resize 1024 (2 ^ 64 - 1) (.value 0) (fun _ r => decide (maxObjects < r)) 0
      ({} : ChunkedVector ℕ) = .undefined := by
    decide +kernel
  exact ⟨⟨_, [], 0, henv, by simp, rfl⟩, fun hin => hin _ 0 henv hundef⟩

end ChunkedVector

end RockCoro
