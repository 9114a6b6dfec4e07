import RockCoro.BasicStruct.ChunkedVector.Basic
import RockCoro.Lib.Blocks

/-!
# `ChunkedVector` as a list

A vector that holds `l` has the blocks of `l` (`Holds`). One lemma for each call says that it keeps
to this, when it can throw, and that it is never undefined; `resize` passes through vectors with
blocks that are still to be filled (`Filled`). `run_shows` is about every sequence of calls.
-/

namespace RockCoro

/-! ## The vector and its list -/

namespace ChunkedVector

open Fallible Blocks

section
variable {T : Type} [CapacityPolicy] {B n : ℕ} {s s' : ChunkedVector T} {l : List T}
  {env : Environment}

/-- The vector holds `l`. -/
structure Holds (B : ℕ) (s : ChunkedVector T) (l : List T) : Prop where
  size : s.totalSize = l.length
  blocks : s.blocks = split B l ((l.length + B - 1) / B)

/-- The environment refuses a step that needs memory for at most `r` objects. -/
def Refuses (env : Environment) (r : ℕ) : Prop := ∃ k r', env k r' = true ∧ r' ≤ r

omit [CapacityPolicy] in
/-- The blocks of a list have its elements. -/
theorem objects_split {c : ℕ} (hs : s.blocks = split B l c) (h : l.length ≤ c * B) :
    s.objects = l.length := by
  rw [objects, hs, ← List.length_flatten, flatten_split, List.take_of_length_le h]

/-- A block is changed in its place. -/
theorem setBlock_eq {i : ℕ} {b : List T} (f : List T → List T) (hb : s.blocks[i]? = some b) :
    ∃ s', s.setBlock i f = some s' ∧ s'.blocks = s.blocks.set i (f b) ∧
      s'.totalSize = s.totalSize := by
  rw [setBlock, hb, Option.map_some]
  exact ⟨_, rfl, rfl, rfl⟩

/-- The block in which the list ends is the last one. -/
theorem setBack_append {c : ℕ} (hc : s.blocks = split B l c) (hB : 0 < B)
    (hlast : l.length / B + 1 = c) (v : T) :
    ∃ s', s.setBack (· ++ [v]) = some s' ∧ s'.blocks = split B (l ++ [v]) c ∧
      s'.totalSize = s.totalSize := by
  have hlen : s.blocks.length = c := by rw [hc, length_split]
  have hne : s.blocks ≠ [] := by
    rintro hnil
    rw [hnil] at hlen
    cases hlen.trans hlast.symm
  have hq : c - 1 = l.length / B := Nat.sub_eq_of_eq_add hlast.symm
  have hlt : l.length / B < c := hlast ▸ Nat.lt_succ_self _
  have hb : s.blocks[l.length / B]? = some (block B l (l.length / B)) := by
    rw [hc, getElem?_split, if_pos hlt]
  obtain ⟨s', hset, hblocks, hsize⟩ := setBlock_eq (· ++ [v]) hb
  refine ⟨s', ?_, ?_, hsize⟩
  · rw [setBack, if_neg hne, hlen, hq, hset]
  · rw [hblocks, hc, set_split_append (Nat.mod_lt l.length hB) hlt]

omit [CapacityPolicy] in
/-- The last block is full where the list ends at the end of a block. -/
theorem Holds.backFull_iff (h : Holds B s l) (hB : 0 < B) :
    s.BackFull B ↔ l.length % B = 0 := by
  have hdiv := Nat.div_add_mod l.length B
  rw [Nat.mul_comm] at hdiv
  have hmod := Nat.mod_lt l.length hB
  have hle := le_blockCount_mul (n := l.length) hB
  unfold BackFull
  rw [List.getLast?_eq_getElem?, h.blocks, length_split]
  cases hc : (l.length + B - 1) / B with
  | zero =>
    rw [hc, Nat.zero_mul] at hle
    have h0 : l.length % B = 0 := Nat.eq_zero_of_le_zero ((Nat.mod_le _ _).trans hle)
    simp [split, h0]
  | succ q =>
    rw [Nat.add_sub_cancel, getElem?_split, if_pos (Nat.lt_succ_self q)]
    change (block B l q).length = B ↔ _
    have hlt := (lt_blockCount (n := l.length) (i := q) hB).1 (by omega)
    rw [hc, Nat.succ_mul] at hle
    rw [length_block]
    constructor
    · intro hfull
      have heq : l.length = (q + 1) * B := by
        rw [Nat.succ_mul]
        omega
      rw [heq, Nat.mul_mod_left]
    · intro h0
      have hq := blockCount_eq hB l.length
      rw [if_pos h0, hc] at hq
      rw [h0, ← hq, Nat.succ_mul] at hdiv
      omega

/-- `reserve` changes a capacity only. -/
theorem reserveBack_same (s : ChunkedVector T) (k : ℕ) :
    (s.reserveBack k).blocks = s.blocks ∧ (s.reserveBack k).totalSize = s.totalSize := by
  rw [reserveBack]
  split
  · exact ⟨rfl, rfl⟩
  · exact ⟨rfl, rfl⟩

/-! ## The calls, one by one -/

/-- What `push_back` leaves behind when a step throws: the vector as it was, if it is the first
step, and else a block too many. -/
def Harmed (s s' : ChunkedVector T) : Prop :=
  s'.totalSize = s.totalSize ∧ (s.blocks.length < s'.blocks.length ∨ s.objects < s'.objects)

/-- After the first step of a call, with number `n`, threw or a later one did. -/
def Thrown (env : Environment) (n : ℕ) (s s' : ChunkedVector T) : Prop :=
  s' = s ∧ (∃ r, env n r = true) ∨ Harmed s s' ∧ ∃ r, env n r = false

/-- What `read` answers in a vector that has the elements `l` in its blocks. -/
def Yields {α : Type} (B : ℕ) (l : List T) (read : ChunkedVector T → Option α) (v : α) : Prop :=
  ∀ (s : ChunkedVector T) (c : ℕ), s.blocks = split B l c → l.length ≤ c * B → read s = some v

/-- The last two steps of `push_back`, once the last block has room: the element is appended. -/
theorem pushLast_meets {read : ChunkedVector T → Option T} {v : T} {E : ChunkedVector T → Prop}
    (hB : 0 < B) (hread : Yields B l read v) (hsize : s.totalSize = l.length)
    (hblocks : s.blocks = split B l (l.length / B + 1)) (hE : env n (l.length + 1) = true → E s) :
    Meets (do
      attempt fun s => do
        let v ← read s
        let s' ← s.setBack (· ++ [v])
        some (holding s')
      modify fun s => some { s with totalSize := s.totalSize + 1 }) env n s
      (fun _ _ s' => Holds B s' (l ++ [v]) ∧ ∃ k, env k (l.length + 1) = false) E False := by
  have hdiv := Nat.div_add_mod l.length B
  rw [Nat.mul_comm] at hdiv
  have hmod := Nat.mod_lt l.length hB
  obtain ⟨s₂, hback, hblocks₂, hsize₂⟩ := setBack_append hblocks hB rfl v
  have hroom : l.length + 1 ≤ (l.length / B + 1) * B := by
    rw [Nat.succ_mul]
    omega
  have hobj : s₂.objects = l.length + 1 := by
    rw [objects_split hblocks₂ (by rwa [List.length_append]), List.length_append]
    rfl
  have hset : (do
      let v ← read s
      let s' ← s.setBack (· ++ [v])
      some (holding s')) = some (l.length + 1, s₂) := by
    refine Option.bind_eq_some_iff.2 ⟨v, hread s _ hblocks (Nat.le_of_succ_le hroom), ?_⟩
    refine Option.bind_eq_some_iff.2 ⟨s₂, hback, ?_⟩
    rw [holding, hobj]
  rw [meets_bind, meets_attempt hset]
  refine ⟨hE, fun hgranted => ?_⟩
  rw [meets_modify_some]
  refine ⟨⟨?_, ?_⟩, n, hgranted⟩
  · change s₂.totalSize + 1 = (l ++ [v]).length
    rw [hsize₂, hsize, List.length_append, List.length_singleton]
  · change s₂.blocks = _
    rw [hblocks₂, blockCount_concat hB]

/-- An element is appended, in one step if the last block has room and in three if not. -/
theorem append_meets {read : ChunkedVector T → Option T} {v : T} (hB : 0 < B) (h : Holds B s l)
    (hread : Yields B l read v) :
    (append B read).Meets env n s
      (fun _ _ s' => Holds B s' (l ++ [v]) ∧ ∃ k, env k (l.length + 1) = false)
      (fun s' => Refuses env (l.length + 1 + B) ∧ Thrown env n s s') False := by
  have hcount := blockCount_eq hB l.length
  rw [append, meets_bind, ensureBackBlock, meets_bind, meets_get]
  split
  · rename_i hfull
    have h0 := (h.backFull_iff hB).1 hfull
    rw [if_pos h0] at hcount
    have hgrown : s.blocks ++ [[]] = split B l (l.length / B + 1) := by
      have hdiv := Nat.div_add_mod l.length B
      rw [Nat.mul_comm] at hdiv
      have hpad := split_pad (B := B) (l := l) (c := l.length / B) (d := l.length / B + 1)
        (by omega) (Nat.le_succ _)
      rw [h.blocks, hcount, ← hpad, Nat.add_sub_cancel_left]
      rfl
    have hlen : s.blocks.length = l.length / B := by
      rw [h.blocks, length_split, hcount]
    have hdivle : l.length / B ≤ l.length := Nat.div_le_self ..
    rw [meets_bind, meets_attempt_some]
    refine ⟨fun hrefused => ⟨⟨n, _, hrefused, by omega⟩, .inl ⟨rfl, _, hrefused⟩⟩,
      fun hgranted => ?_⟩
    have hharmed : ∀ {s₁ : ChunkedVector T}, s₁.totalSize = s.totalSize →
        s₁.blocks = s.blocks ++ [[]] → Thrown env n s s₁ := by
      intro s₁ hsize₁ hblocks₁
      refine .inr ⟨⟨hsize₁, .inl ?_⟩, _, hgranted⟩
      rw [hblocks₁, List.length_append]
      exact Nat.lt_succ_self _
    rw [meets_attempt_some]
    refine ⟨fun hrefused => ⟨⟨n + 1, _, hrefused, Nat.le_add_left ..⟩, hharmed rfl rfl⟩,
      fun _ => ?_⟩
    have hreserved := reserveBack_same
      { s with blocks := s.blocks ++ [[]], capacities := s.capacities ++ [0] } B
    exact pushLast_meets hB hread (hreserved.2.trans h.size) (hreserved.1.trans hgrown)
      fun hrefused => ⟨⟨_, _, hrefused, Nat.le_add_right ..⟩, hharmed hreserved.2 hreserved.1⟩
  · rename_i hroom
    have h0 : ¬l.length % B = 0 := fun h0 => hroom ((h.backFull_iff hB).2 h0)
    rw [if_neg h0] at hcount
    rw [meets_pure]
    exact pushLast_meets hB hread h.size (hcount ▸ h.blocks)
      fun hrefused => ⟨⟨n, _, hrefused, Nat.le_add_right ..⟩, .inl ⟨rfl, _, hrefused⟩⟩

/-- Without its last element the list ends in the block that held it. -/
theorem setBack_dropLast {v : T} (hB : 0 < B) (h : Holds B s (l ++ [v])) :
    (∃ x xs, s.blocks.getLast? = some (x :: xs)) ∧
      ∃ s', s.setBack List.dropLast = some s' ∧ s'.blocks = split B l (l.length / B + 1) ∧
        s'.totalSize = s.totalSize := by
  have hmod := Nat.mod_lt l.length hB
  -- the blocks are those of `l` with `v` added to the last one
  have hblocks : s.blocks = (split B l (l.length / B + 1)).set (l.length / B)
      (block B l (l.length / B) ++ [v]) := by
    rw [h.blocks, blockCount_concat hB, set_split_append hmod (Nat.lt_succ_self _)]
  have hlen : s.blocks.length = l.length / B + 1 := by
    rw [hblocks, List.length_set, length_split]
  have hlast : s.blocks[l.length / B]? = some (block B l (l.length / B) ++ [v]) := by
    rw [hblocks, List.getElem?_set_self (by rw [length_split]; exact Nat.lt_succ_self _)]
  have hne : s.blocks ≠ [] := List.ne_nil_of_length_pos (hlen ▸ Nat.succ_pos _)
  refine ⟨?_, ?_⟩
  · obtain ⟨x, xs, hx⟩ := List.exists_cons_of_ne_nil
      (List.append_ne_nil_of_right_ne_nil (block B l (l.length / B)) (List.cons_ne_nil v []))
    refine ⟨x, xs, ?_⟩
    rw [List.getLast?_eq_getElem?, hlen, Nat.add_sub_cancel, hlast, hx]
  · obtain ⟨s', hset, hblocks', hsize⟩ := setBlock_eq List.dropLast hlast
    refine ⟨s', ?_, ?_, hsize⟩
    · rw [setBack, if_neg hne, hlen, Nat.add_sub_cancel, hset]
    · rw [hblocks', List.dropLast_concat, hblocks, List.set_set,
        ← List.append_nil (block B l _), set_split_append, List.append_nil]
      · exact hmod.le
      · exact Nat.lt_succ_self _

/-- `pop_back` takes the last element, if there is one. -/
theorem popBack_meets (hB : 0 < B) (h : Holds B s l) {E : ChunkedVector T → Prop} :
    popBack.Meets env n s (fun _ _ s' => Holds B s' l.dropLast) E False := by
  rw [popBack, meets_bind, meets_get]
  rcases List.eq_nil_or_concat l with rfl | ⟨l, v, rfl⟩
  · have h0 : s.totalSize = 0 := h.size
    rw [if_pos h0]
    exact h
  · rw [List.concat_eq_append] at *
    obtain ⟨⟨x, xs, hlast⟩, s₁, hback, hblocks₁, hsize₁⟩ := setBack_dropLast hB h
    have hne : s.totalSize ≠ 0 := by
      rw [h.size, List.length_append]
      exact Nat.succ_ne_zero _
    rw [if_neg hne, meets_bind, meets_modify (by rw [hlast]; exact hback), meets_bind,
      meets_modify_some, meets_modify_some, List.dropLast_concat]
    have hsize : s₁.totalSize - 1 = l.length := by
      rw [hsize₁, h.size, List.length_append]
      exact Nat.add_sub_cancel ..
    have hlength : (block B l (l.length / B)).length = l.length % B := by
      have hdiv := Nat.div_add_mod l.length B
      rw [Nat.mul_comm] at hdiv
      have hmod := Nat.mod_lt l.length hB
      rw [length_block]
      omega
    have hcount := blockCount_eq hB l.length
    have hlast' : (split B l (l.length / B + 1)).getLast? = some (block B l (l.length / B)) := by
      rw [List.getLast?_eq_getElem?, length_split, Nat.add_sub_cancel, getElem?_split,
        if_pos (Nat.lt_succ_self _)]
    cases hb : block B l (l.length / B) with
    | nil =>
      rw [hb] at hlast' hlength
      rw [← hlength, List.length_nil, if_pos rfl] at hcount
      simp only [hblocks₁, hlast']
      refine ⟨hsize, ?_⟩
      rw [hcount, List.dropLast_eq_take, length_split, Nat.add_sub_cancel, take_split,
        Nat.min_eq_left (Nat.le_succ _)]
    | cons y ys =>
      rw [hb] at hlast' hlength
      rw [← hlength, List.length_cons, if_neg (Nat.succ_ne_zero _)] at hcount
      simp only [hblocks₁, hlast']
      refine ⟨hsize, ?_⟩
      rw [hcount]

omit [CapacityPolicy] in
/-- `clear` leaves nothing. -/
theorem clear_meets {E : ChunkedVector T → Prop} (hB : 0 < B) :
    clear.Meets env n s (fun _ _ s' => Holds B s' []) E False := by
  rw [clear, meets_modify_some]
  refine ⟨rfl, ?_⟩
  rw [List.length_nil, Nat.zero_add, Nat.div_eq_of_lt (Nat.sub_lt hB Nat.one_pos)]
  rfl

omit [CapacityPolicy] in
/-- The blocks of a prefix: the block in which it ends is cut, and those after it are dropped. -/
theorem take_set_split {m c : ℕ} (hB : 0 < B) (hc : (m + B - 1) / B ≤ c) :
    ((split B l c).set (m / B) ((block B l (m / B)).take (m % B))).take ((m + B - 1) / B) =
      split B (l.take m) ((m + B - 1) / B) := by
  have hdiv := Nat.div_add_mod m B
  rw [Nat.mul_comm] at hdiv
  have hmod := Nat.mod_lt m hB
  refine List.ext_getElem? fun i => ?_
  rw [List.getElem?_take, List.getElem?_set, getElem?_split, getElem?_split, length_split]
  split
  · rename_i hi
    have hlt := (lt_blockCount hB).1 hi
    have hblock : block B (l.take m) i = ((l.drop (i * B)).take (m - i * B)).take B := by
      rw [block, List.drop_take]
    split
    · rename_i heq
      subst heq
      have hrest : m - m / B * B = m % B := by omega
      rw [if_pos (hi.trans_le hc), hblock, block, List.take_take, List.take_take, hrest,
        Nat.min_comm]
    · rename_i hne
      have hle : i + 1 ≤ m / B := by
        refine Nat.lt_of_le_of_ne ?_ (Ne.symm hne)
        exact (Nat.le_div_iff_mul_le hB).2 hlt.le
      have hmul := Nat.mul_le_mul_right B hle
      rw [Nat.succ_mul] at hmul
      have hrest : B ≤ m - i * B := by omega
      rw [if_pos (hi.trans_le hc), hblock, block, List.take_take, Nat.min_eq_left hrest]
  · rfl

/-- `resize` to a smaller size keeps a prefix. -/
theorem shrink_meets {m : ℕ} (hB : 0 < B) (h : Holds B s l) (hm : m < l.length)
    (hwrap : m + B - 1 < 2 ^ 64) {E : ChunkedVector T → Prop} :
    (shrink B m).Meets env n s (fun _ _ s' => Holds B s' (l.take m)) E False := by
  have hle : (m + B - 1) / B ≤ (l.length + B - 1) / B := Nat.div_le_div_right (by omega)
  have hlt : m / B < (l.length + B - 1) / B := by
    refine (lt_blockCount hB).2 ?_
    exact (Nat.div_mul_le_self m B).trans_lt hm
  have hlen : s.blocks.length = (l.length + B - 1) / B := by rw [h.blocks, length_split]
  have hne : s.blocks ≠ [] := List.ne_nil_of_length_pos (hlen ▸ Nat.zero_lt_of_lt hlt)
  have hb : s.blocks[m / B]? = some (block B l (m / B)) := by
    rw [h.blocks, getElem?_split, if_pos hlt]
  obtain ⟨s₁, hcut, hblocks₁, -⟩ := setBlock_eq (List.take (m % B)) hb
  rw [shrink, meets_bind, meets_get, if_neg hne, meets_bind, meets_modify hcut, meets_bind,
    meets_modify_some, meets_modify_some]
  refine ⟨?_, ?_⟩
  · rw [List.length_take, Nat.min_eq_left hm.le]
  · change s₁.blocks.take _ = _
    rw [hblocks₁, h.blocks, newBlockCount, Nat.mod_eq_of_lt hwrap, take_set_split hB hle,
      List.length_take, Nat.min_eq_left hm.le]

/-! ## The part of `resize` that grows -/

/-- No environment grants more objects than pointers of one array can be apart. -/
def maxObjects : ℕ := 2 ^ 63 - 1

omit [CapacityPolicy] in
/-- What was granted is no more than that. -/
theorem le_maxObjects {k r : ℕ} (henv : ∀ k r, maxObjects < r → env k r = true)
    (hgranted : env k r = false) : r ≤ maxObjects := by
  refine Nat.not_lt.1 fun hlt => ?_
  rw [henv k r hlt] at hgranted
  cases hgranted

omit [CapacityPolicy] in
/-- A resized list has the size that was asked for. -/
theorem length_vectorResize {b : List T} {m : ℕ} {x : T} : (vectorResize b m x).length = m := by
  rw [vectorResize, List.length_append, List.length_take, List.length_replicate]
  omega

/-- The reference is to `x`, an object that is not in the vector or an element of `l`. -/
inductive RefersTo (B : ℕ) (l : List T) (x : T) : Ref T → Prop
  | value : RefersTo B l x (.value x)
  | slot {i : ℕ} (hi : l[i]? = some x) : RefersTo B l x (.slot (i / B) (i % B))

omit [CapacityPolicy] in
/-- An element stays where it is when others come behind. -/
theorem RefersTo.append {x : T} {value : Ref T} (h : RefersTo B l x value) (ys : List T) :
    RefersTo B (l ++ ys) x value := by
  cases h with
  | value => exact .value
  | slot hi =>
    refine .slot ?_
    rw [List.getElem?_append_left (List.getElem?_eq_some_iff.1 hi).1, hi]

omit [CapacityPolicy] in
/-- The element is in its block. -/
theorem RefersTo.load {x : T} {value : Ref T} {c : ℕ} (hB : 0 < B) (h : RefersTo B l x value)
    (hs : s.blocks = split B l c) (hc : l.length ≤ c * B) : s.load value = some x := by
  cases h with
  | value => rfl
  | @slot i hi =>
    have hlt := (List.getElem?_eq_some_iff.1 hi).1
    have hblock : i / B < c := (Nat.div_lt_iff_lt_mul hB).2 (hlt.trans_le hc)
    have hb : s.blocks[i / B]? = some (block B l (i / B)) := by
      rw [hs, getElem?_split, if_pos hblock]
    refine Option.bind_eq_some_iff.2 ⟨_, hb, ?_⟩
    rw [getElem?_block (Nat.mod_lt i hB), Nat.mul_comm, Nat.div_add_mod, hi]

/-- The element is in a block that comes before the one in which `l` ends. -/
structure Settled (B : ℕ) (l : List T) (x : T) (value : Ref T) : Prop where
  refers : RefersTo B l x value
  before : ∀ block offset, value = .slot block offset → block < l.length / B

omit [CapacityPolicy] in
/-- A block that comes after that of the element gets other storage. -/
theorem Settled.moved {x : T} {value : Ref T} (h : Settled B l x value) :
    value.moved (l.length / B) = value := by
  cases value with
  | value _ => rfl
  | slot b o => exact if_neg (Nat.ne_of_lt (h.before b o rfl))
  | dangling => rfl

omit [CapacityPolicy] in
/-- An element that is settled stays so. -/
theorem Settled.append {x : T} {value : Ref T} (h : Settled B l x value) (ys : List T) :
    Settled B (l ++ ys) x value := by
  refine ⟨h.refers.append ys, fun b o hb => (h.before b o hb).trans_le ?_⟩
  rw [List.length_append]
  exact Nat.div_le_div_right (Nat.le_add_right ..)

/-- `resize` has filled the vector up to `l`, on the way to `target`. -/
structure Filled (B m : ℕ) (x : T) (target : List T) (s : ChunkedVector T) (l : List T) :
    Prop where
  blocks : s.blocks = split B l ((m + B - 1) / B)
  le : l.length ≤ m
  target : vectorResize l m x = target

omit [CapacityPolicy] in
/-- All positions of the new size are in the blocks. -/
theorem Filled.le_blocks {m : ℕ} {x : T} {target : List T} (hB : 0 < B)
    (h : Filled B m x target s l) : l.length ≤ (m + B - 1) / B * B :=
  h.le.trans (le_blockCount_mul hB)

omit [CapacityPolicy] in
/-- The target is reached. -/
theorem Filled.eq_target {m : ℕ} {x : T} {target : List T} (h : Filled B m x target s l)
    (hm : l.length = m) : l = target := by
  rw [← h.target, vectorResize, hm, Nat.sub_self, List.replicate_zero, List.append_nil,
    List.take_of_length_le hm.le]

/-- What `std::vector::resize` does to a block that gets longer. -/
theorem resizeBlock_meets {i k : ℕ} {b : List T} {value : Ref T}
    {Q : Ref T → ℕ → ChunkedVector T → Prop} {E : ChunkedVector T → Prop} {U : Prop}
    (hb : s.blocks[i]? = some b) (hk : b.length < k)
    (hrefused : env n (s.objects + (k - b.length)) = true → E s)
    (hgranted : env n (s.objects + (k - b.length)) = false →
      match s.load value with
      | some x => ∀ s', s.setBlock i (vectorResize · k x) = some s' →
        Q (if k ≤ s.capacity i then value else value.moved i) (n + 1) s'
      | none => U) : (resizeBlock i k value).Meets env n s Q E U := by
  have hact : s.blocks[i]?.map (·, s) = some (b, s) := by rw [hb, Option.map_some]
  rw [resizeBlock, meets_bind, meets_get, meets_bind, meets_act hact, if_pos hk, meets_bind,
    meets_attempt_some]
  refine ⟨hrefused, fun henv => ?_⟩
  have hthen := hgranted henv
  rw [meets_bind]
  cases hx : s.load value with
  | none =>
    rw [hx] at hthen
    exact (meets_modify_none (by rw [hx]; rfl)).2 hthen
  | some x =>
    rw [hx] at hthen
    obtain ⟨s', hset, -⟩ := setBlock_eq (vectorResize · k x) hb
    exact (meets_modify (by rw [hx]; exact hset)).2 (hthen s' hset)

/-- What `std::vector::resize` does to a block, whatever its size is. -/
structure Resized (i k : ℕ) (s s' : ChunkedVector T) (b b' : List T) : Prop where
  block : s.blocks[i]? = some b
  blocks : s'.blocks = s.blocks.set i b'
  size : s'.totalSize = s.totalSize
  longer : b.length < k → b'.length = k
  shorter : k ≤ b.length → b' = b.take k

/-- It throws in the state before it, or the block is resized. -/
theorem resizeBlock_resized {i k : ℕ} {value : Ref T} :
    (resizeBlock i k value).Meets env n s
      (fun _ _ s' => ∃ b b', Resized i k s s' b b' ∧ (b.length < k → ∃ r, env n r = false))
      (fun s' => s' = s ∧ ∃ r, env n r = true) True := by
  cases hb : s.blocks[i]? with
  | none =>
    rw [resizeBlock, meets_bind, meets_get, meets_bind, meets_act_none (by rw [hb]; rfl)]
    trivial
  | some b =>
    rcases Nat.lt_or_ge b.length k with hk | hk
    · refine resizeBlock_meets hb hk (fun henv => ⟨rfl, _, henv⟩) fun henv => ?_
      cases s.load value with
      | none => trivial
      | some x =>
        intro s' hset
        obtain ⟨s₁, hset₁, hblocks, hsize⟩ := setBlock_eq (vectorResize · k x) hb
        cases hset.symm.trans hset₁
        exact ⟨b, vectorResize b k x, ⟨hb, hblocks, hsize, fun _ => length_vectorResize,
          fun hle => absurd hk (Nat.not_lt.2 hle)⟩, fun _ => ⟨_, henv⟩⟩
    · obtain ⟨s', hset, hblocks, hsize⟩ := setBlock_eq (List.take k) hb
      rw [resizeBlock, meets_bind, meets_get, meets_bind, meets_act (by rw [hb]; rfl),
        if_neg (Nat.not_lt.2 hk), meets_bind, meets_modify hset]
      exact ⟨b, b.take k, ⟨hb, hblocks, hsize, fun hlt => absurd hlt (Nat.not_lt.2 hk),
        fun _ => rfl⟩, fun hlt => absurd hlt (Nat.not_lt.2 hk)⟩

/-- `r` more elements in the block in which the list ends. -/
theorem Filled.resizeBlock {m r k : ℕ} {x : T} {target : List T} {value : Ref T} (hB : 0 < B)
    (h : Filled B m x target s l) (hpos : 0 < r) (hr : l.length % B + r = k) (hk : k ≤ B)
    (hm : l.length + r ≤ m) (hvalue : RefersTo B l x value) :
    (resizeBlock (l.length / B) k value).Meets env n s
      (fun value' _ s' => s'.totalSize = s.totalSize ∧
        Filled B m x target s' (l ++ List.replicate r x) ∧ env n (l.length + r) = false ∧
        value' = if k ≤ s.capacity (l.length / B) then value else value.moved (l.length / B))
      (fun _ => env n (l.length + r) = true) False := by
  have hdiv := Nat.div_add_mod l.length B
  rw [Nat.mul_comm] at hdiv
  have hc : l.length / B < (m + B - 1) / B :=
    (lt_blockCount hB).2 ((Nat.div_mul_le_self _ B).trans_lt (by omega))
  have hb : s.blocks[l.length / B]? = some (block B l (l.length / B)) := by
    rw [h.blocks, getElem?_split, if_pos hc]
  have hlen : (block B l (l.length / B)).length = l.length % B := by
    rw [length_block]
    omega
  have hmemory : s.objects + (k - (block B l (l.length / B)).length) = l.length + r := by
    rw [objects_split h.blocks (h.le_blocks hB), hlen]
    omega
  refine resizeBlock_meets hb (by omega) (fun henv => hmemory ▸ henv) fun henv => ?_
  rw [hvalue.load hB h.blocks (h.le_blocks hB)]
  intro s' hset
  obtain ⟨s₁, hset₁, hblocks₁, hsize₁⟩ := setBlock_eq (vectorResize · k x) hb
  cases hset.symm.trans hset₁
  have hlength : (l ++ List.replicate r x).length = l.length + r := by
    rw [List.length_append, List.length_replicate]
  have hresize : vectorResize (block B l (l.length / B)) k x =
      block B l (l.length / B) ++ List.replicate r x := by
    rw [vectorResize, List.take_of_length_le (by omega), hlen, Nat.sub_eq_of_eq_add' hr.symm]
  refine ⟨hsize₁, ⟨?_, hlength.le.trans hm, ?_⟩, hmemory ▸ henv, rfl⟩
  · rw [hblocks₁, h.blocks, hresize, set_split_append _ hc]
    rw [List.length_replicate]
    omega
  · rw [← h.target, vectorResize, vectorResize, List.take_of_length_le (hlength.le.trans hm),
      List.take_of_length_le h.le, List.append_assoc, List.replicate_append_replicate, hlength]
    congr 2
    omega

/-- The loop goes on with the only block, which is too large to be filled. -/
theorem fillBlocks_tooLarge {m fuel oldSize : ℕ} {value : Ref T} {b : List T}
    (henv : ∀ k r, maxObjects < r → env k r = true) (hB : maxObjects < B) (hs : s.blocks = [b])
    (hb : b.length < B) (hle : sizeAdd oldSize B ≤ m) (hq : oldSize / B = 0) :
    (fillBlocks B m (fuel + 1) oldSize value).Meets env n s (fun _ _ _ => False)
      (fun _ => env n B = true) False := by
  have hobj : s.objects + (B - b.length) = B := by
    simp [objects, hs]
    omega
  rw [fillBlocks, if_pos hle, hq, meets_bind]
  refine resizeBlock_meets (by rw [hs]; rfl) hb (fun h => hobj ▸ h) fun hgranted => ?_
  rw [hobj] at hgranted
  exact absurd (le_maxObjects henv hgranted) (Nat.not_le.2 hB)

/-- The loop fills one block after another. The reference is to an element of a block before them,
so it stays good. -/
theorem fillBlocks_meets {m : ℕ} {x : T} {target : List T} {value : Ref T} (hB : 0 < B)
    (henv : ∀ k r, maxObjects < r → env k r = true) (hwrap : m + B - 1 < 2 ^ 64) (hm : 0 < m) :
    ∀ {fuel n : ℕ} {s : ChunkedVector T} {l : List T}, Filled B m x target s l →
      l.length = m ∨ B ∣ l.length → (l.length < m → Settled B l x value) →
      l.length ≤ maxObjects → m - l.length < fuel * B →
      (fillBlocks B m fuel l.length value).Meets env n s
        (fun p _ s' => s'.totalSize = s.totalSize ∧ ∃ l', Filled B m x target s' l' ∧
          p.1 = l'.length ∧ l'.length ≤ maxObjects ∧ (l'.length < m → RefersTo B l' x p.2) ∧
          (l'.length = m ∨ B ∣ l'.length ∧ m < l'.length + B))
        (fun _ => Refuses env (m + B)) False := by
  intro fuel
  induction fuel with
  | zero =>
    intro n s l _ _ _ _ hfuel
    omega
  | succ fuel ih =>
    intro n s l h hend hvalue hmax hfuel
    rcases Nat.lt_or_ge (l.length + B) (2 ^ 64) with hsum | hsum
    · rw [fillBlocks, sizeAdd, Nat.mod_eq_of_lt hsum]
      split
      · rename_i hle
        have hdvd : B ∣ l.length := hend.resolve_left (by omega)
        have h0 := Nat.mod_eq_zero_of_dvd hdvd
        have hsettled := hvalue (by omega)
        rw [meets_bind]
        refine ((h.resizeBlock (r := B) hB hB (by omega) le_rfl hle hsettled.refers).weaken
          fun _ hrefused => ⟨_, _, hrefused, by omega⟩).mono fun value' _ s' hs' => ?_
        obtain ⟨hsize, hfilled, hgranted, hvalue'⟩ := hs'
        have hsame : value' = value := by
          rw [hvalue', hsettled.moved, ite_self]
        have hlen : (l ++ List.replicate B x).length = l.length + B := by
          rw [List.length_append, List.length_replicate]
        rw [hsame, ← hlen, ← hsize]
        refine ih hfilled (.inr ?_) (fun _ => hsettled.append _)
          (hlen ▸ le_maxObjects henv hgranted) ?_
        · rw [hlen]
          exact Nat.dvd_add hdvd (Nat.dvd_refl B)
        · rw [Nat.succ_mul] at hfuel
          omega
      · rename_i hgt
        refine ⟨rfl, l, h, rfl, hmax, fun hlt => (hvalue hlt).refers,
          hend.imp_right fun hdvd => ⟨hdvd, by omega⟩⟩
    · -- the sum wraps: the vector is full, and the block that comes next is too large
      have hle := h.le
      have hmB : l.length + B = 2 ^ 64 := by omega
      have hB63 : maxObjects < B := by
        unfold maxObjects at *
        omega
      have hcount : (m + B - 1) / B = 1 := by
        refine Nat.le_antisymm (blockCount_le hB ?_) ((lt_blockCount hB).2 ?_)
        · unfold maxObjects at *
          omega
        · rwa [Nat.zero_mul]
      have hwrapped : sizeAdd l.length B ≤ m := by
        rw [sizeAdd, hmB, Nat.mod_self]
        exact Nat.zero_le _
      have hblocks := h.blocks
      rw [hcount] at hblocks
      have hshort : (block B l 0).length < B := by
        rw [length_block]
        omega
      refine ((fillBlocks_tooLarge henv hB63 hblocks hshort hwrapped ?_).weaken
        fun _ hrefused => ?_).mono fun _ _ _ h => h.elim
      · exact Nat.div_eq_of_lt (hmax.trans_lt hB63)
      · exact ⟨_, _, hrefused, Nat.le_add_left ..⟩

omit [CapacityPolicy] in
/-- The blocks for the new size are there; those that came are empty and have no storage. -/
theorem ensureBlocks_meets {m : ℕ} (x : T) (hB : 0 < B) (hwrap : m + B - 1 < 2 ^ 64)
    (h : Holds B s l) (hm : l.length ≤ m) :
    (ensureBlocks B m).Meets env n s
      (fun _ _ s' => s'.totalSize = s.totalSize ∧ Filled B m x (vectorResize l m x) s' l ∧
        s'.capacity = s.capacity)
      (fun _ => Refuses env (m + B)) False := by
  have hcm : (m + B - 1) / B ≤ m := blockCount_le hB (Nat.le_mul_of_pos_right m hB)
  have hcl : (l.length + B - 1) / B ≤ (m + B - 1) / B := Nat.div_le_div_right (by omega)
  have hlen : s.blocks.length = (l.length + B - 1) / B := by rw [h.blocks, length_split]
  rw [ensureBlocks, meets_bind, meets_get, newBlockCount, Nat.mod_eq_of_lt hwrap]
  split
  · rw [meets_attempt_some]
    refine ⟨fun hrefused => ⟨_, _, hrefused, hcm.trans (Nat.le_add_right ..)⟩, fun _ => ?_⟩
    refine ⟨rfl, ⟨?_, hm, rfl⟩, funext fun i => ?_⟩
    · change s.blocks ++ _ = _
      rw [hlen, h.blocks, split_pad (le_blockCount_mul hB) hcl]
    · simp only [capacity, List.getD_eq_getElem?_getD, List.getElem?_append,
        List.getElem?_replicate]
      split
      · rfl
      · rename_i hi
        rw [List.getElem?_eq_none (Nat.not_lt.1 hi)]
        split
        · rfl
        · rfl
  · rename_i hge
    have heq : (l.length + B - 1) / B = (m + B - 1) / B := by omega
    exact ⟨rfl, ⟨heq ▸ h.blocks, hm, rfl⟩, rfl⟩

/-- The last block is filled, or as much of it as the new size takes. If there is more to fill, the
reference stays good if it is to no element of this block, or the block keeps its storage. -/
theorem fillLastBlock_meets {m : ℕ} {x : T} {target : List T} {value : Ref T} (hB : 0 < B)
    (henv : ∀ k r, maxObjects < r → env k r = true) (h : Filled B m x target s l)
    (hm : l.length < m) (hvalue : RefersTo B l x value)
    (hsafe : ∀ offset, value = .slot (l.length / B) offset → (l.length / B + 1) * B < m →
      B ≤ s.capacity (l.length / B)) :
    (fillLastBlock B m value l.length).Meets env n s
      (fun p _ s' => s'.totalSize = s.totalSize ∧ ∃ l', Filled B m x target s' l' ∧
        p.1 = l'.length ∧ (l'.length = m ∨ B ∣ l'.length) ∧ l'.length ≤ maxObjects ∧
        (l'.length < m → Settled B l' x p.2))
      (fun _ => Refuses env (m + B)) False := by
  have hmod := Nat.mod_lt l.length hB
  have hdiv := Nat.div_add_mod l.length B
  rw [Nat.mul_comm] at hdiv
  have hblock : l.length / B < s.blocks.length := by
    rw [h.blocks, length_split]
    exact (lt_blockCount hB).2 ((Nat.div_mul_le_self _ B).trans_lt hm)
  have hlen : (l ++ List.replicate (min (B - l.length % B) (m - l.length)) x).length =
      l.length + min (B - l.length % B) (m - l.length) := by
    rw [List.length_append, List.length_replicate]
  rw [fillLastBlock, meets_bind, meets_get, if_pos hblock, meets_bind]
  refine ((h.resizeBlock (r := min (B - l.length % B) (m - l.length)) hB (by omega) rfl (by omega)
    (by omega) hvalue).weaken fun _ hrefused => ⟨_, _, hrefused, by omega⟩).mono
      fun value' _ s' hs' => ?_
  obtain ⟨hsize, hfilled, hgranted, hvalue'⟩ := hs'
  refine ⟨hsize, _, hfilled, hlen.symm, ?_, ?_, fun hlt => ?_⟩
  · rw [hlen]
    rcases Nat.le_total (B - l.length % B) (m - l.length) with hmin | hmin
    · right
      rw [Nat.min_eq_left hmin]
      refine ⟨l.length / B + 1, ?_⟩
      rw [Nat.mul_succ, Nat.mul_comm]
      omega
    · left
      rw [Nat.min_eq_right hmin]
      omega
  · rw [hlen]
    exact le_maxObjects henv hgranted
  · -- the block was filled, and there is more
    have hmin : min (B - l.length % B) (m - l.length) = B - l.length % B := by omega
    have hend : l.length + (B - l.length % B) = (l.length / B + 1) * B := by
      rw [Nat.succ_mul]
      omega
    have hfull : l.length % B + min (B - l.length % B) (m - l.length) = B := by omega
    have hlast : (l ++ List.replicate (min (B - l.length % B) (m - l.length)) x).length / B =
        l.length / B + 1 := by
      rw [hlen, hmin, hend, Nat.mul_div_cancel _ hB]
    have hmore : (l.length / B + 1) * B < m := by omega
    rw [hfull] at hvalue'
    have hsame : value' = value := by
      cases hvalue with
      | value => rw [hvalue', Ref.moved_value, ite_self]
      | @slot i hi =>
        rcases eq_or_ne (i / B) (l.length / B) with heq | hne
        · rw [hvalue', if_pos (hsafe (i % B) (by rw [heq]) hmore)]
        · rw [hvalue', Ref.moved, if_neg hne, ite_self]
    rw [hsame]
    refine ⟨hvalue.append _, fun b o hb => ?_⟩
    rw [hlast]
    cases hvalue with
    | value => cases hb
    | @slot i hi =>
      cases hb
      exact Nat.lt_succ_of_le (Nat.div_le_div_right (List.getElem?_eq_some_iff.1 hi).1.le)

/-- The rest of the new size, in the last block. -/
theorem fillPartialBlock_meets {m : ℕ} {x : T} {target : List T} {value : Ref T} (hB : 0 < B)
    (henv : ∀ k r, maxObjects < r → env k r = true) (h : Filled B m x target s l)
    (hmax : l.length ≤ maxObjects) (hvalue : l.length < m → RefersTo B l x value)
    (hend : l.length = m ∨ B ∣ l.length ∧ m < l.length + B) :
    (fillPartialBlock B m value l.length).Meets env n s
      (fun _ _ s' => s'.blocks = split B target ((m + B - 1) / B) ∧ m ≤ maxObjects)
      (fun _ => Refuses env (m + B)) False := by
  rw [fillPartialBlock]
  split
  · rename_i hlt
    obtain ⟨hdvd, hnext⟩ := hend.resolve_left (Nat.ne_of_lt hlt)
    have h0 := Nat.mod_eq_zero_of_dvd hdvd
    have hm : m % B = m - l.length := by
      obtain ⟨q, hq⟩ := hdvd
      have hdecomp : m = m - l.length + B * q := by omega
      rw [hdecomp, Nat.add_mul_mod_self_left, Nat.mod_eq_of_lt (by omega)]
      omega
    rw [meets_bind]
    refine ((h.resizeBlock (r := m - l.length) (k := m % B) hB (by omega) (by omega) (by omega)
      (by omega) (hvalue hlt)).weaken fun _ hrefused => ⟨_, _, hrefused, by omega⟩).mono
        fun _ _ s' hs' => ?_
    obtain ⟨-, hfilled, hgranted, -⟩ := hs'
    refine ⟨?_, ?_⟩
    · rw [hfilled.blocks, hfilled.eq_target]
      rw [List.length_append, List.length_replicate]
      omega
    · have hle := le_maxObjects henv hgranted
      omega
  · rename_i hge
    have heq := Nat.le_antisymm h.le (Nat.not_lt.1 hge)
    rw [meets_pure, h.blocks, h.eq_target heq]
    exact ⟨rfl, heq ▸ hmax⟩

/-- `resize` to a larger size adds copies of its argument, if it can read it for each block. -/
theorem grow_meets {m : ℕ} {x : T} {value : Ref T} (hB : 0 < B)
    (henv : ∀ k r, maxObjects < r → env k r = true) (hwrap : m + B - 1 < 2 ^ 64)
    (h : Holds B s l) (hm : l.length < m) (hvalue : RefersTo B l x value)
    (hsafe : ∀ offset, value = .slot (l.length / B) offset → (l.length / B + 1) * B < m →
      B ≤ s.capacity (l.length / B)) :
    (grow B m value).Meets env n s
      (fun _ _ s' => Holds B s' (vectorResize l m x) ∧ m ≤ maxObjects)
      (fun _ => Refuses env (m + B)) False := by
  rw [grow, meets_bind, meets_get, meets_bind]
  refine (ensureBlocks_meets x hB hwrap h hm.le).mono fun _ _ s₁ hs₁ => ?_
  obtain ⟨hsize₁, h₁, hcapacity⟩ := hs₁
  rw [meets_bind, h.size]
  refine (fillLastBlock_meets hB henv h₁ hm hvalue (hcapacity ▸ hsafe)).mono
    fun p _ s₂ hs₂ => ?_
  obtain ⟨oldSize, value₂⟩ := p
  obtain ⟨hsize₂, l₂, h₂, rfl, hend, hmax, hvalue₂⟩ := hs₂
  have hfuel : m - l₂.length < (2 * (m / B) + 3) * B := by
    have hlt : m < (m / B + 1) * B := Nat.lt_mul_of_div_lt (Nat.lt_succ_self _) hB
    refine (Nat.sub_le ..).trans_lt (hlt.trans_le (Nat.mul_le_mul_right B ?_))
    omega
  change Meets (fillBlocks B m _ l₂.length value₂ >>= _) _ _ _ _ _ _
  rw [meets_bind]
  refine (fillBlocks_meets hB henv hwrap (by omega) h₂ hend hvalue₂ hmax hfuel).mono
    fun p _ s₃ hs₃ => ?_
  obtain ⟨oldSize, value₃⟩ := p
  obtain ⟨-, l₃, h₃, rfl, hmax, hvalue₃, hend⟩ := hs₃
  change Meets (fillPartialBlock B m value₃ l₃.length >>= _) _ _ _ _ _ _
  rw [meets_bind]
  refine (fillPartialBlock_meets hB henv h₃ hmax hvalue₃ hend).mono fun _ _ s₄ hs₄ => ?_
  obtain ⟨h₄, hm⟩ := hs₄
  rw [meets_modify_some]
  refine ⟨⟨length_vectorResize.symm, ?_⟩, hm⟩
  rw [length_vectorResize]
  exact h₄

/-! ## Arguments that are gone -/

/-- A block cannot be filled with copies of an element that is gone. -/
theorem resizeBlock_dangling {i k : ℕ} {b : List T} (hb : s.blocks[i]? = some b)
    (hk : b.length < k) : (resizeBlock i k .dangling).Meets env n s (fun _ _ _ => False)
      (fun _ => True) True :=
  resizeBlock_meets hb hk (fun _ => trivial) fun _ => trivial

/-- The steps after the last block was filled, when there is more to fill and the argument is
gone. -/
theorem fill_dangling {m fuel : ℕ} {x : T} {target : List T} (hB : 0 < B)
    (h : Filled B m x target s l) (hlt : l.length < m) (hdvd : B ∣ l.length) :
    Meets (do
      let (oldSize, value) ← fillBlocks B m fuel l.length (.dangling : Ref T)
      fillPartialBlock B m value oldSize
      modify fun s => some { s with totalSize := m }) env n s (fun _ _ _ => False)
      (fun _ => True) True := by
  have hdiv := Nat.div_mul_cancel hdvd
  have hc : l.length / B < (m + B - 1) / B := (lt_blockCount hB).2 (hdiv.trans_lt hlt)
  -- the block that comes next is still empty
  have hb : s.blocks[l.length / B]? = some (block B l (l.length / B)) := by
    rw [h.blocks, getElem?_split, if_pos hc]
  have hempty : (block B l (l.length / B)).length = 0 := by
    rw [length_block]
    omega
  rw [meets_bind]
  cases fuel with
  | zero => trivial
  | succ fuel =>
    rw [fillBlocks]
    split
    · rw [meets_bind]
      exact (resizeBlock_dangling hb (hempty.trans_lt hB)).mono fun _ _ _ => False.elim
    · rename_i hgt
      have hnext : m < l.length + B := by
        rw [sizeAdd] at hgt
        omega
      have hmod : 0 < m % B := by
        obtain ⟨q, hq⟩ := hdvd
        have hdecomp : m = m - l.length + B * q := by omega
        rw [hdecomp, Nat.add_mul_mod_self_left, Nat.mod_eq_of_lt (by omega)]
        omega
      change Meets (fillPartialBlock B m .dangling l.length >>= _) _ _ _ _ _ _
      rw [meets_bind, fillPartialBlock, if_pos hlt, meets_bind]
      exact (resizeBlock_dangling hb (hempty.trans_lt hmod)).mono fun _ _ _ => False.elim

/-- `resize` comes to no good end if its argument is an element of the last block, this block gets
other storage, and there are other blocks to fill. -/
theorem grow_dangles {m i : ℕ} {x : T} (hB : 0 < B) (hwrap : m + B - 1 < 2 ^ 64)
    (h : Holds B s l) (hi : l[i]? = some x) (hblock : i / B = l.length / B)
    (hcapacity : s.capacity (l.length / B) < B) (hm : (l.length / B + 1) * B < m) :
    (grow B m (.slot (i / B) (i % B))).Meets env n s (fun _ _ _ => False) (fun _ => True) True := by
  have hmod := Nat.mod_lt l.length hB
  have hdiv := Nat.div_add_mod l.length B
  rw [Nat.mul_comm] at hdiv
  have hmul : (l.length / B + 1) * B = l.length / B * B + B := Nat.succ_mul ..
  have hlt : l.length < m := by omega
  have hfull : l.length % B + min (B - l.length % B) (m - l.length) = B := by omega
  rw [grow, meets_bind, meets_get, meets_bind]
  refine (((ensureBlocks_meets x hB hwrap h hlt.le).weaken fun _ _ => trivial).allow
    False.elim).mono fun _ _ s₁ hs₁ => ?_
  obtain ⟨hsize₁, h₁, hcapacity₁⟩ := hs₁
  have hthere : l.length / B < s₁.blocks.length := by
    rw [h₁.blocks, length_split]
    exact (lt_blockCount hB).2 ((Nat.div_mul_le_self _ B).trans_lt hlt)
  rw [meets_bind, h.size, fillLastBlock, meets_bind, meets_get, if_pos hthere, meets_bind, hfull]
  refine (((h₁.resizeBlock (r := B - l.length % B) hB (by omega) (by omega) le_rfl (by omega)
    (.slot hi)).weaken fun _ _ => trivial).allow False.elim).mono fun value _ s₂ hs₂ => ?_
  obtain ⟨-, h₂, -, hvalue⟩ := hs₂
  have hgone : value = .dangling := by
    rw [hvalue, hcapacity₁, if_neg (Nat.not_le.2 hcapacity), Ref.moved, if_pos hblock]
  have hlen : (l ++ List.replicate (B - l.length % B) x).length = (l.length / B + 1) * B := by
    rw [List.length_append, List.length_replicate]
    omega
  have hend : l.length + min (B - l.length % B) (m - l.length) =
      (l ++ List.replicate (B - l.length % B) x).length := by omega
  rw [meets_pure, hgone, hend]
  exact fill_dangling hB h₂ (hlen ▸ hm) (hlen ▸ Nat.dvd_mul_left ..)

/-! ## Sequences of calls -/

omit [CapacityPolicy] in
/-- Where the elements of the list are. -/
theorem Holds.subscript (hB : 0 < B) (h : Holds B s l) (i : ℕ) : s.subscript B i = l[i]? := by
  rw [ChunkedVector.subscript, h.size, h.blocks, getElem?_split]
  split
  · rename_i hi
    have hblock := (lt_blockCount (i := i / B) hB).2 ((Nat.div_mul_le_self i B).trans_lt hi)
    rw [if_pos hblock]
    change (block B l (i / B))[i % B]? = _
    rw [getElem?_block (Nat.mod_lt i hB), Nat.mul_comm, Nat.div_add_mod]
  · rename_i hi
    rw [List.getElem?_eq_none (Nat.not_lt.1 hi)]

omit [CapacityPolicy] in
/-- The reference for an argument that exists. -/
theorem Holds.refer {a : Arg T} {x : T} (hB : 0 < B) (h : Holds B s l) (ha : a.get l = some x) :
    ∃ value, s.refer B a = some value ∧ RefersTo B l x value := by
  cases a with
  | value y =>
    cases ha
    exact ⟨_, rfl, .value⟩
  | element i =>
    have hi : l[i]? = some x := ha
    refine ⟨.slot (i / B) (i % B), ?_, .slot hi⟩
    rw [ChunkedVector.refer, h.subscript hB, hi, Option.map_some]

omit [CapacityPolicy] in
/-- The references for arguments that exist, and what is read through them. -/
theorem Holds.referAll (hB : 0 < B) (h : Holds B s l) {args : List (Arg T)} :
    ∀ {xs : List T}, args.mapM (Arg.get l) = some xs →
      ∃ rs, args.mapM (s.refer B) = some rs ∧ Yields B l (fun s => rs.mapM s.load) xs := by
  induction args with
  | nil =>
    intro xs hxs
    cases hxs
    exact ⟨[], rfl, fun _ _ _ _ => rfl⟩
  | cons a args ih =>
    intro xs hxs
    rw [List.mapM_cons] at hxs
    obtain ⟨x, hx, hxs⟩ := Option.bind_eq_some_iff.1 hxs
    obtain ⟨xs, hrest, hxs⟩ := Option.bind_eq_some_iff.1 hxs
    cases hxs
    obtain ⟨r, hr, hrefers⟩ := h.refer hB hx
    obtain ⟨rs, hrs, hyields⟩ := ih hrest
    refine ⟨r :: rs, ?_, fun s' c hs' hc => ?_⟩
    · rw [List.mapM_cons, hr, hrs]
      rfl
    · have hload : rs.mapM s'.load = some xs := hyields s' c hs' hc
      change (r :: rs).mapM s'.load = _
      rw [List.mapM_cons, hrefers.load hB hs' hc, hload]
      rfl

omit [CapacityPolicy] in
/-- `operator[]` has no reference to an element that does not exist. -/
theorem Holds.refer_eq_none {a : Arg T} (hB : 0 < B) (h : Holds B s l) (ha : a.get l = none) :
    s.refer B a = none := by
  cases a with
  | value x => cases ha
  | element i =>
    have hi : l[i]? = none := ha
    rw [ChunkedVector.refer, h.subscript hB, hi, Option.map_none]

omit [CapacityPolicy] in
/-- The same for the arguments of `emplace_back`. -/
theorem Holds.referAll_eq_none (hB : 0 < B) (h : Holds B s l) {args : List (Arg T)}
    (hargs : args.mapM (Arg.get l) = none) : args.mapM (s.refer B) = none := by
  induction args with
  | nil => cases hargs
  | cons a args ih =>
    rw [List.mapM_cons] at hargs ⊢
    cases ha : a.get l with
    | none =>
      rw [h.refer_eq_none hB ha]
      rfl
    | some x =>
      obtain ⟨r, hr, -⟩ := h.refer hB ha
      have hrest : args.mapM (Arg.get l) = none := by
        cases hxs : args.mapM (Arg.get l) with
        | none => rfl
        | some xs =>
          rw [ha, hxs] at hargs
          cases hargs
      rw [hr, ih hrest]
      rfl

/-- The parts of `resize`. -/
theorem resize_parts {m : ℕ} {value : Ref T} {Q : Unit → ℕ → ChunkedVector T → Prop}
    {E : ChunkedVector T → Prop} {U : Prop} (heq : m = s.totalSize → Q () n s)
    (hshrink : m < s.totalSize → (shrink B m).Meets env n s Q E U)
    (hgrow : s.totalSize < m → (grow B m value).Meets env n s Q E U) :
    (resize B m value).Meets env n s Q E U := by
  rw [resize, meets_bind, meets_get]
  split
  · rename_i h
    exact heq h
  · split
    · rename_i h
      exact hshrink h
    · exact hgrow (by omega)

/-- `resize` to any size, with an argument that stays good as long as it is read. -/
theorem resize_meets {m : ℕ} {x : T} {value : Ref T} (hB : 0 < B)
    (henv : ∀ k r, maxObjects < r → env k r = true) (hwrap : m + B - 1 < 2 ^ 64)
    (h : Holds B s l) (hl : l.length ≤ maxObjects) (hvalue : RefersTo B l x value)
    (hsafe : l.length < m → ∀ offset, value = .slot (l.length / B) offset →
      (l.length / B + 1) * B < m → B ≤ s.capacity (l.length / B)) :
    (resize B m value).Meets env n s
      (fun _ _ s' => Holds B s' (vectorResize l m x) ∧ m ≤ maxObjects)
      (fun _ => Refuses env (m + B)) False := by
  refine resize_parts (fun heq => ?_) (fun hlt => ?_) fun hlt => ?_
  · rw [h.size] at heq
    rw [heq, vectorResize, Nat.sub_self, List.replicate_zero, List.append_nil, List.take_length]
    exact ⟨h, hl⟩
  · rw [h.size] at hlt
    have htake : vectorResize l m x = l.take m := by
      rw [vectorResize, Nat.sub_eq_zero_of_le hlt.le, List.replicate_zero, List.append_nil]
    rw [htake]
    exact (shrink_meets hB h hlt hwrap).mono fun _ _ s' h' => ⟨h', by omega⟩
  · rw [h.size] at hlt
    exact grow_meets hB henv hwrap h hlt hvalue (hsafe hlt)

/-- A call that gives no other storage to the block of its own argument does on the vector what it
does on the list. It throws only if the environment refuses memory that is at most that of the new
contents and one block. -/
theorem call_meets {c : Call T} {l' : List T} (hB : 0 < B)
    (henv : ∀ k r, maxObjects < r → env k r = true) (hc : c.Fits B) (h : Holds B s l)
    (hl : l.length ≤ maxObjects) (hl' : c.onList l = some l') (hsafe : ¬c.Dangles B s) :
    (call B c).Meets env n s (fun _ _ s' => Holds B s' l' ∧ l'.length ≤ maxObjects)
      (fun _ => Refuses env (l'.length + B)) False := by
  have hpush : ∀ {read : ChunkedVector T → Option T} {v : T}, Yields B l read v →
      (append B read).Meets env n s
        (fun _ _ s' => Holds B s' (l ++ [v]) ∧ (l ++ [v]).length ≤ maxObjects)
        (fun _ => Refuses env ((l ++ [v]).length + B)) False := by
    intro read v hread
    rw [List.length_append, List.length_singleton]
    refine ((append_meets hB h hread).weaken fun _ hE => hE.1).mono fun _ _ s' hs' => ?_
    obtain ⟨h', k, hgranted⟩ := hs'
    exact ⟨h', le_maxObjects henv hgranted⟩
  cases c with
  | pushBack a =>
    obtain ⟨v, ha, rfl⟩ := Option.map_eq_some_iff.1 hl'
    obtain ⟨r, hr, hrefers⟩ := h.refer hB ha
    rw [call, meets_bind, meets_act (by rw [hr]; rfl)]
    exact hpush fun _ _ hs hc => hrefers.load hB hs hc
  | pushBackMove v =>
    cases hl'
    exact hpush fun _ _ _ _ => rfl
  | emplaceBack make args =>
    obtain ⟨vs, hvs, rfl⟩ := Option.map_eq_some_iff.1 hl'
    obtain ⟨rs, hrs, hyields⟩ := h.referAll hB hvs
    rw [call, meets_bind, meets_act (by rw [hrs]; rfl)]
    refine hpush fun s' c hs hc => ?_
    exact congrArg (Option.map make) (hyields s' c hs hc)
  | popBack =>
    cases hl'
    refine (popBack_meets hB h).mono fun _ _ s' h' => ⟨h', ?_⟩
    rw [List.length_dropLast]
    omega
  | clear =>
    cases hl'
    exact (clear_meets hB).mono fun _ _ s' h' => ⟨h', Nat.zero_le _⟩
  | resize m a =>
    obtain ⟨x, ha, rfl⟩ := Option.map_eq_some_iff.1 hl'
    obtain ⟨r, hr, hrefers⟩ := h.refer hB ha
    rw [call, meets_bind, meets_act (by rw [hr]; rfl), length_vectorResize]
    refine resize_meets hB henv hc h hl hrefers fun hlt offset hslot hmore => ?_
    by_contra hcapacity
    cases a with
    | value y =>
      cases hr
      cases hslot
    | element i =>
      rw [ChunkedVector.refer] at hr
      obtain ⟨y, -, rfl⟩ := Option.map_eq_some_iff.1 hr
      obtain ⟨hdiv, -⟩ := Ref.slot.inj hslot
      refine hsafe ⟨h.size ▸ hlt, h.size ▸ hdiv, ?_, h.size ▸ hmore⟩
      rw [hdiv]
      exact Nat.lt_of_not_le hcapacity

/-- Whatever is called, the vector holds a list if the call ends: it does not if an argument does
not exist, or is gone before it was read for the last time. -/
theorem call_holds {c : Call T} (hB : 0 < B) (henv : ∀ k r, maxObjects < r → env k r = true)
    (hc : c.Fits B) (h : Holds B s l) (hl : l.length ≤ maxObjects) :
    (call B c).Meets env n s (fun _ _ s' => ∃ l', Holds B s' l' ∧ l'.length ≤ maxObjects)
      (fun _ => True) True := by
  cases hl' : c.onList l with
  | some l' =>
    by_cases hdangles : c.Dangles B s
    · cases c with
      | resize m a =>
        cases a with
        | value x => exact hdangles.elim
        | element i =>
          obtain ⟨x, ha, -⟩ := Option.map_eq_some_iff.1 hl'
          have hi : l[i]? = some x := ha
          obtain ⟨hlt, hblock, hcapacity, hm⟩ := hdangles
          rw [h.size] at hlt hblock hm
          have href : s.refer B (.element i) = some (.slot (i / B) (i % B)) := by
            rw [ChunkedVector.refer, h.subscript hB, hi, Option.map_some]
          rw [call, meets_bind, meets_act (by rw [href]; rfl), resize, meets_bind, meets_get,
            h.size, if_neg (Nat.ne_of_gt hlt), if_neg (Nat.lt_asymm hlt)]
          exact (grow_dangles hB hc h hi hblock (hblock ▸ hcapacity) hm).mono
            fun _ _ _ => False.elim
      | pushBack _ | pushBackMove _ | emplaceBack _ _ | popBack | clear => exact hdangles.elim
    · exact (((call_meets hB henv hc h hl hl' hdangles).weaken fun _ _ => trivial).allow
        False.elim).mono fun _ _ _ h' => ⟨l', h'⟩
  | none =>
    -- an argument is an element that does not exist
    cases c with
    | pushBack a =>
      have ha := Option.map_eq_none_iff.1 hl'
      rw [call, meets_bind, meets_act_none (by rw [h.refer_eq_none hB ha]; rfl)]
      trivial
    | resize m a =>
      have ha := Option.map_eq_none_iff.1 hl'
      rw [call, meets_bind, meets_act_none (by rw [h.refer_eq_none hB ha]; rfl)]
      trivial
    | emplaceBack make args =>
      have hargs := h.referAll_eq_none hB (Option.map_eq_none_iff.1 hl')
      rw [call, meets_bind, meets_act_none (by rw [hargs]; rfl)]
      trivial
    | pushBackMove _ | popBack | clear => cases hl'

/-- After calls that are possible for the list and keep their arguments good, the vector holds the
list. -/
theorem run_meets {calls : List (Call T)} {l' : List T} (hB : 0 < B)
    (henv : ∀ k r, maxObjects < r → env k r = true) :
    ∀ {n : ℕ} {s : ChunkedVector T} {l : List T}, (∀ c ∈ calls, c.Fits B) → Holds B s l →
      l.length ≤ maxObjects → calls.foldlM Call.onList l = some l' →
      Throughout (call B) (fun s c => ¬c.Dangles B s) env n s calls →
      (run B calls).Meets env n s
        (fun _ _ s' => Holds B s' l' ∧ l'.length ≤ maxObjects)
        (fun _ => ∃ cs l₁, cs <+: calls ∧ cs.foldlM Call.onList l = some l₁ ∧
          Refuses env (l₁.length + B)) False := by
  induction calls with
  | nil =>
    intro n s l _ h hl hl' _
    cases hl'
    exact ⟨h, hl⟩
  | cons c calls ih =>
    intro n s l hfits h hl hl' hsafe
    rw [List.foldlM_cons] at hl'
    obtain ⟨l₁, hl₁, hl'⟩ := Option.bind_eq_some_iff.1 hl'
    obtain ⟨hc, hrest⟩ := hsafe
    have hcall := call_meets hB henv (hfits c List.mem_cons_self) h hl hl₁ hc (n := n)
    rw [run, runAll, meets_bind]
    unfold Meets at hcall ⊢
    split at hcall
    · rename_i k s₁ hrun
      rw [hrun] at hrest
      refine (ih (fun c hc => hfits c (List.mem_cons_of_mem _ hc)) hcall.1 hcall.2 hl'
        hrest).weaken fun _ hE => ?_
      obtain ⟨cs, l₂, hcs, hl₂, hE⟩ := hE
      refine ⟨c :: cs, l₂, (List.prefix_cons_inj c).2 hcs, ?_, hE⟩
      rw [List.foldlM_cons, hl₁]
      exact hl₂
    · refine ⟨[c], l₁, List.prefix_cons_inj c |>.2 List.nil_prefix, ?_, hcall⟩
      rw [List.foldlM_cons, hl₁]
      rfl
    · exact hcall

/-- Whatever is called, the vector holds a list if the calls end. -/
theorem run_holds {calls : List (Call T)} (hB : 0 < B)
    (henv : ∀ k r, maxObjects < r → env k r = true) :
    ∀ {n : ℕ} {s : ChunkedVector T} {l : List T}, (∀ c ∈ calls, c.Fits B) → Holds B s l →
      l.length ≤ maxObjects →
      (run B calls).Meets env n s (fun _ _ s' => ∃ l', Holds B s' l' ∧ l'.length ≤ maxObjects)
        (fun _ => True) True := by
  induction calls with
  | nil =>
    intro n s l _ h hl
    exact ⟨l, h, hl⟩
  | cons c calls ih =>
    intro n s l hfits h hl
    rw [run, runAll, meets_bind]
    refine (call_holds hB henv (hfits c List.mem_cons_self) h hl).mono fun _ _ s' hs' => ?_
    obtain ⟨l', h', hl'⟩ := hs'
    exact ih (fun c hc => hfits c (List.mem_cons_of_mem _ hc)) h' hl'

/-! ## What the vector shows -/

/-- The shape that the operations rely on. -/
structure Shape (B : ℕ) (s : ChunkedVector T) : Prop where
  full : ∀ i b, i + 1 < s.blocks.length → s.blocks[i]? = some b → b.length = B
  last : ∀ b, s.blocks.getLast? = some b → b ≠ []
  count : s.blocks.length = (s.totalSize + B - 1) / B
  objects : s.objects = s.totalSize

/-- The reads answer what they would on `l`. -/
structure Shows (B : ℕ) (s : ChunkedVector T) (l : List T) : Prop where
  size : s.totalSize = l.length
  subscript : ∀ i, s.subscript B i = l[i]?
  checkedAt : ∀ i, s.checkedAt B i =
    if l.length ≤ i then some (.error "out of range") else l[i]?.map .ok
  front : s.front B = l.head?
  back : s.back B = l.getLast?
  elements : s.elements B = some l

omit [CapacityPolicy] in
/-- A vector that holds a list has its shape. -/
theorem Holds.shape (hB : 0 < B) (h : Holds B s l) : Shape B s where
  full i b hi hb := by
    rw [h.blocks, length_split] at hi
    rw [h.blocks, getElem?_split, if_pos (by omega)] at hb
    cases hb
    have hlt := (lt_blockCount hB).1 hi
    rw [Nat.succ_mul] at hlt
    rw [length_block]
    omega
  last b hb := by
    rw [List.getLast?_eq_getElem?, h.blocks, length_split, getElem?_split] at hb
    split at hb
    · rename_i hi
      cases hb
      have hlt := (lt_blockCount hB).1 hi
      refine List.ne_nil_of_length_pos ?_
      rw [length_block]
      omega
    · cases hb
  count := by rw [h.blocks, length_split, h.size]
  objects := by
    rw [objects, h.blocks, ← List.length_flatten, flatten_split, h.size,
      List.take_of_length_le (le_blockCount_mul hB)]

omit [CapacityPolicy] in
/-- The iterators reach `end()` through the elements in order. -/
theorem Holds.iterate (hB : 0 < B) (h : Holds B s l) :
    ∀ {fuel i : ℕ}, i ≤ l.length → l.length - i < fuel → s.iterate B fuel i = some (l.drop i) := by
  intro fuel
  induction fuel with
  | zero =>
    intro i _ hf
    omega
  | succ fuel ih =>
    intro i hi hf
    rw [ChunkedVector.iterate, h.size]
    split
    · rename_i heq
      rw [heq, List.drop_length]
    · rename_i hne
      have hlt : i < l.length := Nat.lt_of_le_of_ne hi hne
      rw [h.subscript hB, List.getElem?_eq_getElem hlt, ih hlt (by omega),
        List.drop_eq_getElem_cons hlt]
      rfl

omit [CapacityPolicy] in
/-- A vector that holds a list shows it. -/
theorem Holds.shows (hB : 0 < B) (h : Holds B s l) (hl : l.length ≤ maxObjects) :
    Shows B s l where
  size := h.size
  subscript := h.subscript hB
  checkedAt i := by
    rw [ChunkedVector.checkedAt, h.size, h.subscript hB]
  front := by
    rw [ChunkedVector.front, h.subscript hB, List.head?_eq_getElem?]
  back := by
    rw [ChunkedVector.back, h.subscript hB, h.size, List.getLast?_eq_getElem?]
    rcases Nat.eq_zero_or_pos l.length with hlen | hlen
    · rw [List.length_eq_zero_iff.1 hlen, List.getElem?_nil, List.getElem?_nil]
    · have hwrap : (l.length + (2 ^ 64 - 1)) % 2 ^ 64 = l.length - 1 := by
        unfold maxObjects at hl
        omega
      rw [hwrap]
  elements := by
    rw [ChunkedVector.elements, h.iterate hB (Nat.zero_le _) (by rw [h.size]; omega),
      List.drop_zero]

omit [CapacityPolicy] in
/-- The new vector holds nothing. -/
theorem Holds.empty (hB : 0 < B) : Holds B ({} : ChunkedVector T) [] :=
  ⟨rfl, by rw [List.length_nil, Nat.zero_add, Nat.div_eq_of_lt (Nat.sub_lt hB Nat.one_pos)]; rfl⟩

/-- After every sequence of calls that is possible for a list, the vector shows the list of the same
calls and has its shape, if no `resize` gives other storage to the block of its own argument. No
call is undefined then, and one throws only if the environment refuses memory that is at most that
of the new contents and one block. -/
theorem run_shows {calls : List (Call T)} {l : List T} (hB : 0 < B)
    (henv : ∀ k r, maxObjects < r → env k r = true) (hfits : ∀ c ∈ calls, c.Fits B)
    (hcalls : calls.foldlM Call.onList [] = some l)
    (hsafe : Throughout (call B) (fun s c => ¬c.Dangles B s) env 0 {} calls) :
    (run B calls).Meets env 0 {}
      (fun _ _ s => Shows B s l ∧ Shape B s)
      (fun _ => ∃ cs l', cs <+: calls ∧ cs.foldlM Call.onList [] = some l' ∧
        Refuses env (l'.length + B)) False := by
  refine (run_meets hB henv hfits (.empty hB) (Nat.zero_le _) hcalls hsafe).mono fun _ _ s h => ?_
  exact ⟨h.1.shows hB h.2, h.1.shape hB⟩

end

/-- Blocks of two elements and a memory of a hundred. The vector grows by copies of its first
element when the last block has storage for more. -/
theorem run_shows_two :
    run 2 [.pushBack (.value 1), .resize 5 (.value 7), .popBack,
          .emplaceBack (List.headD · 0) [.element 0], .resize 3 (.value 0),
          .pushBack (.element 1), .resize 6 (.element 0)]
        (fun _ r => decide (100 < r)) 0 {} =
          .ok () 13 ⟨[[1, 7], [7, 7], [1, 1]], 6, [2, 2, 2]⟩ ∧
      Shows 2 ⟨[[1, 7], [7, 7], [1, 1]], 6, [2, 2, 2]⟩ [1, 7, 7, 7, 1, 1] := by
  have hrun : run 2 [.pushBack (.value 1), .resize 5 (.value 7), .popBack,
          .emplaceBack (List.headD · 0) [.element 0], .resize 3 (.value 0),
          .pushBack (.element 1), .resize 6 (.element 0)]
        (fun _ r => decide (100 < r)) 0 {} =
          .ok () 13 ⟨[[1, 7], [7, 7], [1, 1]], 6, [2, 2, 2]⟩ := by
    decide +kernel
  have henv : ∀ k r, maxObjects < r → (fun _ r => decide (100 < r) : Environment) k r = true :=
    fun k r hr => decide_eq_true (Nat.lt_trans (by decide) hr)
  exact ⟨hrun, ((run_shows (by decide) henv (by simp [Call.Fits]) rfl (by decide +kernel)).ok
    hrun).1⟩

/-- The second `resize` gives the block of its argument other storage, and reads the argument again
for the next block. -/
theorem run_undefined_resize :
    ([Call.resize 1 (.value 7), .resize 6 (.element 0)].foldlM Call.onList []) =
        some [7, 7, 7, 7, 7, 7] ∧
      run 4 [.resize 1 (.value 7), .resize 6 (.element 0)] .never 0 {} = .undefined :=
  ⟨rfl, by decide +kernel⟩

end ChunkedVector

end RockCoro
