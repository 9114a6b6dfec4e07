import Mathlib.Data.List.Basic
import Mathlib.Data.List.Range
import Mathlib.Algebra.Order.Ring.Nat

/-!
# Lists in blocks of a fixed size

A list cut into blocks of `B` elements, where the last one may be shorter. The number of blocks is a
parameter of `split`: those past the end of the list are empty, so the blocks of a list that still
grows can be there before its elements are.
-/

namespace RockCoro.Blocks

variable {T : Type} {B c : ℕ} {l : List T}

/-- Block `i` of `l`. -/
def block (B : ℕ) (l : List T) (i : ℕ) : List T := (l.drop (i * B)).take B

/-- The first `c` blocks of `l`; those past the end are empty. -/
def split (B : ℕ) (l : List T) (c : ℕ) : List (List T) := (List.range c).map (block B l)

@[simp] theorem length_split : (split B l c).length = c := by
  rw [split, List.length_map, List.length_range]

/-- A block is full up to the end of the list. -/
theorem length_block (i : ℕ) : (block B l i).length = min B (l.length - i * B) := by
  rw [block, List.length_take, List.length_drop]

/-- Block `i` is in its place if it is one of the first `c`. -/
theorem getElem?_split (i : ℕ) :
    (split B l c)[i]? = if i < c then some (block B l i) else none := by
  rw [split, List.getElem?_map]
  split
  · rename_i hi
    rw [List.getElem?_range hi, Option.map_some]
  · rename_i hi
    rw [List.getElem?_eq_none (by simpa using Nat.not_lt.1 hi), Option.map_none]

/-- Element `j` of block `i` is element `i * B + j`. -/
theorem getElem?_block {i j : ℕ} (hj : j < B) : (block B l i)[j]? = l[i * B + j]? := by
  rw [block, List.getElem?_take_of_lt hj, List.getElem?_drop]

/-- No block is longer than `B`. -/
theorem mem_split {b : List T} (hb : b ∈ split B l c) : b.length ≤ B := by
  obtain ⟨i, -, rfl⟩ := List.mem_map.1 hb
  rw [length_block]
  exact Nat.min_le_left ..

/-- The blocks hold the list in order. -/
theorem flatten_split : (split B l c).flatten = l.take (c * B) := by
  induction c with
  | zero => simp [split]
  | succ c ih =>
    rw [split, List.range_succ, List.map_append, List.flatten_append, ← split, ih, Nat.succ_mul,
      List.take_add]
    simp [block]

/-- The first blocks of the first blocks. -/
theorem take_split (d : ℕ) : (split B l c).take d = split B l (min d c) := by
  rw [split, ← List.map_take, List.take_range, split]

/-- Empty blocks behind the end are what `split` puts there. -/
theorem split_pad {d : ℕ} (h : l.length ≤ c * B) (hcd : c ≤ d) :
    split B l c ++ List.replicate (d - c) [] = split B l d := by
  obtain ⟨e, rfl⟩ := Nat.exists_eq_add_of_le hcd
  rw [Nat.add_sub_cancel_left]
  induction e with
  | zero => simp
  | succ e ih =>
    rw [List.replicate_succ', ← List.append_assoc, ih (Nat.le_add_right ..), split, split,
      ← Nat.add_assoc, List.range_succ, List.map_append]
    have hempty : block B l (c + e) = [] := by
      refine List.length_eq_zero_iff.1 ?_
      rw [length_block, Nat.add_mul]
      omega
    rw [List.map_singleton, hempty]

/-- More elements for the block in which the list ends, up to the end of the block. -/
theorem set_split_append {xs : List T} (hxs : l.length % B + xs.length ≤ B)
    (hc : l.length / B < c) :
    (split B l c).set (l.length / B) (block B l (l.length / B) ++ xs) = split B (l ++ xs) c := by
  have hdiv := Nat.div_add_mod l.length B
  rw [Nat.mul_comm] at hdiv
  refine List.ext_getElem? fun i => ?_
  rw [List.getElem?_set, getElem?_split, getElem?_split, length_split]
  rcases Nat.lt_trichotomy i (l.length / B) with hi | rfl | hi
  · -- a full block before it
    have hle : (i + 1) * B ≤ l.length / B * B := Nat.mul_le_mul_right B hi
    rw [Nat.succ_mul] at hle
    rw [if_neg (Nat.ne_of_gt hi), block, block, List.drop_append_of_le_length (by omega),
      List.take_append_of_le_length (by rw [List.length_drop]; omega)]
  · have hlen : (l.drop (l.length / B * B)).length = l.length % B := by
      rw [List.length_drop]
      omega
    rw [if_pos rfl, if_pos hc, if_pos hc, block, block, List.drop_append_of_le_length (by omega),
      List.take_of_length_le (by omega), List.take_of_length_le]
    rw [List.length_append, hlen]
    exact hxs
  · -- an empty block after it
    have hle : (l.length / B + 1) * B ≤ i * B := Nat.mul_le_mul_right B hi
    rw [Nat.succ_mul] at hle
    rw [if_neg (Nat.ne_of_lt hi), block, block, List.drop_eq_nil_of_le (by omega),
      List.drop_eq_nil_of_le (by rw [List.length_append]; omega)]

/-- The number of blocks for `n` elements. -/
theorem lt_blockCount {n i : ℕ} (hB : 0 < B) : i < (n + B - 1) / B ↔ i * B < n := by
  rw [Nat.lt_iff_add_one_le, Nat.le_div_iff_mul_le hB, Nat.succ_mul]
  omega

/-- That many blocks are enough for `n` elements. -/
theorem le_blockCount_mul {n : ℕ} (hB : 0 < B) : n ≤ (n + B - 1) / B * B := by
  refine Nat.not_lt.1 fun h => ?_
  exact Nat.lt_irrefl _ ((lt_blockCount hB).2 h)

/-- No more blocks are counted than any number that is enough. -/
theorem blockCount_le {n d : ℕ} (hB : 0 < B) (h : n ≤ d * B) : (n + B - 1) / B ≤ d := by
  refine Nat.not_lt.1 fun hd => ?_
  exact Nat.not_lt.2 h ((lt_blockCount hB).1 hd)

/-- The number of blocks in use. -/
theorem blockCount_eq (hB : 0 < B) (n : ℕ) :
    (n + B - 1) / B = if n % B = 0 then n / B else n / B + 1 := by
  have hdiv := Nat.div_add_mod n B
  rw [Nat.mul_comm] at hdiv
  have hmod := Nat.mod_lt n hB
  have hle : ∀ d, n ≤ d * B → (n + B - 1) / B ≤ d := fun d => blockCount_le hB
  have hlt : ∀ d, d * B < n → d + 1 ≤ (n + B - 1) / B := fun d h => (lt_blockCount hB).2 h
  split
  · rename_i h0
    refine Nat.le_antisymm (hle _ (by omega)) ?_
    cases hq : n / B with
    | zero => exact Nat.zero_le _
    | succ q =>
      refine hlt q ?_
      rw [hq, Nat.succ_mul] at hdiv
      omega
  · refine Nat.le_antisymm (hle _ ?_) (hlt _ (by omega))
    rw [Nat.succ_mul]
    omega

/-- One more element than `l` needs one block more than `l` fills. -/
theorem blockCount_concat (hB : 0 < B) (v : T) :
    ((l ++ [v]).length + B - 1) / B = l.length / B + 1 := by
  have hdiv := Nat.div_add_mod l.length B
  rw [Nat.mul_comm] at hdiv
  have hmod := Nat.mod_lt l.length hB
  rw [List.length_append, List.length_singleton]
  refine Nat.le_antisymm (blockCount_le hB ?_) ((lt_blockCount hB).2 (by omega))
  rw [Nat.succ_mul]
  omega

end RockCoro.Blocks
