import Mathlib.Algebra.BigOperators.Ring.Finset
import Mathlib.Algebra.Order.BigOperators.Group.Finset
import Mathlib.Data.List.Perm.Basic
import Mathlib.Data.Nat.Notation

/-!
# Lists that hold things at a price

An item in the list `l` costs `g l`. When one item goes from a list to another, comes, or goes, the
price of all lists changes by what that item costs.
-/

namespace Weights

variable {L α : Type*} [Fintype L] [DecidableEq α] {g : L → ℕ} {f f' : L → List α} {c : α}
  {xs ys : List α}

/-- What the items in all lists cost. -/
def weigh (g : L → ℕ) (f : L → List α) : ℕ := ∑ l, g l * (f l).length

/-- Lists without duplicates that differ in one item. -/
theorem length_of_mem_iff (hxs : xs.Nodup) (hys : ys.Nodup)
    (h : ∀ x, x ≠ c → (x ∈ ys ↔ x ∈ xs)) :
    ys.length + (if c ∈ xs then 1 else 0) = xs.length + (if c ∈ ys then 1 else 0) := by
  have hperm : (ys.erase c).Perm (xs.erase c) := by
    refine (List.perm_ext_iff_of_nodup (hys.erase c) (hxs.erase c)).2 fun x => ?_
    rw [hys.mem_erase_iff, hxs.mem_erase_iff]
    exact and_congr_right (h x)
  have hlen := hperm.length_eq
  rw [List.length_erase, List.length_erase] at hlen
  by_cases hx : c ∈ xs
  · have hxpos := List.length_pos_of_mem hx
    by_cases hy : c ∈ ys
    · have hypos := List.length_pos_of_mem hy
      simp only [hx, hy, if_true] at hlen ⊢
      omega
    · simp only [hx, hy, if_true, if_false] at hlen ⊢
      omega
  · by_cases hy : c ∈ ys
    · have hypos := List.length_pos_of_mem hy
      simp only [hx, hy, if_true, if_false] at hlen ⊢
      omega
    · simp only [hx, hy, if_false] at hlen ⊢
      omega

/-- The price of one item. -/
theorem sum_price {p : Option L} {P : L → Prop} [DecidablePred P] (hp : ∀ l, P l ↔ p = some l) :
    ∑ l, g l * (if P l then 1 else 0) = p.elim 0 g := by
  classical
  simp only [hp, mul_ite, Nat.mul_one, Nat.mul_zero]
  cases p with
  | none => simp
  | some l => simp

/-- An item goes from `p` to `q`; `none` is outside of the lists. -/
theorem weigh_move {p q : Option L} (hnodup : ∀ l, (f l).Nodup) (hnodup' : ∀ l, (f' l).Nodup)
    (hmem : ∀ x, x ≠ c → ∀ l, x ∈ f' l ↔ x ∈ f l) (hp : ∀ l, c ∈ f l ↔ p = some l)
    (hq : ∀ l, c ∈ f' l ↔ q = some l) :
    weigh g f' + p.elim 0 g = weigh g f + q.elim 0 g := by
  rw [weigh, weigh, ← sum_price hp, ← sum_price hq, ← Finset.sum_add_distrib,
    ← Finset.sum_add_distrib]
  refine Finset.sum_congr rfl fun l _ => ?_
  rw [← Nat.mul_add, ← Nat.mul_add,
    length_of_mem_iff (hnodup l) (hnodup' l) fun x hx => hmem x hx l]

omit [DecidableEq α] in
/-- A bound for the price of an item bounds the price of all. -/
theorem weigh_le {k : ℕ} (hg : ∀ l, g l ≤ k) : weigh g f ≤ k * ∑ l, (f l).length := by
  rw [weigh, Finset.mul_sum]
  exact Finset.sum_le_sum fun l _ => Nat.mul_le_mul_right _ (hg l)

end Weights
