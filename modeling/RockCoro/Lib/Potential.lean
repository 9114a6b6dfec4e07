import Mathlib.Data.Nat.Notation

/-!
# Labelled runs and what they cost

A step costs something, and it may give something back. When a step never costs more than what a
potential of the state loses and the step gives, a whole run never costs more than the potential at
its start and what its steps give.
-/

namespace Potential

variable {σ α : Type*} {R : σ → α → σ → Prop} {s s' s'' : σ} {as bs : List α}

/-- Some steps and their labels. -/
inductive Steps (R : σ → α → σ → Prop) (s : σ) : List α → σ → Prop
  | refl : Steps R s [] s
  | step {as s' a s''} (hs : Steps R s as s') (ha : R s' a s'') : Steps R s (as ++ [a]) s''

/-- Steps after steps. -/
theorem Steps.append (h : Steps R s as s') (h' : Steps R s' bs s'') :
    Steps R s (as ++ bs) s'' := by
  induction h' with
  | refl => rwa [List.append_nil]
  | step _ ha ih =>
    rw [← List.append_assoc]
    exact ih.step ha

/-- What each step keeps, a run keeps. -/
theorem Steps.invariant (h : Steps R s as s') (I : σ → Prop)
    (hstep : ∀ s a s', I s → R s a s' → I s') (hs : I s) : I s' := by
  induction h with
  | refl => exact hs
  | step _ ha ih => exact hstep _ _ _ ih ha

/-- When each step of the runs with `R` is matched by one of `R'`, each run is. -/
theorem Steps.simulates {τ : Type*} {R' : τ → α → τ → Prop} {t : τ} (h : Steps R s as s')
    (Rel : σ → τ → Prop) (hstep : ∀ s a s' t, Rel s t → R s a s' → ∃ t', Rel s' t' ∧ R' t a t')
    (hs : Rel s t) : ∃ t', Rel s' t' ∧ Steps R' t as t' := by
  induction h with
  | refl => exact ⟨t, hs, .refl⟩
  | step _ ha ih =>
    obtain ⟨t₁, hrel, hsteps⟩ := ih
    obtain ⟨t', hrel', ht'⟩ := hstep _ _ _ _ hrel ha
    exact ⟨t', hrel', hsteps.step ht'⟩

/-- The sum over the labels of a run. -/
def total (f : α → ℕ) : List α → ℕ
  | [] => 0
  | a :: as => f a + total f as

/-- The last label is added to the sum. -/
theorem total_concat {f : α → ℕ} {a : α} : total f (as ++ [a]) = total f as + f a := by
  induction as with
  | nil => exact Nat.add_comm ..
  | cons b as ih => rw [List.cons_append, total, total, ih, Nat.add_assoc]

/-- A factor comes out of the sum. -/
theorem total_mul {f : α → ℕ} {k : ℕ} : total (fun a => k * f a) as = k * total f as := by
  induction as with
  | nil => rfl
  | cons a as ih => rw [total, total, ih, Nat.mul_add]

/-- A run costs at most the potential at its start and what its steps give. The potential is told
by a relation: a state may have several. -/
theorem Steps.total_le_of_rel (h : Steps R s as s') (I : σ → ℕ → Prop) (cost credit : α → ℕ)
    {φ : ℕ} (hstep : ∀ s a s' φ, I s φ → R s a s' → ∃ φ', I s' φ' ∧ cost a + φ' ≤ φ + credit a)
    (hs : I s φ) : ∃ φ', I s' φ' ∧ total cost as + φ' ≤ φ + total credit as := by
  induction h with
  | refl => exact ⟨φ, hs, Nat.le_of_eq (Nat.add_comm ..)⟩
  | step _ ha ih =>
    obtain ⟨φ₁, hI, hle⟩ := ih
    obtain ⟨φ', hI', hlast⟩ := hstep _ _ _ _ hI ha
    refine ⟨φ', hI', ?_⟩
    rw [total_concat, total_concat]
    omega

end Potential
