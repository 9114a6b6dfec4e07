import Mathlib.Order.Defs.Unbundled
import Mathlib.Logic.Equiv.Basic

/-!
# Heap order in level-order arrays

Heap order of a partial array `a : ℕ → Option K` along an arbitrary parent function with
`parent i < i`, under a strict weak order. A sift moves a *hole*: the one position whose edges may
be out of order. `UpHole` allows the edge into the hole, `DownHole` the edges out of it and `Hole`
all of them; each predicate has a `swap` lemma (the sift moves the hole along one edge) and an
`ordered` lemma (the sift stops). `skip` is what makes a swap possible: the hole's children are in
order with the hole's parent.
-/

namespace HeapOrder

section
variable {K : Type*} {lt : K → K → Prop} {parent : ℕ → ℕ} {a : ℕ → Option K} {i j k : ℕ}

/-- The entry at `j`, if there is one, is not before the entry at `k`. -/
def NLt (lt : K → K → Prop) (a : ℕ → Option K) (j k : ℕ) : Prop :=
  ∀ x ∈ a j, ∀ y ∈ a k, ¬ lt x y

/-- Every entry is not before its parent's. -/
def Ordered (lt : K → K → Prop) (parent : ℕ → ℕ) (a : ℕ → Option K) : Prop :=
  ∀ j, 0 < j → NLt lt a j (parent j)

/-- Heap order, except at the edge from `i` to its parent. -/
structure UpHole (lt : K → K → Prop) (parent : ℕ → ℕ) (a : ℕ → Option K) (i : ℕ) : Prop where
  off : ∀ j, 0 < j → j ≠ i → NLt lt a j (parent j)
  skip : ∀ c, 0 < c → parent c = i → 0 < i → NLt lt a c (parent i)

/-- Heap order, except at the edges from `i` to its children. -/
structure DownHole (lt : K → K → Prop) (parent : ℕ → ℕ) (a : ℕ → Option K) (i : ℕ) : Prop where
  off : ∀ j, 0 < j → parent j ≠ i → NLt lt a j (parent j)
  skip : ∀ c, 0 < c → parent c = i → 0 < i → NLt lt a c (parent i)

/-- Heap order, except at the edges that touch `i`. -/
structure Hole (lt : K → K → Prop) (parent : ℕ → ℕ) (a : ℕ → Option K) (i : ℕ) : Prop where
  off : ∀ j, 0 < j → j ≠ i → parent j ≠ i → NLt lt a j (parent j)
  skip : ∀ c, 0 < c → parent c = i → 0 < i → NLt lt a c (parent i)

/-- Entries fill an initial segment. -/
def Dense (a : ℕ → Option K) : Prop := ∀ i j, i ≤ j → (a j).isSome → (a i).isSome

/-! ## Holes -/

/-- Heap order is kept when entries disappear. -/
theorem Ordered.mono {b : ℕ → Option K} (h : Ordered lt parent a)
    (hb : ∀ j, ∀ x ∈ b j, x ∈ a j) : Ordered lt parent b :=
  fun j hj x hx y hy => h j hj x (hb j x hx) y (hb _ y hy)

/-- A hole stays a hole when its entry is written and other entries disappear. -/
theorem Hole.mono {b : ℕ → Option K} (hp : ∀ i, 0 < i → parent i < i) (h : Hole lt parent a i)
    (hb : ∀ j, j ≠ i → ∀ x ∈ b j, x ∈ a j) : Hole lt parent b i where
  off j hj hji hpi x hx y hy := h.off j hj hji hpi x (hb j hji x hx) y (hb _ hpi y hy)
  skip c hc hci hi x hx y hy := by
    have hcp := hp c hc
    have hip := hp i hi
    exact h.skip c hc hci hi x (hb c (by omega) x hx) y (hb _ (by omega) y hy)

/-- A hole in order with its children is open only upwards. -/
theorem Hole.upHole (h : Hole lt parent a i) (hc : ∀ c, 0 < c → parent c = i → NLt lt a c i) :
    UpHole lt parent a i where
  off j hj hji := by
    by_cases hpj : parent j = i
    · exact hpj ▸ hc j hj hpj
    · exact h.off j hj hji hpj
  skip := h.skip

/-- A hole in order with its parent is open only downwards. -/
theorem Hole.downHole (h : Hole lt parent a i) (hi : 0 < i → NLt lt a i (parent i)) :
    DownHole lt parent a i where
  off j hj hpj := by
    by_cases hji : j = i
    · exact hji ▸ hi (hji ▸ hj)
    · exact h.off j hj hji hpj
  skip := h.skip

/-- A hole that is open downwards is a hole. -/
theorem DownHole.hole (h : DownHole lt parent a i) : Hole lt parent a i where
  off j hj _ hpj := h.off j hj hpj
  skip := h.skip

/-- `sift_up` stops: the hole is in order with its parent. -/
theorem UpHole.ordered (h : UpHole lt parent a i) (hi : 0 < i → NLt lt a i (parent i)) :
    Ordered lt parent a := by
  intro j hj
  by_cases hji : j = i
  · exact hji ▸ hi (hji ▸ hj)
  · exact h.off j hj hji

/-- `sift_down` stops: the hole is in order with its children. -/
theorem DownHole.ordered (h : DownHole lt parent a i)
    (hc : ∀ c, 0 < c → parent c = i → NLt lt a c i) : Ordered lt parent a := by
  intro j hj
  by_cases hpj : parent j = i
  · exact hpj ▸ hc j hj hpj
  · exact h.off j hj hpj

/-! ## Strict weak orders -/

variable [IsStrictWeakOrder K lt]

/-- Not being before is transitive in a strict weak order. -/
theorem not_lt_trans {x y z : K} (hxy : ¬ lt x y) (hyz : ¬ lt y z) : ¬ lt x z := by
  intro hxz
  have hzy : ¬ lt z y := fun h => hxy (IsTrans.trans _ _ _ hxz h)
  have hyx : ¬ lt y x := fun h => hyz (IsTrans.trans _ _ _ h hxz)
  exact (IsStrictWeakOrder.incomp_trans x y z ⟨hxy, hyx⟩ ⟨hyz, hzy⟩).1 hxz

/-- Keys in order with a key between them are in order; the position between must have one. -/
theorem NLt.trans (hij : NLt lt a i j) (hjk : NLt lt a j k) (hj : (a j).isSome) : NLt lt a i k := by
  obtain ⟨y, hy⟩ := Option.isSome_iff_exists.1 hj
  exact fun x hx z hz => not_lt_trans (hij x hx y hy) (hjk y hy z hz)

/-- An entry before another one is not after it. -/
theorem NLt.of_lt {x y : K} (hx : a i = some x) (hy : a j = some y) (h : lt x y) :
    NLt lt a j i := by
  intro y' hy' x' hx' h'
  obtain rfl : y = y' := Option.some.inj (hy.symm.trans hy')
  obtain rfl : x = x' := Option.some.inj (hx.symm.trans hx')
  exact irrefl x (IsTrans.trans _ _ _ h h')

/-- An entry that is not before `j`'s is not before any entry before `j`'s. -/
theorem NLt.of_nlt_lt {x y : K} (hx : a i = some x) (hy : a j = some y) (h : lt x y)
    (hk : NLt lt a k j) : NLt lt a k i := by
  intro z hz x' hx' h'
  obtain rfl : x = x' := Option.some.inj (hx.symm.trans hx')
  exact hk z hz y hy (IsTrans.trans _ _ _ h' h)

/-! ## The root -/

/-- No entry is before the root. -/
theorem Ordered.root (hp : ∀ i, 0 < i → parent i < i) (h : Ordered lt parent a) (hd : Dense a) :
    ∀ j, NLt lt a j 0 := by
  intro j
  induction j using Nat.strongRecOn with
  | ind j ih =>
    rcases Nat.eq_zero_or_pos j with rfl | hj
    · intro x hx y hy
      obtain rfl : x = y := Option.some.inj (hx.symm.trans hy)
      exact irrefl x
    · intro x hx
      exact NLt.trans (h j hj) (ih _ (hp j hj))
        (hd _ j (Nat.le_of_lt (hp j hj)) (Option.isSome_iff_exists.2 ⟨x, hx⟩)) x hx

/-! ## Entering a sift -/

/-- An ordered array has a hole of its own at every position. -/
theorem Ordered.hole (hp : ∀ i, 0 < i → parent i < i) (h : Ordered lt parent a) (hd : Dense a)
    (i : ℕ) : Hole lt parent a i where
  off j hj _ _ := h j hj
  skip c hc hci hi := by
    intro x hx
    have hsome : (a i).isSome :=
      hd i c (hci ▸ Nat.le_of_lt (hp c hc)) (Option.isSome_iff_exists.2 ⟨x, hx⟩)
    exact NLt.trans (hci ▸ h c hc) (h i hi) hsome x hx

/-- A hole whose entry is before its parent's is in order with its children. -/
theorem Hole.upHole_of_lt {x y : K} (h : Hole lt parent a i) (hi : 0 < i) (hx : a i = some x)
    (hy : a (parent i) = some y) (hlt : lt x y) : UpHole lt parent a i where
  off j hj hji := by
    by_cases hpj : parent j = i
    · exact hpj ▸ NLt.of_nlt_lt hx hy hlt (h.skip j hj hpj hi)
    · exact h.off j hj hji hpj
  skip := h.skip

/-! ## Moving the hole -/

/-- `sift_up` moves the hole to its parent. -/
theorem UpHole.swap {x y : K} (hp : ∀ i, 0 < i → parent i < i) (h : UpHole lt parent a i)
    (hi : 0 < i) (hx : a i = some x) (hy : a (parent i) = some y) (hlt : lt x y) :
    UpHole lt parent (a ∘ Equiv.swap i (parent i)) (parent i) := by
  have hpi := hp i hi
  have hne : parent i ≠ i := by omega
  have hleft : (a ∘ Equiv.swap i (parent i)) i = a (parent i) := by simp
  have hright : (a ∘ Equiv.swap i (parent i)) (parent i) = a i := by simp
  have hother : ∀ m, m ≠ i → m ≠ parent i → (a ∘ Equiv.swap i (parent i)) m = a m := by
    intro m h₁ h₂
    simp [Equiv.swap_apply_of_ne_of_ne h₁ h₂]
  refine ⟨fun j hj hjp => ?_, fun c hc hcp hp0 => ?_⟩ <;> unfold NLt
  · by_cases hji : j = i
    · subst hji
      rw [hleft, hright]
      exact NLt.of_lt hx hy hlt
    · rw [hother j hji hjp]
      by_cases h₁ : parent j = i
      · rw [h₁, hleft]
        exact h.skip j hj h₁ hi
      · by_cases h₂ : parent j = parent i
        · rw [h₂, hright]
          exact NLt.of_nlt_lt hx hy hlt (h₂ ▸ h.off j hj hji)
        · rw [hother _ h₁ h₂]
          exact h.off j hj hji
  · have hg := hp _ hp0
    rw [hother (parent (parent i)) (by omega) (by omega)]
    have hup : NLt lt a (parent i) (parent (parent i)) := h.off _ hp0 hne
    by_cases hci : c = i
    · subst hci
      rw [hleft]
      exact hup
    · rw [hother c hci (by have := hp c hc; omega)]
      have hcp' : NLt lt a c (parent i) := hcp ▸ h.off c hc hci
      exact NLt.trans hcp' hup (by simp [hy])

/-- `sift_down` moves the hole to its least child. -/
theorem Hole.swap {s : ℕ} {x y : K} (hp : ∀ i, 0 < i → parent i < i) (h : Hole lt parent a i)
    (hs : 0 < s) (hsi : parent s = i) (hx : a s = some x) (hy : a i = some y) (hlt : lt x y)
    (hmin : ∀ c, 0 < c → parent c = i → NLt lt a c s) :
    DownHole lt parent (a ∘ Equiv.swap i s) s := by
  have his : i < s := hsi ▸ hp s hs
  have hleft : (a ∘ Equiv.swap i s) i = a s := by simp
  have hright : (a ∘ Equiv.swap i s) s = a i := by simp
  have hother : ∀ m, m ≠ i → m ≠ s → (a ∘ Equiv.swap i s) m = a m := by
    intro m h₁ h₂
    simp [Equiv.swap_apply_of_ne_of_ne h₁ h₂]
  refine ⟨fun j hj hjs => ?_, fun c hc hcs _ => ?_⟩ <;> unfold NLt
  · by_cases hji : j = i
    · subst hji
      have := hp j hj
      rw [hleft, hother (parent j) (by omega) (by omega)]
      exact h.skip s hs hsi hj
    · by_cases hjs' : j = s
      · subst hjs'
        rw [hright, hsi, hleft]
        exact NLt.of_lt hx hy hlt
      · rw [hother j hji hjs']
        by_cases hpj : parent j = i
        · rw [hpj, hleft]
          exact hmin j hj hpj
        · rw [hother _ hpj hjs]
          exact h.off j hj hji hpj
  · have hcgt := hp c hc
    rw [hsi, hleft, hother c (by omega) (by omega)]
    exact hcs ▸ h.off c hc (by omega) (by omega)

end

end HeapOrder
