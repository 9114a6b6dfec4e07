import Mathlib.Logic.Basic

/-!
# Items in places

`Exclusive At live` says that every live item is at one place and every other item at none. It is
how a system accounts for things that are handed over: each hand-over is a `move`, and a thing comes
by `add` and goes by `remove`.
-/

namespace Placement

variable {α L : Type*} {At At' : α → L → Prop} {live live' : α → Prop} {c : α} {q p : L}

/-- Every live item is at exactly one place, and the others are at none. -/
structure Exclusive (At : α → L → Prop) (live : α → Prop) : Prop where
  live_iff : ∀ a, live a ↔ ∃ l, At a l
  unique : ∀ {a l l'}, At a l → At a l' → l = l'

/-- Only `c` is at other places than before. -/
def OnlyMoves (At At' : α → L → Prop) (c : α) : Prop := ∀ a, a ≠ c → ∀ l, At' a l ↔ At a l

/-- An item at a place is live. -/
theorem Exclusive.live_of_at (h : Exclusive At live) (hc : At c p) : live c :=
  (h.live_iff c).2 ⟨p, hc⟩

/-- An item that is not live is at no place. -/
theorem Exclusive.not_at (h : Exclusive At live) (hc : ¬live c) : ¬At c p :=
  fun hat => hc (h.live_of_at hat)

/-- An item goes from a place to another. -/
theorem Exclusive.move (h : Exclusive At live) (hc : At c p) (hin : At' c q)
    (hsub : ∀ l, At' c l → l = q ∨ At c l ∧ l ≠ p) (hother : OnlyMoves At At' c)
    (hlive : ∀ a, live' a ↔ live a) : Exclusive At' live' := by
  have hself : ∀ {l}, At' c l → l = q := by
    intro l hl
    rcases hsub l hl with hl | ⟨hl, hne⟩
    · exact hl
    · exact absurd (h.unique hl hc) hne
  refine ⟨fun a => (hlive a).trans ?_, fun {a l l'} hl hl' => ?_⟩
  · by_cases ha : a = c
    · subst ha
      exact ⟨fun _ => ⟨q, hin⟩, fun _ => h.live_of_at hc⟩
    · rw [h.live_iff a]
      exact exists_congr fun l => (hother a ha l).symm
  · by_cases ha : a = c
    · subst ha
      rw [hself hl, hself hl']
    · exact h.unique ((hother a ha l).1 hl) ((hother a ha l').1 hl')

/-- An item comes. -/
theorem Exclusive.add (h : Exclusive At live) (hc : ¬live c) (hin : At' c q)
    (hsub : ∀ l, At' c l → l = q ∨ At c l) (hother : OnlyMoves At At' c)
    (hlive : ∀ a, live' a ↔ a = c ∨ live a) : Exclusive At' live' := by
  have hself : ∀ {l}, At' c l → l = q := by
    intro l hl
    rcases hsub l hl with hl | hl
    · exact hl
    · exact absurd hl (h.not_at hc)
  refine ⟨fun a => (hlive a).trans ?_, fun {a l l'} hl hl' => ?_⟩
  · by_cases ha : a = c
    · subst ha
      exact ⟨fun _ => ⟨q, hin⟩, fun _ => .inl rfl⟩
    · rw [h.live_iff a]
      refine ⟨fun hex => ?_, fun ⟨l, hl⟩ => .inr ⟨l, (hother a ha l).1 hl⟩⟩
      rcases hex with rfl | ⟨l, hl⟩
      · exact absurd rfl ha
      · exact ⟨l, (hother a ha l).2 hl⟩
  · by_cases ha : a = c
    · subst ha
      rw [hself hl, hself hl']
    · exact h.unique ((hother a ha l).1 hl) ((hother a ha l').1 hl')

/-- An item goes. -/
theorem Exclusive.remove (h : Exclusive At live) (hc : At c p)
    (hsub : ∀ l, At' c l → At c l ∧ l ≠ p) (hother : OnlyMoves At At' c)
    (hlive : ∀ a, live' a ↔ a ≠ c ∧ live a) : Exclusive At' live' := by
  have hself : ∀ l, ¬At' c l := fun l hl => (hsub l hl).2 (h.unique (hsub l hl).1 hc)
  refine ⟨fun a => (hlive a).trans ?_, fun {a l l'} hl hl' => ?_⟩
  · by_cases ha : a = c
    · subst ha
      exact ⟨fun hne => absurd rfl hne.1, fun ⟨l, hl⟩ => absurd hl (hself l)⟩
    · rw [h.live_iff a]
      exact ⟨fun ⟨_, l, hl⟩ => ⟨l, (hother a ha l).2 hl⟩,
        fun ⟨l, hl⟩ => ⟨ha, l, (hother a ha l).1 hl⟩⟩
  · by_cases ha : a = c
    · subst ha
      exact absurd hl (hself l)
    · exact h.unique ((hother a ha l).1 hl) ((hother a ha l').1 hl')

/-- The places are told apart more finely: the place `l` of an item says by `R l` where it is. -/
theorem Exclusive.refine {K : Type*} {Fine : α → K → Prop} {R : L → α → K → Prop}
    (h : Exclusive At live) (hat : ∀ a k, Fine a k ↔ ∃ l, At a l ∧ R l a k)
    (hunique : ∀ {a l k k'}, At a l → R l a k → R l a k' → k = k')
    (hlive : ∀ a, live' a ↔ ∃ k, Fine a k) : Exclusive Fine live' := by
  refine ⟨hlive, fun {a k k'} hk hk' => ?_⟩
  obtain ⟨l, hl, hk⟩ := (hat a k).1 hk
  obtain ⟨l', hl', hk'⟩ := (hat a k').1 hk'
  obtain rfl := h.unique hl hl'
  exact hunique hl hk hk'

/-- No item is handed over. -/
theorem Exclusive.congr (h : Exclusive At live) (hat : ∀ a l, At' a l ↔ At a l)
    (hlive : ∀ a, live' a ↔ live a) : Exclusive At' live' :=
  ⟨fun a => (hlive a).trans ((h.live_iff a).trans (exists_congr fun l => (hat a l).symm)),
    fun hl hl' => h.unique ((hat _ _).1 hl) ((hat _ _).1 hl')⟩

end Placement
