import RockCoro.Lib.Accesses

/-!
# Programs that stay among some nodes

The cells of a linked structure belong to nodes and hold pointers to nodes (`Layout`). A program is
`Confined` to a set of nodes when it uses no pointer but those that it was given and those that it
read, and neither stores another nor writes a frozen cell. Such a program, run on a memory whose
nodes point into the set only, never leaves the set (`Confined.safe`), whatever the pointers are.
-/

namespace RockCoro

/-- Which node a cell belongs to and which node its value points to; `frozen` are the cells that
a confined program may only read. -/
structure Layout {ι : Type} (V : ι → Type) (N : Type) where
  node : ι → Option N
  target : ∀ i, V i → Option N
  frozen : ι → Prop

namespace Prog

section
variable {ι : Type} {V : ι → Type} {E α β N σ : Type} [Cells σ V]

/-- The node, if there is one, is in the set. -/
def Inside (L : Set N) (o : Option N) : Prop := ∀ n, o = some n → n ∈ L

@[simp] theorem inside_none {L : Set N} : Inside L none := by
  intro n h
  cases h

@[simp] theorem inside_some {L : Set N} {n : N} : Inside L (some n) ↔ n ∈ L :=
  ⟨fun h => h n rfl, fun h _ hn => Option.some.inj hn ▸ h⟩

/-- The program uses nodes of `L` only, as long as it reads none but these; its result is `Q`. -/
def Confined (G : Layout V N) (L : Set N) (Q : α → Prop) : Prog V E α → Prop
  | ret a => Q a
  | fail => True
  | read i k => Inside L (G.node i) ∧ ∀ v, Inside L (G.target i v) → (k v).Confined G L Q
  | write i v k =>
    ¬G.frozen i ∧ Inside L (G.node i) ∧ Inside L (G.target i v) ∧ k.Confined G L Q
  | mark _ k => k.Confined G L Q

/-- What a confined program may do. -/
def Within (G : Layout V N) (L : Set N) (_ : σ) : Access V E → Prop
  | .read i => Inside L (G.node i)
  | .write i v => ¬G.frozen i ∧ Inside L (G.node i) ∧ Inside L (G.target i v)
  | .mark _ => True

/-- The nodes of `L` point into `L`. -/
def Closed (G : Layout V N) (L : Set N) (s : σ) : Prop :=
  ∀ i, Inside L (G.node i) → Inside L (G.target i (Cells.get s i))

/-- The frozen cells hold the same. -/
def SameFrozen (G : Layout V N) (s s' : σ) : Prop :=
  ∀ i, G.frozen i → Cells.get s' i = Cells.get s i

variable {G : Layout V N} {L : Set N} {Q : α → Prop} {R : β → Prop} {p q : Prog V E α}
  {f : α → Prog V E β} {a : α} {i : ι} {v : V i} {e : E} {k : V i → Prog V E α} {s s' : σ}

@[simp] theorem confined_ret : (ret a : Prog V E α).Confined G L Q ↔ Q a := Iff.rfl

@[simp] theorem confined_fail : (fail : Prog V E α).Confined G L Q := trivial

@[simp] theorem confined_read : (read i k).Confined G L Q ↔
    Inside L (G.node i) ∧ ∀ v, Inside L (G.target i v) → (k v).Confined G L Q := Iff.rfl

@[simp] theorem confined_write : (write i v p).Confined G L Q ↔
    ¬G.frozen i ∧ Inside L (G.node i) ∧ Inside L (G.target i v) ∧ p.Confined G L Q := Iff.rfl

@[simp] theorem confined_mark : (mark e p).Confined G L Q ↔ p.Confined G L Q := Iff.rfl

@[simp] theorem confined_ite {c : Prop} [Decidable c] :
    (if c then p else q).Confined G L Q ↔
      (c → p.Confined G L Q) ∧ (¬c → q.Confined G L Q) := by
  split <;> simp_all

/-- A sequence is confined when its first part is, and its second part is on every result of the
first. -/
theorem confined_bind :
    (p.bind f).Confined G L R ↔ p.Confined G L fun a => (f a).Confined G L R := by
  induction p with
  | ret a => exact Iff.rfl
  | fail => exact Iff.rfl
  | read i k ih =>
    exact and_congr_right fun _ => forall_congr' fun v => imp_congr_right fun _ => ih v
  | write i v k ih =>
    exact and_congr_right fun _ => and_congr_right fun _ => and_congr_right fun _ => ih
  | mark e k ih => exact ih

/-- What is said of the result may be weakened. -/
theorem Confined.imp {Q' : α → Prop} (hp : p.Confined G L Q) (hQ : ∀ a, Q a → Q' a) :
    p.Confined G L Q' := by
  induction p with
  | ret a => exact hQ a hp
  | fail => trivial
  | read i k ih => exact ⟨hp.1, fun v hv => ih v (hp.2 v hv)⟩
  | write i v k ih =>
    obtain ⟨hi, hn, hv, hp⟩ := hp
    exact ⟨hi, hn, hv, ih hp⟩
  | mark e k ih => exact ih hp

/-- A write of a confined program. -/
theorem Closed.set (h : Closed G L s) (hv : Inside L (G.target i v)) :
    Closed G L (Cells.set s i v) := by
  intro j hj
  by_cases hji : j = i
  · subst hji
    rwa [Cells.get_set_self]
  · rw [Cells.get_set_of_ne _ _ _ _ hji]
    exact h j hj

/-- A write to a cell that is not frozen leaves the frozen ones the same. -/
theorem SameFrozen.set (h : SameFrozen G s s') (hi : ¬G.frozen i) :
    SameFrozen G s (Cells.set s' i v) := by
  intro j hj
  have hji : j ≠ i := by
    rintro rfl
    exact hi hj
  rw [Cells.get_set_of_ne _ _ _ _ hji]
  exact h j hj

/-- A confined program does what it may, and its result is as announced. -/
theorem Confined.within (h : p.Confined G L Q) (hs : Closed G L s) :
    Safe (Within G L) p s ∧ ∀ r, p.run s = some r → Q r.1 := by
  induction p generalizing s with
  | ret a =>
    refine ⟨safe_ret, ?_⟩
    rintro _ ⟨⟩
    exact h
  | fail => exact ⟨safe_fail, by simp⟩
  | read i k ih =>
    obtain ⟨hsafe, hrun⟩ := ih _ (h.2 _ (hs i h.1)) hs
    exact ⟨safe_read.2 ⟨h.1, hsafe⟩, hrun⟩
  | write i v k ih =>
    obtain ⟨hi, hn, hv, h⟩ := h
    obtain ⟨hsafe, hrun⟩ := ih h (hs.set hv)
    exact ⟨safe_write.2 ⟨⟨hi, hn, hv⟩, hsafe⟩, hrun⟩
  | mark e k ih =>
    obtain ⟨hsafe, hrun⟩ := ih h hs
    exact ⟨safe_mark.2 ⟨trivial, hsafe⟩, hrun⟩

/-- A confined program leaves the nodes closed and the frozen cells as they were, at every access
and at its end. -/
theorem Confined.safe (h : p.Confined G L Q) (hs : Closed G L s) :
    Safe (fun s' x => Within G L s' x ∧ SameFrozen G s s') p s ∧
      ∀ r, p.run s = some r → Q r.1 ∧ Closed G L r.2 ∧ SameFrozen G s r.2 := by
  obtain ⟨hwithin, hresult⟩ := h.within hs
  have hset : ∀ s' i v, Closed G L s' ∧ SameFrozen G s s' →
      Within G L s' (.write i v : Access V E) →
      Closed G L (Cells.set s' i v) ∧ SameFrozen G s (Cells.set s' i v) := by
    rintro s' i v ⟨hc, hf⟩ ⟨hi, -, hv⟩
    exact ⟨hc.set hv, hf.set hi⟩
  obtain ⟨hlog, hrun⟩ := hwithin.invariant hset ⟨hs, fun _ _ => rfl⟩
  exact ⟨fun e he => ⟨hwithin e he, (hlog e he).2⟩, fun r hr => ⟨hresult r hr, hrun r hr⟩⟩

/-! ## What a program does and leaves -/

/-- Every access is `ok` at its time, and the result and the memory at the end are `Q`. -/
def Spec (ok : σ → Access V E → Prop) (Q : α → σ → Prop) (p : Prog V E α) (s : σ) : Prop :=
  Safe ok p s ∧ ∀ r, p.run s = some r → Q r.1 r.2

variable {ok : σ → Access V E → Prop} {P : α → σ → Prop} {P' : β → σ → Prop}

/-- A program that only returns meets what holds of its result. -/
theorem spec_ret (h : P a s) : Spec ok P (ret a) s := by
  refine ⟨safe_ret, ?_⟩
  rintro _ ⟨⟩
  exact h

/-- A read that is allowed, before a program that meets `P` on what it reads. -/
theorem spec_read (hi : ok s (.read i)) (h : Spec ok P (k (Cells.get s i)) s) :
    Spec ok P (read i k) s :=
  ⟨safe_read.2 ⟨hi, h.1⟩, h.2⟩

/-- Sequences: what the first part establishes is what the second part starts with. -/
theorem Spec.bind (hp : Spec ok P p s) (hf : ∀ a s', P a s' → Spec ok P' (f a) s') :
    Spec ok P' (p.bind f) s := by
  obtain ⟨hsafe, hrun⟩ := hp
  constructor
  · exact safe_bind.2 ⟨hsafe, fun r hr => (hf r.1 r.2 (hrun r hr)).1⟩
  · intro r hr
    rw [run_bind] at hr
    obtain ⟨r₁, hr₁, hr⟩ := Option.bind_eq_some_iff.1 hr
    exact (hf r₁.1 r₁.2 (hrun r₁ hr₁)).2 r hr

end

end Prog

end RockCoro
