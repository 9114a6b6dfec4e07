import Mathlib.Tactic.Common

/-!
# Computations whose steps may throw

A computation changes a state in steps, each of which has its effect or throws and has none, as an
operation with the strong exception guarantee does. Which steps throw is the choice of an
environment that is asked with the number of the step and the amount of memory it needs. An
exception ends the computation in the state of that moment; nothing is undone. `Meets` has a
postcondition for each way to end.
-/

namespace RockCoro

/-- How a computation ends: with a value and the number of steps done so far, with an exception, or
with undefined behaviour. -/
inductive Outcome (σ α : Type)
  | ok (a : α) (n : ℕ) (s : σ)
  | thrown (s : σ)
  | undefined
  deriving DecidableEq

/-- `env n r` decides whether step `n`, which needs memory for `r` objects, throws. -/
abbrev Environment : Type := ℕ → ℕ → Bool

/-- Some step may throw. -/
abbrev Environment.Fails (env : Environment) : Prop := ∃ k r, env k r = true

/-- No step throws. -/
def Environment.never : Environment := fun _ _ => false

/-- An environment where nothing throws does not fail. -/
theorem Environment.not_fails_never : ¬never.Fails := fun ⟨_, _, h⟩ => nomatch h

/-- A program that may throw, or be undefined. It counts the steps that may throw. -/
def Fallible (σ α : Type) : Type := Environment → ℕ → σ → Outcome σ α

namespace Fallible

variable {σ α β : Type}

instance : Monad (Fallible σ) where
  pure a := fun _ n s => .ok a n s
  bind p f := fun env n s =>
    match p env n s with
    | .ok a n s => f a env n s
    | .thrown s => .thrown s
    | .undefined => .undefined

/-- The state. -/
def get : Fallible σ σ := fun _ n s => .ok s n s

/-- A change that cannot throw; `none` is undefined behaviour. -/
def modify (f : σ → Option σ) : Fallible σ Unit := fun _ n s =>
  match f s with
  | some s => .ok () n s
  | none => .undefined

/-- A step that needs memory and may throw. -/
def attempt (f : σ → Option (ℕ × σ)) : Fallible σ Unit := fun env n s =>
  match f s with
  | some (r, s') => if env n r then .thrown s else .ok () (n + 1) s'
  | none => .undefined

/-- A step that cannot throw, with an answer; `none` is undefined behaviour. -/
def act (f : σ → Option (α × σ)) : Fallible σ α := fun _ n s =>
  match f s with
  | some (a, s) => .ok a n s
  | none => .undefined

/-- `assert(P)`; the program ends where it fails. -/
def require (P : Prop) [Decidable P] : Fallible σ Unit := fun _ n s =>
  if P then .ok () n s else .undefined

/-- A computation on a part of a larger state. -/
def zoom {τ : Type} (part : τ → σ) (put : τ → σ → τ) (p : Fallible σ α) : Fallible τ α :=
  fun env n t =>
    match p env n (part t) with
    | .ok a n s => .ok a n (put t s)
    | .thrown s => .thrown (put t s)
    | .undefined => .undefined

/-- `body i; …; body (i + m - 1)`. -/
def forFrom (body : ℕ → Fallible σ Unit) : ℕ → ℕ → Fallible σ Unit
  | 0, _ => pure ()
  | m + 1, i => do
    body i
    forFrom body m (i + 1)

/-- `for (i = 0; i < m; ++i) body i`. -/
def forLoop (m : ℕ) (body : ℕ → Fallible σ Unit) : Fallible σ Unit := forFrom body m 0

/-- One call after another. -/
def runAll {C : Type} (call : C → Fallible σ Unit) : List C → Fallible σ Unit
  | [] => pure ()
  | e :: es => do
    call e
    runAll call es

/-- A computation for each item, one after another, with the list of their values. -/
def mapEach (f : α → Fallible σ β) : List α → Fallible σ (List β)
  | [] => pure []
  | a :: as => do
    let b ← f a
    let bs ← mapEach f as
    pure (b :: bs)

/-- Each call meets `P` in the state in which it is made. -/
def Throughout {C : Type} (call : C → Fallible σ Unit) (P : σ → C → Prop) (env : Environment) :
    ℕ → σ → List C → Prop
  | _, _, [] => True
  | n, s, e :: es => P s e ∧
    match call e env n s with
    | .ok _ n s => Throughout call P env n s es
    | _ => True

instance decidableThroughout {C : Type} (call : C → Fallible σ Unit) (P : σ → C → Prop)
    [∀ s e, Decidable (P s e)] (env : Environment) :
    ∀ n s es, Decidable (Throughout call P env n s es)
  | _, _, [] => inferInstanceAs (Decidable True)
  | n, s, e :: es =>
    have : Decidable (match call e env n s with
        | .ok _ n s => Throughout call P env n s es
        | _ => True) :=
      match call e env n s with
      | .ok _ n s => decidableThroughout call P env n s es
      | .thrown _ | .undefined => inferInstanceAs (Decidable True)
    inferInstanceAs (Decidable (_ ∧ _))

/-- From the state `s`, with `n` steps done, `p` ends with a value and `Q`, with an exception and
`E`, or with undefined behaviour, if `U` allows it. -/
def Meets (p : Fallible σ α) (env : Environment) (n : ℕ) (s : σ) (Q : α → ℕ → σ → Prop)
    (E : σ → Prop) (U : Prop) : Prop :=
  match p env n s with
  | .ok a n s => Q a n s
  | .thrown s => E s
  | .undefined => U

variable {env : Environment} {n : ℕ} {s : σ} {Q Q' : α → ℕ → σ → Prop} {E : σ → Prop} {U : Prop}
  {p : Fallible σ α}

/-- A run that ends has the postcondition. -/
theorem Meets.ok (h : p.Meets env n s Q E U) {a : α} {n' : ℕ} {s' : σ}
    (hp : p env n s = .ok a n' s') : Q a n' s' := by
  rw [Meets, hp] at h
  exact h

/-- A run that throws leaves what was promised for that case. -/
theorem Meets.thrown (h : p.Meets env n s Q E U) {s' : σ} (hp : p env n s = .thrown s') :
    E s' := by
  rw [Meets, hp] at h
  exact h

/-- A run can be undefined only where that was allowed. -/
theorem Meets.undefined (h : p.Meets env n s Q E U) (hp : p env n s = .undefined) : U := by
  rw [Meets, hp] at h
  exact h

/-- The rule for `pure`. -/
theorem meets_pure {a : α} : (pure a : Fallible σ α).Meets env n s Q E U ↔ Q a n s := .rfl

/-- The rule for `get`. -/
theorem meets_get {Q : σ → ℕ → σ → Prop} : get.Meets env n s Q E U ↔ Q s n s := .rfl

/-- The rule for sequences: the first part must lead to what the second part needs. -/
theorem meets_bind {f : α → Fallible σ β} {Q : β → ℕ → σ → Prop} :
    (p >>= f).Meets env n s Q E U ↔
      p.Meets env n s (fun a n s => (f a).Meets env n s Q E U) E U := by
  change (match (match p env n s with
    | .ok a n s => f a env n s
    | .thrown s => .thrown s
    | .undefined => .undefined) with
    | .ok a n s => Q a n s
    | .thrown s => E s
    | .undefined => U) ↔ _
  rw [Meets]
  cases p env n s with
  | ok | thrown | undefined => exact .rfl

/-- The postcondition may be weakened. -/
theorem Meets.mono (h : p.Meets env n s Q E U) (hQ : ∀ a n s, Q a n s → Q' a n s) :
    p.Meets env n s Q' E U := by
  unfold Meets at *
  split at h
  · exact hQ _ _ _ h
  · exact h
  · exact h

/-- What holds after a throw may be weakened. -/
theorem Meets.weaken {E' : σ → Prop} (h : p.Meets env n s Q E U) (hE : ∀ s, E s → E' s) :
    p.Meets env n s Q E' U := by
  unfold Meets at *
  split at h
  · exact h
  · exact hE _ h
  · exact h

/-- Undefined behaviour may be allowed. -/
theorem Meets.allow {U' : Prop} (h : p.Meets env n s Q E U) (hU : U → U') :
    p.Meets env n s Q E U' := by
  unfold Meets at *
  split at h
  · exact h
  · exact h
  · exact hU h

/-- The rule for a change that is defined. -/
theorem meets_modify {f : σ → Option σ} {s' : σ} {Q : Unit → ℕ → σ → Prop} (hf : f s = some s') :
    (modify f).Meets env n s Q E U ↔ Q () n s' := by
  rw [Meets, modify, hf]

/-- A change that is not defined is undefined behaviour. -/
theorem meets_modify_none {f : σ → Option σ} {Q : Unit → ℕ → σ → Prop} (hf : f s = none) :
    (modify f).Meets env n s Q E U ↔ U := by
  rw [Meets, modify, hf]

/-- The rule for a change that is always defined. -/
theorem meets_modify_some {f : σ → σ} {Q : Unit → ℕ → σ → Prop} :
    (modify fun s => some (f s)).Meets env n s Q E U ↔ Q () n (f s) := .rfl

/-- A step: it throws in the state before it, or it is done. -/
theorem meets_attempt {f : σ → Option (ℕ × σ)} {r : ℕ} {s' : σ} {Q : Unit → ℕ → σ → Prop}
    (hf : f s = some (r, s')) :
    (attempt f).Meets env n s Q E U ↔
      (env n r = true → E s) ∧ (env n r = false → Q () (n + 1) s') := by
  rw [Meets, attempt, hf]
  cases h : env n r with
  | true => simp [h]
  | false => simp [h]

/-- The rule for an attempt: it throws and nothing changed, or it counts one step. -/
theorem meets_attempt_some {r : σ → ℕ} {f : σ → σ} {Q : Unit → ℕ → σ → Prop} :
    (attempt fun s => some (r s, f s)).Meets env n s Q E U ↔
      (env n (r s) = true → E s) ∧ (env n (r s) = false → Q () (n + 1) (f s)) :=
  meets_attempt rfl

/-- The rule for an action that is defined. -/
theorem meets_act {f : σ → Option (α × σ)} {a : α} {s' : σ} (hf : f s = some (a, s')) :
    (act f).Meets env n s Q E U ↔ Q a n s' := by
  rw [Meets, act, hf]

/-- An action that is not defined is undefined behaviour. -/
theorem meets_act_none {f : σ → Option (α × σ)} (hf : f s = none) :
    (act f).Meets env n s Q E U ↔ U := by
  rw [Meets, act, hf]

/-- The rule for an assert that holds. -/
theorem meets_require {P : Prop} [Decidable P] {Q : Unit → ℕ → σ → Prop} (hP : P) :
    (require P).Meets env n s Q E U ↔ Q () n s := by
  rw [Meets, require, if_pos hP]

/-- A program on a part of the state, with the rest as it was. -/
theorem meets_zoom {τ : Type} {part : τ → σ} {put : τ → σ → τ} {t : τ} {Q : α → ℕ → τ → Prop}
    {E : τ → Prop} : (p.zoom part put).Meets env n t Q E U ↔
      p.Meets env n (part t) (fun a n s => Q a n (put t s)) (fun s => E (put t s)) U := by
  rw [Meets, Meets, zoom]
  cases p env n (part t) with
  | ok | thrown | undefined => exact .rfl

/-- The rule for loops, with an invariant that each round moves on by one. -/
theorem meets_forFrom {body : ℕ → Fallible σ Unit} {m : ℕ} (I : ℕ → σ → Prop) :
    ∀ {k i n s}, i + k = m →
      (∀ i < m, ∀ n s, I i s → (body i).Meets env n s (fun _ _ s => I (i + 1) s) E U) → I i s →
      (forFrom body k i).Meets env n s (fun _ _ s => I m s) E U := by
  intro k
  induction k with
  | zero =>
    intro i n s hi _ hI
    rw [Nat.add_zero] at hi
    exact hi ▸ hI
  | succ k ih =>
    intro i n s hi hbody hI
    rw [forFrom, meets_bind]
    exact (hbody i (by omega) n s hI).mono fun _ _ _ hI => ih (by omega) hbody hI

/-- A loop with the invariant `I i` before round `i`. -/
theorem meets_forLoop {body : ℕ → Fallible σ Unit} {m : ℕ} (I : ℕ → σ → Prop)
    (hbody : ∀ i < m, ∀ n s, I i s → (body i).Meets env n s (fun _ _ s => I (i + 1) s) E U)
    (hI : I 0 s) : (forLoop m body).Meets env n s (fun _ _ s => I m s) E U :=
  meets_forFrom I (Nat.zero_add m) hbody hI

/-- A condition that every call meets in every state. -/
theorem throughout_of_forall {C : Type} {call : C → Fallible σ Unit} {P : σ → C → Prop}
    (hP : ∀ s e, P s e) {es : List C} : ∀ {n s}, Throughout call P env n s es := by
  induction es with
  | nil => exact trivial
  | cons e es ih =>
    intro n s
    rw [Throughout]
    refine ⟨hP s e, ?_⟩
    split
    · exact ih
    · trivial

/-- Calls that each meet `P` and follow `next` from a state of a specification to another. -/
theorem meets_runAll {C R : Type} {call : C → Fallible σ Unit} {P : σ → C → Prop}
    {next : R → C → Option R} {I : R → σ → Prop}
    (hcall : ∀ e r r' n s, I r s → next r e = some r' → P s e →
      (call e).Meets env n s (fun _ _ s' => I r' s') E U) {es : List C} {r' : R} :
    ∀ {r n s}, es.foldlM next r = some r' → I r s → Throughout call P env n s es →
      (runAll call es).Meets env n s (fun _ _ s' => I r' s') E U := by
  induction es with
  | nil =>
    intro r n s hes hI _
    cases hes
    exact hI
  | cons e es ih =>
    intro r n s hes hI hP
    rw [List.foldlM_cons] at hes
    obtain ⟨r₁, he, hes⟩ := Option.bind_eq_some_iff.1 hes
    obtain ⟨hPe, hrest⟩ := hP
    have hmeets := hcall e r r₁ n s hI he hPe
    rw [runAll, meets_bind]
    unfold Meets at hmeets ⊢
    split at hmeets
    · rename_i hrun
      rw [hrun] at hrest
      exact ih hes hmeets hrest
    · exact hmeets
    · exact hmeets

/-- What holds of every computation. -/
theorem meets_any (p : Fallible σ α) :
    p.Meets env n s (fun _ _ _ => True) (fun _ => True) True := by
  unfold Meets
  split
  · trivial
  · trivial
  · trivial

/-- A program that is undefined meets anything that allows it. -/
theorem meets_of_undefined (hp : p env n s = .undefined) : p.Meets env n s Q E True := by
  rw [Meets, hp]
  trivial

/-- What can do nothing else is undefined. -/
theorem Meets.eq_undefined {U : Prop}
    (h : p.Meets env n s (fun _ _ _ => False) (fun _ => False) U) :
    p env n s = .undefined := by
  cases hp : p env n s with
  | ok a n' s' => exact (h.ok hp).elim
  | thrown s' => exact (h.thrown hp).elim
  | undefined => rfl

/-- What a computation that meets something does when no step throws. -/
theorem Meets.of_never (h : p.Meets .never n s Q (fun _ => Environment.never.Fails) False) :
    ∃ a n' s', p .never n s = .ok a n' s' ∧ Q a n' s' := by
  cases hp : p .never n s with
  | ok a n' s' => exact ⟨a, n', s', rfl, h.ok hp⟩
  | thrown s' => exact (Environment.not_fails_never (h.thrown hp)).elim
  | undefined => exact (h.undefined hp).elim

end Fallible

end RockCoro
