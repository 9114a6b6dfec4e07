import Mathlib.Data.List.Basic
import Mathlib.Tactic.Common

/-!
# Logs

A log is a list of events that grows at its end. A property of a log that speaks of an event and of
what is before it is proved one event at a time.
-/

namespace RockCoro

variable {E : Type*} {log l l₀ l₁ : List E} {a b e e' : E} {about : E → Prop}

/-- A position of a log that has grown by one event is the new end or is one of the old log. -/
theorem append_cons_of_concat (h : l ++ [b] = l₀ ++ a :: l₁) :
    b = a ∧ l = l₀ ∨ ∃ l₂, l₁ = l₂ ++ [b] ∧ l = l₀ ++ a :: l₂ := by
  rcases List.eq_nil_or_concat l₁ with rfl | ⟨l₂, c, rfl⟩
  · obtain ⟨hl, hb⟩ := List.append_singleton_inj.1 h
    exact .inl ⟨hb, hl⟩
  · rw [List.concat_eq_append, ← List.cons_append, ← List.append_assoc] at h
    obtain ⟨hl, rfl⟩ := List.append_singleton_inj.1 h
    exact .inr ⟨l₂, List.concat_eq_append, hl⟩

/-- `e` is in the log, and no event after it is `about` what it is about. -/
def Latest (about : E → Prop) (log : List E) (e : E) : Prop :=
  ∃ l₀ l₁, log = l₀ ++ e :: l₁ ∧ ∀ e' ∈ l₁, ¬about e'

/-- The event at the end is the latest about anything. -/
theorem Latest.concat_self : Latest about (log ++ [e]) e :=
  ⟨log, [], rfl, fun _ h => absurd h List.not_mem_nil⟩

/-- An event about something else leaves the latest one the latest. -/
theorem Latest.concat (h : Latest about log e) (he : ¬about e') : Latest about (log ++ [e']) e := by
  obtain ⟨l₀, l₁, rfl, hl⟩ := h
  refine ⟨l₀, l₁ ++ [e'], by rw [List.append_assoc, List.cons_append], fun e'' h'' => ?_⟩
  rcases List.mem_append.1 h'' with h'' | h''
  · exact hl e'' h''
  · exact List.mem_singleton.1 h'' ▸ he

/-- There is one latest event about a thing. -/
theorem Latest.unique (h : Latest about log e) (h' : Latest about log e') (he : about e)
    (he' : about e') : e = e' := by
  obtain ⟨l₀, l₁, hlog, hl⟩ := h
  obtain ⟨l₂, l₃, hlog', hl'⟩ := h'
  rcases List.append_eq_append_iff.1 (hlog.symm.trans hlog') with ⟨l, -, hrest⟩ | ⟨l, -, hrest⟩
  · cases l with
    | nil => exact (List.cons.inj hrest).1
    | cons a l =>
      obtain ⟨-, rfl⟩ := List.cons.inj hrest
      exact absurd he' (hl e' (List.mem_append_right _ List.mem_cons_self))
  · cases l with
    | nil => exact (List.cons.inj hrest).1.symm
    | cons a l =>
      obtain ⟨-, rfl⟩ := List.cons.inj hrest
      exact absurd he (hl' e (List.mem_append_right _ List.mem_cons_self))

/-- The latest event is not before another one about the same thing. -/
theorem Latest.mem_of_append (h : Latest about (l₀ ++ e' :: l₁) e) (he' : about e')
    (hne : e ≠ e') : e ∈ l₁ := by
  obtain ⟨l₂, l₃, hlog, hl⟩ := h
  rcases List.append_eq_append_iff.1 hlog with ⟨l, -, hrest⟩ | ⟨l, -, hrest⟩
  · cases l with
    | nil => exact absurd (List.cons.inj hrest).1.symm hne
    | cons a l =>
      obtain ⟨-, rfl⟩ := List.cons.inj hrest
      exact List.mem_append_right _ List.mem_cons_self
  · cases l with
    | nil => exact absurd (List.cons.inj hrest).1 hne
    | cons a l =>
      obtain ⟨-, rfl⟩ := List.cons.inj hrest
      exact absurd he' (hl e' (List.mem_append_right _ List.mem_cons_self))

/-- A relation between each event and the log before it, extended by one event. -/
theorem forall_split_concat {P : List E → E → Prop} (h : ∀ l₀ e l₁, log = l₀ ++ e :: l₁ → P l₀ e)
    (hb : P log b) : ∀ l₀ e l₁, log ++ [b] = l₀ ++ e :: l₁ → P l₀ e := by
  intro l₀ e l₁ hlog
  rcases append_cons_of_concat hlog with ⟨rfl, rfl⟩ | ⟨l₂, -, hl⟩
  · exact hb
  · exact h l₀ e l₂ hl

/-- Every `A` of the log comes after a `B`. -/
def Preceded (A B : E → Prop) (log : List E) : Prop :=
  ∀ l₀ e l₁, log = l₀ ++ e :: l₁ → A e → ∃ e' ∈ l₀, B e'

section
variable {A B : E → Prop}

/-- A log without an `A` has nothing to precede. -/
theorem preceded_of_forall_not (h : ∀ e ∈ log, ¬A e) : Preceded A B log := by
  rintro l₀ e l₁ rfl he
  exact absurd he (h e (List.mem_append_right _ List.mem_cons_self))

/-- The first event, if it is no `A`, may be the `B` that everything after it needs. -/
theorem preceded_cons (he : ¬A e) : Preceded A B (e :: log) ↔ B e ∨ Preceded A B log := by
  constructor
  · intro h
    by_cases hb : B e
    · exact .inl hb
    · refine .inr fun l₀ e' l₁ hlog he' => ?_
      obtain ⟨e'', hmem, hb'⟩ := h (e :: l₀) e' l₁ (congrArg _ hlog) he'
      rcases List.mem_cons.1 hmem with rfl | hmem
      · exact absurd hb' hb
      · exact ⟨e'', hmem, hb'⟩
  · intro h l₀ e' l₁ hlog he'
    cases l₀ with
    | nil =>
      obtain rfl : e = e' := (List.cons.inj hlog).1
      exact absurd he' he
    | cons e₀ l₀ =>
      obtain ⟨rfl, hlog'⟩ := List.cons.inj hlog
      rcases h with hb | h
      · exact ⟨e, List.mem_cons_self, hb⟩
      · obtain ⟨e'', hmem, hb⟩ := h l₀ e' l₁ hlog' he'
        exact ⟨e'', List.mem_cons_of_mem _ hmem, hb⟩

/-- A log does not start with an event that needs one before it. -/
theorem Preceded.head (h : Preceded A B (e :: log)) : ¬A e := by
  intro he
  obtain ⟨e', hmem, -⟩ := h [] e log rfl he
  exact absurd hmem List.not_mem_nil

/-- A log goes on: its first part has a `B`, or the second part keeps the rule by itself. -/
theorem Preceded.append (h : Preceded A B l) (h' : (∃ e ∈ l, B e) ∨ Preceded A B log) :
    Preceded A B (l ++ log) := by
  induction l with
  | nil => exact h'.resolve_left fun ⟨e, he, _⟩ => absurd he List.not_mem_nil
  | cons e l ih =>
    have he := h.head
    rw [List.cons_append, preceded_cons he]
    rcases (preceded_cons he).1 h with hb | h
    · exact .inl hb
    · by_cases hb : B e
      · exact .inl hb
      · refine .inr (ih h (h'.imp_left ?_))
        rintro ⟨e', he', hb'⟩
        rcases List.mem_cons.1 he' with rfl | he'
        · exact absurd hb' hb
        · exact ⟨e', he', hb'⟩

/-- If a `B` comes before every `A`, and a `C` before every `B`, a `C` comes before every `A`. -/
theorem Preceded.trans {C : E → Prop} (h : Preceded A B log) (h' : Preceded B C log) :
    Preceded A C log := by
  rintro l₀ e l₁ rfl he
  obtain ⟨e', hmem, hb⟩ := h l₀ e l₁ rfl he
  obtain ⟨l₂, l₃, rfl⟩ := List.append_of_mem hmem
  obtain ⟨e'', hmem', hc⟩ := h' l₂ e' (l₃ ++ e :: l₁) (by simp) hb
  exact ⟨e'', List.mem_append_left _ hmem', hc⟩

end

end RockCoro
