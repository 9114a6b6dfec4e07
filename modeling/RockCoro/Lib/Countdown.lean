import RockCoro.Lib.Potential
import Mathlib.Algebra.Group.Nat.Defs

/-!
# Waiting for a number of ticks

Somebody who waits asks for a number of ticks, is fired when they have passed, and resumes.
`Next P` is one such wait as an automaton: no tick passes between the request and the moment when
the number is settled, and that number meets `P`. `Story` is what the signals of a run say about the
wait at each stage.
-/

namespace Countdown

open Potential

/-- What a step means to the one who waits. -/
inductive Signal
  | ask
  | tick
  | fire
  | resume
  | other
  deriving DecidableEq

/-- The step is not about the one who waits. -/
def Signal.Quiet (σ : Signal) : Prop := σ = .tick ∨ σ = .other

/-- How far a wait is. -/
inductive Stage
  | held
  | asked
  /-- To be fired when `n` more ticks have begun. -/
  | due (n : ℕ)
  | ready
  | gone

/-- One step of a wait. -/
inductive Next (P : ℕ → Prop) : Stage → Signal → Stage → Prop
  | hold {σ} (h : σ.Quiet) : Next P .held σ .held
  | ask : Next P .held .ask .asked
  | wait : Next P .asked .other .asked
  | settle {n} (h : P n) : Next P .asked .other (.due n)
  | stay {n} : Next P (.due n) .other (.due n)
  | tick {n} : Next P (.due (n + 1)) .tick (.due n)
  | fire : Next P (.due 0) .fire .ready
  | rest {σ} (h : σ.Quiet) : Next P .ready σ .ready
  | resume : Next P .ready .resume .gone
  | leave {σ} : Next P .gone σ .gone

/-- What the signals since the start of the wait say at a stage: it was asked for once; no tick
passed before the number of ticks was settled; it was fired once, after that number of ticks; and it
was not resumed before. -/
def Story (P : ℕ → Prop) : Stage → List Signal → Prop
  | .held, as => ∀ σ ∈ as, σ.Quiet
  | .asked, as => ∃ u v, as = u ++ .ask :: v ∧ (∀ σ ∈ u, σ.Quiet) ∧ ∀ σ ∈ v, σ = .other
  | .due n, as => ∃ u v, as = u ++ .ask :: v ∧ (∀ σ ∈ u ++ v, σ.Quiet) ∧ P (v.count .tick + n)
  | .ready, as => ∃ u v t, as = u ++ .ask :: v ++ .fire :: t ∧ (∀ σ ∈ u ++ v ++ t, σ.Quiet) ∧
      P (v.count .tick)
  | .gone, as => ∃ u v t r, as = u ++ .ask :: v ++ .fire :: t ++ .resume :: r ∧
      (∀ σ ∈ u ++ v ++ t, σ.Quiet) ∧ P (v.count .tick)

variable {P : ℕ → Prop} {st st' : Stage} {σ : Signal} {as bs : List Signal}

/-- Another's step is quiet. -/
theorem Signal.quiet_other : Signal.other.Quiet := .inr rfl

/-- A tick is quiet: it is not about one who is not due. -/
theorem Signal.quiet_tick : Signal.tick.Quiet := .inl rfl

/-- Quiet steps stay quiet with one more. -/
theorem quiet_concat (h : ∀ τ ∈ as, τ.Quiet) (hσ : σ.Quiet) : ∀ τ ∈ as ++ [σ], τ.Quiet := by
  intro τ hτ
  rcases List.mem_append.1 hτ with hτ | hτ
  · exact h τ hτ
  · rwa [List.mem_singleton.1 hτ]

/-- A story goes on with the next step of the wait. -/
theorem Story.next (h : Story P st as) (hn : Next P st σ st') : Story P st' (as ++ [σ]) := by
  cases hn with
  | hold hσ => exact quiet_concat h hσ
  | ask => exact ⟨as, [], rfl, h, fun τ hτ => absurd hτ List.not_mem_nil⟩
  | wait =>
    obtain ⟨u, v, rfl, hu, hv⟩ := h
    refine ⟨u, v ++ [.other], by simp, hu, fun τ hτ => ?_⟩
    rcases List.mem_append.1 hτ with hτ | hτ
    · exact hv τ hτ
    · exact List.mem_singleton.1 hτ
  | settle hP =>
    obtain ⟨u, v, rfl, hu, hv⟩ := h
    have hcount : v.count .tick = 0 := by
      refine List.count_eq_zero_of_not_mem fun hm => ?_
      cases hv _ hm
    refine ⟨u, v ++ [.other], by simp, fun τ hτ => ?_, ?_⟩
    · rw [← List.append_assoc] at hτ
      refine quiet_concat (fun τ hτ => ?_) Signal.quiet_other τ hτ
      rcases List.mem_append.1 hτ with hτ | hτ
      · exact hu τ hτ
      · exact .inr (hv τ hτ)
    · simpa [hcount] using hP
  | stay =>
    obtain ⟨u, v, rfl, hquiet, hP⟩ := h
    refine ⟨u, v ++ [.other], by simp, ?_, by simpa using hP⟩
    rw [← List.append_assoc]
    exact quiet_concat hquiet Signal.quiet_other
  | tick =>
    obtain ⟨u, v, rfl, hquiet, hP⟩ := h
    refine ⟨u, v ++ [.tick], by simp, ?_, ?_⟩
    · rw [← List.append_assoc]
      exact quiet_concat hquiet Signal.quiet_tick
    · rwa [List.count_append, List.count_singleton_self, Nat.add_assoc, Nat.add_comm 1]
  | fire =>
    obtain ⟨u, v, rfl, hquiet, hP⟩ := h
    exact ⟨u, v, [], rfl, by rwa [List.append_nil], hP⟩
  | rest hσ =>
    obtain ⟨u, v, t, rfl, hquiet, hP⟩ := h
    refine ⟨u, v, t ++ [σ], by simp, ?_, hP⟩
    rw [← List.append_assoc]
    exact quiet_concat hquiet hσ
  | resume =>
    obtain ⟨u, v, t, rfl, hquiet, hP⟩ := h
    exact ⟨u, v, t, [], rfl, hquiet, hP⟩
  | leave =>
    obtain ⟨u, v, t, r, rfl, hquiet, hP⟩ := h
    exact ⟨u, v, t, r ++ [σ], by simp, hquiet, hP⟩

/-- A run of the wait tells its story. -/
theorem story_of_steps (h : Steps (Next P) .held as st) : Story P st as := by
  induction h with
  | refl => exact fun τ hτ => absurd hτ List.not_mem_nil
  | step _ hn ih => exact ih.next hn

end Countdown
