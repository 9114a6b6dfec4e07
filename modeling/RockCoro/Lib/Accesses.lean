import RockCoro.Lib.Logs
import Mathlib.Data.Set.Basic
import Mathlib.Tactic.Common

/-!
# Programs access by access

A program over a memory of cells is a tree of accesses: it reads a cell, writes a cell, or marks a
point that a property speaks of, and goes on. `log` is the list of its accesses, each with the
memory at its time, so that a property of each access is a property of the members of the log.
`Prog.run_agree` is the rule for cells with stale contents: two memories that agree elsewhere cannot
be told apart by a program that reads no such cell before it writes it.
-/

namespace RockCoro

/-- The memory `σ` has cells `ι`, with a value of type `V i` at `i`. -/
class Cells (σ : Type) {ι : outParam Type} (V : outParam (ι → Type)) where
  get : σ → ∀ i, V i
  set : σ → ∀ i, V i → σ
  get_set_self : ∀ s i v, get (set s i v) i = v
  get_set_of_ne : ∀ s i v j, j ≠ i → get (set s i v) j = get s j

/-- One access, or a mark. -/
inductive Access {ι : Type} (V : ι → Type) (E : Type)
  | read (i : ι)
  | write (i : ι) (v : V i)
  | mark (e : E)

/-- A program: a tree of accesses that branches on what it reads. -/
inductive Prog {ι : Type} (V : ι → Type) (E : Type) (α : Type)
  | ret (a : α)
  /-- The program is stuck: out of fuel, or without the value that it needs. -/
  | fail
  | read (i : ι) (k : V i → Prog V E α)
  | write (i : ι) (v : V i) (k : Prog V E α)
  | mark (e : E) (k : Prog V E α)

namespace Prog

section
variable {ι : Type} {V : ι → Type} {E α β : Type}

/-- One program, and then another on its result. -/
def bind : Prog V E α → (α → Prog V E β) → Prog V E β
  | ret a, f => f a
  | fail, _ => fail
  | read i k, f => read i fun v => (k v).bind f
  | write i v k, f => write i v (k.bind f)
  | mark e k, f => mark e (k.bind f)

instance : Monad (Prog V E) where
  pure := ret
  bind := bind

variable {σ : Type} [Cells σ V]

/-- The result and the memory at the end. -/
def run : Prog V E α → σ → Option (α × σ)
  | ret a, s => some (a, s)
  | fail, _ => none
  | read i k, s => (k (Cells.get s i)).run s
  | write i v k, s => k.run (Cells.set s i v)
  | mark _ k, s => k.run s

/-- The accesses in their order, each with the memory before it. -/
def log : Prog V E α → σ → List (σ × Access V E)
  | ret _, _ => []
  | fail, _ => []
  | read i k, s => (s, .read i) :: (k (Cells.get s i)).log s
  | write i v k, s => (s, .write i v) :: k.log (Cells.set s i v)
  | mark e k, s => (s, .mark e) :: k.log s

/-- Every access of the run is `ok` at its time. -/
def Safe (ok : σ → Access V E → Prop) (p : Prog V E α) (s : σ) : Prop :=
  ∀ e ∈ p.log s, ok e.1 e.2

variable {p : Prog V E α} {f : α → Prog V E β} {a : α} {i : ι} {v : V i} {e : E}
  {k : V i → Prog V E α} {s s' t : σ} {ok : σ → Access V E → Prop}

@[simp] theorem pure_eq : (pure a : Prog V E α) = ret a := rfl

@[simp] theorem bind_eq : (p >>= f) = p.bind f := rfl

@[simp] theorem ret_bind : (ret a).bind f = f a := rfl

@[simp] theorem fail_bind : (fail : Prog V E α).bind f = fail := rfl

@[simp] theorem read_bind : (read i k).bind f = read i fun v => (k v).bind f := rfl

@[simp] theorem write_bind : (write i v p).bind f = write i v (p.bind f) := rfl

@[simp] theorem mark_bind : (mark e p).bind f = mark e (p.bind f) := rfl

@[simp] theorem run_ret : (ret a : Prog V E α).run s = some (a, s) := rfl

@[simp] theorem run_fail : (fail : Prog V E α).run s = none := rfl

@[simp] theorem run_read : (read i k).run s = (k (Cells.get s i)).run s := rfl

@[simp] theorem run_write : (write i v p).run s = p.run (Cells.set s i v) := rfl

@[simp] theorem run_mark : (mark e p).run s = p.run s := rfl

@[simp] theorem run_ite {c : Prop} [Decidable c] {q : Prog V E α} :
    (if c then p else q).run s = if c then p.run s else q.run s := by
  split <;> rfl

/-- The run of a sequence is the run of its second part from where the first part ends. -/
theorem run_bind : (p.bind f).run s = (p.run s).bind fun r => (f r.1).run r.2 := by
  induction p generalizing s with
  | ret a => rfl
  | fail => rfl
  | read i k ih => exact ih _
  | write i v k ih => exact ih
  | mark e k ih => exact ih

/-- A function of the result is applied at the end of the run. -/
theorem run_bind_ret {g : α → β} :
    (p.bind fun a => ret (g a)).run s = (p.run s).map fun r => (g r.1, r.2) := by
  rw [run_bind]
  cases p.run s <;> rfl

/-- The log of a sequence is the log of the first part, and if that ends, the log of the second.
-/
theorem log_bind :
    (p.bind f).log s = p.log s ++ (p.run s).elim [] fun r => (f r.1).log r.2 := by
  induction p generalizing s with
  | ret a => rfl
  | fail => rfl
  | read i k ih => exact congrArg _ (ih _)
  | write i v k ih => exact congrArg _ ih
  | mark e k ih => exact congrArg _ ih

/-- The log of a sequence whose first part is known to end. -/
theorem log_bind_of_eq {r : α × σ} (h : p.run s = some r) :
    (p.bind f).log s = p.log s ++ (f r.1).log r.2 := by
  rw [log_bind, h, Option.elim_some]

@[simp] theorem log_ret : (ret a : Prog V E α).log s = [] := rfl

@[simp] theorem log_read : (read i k).log s = (s, .read i) :: (k (Cells.get s i)).log s := rfl

@[simp] theorem log_write : (write i v p).log s = (s, .write i v) :: p.log (Cells.set s i v) := rfl

@[simp] theorem log_mark : (mark e p).log s = (s, .mark e) :: p.log s := rfl

@[simp] theorem log_ite {c : Prop} [Decidable c] {q : Prog V E α} :
    (if c then p else q).log s = if c then p.log s else q.log s := by
  split <;> rfl

/-! ## Safe runs -/

@[simp] theorem safe_ret : Safe ok (ret a) s := fun _ h => absurd h List.not_mem_nil

@[simp] theorem safe_fail : Safe ok (fail : Prog V E α) s := fun _ h => absurd h List.not_mem_nil

@[simp] theorem safe_read : Safe ok (read i k) s ↔ ok s (.read i) ∧ Safe ok (k (Cells.get s i)) s :=
  List.forall_mem_cons

@[simp] theorem safe_write :
    Safe ok (write i v p) s ↔ ok s (.write i v) ∧ Safe ok p (Cells.set s i v) :=
  List.forall_mem_cons

@[simp] theorem safe_mark : Safe ok (mark e p) s ↔ ok s (.mark e) ∧ Safe ok p s :=
  List.forall_mem_cons

@[simp] theorem safe_ite {c : Prop} [Decidable c] {q : Prog V E α} :
    Safe ok (if c then p else q) s ↔ if c then Safe ok p s else Safe ok q s := by
  split <;> rfl

/-- A sequence is safe when both parts are, the second one from where the first ends. -/
theorem safe_bind :
    Safe ok (p.bind f) s ↔ Safe ok p s ∧ ∀ r, p.run s = some r → Safe ok (f r.1) r.2 := by
  unfold Safe
  rw [log_bind, List.forall_mem_append]
  refine and_congr_right fun _ => ?_
  cases p.run s with
  | none => simp
  | some r => simp

/-- The rule for a call. -/
theorem Safe.bind {r : α × σ} (hp : Safe ok p s) (hr : p.run s = some r)
    (hf : Safe ok (f r.1) r.2) : Safe ok (p.bind f) s := by
  refine safe_bind.2 ⟨hp, fun r' hr' => ?_⟩
  obtain rfl : r = r' := Option.some.inj (hr.symm.trans hr')
  exact hf

/-- What every access satisfies may be weakened. -/
theorem Safe.imp {ok' : σ → Access V E → Prop} (h : Safe ok p s)
    (himp : ∀ s x, ok s x → ok' s x) : Safe ok' p s :=
  fun e he => himp _ _ (h e he)

/-- What holds at the start and survives every write of the run holds at each access and at the
end. -/
theorem Safe.invariant {I : σ → Prop}
    (hI : ∀ s i v, I s → ok s (.write i v) → I (Cells.set s i v)) (h : Safe ok p s) (hs : I s) :
    (∀ e ∈ p.log s, I e.1) ∧ ∀ r, p.run s = some r → I r.2 := by
  induction p generalizing s with
  | ret a =>
    refine ⟨fun _ h => absurd h List.not_mem_nil, ?_⟩
    rintro _ ⟨⟩
    exact hs
  | fail => exact ⟨fun _ h => absurd h List.not_mem_nil, by simp⟩
  | read i k ih =>
    obtain ⟨hlog, hrun⟩ := ih _ (safe_read.1 h).2 hs
    exact ⟨List.forall_mem_cons.2 ⟨hs, hlog⟩, hrun⟩
  | write i v k ih =>
    obtain ⟨hok, h⟩ := safe_write.1 h
    obtain ⟨hlog, hrun⟩ := ih h (hI s i v hs hok)
    exact ⟨List.forall_mem_cons.2 ⟨hs, hlog⟩, hrun⟩
  | mark e k ih =>
    obtain ⟨hlog, hrun⟩ := ih (safe_mark.1 h).2 hs
    exact ⟨List.forall_mem_cons.2 ⟨hs, hlog⟩, hrun⟩

/-! ## Stale cells -/

/-- The memories hold the same outside of the cells `S`. -/
def Agree (S : Set ι) (s s' : σ) : Prop := ∀ i, i ∉ S → Cells.get s i = Cells.get s' i

/-- The access reads cell `i`. -/
def IsRead (i : ι) (x : σ × Access V E) : Prop := x.2 = .read i

/-- The access writes cell `i`. -/
def IsWrite (i : ι) (x : σ × Access V E) : Prop := ∃ v, x.2 = .write i v

/-- The run writes the cell. -/
def Writes (i : ι) (p : Prog V E α) (s : σ) : Prop := ∃ e ∈ p.log s, IsWrite i e

@[simp] theorem writes_read {j : ι} : Writes j (read i k) s ↔ Writes j (k (Cells.get s i)) s := by
  simp [Writes, IsWrite]

/-- A write writes. -/
theorem writes_write : Writes i (write i v p) s := ⟨(s, .write i v), List.mem_cons_self, v, rfl⟩

@[simp] theorem writes_ite {c : Prop} [Decidable c] {q : Prog V E α} :
    Writes i (if c then p else q) s ↔ if c then Writes i p s else Writes i q s := by
  split <;> rfl

/-- A sequence writes what its first part writes. -/
theorem Writes.bind_left {j : ι} (h : Writes j p s) : Writes j (p.bind f) s := by
  obtain ⟨e, he, hw⟩ := h
  refine ⟨e, ?_, hw⟩
  rw [log_bind]
  exact List.mem_append_left _ he

/-- A sequence writes what its second part writes. -/
theorem Writes.bind_right {j : ι} {r : α × σ} (hr : p.run s = some r)
    (h : Writes j (f r.1) r.2) : Writes j (p.bind f) s := by
  obtain ⟨e, he, hw⟩ := h
  refine ⟨e, ?_, hw⟩
  rw [log_bind_of_eq hr]
  exact List.mem_append_right _ he

variable {S : Set ι}

/-- Memories that differ on fewer cells agree on more. -/
theorem Agree.mono {S' : Set ι} (h : Agree S' s s') (hS : S' ⊆ S) : Agree S s s' :=
  fun i hi => h i fun hi' => hi (hS hi')

/-- A write makes a cell equal. -/
theorem Agree.set (h : Agree S s s') (i : ι) (v : V i) :
    Agree (S \ {i}) (Cells.set s i v) (Cells.set s' i v) := by
  intro j hj
  by_cases hji : j = i
  · subst hji
    rw [Cells.get_set_self, Cells.get_set_self]
  · rw [Cells.get_set_of_ne _ _ _ _ hji, Cells.get_set_of_ne _ _ _ _ hji]
    exact h j fun hjS => hj ⟨hjS, hji⟩

/-- A program that reads no cell of `S` before it writes it does the same on two memories that
differ at `S` only. -/
theorem run_agree (h : Agree S s s') (hp : ∀ i ∈ S, Preceded (IsRead i) (IsWrite i) (p.log s))
    {r : α × σ} (hr : p.run s = some r) : ∃ t, p.run s' = some (r.1, t) ∧ Agree S r.2 t := by
  induction p generalizing S s s' with
  | ret a =>
    obtain rfl := Option.some.inj hr
    exact ⟨s', rfl, h⟩
  | fail => exact absurd hr (by simp)
  | read i k ih =>
    have hi : i ∉ S := fun hi => (hp i hi).head rfl
    have hp' : ∀ j ∈ S, Preceded (IsRead j) (IsWrite j) ((k (Cells.get s i)).log s) := by
      intro j hj
      refine ((preceded_cons (hp j hj).head).1 (hp j hj)).resolve_left ?_
      rintro ⟨v, hv⟩
      cases hv
    rw [run_read, ← h i hi]
    exact ih _ h hp' hr
  | write i v k ih =>
    have hp' : ∀ j ∈ S \ {i}, Preceded (IsRead j) (IsWrite j) (k.log (Cells.set s i v)) := by
      rintro j ⟨hj, hji⟩
      refine ((preceded_cons (hp j hj).head).1 (hp j hj)).resolve_left ?_
      rintro ⟨v', hv'⟩
      cases hv'
      exact hji rfl
    obtain ⟨t, ht, hagree⟩ := ih (h.set i v) hp' hr
    exact ⟨t, ht, hagree.mono fun _ hj => hj.1⟩
  | mark e k ih =>
    refine ih h (fun j hj => ?_) hr
    refine ((preceded_cons (hp j hj).head).1 (hp j hj)).resolve_left ?_
    rintro ⟨v, hv⟩
    cases hv

/-- Each access of such a program is one that it makes on the other memory. -/
theorem log_agree (h : Agree S s s') (hp : ∀ i ∈ S, Preceded (IsRead i) (IsWrite i) (p.log s)) :
    ∀ x ∈ p.log s, ∃ x' ∈ p.log s', x'.2 = x.2 ∧ Agree S x.1 x'.1 := by
  induction p generalizing S s s' with
  | ret a | fail => exact fun _ hx => absurd hx List.not_mem_nil
  | read i k ih =>
    have hi : i ∉ S := fun hi => (hp i hi).head rfl
    have hp' : ∀ j ∈ S, Preceded (IsRead j) (IsWrite j) ((k (Cells.get s i)).log s) := by
      intro j hj
      refine ((preceded_cons (hp j hj).head).1 (hp j hj)).resolve_left ?_
      rintro ⟨v, hv⟩
      cases hv
    intro x hx
    rw [log_read, ← h i hi]
    rcases List.mem_cons.1 hx with rfl | hx
    · exact ⟨_, List.mem_cons_self, rfl, h⟩
    · obtain ⟨x', hx', hxx⟩ := ih _ h hp' x hx
      exact ⟨x', List.mem_cons_of_mem _ hx', hxx⟩
  | write i v k ih =>
    have hp' : ∀ j ∈ S \ {i}, Preceded (IsRead j) (IsWrite j) (k.log (Cells.set s i v)) := by
      rintro j ⟨hj, hji⟩
      refine ((preceded_cons (hp j hj).head).1 (hp j hj)).resolve_left ?_
      rintro ⟨v', hv'⟩
      cases hv'
      exact hji rfl
    intro x hx
    rcases List.mem_cons.1 hx with rfl | hx
    · exact ⟨_, List.mem_cons_self, rfl, h⟩
    · obtain ⟨x', hx', heq, hagree⟩ := ih (h.set i v) hp' x hx
      exact ⟨x', List.mem_cons_of_mem _ hx', heq, hagree.mono fun _ hj => hj.1⟩
  | mark e k ih =>
    have hp' : ∀ j ∈ S, Preceded (IsRead j) (IsWrite j) (k.log s) := by
      intro j hj
      refine ((preceded_cons (hp j hj).head).1 (hp j hj)).resolve_left ?_
      rintro ⟨v, hv⟩
      cases hv
    intro x hx
    rcases List.mem_cons.1 hx with rfl | hx
    · exact ⟨_, List.mem_cons_self, rfl, h⟩
    · obtain ⟨x', hx', hxx⟩ := ih h hp' x hx
      exact ⟨x', List.mem_cons_of_mem _ hx', hxx⟩

end

end Prog

end RockCoro
