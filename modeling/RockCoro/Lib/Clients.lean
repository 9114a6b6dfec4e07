import RockCoro.Lib.AtomicObject

/-!
# Programs that use an atomic object

A `Client` is a program of several threads that call the operations of an object. `Client.Run` are
its runs on the object itself, where an operation takes effect at one moment; `Client.RunOn` are its
runs on a machine that implements the object, whose steps are interleaved with those of the client.
If the machine, by itself, has only linearizable runs, then a run on it is a run on the object
(`Client.RunOn.run`).
-/

namespace AtomicObject

section
variable {S I T Op Ret σ : Type*}

/-- The operation has taken effect. -/
def Phase.isDone : Phase Op Ret → Bool
  | .done .. => true
  | _ => false

/-- What a thread does between two calls, up to a call, and behind it with the result. -/
structure Client (S T Op Ret : Type*) where
  own : T → S → S → Prop
  call : T → S → Op → S → Prop
  ret : T → S → Ret → S → Prop

/-- An implementation. A step shows at most one event; `idle` are the threads without a call. -/
structure Machine (I T Op Ret : Type*) where
  step : I → Option (Event T Op Ret) → I → Prop
  idle : I → T → Prop

variable {cl : Client S T Op Ret} {m : Machine I T Op Ret} {obj : Object Op Ret σ} {s₀ s : S}
  {i₀ i : I} {log : List (Event T Op Ret)}

/-- The runs of a machine. -/
inductive Machine.Run (m : Machine I T Op Ret) (i₀ : I) : List (Event T Op Ret) → I → Prop
  | start : Run m i₀ [] i₀
  | step {log i x i'} (hr : Run m i₀ log i) (hs : m.step i x i') : Run m i₀ (log ++ x.toList) i'

/-- The runs of a client on a machine. A thread that is in a call does nothing else. -/
inductive Client.RunOn (cl : Client S T Op Ret) (m : Machine I T Op Ret) (s₀ : S) (i₀ : I) :
    List (Event T Op Ret) → S → I → Prop
  | start : RunOn cl m s₀ i₀ [] s₀ i₀
  | own {log s i t s'} (hr : RunOn cl m s₀ i₀ log s i) (hi : m.idle i t) (hs : cl.own t s s') :
    RunOn cl m s₀ i₀ log s' i
  | inner {log s i i'} (hr : RunOn cl m s₀ i₀ log s i) (hs : m.step i none i') :
    RunOn cl m s₀ i₀ log s i'
  | commit {log s i t op r i'} (hr : RunOn cl m s₀ i₀ log s i)
    (hs : m.step i (some (.commit t op r)) i') :
    RunOn cl m s₀ i₀ (log ++ [.commit t op r]) s i'
  | call {log s i t op s' i'} (hr : RunOn cl m s₀ i₀ log s i) (hs : cl.call t s op s')
    (hm : m.step i (some (.call t op)) i') : RunOn cl m s₀ i₀ (log ++ [.call t op]) s' i'
  | ret {log s i t r s' i'} (hr : RunOn cl m s₀ i₀ log s i) (hs : cl.ret t s r s')
    (hm : m.step i (some (.ret t r)) i') : RunOn cl m s₀ i₀ (log ++ [.ret t r]) s' i'

/-- The machine takes the steps of a run with its clients as a run of its own. -/
theorem Client.RunOn.machine (hr : cl.RunOn m s₀ i₀ log s i) : m.Run i₀ log i := by
  induction hr with
  | start => exact .start
  | own _ _ _ ih => exact ih
  | inner _ hs ih =>
    have hrun := ih.step hs
    rwa [Option.toList_none, List.append_nil] at hrun
  | commit _ hs ih => exact ih.step hs
  | call _ _ hm ih => exact ih.step hm
  | ret _ _ hm ih => exact ih.step hm

variable [DecidableEq T] {q q' : State T Op Ret σ}

/-- The runs of a client on the object. -/
inductive Client.Run (cl : Client S T Op Ret) (obj : Object Op Ret σ) (s₀ : S) :
    S → State T Op Ret σ → Prop
  | start : Run cl obj s₀ s₀ ⟨obj.init, fun _ => .idle⟩
  | own {s q t s'} (hr : Run cl obj s₀ s q) (hi : q.phases t = .idle) (hs : cl.own t s s') :
    Run cl obj s₀ s' q
  | commit {s q t op r q'} (hr : Run cl obj s₀ s q) (hq : Step obj q (.commit t op r) q') :
    Run cl obj s₀ s q'
  | call {s q t op s' q'} (hr : Run cl obj s₀ s q) (hs : cl.call t s op s')
    (hq : Step obj q (.call t op) q') : Run cl obj s₀ s' q'
  | ret {s q t r s' q'} (hr : Run cl obj s₀ s q) (hs : cl.ret t s r s')
    (hq : Step obj q (.ret t r) q') : Run cl obj s₀ s' q'

/-- In each state of each run, the events so far are a log of the object in which the threads that
are idle have no call. -/
def Machine.Implements (m : Machine I T Op Ret) (i₀ : I) (obj : Object Op Ret σ) : Prop :=
  ∀ log i, m.Run i₀ log i →
    ∃ q : State T Op Ret σ, Trace obj log q ∧ ∀ t, m.idle i t → q.phases t = .idle

/-- An event leads from a state of the object to one state. -/
theorem Step.unique {e : Event T Op Ret} {q₁ q₂ : State T Op Ret σ} (h₁ : Step obj q e q₁)
    (h₂ : Step obj q e q₂) : q₁ = q₂ := by
  cases h₁ with
  | call h =>
    cases h₂ with
    | call h' => rfl
  | commit h hr =>
    cases h₂ with
    | commit h' hr' =>
      obtain ⟨rfl, -⟩ := Prod.mk.inj (hr.symm.trans hr')
      rfl
  | ret h =>
    cases h₂ with
    | ret h' => rfl

/-- A log ends in one state. -/
theorem Trace.unique (h : Trace obj log q) (h' : Trace obj log q') : q = q' := by
  induction h generalizing q' with
  | nil =>
    generalize hlog : ([] : List (Event T Op Ret)) = log' at h'
    cases h' with
    | nil => rfl
    | snoc => simp at hlog
  | @snoc log q e q₁ h hs ih =>
    generalize hlog : log ++ [e] = log' at h'
    cases h' with
    | nil => simp at hlog
    | snoc h' hs' =>
      obtain ⟨rfl, rfl⟩ := List.append_singleton_inj.1 hlog
      obtain rfl := ih h'
      exact hs.unique hs'

/-- The last step of a log. -/
theorem Trace.step_of_concat {e : Event T Op Ret} (h : Trace obj log q)
    (h' : Trace obj (log ++ [e]) q') : Step obj q e q' := by
  obtain ⟨q₁, q₂, h₁, hs⟩ := h'.split
  obtain rfl := h.unique h₁
  obtain rfl := h'.unique (h.snoc hs)
  exact hs

/-- A run on a machine that implements the object is a run on the object. -/
theorem Client.RunOn.run (hm : m.Implements i₀ obj) (hr : cl.RunOn m s₀ i₀ log s i) :
    ∃ q : State T Op Ret σ, cl.Run obj s₀ s q ∧ Trace obj log q := by
  induction hr with
  | start => exact ⟨_, .start, .nil⟩
  | own hr hi hs ih =>
    obtain ⟨q, hrun, htrace⟩ := ih
    obtain ⟨q', htrace', hidle⟩ := hm _ _ hr.machine
    obtain rfl := htrace.unique htrace'
    exact ⟨q, hrun.own (hidle _ hi) hs, htrace⟩
  | inner _ _ ih => exact ih
  | commit hr hs ih =>
    obtain ⟨q, hrun, htrace⟩ := ih
    obtain ⟨q', htrace', -⟩ := hm _ _ (hr.commit hs).machine
    exact ⟨q', hrun.commit (htrace.step_of_concat htrace'), htrace'⟩
  | call hr hs hm' ih =>
    obtain ⟨q, hrun, htrace⟩ := ih
    obtain ⟨q', htrace', -⟩ := hm _ _ (hr.call hs hm').machine
    exact ⟨q', hrun.call hs (htrace.step_of_concat htrace'), htrace'⟩
  | ret hr hs hm' ih =>
    obtain ⟨q, hrun, htrace⟩ := ih
    obtain ⟨q', htrace', -⟩ := hm _ _ (hr.ret hs hm').machine
    exact ⟨q', hrun.ret hs (htrace.step_of_concat htrace'), htrace'⟩

end

end AtomicObject
