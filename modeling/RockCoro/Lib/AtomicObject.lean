import Mathlib.Logic.Function.Basic
import Mathlib.Data.List.Induction

/-!
# Atomic objects

A concurrent object is linearizable if every operation takes effect at one moment between its call
and its return, as the sequential object says. `Trace obj log s` are the logs of such executions:
calls, the moments where operations take effect (`commit`), and returns. `Fifo.queue` are first-in
first-out queues, one for each index.
-/

namespace AtomicObject

section
variable {T Op Ret σ : Type*}

/-- A sequential object. -/
structure Object (Op Ret σ : Type*) where
  init : σ
  apply : Op → σ → σ × Ret

/-- What is observed of an operation: its call, the moment where it takes effect, and its return.
-/
inductive Event (T Op Ret : Type*)
  | call (t : T) (op : Op)
  /-- The operation takes effect, with its result. -/
  | commit (t : T) (op : Op) (r : Ret)
  | ret (t : T) (r : Ret)
  deriving DecidableEq

/-- Where a thread stands with its operation. -/
inductive Phase (Op Ret : Type*)
  | idle
  | pending (op : Op)
  | done (op : Op) (r : Ret)

/-- The value of the object, and where each thread stands. -/
structure State (T Op Ret σ : Type*) where
  value : σ
  phases : T → Phase Op Ret

/-- The thread that an event is about. -/
def Event.thread : Event T Op Ret → T
  | .call t _ | .commit t _ _ | .ret t _ => t

section
variable [DecidableEq T]

/-- The thread `t` comes to phase `p`. -/
def State.setPhase (s : State T Op Ret σ) (t : T) (p : Phase Op Ret) : State T Op Ret σ :=
  { s with phases := Function.update s.phases t p }

/-- A step of an object whose operations are atomic. -/
inductive Step (obj : Object Op Ret σ) (s : State T Op Ret σ) :
    Event T Op Ret → State T Op Ret σ → Prop
  | call {t op} (h : s.phases t = .idle) :
    Step obj s (.call t op) (s.setPhase t (.pending op))
  | commit {t op v r} (h : s.phases t = .pending op) (hr : obj.apply op s.value = (v, r)) :
    Step obj s (.commit t op r) ({ s with value := v }.setPhase t (.done op r))
  | ret {t op r} (h : s.phases t = .done op r) :
    Step obj s (.ret t r) (s.setPhase t .idle)

/-- The logs of the object, with the state that they end in. -/
inductive Trace (obj : Object Op Ret σ) : List (Event T Op Ret) → State T Op Ret σ → Prop
  | nil : Trace obj [] ⟨obj.init, fun _ => .idle⟩
  | snoc {log s e s'} (h : Trace obj log s) (hs : Step obj s e s') : Trace obj (log ++ [e]) s'

end

/-- The event is one that the caller does not see. -/
def Event.isCommit : Event T Op Ret → Bool
  | .commit .. => true
  | _ => false

/-- The calls and returns of a log. -/
def history (log : List (Event T Op Ret)) : List (Event T Op Ret) :=
  log.filter fun e => !e.isCommit

/-- A history of calls and returns is linearizable if moments between them can be found at which the
operations take effect. -/
def Linearizable [DecidableEq T] (obj : Object Op Ret σ) (h : List (Event T Op Ret)) : Prop :=
  ∃ log s, Trace obj log s ∧ history log = h

variable [DecidableEq T] {obj : Object Op Ret σ} {s : State T Op Ret σ}
  {log : List (Event T Op Ret)}
  {t : T} {op : Op} {r : Ret}

/-- A trace shows how its own history can be linearized. -/
theorem Trace.linearizable (h : Trace obj log s) : Linearizable obj (history log) :=
  ⟨log, s, h, rfl⟩

/-- The thread has called `op` and done nothing since. -/
def Called (log : List (Event T Op Ret)) (t : T) (op : Op) : Prop :=
  ∃ l m, log = l ++ .call t op :: m ∧ ∀ e ∈ m, e.thread ≠ t

/-- The thread has called `op`, which took effect with the result `r`, and done nothing else
since. -/
def Committed (obj : Object Op Ret σ) (log : List (Event T Op Ret)) (t : T) (op : Op) (r : Ret) :
    Prop :=
  ∃ l m₁ m₂ s, log = l ++ .call t op :: (m₁ ++ .commit t op r :: m₂) ∧
    (∀ e ∈ m₁ ++ m₂, e.thread ≠ t) ∧ Trace obj (l ++ .call t op :: m₁) s ∧
      (obj.apply op s.value).2 = r

omit [DecidableEq T] in
/-- An operation that was called stays called while other threads go on. -/
theorem Called.append {e : Event T Op Ret} (h : Called log t op) (he : e.thread ≠ t) :
    Called (log ++ [e]) t op := by
  obtain ⟨l, m, rfl, hm⟩ := h
  refine ⟨l, m ++ [e], by rw [List.append_assoc, List.cons_append], fun e' he' => ?_⟩
  rcases List.mem_append.1 he' with he' | he'
  · exact hm e' he'
  · exact List.mem_singleton.1 he' ▸ he

/-- An operation that took effect has done so while other threads go on. -/
theorem Committed.append {e : Event T Op Ret} (h : Committed obj log t op r) (he : e.thread ≠ t) :
    Committed obj (log ++ [e]) t op r := by
  obtain ⟨l, m₁, m₂, s, rfl, hm, hs⟩ := h
  refine ⟨l, m₁, m₂ ++ [e], s, ?_, fun e' he' => ?_, hs⟩
  · rw [List.append_assoc, List.cons_append, List.append_assoc, List.cons_append]
  · rw [← List.append_assoc] at he'
    rcases List.mem_append.1 he' with he' | he'
    · exact hm e' he'
    · exact List.mem_singleton.1 he' ▸ he

/-- The thread is in the phase that it was set to. -/
theorem setPhase_self {p : Phase Op Ret} : (s.setPhase t p).phases t = p :=
  Function.update_self ..

/-- The other threads stay in their phases. -/
theorem setPhase_of_ne {u : T} {p : Phase Op Ret} (h : u ≠ t) :
    (s.setPhase t p).phases u = s.phases u :=
  Function.update_of_ne h ..

/-- A step moves its own thread only. -/
theorem Step.phases_of_ne {s' : State T Op Ret σ} {e : Event T Op Ret} {u : T}
    (hs : Step obj s e s') (h : u ≠ e.thread) : s'.phases u = s.phases u := by
  cases hs with
  | call | commit | ret => exact setPhase_of_ne h

/-- The phase of a thread says what the log holds of its operation. -/
structure Agrees (obj : Object Op Ret σ) (log : List (Event T Op Ret)) (s : State T Op Ret σ) :
    Prop where
  called : ∀ t op, s.phases t = .pending op → Called log t op
  committed : ∀ t op r, s.phases t = .done op r → Committed obj log t op r

/-- A step keeps the phases in accord with the log: its thread changes, the others only see it
longer. -/
theorem Agrees.step {s' : State T Op Ret σ} {e : Event T Op Ret} (h : Agrees obj log s)
    (htrace : Trace obj log s) (hs : Step obj s e s') : Agrees obj (log ++ [e]) s' := by
  refine ⟨fun u op' hu => ?_, fun u op' r' hu => ?_⟩
  · rcases eq_or_ne u e.thread with rfl | hne
    · cases hs with
      | @call t op _ =>
        obtain ⟨⟩ := setPhase_self.symm.trans hu
        exact ⟨log, [], rfl, nofun⟩
      | commit | ret => cases setPhase_self.symm.trans hu
    · rw [hs.phases_of_ne hne] at hu
      exact (h.called u op' hu).append hne.symm
  · rcases eq_or_ne u e.thread with rfl | hne
    · cases hs with
      | @commit t op v r ht hr =>
        obtain ⟨⟩ := setPhase_self.symm.trans hu
        obtain ⟨l, m, rfl, hm⟩ := h.called t _ ht
        refine ⟨l, m, [], s, ?_, ?_, htrace, by rw [hr]⟩
        · rw [List.append_assoc, List.cons_append]
          rfl
        rw [List.append_nil]
        exact hm
      | call | ret => cases setPhase_self.symm.trans hu
    · rw [hs.phases_of_ne hne] at hu
      exact (h.committed u op' r' hu).append hne.symm

/-- In every trace the phase of a thread says what its last events were. -/
theorem Trace.agrees (h : Trace obj log s) : Agrees obj log s := by
  induction h with
  | nil => exact ⟨nofun, nofun⟩
  | snoc h hs ih => exact ih.step h hs

/-- A prefix of a log is a log. -/
theorem Trace.of_append {l : List (Event T Op Ret)} (h : Trace obj (log ++ l) s) :
    ∃ s', Trace obj log s' := by
  induction l using List.reverseRecOn generalizing s with
  | nil => exact ⟨s, by rwa [List.append_nil] at h⟩
  | append_singleton l e ih =>
    rw [← List.append_assoc] at h
    generalize hlog : log ++ l ++ [e] = log' at h
    cases h with
    | nil => simp at hlog
    | snoc h _ =>
      obtain ⟨rfl, -⟩ := List.append_singleton_inj.1 hlog
      exact ih h

/-- The step at an event of a log. -/
theorem Trace.split {l₁ l₂ : List (Event T Op Ret)} {e : Event T Op Ret}
    (h : Trace obj (l₁ ++ e :: l₂) s) : ∃ s₁ s₂, Trace obj l₁ s₁ ∧ Step obj s₁ e s₂ := by
  have happend : l₁ ++ e :: l₂ = (l₁ ++ [e]) ++ l₂ := by
    rw [List.append_assoc, List.singleton_append]
  rw [happend] at h
  obtain ⟨s', h⟩ := h.of_append
  generalize hlog : l₁ ++ [e] = log' at h
  cases h with
  | nil => simp at hlog
  | snoc h hs =>
    obtain ⟨rfl, rfl⟩ := List.append_singleton_inj.1 hlog
    exact ⟨_, _, h, hs⟩

/-- An operation that returns was called, and in between it took effect with the result that it
returns. -/
theorem Trace.committed_of_ret {l₁ l₂ : List (Event T Op Ret)}
    (h : Trace obj (l₁ ++ .ret t r :: l₂) s) : ∃ op, Committed obj l₁ t op r := by
  obtain ⟨s₁, s₂, h, hs⟩ := h.split
  cases hs with
  | ret hdone => exact ⟨_, h.agrees.committed _ _ _ hdone⟩

end

/-! ## Queues -/

namespace Fifo

variable {T I V : Type*} [DecidableEq T] [DecidableEq I]

/-- An operation on the queue with an index. -/
inductive QueueOp (I V : Type*)
  | push (i : I) (v : V)
  | pop (i : I)
  deriving DecidableEq

/-- `pop` of an empty queue returns `none`, as every `push` does. -/
def queue : Object (QueueOp I V) (Option V) (I → List V) where
  init _ := []
  apply
    | .push i v, q => (Function.update q i (q i ++ [v]), none)
    | .pop i, q => (Function.update q i (q i).tail, (q i).head?)

/-- The value that an event adds to the queue `i`. -/
def pushed (i : I) : Event T (QueueOp I V) (Option V) → Option V
  | .commit _ (.push j v) _ => if j = i then some v else none
  | _ => none

/-- The value that an event takes from the queue `i`. -/
def popped (i : I) : Event T (QueueOp I V) (Option V) → Option V
  | .commit _ (.pop j) r => if j = i then r else none
  | _ => none

/-- The values that were added to the queue `i`, in the order in which the pushes took effect. -/
def pushes (i : I) (log : List (Event T (QueueOp I V) (Option V))) : List V :=
  log.filterMap (pushed i)

/-- The values that were taken from the queue `i`, in the order in which the pops took effect. -/
def pops (i : I) (log : List (Event T (QueueOp I V) (Option V))) : List V :=
  log.filterMap (popped i)

variable {log : List (Event T (QueueOp I V) (Option V))}
  {s : State T (QueueOp I V) (Option V) (I → List V)}
  {i : I}

omit [DecidableEq T] in
/-- Pushes to a queue are collected event by event. -/
theorem pushes_concat (e : Event T (QueueOp I V) (Option V)) :
    pushes i (log ++ [e]) = pushes i log ++ (pushed i e).toList := by
  rw [pushes, List.filterMap_append]
  cases he : pushed i e with
  | none => rw [List.filterMap_cons_none he]; rfl
  | some v => rw [List.filterMap_cons_some he]; rfl

omit [DecidableEq T] in
/-- Pops from a queue are collected event by event. -/
theorem pops_concat (e : Event T (QueueOp I V) (Option V)) :
    pops i (log ++ [e]) = pops i log ++ (popped i e).toList := by
  rw [pops, List.filterMap_append]
  cases he : popped i e with
  | none => rw [List.filterMap_cons_none he]; rfl
  | some v => rw [List.filterMap_cons_some he]; rfl

/-- What one step adds to a queue and takes from it. -/
theorem Step.queue_eq {e : Event T (QueueOp I V) (Option V)}
    {s' : State T (QueueOp I V) (Option V) (I → List V)} (hs : Step queue s e s') (i : I) :
    s.value i ++ (pushed i e).toList = (popped i e).toList ++ s'.value i := by
  cases hs with
  | call | ret => exact List.append_nil _
  | @commit t op v r ht hr =>
    cases op with
    | push j w =>
      obtain ⟨rfl, rfl⟩ := Prod.mk.inj hr
      rcases eq_or_ne j i with rfl | hne
      · simp [pushed, popped, State.setPhase]
      · simp [pushed, popped, State.setPhase, hne, hne.symm]
    | pop j =>
      obtain ⟨rfl, rfl⟩ := Prod.mk.inj hr
      rcases eq_or_ne j i with rfl | hne
      · cases hq : s.value j with
        | nil => simp [pushed, popped, State.setPhase]
        | cons w q => simp [pushed, popped, State.setPhase]
      · simp [pushed, popped, State.setPhase, hne, hne.symm]

/-- First in, first out: what was taken from a queue is what was added first, and the queue is the
rest. -/
theorem pushes_eq (h : Trace queue log s) (i : I) : pushes i log = pops i log ++ s.value i := by
  induction h with
  | nil => rfl
  | @snoc log s e s' h hs ih =>
    rw [pushes_concat, pops_concat, ih, List.append_assoc, List.append_assoc, Step.queue_eq hs]

/-- A `pop` takes effect without a value when everything that was added is taken. -/
theorem pushes_eq_pops {l₁ l₂ : List (Event T (QueueOp I V) (Option V))} {t : T}
    (h : Trace queue (l₁ ++ .commit t (.pop i) none :: l₂) s) : pushes i l₁ = pops i l₁ := by
  obtain ⟨s₁, s₂, h, hs⟩ := h.split
  cases hs with
  | commit _ hr =>
    have hnil : s₁.value i = [] := List.head?_eq_none_iff.1 (congrArg Prod.snd hr)
    rw [pushes_eq h i, hnil, List.append_nil]

end Fifo

end AtomicObject
