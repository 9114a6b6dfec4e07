import RockCoro.Lib.Clients
import RockCoro.Memory.QueueSystem.Recycling

/-!
# The lists as queues

With their epochs and their allocator, lists that are initialized implement queues whose operations
are atomic (`implements_queue`): a program that uses them runs as if it used the queues.
-/

namespace RockCoro

open AtomicObject AtomicObject.Fifo EpochBasedReclamation

variable {L T N V : Type}

/-- The lists are initialized, and no thread is to initialize one. -/
structure Queues.Ready (q : Queues L T N V) : Prop where
  head : ∀ l, (q.lists l).head.ptr ≠ none
  threads : ∀ t, (q.pcs t).footprint.initializes = none

/-- What a step shows of an operation. -/
def SystemEvent.op : SystemEvent L T N V → Option (Event T (QueueOp L V) (Option V))
  | .list (.op e) => some e
  | _ => none

/-- The operations of a log grow by what the step shows of one. -/
theorem operations_listEvents_append {log : List (SystemEvent L T N V)}
    {e : Option (SystemEvent L T N V)} : operations (listEvents (log ++ e.toList)) =
      operations (listEvents log) ++ (e.bind SystemEvent.op).toList := by
  rw [listEvents_append, operations, List.filterMap_append]
  congr 1
  rcases e with _ | (e | n | n)
  · rfl
  · cases e with
    | epoch | op | dummy => rfl
  · rfl
  · rfl

section
variable [DecidableEq L] [DecidableEq T] [DecidableEq N] {q q' : Queues L T N V}
  {log : List (ListEvent L T N V)} {a : ListAction L T N V} {e : Option (ListEvent L T N V)} {t : T}

namespace Queues

omit [DecidableEq L] [DecidableEq T] [DecidableEq N] in
/-- Readiness depends on the lists and the places only. -/
theorem Ready.congr (h : q.Ready) (hlists : q'.lists = q.lists) (hpcs : q'.pcs = q.pcs) :
    q'.Ready :=
  ⟨fun l => hlists ▸ h.head l, fun t => hpcs ▸ h.threads t⟩

omit [DecidableEq L] [DecidableEq N] in
/-- A thread goes on, and does not initialize a list. -/
theorem Ready.setPc {pc : ListPc L N V} (h : q.Ready) (hpc : pc.footprint.initializes = none) :
    (q.setPc t pc).Ready := by
  refine ⟨h.head, fun u => ?_⟩
  change (Function.update q.pcs t pc u).footprint.initializes = none
  rcases eq_or_ne u t with rfl | hu
  · rw [Function.update_self]
    exact hpc
  · rw [Function.update_of_ne hu]
    exact h.threads u

omit [DecidableEq L] [DecidableEq T] [DecidableEq N] in
/-- When the lists are initialized, no step initializes one. -/
theorem Ready.oneInit (h : q.Ready) (a : ListAction L T N V) : OneInit q a := by
  cases a with
  | thread t spurious =>
    intro l _ u _
    rw [h.threads u]
    exact nofun
  | call | get | release | write => trivial

/-- A step of a thread in an operation: no list that is initialized becomes empty. -/
theorem Ready.threadStep {spurious : Bool} (h : q.Ready) (hok : ListsOk log q)
    (hs : q.threadStep t spurious = some (q', e)) : q'.Ready := by
  obtain ⟨c, rfl, -, hinv⟩ := hok
  have hchain : ∀ l, c.chain l ≠ [] := by
    intro l hnil
    rcases (hinv.fresh l hnil).2 with hhead | ⟨u, hu⟩
    · exact h.head l (by rw [hhead])
    · have hinit := Config.initializes_of_stored hu
      rw [h.threads u] at hinit
      cases hinit
  obtain ⟨c', hfollows⟩ := hinv.follows (a := .thread t spurious) trivial (h.oneInit _) hs
  have hchain' := fun l => hfollows.chain l (hchain l)
  rw [← hfollows.state]
  refine ⟨fun l => ?_, fun u => ?_⟩
  · rw [(hfollows.inv.list l (hchain' l)).head]
    cases hl : c'.chain l with
    | nil => exact absurd hl (hchain' l)
    | cons n w => exact nofun
  · cases hinit : (c'.pcs u).footprint.initializes with
    | none => rfl
    | some l => exact absurd ((hfollows.inv.threads u).initializes l hinit) (hchain' l)

omit [DecidableEq L] in
/-- Getting a node keeps the lists ready. -/
theorem Ready.got {ptr : TaggedPtr N} (h : q.Ready) : (q.got t ptr).Ready := by
  have hfree : ∀ free, ({ q with free := free } : Queues L T N V).Ready := fun _ => h.congr rfl rfl
  cases hpc : q.pcs t with
  | initGet op =>
    have hinit := h.threads t
    rw [hpc] at hinit
    cases hinit
  | pushGet l v =>
    simp only [Queues.got, hpc]
    exact (hfree _).setPc rfl
  | _ =>
    simp only [Queues.got, hpc]
    exact hfree _

end Queues

namespace QueueSystem

variable {s s' s₀ : QueueSystem L T N V} {log : List (SystemEvent L T N V)}
  {e : Option (SystemEvent L T N V)} {spurious : Bool}

/-- A step in the epochs keeps the lists ready. -/
theorem ready_epochStep (h : s.queues.Ready) (hinv : s.Inv log)
    (hs : s.epochStep t spurious = some (s', e)) : s'.queues.Ready := by
  obtain ⟨⟨epochs, x⟩, -, hs⟩ := Option.bind_eq_some_iff.1 hs
  dsimp only at hs
  split at hs
  · obtain ⟨allocator, -, ⟨⟩⟩ := Option.bind_eq_some_iff.1 hs
    exact h.congr rfl rfl
  · obtain ⟨⟨q, x⟩, hq, ⟨⟩⟩ := Option.bind_eq_some_iff.1 hs
    exact h.threadStep hinv.lists hq
  · split at hs
    · obtain ⟨⟨q, x⟩, hq, ⟨⟩⟩ := Option.bind_eq_some_iff.1 hs
      exact h.threadStep hinv.lists hq
    · obtain ⟨⟨q, x⟩, hq, ⟨⟩⟩ := Option.bind_eq_some_iff.1 hs
      exact h.threadStep hinv.lists hq
    · cases hs
      exact h

/-- A step of an operation keeps the lists ready. -/
theorem ready_listStep (h : s.queues.Ready) (hinv : s.Inv log)
    (hs : s.listStep t spurious = some (s', e)) : s'.queues.Ready := by
  cases hpc : s.queues.pcs t with
  | initGet | pushGet | pushEnter | popEnter | pushExit | popExit =>
    simp only [QueueSystem.listStep, hpc] at hs
    obtain ⟨x, -, ⟨⟩⟩ := Option.bind_eq_some_iff.1 hs
    exact h
  | popRetire l first next value =>
    simp only [QueueSystem.listStep, hpc] at hs
    split at hs
    · cases hs
    · obtain ⟨epochs, -, ⟨⟩⟩ := Option.bind_eq_some_iff.1 hs
      exact h
  | _ =>
    simp only [QueueSystem.listStep, hpc] at hs
    obtain ⟨⟨q, x⟩, hq, ⟨⟩⟩ := Option.bind_eq_some_iff.1 hs
    exact h.threadStep hinv.lists hq

omit [DecidableEq L] in
/-- A step in the allocator keeps the lists ready. -/
theorem ready_allocatorStep (h : s.queues.Ready) (hs : s.allocatorStep t = some (s', e)) :
    s'.queues.Ready := by
  obtain ⟨⟨nodes, allocator, x⟩, -, hs⟩ := Option.bind_eq_some_iff.1 hs
  have hnodes : ({ s.queues with nodes := nodes } : Queues L T N V).Ready := h.congr rfl rfl
  rcases x with _ | n | n | ptr
  · cases hs
    exact hnodes
  · cases hs
    exact hnodes
  · cases hs
    exact hnodes
  · cases hs
    exact hnodes.got

/-- The lists stay initialized. -/
theorem ready_step {a : SystemAction L T N V} (h : s.queues.Ready) (hinv : s.Inv log)
    (hs : s.step a = some (s', e)) : s'.queues.Ready := by
  cases a with
  | call t op =>
    obtain ⟨⟨q, x⟩, hq, ⟨⟩⟩ := Option.map_eq_some_iff.1 hs
    simp only [Queues.step] at hq
    split at hq
    · cases hq
      exact h.setPc rfl
    · cases hq
  | thread t spurious =>
    rw [QueueSystem.step, QueueSystem.threadStep] at hs
    split at hs
    · exact ready_allocatorStep h hs
    · split at hs
      · exact ready_epochStep h hinv hs
      · exact ready_listStep h hinv hs
  | new t n =>
    obtain ⟨⟨nodes, allocator⟩, -, ⟨⟩⟩ := Option.map_eq_some_iff.1 hs
    exact h.congr rfl rfl
  | advanceEpoch =>
    obtain ⟨epochs, -, ⟨⟩⟩ := Option.map_eq_some_iff.1 hs
    exact h

/-! ## The queues -/

/-- The lists are initialized, no value was pushed, and no thread is in an operation. -/
structure Initialized (s : QueueSystem L T N V) : Prop where
  run : ∃ nodes log, Run InBounds (start nodes) log s ∧ operations (listEvents log) = []
  head : ∀ l, (s.queues.lists l).head.ptr ≠ none
  idle : ∀ t, s.queues.pcs t = .idle

/-- The lists as a program sees them. The epoch fits into the 63 bits of a status. -/
def machine : Machine (QueueSystem L T N V) T (QueueOp L V) (Option V) where
  step s x s' := ∃ a e, s.step a = some (s', e) ∧ s'.epochs.globalEpoch.toNat < 2 ^ 63 ∧
    e.bind SystemEvent.op = x
  idle s t := s.queues.pcs t = .idle

/-- A run of the machine is a run of the lists. -/
theorem Initialized.run_machine {ops : List (Event T (QueueOp L V) (Option V))}
    (h : s₀.Initialized) (hr : machine.Run s₀ ops s) :
    ∃ log, s.Inv log ∧ operations (listEvents log) = ops ∧ s.queues.Ready := by
  induction hr with
  | start =>
    obtain ⟨nodes, log, hrun, hlog⟩ := h.run
    refine ⟨log, hrun.inv, hlog, h.head, fun t => ?_⟩
    rw [h.idle t]
    rfl
  | @step ops s x s' _ hs ih =>
    obtain ⟨log, hinv, rfl, hready⟩ := ih
    obtain ⟨a, e, hs, hlt, rfl⟩ := hs
    have hone : s.OneInit a := by
      cases a with
      | thread t spurious => exact hready.oneInit (.thread t spurious)
      | call | new | advanceEpoch => trivial
    exact ⟨log ++ e.toList, hinv.step hone hlt hs, operations_listEvents_append,
      ready_step hready hinv hs⟩

/-- In each state of each run, the lists hold the values of a log of atomic queues, in which the
threads that are in no operation have no call. -/
theorem Initialized.trace {ops : List (Event T (QueueOp L V) (Option V))} (h : s₀.Initialized)
    (hr : machine.Run s₀ ops s) : ∃ q : State T (QueueOp L V) (Option V) (L → List V),
      Trace queue ops q ∧ (∀ l, s.queues.Contains l (q.value l)) ∧
      ∀ t, s.queues.pcs t = .idle → q.phases t = .idle := by
  obtain ⟨log, hinv, rfl, hready⟩ := h.run_machine hr
  obtain ⟨c, hc, hlog, hinv⟩ := hinv.lists
  refine ⟨⟨c.contents, fun t => (c.footprint t).phase⟩, hlog ▸ hinv.trace, fun l => ?_,
    fun t ht => ?_⟩
  · obtain ⟨vs, hvs, hpushes⟩ := hinv.isFifo.order l
    obtain rfl := List.append_cancel_left (hpushes.symm.trans (pushes_eq hinv.trace l))
    rw [← hc]
    exact hvs
  · rw [← hc] at ht
    change (c.pcs t).footprint.phase = _
    rw [ht]
    rfl

end QueueSystem

end

end RockCoro
