import RockCoro.Memory.QueueSystem.Conservation

/-!
# The end of the program

`destroy` of `bootstrap.cpp`, one atomic operation a step: `TSLinkedList::destroy` retires the nodes
of a list, `EpochBasedReclamation::destroy` releases the retired nodes to the cache of its thread,
and `TSLinkedListNodeAllocator::destroy` deletes the nodes of the caches. No other thread is in an
operation; the thread of `epoch_maintainer` runs until it is joined. Then every node is deleted
(`run_conserves`).
-/

namespace RockCoro

open EpochBasedReclamation TSLinkedListNodeAllocator

/-- Where the thread stands. The lists are the lists, the threads and the caches that are still to
be destroyed. -/
inductive DestructionPc (L T N : Type)
  /-- At the check of `head_` of the next list. -/
  | lists (ls : List L)
  /-- In `enter_epoch`, or at the load of `head_` behind it. -/
  | loadHead (l : L) (ls : List L)
  /-- At the head of the loop over the nodes. -/
  | loop (l : L) (cur : TaggedPtr N) (ls : List L)
  /-- In `retire`, or at the load of `next_` behind it. -/
  | retire (l : L) (cur : TaggedPtr N) (ls : List L)
  | clearTail (l : L) (ls : List L)
  | exitEpoch (ls : List L)
  /-- At the head of the loop of `EpochBasedReclamation::destroy` that releases. -/
  | epochs (us : List T)
  /-- In that loop, between the call of `release` and `pop_front`. -/
  | popFront (u : T) (us : List T)
  /-- At `pthread_join`. -/
  | join
  /-- At the head of the loop of `TSLinkedListNodeCache::destroy`. -/
  | caches (us : List T)
  deriving DecidableEq

/-- The queues, the epochs and the allocator while `destroy` runs, and where it is. -/
structure Destruction (L T N V : Type) where
  nodes : Nodes N V
  lists : L → TSLinkedList N
  epochs : EpochBasedReclamation T (TaggedPtr N)
  allocator : TSLinkedListNodeAllocator T N
  pc : DestructionPc L T N

/-- The next step of the thread, and the next step of the maintainer. -/
inductive DestructionAction
  | thread (spurious : Bool)
  | advanceEpoch

/-- No thread is in an operation, and the lists `ls` are to be destroyed. -/
def QueueSystem.destroy {L T N V : Type} (s : QueueSystem L T N V) (ls : List L) :
    Destruction L T N V where
  nodes := s.queues.nodes
  lists := s.queues.lists
  epochs := s.epochs
  allocator := s.allocator
  pc := .lists ls

namespace Destruction

variable {L T N V : Type} [DecidableEq L] [DecidableEq T] [DecidableEq N]

/-- The list `l` becomes `x`. -/
def setList (d : Destruction L T N V) (l : L) (x : TSLinkedList N) : Destruction L T N V :=
  { d with lists := Function.update d.lists l x }

/-- A step in the allocator. -/
def allocatorStep (d : Destruction L T N V) (t : T) :
    Option (Destruction L T N V × Option (SystemEvent L T N V)) := do
  let (nodes, allocator, e) ← d.allocator.threadStep d.nodes t
  let d := { d with nodes := nodes, allocator := allocator }
  match e with
  | some (.delete n) => some (d, some (.delete n))
  | _ => some (d, none)

/-- A step in `enter_epoch`, `exit_epoch` or `retire`. -/
def epochStep (d : Destruction L T N V) (t : T) (spurious : Bool) :
    Option (Destruction L T N V × Option (SystemEvent L T N V)) := do
  let (epochs, e) ← d.epochs.threadStep t spurious
  let d' := { d with epochs := epochs }
  match e with
  | some (.released _ ptr) =>
    let allocator ← d.allocator.call t (.releaseMark ptr)
    some ({ d' with allocator := allocator }, none)
  | _ => some (d', none)

/-- A step in one of the functions `destroy`. -/
def destroyStep (d : Destruction L T N V) (t : T) :
    Option (Destruction L T N V × Option (SystemEvent L T N V)) :=
  match d.pc with
  | .lists [] => some ({ d with pc := .epochs d.epochs.registered }, none)
  | .lists (l :: ls) =>
    if (d.lists l).head.ptr = none then some ({ d with pc := .lists ls }, none)
    else do
      let epochs ← d.epochs.call t .enterLoad
      some ({ d with epochs := epochs, pc := .loadHead l ls }, none)
  | .loadHead l ls => some ({ d with pc := .loop l (d.lists l).head ls }, none)
  | .loop l cur ls =>
    if cur.ptr = none then
      some ({ d.setList l { d.lists l with head := {} } with pc := .clearTail l ls }, none)
    else do
      let epochs ← d.epochs.callRetire t cur
      some ({ d with epochs := epochs, pc := .retire l cur ls }, none)
  | .retire l cur ls => do
    let n ← cur.ptr
    some ({ d with pc := .loop l (d.nodes n).next ls }, none)
  | .clearTail l ls =>
    some ({ d.setList l { d.lists l with tail := {} } with pc := .exitEpoch ls }, none)
  | .exitEpoch ls => do
    let epochs ← d.epochs.call t .exitLoad
    some ({ d with epochs := epochs, pc := .lists ls }, none)
  | .epochs [] => some ({ d with pc := .join }, none)
  | .epochs (u :: us) =>
    match (d.epochs.threads u).retireList with
    | [] => some ({ d with pc := .epochs us }, none)
    | r :: _ => do
      let allocator ← d.allocator.call t (.releaseMark r.ptr)
      some ({ d with allocator := allocator, pc := .popFront u us }, none)
  | .popFront u us =>
    let x := d.epochs.threads u
    let epochs := d.epochs.setThread u { x with retireList := x.retireList.tail }
    some ({ d with epochs := epochs, pc := .epochs (u :: us) }, none)
  | .join =>
    if d.epochs.maintainer = .load then
      some ({ d with pc := .caches d.allocator.registered.reverse }, none)
    else none
  | .caches [] => none
  | .caches (u :: us) =>
    let cache := d.allocator.caches u
    match cache.head.ptr with
    | none => some ({ d with pc := .caches us }, none)
    | some n =>
      let allocator := { d.allocator.setCache u { cache with head := (d.nodes n).next } with
        allocated := Function.update d.allocator.allocated n false }
      some ({ d with allocator := allocator }, some (.delete n))

/-- The next step of the thread. -/
def threadStep (d : Destruction L T N V) (t : T) (spurious : Bool) :
    Option (Destruction L T N V × Option (SystemEvent L T N V)) :=
  if d.allocator.pcs t ≠ .idle then d.allocatorStep t
  else if (d.epochs.threads t).pc ≠ .idle then d.epochStep t spurious
  else d.destroyStep t

/-- One step and the `delete` in it; `none` is a step that is not possible. -/
def step (d : Destruction L T N V) (t : T) :
    DestructionAction → Option (Destruction L T N V × Option (SystemEvent L T N V))
  | .thread spurious => d.threadStep t spurious
  | .advanceEpoch =>
    match d.pc with
    | .caches _ => none
    | _ => d.epochs.advanceEpoch.map fun epochs => ({ d with epochs := epochs }, none)

/-- The runs from `d₀`, with `log₀` before them. -/
inductive Run (t : T) (log₀ : List (SystemEvent L T N V)) (d₀ : Destruction L T N V) :
    List (SystemEvent L T N V) → Destruction L T N V → Prop
  | start : Run t log₀ d₀ log₀ d₀
  | step {log d a d' e} (hr : Run t log₀ d₀ log d) (hs : d.step t a = some (d', e)) :
    Run t log₀ d₀ (log ++ e.toList) d'

/-- Takes the steps of a list. -/
def exec (d : Destruction L T N V) (t : T) (log : List (SystemEvent L T N V)) :
    List DestructionAction → Option (Destruction L T N V × List (SystemEvent L T N V))
  | [] => some (d, log)
  | a :: as =>
    match d.step t a with
    | some (d', e) => d'.exec t (log ++ e.toList) as
    | none => none

/-- Executing actions extends a run. -/
theorem Run.exec {t : T} {log₀ log log' : List (SystemEvent L T N V)}
    {d₀ d d' : Destruction L T N V} {as : List DestructionAction} (hr : Run t log₀ d₀ log d)
    (h : d.exec t log as = some (d', log')) : Run t log₀ d₀ log' d' := by
  induction as generalizing d log with
  | nil =>
    cases h
    exact hr
  | cons a as ih =>
    rw [Destruction.exec] at h
    split at h
    · exact ih (hr.step ‹_›) h
    · cases h

end Destruction

end RockCoro
