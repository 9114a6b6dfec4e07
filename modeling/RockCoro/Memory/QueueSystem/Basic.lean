import RockCoro.Memory.NodeAllocator
import RockCoro.Memory.TSLinkedList.Fifo

/-!
# The lists with their epochs and their allocator

The threads of `memory/ts_linked_list.h` call `EpochBasedReclamation` and
`TSLinkedListNodeAllocator`, and the thread of `epoch_maintainer` advances the epoch. A thread is in
the innermost function that it has called: in the allocator, else in the epochs, else in the
operation on the list. The fields `retired` and `free` of the lists are what they see of the other
two.
-/

namespace RockCoro

open EpochBasedReclamation

/-- The lists with their operations, the epochs and the allocator. -/
structure QueueSystem (L T N V : Type) where
  queues : Queues L T N V
  epochs : EpochBasedReclamation T (TaggedPtr N) := {}
  allocator : TSLinkedListNodeAllocator T N := {}

/-- The call of an operation, the next step of a thread, `new` for a thread, and the next step of
the maintainer. `spurious` is a `compare_exchange_weak` that fails without a reason. -/
inductive SystemAction (L T N V : Type)
  | call (t : T) (op : ListOp L V)
  | thread (t : T) (spurious : Bool)
  | new (t : T) (n : N)
  | advanceEpoch

/-- What is observed: the events of the lists, and `new` and `delete`. -/
inductive SystemEvent (L T N V : Type)
  | list (e : ListEvent L T N V)
  | new (n : N)
  | delete (n : N)
  deriving DecidableEq

/-- The events of the lists. -/
def listEvents {L T N V : Type} (log : List (SystemEvent L T N V)) : List (ListEvent L T N V) :=
  log.filterMap fun
    | .list e => some e
    | _ => none

section
variable {L T N V : Type} [DecidableEq T] [DecidableEq N]

/-- `get` has returned a node to `t`. -/
def Queues.got (s : Queues L T N V) (t : T) (ptr : TaggedPtr N) : Queues L T N V :=
  let s := { s with free := ptr.ptr.elim s.free fun n => Function.update s.free n false }
  match s.pcs t with
  | .initGet op => s.setPc t (.initHead op ptr)
  | .pushGet l v => s.setPc t (.pushNode l v ptr)
  | _ => s

/-- A node is handed to `release`. -/
def Queues.releases (s : Queues L T N V) (ptr : TaggedPtr N) : Queues L T N V :=
  { s with
    retired := s.retired.erase ptr
    free := ptr.ptr.elim s.free fun n => Function.update s.free n true }

namespace QueueSystem

variable [DecidableEq L]

/-- A step of `t` in the allocator. -/
def allocatorStep (s : QueueSystem L T N V) (t : T) :
    Option (QueueSystem L T N V × Option (SystemEvent L T N V)) := do
  let (nodes, allocator, e) ← s.allocator.threadStep s.queues.nodes t
  let s := { s with queues := { s.queues with nodes := nodes }, allocator := allocator }
  match e with
  | none => some (s, none)
  | some (.new n) => some (s, some (.new n))
  | some (.delete n) => some (s, some (.delete n))
  | some (.got ptr) => some ({ s with queues := s.queues.got t ptr }, none)

/-- A step of `t` in `enter_epoch`, `exit_epoch` or `retire`. The operation on the list sees the
exchange of the status and the stamp, or, if the call was a duplicate, its return. -/
def epochStep (s : QueueSystem L T N V) (t : T) (spurious : Bool) :
    Option (QueueSystem L T N V × Option (SystemEvent L T N V)) := do
  let (epochs, e) ← s.epochs.threadStep t spurious
  let s' := { s with epochs := epochs }
  match e with
  | some (.released _ ptr) =>
    let allocator ← s.allocator.call t (.releaseMark ptr)
    some ({ s' with queues := s.queues.releases ptr, allocator := allocator },
      some (.list (.epoch (.released t ptr))))
  | some _ =>
    let (queues, e) ← s.queues.threadStep t spurious
    some ({ s' with queues := queues }, e.map .list)
  | none =>
    match (s.epochs.threads t).pc, (epochs.threads t).pc with
    | .enterLoad, .idle | .exitLoad, .idle =>
      let (queues, _) ← s.queues.threadStep t spurious
      some ({ s' with queues := queues }, none)
    | _, _ => some (s', none)

/-- A step of `t` in an operation on a list. -/
def listStep (s : QueueSystem L T N V) (t : T) (spurious : Bool) :
    Option (QueueSystem L T N V × Option (SystemEvent L T N V)) :=
  match s.queues.pcs t with
  | .initGet _ | .pushGet .. => do
    let allocator ← s.allocator.call t .getPop
    some ({ s with allocator := allocator }, none)
  | .pushEnter .. | .popEnter _ => do
    let epochs ← s.epochs.call t .enterLoad
    some ({ s with epochs := epochs }, none)
  | .pushExit .. | .popExit .. => do
    let epochs ← s.epochs.call t .exitLoad
    some ({ s with epochs := epochs }, none)
  | .popRetire _ first next _ =>
    -- `assert(first.get_ptr() != next.get_ptr())`
    if first.ptr = next.ptr then none
    else do
      let epochs ← s.epochs.callRetire t first
      some ({ s with epochs := epochs }, none)
  | _ => do
    let (queues, e) ← s.queues.threadStep t spurious
    some ({ s with queues := queues }, e.map .list)

/-- The next step of a thread. -/
def threadStep (s : QueueSystem L T N V) (t : T) (spurious : Bool) :
    Option (QueueSystem L T N V × Option (SystemEvent L T N V)) :=
  if s.allocator.pcs t ≠ .idle then s.allocatorStep t
  else if (s.epochs.threads t).pc ≠ .idle then s.epochStep t spurious
  else s.listStep t spurious

/-- One step and what is observed of it; `none` is a step that is not possible. -/
def step (s : QueueSystem L T N V) :
    SystemAction L T N V → Option (QueueSystem L T N V × Option (SystemEvent L T N V))
  | .call t op => (s.queues.step (.call t op)).map fun (queues, e) =>
    ({ s with queues := queues }, e.map .list)
  | .thread t spurious => s.threadStep t spurious
  | .new t n => (s.allocator.new s.queues.nodes t n).map fun (nodes, allocator) =>
    ({ s with queues := { s.queues with nodes := nodes }, allocator := allocator }, some (.new n))
  | .advanceEpoch => s.epochs.advanceEpoch.map fun epochs => ({ s with epochs := epochs }, none)

end QueueSystem

end

end RockCoro
