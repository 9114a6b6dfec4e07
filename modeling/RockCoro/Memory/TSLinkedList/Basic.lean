import RockCoro.Lib.AtomicObject
import RockCoro.Memory.RetireLists

/-!
# The thread-safe linked list

`memory/ts_linked_list.h`, one atomic operation a step: threads `T` in `init`, `push_back` and
`pop_front` of lists `L`, with nodes `N` and pointers to values `V`. The epochs and the allocator
are seen from the lists: a step of `enter_epoch`, `exit_epoch` or `retire` that the other threads
can see is one step, `get` hands a free node over, and a node whose release is due is free again. An
assertion that fails ends the run.
-/

namespace RockCoro

open AtomicObject AtomicObject.Fifo

/-- `TaggedPtr`: the pointer in the low 48 bits, the tag in the others. -/
structure TaggedPtr (N : Type) where
  ptr : Option N := none
  tag : UInt16 := 0
  deriving DecidableEq

/-- `increment_tag`; the tag wraps. -/
def TaggedPtr.incrementTag {N : Type} (p : TaggedPtr N) : TaggedPtr N := { p with tag := p.tag + 1 }

/-- A null `value_` is `none`. -/
structure TSLinkedListNode (N V : Type) where
  next : TaggedPtr N := {}
  value : Option V := none
  released : Bool := false
  deriving DecidableEq

/-- `TSLinkedList`: its two pointers, which are null before `init`. -/
structure TSLinkedList (N : Type) where
  head : TaggedPtr N := {}
  tail : TaggedPtr N := {}
  deriving DecidableEq

/-- The operations on the lists; `init` is also the first part of the others. -/
inductive ListOp (L V : Type)
  | init (l : L)
  | push (l : L) (v : V)
  | pop (l : L)
  deriving DecidableEq

/-- The list of an operation. -/
def ListOp.list {L V : Type} : ListOp L V → L
  | .init l | .push l _ | .pop l => l

/-- The operation on the queue of values. -/
def ListOp.toQueueOp? {L V : Type} : ListOp L V → Option (QueueOp L V)
  | .init _ => none
  | .push l v => some (.push l v)
  | .pop l => some (.pop l)

/-- Where a thread stands, at the operation named. The arguments are its local variables. -/
inductive ListPc (L N V : Type)
  | idle
  | initLoad (op : ListOp L V)
  /-- In `get`, called by `init`. -/
  | initGet (op : ListOp L V)
  | initHead (op : ListOp L V) (dummy : TaggedPtr N)
  | initTail (op : ListOp L V) (dummy : TaggedPtr N)
  /-- In `get`, called by `push_back`. -/
  | pushGet (l : L) (v : V)
  | pushNode (l : L) (v : V) (node : TaggedPtr N)
  | pushEnter (l : L) (v : V) (node : TaggedPtr N)
  | pushTail (l : L) (v : V) (node : TaggedPtr N)
  | pushNext (l : L) (v : V) (node last : TaggedPtr N)
  /-- At the exchange that links the node. -/
  | pushLink (l : L) (v : V) (node last next : TaggedPtr N)
  /-- Behind it, at the exchange of `tail_`. -/
  | pushSwing (l : L) (v : V) (node last : TaggedPtr N)
  /-- At the exchange of `tail_`, which is behind. -/
  | pushHelp (l : L) (v : V) (node last next : TaggedPtr N)
  | pushExit (l : L) (v : V) (node : TaggedPtr N) (linked : Bool)
  /-- In `exit_epoch`, out of the critical section. -/
  | pushDone (l : L) (v : V) (node : TaggedPtr N) (linked : Bool)
  | popEnter (l : L)
  | popHead (l : L)
  | popTail (l : L) (first : TaggedPtr N)
  | popAssertFirst (l : L) (first last : TaggedPtr N)
  | popAssertLast (l : L) (first last : TaggedPtr N)
  | popNext (l : L) (first last : TaggedPtr N)
  | popHelp (l : L) (last next : TaggedPtr N)
  | popValue (l : L) (first next : TaggedPtr N)
  | popCas (l : L) (first next : TaggedPtr N) (value : Option V)
  | popRetire (l : L) (first next : TaggedPtr N) (value : Option V)
  /-- At `exit_epoch`; without a result the loop goes on. -/
  | popExit (l : L) (result : Option (Option V))
  | popDone (l : L) (result : Option (Option V))
  deriving DecidableEq

/-- `retired` are the nodes whose release is not yet due, `free` those of the allocator. -/
structure Queues (L T N V : Type) where
  nodes : N → TSLinkedListNode N V
  lists : L → TSLinkedList N := fun _ => {}
  pcs : T → ListPc L N V := fun _ => .idle
  retired : List (TaggedPtr N) := []
  free : N → Bool

/-- The call of an operation, the next step of a thread, and what the allocator and the epochs do to
the nodes. `spurious` is a `compare_exchange_weak` that fails without a reason. -/
inductive ListAction (L T N V : Type)
  | call (t : T) (op : ListOp L V)
  | thread (t : T) (spurious : Bool)
  /-- `get` returns a node to `t`. -/
  | get (t : T) (ptr : TaggedPtr N)
  /-- `exit_epoch` of `t` releases a node. -/
  | release (t : T) (ptr : TaggedPtr N)
  /-- `t`, in the allocator, writes to a free node. -/
  | write (t : T) (n : N) (node : TSLinkedListNode N V)

/-- What a run is observed by: the epochs, the operations on the queues, and the stores of
`init`. -/
inductive ListEvent (L T N V : Type)
  | epoch (e : EpochEvent T (TaggedPtr N))
  | op (e : Event T (QueueOp L V) (Option V))
  | dummy (l : L) (ptr : TaggedPtr N)
  deriving DecidableEq

/-- The epoch events of a log. -/
def epochs {L T N V : Type} (log : List (ListEvent L T N V)) : List (EpochEvent T (TaggedPtr N)) :=
  log.filterMap fun
    | .epoch e => some e
    | _ => none

/-- The operations of a log. -/
def operations {L T N V : Type} (log : List (ListEvent L T N V)) :
    List (Event T (QueueOp L V) (Option V)) :=
  log.filterMap fun
    | .op e => some e
    | _ => none

namespace Queues

variable {L T N V : Type} [DecidableEq L] [DecidableEq T] [DecidableEq N]

/-- The thread `t` comes to `pc`. -/
def setPc (s : Queues L T N V) (t : T) (pc : ListPc L N V) : Queues L T N V :=
  { s with pcs := Function.update s.pcs t pc }

/-- The node `n` becomes `x`. -/
def setNode (s : Queues L T N V) (n : N) (x : TSLinkedListNode N V) : Queues L T N V :=
  { s with nodes := Function.update s.nodes n x }

/-- The list `l` becomes `x`. -/
def setList (s : Queues L T N V) (l : L) (x : TSLinkedList N) : Queues L T N V :=
  { s with lists := Function.update s.lists l x }

/-- `tail_.compare_exchange_weak`. -/
def casTail (s : Queues L T N V) (l : L) (expected desired : TaggedPtr N) (spurious : Bool) :
    Queues L T N V :=
  if (s.lists l).tail = expected ∧ spurious = false then
    s.setList l { s.lists l with tail := desired }
  else s

/-- Behind `init`. -/
def afterInit : ListOp L V → ListPc L N V
  | .init _ => .idle
  | .push l v => .pushGet l v
  | .pop l => .popEnter l

/-- The next step of a thread in one of the functions. A null pointer is not followed. -/
def threadStep (s : Queues L T N V) (t : T) (spurious : Bool) :
    Option (Queues L T N V × Option (ListEvent L T N V)) :=
  match s.pcs t with
  | .idle | .initGet _ | .pushGet .. => none
  | .initLoad op =>
    if (s.lists op.list).head.ptr = none then some (s.setPc t (.initGet op), none)
    else some (s.setPc t (afterInit op), none)
  | .initHead op dummy =>
    some ((s.setList op.list { s.lists op.list with head := dummy }).setPc t (.initTail op dummy),
      some (.dummy op.list dummy))
  | .initTail op dummy =>
    some ((s.setList op.list { s.lists op.list with tail := dummy }).setPc t (afterInit op),
      some (.dummy op.list dummy))
  | .pushNode l v node => do
    let n ← node.ptr
    some ((s.setNode n { s.nodes n with value := some v, next := {} }).setPc t
      (.pushEnter l v node.incrementTag), none)
  | .pushEnter l v node => some (s.setPc t (.pushTail l v node), some (.epoch (.entered t)))
  | .pushTail l v node => some (s.setPc t (.pushNext l v node (s.lists l).tail), none)
  | .pushNext l v node last => do
    let n ← last.ptr
    let next := (s.nodes n).next
    if next.ptr = none then some (s.setPc t (.pushLink l v node last next), none)
    else some (s.setPc t (.pushHelp l v node last next), none)
  | .pushLink l v node last next => do
    let n ← last.ptr
    if (s.nodes n).next = next ∧ spurious = false then
      some ((s.setNode n { s.nodes n with next := node }).setPc t (.pushSwing l v node last),
        some (.op (.commit t (.push l v) none)))
    else some (s.setPc t (.pushExit l v node false), none)
  | .pushSwing l v node last =>
    -- `assert(last.get_ptr() != node.get_ptr())`
    if last.ptr = node.ptr then none
    else some ((s.casTail l last node spurious).setPc t (.pushExit l v node true), none)
  | .pushHelp l v node last next =>
    some ((s.casTail l last next spurious).setPc t (.pushExit l v node false), none)
  | .pushExit l v node linked =>
    some (s.setPc t (.pushDone l v node linked), some (.epoch (.exited t)))
  | .pushDone l v node linked =>
    if linked then some (s.setPc t .idle, some (.op (.ret t none)))
    else some (s.setPc t (.pushEnter l v node), none)
  | .popEnter l => some (s.setPc t (.popHead l), some (.epoch (.entered t)))
  | .popHead l => some (s.setPc t (.popTail l (s.lists l).head), none)
  | .popTail l first => some (s.setPc t (.popAssertFirst l first (s.lists l).tail), none)
  | .popAssertFirst l first last => do
    let n ← first.ptr
    if (s.nodes n).released then none else some (s.setPc t (.popAssertLast l first last), none)
  | .popAssertLast l first last => do
    let n ← last.ptr
    if (s.nodes n).released then none else some (s.setPc t (.popNext l first last), none)
  | .popNext l first last => do
    let n ← first.ptr
    let next := (s.nodes n).next
    if first.ptr = last.ptr then
      if next.ptr = none then
        some (s.setPc t (.popExit l (some none)), some (.op (.commit t (.pop l) none)))
      else some (s.setPc t (.popHelp l last next), none)
    else if next.ptr ≠ none then some (s.setPc t (.popValue l first next), none)
    else some (s.setPc t (.popExit l none), none)
  | .popHelp l last next => some ((s.casTail l last next spurious).setPc t (.popExit l none), none)
  | .popValue l first next => do
    let n ← next.ptr
    some (s.setPc t (.popCas l first next (s.nodes n).value), none)
  | .popCas l first next value =>
    if (s.lists l).head = first then
      some ((s.setList l { s.lists l with head := next }).setPc t (.popRetire l first next value),
        some (.op (.commit t (.pop l) value)))
    else some (s.setPc t (.popExit l none), none)
  | .popRetire l first next value =>
    -- `assert(first.get_ptr() != next.get_ptr())`
    if first.ptr = next.ptr then none
    else some ({ s with retired := s.retired ++ [first] }.setPc t (.popExit l (some value)),
      some (.epoch (.retired t first)))
  | .popExit l result => some (s.setPc t (.popDone l result), some (.epoch (.exited t)))
  | .popDone l result =>
    match result with
    | some r => some (s.setPc t .idle, some (.op (.ret t r)))
    | none => some (s.setPc t (.popEnter l), none)

/-- `get` returns a node, which is not marked as released and has no successor. -/
def get (s : Queues L T N V) (t : T) (ptr : TaggedPtr N) : Option (Queues L T N V) := do
  let n ← ptr.ptr
  let node := s.nodes n
  if s.free n = true ∧ node.released = false ∧ node.next = {} then
    let s' := { s with free := Function.update s.free n false }
    match s.pcs t with
    | .initGet op => some (s'.setPc t (.initHead op ptr))
    | .pushGet l v => some (s'.setPc t (.pushNode l v ptr))
    | _ => none
  else none

/-- One step and what is observed of it; `none` is a step that is not possible. -/
def step (s : Queues L T N V) :
    ListAction L T N V → Option (Queues L T N V × Option (ListEvent L T N V))
  | .call t op =>
    match s.pcs t with
    | .idle => some (s.setPc t (.initLoad op), op.toQueueOp?.map fun op => .op (.call t op))
    | _ => none
  | .thread t spurious => s.threadStep t spurious
  | .get t ptr => (s.get t ptr).map fun s => (s, none)
  | .release t ptr => do
    let n ← ptr.ptr
    if ptr ∈ s.retired then
      some ({ s with retired := s.retired.erase ptr, free := Function.update s.free n true },
        some (.epoch (.released t ptr)))
    else none
  | .write _ n node => if s.free n then some (s.setNode n node, none) else none

end Queues

end RockCoro
