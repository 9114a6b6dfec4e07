import RockCoro.Lib.Chain
import Mathlib.Algebra.Ring.Nat
import Mathlib.Data.Fintype.Basic
import Mathlib.Data.List.FinRange

/-!
# The timer wheels

`timer/timewheel.cpp` at the level of its intrusive lists. A coroutine's address stands for its
`timewheel_node_` as well: the node's `coroutine` field only points back. A C++ `int` is an `Int`;
division and remainder truncate, as in C++. `pushed` logs the calls of `Scheduler::job_push`.

A loop takes a unit of fuel per round and fails with `timeout` when it runs out. The theorems about
the timer prove that it does not, that no null link is read, and that no index leaves its array as
long as the delays are not negative.
-/

namespace RockCoro

/-- `TIMEWHEEL_INTERVAL_MS`: a tick of the lowest wheel. -/
abbrev TIMEWHEEL_INTERVAL_MS : Int := 1

/-- `TIMEWHEEL_NUM_SLOTS_PER_WHEEL`. -/
abbrev TIMEWHEEL_NUM_SLOTS_PER_WHEEL : ℕ := 60

/-- `TIMEWHEEL_NUM_WHEELS`. -/
abbrev TIMEWHEEL_NUM_WHEELS : ℕ := 3

instance : NeZero TIMEWHEEL_NUM_WHEELS := ⟨by decide⟩

/-- How a call can go wrong: by an exception, a slot index outside the array, or a null link. -/
inductive Fault
  | thrown (msg : String)
  | badSlot (i : Int)
  | nullLink
  | timeout
  deriving DecidableEq

/-- The `timewheel_node_` of a coroutine. -/
structure TimeWheelLinkedListNode (C : Type) where
  next : Option C
  delayMS : Int

/-- A list of coroutines linked through their `timewheel_node_`; it is empty when `head` is null.
-/
structure TimeWheelLinkedList (C : Type) where
  head : Option C := none
  tail : Option C := none

/-- `lower` and `upper` are indices into `TimerManager::timewheels`. -/
structure TimeWheel (C : Type) where
  slots : Fin TIMEWHEEL_NUM_SLOTS_PER_WHEEL → TimeWheelLinkedList C
  lower : Option (Fin TIMEWHEEL_NUM_WHEELS)
  upper : Option (Fin TIMEWHEEL_NUM_WHEELS)
  curSlotIdx : Int
  intervalMS : Int

/-- The timer, the nodes of all coroutines and the calls of `job_push` so far. -/
structure TimerManager (C : Type) where
  nodes : C → TimeWheelLinkedListNode C
  timewheels : Fin TIMEWHEEL_NUM_WHEELS → TimeWheel C
  lowestTimewheel : Fin TIMEWHEEL_NUM_WHEELS
  pendingEvents : TimeWheelLinkedList C
  pushed : List C

namespace TimeWheelLinkedList

variable {C : Type} [DecidableEq C]

/-- `pop_front`: the links of the popped node stay as they are. -/
def popFront (nodes : C → TimeWheelLinkedListNode C) (l : TimeWheelLinkedList C) :
    Option C × TimeWheelLinkedList C :=
  match l.head with
  | none => (none, l)
  | some ret =>
    let head := (nodes ret).next
    (some ret, ⟨head, if head = none then none else l.tail⟩)

/-- The write `c->timewheel_node_.next = n`. -/
def setNext (nodes : C → TimeWheelLinkedListNode C) (c : C) (n : Option C) :
    C → TimeWheelLinkedListNode C :=
  Function.update nodes c { nodes c with next := n }

/-- `push_back`: the link of the old tail is written before that of `c`. -/
def pushBack (nodes : C → TimeWheelLinkedListNode C) (l : TimeWheelLinkedList C) (c : C) :
    Except Fault ((C → TimeWheelLinkedListNode C) × TimeWheelLinkedList C) :=
  match l.head with
  | none => .ok (setNext nodes c none, ⟨some c, some c⟩)
  | some head =>
    match l.tail with
    | none => .error .nullLink
    | some tail =>
      let nodes := setNext nodes tail (some c)
      .ok (setNext nodes c none, ⟨some head, some c⟩)

end TimeWheelLinkedList

namespace TimerManager

variable {C : Type} [DecidableEq C]

/-- A slot of a wheel. -/
def slot (s : TimerManager C) (w : Fin TIMEWHEEL_NUM_WHEELS)
    (i : Fin TIMEWHEEL_NUM_SLOTS_PER_WHEEL) : TimeWheelLinkedList C :=
  (s.timewheels w).slots i

/-- Wheel `w` becomes `tw`. -/
def setWheel (s : TimerManager C) (w : Fin TIMEWHEEL_NUM_WHEELS) (tw : TimeWheel C) :
    TimerManager C :=
  { s with timewheels := Function.update s.timewheels w tw }

/-- Slot `i` of wheel `w` becomes `l`. -/
def setSlot (s : TimerManager C) (w : Fin TIMEWHEEL_NUM_WHEELS)
    (i : Fin TIMEWHEEL_NUM_SLOTS_PER_WHEEL) (l : TimeWheelLinkedList C) : TimerManager C :=
  s.setWheel w { s.timewheels w with slots := Function.update (s.timewheels w).slots i l }

/-- The write `c->timewheel_node_.delayMS = d`. -/
def setDelay (s : TimerManager C) (c : C) (d : Int) : TimerManager C :=
  { s with nodes := Function.update s.nodes c { s.nodes c with delayMS := d } }

/-- The index of an `int` into `slots`. -/
def slotIndex (i : Int) : Except Fault (Fin TIMEWHEEL_NUM_SLOTS_PER_WHEEL) :=
  if h : 0 ≤ i ∧ i < TIMEWHEEL_NUM_SLOTS_PER_WHEEL then .ok ⟨i.toNat, by omega⟩
  else .error (.badSlot i)

/-- `TimeWheel::add_event` of wheel `w`. -/
def addEventAt (s : TimerManager C) (w : Fin TIMEWHEEL_NUM_WHEELS) (c : C) :
    Except Fault (TimerManager C) := do
  let wheel := s.timewheels w
  let delayMS := (s.nodes c).delayMS
  if delayMS ≥ wheel.intervalMS * TIMEWHEEL_NUM_SLOTS_PER_WHEEL then
    .error (.thrown "cannot add event with such long interval")
  else
    let slotIdx := (wheel.curSlotIdx + delayMS.tdiv wheel.intervalMS).tmod
      TIMEWHEEL_NUM_SLOTS_PER_WHEEL
    let i ← slotIndex slotIdx
    let (nodes, l) ← (wheel.slots i).pushBack s.nodes c
    .ok ({ s with nodes := nodes }.setSlot w i l)

/-! ## Ticking -/

/-- A round of the loop of `tick` on a wheel with a lower one: an event of the slot moves to wheel
`lower`. It is `none` when the slot is empty. -/
def cascadeRound (s : TimerManager C) (w lower : Fin TIMEWHEEL_NUM_WHEELS)
    (i : Fin TIMEWHEEL_NUM_SLOTS_PER_WHEEL) : Except Fault (Option (TimerManager C)) :=
  match (s.slot w i).popFront s.nodes with
  | (none, _) => .ok none
  | (some c, l) => do
    let s := s.setSlot w i l
    let s := s.setDelay c ((s.nodes c).delayMS.tmod (s.timewheels w).intervalMS)
    let s ← s.addEventAt lower c
    .ok (some s)

/-- A round of the loop of `tick` on the lowest wheel: a coroutine of the slot, for `job_push`. -/
def fireRound (s : TimerManager C) (w : Fin TIMEWHEEL_NUM_WHEELS)
    (i : Fin TIMEWHEEL_NUM_SLOTS_PER_WHEEL) : Option (C × TimerManager C) :=
  match (s.slot w i).popFront s.nodes with
  | (none, _) => none
  | (some c, l) => some (c, s.setSlot w i l)

/-- The loop of `tick` on a wheel with a lower one: rounds until the slot is empty. -/
def cascade (w lower : Fin TIMEWHEEL_NUM_WHEELS) (i : Fin TIMEWHEEL_NUM_SLOTS_PER_WHEEL) :
    ℕ → TimerManager C → Except Fault (TimerManager C)
  | 0, _ => .error .timeout
  | fuel + 1, s =>
    match s.cascadeRound w lower i with
    | .error e => .error e
    | .ok none => .ok s
    | .ok (some s) => cascade w lower i fuel s

/-- The loop of `tick` on the lowest wheel: `job_push` for every coroutine of the slot. -/
def fire (w : Fin TIMEWHEEL_NUM_WHEELS) (i : Fin TIMEWHEEL_NUM_SLOTS_PER_WHEEL) :
    ℕ → TimerManager C → Except Fault (TimerManager C)
  | 0, _ => .error .timeout
  | fuel + 1, s =>
    match s.fireRound w i with
    | none => .ok s
    | some (c, s) => fire w i fuel { s with pushed := s.pushed ++ [c] }

/-- The loops of `tick`: slot `i` of wheel `w` is emptied. -/
def emptySlot (w : Fin TIMEWHEEL_NUM_WHEELS) (i : Fin TIMEWHEEL_NUM_SLOTS_PER_WHEEL) (fuel : ℕ)
    (s : TimerManager C) : Except Fault (TimerManager C) :=
  match (s.timewheels w).lower with
  | some lower => s.cascade w lower i fuel
  | none => s.fire w i fuel

/-- The end of `tick`: the cursor moves, and the wheel to tick next if it wraps. -/
def advance (s : TimerManager C) (w : Fin TIMEWHEEL_NUM_WHEELS) :
    TimerManager C × Option (Fin TIMEWHEEL_NUM_WHEELS) :=
  let cur := (s.timewheels w).curSlotIdx + 1
  if cur ≥ TIMEWHEEL_NUM_SLOTS_PER_WHEEL then
    (s.setWheel w { s.timewheels w with curSlotIdx := 0 }, (s.timewheels w).upper)
  else (s.setWheel w { s.timewheels w with curSlotIdx := cur }, none)

/-- `TimeWheel::tick` of wheel `w`; `levels` bounds the calls on upper wheels. -/
def tickAt (fuel : ℕ) : ℕ → Fin TIMEWHEEL_NUM_WHEELS → TimerManager C →
    Except Fault (TimerManager C)
  | 0, _, _ => .error .timeout
  | levels + 1, w, s => do
    let i ← slotIndex (s.timewheels w).curSlotIdx
    let s ← s.emptySlot w i fuel
    match s.advance w with
    | (s, some upper) => tickAt fuel levels upper s
    | (s, none) => .ok s

/-- `lowest_timewheel->tick()`. -/
def tick (fuel : ℕ) (s : TimerManager C) : Except Fault (TimerManager C) :=
  s.tickAt fuel TIMEWHEEL_NUM_WHEELS s.lowestTimewheel

/-! ## Adding events -/

/-- The loop of `internal_add_event` that picks one of the wheels from `ws` on; `none` is the index
`TIMEWHEEL_NUM_WHEELS`. -/
def pickWheel : List (Fin TIMEWHEEL_NUM_WHEELS) → Int → Option (Fin TIMEWHEEL_NUM_WHEELS)
  | [], _ => none
  | w :: ws, delayMS =>
    let delayMS := delayMS.tdiv TIMEWHEEL_NUM_SLOTS_PER_WHEEL
    if delayMS > 0 then pickWheel ws delayMS else some w

/-- `internal_add_event`: the first wheel that the loop picks takes the coroutine. -/
def internalAddEvent (s : TimerManager C) (c : C) : Except Fault (TimerManager C) :=
  let delayMS := (s.nodes c).delayMS.tdiv TIMEWHEEL_INTERVAL_MS
  match pickWheel (List.finRange TIMEWHEEL_NUM_WHEELS) delayMS with
  | none => .error (.thrown "cannot add event with such long interval")
  | some w => s.addEventAt w c

/-- `push_pending_event`. -/
def pushPendingEvent (s : TimerManager C) (c : C) : Except Fault (TimerManager C) := do
  let (nodes, l) ← s.pendingEvents.pushBack s.nodes c
  .ok { s with nodes := nodes, pendingEvents := l }

/-- `pop_pending_event`. -/
def popPendingEvent (s : TimerManager C) : Option C × TimerManager C :=
  let (c, l) := s.pendingEvents.popFront s.nodes
  (c, { s with pendingEvents := l })

/-- `add_event`: the delay goes into the node, and the coroutine to the pending list. -/
def addEvent (s : TimerManager C) (c : C) (delayMS : Int) : Except Fault (TimerManager C) :=
  (s.setDelay c delayMS).pushPendingEvent c

/-- A round of the drain loop of `event_loop`. -/
def drainOne (s : TimerManager C) : Except Fault (Option C × TimerManager C) :=
  match s.popPendingEvent with
  | (none, s) => .ok (none, s)
  | (some c, s) => do
    let s ← s.internalAddEvent c
    .ok (some c, s)

/-- The loop of `init`: `up` becomes the upper wheel of `cur`. -/
def initWheels (cur : Fin TIMEWHEEL_NUM_WHEELS) (tws : Fin TIMEWHEEL_NUM_WHEELS → TimeWheel C) :
    List (Fin TIMEWHEEL_NUM_WHEELS) → Fin TIMEWHEEL_NUM_WHEELS → TimeWheel C
  | [] => tws
  | up :: ups =>
    let tws := Function.update tws cur { tws cur with upper := some up }
    let tws := Function.update tws up { tws up with lower := some cur }
    let tws := Function.update tws up { tws up with
      intervalMS := (tws cur).intervalMS * TIMEWHEEL_NUM_SLOTS_PER_WHEEL }
    initWheels up tws ups

/-- The timer after its constructor and `init`. -/
def init (nodes : C → TimeWheelLinkedListNode C) : TimerManager C :=
  let tws : Fin TIMEWHEEL_NUM_WHEELS → TimeWheel C := fun _ => ⟨fun _ => {}, none, none, 0, 0⟩
  let tws := Function.update tws 0 { tws 0 with
    lower := none
    intervalMS := TIMEWHEEL_INTERVAL_MS }
  { nodes := nodes
    timewheels := initWheels 0 tws (List.finRange TIMEWHEEL_NUM_WHEELS).tail
    lowestTimewheel := 0
    pendingEvents := {}
    pushed := [] }

end TimerManager

end RockCoro
