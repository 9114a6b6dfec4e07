import Mathlib.Data.Nat.ModEq
import RockCoro.Lib.Arguments

/-!
# `Deque`

The ring buffer of `basic_struct/deque.h`, over storage in which each element is constructed and
destroyed by itself. `moved` is what the move constructor of `T` leaves of an object; it and the
destructor do not throw. A call may go wrong in two ways (`Safe`): `sizeof(T) * n` wraps around and
the block has fewer slots than the deque takes it to have, or the argument is the first element of
the deque itself, whose block is released before the argument is read. After any calls that are safe
the elements are those of a queue, in the slots from `head_` on (`run_areQueues`).
-/

namespace RockCoro

/-- The members. -/
structure Deque where
  data : Option ℕ
  size : ℕ
  capacity : ℕ
  head : ℕ
  head_mod : head % capacity = head
  deriving DecidableEq

namespace Deque

open Fallible Store Storage

variable {C V : Type}

/-- `physical_index`, in the arithmetic of `size_t`. -/
def physicalIndex (q : Deque) (logicalIndex : ℕ) : ℕ :=
  (q.head + logicalIndex) % 2 ^ 64 % q.capacity

/-- The head is one of the slots. -/
theorem head_lt {q : Deque} {i : ℕ} (hi : i < q.capacity) : q.head < q.capacity :=
  q.head_mod ▸ Nat.mod_lt _ (Nat.zero_lt_of_lt hi)

/-- The sum in `physical_index` does not wrap around. -/
theorem physicalIndex_eq {q : Deque} {i : ℕ} (hlimit : q.capacity ≤ 2 ^ 63)
    (hi : i < q.capacity) : physicalIndex q i = (q.head + i) % q.capacity := by
  have hhead := head_lt hi
  rw [physicalIndex, Nat.mod_eq_of_lt (a := q.head + i) (by omega)]

instance : Container Deque where
  data := data
  size := size
  capacity := capacity
  slot := physicalIndex
  -- so `head_ + i` stays in the range of `size_t`
  limit := 2 ^ 63
  slot_lt _ _ hi := Nat.mod_lt _ (Nat.zero_lt_of_lt hi)
  slot_inj q _ _ hlimit hi hj he := by
    rw [physicalIndex_eq hlimit hi, physicalIndex_eq hlimit hj] at he
    have hmod := Nat.ModEq.add_left_cancel' q.head he
    rwa [Nat.ModEq, Nat.mod_eq_of_lt hi, Nat.mod_eq_of_lt hj] at hmod

variable (sizeofT : ℕ) (moved : V → V) (INITIAL_CAPACITY : ℕ) [DecidableEq C]

/-- The constructor. -/
def init (c : C) : Fallible (Store C Deque V) Unit :=
  Store.init sizeofT INITIAL_CAPACITY (fun p => ⟨p, 0, INITIAL_CAPACITY, 0, Nat.zero_mod _⟩) c

/-- The destructor. -/
def destruct (c : C) : Fallible (Store C Deque V) Unit := Store.destruct c

/-- The members after the elements were moved to the first slots of a new block. -/
def rebuild (q : Deque) (newData : Option ℕ) (newCap : ℕ) : Deque :=
  { q with data := newData, capacity := newCap, head := 0, head_mod := Nat.zero_mod _ }

/-- A write to `size_`. -/
def resize (q : Deque) (size : ℕ) : Deque := { q with size := size }

/-- `push_back(const T &)`. -/
def pushBack (c : C) (value : Arg V) : Fallible (Store C Deque V) Unit :=
  Store.pushBack sizeofT moved rebuild tryConstructAt resize value.load c

/-- `push_back(T &&)`. -/
def pushBackMove (c : C) (value : Arg V) : Fallible (Store C Deque V) Unit :=
  Store.pushBack sizeofT moved rebuild constructAt resize (value.take moved) c

/-- `head_ = (head_ + 1) % capacity_; --size_`. -/
def advance (q : Deque) : Deque :=
  { q with
    head := (q.head + 1) % 2 ^ 64 % q.capacity
    size := q.size - 1
    head_mod := Nat.mod_mod .. }

/-- `pop_front`. -/
def popFront (c : C) : Fallible (Store C Deque V) Unit := do
  let q ← members c
  require (0 < q.size)
  onStorage (destroyAt q.data q.head)
  setMembers c q.advance

/-- A reference to the first element. -/
def front (c : C) : Fallible (Store C Deque V) (Arg V) := do
  let q ← members c
  require (0 < q.size)
  pure (.slot q.data q.head)

/-- `push_back` of the first element of the deque itself. -/
def pushBackFront (c : C) : Fallible (Store C Deque V) Unit := do
  let r ← front c
  pushBack sizeofT moved c r

/-! ## Calls -/

/-- An argument of `push_back`: an object in no deque, or the first element of deque `d`. -/
inductive Operand (C V : Type)
  | value (x : V)
  | front (d : C)

/-- A call of a member function. -/
inductive Call (C V : Type)
  | init (c : C)
  | pushBack (c : C) (value : Operand C V)
  | pushBackMove (c : C) (value : Operand C V)
  | popFront (c : C)
  | destruct (c : C)

/-- The reference that the caller passes for an argument. -/
def refer : Operand C V → Fallible (Store C Deque V) (Arg V)
  | .value x => pure (.value x)
  | .front d => front d

/-- A call, after its argument. -/
def call : Call C V → Fallible (Store C Deque V) Unit
  | .init c => init sizeofT INITIAL_CAPACITY c
  | .pushBack c a => do
    let r ← refer a
    pushBack sizeofT moved c r
  | .pushBackMove c a => do
    let r ← refer a
    pushBackMove sizeofT moved c r
  | .popFront c => popFront c
  | .destruct c => destruct c

/-- One call after another. -/
def run (calls : List (Call C V)) : Fallible (Store C Deque V) Unit :=
  runAll (call sizeofT moved INITIAL_CAPACITY) calls

/-- The element that an argument is. -/
def Operand.argument : Operand C V → Argument C V
  | value x => .value x
  | front d => .element d 0

/-- The same call on queues. It is possible for queues that exist and, with `pop_front`, are not
empty; an argument has to exist too. -/
def Call.onQueues (ref : C → Option (List V)) : Call C V → Option (C → Option (List V))
  | .init c => if (ref c).isNone then some (Function.update ref c (some [])) else none
  | .pushBack c a =>
    appendOnLists (fun _ => true) c ((Forward.copy a.argument).onLists moved ref)
  | .pushBackMove c a =>
    appendOnLists (fun _ => true) c ((Forward.move a.argument).onLists moved ref)
  | .popFront c =>
    match ref c with
    | some (_ :: l) => some (Function.update ref c (some l))
    | _ => none
  | .destruct c => (ref c).map fun _ => Function.update ref c none

omit [DecidableEq C] in
/-- The call allocates no block whose size in bytes overflows, and is not given the first element of
a deque that it moves to another block. -/
def Safe (s : Store C Deque V) : Call C V → Prop
  | .init _ => Fits Deque sizeofT INITIAL_CAPACITY
  | .pushBack c a | .pushBackMove c a => GrowsApart sizeofT s c [a.argument]
  | .popFront _ | .destruct _ => True

instance (s : Store C Deque V) : (e : Call C V) → Decidable (Safe sizeofT INITIAL_CAPACITY s e)
  | .init _ => inferInstanceAs (Decidable (Fits ..))
  | .pushBack .. | .pushBackMove .. => inferInstanceAs (Decidable (GrowsApart ..))
  | .popFront _ | .destruct _ => inferInstanceAs (Decidable True)

variable {sizeofT moved INITIAL_CAPACITY} {s : Store C Deque V} {ref ref' : C → Option (List V)}
  {c : C} {q : Deque} {l : List V} {x : V} {n : ℕ} {env : Environment}

/-- A new deque has storage and no elements. -/
theorem makes_init : Makes INITIAL_CAPACITY fun p =>
    (⟨p, 0, INITIAL_CAPACITY, 0, Nat.zero_mod _⟩ : Deque) :=
  ⟨fun _ => rfl, fun _ => rfl, fun _ => rfl⟩

/-- What `ensure_capacity` writes. -/
theorem rebuilds : Rebuilds rebuild where
  data_eq _ _ _ := rfl
  size_eq _ _ _ := rfl
  capacity_eq _ _ _ := rfl
  slot_eq q p k hlimit i hi := by
    refine (physicalIndex_eq (q := rebuild q p k) hlimit hi).trans ?_
    change (0 + i) % k = i
    rw [Nat.zero_add, Nat.mod_eq_of_lt hi]

/-- A write to `size_` changes nothing else. -/
theorem resizes : Resizes resize :=
  ⟨fun _ _ => rfl, fun _ _ => rfl, fun _ _ => rfl, fun _ _ => rfl⟩

/-- The first element is where `head_` points to. -/
theorem slot_zero {q : Deque} (hlimit : q.capacity ≤ 2 ^ 63) (hpos : 0 < q.capacity) :
    Container.slot q 0 = q.head :=
  (physicalIndex_eq hlimit hpos).trans q.head_mod

/-- After `pop_front` each element comes one place earlier. -/
theorem slot_advance {q : Deque} {i : ℕ} (hlimit : q.capacity ≤ 2 ^ 63) (hi : i + 1 < q.capacity) :
    Container.slot q.advance i = Container.slot q (i + 1) := by
  have hhead := head_lt hi
  have hi' : i < q.advance.capacity := Nat.lt_of_succ_lt hi
  refine (physicalIndex_eq (q := q.advance) hlimit hi').trans
    (.trans ?_ (physicalIndex_eq hlimit hi).symm)
  change ((q.head + 1) % 2 ^ 64 % q.capacity + i) % q.capacity = (q.head + (i + 1)) % q.capacity
  rw [Nat.mod_eq_of_lt (a := q.head + 1) (by omega), Nat.mod_add_mod, Nat.add_assoc, Nat.add_comm 1]

omit [DecidableEq C] in
/-- What is known of a deque that is a queue with a first element. -/
theorem front_slot (h : s.Inv ref) (hc : s.object c = some q) (hl : ref c = some (x :: l)) :
    0 < q.size ∧ q.capacity ≤ 2 ^ 63 ∧ Container.slot q 0 = q.head := by
  obtain ⟨l', hl', hshows⟩ := h.owned.shows hc
  cases hl.symm.trans hl'
  have hsize : q.size = l.length + 1 := hshows.size_eq
  have hpos : 0 < q.size := hsize ▸ Nat.succ_pos _
  exact ⟨hpos, hshows.le_limit, slot_zero hshows.le_limit (hpos.trans_le hshows.size_le)⟩

/-- The first element is destroyed, and the next one is the first. -/
theorem popFront_meets (h : s.Inv ref) (hc : s.object c = some q) (hl : ref c = some (x :: l)) :
    (popFront c).Meets env n s (fun _ _ s' => s'.Inv (Function.update ref c (some l)))
      (fun _ => env.Fails) False := by
  obtain ⟨hpos, hlimit, hslot⟩ := front_slot h hc hl
  obtain ⟨l', hl', hshows⟩ := h.owned.shows hc
  cases hl.symm.trans hl'
  have hsize : q.size = l.length + 1 := hshows.size_eq
  have hcap : l.length + 1 ≤ q.capacity := hsize ▸ hshows.size_le
  have hholds := hshows.holds
  simp only [popFront, meets_bind]
  rw [members_meets h.is hc, meets_require hpos]
  cases hdata : q.data with
  | none =>
    rw [show Container.data q = none from hdata] at hholds
    cases hholds.2
  | some b =>
    rw [show Container.data q = some b from hdata] at hholds
    obtain ⟨B, hB, hsizeB, hf⟩ := hholds
    obtain ⟨hlive, hf'⟩ := hf.popFront (distinct_slot hlimit hcap)
    rw [hslot] at hlive hf'
    refine (onStorage_meets h.is (destroyAt_meets h.is.storage hB hlive)).mono fun _ _ s₁ hs₁ => ?_
    obtain ⟨⟨-, hm₁⟩, hobject₁⟩ := hs₁
    refine (setMembers_meets ⟨hm₁, hobject₁⟩ hc).mono fun _ _ s₂ hs₂ => hs₂.inv ?_
    refine h.owned.inPlace hc ⟨?_, ?_, hlimit, ?_⟩ rfl fun b' hb' => ?_
    · exact Nat.sub_eq_of_eq_add hsize
    · exact (Nat.sub_le ..).trans hshows.size_le
    · change Holds _ q.data q.capacity _ l
      rw [hdata]
      exact ⟨_, Function.update_self .., hsizeB, hf'.congr fun i hi =>
        slot_advance hlimit ((Nat.succ_lt_succ hi).trans_le hcap)⟩
    · exact Function.update_of_ne (fun he => hb' (hdata.trans (congrArg some he.symm))) ..

omit [DecidableEq C] in
/-- `front` is a reference to the first element. -/
theorem front_refers (h : s.Inv ref) (hc : s.object c = some q) (hl : ref c = some (x :: l))
    {E : Store C Deque V → Prop} {U : Prop} :
    (front c).Meets env n s (fun r k s' => Refers s.object (.element c 0 : Argument C V) r ∧
      k = n ∧ s' = s) E U := by
  obtain ⟨hpos, -, hslot⟩ := front_slot h hc hl
  simp only [front, meets_bind]
  rw [members_meets h.is hc, meets_require hpos, meets_pure, ← hslot]
  exact ⟨⟨q, hc, rfl⟩, rfl, rfl⟩

omit [DecidableEq C] in
/-- The first element is read. -/
theorem front_meets (h : s.Inv ref) (hc : s.object c = some q) (hl : ref c = some (x :: l)) :
    (do
      let r ← front c
      onStorage r.load).Meets env n s (fun y k s' => y = x ∧ k = n ∧ s' = s)
      (fun _ => False) False := by
  have hx : (Argument.element c 0 : Argument C V).get ref = some x := by
    rw [Argument.get, hl]
    rfl
  rw [meets_bind]
  refine (front_refers h hc hl).mono fun r k s' hr => ?_
  obtain ⟨hr, rfl, rfl⟩ := hr
  refine meets_zoom.2 ((h.load_meets hr hx).mono fun y k m hm => ?_)
  obtain ⟨rfl, rfl, rfl⟩ := hm
  exact ⟨rfl, rfl, rfl⟩

omit [DecidableEq C] in
/-- The reference for an argument that exists. -/
theorem refer_meets {a : Operand C V} (h : s.Inv ref) (ha : (a.argument.get ref).isSome = true) :
    (refer a).Meets env n s (fun r _ s' => Refers s.object a.argument r ∧ s' = s)
      (fun _ => env.Fails) False := by
  cases a with
  | value x => exact ⟨rfl, rfl⟩
  | front d =>
    obtain ⟨v, hv⟩ := Option.isSome_iff_exists.1 ha
    obtain ⟨l, hl, hhead⟩ := Option.bind_eq_some_iff.1 hv
    cases l with
    | nil => cases hhead
    | cons x l =>
      obtain ⟨q, hq⟩ := h.exists_object hl
      exact (front_refers h hq hl).mono fun _ _ _ hr => ⟨hr.1, hr.2.2⟩

/-- A value is appended, if the reference to it stays good. -/
theorem pushBack_safe {construct : Option ℕ → ℕ → V → Fallible (Storage V) Unit}
    {value : Fallible (Storage V) V} {a : Argument C V} {r : Arg V} {ref₁ : C → Option (List V)}
    (hconstruct : Constructs env construct) (h : s.Inv ref) (hc : s.object c = some q)
    (hl : ref₁ c = some l) (hr : Refers s.object a r) (hsafe : GrowsApart sizeofT s c [a])
    (hvalue : ∀ s' : Store C Deque V, s'.Inv ref → Refers s'.object a r → ∀ n',
      value.Meets env n' s'.storage
        (fun y _ m => y = x ∧ ({ s' with storage := m } : Store C Deque V).Inv ref₁)
        (fun _ => env.Fails) False) :
    (Store.pushBack sizeofT moved rebuild construct resize value c).Meets env n s
      (fun _ _ s' => s'.Inv (Function.update ref₁ c (some (l ++ [x]))))
      (fun _ => env.Fails) False := by
  refine Store.pushBack_meets rebuilds hconstruct resizes h hc hl
    (fun k hk => (hsafe q hc k hk).1) fun s' h' hg n' => hvalue s' h' ?_ n'
  exact hg.refers hr fun hfull => (hsafe q hc _ (if_neg hfull)).2 a List.mem_cons_self

/-- A safe call does what it does to queues. -/
theorem call_meets {e : Call C V} (h : s.Inv ref) (he : e.onQueues moved ref = some ref')
    (hsafe : Safe sizeofT INITIAL_CAPACITY s e) :
    (call sizeofT moved INITIAL_CAPACITY e).Meets env n s (fun _ _ s' => s'.Inv ref')
      (fun _ => env.Fails) False := by
  cases e with
  | init c =>
    rw [Call.onQueues] at he
    split at he
    · rename_i hnone
      cases he
      exact init_meets makes_init h (h.object_eq_none (Option.isNone_iff_eq_none.1 hnone)) hsafe
    · cases he
  | pushBack c a =>
    rw [Call.onQueues] at he
    obtain ⟨v, ref₁, l, hread, hl, -, rfl⟩ := appendOnLists_eq_some he
    obtain ⟨l', hl', -⟩ := exists_of_length (onLists_length hread c) hl
    obtain ⟨q, hc⟩ := h.exists_object hl'
    obtain ⟨y, hy, -⟩ := Option.map_eq_some_iff.1 hread
    rw [call, meets_bind]
    refine (refer_meets h (Option.isSome_iff_exists.2 ⟨y, hy⟩)).mono fun r _ s₁ hr => ?_
    obtain ⟨hr, rfl⟩ := hr
    exact pushBack_safe constructs_tryConstructAt h hc hl hr hsafe fun _ h' hgood _ =>
      h'.read_meets (.copy hgood) hread
  | pushBackMove c a =>
    rw [Call.onQueues] at he
    obtain ⟨v, ref₁, l, hread, hl, -, rfl⟩ := appendOnLists_eq_some he
    obtain ⟨l', hl', -⟩ := exists_of_length (onLists_length hread c) hl
    obtain ⟨q, hc⟩ := h.exists_object hl'
    obtain ⟨y, hy, -⟩ := Option.map_eq_some_iff.1 hread
    rw [call, meets_bind]
    refine (refer_meets h (Option.isSome_iff_exists.2 ⟨y, hy⟩)).mono fun r _ s₁ hr => ?_
    obtain ⟨hr, rfl⟩ := hr
    exact pushBack_safe constructs_constructAt h hc hl hr hsafe fun _ h' hgood _ =>
      h'.read_meets (.move hgood) hread
  | popFront c =>
    rw [Call.onQueues] at he
    split at he
    · rename_i x l hl
      cases he
      obtain ⟨q, hc⟩ := h.exists_object hl
      exact popFront_meets h hc hl
    · cases he
  | destruct c =>
    obtain ⟨l, hl, rfl⟩ := Option.map_eq_some_iff.1 he
    obtain ⟨q, hc⟩ := h.exists_object hl
    exact (destruct_meets h hc).mono fun _ _ s' hs' => hs'.1

/-- Deques are in order after every sequence of safe calls that is possible for queues. -/
theorem run_meets {calls : List (Call C V)}
    (hcalls : calls.foldlM (Call.onQueues moved) (fun _ => none) = some ref)
    (hsafe : Throughout (call sizeofT moved INITIAL_CAPACITY) (Safe sizeofT INITIAL_CAPACITY) env n
      {} calls) :
    (run sizeofT moved INITIAL_CAPACITY calls).Meets env n {} (fun _ _ s' => s'.Inv ref)
      (fun _ => env.Fails) False := by
  rw [run]
  exact meets_runAll (I := fun ref s => Inv s ref)
    (fun _ _ _ _ _ h he hsafe => call_meets h he hsafe) hcalls inv_empty hsafe

/-! ## An element of the deque as the argument -/

/-- If there is room, a copy of the first element is appended. -/
theorem pushBackFront_meets (h : s.Inv ref) (hc : s.object c = some q) (hl : ref c = some (x :: l))
    (hroom : q.size < q.capacity) : (pushBackFront sizeofT moved c).Meets env n s
      (fun _ _ s' => s'.Inv (Function.update ref c (some (x :: l ++ [x])))) (fun _ => env.Fails)
      False := by
  have honQueues : (Call.pushBack c (.front c)).onQueues moved ref =
      some (Function.update ref c (some (x :: l ++ [x]))) := by
    simp [Call.onQueues, Forward.onLists, Operand.argument, Argument.get, appendOnLists, hl]
  change (call sizeofT moved 0 (.pushBack c (.front c))).Meets env n s _ _ _
  refine call_meets h honQueues ?_
  refine (growsApart_iff hc).2 fun k hk => ?_
  cases hk.symm.trans (if_pos hroom)

/-- If the deque is full, its first element is gone before it is read. -/
theorem pushBackFront_ne_ok {n' : ℕ} {s' : Store C Deque V} (h : s.Inv ref)
    (hc : s.object c = some q) (hl : ref c = some (x :: l)) (hfull : ¬q.size < q.capacity) :
    pushBackFront sizeofT moved c env n s ≠ .ok () n' s' := by
  obtain ⟨hpos, hlimit, hslot⟩ := front_slot h hc hl
  obtain ⟨l', hl', hshows⟩ := h.owned.shows hc
  have hsize : q.size ≤ 2 ^ 63 := hshows.size_le.trans hshows.le_limit
  have hmeets : (pushBackFront sizeofT moved c).Meets env n s (fun _ _ _ => False) (fun _ => True)
      True := by
    simp only [pushBackFront, front, meets_bind]
    rw [members_meets h.is hc, meets_require hpos, meets_pure, ← hslot]
    cases hpush : pushBack sizeofT moved c (.slot (Container.data q) (Container.slot q 0)) env n s
      with
    | ok a n₁ s₁ =>
      exact absurd hpush (pushBack_own_ne_ok hc hfull
        ((Nat.succ_le_succ hsize).trans_lt (by omega)))
    | thrown s₁ =>
      rw [Meets, show q.data = Container.data q from rfl, hpush]
      trivial
    | undefined =>
      rw [Meets, show q.data = Container.data q from rfl, hpush]
      trivial
  exact fun hrun => hmeets.ok hrun

/-! ## What is seen of the deques -/

/-- The deque is a queue with the elements `l`: they are its live elements, in the slots from
`head_` on. -/
structure IsQueue (s : Store C Deque V) (c : C) (q : Deque) (l : List V) : Prop where
  size : q.size = l.length
  front : ∀ x xs, l = x :: xs → ∀ n, (do
    let r ← front c
    onStorage r.load : Fallible _ V) .never n s = .ok x n s
  live : ∀ i < q.size,
    s.storage.valueAt q.data ((q.head + i) % q.capacity) = l[i]?
  others : ∀ j, (∀ i < q.size, (q.head + i) % q.capacity ≠ j) → s.storage.valueAt q.data j = none

omit [DecidableEq C] in
/-- A deque in order is a queue. -/
theorem isQueue (h : s.Inv ref) (hc : s.object c = some q) (hl : ref c = some l) :
    IsQueue s c q l := by
  obtain ⟨l', hl', hshows⟩ := h.owned.shows hc
  cases hl.symm.trans hl'
  have hsize : q.size = l.length := hshows.size_eq
  have hslot : ∀ i < q.size, (q.head + i) % q.capacity = Container.slot q i := fun i hi =>
    (physicalIndex_eq hshows.le_limit (hi.trans_le hshows.size_le)).symm
  obtain ⟨hlive, hothers⟩ := h.valueAt hc hl
  refine ⟨hsize, ?_, fun i hi => ?_, fun j hj => hothers j fun i hi => ?_⟩
  · rintro x xs rfl n
    obtain ⟨y, n', s', hp, rfl, rfl, rfl⟩ :=
      ((front_meets h hc hl).weaken fun _ h => h.elim).of_never
    exact hp
  · rw [hslot i hi]
    exact hlive i (hsize ▸ hi)
  · rw [← hslot i (hsize.symm ▸ hi)]
    exact hj i (hsize.symm ▸ hi)

/-- The deques are the queues `ref`. Each object that was constructed is in one slot or was
destroyed, once; when the deques are gone all were destroyed, and no storage is left. -/
structure AreQueues (s : Store C Deque V) (ref : C → Option (List V)) : Prop where
  exist : ∀ c, s.object c = none ↔ ref c = none
  isQueue : ∀ c q l, s.object c = some q → ref c = some l → IsQueue s c q l
  balanced : s.storage.Balanced
  gone : (∀ c, ref c = none) → s.storage.destroyed.Perm (List.range s.storage.constructed) ∧
    ∀ b, s.storage.sizes b = none

omit [DecidableEq C] in
/-- Deques in order are queues. -/
theorem areQueues (h : s.Inv ref) : AreQueues s ref where
  exist _ := h.object_eq_none_iff
  isQueue _ _ _ hc hl := isQueue h hc hl
  balanced := h.balanced
  gone hnone := h.all_gone fun c => h.object_eq_none (hnone c)

/-- Deques are queues over every sequence of calls that is possible for queues, for every initial
capacity, if the calls are safe. -/
theorem run_areQueues {calls : List (Call C V)}
    (hcalls : calls.foldlM (Call.onQueues moved) (fun _ => none) = some ref)
    (hsafe : Throughout (call sizeofT moved INITIAL_CAPACITY) (Safe sizeofT INITIAL_CAPACITY) .never
      0 {} calls) :
    ∃ n s, run sizeofT moved INITIAL_CAPACITY calls .never 0 {} = .ok () n s ∧ AreQueues s ref := by
  obtain ⟨_, n, s, hrun, h⟩ := (run_meets (n := 0) hcalls hsafe).of_never
  exact ⟨n, s, hrun, areQueues h⟩

/-- From no storage to four slots; the deque grows when its elements wrap around, and its first
element is appended to it when there is room. -/
def wrapAndGrow : List (Call Unit ℕ) :=
  [.init (), .pushBack () (.value 1), .pushBackMove () (.value 2), .popFront (),
    .pushBack () (.value 3), .pushBack () (.value 4), .pushBack () (.front ())]

/-- A run that wraps around the end of the ring buffer and then grows. -/
theorem run_areQueues_nat : ∃ n s, run 8 id 0 wrapAndGrow .never 0 {} = .ok () n s ∧
    AreQueues s fun _ : Unit => some [2, 3, 4, 2] := by
  refine run_areQueues (Eq.trans (b := some _) rfl (congrArg some (funext fun _ => ?_))) ?_
  · rfl
  · decide +kernel

/-- The two ways in which a call is not safe: the first element of a full deque is appended to it,
and eight times the initial capacity is zero in the arithmetic of `size_t`, so that the block has no
slot for the first element. -/
theorem run_undefined_front :
    ([Call.init (), .pushBack () (.value 7), .pushBack () (.front ())].foldlM (Call.onQueues id)
        fun _ => none).isSome = true ∧
      run 8 id 1 [.init (), .pushBack () (.value 7), .pushBack () (.front ())] .never 0 {} =
        .undefined ∧
      ([Call.init (), .pushBack () (.value 7)].foldlM (Call.onQueues id) fun _ => none).isSome =
        true ∧
      run 8 id (2 ^ 61) [.init (), .pushBack () (.value 7)] .never 0 {} = .undefined :=
  ⟨rfl, rfl, rfl, rfl⟩

end Deque

end RockCoro
