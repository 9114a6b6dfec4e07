import Mathlib.Data.Nat.ModEq
import Mathlib.Logic.Function.Basic

/-!
# `Queue`

The circular queue of `basic_struct/queue.h`, over `SEG_COUNT` segments of `SEG_SIZE` slots, which
are allocated when `bottom` reaches them. An item that was popped stays in its slot; no push reaches
this slot before the next pop (`run_answers`). A step with an assert that fails, with an index out
of bounds, or through a null pointer has no result.
-/

namespace RockCoro

/-- The member `data`, with its null pointers, and the two indices. `bottom` is exclusive. -/
structure Queue (T : Type) (SEG_SIZE SEG_COUNT : ℕ) where
  data : ℕ → Option (ℕ → T) := fun _ => none
  top : ℕ := 0
  bottom : ℕ := 0

namespace Queue

variable {T : Type} (SEG_SIZE SEG_COUNT : ℕ)

/-- `SEG_SIZE * SEG_COUNT`, of type `size_t`. -/
def bound : ℕ := SEG_SIZE * SEG_COUNT % UInt64.size

/-- `offset`. -/
def offset (idx : ℕ) : ℕ := idx % SEG_SIZE

/-- A pointer to an item: its segment, and its place there. -/
abbrev Pointer : Type := ℕ × ℕ

/-- `&segment(idx)->buffer[offset(idx)]`. -/
def pointer (idx : ℕ) : Pointer := (idx / SEG_SIZE, offset SEG_SIZE idx)

variable {SEG_SIZE SEG_COUNT}

/-- The segment of an index, if there is one. -/
def segment (q : Queue T SEG_SIZE SEG_COUNT) (idx : ℕ) : Option (ℕ → T) :=
  if idx / SEG_SIZE < SEG_COUNT then q.data (idx / SEG_SIZE) else none

/-- What a pointer points to. -/
def value (q : Queue T SEG_SIZE SEG_COUNT) (p : Pointer) : Option T := (q.data p.1).map (· p.2)

/-- Writes an item to a slot. A segment that is not there is allocated, with items `x₀`. -/
def store (x₀ : T) (q : Queue T SEG_SIZE SEG_COUNT) (idx : ℕ) (item : T) :
    Queue T SEG_SIZE SEG_COUNT :=
  let segment := (q.data (idx / SEG_SIZE)).getD fun _ => x₀
  let segment := Function.update segment (offset SEG_SIZE idx) item
  { q with data := Function.update q.data (idx / SEG_SIZE) (some segment) }

/-- `push`. -/
def push (x₀ : T) (q : Queue T SEG_SIZE SEG_COUNT) (item : T) :
    Option (Queue T SEG_SIZE SEG_COUNT) :=
  let b_next := (q.bottom + 1) % UInt64.size
  let b_next := if bound SEG_SIZE SEG_COUNT ≤ b_next then 0 else b_next
  if q.top = b_next then none
  else if q.bottom / SEG_SIZE < SEG_COUNT then
    some { q.store x₀ q.bottom item with bottom := b_next }
  else none

/-- `pop`, with the pointer that it returns. -/
def pop (q : Queue T SEG_SIZE SEG_COUNT) : Option (Option Pointer × Queue T SEG_SIZE SEG_COUNT) :=
  if q.top = q.bottom then some (none, q)
  else if (q.segment q.top).isSome then
    let top := (q.top + 1) % UInt64.size
    let top := if top = bound SEG_SIZE SEG_COUNT then 0 else top
    some (some (pointer SEG_SIZE q.top), { q with top := top })
  else none

/-! ## Runs -/

/-- A call of the queue. -/
inductive Op (T : Type)
  | push (item : T)
  | pop

/-- One call. The second part of the state is the pointer that the last successful pop returned. -/
def step (x₀ : T) : Queue T SEG_SIZE SEG_COUNT × Option Pointer → Op T →
    Option (Queue T SEG_SIZE SEG_COUNT × Option Pointer)
  | (q, p), .push item => (push x₀ q item).map (·, p)
  | (q, p), .pop => (pop q).map fun r => (r.2, r.1.or p)

/-- The calls on an empty queue, with the pointer of the last successful `pop`. -/
def run (x₀ : T) (ops : List (Op T)) : Option (Queue T SEG_SIZE SEG_COUNT × Option Pointer) :=
  ops.foldlM (step x₀) ({}, none)

variable {x₀ x : T} {q : Queue T SEG_SIZE SEG_COUNT} {items : List T} {p : Option Pointer}
  {last : Option T}
  {i j idx : ℕ}

/-- Two indices have different slots. -/
theorem pointer_inj (h : pointer SEG_SIZE i = pointer SEG_SIZE j) : i = j := by
  obtain ⟨hdiv, hmod⟩ := Prod.ext_iff.1 h
  change i / SEG_SIZE = j / SEG_SIZE at hdiv
  change i % SEG_SIZE = j % SEG_SIZE at hmod
  rw [← Nat.div_add_mod i SEG_SIZE, hdiv, hmod, Nat.div_add_mod]

/-- Fewer than `n` steps around a ring of `n` places do not meet. -/
theorem ring_inj {n k : ℕ} (hi : i < n) (hj : j < n) (h : (k + i) % n = (k + j) % n) : i = j := by
  have hmod := Nat.ModEq.add_left_cancel' k h
  rwa [Nat.ModEq, Nat.mod_eq_of_lt hi, Nat.mod_eq_of_lt hj] at hmod

/-- The bound is a `size_t`. -/
theorem bound_lt_size : bound SEG_SIZE SEG_COUNT < UInt64.size := Nat.mod_lt _ (by decide)

/-- An index below the bound has a segment, also when the product `SEG_SIZE * SEG_COUNT` wraps. -/
theorem div_lt_count (h : idx < bound SEG_SIZE SEG_COUNT) : idx / SEG_SIZE < SEG_COUNT :=
  Nat.div_lt_of_lt_mul (h.trans_le (Nat.mod_le ..))

/-- The indices do not overflow. -/
theorem succ_mod_size (h : idx < bound SEG_SIZE SEG_COUNT) : (idx + 1) % UInt64.size = idx + 1 :=
  Nat.mod_eq_of_lt ((Nat.succ_le_of_lt h).trans_lt bound_lt_size)

/-- The wrap-around in `push`. -/
theorem wrap_push {n : ℕ} (h : idx < n) : (if n ≤ idx + 1 then 0 else idx + 1) = (idx + 1) % n := by
  split
  · rw [show idx + 1 = n from Nat.le_antisymm h ‹_›, Nat.mod_self]
  · rw [Nat.mod_eq_of_lt (Nat.not_le.1 ‹_›)]

/-- The items are in the slots from `top` on, and there is one slot more than they may fill. -/
structure Stores (q : Queue T SEG_SIZE SEG_COUNT) (items : List T) : Prop where
  top_le : q.top ≤ bound SEG_SIZE SEG_COUNT - 1
  length_le : items.length ≤ bound SEG_SIZE SEG_COUNT - 1
  bottom_eq : q.bottom = (q.top + items.length) % bound SEG_SIZE SEG_COUNT
  value_eq : ∀ i x, items[i]? = some x →
    q.value (pointer SEG_SIZE ((q.top + i) % bound SEG_SIZE SEG_COUNT)) = some x

/-- The item that was popped last is in the slot before `top`. -/
inductive Popped (q : Queue T SEG_SIZE SEG_COUNT) : Option Pointer → Option T → Prop
  | none : Popped q none none
  | some {x : T} {idx : ℕ}
    (hidx : idx = (q.top + (bound SEG_SIZE SEG_COUNT - 1)) % bound SEG_SIZE SEG_COUNT)
    (hx : q.value (pointer SEG_SIZE idx) = some x) : Popped q (some (pointer SEG_SIZE idx)) (some x)

/-- The index of the first item is below the bound. -/
theorem Stores.top_mod (h : q.Stores items) : q.top % bound SEG_SIZE SEG_COUNT = q.top := by
  have htop := h.top_le
  generalize bound SEG_SIZE SEG_COUNT = n at htop ⊢
  cases n with
  | zero => exact Nat.mod_zero _
  | succ n => exact Nat.mod_eq_of_lt (Nat.lt_succ_of_le htop)

/-- A slot reads what was stored to it. -/
theorem value_store_self : (q.store x₀ idx x).value (pointer SEG_SIZE idx) = some x := by
  change (Function.update q.data (idx / SEG_SIZE) _ (idx / SEG_SIZE)).map _ = _
  rw [Function.update_self]
  exact congrArg some (Function.update_self ..)

/-- A store keeps what other slots hold; a segment that it allocates held nothing. -/
theorem value_store_of_ne (x₀ x : T) {y : T} (hne : i ≠ idx)
    (hy : q.value (pointer SEG_SIZE i) = some y) :
    (q.store x₀ idx x).value (pointer SEG_SIZE i) = some y := by
  obtain ⟨segment, hsegment, hy⟩ := Option.map_eq_some_iff.1 hy
  change q.data (i / SEG_SIZE) = some segment at hsegment
  change (Function.update q.data (idx / SEG_SIZE) _ (i / SEG_SIZE)).map _ = _
  by_cases hdiv : i / SEG_SIZE = idx / SEG_SIZE
  · have hoffset : (pointer SEG_SIZE i).2 ≠ offset SEG_SIZE idx := fun he =>
      hne (pointer_inj (Prod.ext hdiv he))
    rw [hdiv, Function.update_self, ← hdiv, hsegment, Option.map_some, Option.getD_some,
      Function.update_of_ne hoffset, hy]
  · rw [Function.update_of_ne hdiv, hsegment, Option.map_some, hy]

variable (x₀) in
/-- An item is pushed. The slot that it gets is no other slot that is read. -/
theorem Stores.push (h : q.Stores items) (hroom : items.length < bound SEG_SIZE SEG_COUNT - 1) :
    ∃ q', q.push x₀ x = some q' ∧ q'.Stores (items ++ [x]) ∧
    (q.Popped p last → q'.Popped p last) := by
  have hpos : 0 < bound SEG_SIZE SEG_COUNT := by omega
  have hbottom : q.bottom < bound SEG_SIZE SEG_COUNT := h.bottom_eq ▸ Nat.mod_lt _ hpos
  have hnext : (q.bottom + 1) % bound SEG_SIZE SEG_COUNT =
      (q.top + (items.length + 1)) % bound SEG_SIZE SEG_COUNT := by
    rw [h.bottom_eq, Nat.mod_add_mod, Nat.add_assoc]
  have hassert : q.top ≠ (q.bottom + 1) % bound SEG_SIZE SEG_COUNT := by
    intro he
    have hzero : (q.top + 0) % bound SEG_SIZE SEG_COUNT =
        (q.top + (items.length + 1)) % bound SEG_SIZE SEG_COUNT := by
      rw [Nat.add_zero, h.top_mod, ← hnext, ← he]
    exact Nat.succ_ne_zero _ (ring_inj hpos (by omega) hzero).symm
  have hother : ∀ {i}, i < bound SEG_SIZE SEG_COUNT → i ≠ items.length →
      (q.top + i) % bound SEG_SIZE SEG_COUNT ≠ q.bottom := by
    intro i hi hne he
    rw [h.bottom_eq] at he
    exact hne (ring_inj hi (by omega) he)
  have hpush : q.push x₀ x = some { q.store x₀ q.bottom x with
      bottom := (q.bottom + 1) % bound SEG_SIZE SEG_COUNT } := by
    rw [Queue.push, succ_mod_size hbottom, wrap_push hbottom, if_neg hassert,
      if_pos (div_lt_count hbottom)]
  refine ⟨_, hpush, ⟨h.top_le, ?_, ?_, fun i y hi => ?_⟩, fun hpopped => ?_⟩
  · rw [List.length_append, List.length_singleton]
    exact hroom
  · rw [List.length_append, List.length_singleton]
    exact hnext
  · rcases Nat.lt_or_ge i items.length with hlt | hge
    · rw [List.getElem?_append_left hlt] at hi
      exact value_store_of_ne x₀ x (hother (by omega) hlt.ne) (h.value_eq i y hi)
    · obtain ⟨hlt, hy⟩ := List.getElem?_eq_some_iff.1 hi
      obtain rfl : i = items.length := by
        rw [List.length_append, List.length_singleton] at hlt
        omega
      rw [List.getElem_concat_length rfl] at hy
      change (q.store x₀ q.bottom x).value (pointer SEG_SIZE ((q.top + items.length) %
        bound SEG_SIZE SEG_COUNT)) = some y
      rw [← h.bottom_eq, ← hy]
      exact value_store_self
  · cases hpopped with
    | none => exact .none
    | some hidx hx =>
      refine Popped.some hidx (value_store_of_ne x₀ x ?_ hx)
      rw [hidx]
      exact hother (by omega) (by omega)

end Queue

end RockCoro
