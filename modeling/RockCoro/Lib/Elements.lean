import Mathlib.Algebra.Ring.Nat
import RockCoro.Lib.Storage

/-!
# Elements in storage

The steps of a program on the storage, by pointers, and its loops over the elements of a block:
destroying, moving and copying them. `Filled` says which slots of a block have an object, and which.
-/

namespace RockCoro

open Fallible

namespace Storage

variable {V : Type}

/-! ## Steps of a program on the storage, by pointers -/

/-- Reads an object. -/
def load (p : Option ℕ) (i : ℕ) : Fallible (Storage V) V :=
  act fun m => p.bind fun b => (m.read b i).map (·, m)

/-- Moves the value out of an object. -/
def takeFrom (moved : V → V) (p : Option ℕ) (i : ℕ) : Fallible (Storage V) V :=
  act fun m => p.bind fun b => m.take moved b i

/-- Constructs an object, by a constructor that does not throw. -/
def constructAt (p : Option ℕ) (i : ℕ) (x : V) : Fallible (Storage V) Unit :=
  modify fun m => p.bind fun b => m.construct b i x

/-- Constructs an object, by a constructor that may throw. -/
def tryConstructAt (p : Option ℕ) (i : ℕ) (x : V) : Fallible (Storage V) Unit :=
  attempt fun m => (p.bind fun b => m.construct b i x).map (1, ·)

/-- Calls the destructor of an object. -/
def destroyAt (p : Option ℕ) (i : ℕ) : Fallible (Storage V) Unit :=
  modify fun m => p.bind fun b => m.destroy b i

/-- The number of objects of `sizeofT` bytes that `sizeof(T) * n` bytes have room for, with the
product in the arithmetic of `size_t`. -/
def slots (sizeofT n : ℕ) : ℕ := sizeofT * n % 2 ^ 64 / sizeofT

/-- `operator new(sizeof(T) * n)`. -/
def operatorNew (sizeofT n : ℕ) : Fallible (Storage V) ℕ := do
  let m ← get
  attempt fun m => some (n, m.allocate (slots sizeofT n))
  pure m.next

/-- `operator delete`, which does nothing with a null pointer. -/
def operatorDelete : Option ℕ → Fallible (Storage V) Unit
  | some b => modify fun m => m.release b
  | none => pure ()

/-! ## Loops over elements -/

/-- Destroys the elements. -/
def destroyEach (p : Option ℕ) (slot : ℕ → ℕ) (n : ℕ) : Fallible (Storage V) Unit :=
  forLoop n fun i => destroyAt p (slot i)

/-- Moves the elements to the first slots of `q`. -/
def moveEach (moved : V → V) (p : Option ℕ) (slot : ℕ → ℕ) (q : Option ℕ) (n : ℕ) :
    Fallible (Storage V) Unit :=
  forLoop n fun i => do
    let x ← takeFrom moved p (slot i)
    constructAt q i x

/-- Copies the first `n` slots of `p` to those of `q`. -/
def copyEach (p q : Option ℕ) (n : ℕ) : Fallible (Storage V) Unit :=
  forLoop n fun i => do
    let x ← load p i
    tryConstructAt q i x

/-- Constructs `n` objects `x` in the first slots of `q`. -/
def fillEach (q : Option ℕ) (n : ℕ) (x : V) : Fallible (Storage V) Unit :=
  forLoop n fun i => tryConstructAt q i x

/-- An argument of reference type: an object that is not in storage, or one in a slot. -/
inductive Arg (V : Type)
  | value (x : V)
  | slot (p : Option ℕ) (i : ℕ)

/-- The value of the object. -/
def Arg.load : Arg V → Fallible (Storage V) V
  | value x => pure x
  | slot p i => Storage.load p i

/-- The value that is moved out of the object. -/
def Arg.take (moved : V → V) : Arg V → Fallible (Storage V) V
  | value x => pure x
  | slot p i => Storage.takeFrom moved p i

/-- The value of the object in a slot, if there is one. -/
def valueAt (m : Storage V) (p : Option ℕ) (i : ℕ) : Option V := p.bind fun b => m.read b i

/-! ## What the steps do -/

/-- The storage is in order, with these blocks. -/
structure Is (m : Storage V) (w : ℕ → Option (Block V)) : Prop where
  balanced : m.Balanced
  view_eq : m.view = w

variable {m : Storage V} {w : ℕ → Option (Block V)} {b b' i n k sizeofT : ℕ} {B B' : Block V}
  {x : V} {env : Environment} {E : Storage V → Prop} {U : Prop} {moved : V → V} {slot : ℕ → ℕ}
  {l : List V}

/-- A load reads the object in the slot. -/
theorem load_meets {Q : V → ℕ → Storage V → Prop} (hm : m.Is w) (hb : w b = some B)
    (hx : B.values i = some x) : (load (some b) i).Meets env k m Q E U ↔ Q x k m := by
  obtain ⟨h, rfl⟩ := hm
  exact meets_act (by rw [Option.bind_some, read_eq hb, hx]; rfl)

/-- Moving from an object leaves the moved-from value in its slot. -/
theorem takeFrom_meets (hm : m.Is w) (hb : w b = some B) (hx : B.values i = some x) :
    (takeFrom moved (some b) i).Meets env k m
      (fun y _ m' => y = x ∧ m'.Is (Function.update w b (some (B.set i (some (moved x))))))
      E U := by
  obtain ⟨h, rfl⟩ := hm
  obtain ⟨m', hs, h', hview⟩ := take_spec moved h hb hx
  exact (meets_act hs).2 ⟨rfl, h', hview⟩

/-- An empty slot gets the object. -/
theorem constructAt_meets (hm : m.Is w) (hb : w b = some B) (hi : i < B.size)
    (hfree : B.values i = none) : (constructAt (some b) i x).Meets env k m
      (fun _ _ m' => m'.Is (Function.update w b (some (B.set i (some x))))) E U := by
  obtain ⟨h, rfl⟩ := hm
  obtain ⟨m', hs, h', hview⟩ := construct_spec (x := x) h hb hi hfree
  exact (meets_modify hs).2 ⟨h', hview⟩

/-- An empty slot gets the object, or the constructor throws and nothing has changed. -/
theorem tryConstructAt_meets (hm : m.Is w) (hb : w b = some B) (hi : i < B.size)
    (hfree : B.values i = none) (hE : env k 1 = true → E m) :
    (tryConstructAt (some b) i x).Meets env k m
      (fun _ _ m' => m'.Is (Function.update w b (some (B.set i (some x))))) E U := by
  obtain ⟨h, rfl⟩ := hm
  obtain ⟨m', hs, h', hview⟩ := construct_spec (x := x) h hb hi hfree
  refine (meets_attempt (?_ : _ = some (1, m'))).2 ⟨hE, fun _ => ⟨h', hview⟩⟩
  rw [Option.bind_some, hs]
  rfl

/-- The slot of a destroyed object is empty. -/
theorem destroyAt_meets (hm : m.Is w) (hb : w b = some B) (hx : B.values i = some x) :
    (destroyAt (some b) i).Meets env k m
      (fun _ k' m' => k' = k ∧ m'.Is (Function.update w b (some (B.set i none)))) E U := by
  obtain ⟨h, rfl⟩ := hm
  obtain ⟨m', hs, h', hview⟩ := destroy_spec h hb hx
  exact (meets_modify hs).2 ⟨rfl, h', hview⟩

/-- There is room for all objects exactly if the product does not wrap around. -/
theorem slots_eq_iff (hpos : 0 < sizeofT) : slots sizeofT n = n ↔ sizeofT * n < 2 ^ 64 := by
  constructor
  · intro hfits
    have hle : sizeofT * n ≤ sizeofT * n % 2 ^ 64 := by
      have hdiv := Nat.mul_div_le (sizeofT * n % 2 ^ 64) sizeofT
      rwa [← slots, hfits] at hdiv
    exact hle.trans_lt (Nat.mod_lt _ (by decide))
  · intro hlt
    rw [slots, Nat.mod_eq_of_lt hlt, Nat.mul_div_cancel_left n hpos]

/-- All objects of a block have numbers below those of `size_t`. -/
theorem slots_lt (hfits : slots sizeofT n = n) : n < 2 ^ 64 := by
  rw [← hfits, slots]
  exact (Nat.div_le_self ..).trans_lt (Nat.mod_lt _ (by decide))

/-- The new block is no other block. It has room for all objects if the product does not wrap. -/
theorem operatorNew_meets (hm : m.Is w) (hfits : slots sizeofT n = n)
    (hE : env k n = true → E m) :
    (operatorNew sizeofT n).Meets env k m
      (fun b _ m' => env k n = false ∧ w b = none ∧ m'.Is (Function.update w b (some (.raw n))))
      E U := by
  obtain ⟨h, rfl⟩ := hm
  rw [operatorNew, meets_bind, meets_get, meets_bind, meets_attempt_some, hfits]
  obtain ⟨h', hview⟩ := allocate_spec h n
  exact ⟨hE, fun henv => ⟨henv, view_next h, h', hview⟩⟩

/-- The blocks after a change of the block that `p` points to. -/
def update (w : ℕ → Option (Block V)) (p : Option ℕ) (o : Option (Block V)) :
    ℕ → Option (Block V) :=
  match p with
  | some b => Function.update w b o
  | none => w

/-- The elements `l` are in their slots, and no other slot has an object. -/
structure Filled (slot : ℕ → ℕ) (l : List V) (B : Block V) : Prop where
  live : ∀ i x, l[i]? = some x → B.values (slot i) = some x
  empty : ∀ j, (∀ i < l.length, slot i ≠ j) → B.values j = none

/-- `p` points to a block of this size that is filled with `l`, or is null. -/
def Holds (w : ℕ → Option (Block V)) (p : Option ℕ) (size : ℕ) (slot : ℕ → ℕ) (l : List V) : Prop :=
  match p with
  | some b => ∃ B, w b = some B ∧ B.size = size ∧ Filled slot l B
  | none => size = 0 ∧ l = []

/-! ## Filled blocks -/

/-- The first `n` elements have slots of their own. -/
def Distinct (slot : ℕ → ℕ) (n : ℕ) : Prop := ∀ i < n, ∀ j < n, slot i = slot j → i = j

/-- Each element is in its slot. -/
theorem Filled.live_of_lt (h : Filled slot l B) (hi : i < l.length) :
    B.values (slot i) = some l[i] :=
  h.live i _ (List.getElem?_eq_getElem hi)

/-- A raw block is filled with nothing. -/
theorem filled_raw : Filled slot [] (.raw n : Block V) where
  live _ _ h := nomatch h
  empty _ _ := rfl

/-- A block that is filled with nothing is raw. -/
theorem Filled.eq_raw (h : Filled slot [] B) : B = .raw B.size :=
  Block.ext rfl (funext fun j => h.empty j fun _ hi => absurd hi (Nat.not_lt_zero _))

/-- A block made from a list is filled with it, from slot 0 on. -/
theorem filled_ofList : Filled id l (.ofList n l) where
  live _ _ h := h
  empty j h := List.getElem?_eq_none (Nat.not_lt.1 fun hj => h j hj rfl)

/-- A block that is filled from slot 0 on is the one made from the list. -/
theorem Filled.eq_ofList (h : Filled id l B) : B = .ofList B.size l := by
  refine Block.ext rfl (funext fun j => ?_)
  change B.values j = l[j]?
  rcases Nat.lt_or_ge j l.length with hj | hj
  · rw [List.getElem?_eq_getElem hj]
    exact h.live_of_lt hj
  · rw [List.getElem?_eq_none hj]
    exact h.empty j fun i hi he => absurd (he ▸ hi) (Nat.not_lt.2 hj)

/-- Only the slots of the elements matter. -/
theorem Filled.congr {slot' : ℕ → ℕ} (h : Filled slot l B) (hs : ∀ i < l.length, slot' i = slot i) :
    Filled slot' l B where
  live i x hi := by
    rw [hs i (List.getElem?_eq_some_iff.1 hi).1]
    exact h.live i x hi
  empty j hj := h.empty j fun i hi => hs i hi ▸ hj i hi

/-- The next slot is empty, and an object in it extends the list. -/
theorem Filled.push (h : Filled slot l B) (hd : Distinct slot (l.length + 1)) :
    B.values (slot l.length) = none ∧
      Filled slot (l ++ [x]) (B.set (slot l.length) (some x)) := by
  have hne : ∀ i < l.length, slot i ≠ slot l.length := fun i hi he =>
    absurd (hd i (Nat.lt_succ_of_lt hi) l.length (Nat.lt_succ_self _) he) (Nat.ne_of_lt hi)
  refine ⟨h.empty _ hne, fun i y hi => ?_, fun j hj => ?_⟩
  · rcases Nat.lt_or_ge i l.length with hlt | hge
    · rw [List.getElem?_append_left hlt] at hi
      rw [Block.set_values_of_ne _ _ (hne i hlt)]
      exact h.live i y hi
    · rw [List.getElem?_append_right hge] at hi
      obtain rfl : i = l.length := by
        have := (List.getElem?_eq_some_iff.1 hi).1
        rw [List.length_singleton] at this
        omega
      rw [Nat.sub_self] at hi
      cases hi
      exact Block.set_values_self ..
  · rw [List.length_append, List.length_singleton] at hj
    rw [Block.set_values_of_ne _ _ (hj _ (Nat.lt_succ_self _)).symm]
    exact h.empty j fun i hi => hj i (Nat.lt_succ_of_lt hi)

/-- The last element is destroyed. -/
theorem Filled.pop (h : Filled slot (l ++ [x]) B) (hd : Distinct slot (l.length + 1)) :
    B.values (slot l.length) = some x ∧ Filled slot l (B.set (slot l.length) none) := by
  refine ⟨h.live _ _ (by simp), fun i y hi => ?_, fun j hj => ?_⟩
  · have hlt := (List.getElem?_eq_some_iff.1 hi).1
    have hne : slot i ≠ slot l.length := fun he =>
      absurd (hd i (Nat.lt_succ_of_lt hlt) l.length (Nat.lt_succ_self _) he) (Nat.ne_of_lt hlt)
    rw [Block.set_values_of_ne _ _ hne]
    exact h.live i y (by rw [List.getElem?_append_left hlt, hi])
  · by_cases he : j = slot l.length
    · subst he
      exact Block.set_values_self ..
    · rw [Block.set_values_of_ne _ _ he]
      refine h.empty j fun i hi => ?_
      rw [List.length_append, List.length_singleton] at hi
      rcases Nat.lt_or_eq_of_le (Nat.le_of_lt_succ hi) with hi | rfl
      · exact hj i hi
      · exact Ne.symm he

/-- The first element is destroyed. -/
theorem Filled.popFront (h : Filled slot (x :: l) B) (hd : Distinct slot (l.length + 1)) :
    B.values (slot 0) = some x ∧ Filled (fun i => slot (i + 1)) l (B.set (slot 0) none) := by
  refine ⟨h.live 0 x rfl, fun i y hi => ?_, fun j hj => ?_⟩
  · have hlt := (List.getElem?_eq_some_iff.1 hi).1
    have hne : slot (i + 1) ≠ slot 0 := fun he =>
      absurd (hd _ (Nat.succ_lt_succ hlt) 0 (Nat.succ_pos _) he) (Nat.succ_ne_zero i)
    rw [Block.set_values_of_ne _ _ hne]
    exact h.live (i + 1) y hi
  · by_cases he : j = slot 0
    · subst he
      exact Block.set_values_self ..
    · rw [Block.set_values_of_ne _ _ he]
      refine h.empty j fun i hi => ?_
      cases i with
      | zero => exact Ne.symm he
      | succ i => exact hj i (Nat.lt_of_succ_lt_succ hi)

/-- An element is changed. -/
theorem Filled.set (h : Filled slot l B) (hd : Distinct slot l.length) (hi : i < l.length) :
    Filled slot (l.set i x) (B.set (slot i) (some x)) := by
  refine ⟨fun j y hj => ?_, fun j hj => ?_⟩
  · rw [List.getElem?_set] at hj
    split at hj
    · rename_i he
      cases hj
      exact he ▸ Block.set_values_self ..
    · rename_i hne
      have hlt := (List.getElem?_eq_some_iff.1 hj).1
      rw [Block.set_values_of_ne _ _ fun he => hne (hd _ hlt _ hi he).symm]
      exact h.live j y hj
  · rw [List.length_set] at hj
    rw [Block.set_values_of_ne _ _ (hj i hi).symm]
    exact h.empty j hj

/-- The slots from the second on are distinct as well. -/
theorem distinct_tail (hd : Distinct slot (n + 1)) : Distinct (fun i => slot (i + 1)) n :=
  fun _ hi _ hj he => Nat.succ.inj (hd _ (Nat.succ_lt_succ hi) _ (Nat.succ_lt_succ hj) he)

/-- The slots 0, 1, 2 and so on are distinct. -/
theorem distinct_id : Distinct id n := fun _ _ _ _ he => he

/-- One more of the first elements. -/
theorem ofList_take_set (hi : i < l.length) :
    (Block.ofList n (l.take i)).set i (some l[i]) = .ofList n (l.take (i + 1)) := by
  have hlen : (l.take i).length = i := List.length_take_of_le hi.le
  have hf : Filled id (l.take i) (.ofList n (l.take i)) := filled_ofList
  have hset := (hf.push (x := l[i]) distinct_id).2.eq_ofList
  rw [hlen, ← List.take_succ_eq_append_getElem hi] at hset
  exact hset

/-- The slot behind the first `i` elements is empty. -/
theorem ofList_take_values : (Block.ofList n (l.take i)).values i = none :=
  List.getElem?_eq_none (List.length_take_le ..)

/-! ## What the loops do -/

/-- The destructors of the elements from `i` on leave a raw block; the induction is on how many
are left. -/
theorem destroyFrom_meets : ∀ {l : List V} {i : ℕ} {B : Block V} {k : ℕ} {m : Storage V},
    m.Is (Function.update w b (some B)) → Filled (fun j => slot (i + j)) l B →
    Distinct (fun j => slot (i + j)) l.length →
    (forFrom (fun i => destroyAt (some b) (slot i)) l.length i).Meets env k m
      (fun _ k' m' => k' = k ∧ m'.Is (Function.update w b (some (.raw B.size)))) E U := by
  intro l
  induction l with
  | nil =>
    intro i B k m hm hf _
    rw [hf.eq_raw] at hm
    exact ⟨rfl, hm⟩
  | cons x l ih =>
    intro i B k m hm hf hd
    have hshift : (fun j => slot (i + (j + 1))) = fun j => slot (i + 1 + j) :=
      funext fun j => congrArg slot (by omega)
    obtain ⟨hlive, hf'⟩ := hf.popFront hd
    rw [List.length_cons, forFrom, meets_bind]
    refine (destroyAt_meets hm (Function.update_self ..) hlive).mono fun _ k' m' hm' => ?_
    obtain ⟨rfl, hm'⟩ := hm'
    rw [Function.update_idem] at hm'
    exact ih (B := B.set (slot (i + 0)) none) hm' (hshift ▸ hf') (hshift ▸ distinct_tail hd)

/-- All elements are destroyed. -/
theorem destroyEach_meets (hm : m.Is w) (hb : w b = some B) (hf : Filled slot l B)
    (hd : Distinct slot l.length) : (destroyEach (some b) slot l.length).Meets env k m
      (fun _ k' m' => k' = k ∧ m'.Is (Function.update w b (some (.raw B.size)))) E U := by
  have hzero : slot = fun j => slot (0 + j) := funext fun j => congrArg slot (Nat.zero_add j).symm
  rw [← Function.update_eq_self b w, hb] at hm
  rw [hzero] at hf hd
  exact destroyFrom_meets hm hf hd

/-- The elements are moved to another block. What is left of them has the same slots. -/
theorem moveEach_meets (hm : m.Is w) (hb : w b = some B) (hf : Filled slot l B)
    (hd : Distinct slot l.length) (hb' : w b' = some (.raw n)) (hne : b ≠ b') (hn : l.length ≤ n) :
    (moveEach moved (some b) slot (some b') l.length).Meets env k m
      (fun _ _ m' => ∃ l' B', l'.length = l.length ∧ B'.size = B.size ∧ Filled slot l' B' ∧
        m'.Is (Function.update (Function.update w b' (some (.ofList n l))) b (some B'))) E U := by
  refine (meets_forLoop (fun i m => ∃ l' B', l'.length = l.length ∧ l'.drop i = l.drop i ∧
    B'.size = B.size ∧ Filled slot l' B' ∧
    m.Is (Function.update (Function.update w b' (some (.ofList n (l.take i)))) b (some B')))
    (fun i hi k m hI => ?_) ?_).mono fun _ _ m' hI => ?_
  · obtain ⟨l', B', hlen, hdrop, hsize, hf', hm⟩ := hI
    have hi' : i < l'.length := hlen ▸ hi
    have hx : l'[i] = l[i] := by
      have := congrArg (fun l => l[0]?) hdrop
      simpa [hi, hi'] using this
    rw [meets_bind]
    refine (takeFrom_meets hm (Function.update_self ..) (hf'.live_of_lt hi')).mono
      fun y _ m₁ hm₁ => ?_
    obtain ⟨rfl, hm₁⟩ := hm₁
    rw [Function.update_idem] at hm₁
    have hblock : Function.update (Function.update w b' (some (.ofList n (l.take i)))) b
        (some (B'.set (slot i) (some (moved l'[i])))) b' = some (.ofList n (l.take i)) := by
      rw [Function.update_of_ne hne.symm, Function.update_self]
    refine (constructAt_meets hm₁ hblock (hi.trans_le hn) ofList_take_values).mono
      fun _ _ m₂ hm₂ => ?_
    refine ⟨l'.set i (moved l'[i]), B'.set (slot i) (some (moved l'[i])),
      by rw [List.length_set, hlen], ?_, hsize, hf'.set (hlen ▸ hd) hi', ?_⟩
    · rw [List.drop_set_of_lt (Nat.lt_succ_self i)]
      simpa using congrArg List.tail hdrop
    · rw [Function.update_comm hne, Function.update_idem, hx, ofList_take_set hi] at hm₂
      rw [hx]
      exact hm₂
  · refine ⟨l, B, rfl, rfl, rfl, hf, ?_⟩
    rw [List.take_zero, show Block.ofList n ([] : List V) = .raw n from rfl, ← hb',
      Function.update_eq_self, ← hb, Function.update_eq_self]
    exact hm
  · obtain ⟨l', B', hlen, -, hsize, hf', hm'⟩ := hI
    rw [List.take_length] at hm'
    exact ⟨l', B', hlen, hsize, hf', hm'⟩

/-- Other blocks are as before. -/
theorem update_of_ne {p : Option ℕ} {o : Option (Block V)} (h : p ≠ some b) :
    update w p o b = w b := by
  cases p with
  | none => rfl
  | some b' => exact Function.update_of_ne (fun he => h (congrArg some he.symm)) ..

/-- The block that is pointed to is the new one. -/
theorem update_self {p : Option ℕ} {o : Option (Block V)} (h : p = some b) :
    update w p o b = o := by
  subst h
  exact Function.update_self ..

/-- The last change of a block counts. -/
theorem update_update {p : Option ℕ} {o o' : Option (Block V)} :
    update (update w p o) p o' = update w p o' := by
  cases p with
  | none => rfl
  | some b => exact Function.update_idem ..

/-- Null pointers have no elements. -/
theorem Holds.nil {p : Option ℕ} (h : Holds w p n slot l) (hp : p = none) : l = [] := by
  subst hp
  exact h.2

/-- A block without elements is raw already. -/
theorem Holds.raw {p : Option ℕ} (h : Holds w p n slot []) : update w p (some (.raw n)) = w := by
  cases p with
  | none => rfl
  | some b =>
    obtain ⟨B, hB, rfl, hf⟩ := h
    rw [← hf.eq_raw, update, ← hB, Function.update_eq_self]

/-- A block that was emptied holds no elements. -/
theorem Holds.emptied {p : Option ℕ} (h : Holds w p n slot l) :
    Holds (update w p (some (.raw n))) p n slot [] := by
  cases p with
  | none => exact ⟨h.1, rfl⟩
  | some b => exact ⟨_, Function.update_self .., rfl, filled_raw⟩

/-- The destructors of all elements. -/
theorem Holds.destroyEach {p : Option ℕ} (hm : m.Is w) (hp : Holds w p n slot l)
    (hd : Distinct slot l.length) : (destroyEach p slot l.length).Meets env k m
      (fun _ k' m' => k' = k ∧ m'.Is (update w p (some (.raw n)))) E U := by
  cases p with
  | none =>
    rw [hp.nil rfl]
    exact ⟨rfl, hm⟩
  | some b =>
    obtain ⟨B, hB, rfl, hf⟩ := hp
    exact destroyEach_meets hm hB hf hd

/-- `operator delete` of a raw block gives it back; a null pointer is left alone. -/
theorem operatorDelete_meets {p : Option ℕ} (hm : m.Is (update w p (some (.raw n)))) :
    (operatorDelete p).Meets env k m (fun _ k' m' => k' = k ∧ m'.Is (update w p none)) E U := by
  cases p with
  | none => exact ⟨rfl, hm⟩
  | some b =>
    obtain ⟨h, hview⟩ := hm
    have hb : m.view b = some (.raw n) := by rw [hview, update, Function.update_self]
    obtain ⟨m', hs, h', hview'⟩ := release_spec h hb fun _ => rfl
    refine (meets_modify hs).2 ⟨rfl, h', ?_⟩
    rw [hview', hview]
    exact Function.update_idem ..

/-- No object is left in a block that was released. -/
theorem operatorDelete_released {p : Option ℕ} :
    (operatorDelete p).Meets env k m
      (fun _ _ m' => ∀ b, p = some b → ∀ i, m'.read b i = none) E True := by
  cases p with
  | none =>
    intro b hb
    cases hb
  | some b =>
    cases hs : m.release b with
    | none => exact (meets_modify_none hs).2 trivial
    | some m' =>
      refine (meets_modify hs).2 fun b' hb' i => ?_
      cases hb'
      obtain ⟨_, -, rfl⟩ := Option.map_eq_some_iff.1 hs
      change (Function.update m.objects b (fun _ => none) b i).map _ = none
      rw [Function.update_self, Option.map_none]

/-- A block that is not in use cannot be released. -/
theorem operatorDelete_missing (hb : m.view b = none) {Q : Unit → ℕ → Storage V → Prop} :
    (operatorDelete (some b)).Meets env k m Q E True := by
  have hs : m.release b = none := by
    rw [release, Option.map_eq_none_iff]
    exact Option.map_eq_none_iff.1 hb
  exact (meets_modify_none hs).2 trivial

/-- A slot without an object stays without one, and must not be destroyed. -/
theorem destroyAt_missing {p : Option ℕ} {j : ℕ} (hi : m.valueAt p i = none) :
    (destroyAt p j).Meets env k m (fun _ _ m' => j ≠ i ∧ m'.valueAt p i = none) E True := by
  cases p with
  | none => exact trivial
  | some b =>
    replace hi : (m.objects b i).map Object.value = none := hi
    cases ho : m.objects b j with
    | none =>
      have hs : m.destroy b j = none := by rw [destroy, ho, Option.map_none]
      exact (meets_modify_none hs).2 trivial
    | some o =>
      have hs : m.destroy b j =
          some { m.put b j none with destroyed := m.destroyed ++ [o.serial] } := by
        rw [destroy, ho, Option.map_some]
      refine (meets_modify hs).2 ⟨?_, ?_⟩
      · rintro rfl
        rw [ho] at hi
        cases hi
      · change ((m.put b j none).objects b i).map Object.value = none
        by_cases hij : i = j
        · rw [hij, objects_put_self, Option.map_none]
        · rw [objects_put_of_ne fun h => hij h.2, hi]

/-- A loop of destructors that comes to a slot without an object is undefined there. -/
theorem destroyFrom_missing {p : Option ℕ} {j : ℕ} : ∀ {n i k : ℕ} {m : Storage V},
    i ≤ j → j < i + n → m.valueAt p (slot j) = none →
    (forFrom (fun i => destroyAt p (slot i)) n i).Meets env k m (fun _ _ _ => False)
    (fun _ => False)
      True := by
  intro n
  induction n with
  | zero =>
    intro i k m hle hlt _
    exact absurd hlt (Nat.not_lt.2 hle)
  | succ n ih =>
    intro i k m hle hlt hj
    rw [forFrom, meets_bind]
    refine (destroyAt_missing hj).mono fun _ _ m' hm' => ?_
    have hne : i ≠ j := fun he => hm'.1 (congrArg slot he)
    exact ih (by omega) (by omega) hm'.2

/-- The elements are not all there. -/
theorem destroyEach_missing {p : Option ℕ} {j : ℕ} (hj : j < n)
    (hnone : m.valueAt p (slot j) = none) :
    (destroyEach p slot n).Meets env k m (fun _ _ _ => False) (fun _ => False) True :=
  destroyFrom_missing (Nat.zero_le j) (by omega) hnone

/-- The elements are moved to a new block. -/
theorem Holds.moveEach {p : Option ℕ} (hm : m.Is w) (hp : Holds w p n slot l)
    (hd : Distinct slot l.length) (hb : w b = some (.raw k)) (hne : p ≠ some b)
    (hk : l.length ≤ k) :
    (moveEach moved p slot (some b) l.length).Meets env i m
      (fun _ _ m' => ∃ l' w', l'.length = l.length ∧ m'.Is w' ∧ Holds w' p n slot l' ∧
        ∀ o, update w' p o = update (Function.update w b (some (.ofList k l))) p o) E U := by
  cases p with
  | none =>
    rw [hp.nil rfl]
    refine ⟨[], w, rfl, hm, ⟨hp.1, rfl⟩, fun o => ?_⟩
    change w = Function.update w b (some (.raw k))
    rw [← hb, Function.update_eq_self]
  | some b' =>
    obtain ⟨B, hB, rfl, hf⟩ := hp
    have hne : b' ≠ b := fun he => hne (congrArg some he)
    refine (moveEach_meets hm hB hf hd hb hne hk).mono fun _ _ m' hm' => ?_
    obtain ⟨l', B', hlen, hsize, hf', hm'⟩ := hm'
    exact ⟨l', _, hlen, hm', ⟨B', Function.update_self .., hsize, hf'⟩, fun _ =>
      Function.update_idem ..⟩

/-- The slot behind the first `j` elements has no value to read. -/
theorem valueAt_take {p : Option ℕ} {j : ℕ} (hm : m.Is (update w p (some (.ofList n (l.take j))))) :
    m.valueAt p j = none := by
  cases p with
  | none => rfl
  | some b =>
    have hb : m.view b = some (.ofList n (l.take j)) := by
      rw [hm.view_eq]
      exact update_self rfl
    rw [valueAt, Option.bind_some, read_eq hb, ofList_take_values]

/-- The elements are copied. A copy that fails leaves the ones before it. -/
theorem Holds.copyEach {p q : Option ℕ} (hm : m.Is w) (hp : Holds w p n id l)
    (hq : Holds w q k id [])
    (hpq : p = q → p = none) (hk : l.length ≤ k)
    (hE : ∀ j < l.length, ∀ m', env.Fails →
      m'.Is (update w q (some (.ofList k (l.take j)))) → E m') :
    (copyEach p q l.length).Meets env i m
      (fun _ _ m' => m'.Is (update w q (some (.ofList k l)))) E U := by
  refine (meets_forLoop (fun j m => m.Is (update w q (some (.ofList k (l.take j)))))
    (fun j hj i m hm => ?_) ?_).mono fun _ _ m' hm' => ?_
  · cases p with
    | none =>
      rw [hp.nil rfl] at hj
      exact absurd hj (Nat.not_lt_zero _)
    | some b =>
      cases q with
      | none =>
        rw [hq.1] at hk
        exact absurd (hj.trans_le hk) (Nat.not_lt_zero _)
      | some b' =>
        obtain ⟨B, hB, rfl, hf⟩ := hp
        have hne : b ≠ b' := by
          rintro rfl
          cases hpq rfl
        have hB : update w (some b') (some (.ofList k (l.take j))) b = some B := by
          rw [update, Function.update_of_ne hne, hB]
        rw [meets_bind, load_meets hm hB (i := j) (hf.live_of_lt hj)]
        refine (tryConstructAt_meets hm (Function.update_self ..) (hj.trans_le hk)
          ofList_take_values fun henv => hE j hj m ⟨_, _, henv⟩ hm).mono fun _ _ m' hm' => ?_
        rw [update, Function.update_idem, ofList_take_set hj] at hm'
        exact hm'
  · rw [List.take_zero, show Block.ofList k ([] : List V) = .raw k from rfl, hq.raw]
    exact hm
  · rwa [List.take_length] at hm'

/-- Copies of `x` fill a new block, unless one of them throws. -/
theorem Holds.fillEach {q : Option ℕ} (hm : m.Is w) (hq : Holds w q k id []) (hk : n ≤ k)
    (hE : ∀ m', env.Fails → E m') :
    (fillEach q n x).Meets env i m
      (fun _ _ m' => m'.Is (update w q (some (.ofList k (List.replicate n x))))) E U := by
  have hlen : (List.replicate n x).length = n := List.length_replicate
  refine (meets_forLoop (fun j m =>
    m.Is (update w q (some (.ofList k ((List.replicate n x).take j)))))
    (fun j hj i m hm => ?_) ?_).mono fun _ _ m' hm' => ?_
  · cases q with
    | none =>
      rw [hq.1] at hk
      exact absurd (hj.trans_le hk) (Nat.not_lt_zero _)
    | some b =>
      refine (tryConstructAt_meets hm (Function.update_self ..) (hj.trans_le hk)
        ofList_take_values fun henv => hE m ⟨_, _, henv⟩).mono fun _ _ m' hm' => ?_
      have hset := ofList_take_set (l := List.replicate n x) (n := k) (hlen.symm ▸ hj)
      rw [List.getElem_replicate] at hset
      rw [update, Function.update_idem, hset] at hm'
      exact hm'
  · rw [List.take_zero, show Block.ofList k ([] : List V) = .raw k from rfl, hq.raw]
    exact hm
  · rwa [List.take_of_length_le (by rw [hlen])] at hm'

end Storage

end RockCoro
