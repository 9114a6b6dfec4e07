import Mathlib.Logic.Function.Basic
import Mathlib.Data.List.Range
import Mathlib.Data.List.Perm.Basic
import Mathlib.Data.List.Nodup
import RockCoro.Lib.Fallible
import RockCoro.Lib.Placement

/-!
# Objects in storage

Storage comes in blocks of slots, and the lifetime of an object in a slot begins and ends by itself,
as with `operator new`, placement new and destructor calls. Objects are numbered in the order of
their construction. Constructing over an object, or releasing its block, forgets it: it is then
never destroyed. Any access to a slot without an object is undefined, and so is a second release.
`Balanced` says that each object is in one slot or was destroyed, once.
-/

namespace RockCoro

/-- An object: its value, and a serial number that no other object ever has. -/
structure Object (V : Type) where
  serial : ℕ
  value : V
  deriving DecidableEq

/-- `objects b i` is the object in slot `i` of block `b`. A block is named by the number of its
allocation. -/
structure Storage (V : Type) where
  objects : ℕ → ℕ → Option (Object V) := fun _ _ => none
  sizes : ℕ → Option ℕ := fun _ => none
  next : ℕ := 0
  constructed : ℕ := 0
  destroyed : List ℕ := []

/-- What can be seen of an allocated block. -/
@[ext] structure Block (V : Type) where
  size : ℕ
  values : ℕ → Option V

namespace Block

variable {V : Type}

/-- A block without objects. -/
def raw (n : ℕ) : Block V := ⟨n, fun _ => none⟩

/-- A block with the elements `l` in its first slots. -/
def ofList (n : ℕ) (l : List V) : Block V := ⟨n, fun j => l[j]?⟩

/-- The block with `o` in slot `i`. -/
def set (B : Block V) (i : ℕ) (o : Option V) : Block V :=
  { B with values := Function.update B.values i o }

@[simp] theorem set_values_self (B : Block V) (i : ℕ) (o : Option V) : (B.set i o).values i = o :=
  Function.update_self ..

/-- The other slots are as before. -/
theorem set_values_of_ne (B : Block V) {i j : ℕ} (o : Option V) (h : j ≠ i) :
    (B.set i o).values j = B.values j :=
  Function.update_of_ne h ..

end Block

namespace Storage

variable {V : Type}

/-- The storage with `o` in slot `i` of block `b`. -/
def put (m : Storage V) (b i : ℕ) (o : Option (Object V)) : Storage V :=
  { m with objects := Function.update m.objects b (Function.update (m.objects b) i o) }

/-- Placement new of an object with the value `x`. -/
def construct (m : Storage V) (b i : ℕ) (x : V) : Option (Storage V) :=
  match m.sizes b with
  | some n =>
    if i < n then some { m.put b i (some ⟨m.constructed, x⟩) with constructed := m.constructed + 1 }
    else none
  | none => none

/-- The call of a destructor. -/
def destroy (m : Storage V) (b i : ℕ) : Option (Storage V) :=
  (m.objects b i).map fun o => { m.put b i none with destroyed := m.destroyed ++ [o.serial] }

/-- The value in a slot, if an object is alive there. -/
def read (m : Storage V) (b i : ℕ) : Option V := (m.objects b i).map Object.value

/-- The value of an object that is moved from, which leaves `moved` of it. -/
def take (moved : V → V) (m : Storage V) (b i : ℕ) : Option (V × Storage V) :=
  (m.objects b i).map fun o => (o.value, m.put b i (some { o with value := moved o.value }))

/-- `operator new`. -/
def allocate (m : Storage V) (n : ℕ) : Storage V :=
  { m with sizes := Function.update m.sizes m.next (some n), next := m.next + 1 }

/-- `operator delete`. -/
def release (m : Storage V) (b : ℕ) : Option (Storage V) :=
  (m.sizes b).map fun _ => { m with
    sizes := Function.update m.sizes b none
    objects := Function.update m.objects b fun _ => none }

/-- The block at an address, as its user sees it. -/
def view (m : Storage V) (b : ℕ) : Option (Block V) :=
  (m.sizes b).map fun n => ⟨n, fun i => (m.objects b i).map Object.value⟩

/-! ## The account of the objects -/

/-- Where the object with this number is: in a slot, or among the destroyed (`none`). -/
def At (m : Storage V) (k : ℕ) : Option (ℕ × ℕ) → Prop
  | some (b, i) => ∃ x, m.objects b i = some ⟨k, x⟩
  | none => k ∈ m.destroyed

/-- Each constructed object is in one slot of allocated storage, or was destroyed once. -/
structure Balanced (m : Storage V) : Prop where
  exclusive : Placement.Exclusive m.At (· < m.constructed)
  nodup : m.destroyed.Nodup
  inBounds : ∀ b i o, m.objects b i = some o → ∃ n, m.sizes b = some n ∧ i < n
  fresh : ∀ b, m.next ≤ b → m.sizes b = none

/-- A storage where nothing was ever allocated is balanced. -/
theorem balanced_empty : ({} : Storage V).Balanced where
  exclusive := ⟨fun _ => ⟨fun h => absurd h (Nat.not_lt_zero _), fun ⟨l, h⟩ => by
    cases l with
    | none => cases h
    | some p =>
      obtain ⟨_, h⟩ := h
      cases h⟩, fun {_ l _} h => by
    cases l with
    | none => cases h
    | some p =>
      obtain ⟨_, h⟩ := h
      cases h⟩
  nodup := List.nodup_nil
  inBounds _ _ _ h := nomatch h
  fresh _ _ := rfl

variable {m : Storage V} {b i : ℕ} {x : V} {B : Block V} {o : Object V}

/-- Without objects in storage, each one was destroyed once. -/
theorem Balanced.perm_destroyed (h : m.Balanced) (hnone : ∀ b i, m.objects b i = none) :
    m.destroyed.Perm (List.range m.constructed) := by
  refine (List.perm_ext_iff_of_nodup h.nodup List.nodup_range).2 fun k => ?_
  rw [List.mem_range]
  refine ⟨fun hk => (h.exclusive.live_iff k).2 ⟨none, hk⟩, fun hk => ?_⟩
  obtain ⟨l, hl⟩ := (h.exclusive.live_iff k).1 hk
  cases l with
  | none => exact hl
  | some p =>
    obtain ⟨x, hx⟩ := hl
    rw [hnone] at hx
    cases hx

/-- What is known of a block that is seen. -/
theorem view_eq_some (hv : m.view b = some B) :
    m.sizes b = some B.size ∧ ∀ i, B.values i = (m.objects b i).map Object.value := by
  obtain ⟨n, hn, rfl⟩ := Option.map_eq_some_iff.1 hv
  exact ⟨hn, fun _ => rfl⟩

/-- A slot reads what the block shows. -/
theorem read_eq (hv : m.view b = some B) : m.read b i = B.values i :=
  ((view_eq_some hv).2 i).symm

/-- There is nothing to read in a block that is not allocated. -/
theorem Balanced.read_eq_none (h : m.Balanced) (hv : m.view b = none) : m.read b i = none := by
  rw [read, Option.map_eq_none_iff]
  cases ho : m.objects b i with
  | none => rfl
  | some o =>
    obtain ⟨n, hn, -⟩ := h.inBounds b i o ho
    cases hn.symm.trans (Option.map_eq_none_iff.1 hv)

/-- The next address is no block yet. -/
theorem view_next (h : m.Balanced) : m.view m.next = none := by
  rw [view, h.fresh _ (Nat.le_refl _), Option.map_none]

/-- The slot has the object that was put there. -/
theorem objects_put_self {o : Option (Object V)} : (m.put b i o).objects b i = o := by
  rw [put]
  simp

/-- The other slots have the objects they had. -/
theorem objects_put_of_ne {b' i' : ℕ} {o : Option (Object V)} (h : ¬(b' = b ∧ i' = i)) :
    (m.put b i o).objects b' i' = m.objects b' i' := by
  rw [put]
  by_cases hb : b' = b
  · subst hb
    have hi : i' ≠ i := fun hi => h ⟨rfl, hi⟩
    simp [hi]
  · simp [hb]

/-- Putting an object into a slot is seen in its block only. -/
theorem view_put {o : Option (Object V)} (hv : m.view b = some B) :
    (m.put b i o).view = Function.update m.view b (some (B.set i (o.map Object.value))) := by
  funext b'
  obtain ⟨hsize, hvalues⟩ := view_eq_some hv
  by_cases hb : b' = b
  · subst hb
    rw [Function.update_self, view]
    change (m.sizes b').map _ = _
    rw [hsize]
    refine congrArg some (Block.ext rfl (funext fun j => ?_))
    by_cases hj : j = i
    · subst hj
      simp [objects_put_self]
    · rw [Block.set_values_of_ne _ _ hj, hvalues]
      exact congrArg (Option.map Object.value) (objects_put_of_ne fun h => hj h.2)
  · rw [Function.update_of_ne hb, view, view]
    change (m.sizes b').map _ = _
    refine congrArg (Option.map · (m.sizes b')) (funext fun n => ?_)
    refine Block.ext rfl (funext fun j => ?_)
    exact congrArg (Option.map Object.value) (objects_put_of_ne fun h => hb h.1)

/-- An object that is put into bounds leaves all objects in bounds. -/
theorem put_inBounds (h : m.Balanced) {n : ℕ} (hsize : m.sizes b = some n) (hi : i < n)
    {o : Option (Object V)} :
    ∀ b' i' o', (m.put b i o).objects b' i' = some o' → ∃ n, m.sizes b' = some n ∧ i' < n := by
  intro b' i' o' ho
  by_cases hbi : b' = b ∧ i' = i
  · obtain ⟨rfl, rfl⟩ := hbi
    exact ⟨n, hsize, hi⟩
  · rw [objects_put_of_ne hbi] at ho
    exact h.inBounds b' i' o' ho

/-- An object is constructed in a slot without one. -/
theorem construct_spec (h : m.Balanced) (hv : m.view b = some B) (hi : i < B.size)
    (hfree : B.values i = none) : ∃ m', m.construct b i x = some m' ∧ m'.Balanced ∧
      m'.view = Function.update m.view b (some (B.set i (some x))) := by
  obtain ⟨hsize, hvalues⟩ := view_eq_some hv
  have hnone : m.objects b i = none := by
    rw [hvalues] at hfree
    exact Option.map_eq_none_iff.1 hfree
  refine ⟨{ m.put b i (some ⟨m.constructed, x⟩) with constructed := m.constructed + 1 }, ?_,
    ⟨?_, h.nodup, put_inBounds h hsize hi, h.fresh⟩, view_put hv⟩
  · rw [construct, hsize]
    exact if_pos hi
  · refine h.exclusive.add (c := m.constructed) (q := some (b, i)) (Nat.lt_irrefl _)
      ⟨x, objects_put_self⟩ (fun l hl => ?_) (fun k hk l => ?_) fun k => ?_
    · cases l with
      | none => exact .inr hl
      | some p =>
        obtain ⟨y, hy⟩ := hl
        by_cases hp : p.1 = b ∧ p.2 = i
        · exact .inl (congrArg some (Prod.ext hp.1 hp.2))
        · exact .inr ⟨y, (objects_put_of_ne hp).symm.trans hy⟩
    · cases l with
      | none => exact .rfl
      | some p =>
        refine exists_congr fun y => ?_
        by_cases hp : p.1 = b ∧ p.2 = i
        · obtain ⟨b', i'⟩ := p
          obtain ⟨rfl, rfl⟩ := hp
          change (m.put b' i' _).objects b' i' = _ ↔ m.objects b' i' = _
          rw [objects_put_self, hnone]
          constructor
          · rintro ⟨⟩
            exact absurd rfl hk
          · rintro ⟨⟩
        · change (m.put b i _).objects p.1 p.2 = _ ↔ _
          rw [objects_put_of_ne hp]
    · exact Nat.lt_succ_iff_lt_or_eq.trans Or.comm

/-- A live object can be destroyed, which empties its slot and keeps the balance. -/
theorem destroy_spec (h : m.Balanced) (hv : m.view b = some B) (hlive : B.values i = some x) :
    ∃ m', m.destroy b i = some m' ∧ m'.Balanced ∧
      m'.view = Function.update m.view b (some (B.set i none)) := by
  obtain ⟨hsize, hvalues⟩ := view_eq_some hv
  rw [hvalues] at hlive
  obtain ⟨o, ho, hx⟩ := Option.map_eq_some_iff.1 hlive
  obtain ⟨n, hn, hi⟩ := h.inBounds b i o ho
  have hat : m.At o.serial (some (b, i)) := ⟨o.value, ho⟩
  refine ⟨{ m.put b i none with destroyed := m.destroyed ++ [o.serial] },
    by rw [destroy, ho]; rfl, ⟨?_, ?_, put_inBounds h hn hi, h.fresh⟩, view_put hv⟩
  · refine h.exclusive.move (q := none) hat (List.mem_append_right _ (List.mem_singleton_self _))
      (fun l hl => ?_) (fun k hk l => ?_) fun _ => .rfl
    · cases l with
      | none => exact .inl rfl
      | some p =>
        obtain ⟨y, hy⟩ := hl
        have hp : ¬(p.1 = b ∧ p.2 = i) := by
          rintro ⟨hb, hi⟩
          rw [hb, hi] at hy
          exact absurd (objects_put_self.symm.trans hy) (by simp)
        refine .inr ⟨⟨y, (objects_put_of_ne hp).symm.trans hy⟩, fun he => hp ?_⟩
        cases he
        exact ⟨rfl, rfl⟩
    · cases l with
      | none =>
        change k ∈ m.destroyed ++ [o.serial] ↔ k ∈ m.destroyed
        rw [List.mem_append, List.mem_singleton, or_iff_left hk]
      | some p =>
        refine exists_congr fun y => ?_
        by_cases hp : p.1 = b ∧ p.2 = i
        · obtain ⟨b', i'⟩ := p
          obtain ⟨rfl, rfl⟩ := hp
          change (m.put b' i' _).objects b' i' = _ ↔ m.objects b' i' = _
          rw [objects_put_self, ho]
          constructor
          · rintro ⟨⟩
          · rintro ⟨⟩
            exact absurd rfl hk
        · change (m.put b i _).objects p.1 p.2 = _ ↔ _
          rw [objects_put_of_ne hp]
  · refine List.nodup_append.2 ⟨h.nodup, List.nodup_singleton _, ?_⟩
    rintro k hk k' hk' rfl
    rw [List.mem_singleton.1 hk'] at hk
    cases h.exclusive.unique (l := none) hk hat

/-- The value of a live object can be moved out, which leaves the moved-from value. -/
theorem take_spec (moved : V → V) (h : m.Balanced) (hv : m.view b = some B)
    (hlive : B.values i = some x) : ∃ m', m.take moved b i = some (x, m') ∧ m'.Balanced ∧
      m'.view = Function.update m.view b (some (B.set i (some (moved x)))) := by
  obtain ⟨hsize, hvalues⟩ := view_eq_some hv
  rw [hvalues] at hlive
  obtain ⟨o, ho, hx⟩ := Option.map_eq_some_iff.1 hlive
  obtain ⟨n, hn, hi⟩ := h.inBounds b i o ho
  subst hx
  refine ⟨m.put b i (some { o with value := moved o.value }), by rw [take, ho]; rfl,
    ⟨?_, h.nodup, put_inBounds h hn hi, h.fresh⟩, view_put hv⟩
  refine h.exclusive.congr (fun k l => ?_) fun _ => .rfl
  cases l with
  | none => exact .rfl
  | some p =>
    by_cases hp : p.1 = b ∧ p.2 = i
    · obtain ⟨b', i'⟩ := p
      obtain ⟨rfl, rfl⟩ := hp
      change (∃ y, (m.put b' i' _).objects b' i' = _) ↔ ∃ y, m.objects b' i' = _
      rw [objects_put_self, ho]
      constructor
      · rintro ⟨y, ⟨⟩⟩
        exact ⟨o.value, rfl⟩
      · rintro ⟨y, ⟨⟩⟩
        exact ⟨_, rfl⟩
    · exact exists_congr fun y => by rw [objects_put_of_ne hp]

/-- A new block is raw, at an address where none is. -/
theorem allocate_spec (h : m.Balanced) (n : ℕ) : (m.allocate n).Balanced ∧
    (m.allocate n).view = Function.update m.view m.next (some (.raw n)) := by
  have hnone : ∀ i, m.objects m.next i = none := by
    intro i
    cases ho : m.objects m.next i with
    | none => rfl
    | some o =>
      obtain ⟨n, hn, -⟩ := h.inBounds _ _ _ ho
      rw [h.fresh _ (Nat.le_refl _)] at hn
      cases hn
  refine ⟨⟨h.exclusive, h.nodup, fun b i o ho => ?_, fun b hb => ?_⟩, funext fun b => ?_⟩
  · have hne : b ≠ m.next := by
      rintro rfl
      exact absurd (ho.symm.trans (hnone i)) (by simp)
    change ∃ n', Function.update m.sizes m.next (some n) b = some n' ∧ i < n'
    rw [Function.update_of_ne hne]
    exact h.inBounds b i o ho
  · have hne : b ≠ m.next := Nat.ne_of_gt hb
    change Function.update m.sizes m.next (some n) b = none
    rw [Function.update_of_ne hne]
    exact h.fresh b (Nat.le_of_succ_le hb)
  · by_cases hb : b = m.next
    · subst hb
      rw [Function.update_self, view]
      change (Function.update m.sizes m.next (some n) m.next).map _ = _
      rw [Function.update_self]
      refine congrArg some (Block.ext rfl (funext fun i => ?_))
      change (m.objects m.next i).map _ = none
      rw [hnone, Option.map_none]
    · rw [Function.update_of_ne hb, view, view]
      change (Function.update m.sizes m.next (some n) b).map _ = _
      rw [Function.update_of_ne hb]
      rfl

/-- A block without objects is released. -/
theorem release_spec (h : m.Balanced) (hv : m.view b = some B) (hraw : ∀ i, B.values i = none) :
    ∃ m', m.release b = some m' ∧ m'.Balanced ∧ m'.view = Function.update m.view b none := by
  obtain ⟨hsize, hvalues⟩ := view_eq_some hv
  have hnone : m.objects b = fun _ => none := by
    funext i
    have hi := hraw i
    rw [hvalues] at hi
    exact Option.map_eq_none_iff.1 hi
  have hobjects : Function.update m.objects b (fun _ => none) = m.objects := by
    rw [← hnone, Function.update_eq_self]
  refine ⟨{ m with
      sizes := Function.update m.sizes b none
      objects := Function.update m.objects b fun _ => none },
    by rw [release, hsize]; rfl, ⟨?_, h.nodup, fun b' i o ho => ?_, fun b' hb' => ?_⟩,
    funext fun b' => ?_⟩
  · refine h.exclusive.congr (fun k l => ?_) fun _ => .rfl
    cases l with
    | none => exact .rfl
    | some p =>
      change (∃ y, Function.update m.objects b (fun _ => none) p.1 p.2 = _) ↔ _
      rw [hobjects]
      rfl
  · replace ho : m.objects b' i = some o := by
      rw [← hobjects]
      exact ho
    have hne : b' ≠ b := by
      rintro rfl
      exact absurd (ho.symm.trans (congrFun hnone i)) (by simp)
    change ∃ n', Function.update m.sizes b none b' = some n' ∧ i < n'
    rw [Function.update_of_ne hne]
    exact h.inBounds b' i o ho
  · change Function.update m.sizes b none b' = none
    by_cases hb : b' = b
    · subst hb
      rw [Function.update_self]
    · rw [Function.update_of_ne hb]
      exact h.fresh b' hb'
  · by_cases hb : b' = b
    · subst hb
      rw [Function.update_self, view]
      change (Function.update m.sizes b' none b').map _ = _
      rw [Function.update_self]
      rfl
    · rw [Function.update_of_ne hb, view, view]
      change (Function.update m.sizes b none b').map _ = _
      rw [Function.update_of_ne hb]
      change (m.sizes b').map (fun n => Block.mk n fun i =>
        (Function.update m.objects b (fun _ => none) b' i).map Object.value) = _
      rw [hobjects]

end Storage

end RockCoro
