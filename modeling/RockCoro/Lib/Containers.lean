import RockCoro.Lib.Elements

/-!
# Containers over storage

A container is a record with a pointer to a block in which its elements occupy some of the slots;
which slots is up to the kind of container. `Owned` says that each allocated block belongs to one
container, whose elements are the objects in it. Constructors, destructors and growth are the same
for all kinds, up to how they write the members of the record.
-/

namespace RockCoro

open Fallible

/-- The records that are containers: element `i` of `s` is in slot `slot s i` of the block that
`data` points to, which has `capacity` slots. The slots are distinct as long as the capacity is
within `limit`. -/
class Container (S : Type) where
  data : S → Option ℕ
  size : S → ℕ
  capacity : S → ℕ
  slot : S → ℕ → ℕ
  limit : ℕ
  slot_lt : ∀ s i, i < capacity s → slot s i < capacity s
  slot_inj : ∀ s i j, capacity s ≤ limit → i < capacity s → j < capacity s →
    slot s i = slot s j → i = j

open Container Storage

/-- The containers `C` of a program, and their storage. -/
structure Store (C S V : Type) where
  storage : Storage V := {}
  object : C → Option S := fun _ => none

variable {C S V α : Type}

/-- The elements of a container have slots of their own. -/
theorem distinct_slot [Container S] {s : S} {n : ℕ} (hlimit : capacity s ≤ limit S)
    (h : n ≤ capacity s) : Distinct (slot s) n :=
  fun i hi j hj => slot_inj s i j hlimit (hi.trans_le h) (hj.trans_le h)

/-- A block for `n` elements of `sizeofT` bytes gets all its slots, and they are distinct. -/
def Fits (S : Type) [Container S] (sizeofT n : ℕ) : Prop := slots sizeofT n = n ∧ n ≤ limit S

instance [Container S] {sizeofT n : ℕ} : Decidable (Fits S sizeofT n) :=
  inferInstanceAs (Decidable (_ ∧ _))

/-- The product that `allocate` computes does not wrap around. -/
theorem fits_iff [Container S] {sizeofT n : ℕ} (hpos : 0 < sizeofT) :
    Fits S sizeofT n ↔ sizeofT * n < 2 ^ 64 ∧ n ≤ limit S :=
  and_congr_left' (slots_eq_iff hpos)

/-- The container has the elements `l`. -/
structure Shows [Container S] (w : ℕ → Option (Block V)) (s : S) (l : List V) : Prop where
  size_eq : size s = l.length
  size_le : size s ≤ capacity s
  le_limit : capacity s ≤ limit S
  holds : Holds w (data s) (capacity s) (slot s) l

/-- The containers have the elements that `ref` says, and each block belongs to one of them. -/
structure Owned [Container S] (w : ℕ → Option (Block V)) (object : C → Option S)
    (ref : C → Option (List V)) : Prop where
  shows : ∀ {c s}, object c = some s → ∃ l, ref c = some l ∧ Shows w s l
  gone : ∀ {c}, object c = none → ref c = none
  owner : ∀ {b}, w b ≠ none → ∃ c s, object c = some s ∧ data s = some b
  unique : ∀ {c d s t b}, object c = some s → object d = some t → data s = some b →
    data t = some b → c = d

section
variable [Container S] {w w' : ℕ → Option (Block V)} {object : C → Option S}
  {ref : C → Option (List V)} {c d : C} {s s' : S} {l : List V}

/-- There are no more elements than slots. -/
theorem Shows.length_le (h : Shows w s l) : l.length ≤ capacity s := h.size_eq ▸ h.size_le

/-- Each element has a slot of its own. -/
theorem Shows.distinct (h : Shows w s l) : Distinct (slot s) l.length :=
  distinct_slot h.le_limit h.length_le

/-- A container sees no other block than its own. -/
theorem Shows.congr (h : Shows w s l) (hw : ∀ b, data s = some b → w' b = w b) : Shows w' s l := by
  refine ⟨h.size_eq, h.size_le, h.le_limit, ?_⟩
  have hholds := h.holds
  cases hdata : data s with
  | none =>
    rw [hdata] at hholds
    exact hholds
  | some b =>
    rw [hdata] at hholds
    obtain ⟨B, hB, hf⟩ := hholds
    exact ⟨B, (hw b hdata).trans hB, hf⟩

/-- The block of a container is allocated. -/
theorem Shows.block_ne_none {b : ℕ} (h : Shows w s l) (hb : data s = some b) : w b ≠ none := by
  have hholds := h.holds
  rw [hb] at hholds
  obtain ⟨B, hB, -⟩ := hholds
  rw [hB]
  exact Option.some_ne_none B

/-- A container that points to no block. -/
theorem shows_null (hdata : data s = none) (hsize : size s = 0) (hcap : capacity s = 0) :
    Shows w s [] := by
  refine ⟨hsize, hsize ▸ Nat.zero_le _, hcap ▸ Nat.zero_le _, ?_⟩
  rw [hdata, hcap]
  exact ⟨rfl, rfl⟩

variable [DecidableEq C]

/-- A container goes, with its block. -/
theorem Owned.drop (h : Owned w object ref) (hc : object c = some s)
    (hw : ∀ b, data s ≠ some b → w' b = w b) (hfree : ∀ b, data s = some b → w' b = none) :
    Owned w' (Function.update object c none) (Function.update ref c none) := by
  have hother : ∀ {d t}, Function.update object c none d = some t → d ≠ c ∧ object d = some t := by
    intro d t hd
    rcases eq_or_ne d c with rfl | hne
    · rw [Function.update_self] at hd
      cases hd
    · exact ⟨hne, (Function.update_of_ne hne ..).symm.trans hd⟩
  refine ⟨fun {d t} hd => ?_, fun {d} hd => ?_, fun {b} hb => ?_, fun hd he => ?_⟩
  · obtain ⟨hne, hd⟩ := hother hd
    obtain ⟨l, hl, hshows⟩ := h.shows hd
    rw [Function.update_of_ne hne]
    refine ⟨l, hl, hshows.congr fun b hb => hw b fun hs => hne ?_⟩
    exact h.unique hd hc hb hs
  · rcases eq_or_ne d c with rfl | hne
    · exact Function.update_self ..
    · rw [Function.update_of_ne hne] at hd ⊢
      exact h.gone hd
  · have hdata : data s ≠ some b := fun hs => hb (hfree b hs)
    rw [hw b hdata] at hb
    obtain ⟨d, t, hd, ht⟩ := h.owner hb
    have hne : d ≠ c := by
      rintro rfl
      cases hd.symm.trans hc
      exact hdata ht
    exact ⟨d, t, by rw [Function.update_of_ne hne, hd], ht⟩
  · exact h.unique (hother hd).2 (hother he).2

/-- A container comes, with a block that was not in use. -/
theorem Owned.add (h : Owned w object ref) (hc : object c = none) (hshows : Shows w' s l)
    (hw : ∀ b, data s ≠ some b → w' b = w b) (hnew : ∀ b, data s = some b → w b = none) :
    Owned w' (Function.update object c (some s)) (Function.update ref c (some l)) := by
  have hother : ∀ {d t b}, object d = some t → data t = some b → data s ≠ some b := by
    intro d t b hd ht hs
    obtain ⟨l, -, hshows⟩ := h.shows hd
    exact hshows.block_ne_none ht (hnew b hs)
  have hcases : ∀ {d t}, Function.update object c (some s) d = some t →
      d = c ∧ t = s ∨ d ≠ c ∧ object d = some t := by
    intro d t hd
    rcases eq_or_ne d c with rfl | hne
    · rw [Function.update_self] at hd
      cases hd
      exact .inl ⟨rfl, rfl⟩
    · exact .inr ⟨hne, (Function.update_of_ne hne ..).symm.trans hd⟩
  refine ⟨fun {d t} hd => ?_, fun {d} hd => ?_, fun {b} hb => ?_, fun {d e t u b} hd he ht hu => ?_⟩
  · rcases hcases hd with ⟨rfl, rfl⟩ | ⟨hne, hd⟩
    · exact ⟨l, Function.update_self .., hshows⟩
    · obtain ⟨l', hl', hshows'⟩ := h.shows hd
      rw [Function.update_of_ne hne]
      exact ⟨l', hl', hshows'.congr fun b hb => hw b (hother hd hb)⟩
  · have hne : d ≠ c := by
      rintro rfl
      rw [Function.update_self] at hd
      cases hd
    rw [Function.update_of_ne hne] at hd ⊢
    exact h.gone hd
  · by_cases hdata : data s = some b
    · exact ⟨c, s, Function.update_self .., hdata⟩
    · rw [hw b hdata] at hb
      obtain ⟨d, t, hd, ht⟩ := h.owner hb
      have hne : d ≠ c := by
        rintro rfl
        cases hd.symm.trans hc
      exact ⟨d, t, by rw [Function.update_of_ne hne, hd], ht⟩
  · rcases hcases hd with ⟨rfl, rfl⟩ | ⟨-, hd'⟩
    · rcases hcases he with ⟨rfl, -⟩ | ⟨-, he'⟩
      · rfl
      · exact absurd ht (hother he' hu)
    · rcases hcases he with ⟨-, rfl⟩ | ⟨-, he'⟩
      · exact absurd hu (hother hd' ht)
      · exact h.unique hd' he' ht hu

/-- A container changes, and may get another block. -/
theorem Owned.set (h : Owned w object ref) (hc : object c = some s) (hshows : Shows w' s' l)
    (hw : ∀ b, data s ≠ some b → data s' ≠ some b → w' b = w b)
    (hfree : ∀ b, data s = some b → data s' ≠ some b → w' b = none)
    (hnew : ∀ b, data s' = some b → data s = some b ∨ w b = none) :
    Owned w' (Function.update object c (some s')) (Function.update ref c (some l)) := by
  have hdrop : Owned (fun b => if data s = some b then none else w b)
      (Function.update object c none) (Function.update ref c none) :=
    h.drop hc (fun b hb => if_neg hb) fun b hb => if_pos hb
  have hadd := hdrop.add (Function.update_self ..) hshows (fun b hb => ?_) fun b hb => ?_
  · rw [Function.update_idem, Function.update_idem] at hadd
    exact hadd
  · split
    · exact hfree b ‹_› hb
    · exact hw b ‹_› hb
  · split
    · rfl
    · exact (hnew b hb).resolve_left ‹_›

/-- A container changes and keeps its block. -/
theorem Owned.inPlace (h : Owned w object ref) (hc : object c = some s) (hshows : Shows w' s' l)
    (hdata : data s' = data s) (hw : ∀ b, data s ≠ some b → w' b = w b) :
    Owned w' (Function.update object c (some s')) (Function.update ref c (some l)) :=
  h.set hc hshows (fun b hb _ => hw b hb) (fun _ hb hne => absurd (hdata.trans hb) hne)
    fun _ hb => .inl (hdata.symm.trans hb)

/-- A container goes and another one takes its block. -/
theorem Owned.rename (h : Owned w object ref) (hd : object d = some s) (hc : object c = none)
    (hl : ref d = some l) (hshows : Shows w s' l) (hdata : data s' = data s) :
    Owned w (Function.update (Function.update object d none) c (some s'))
      (Function.update (Function.update ref d none) c (some l)) := by
  have hdrop : Owned (fun b => if data s = some b then none else w b)
      (Function.update object d none) (Function.update ref d none) :=
    h.drop hd (fun b hb => if_neg hb) fun b hb => if_pos hb
  refine hdrop.add ?_ hshows (fun b hb => ?_) fun b hb => ?_
  · rcases eq_or_ne c d with rfl | hne
    · exact Function.update_self ..
    · rw [Function.update_of_ne hne, hc]
  · rw [hdata] at hb
    exact (if_neg hb).symm
  · rw [hdata] at hb
    exact if_pos hb

/-- A container hands its block over to a new one, and is left with none. -/
theorem Owned.handOver {t : S} (h : Owned w object ref) (hd : object d = some s)
    (hc : object c = none)
    (hl : ref d = some l) (hdata : data t = none) (hsize : size t = 0) (hcap : capacity t = 0) :
    Owned w (Function.update (Function.update object c (some s)) d (some t))
      (Function.update (Function.update ref d (some [])) c (some l)) := by
  have hne : c ≠ d := by
    rintro rfl
    cases hc.symm.trans hd
  obtain ⟨l', hl', hshows⟩ := h.shows hd
  cases hl.symm.trans hl'
  have hrename := h.rename hd hc hl hshows rfl
  have hadd := hrename.add (c := d) (by rw [Function.update_of_ne hne.symm, Function.update_self])
    (shows_null hdata hsize hcap) (fun _ _ => rfl) fun b hb => by
      rw [hdata] at hb
      cases hb
  rw [Function.update_comm hne.symm, Function.update_idem, Function.update_comm hne.symm,
    Function.update_idem] at hadd
  rw [Function.update_comm hne.symm]
  exact hadd

end

namespace Store

/-- A step on the storage. -/
def onStorage (p : Fallible (Storage V) α) : Fallible (Store C S V) α :=
  p.zoom storage fun s m => { s with storage := m }

/-- The members of a container that is alive. -/
def members (c : C) : Fallible (Store C S V) S := act fun s => (s.object c).map (·, s)

/-- `allocate`, which needs no storage for no objects. -/
def allocate (sizeofT n : ℕ) : Fallible (Store C S V) (Option ℕ) :=
  if n = 0 then pure none
  else do
    let b ← onStorage (operatorNew sizeofT n)
    pure (some b)

/-- `destroy_all`. -/
def destroyAll [Container S] (c : C) : Fallible (Store C S V) Unit := do
  let x ← members c
  onStorage (destroyEach (data x) (slot x) (size x))

/-- `destroy_all(); operator delete(data_);`. -/
def dispose [Container S] (c : C) : Fallible (Store C S V) Unit := do
  destroyAll c
  let x ← members c
  onStorage (operatorDelete (data x))

section
variable [DecidableEq C]

/-- Writes to the members. -/
def setMembers (c : C) (x : S) : Fallible (Store C S V) Unit :=
  modify fun s => (s.object c).map fun _ =>
    { s with object := Function.update s.object c (some x) }

/-- A container begins its lifetime. -/
def create (c : C) (x : S) : Fallible (Store C S V) Unit :=
  modify fun s =>
    match s.object c with
    | none => some { s with object := Function.update s.object c (some x) }
    | some _ => none

/-- A container ends its lifetime. -/
def remove (c : C) : Fallible (Store C S V) Unit :=
  modify fun s => (s.object c).map fun _ => { s with object := Function.update s.object c none }

/-- A constructor that allocates `n` slots. -/
def init (sizeofT n : ℕ) (make : Option ℕ → S) (c : C) : Fallible (Store C S V) Unit := do
  let p ← allocate sizeofT n
  create c (make p)

/-- The destructor. -/
def destruct [Container S] (c : C) : Fallible (Store C S V) Unit := do
  dispose c
  remove c

/-- A reference to element `i`, with its assert. -/
def subscript [Container S] (c : C) (i : ℕ) : Fallible (Store C S V) (Arg V) := do
  let x ← members c
  require (i < size x)
  pure (.slot (data x) (slot x i))

/-- `pop_back`, where `resize` writes `size_`. -/
def popBack [Container S] (resize : S → ℕ → S) (c : C) : Fallible (Store C S V) Unit := do
  let x ← members c
  require (0 < size x)
  setMembers c (resize x (size x - 1))
  onStorage (destroyAt (data x) (slot x (size x - 1)))

/-- `clear`. -/
def clear [Container S] (resize : S → ℕ → S) (c : C) : Fallible (Store C S V) Unit := do
  destroyAll c
  let x ← members c
  setMembers c (resize x 0)

/-- Constructs a value behind the last element. There is a slot, so `++size_` does not wrap. -/
def append [Container S] (construct : Option ℕ → ℕ → V → Fallible (Storage V) Unit)
    (resize : S → ℕ → S) (value : Fallible (Storage V) V) (c : C) :
    Fallible (Store C S V) Unit := do
  let x ← members c
  let v ← onStorage value
  onStorage (construct (data x) (slot x (size x)) v)
  setMembers c (resize x (size x + 1))

/-- The capacity of a container that grows, in the arithmetic of `size_t`. -/
def newCap (capacity minCap : ℕ) : ℕ :=
  let newCap := if capacity = 0 then 1 else capacity * 2 % 2 ^ 64
  if newCap < minCap then minCap else newCap

/-- `ensure_capacity`: the elements are moved to the first slots of a new block, and `rebuild`
writes the members. -/
def ensureCapacity [Container S] (sizeofT : ℕ) (moved : V → V) (rebuild : S → Option ℕ → ℕ → S)
    (c : C) (minCap : ℕ) : Fallible (Store C S V) Unit := do
  let x ← members c
  if minCap ≤ capacity x then pure ()
  else
    let newCap := newCap (capacity x) minCap
    let newData ← allocate sizeofT newCap
    onStorage (moveEach moved (data x) (slot x) newData (size x))
    dispose c
    setMembers c (rebuild x newData newCap)

/-- `push_back`, where `value` reads the argument, after the container has grown. -/
def pushBack [Container S] (sizeofT : ℕ) (moved : V → V) (rebuild : S → Option ℕ → ℕ → S)
    (construct : Option ℕ → ℕ → V → Fallible (Storage V) Unit) (resize : S → ℕ → S)
    (value : Fallible (Storage V) V) (c : C) : Fallible (Store C S V) Unit := do
  let x ← members c
  ensureCapacity sizeofT moved rebuild c ((size x + 1) % 2 ^ 64)
  append construct resize value c

/-- The capacity for which `push_back` allocates, if the container is full. -/
def growth [Container S] (x : S) : Option ℕ :=
  if size x < capacity x then none else some (newCap (capacity x) (size x + 1))

end

/-- The storage and the containers are in order, with these elements. -/
structure Inv [Container S] (s : Store C S V) (ref : C → Option (List V)) : Prop where
  balanced : s.storage.Balanced
  owned : Owned s.storage.view s.object ref

variable {s : Store C S V} {w w' : ℕ → Option (Block V)} {object : C → Option S}
  {ref : C → Option (List V)} {c : C} {x y : S} {l : List V} {env : Environment} {n : ℕ}
  {E : Store C S V → Prop} {U : Prop}

/-- The storage is in order, with these blocks, and there are these containers. -/
structure Is (s : Store C S V) (w : ℕ → Option (Block V)) (object : C → Option S) : Prop where
  storage : s.storage.Is w
  object_eq : s.object = object

/-- A step on the storage, seen from the store. -/
theorem onStorage_meets {p : Fallible (Storage V) α} {P : α → ℕ → Storage V → Prop}
    (hs : s.Is w object)
    (hp : p.Meets env n s.storage P (fun m => E { s with storage := m }) U) :
    (onStorage p).Meets env n s (fun a k s' => P a k s'.storage ∧ s'.object = object) E U :=
  meets_zoom.2 (hp.mono fun _ _ _ h => ⟨h, hs.object_eq⟩)

/-- The members of a container that is alive. -/
theorem members_of {Q : S → ℕ → Store C S V → Prop} (hc : s.object c = some x) :
    (members c).Meets env n s Q E U ↔ Q x n s :=
  meets_act (by rw [hc]; rfl)

/-- The same, where the containers are known by their map. -/
theorem members_meets {Q : S → ℕ → Store C S V → Prop} (hs : s.Is w object)
    (hc : object c = some x) :
    (members c).Meets env n s Q E U ↔ Q x n s :=
  members_of (hs.object_eq ▸ hc)

/-- The new capacity is enough, also where the doubled one wraps around. -/
theorem le_newCap (capacity minCap : ℕ) : minCap ≤ newCap capacity minCap := by
  rw [newCap]
  generalize hk : (if capacity = 0 then 1 else capacity * 2 % 2 ^ 64) = k
  split
  · exact Nat.le_refl _
  · exact Nat.le_of_not_lt ‹_›

/-- `p` is what `allocate` answered for `n` objects: no block that is in use, and null only for
none. -/
structure New (w : ℕ → Option (Block V)) (p : Option ℕ) (n : ℕ) : Prop where
  unused : ∀ b, p = some b → w b = none
  null : p = none → n = 0

/-- What `allocate` answers if the product of the sizes does not wrap around. -/
theorem allocate_meets {sizeofT k : ℕ} (hs : s.Is w object) (hfits : slots sizeofT n = n)
    (hE : env k n = true → E s) : (allocate sizeofT n).Meets env k s
      (fun p _ s' => (p ≠ none → env k n = false) ∧ New w p n ∧
        s'.Is (update w p (some (.raw n))) object) E U := by
  rw [allocate]
  split
  · refine ⟨fun hp => absurd rfl hp, ⟨fun b hb => ?_, fun _ => ‹_›⟩, hs⟩
    cases hb
  · rw [meets_bind]
    refine (onStorage_meets hs (operatorNew_meets hs.storage hfits hE)).mono fun b _ s' hs' => ?_
    obtain ⟨⟨henv, hb, hm⟩, hobject⟩ := hs'
    refine ⟨fun _ => henv, ⟨fun _ he => ?_, fun he => ?_⟩, hm, hobject⟩
    · cases he
      exact hb
    · cases he

section
variable [DecidableEq C]

/-- A write to the members of a container that is alive. -/
theorem setMembers_of {Q : Unit → ℕ → Store C S V → Prop} (hc : s.object c = some x) :
    (setMembers c y).Meets env n s Q E U ↔
      Q () n { s with object := Function.update s.object c (some y) } :=
  meets_modify (by rw [hc]; rfl)

/-- Writing the members of a container leaves the storage and the others alone. -/
theorem setMembers_meets (hs : s.Is w object) (hc : object c = some x) :
    (setMembers c y).Meets env n s
      (fun _ _ s' => s'.Is w (Function.update object c (some y))) E U := by
  obtain ⟨hs, rfl⟩ := hs
  exact (setMembers_of hc).2 ⟨hs, rfl⟩

/-- A container that begins its lifetime is added to the map. -/
theorem create_meets (hs : s.Is w object) (hc : object c = none) :
    (create c y).Meets env n s
      (fun _ _ s' => s'.Is w (Function.update object c (some y))) E U := by
  obtain ⟨hs, rfl⟩ := hs
  refine (meets_modify (?_ : _ = some { s with object := Function.update s.object c (some y) })).2
    ⟨hs, rfl⟩
  rw [hc]

/-- A container that ends its lifetime leaves the map. -/
theorem remove_meets (hs : s.Is w object) (hc : object c = some x) :
    (remove c).Meets env n s (fun _ _ s' => s'.Is w (Function.update object c none)) E U := by
  obtain ⟨hs, rfl⟩ := hs
  refine (meets_modify (?_ : _ = some { s with object := Function.update s.object c none })).2
    ⟨hs, rfl⟩
  rw [hc]
  rfl

end

section
variable [Container S]

/-- The destructors of all elements of a container. -/
theorem destroyAll_meets (hs : s.Is w object) (hc : object c = some x) (hsize : size x = l.length)
    (hd : Distinct (slot x) l.length) (hp : Holds w (data x) (capacity x) (slot x) l) :
    (destroyAll c).Meets env n s
      (fun _ k s' => k = n ∧ s'.Is (update w (data x) (some (.raw (capacity x)))) object) E U := by
  rw [destroyAll, meets_bind, members_meets hs hc, hsize]
  exact (onStorage_meets hs (hp.destroyEach hs.storage hd)).mono
    fun _ _ s' hs' => ⟨hs'.1.1, hs'.1.2, hs'.2⟩

/-- The container keeps its members, which point to a block that is gone. -/
theorem dispose_meets (hs : s.Is w object) (hc : object c = some x) (hsize : size x = l.length)
    (hd : Distinct (slot x) l.length) (hp : Holds w (data x) (capacity x) (slot x) l) :
    (dispose c).Meets env n s
      (fun _ k s' => k = n ∧ s'.Is (update w (data x) none) object) E U := by
  rw [dispose, meets_bind]
  refine (destroyAll_meets hs hc hsize hd hp).mono fun _ _ s₁ hs₁ => ?_
  obtain ⟨rfl, hs₁⟩ := hs₁
  rw [meets_bind, members_meets hs₁ hc]
  exact (onStorage_meets hs₁ (operatorDelete_meets hs₁.storage)).mono
    fun _ _ _ hs₂ => ⟨hs₂.1.1, hs₂.1.2, hs₂.2⟩

/-- A store whose containers own its blocks is in order. -/
theorem Is.inv (hs : s.Is w object) (h : Owned w object ref) : s.Inv ref := by
  obtain ⟨⟨hbalanced, rfl⟩, rfl⟩ := hs
  exact ⟨hbalanced, h⟩

/-- The invariant tells what the storage and the containers are. -/
theorem Inv.is (h : s.Inv ref) : s.Is s.storage.view s.object := ⟨⟨h.balanced, rfl⟩, rfl⟩

/-- A store with nothing in it is in order. -/
theorem inv_empty : ({} : Store C S V).Inv fun _ => none where
  balanced := balanced_empty
  owned := {
    shows h := nomatch h
    gone _ := rfl
    owner h := absurd rfl h
    unique h := nomatch h }

/-- The members after a change of the block. -/
structure Rebuilds (rebuild : S → Option ℕ → ℕ → S) : Prop where
  data_eq : ∀ x p k, data (rebuild x p k) = p
  size_eq : ∀ x p k, size (rebuild x p k) = size x
  capacity_eq : ∀ x p k, capacity (rebuild x p k) = k
  slot_eq : ∀ x p k, k ≤ limit S → ∀ i < k, slot (rebuild x p k) i = i

/-- A container whose elements were moved to a new block. -/
theorem Rebuilds.shows {rebuild : S → Option ℕ → ℕ → S} {p : Option ℕ} {k : ℕ}
    (hr : Rebuilds rebuild) (hlimit : k ≤ limit S)
    (hsize : size x = l.length) (hle : l.length ≤ k)
    (h : Holds w p k (slot (rebuild x p k)) l) : Shows w (rebuild x p k) l := by
  refine ⟨by rw [hr.size_eq, hsize], ?_, ?_, ?_⟩
  · rw [hr.size_eq, hr.capacity_eq, hsize]
    exact hle
  · rw [hr.capacity_eq]
    exact hlimit
  · rw [hr.data_eq, hr.capacity_eq]
    exact h

/-- The container has room, and its elements. If there was room nothing has changed. -/
theorem ensureCapacity_meets [DecidableEq C] {sizeofT : ℕ} {moved : V → V}
    {rebuild : S → Option ℕ → ℕ → S} {minCap : ℕ} (hr : Rebuilds rebuild) (h : s.Inv ref)
    (hc : s.object c = some x)
    (hfits : ¬minCap ≤ capacity x → Fits S sizeofT (newCap (capacity x) minCap)) :
    (ensureCapacity sizeofT moved rebuild c minCap).Meets env n s
      (fun _ _ s' => s'.Inv ref ∧ (∀ d, d ≠ c → s'.object d = s.object d) ∧
        (∃ y, s'.object c = some y ∧ size y = size x ∧ minCap ≤ capacity y) ∧
        (minCap ≤ capacity x → s' = s))
      (fun _ => env.Fails) False := by
  obtain ⟨l, hl, hshows⟩ := h.owned.shows hc
  rw [ensureCapacity, meets_bind, members_meets h.is hc]
  split
  · exact ⟨h, fun _ _ => rfl, ⟨x, hc, rfl, ‹_›⟩, fun _ => rfl⟩
  · rename_i hroom
    have hmin := le_newCap (capacity x) minCap
    have hcap := hshows.length_le
    have hle : l.length ≤ newCap (capacity x) minCap := by omega
    replace hfits := hfits hroom
    simp only [meets_bind]
    generalize newCap (capacity x) minCap = k at hmin hle hfits ⊢
    refine (allocate_meets h.is hfits.1 fun henv => ⟨_, _, henv⟩).mono fun p n₁ s₁ hs₁ => ?_
    obtain ⟨-, hnew, hs₁⟩ := hs₁
    cases p with
    | none =>
      have := hnew.null rfl
      omega
    | some b =>
      have hb := hnew.unused b rfl
      have hold : data x ≠ some b := fun he => hshows.block_ne_none he hb
      have hshows₁ : Shows (update s.storage.view (some b) (some (.raw k))) x l :=
        hshows.congr fun b' hb' => update_of_ne fun he => hold (hb'.trans he.symm)
      rw [hshows.size_eq]
      refine (onStorage_meets hs₁ (hshows₁.holds.moveEach hs₁.storage hshows.distinct
        (update_self rfl) hold hle)).mono fun _ n₂ s₂ hs₂ => ?_
      obtain ⟨⟨l', w', hlen, hm₂, hholds', hw'⟩, hobject₂⟩ := hs₂
      refine (dispose_meets ⟨hm₂, hobject₂⟩ hc (hshows.size_eq.trans hlen.symm)
        (hlen ▸ hshows.distinct) hholds').mono fun _ n₄ s₄ hs₄ => ?_
      replace hs₄ := hs₄.2
      rw [hw'] at hs₄
      refine (setMembers_meets hs₄ hc).mono fun _ n₅ s₅ hs₅ => ?_
      have hholds : Holds (update (Function.update (update s.storage.view (some b)
          (some (.raw k))) b (some (.ofList k l))) (data x) none) (some b) k
          (slot (rebuild x (some b) k)) l :=
        ⟨_, by rw [update_of_ne hold, Function.update_self], rfl,
          filled_ofList.congr fun i hi => hr.slot_eq _ _ _ hfits.2 i (hi.trans_le hle)⟩
      have howned := h.owned.set hc (hr.shows hfits.2 hshows.size_eq hle hholds) ?_ ?_ ?_
      · rw [← hl, Function.update_eq_self] at howned
        refine ⟨hs₅.inv howned, fun d hd => ?_, ⟨_, by rw [hs₅.object_eq, Function.update_self],
          (hr.size_eq ..).trans hshows.size_eq, ?_⟩, fun hle => absurd hle hroom⟩
        · rw [hs₅.object_eq, Function.update_of_ne hd]
        · rw [hr.capacity_eq]
          exact hmin
      · intro b' hb' hne
        rw [hr.data_eq] at hne
        rw [update_of_ne hb', Function.update_of_ne fun he => hne (congrArg some he.symm),
          update_of_ne hne]
      · intro b' hb' _
        exact update_self hb'
      · intro b' hb'
        rw [hr.data_eq] at hb'
        cases hb'
        exact .inr hb

/-- The members of a container with nothing but storage. -/
structure Makes (n : ℕ) (make : Option ℕ → S) : Prop where
  data_eq : ∀ p, data (make p) = p
  size_eq : ∀ p, size (make p) = 0
  capacity_eq : ∀ p, capacity (make p) = n

/-- A new block holds no elements, and a null pointer needs none. -/
theorem New.holds {k : ℕ} {p : Option ℕ} {slot : ℕ → ℕ} (h : New w p k) :
    Holds (update w p (some (.raw k))) p k slot [] := by
  cases p with
  | none => exact ⟨h.null rfl, rfl⟩
  | some b => exact ⟨_, Function.update_self .., rfl, filled_raw⟩

/-- A new block is no block that was there. -/
theorem New.update_eq {k b : ℕ} {p : Option ℕ} {o : Option (Block V)} (h : New w p k)
    (hb : w b ≠ none) : update w p o b = w b :=
  update_of_ne fun hp => hb (h.unused b hp)

/-- What another container shows does not change with a new block. -/
theorem New.shows {k : ℕ} {p : Option ℕ} {o : Option (Block V)} (h : New w p k) (hx : Shows w x l) :
    Shows (update w p o) x l :=
  hx.congr fun _ hb => h.update_eq (hx.block_ne_none hb)

/-- A new container. -/
theorem New.owned [DecidableEq C] {k : ℕ} {p : Option ℕ} {o : Option (Block V)} (hp : New w p k)
    (h : Owned w object ref) (hc : object c = none) (hdata : data x = p)
    (hshows : Shows (update w p o) x l) : Owned (update w p o) (Function.update object c (some x))
      (Function.update ref c (some l)) :=
  h.add hc hshows (fun _ hb => update_of_ne (hdata ▸ hb)) fun b hb => hp.unused b (hdata ▸ hb)

/-- A container whose elements are in the first slots of its block. -/
theorem New.shows_ofList {k : ℕ} {p : Option ℕ} (hp : New w p k) (hdata : data x = p)
    (hsize : size x = l.length) (hcap : capacity x = k) (hslot : slot x = id) (hk : l.length ≤ k)
    (hlimit : k ≤ limit S) : Shows (update w p (some (.ofList k l))) x l := by
  refine ⟨hsize, by rw [hsize, hcap]; exact hk, hcap ▸ hlimit, ?_⟩
  rw [hdata, hcap, hslot]
  cases p with
  | none =>
    have hzero := hp.null rfl
    exact ⟨hzero, List.length_eq_zero_iff.1 (Nat.eq_zero_of_le_zero (hzero ▸ hk))⟩
  | some b => exact ⟨_, Function.update_self .., rfl, filled_ofList⟩

/-- The elements of a container are copied to new storage. -/
theorem New.copyEach {k i : ℕ} {p : Option ℕ} {m : Storage V} {E : Storage V → Prop}
    (hp : New w p k) (hm : m.Is (update w p (some (.raw k)))) (hx : Shows w x l)
    (hslot : slot x = id)
    (hk : l.length ≤ k) (hE : ∀ j < l.length, ∀ m', env.Fails →
      m'.Is (update w p (some (.ofList k (l.take j)))) → E m') :
    (copyEach (data x) p (size x)).Meets env i m
      (fun _ _ m' => m'.Is (update w p (some (.ofList k l)))) E U := by
  have hne : data x = p → data x = none := by
    intro hd
    cases hdata : data x with
    | none => rfl
    | some b => exact absurd (hp.unused b (hd.symm.trans hdata)) (hx.block_ne_none hdata)
  have hholds := (hp.shows (o := some (.raw k)) hx).holds
  rw [hslot] at hholds
  rw [hx.size_eq]
  refine (hholds.copyEach hm hp.holds hne hk fun j hj m' henv hm' => ?_).mono fun _ _ m' hm' => ?_
  · rw [update_update] at hm'
    exact hE j hj m' henv hm'
  · rwa [update_update] at hm'

/-- A container that was just made has no elements. -/
theorem shows_make {k : ℕ} {make : Option ℕ → S} {p : Option ℕ} (hr : Makes k make)
    (hlimit : k ≤ limit S) (hp : New w p k) :
    Shows (update w p (some (.raw k))) (make p) [] := by
  refine ⟨hr.size_eq p, by rw [hr.size_eq]; exact Nat.zero_le _, hr.capacity_eq p ▸ hlimit, ?_⟩
  rw [hr.data_eq, hr.capacity_eq]
  exact hp.holds

/-- A constructor that allocates. -/
theorem init_meets [DecidableEq C] {sizeofT k : ℕ} {make : Option ℕ → S} (hr : Makes k make)
    (h : s.Inv ref) (hc : s.object c = none) (hfits : Fits S sizeofT k) :
    (init sizeofT k make c).Meets env n s (fun _ _ s' => s'.Inv (Function.update ref c (some [])))
      (fun _ => env.Fails) False := by
  rw [init, meets_bind]
  refine (allocate_meets h.is hfits.1 fun henv => ⟨_, _, henv⟩).mono fun p _ s₁ hs₁ => ?_
  obtain ⟨-, hnew, hs₁⟩ := hs₁
  refine (create_meets hs₁ hc).mono fun _ _ s₂ hs₂ => hs₂.inv ?_
  refine h.owned.add hc (shows_make hr hfits.2 hnew) (fun b hb => ?_) fun b hb => ?_
  · rw [hr.data_eq] at hb
    exact update_of_ne hb
  · rw [hr.data_eq] at hb
    exact hnew.unused b hb

/-- The destructor ends the lifetime of the elements, the block and the container, in this order.
-/
theorem destruct_meets [DecidableEq C] (h : s.Inv ref) (hc : s.object c = some x) :
    (destruct c).Meets env n s (fun _ _ s' => s'.Inv (Function.update ref c none) ∧
      s'.object = Function.update s.object c none) (fun _ => env.Fails) False := by
  obtain ⟨l, -, hshows⟩ := h.owned.shows hc
  rw [destruct, meets_bind]
  refine (dispose_meets h.is hc hshows.size_eq hshows.distinct
    hshows.holds).mono fun _ _ s₁ hs₁ => ?_
  refine (remove_meets hs₁.2 hc).mono fun _ _ s₂ hs₂ => ⟨hs₂.inv ?_, hs₂.object_eq⟩
  exact h.owned.drop hc (fun b hb => update_of_ne hb) fun b hb => update_self hb

/-- A constructor, which may throw. -/
def Constructs (env : Environment) (construct : Option ℕ → ℕ → V → Fallible (Storage V) Unit) :
    Prop :=
  ∀ {k i : ℕ} {m : Storage V} {w : ℕ → Option (Block V)} {b : ℕ} {B : Block V} {v : V}, m.Is w →
    w b = some B → i < B.size → B.values i = none → (construct (some b) i v).Meets env k m
      (fun _ _ m' => m'.Is (Function.update w b (some (B.set i (some v)))))
      (fun _ => env.Fails) False

omit [Container S] in
/-- A constructor that does not throw. -/
theorem constructs_constructAt : Constructs (V := V) env constructAt := constructAt_meets

/-- A constructor that may throw, before it changed anything. -/
theorem constructs_tryConstructAt : Constructs (V := V) env tryConstructAt := fun hm hb hi hfree =>
  tryConstructAt_meets hm hb hi hfree fun henv => ⟨_, _, henv⟩

/-- The members after a write to `size_`. -/
structure Resizes (resize : S → ℕ → S) : Prop where
  data_eq : ∀ x k, data (resize x k) = data x
  size_eq : ∀ x k, size (resize x k) = k
  capacity_eq : ∀ x k, capacity (resize x k) = capacity x
  slot_eq : ∀ x k, slot (resize x k) = slot x

/-- A container with another size. -/
theorem Resizes.shows {resize : S → ℕ → S} {k : ℕ} (hr : Resizes resize) (hk : k = l.length)
    (hle : k ≤ capacity x) (hlimit : capacity x ≤ limit S)
    (h : Holds w (data x) (capacity x) (slot x) l) : Shows w (resize x k) l := by
  refine ⟨by rw [hr.size_eq, hk], ?_, ?_, ?_⟩
  · rw [hr.size_eq, hr.capacity_eq]
    exact hle
  · rw [hr.capacity_eq]
    exact hlimit
  · rw [hr.data_eq, hr.capacity_eq, hr.slot_eq]
    exact h

/-- A value is appended to a container with room. Reading it may have changed the elements. -/
theorem append_meets [DecidableEq C] {construct : Option ℕ → ℕ → V → Fallible (Storage V) Unit}
    {resize : S → ℕ → S} {value : Fallible (Storage V) V} {v : V} {ref₁ : C → Option (List V)}
    (hconstruct : Constructs env construct) (hr : Resizes resize) (hc : s.object c = some x)
    (hl : ref₁ c = some l) (hroom : size x < capacity x)
    (hvalue : value.Meets env n s.storage
      (fun y _ m => y = v ∧ ({ s with storage := m } : Store C S V).Inv ref₁)
      (fun _ => env.Fails) False) :
    (append construct resize value c).Meets env n s
      (fun _ _ s' => s'.Inv (Function.update ref₁ c (some (l ++ [v]))) ∧
        s'.object = Function.update s.object c (some (resize x (size x + 1))))
      (fun _ => env.Fails) False := by
  rw [append, meets_bind, members_of hc, meets_bind, onStorage, meets_zoom]
  refine hvalue.mono fun y n₁ m hm => ?_
  obtain ⟨rfl, h₁⟩ := hm
  obtain ⟨l', hl', hshows⟩ := h₁.owned.shows (c := c) hc
  cases hl.symm.trans hl'
  have hholds := hshows.holds
  have hlen : l.length < capacity x := hshows.size_eq ▸ hroom
  cases hdata : data x with
  | none =>
    rw [hdata] at hholds
    exact absurd hlen (by rw [hholds.1]; exact Nat.not_lt_zero _)
  | some b =>
    rw [hdata] at hholds
    obtain ⟨B, hB, hsize, hf⟩ := hholds
    obtain ⟨hfree, hf'⟩ := hf.push (x := y) (distinct_slot hshows.le_limit hlen)
    rw [meets_bind, hshows.size_eq]
    refine (onStorage_meets h₁.is
      (hconstruct h₁.is.storage hB (hsize ▸ slot_lt x _ hlen) hfree)).mono fun _ n₂ s₂ hs₂ => ?_
    obtain ⟨hm₂, hobject₂⟩ := hs₂
    refine (setMembers_meets ⟨hm₂, hobject₂⟩ hc).mono fun _ n₃ s₃ hs₃ => ?_
    refine ⟨hs₃.inv (h₁.owned.inPlace hc (hr.shows (by simp) hlen hshows.le_limit ?_)
      (hr.data_eq ..) fun b' hb' => ?_), hs₃.object_eq⟩
    · rw [hdata]
      exact ⟨_, Function.update_self .., hsize, hf'⟩
    · exact Function.update_of_ne (fun he => hb' (hdata.trans (congrArg some he.symm))) ..

/-- The last element is destroyed. -/
theorem popBack_meets [DecidableEq C] {resize : S → ℕ → S} {v : V} (hr : Resizes resize)
    (h : s.Inv ref) (hc : s.object c = some x) (hl : ref c = some (l ++ [v])) :
    (popBack resize c).Meets env n s (fun _ _ s' => s'.Inv (Function.update ref c (some l)))
      (fun _ => env.Fails) False := by
  obtain ⟨l', hl', hshows⟩ := h.owned.shows hc
  cases hl.symm.trans hl'
  have hsize : size x = l.length + 1 := hshows.size_eq.trans List.length_append
  have hcap : l.length + 1 ≤ capacity x := hsize ▸ hshows.size_le
  have hholds := hshows.holds
  simp only [popBack, meets_bind]
  rw [members_meets h.is hc, meets_require (by omega), hsize, Nat.add_sub_cancel]
  refine (setMembers_meets h.is hc).mono fun _ _ s₁ hs₁ => ?_
  cases hdata : data x with
  | none =>
    rw [hdata] at hholds
    exact absurd hholds.2 (by simp)
  | some b =>
    rw [hdata] at hholds
    obtain ⟨B, hB, hsizeB, hf⟩ := hholds
    obtain ⟨hlive, hf'⟩ := hf.pop (distinct_slot hshows.le_limit hcap)
    refine (onStorage_meets hs₁ (destroyAt_meets hs₁.storage hB hlive)).mono
      fun _ _ s₂ hs₂ => Is.inv ⟨hs₂.1.2, hs₂.2⟩ ?_
    refine h.owned.inPlace hc (hr.shows rfl (Nat.le_of_succ_le hcap) hshows.le_limit ?_)
      (hr.data_eq ..) fun b' hb' => ?_
    · rw [hdata]
      exact ⟨_, Function.update_self .., hsizeB, hf'⟩
    · exact Function.update_of_ne (fun he => hb' (hdata.trans (congrArg some he.symm))) ..

/-- All elements are destroyed. -/
theorem clear_meets [DecidableEq C] {resize : S → ℕ → S} (hr : Resizes resize) (h : s.Inv ref)
    (hc : s.object c = some x) :
    (clear resize c).Meets env n s (fun _ _ s' => s'.Inv (Function.update ref c (some [])))
      (fun _ => env.Fails) False := by
  obtain ⟨l, -, hshows⟩ := h.owned.shows hc
  simp only [clear, meets_bind]
  refine (destroyAll_meets h.is hc hshows.size_eq hshows.distinct
    hshows.holds).mono fun _ _ s₁ hs₁ => ?_
  rw [members_meets hs₁.2 hc]
  refine (setMembers_meets hs₁.2 hc).mono fun _ _ s₂ hs₂ => hs₂.inv ?_
  exact h.owned.inPlace hc (hr.shows rfl (Nat.zero_le _) hshows.le_limit hshows.holds.emptied)
    (hr.data_eq ..) fun b hb => update_of_ne hb

/-- The containers without `c`, when its block was released. -/
theorem Inv.others [DecidableEq C] {d : C} {y : S} (h : s.Inv ref) (hc : s.object c = some x)
    (hd : s.object d = some y) (hl : ref d = some l) (hne : c ≠ d) :
    Owned (update s.storage.view (data x) none) (Function.update s.object c none)
      (Function.update ref c none) ∧ Shows (update s.storage.view (data x) none) y l := by
  have hdrop : Owned (update s.storage.view (data x) none) (Function.update s.object c none)
      (Function.update ref c none) :=
    h.owned.drop hc (fun b hb => update_of_ne hb) fun b hb => update_self hb
  obtain ⟨l', hl', hshows⟩ := hdrop.shows (c := d) (s := y)
    (by rw [Function.update_of_ne hne.symm, hd])
  rw [Function.update_of_ne hne.symm, hl] at hl'
  cases hl'
  exact ⟨hdrop, hshows⟩

/-- A container is left without its block. -/
theorem Inv.dispose_meets (h : s.Inv ref) (hc : s.object c = some x) :
    (dispose c).Meets env n s
      (fun _ k s' => k = n ∧ s'.Is (update s.storage.view (data x) none) s.object) E U := by
  obtain ⟨l, -, hshows⟩ := h.owned.shows hc
  exact Store.dispose_meets h.is hc hshows.size_eq hshows.distinct hshows.holds

/-- A read through `operator[]`. -/
theorem subscript_meets {i : ℕ} {v : V} (h : s.Inv ref) (hc : s.object c = some x)
    (hl : ref c = some l) (hi : l[i]? = some v) : (do
      let r ← subscript c i
      onStorage r.load).Meets env n s (fun y k s' => y = v ∧ k = n ∧ s' = s) (fun _ => env.Fails)
      False := by
  obtain ⟨l', hl', hshows⟩ := h.owned.shows hc
  cases hl.symm.trans hl'
  have hlt := (List.getElem?_eq_some_iff.1 hi).1
  have hholds := hshows.holds
  simp only [subscript, meets_bind]
  rw [members_meets h.is hc, meets_require (hlt.trans_eq hshows.size_eq.symm), meets_pure,
    onStorage,
    meets_zoom]
  cases hdata : data x with
  | none =>
    rw [hdata] at hholds
    rw [hholds.2] at hi
    cases hi
  | some b =>
    rw [hdata] at hholds
    obtain ⟨B, hB, -, hf⟩ := hholds
    exact (load_meets h.is.storage hB (hf.live i v hi)).2 ⟨rfl, rfl, rfl⟩

/-- A container that has grown is one with other members in the same place, or the same one. -/
structure Grown (s : Store C S V) (c : C) (x : S) (s' : Store C S V) : Prop where
  others : ∀ d, d ≠ c → s'.object d = s.object d
  exists_object : ∃ y, s'.object c = some y ∧ size y = size x
  same : size x < capacity x → s' = s

/-- A value is appended to a container, which grows if it is full. The value is read after that. -/
theorem pushBack_meets [DecidableEq C] {sizeofT : ℕ} {moved : V → V}
    {rebuild : S → Option ℕ → ℕ → S} {construct : Option ℕ → ℕ → V → Fallible (Storage V) Unit}
    {resize : S → ℕ → S} {value : Fallible (Storage V) V} {v : V} {ref₁ : C → Option (List V)}
    (hrebuild : Rebuilds rebuild) (hconstruct : Constructs env construct) (hresize : Resizes resize)
    (h : s.Inv ref) (hc : s.object c = some x) (hl : ref₁ c = some l)
    (hfits : ∀ k, growth x = some k → Fits S sizeofT k)
    (hvalue : ∀ s' : Store C S V, s'.Inv ref → Grown s c x s' → ∀ n',
      value.Meets env n' s'.storage
        (fun y _ m => y = v ∧ ({ s' with storage := m } : Store C S V).Inv ref₁)
        (fun _ => env.Fails) False) :
    (pushBack sizeofT moved rebuild construct resize value c).Meets env n s
      (fun _ _ s' => s'.Inv (Function.update ref₁ c (some (l ++ [v]))))
      (fun _ => env.Fails) False := by
  rw [pushBack, meets_bind, members_meets h.is hc, meets_bind]
  rcases Nat.lt_or_ge (size x) (capacity x) with hroom | hfull
  · -- `size_ + 1` may wrap around, but then there is room all the same
    have hle : (size x + 1) % 2 ^ 64 ≤ capacity x := (Nat.mod_le ..).trans hroom
    refine (ensureCapacity_meets hrebuild h hc fun hnot => absurd hle hnot).mono
      fun _ n₁ s₁ hs₁ => ?_
    obtain ⟨h₁, -, -, hsame⟩ := hs₁
    obtain rfl := hsame hle
    exact (append_meets hconstruct hresize hc hl hroom
      (hvalue _ h₁ ⟨fun _ _ => rfl, ⟨x, hc, rfl⟩, fun _ => rfl⟩ n₁)).mono fun _ _ _ hs₂ => hs₂.1
  · have hk := hfits _ (if_neg (Nat.not_lt.2 hfull))
    have hmin := le_newCap (capacity x) (size x + 1)
    have hlt : newCap (capacity x) (size x + 1) < 2 ^ 64 := slots_lt hk.1
    rw [Nat.mod_eq_of_lt (hmin.trans_lt hlt)]
    refine (ensureCapacity_meets hrebuild h hc fun _ => hk).mono fun _ n₁ s₁ hs₁ => ?_
    obtain ⟨h₁, hothers, ⟨y, hy, hsize, hcap⟩, -⟩ := hs₁
    exact (append_meets hconstruct hresize hy hl (hsize ▸ hcap)
      (hvalue _ h₁ ⟨hothers, ⟨y, hy, hsize⟩, fun hroom => absurd hroom (Nat.not_lt.2 hfull)⟩
        n₁)).mono fun _ _ _ hs₂ => hs₂.1

omit [Container S] in
/-- A step on the storage leaves the members of the containers alone. -/
theorem onStorage_object {p : Fallible (Storage V) α} (hobject : s.object = object) :
    (onStorage p).Meets env n s (fun _ _ s' => s'.object = object) (fun _ => True) True :=
  meets_zoom.2 ((meets_any p).mono fun _ _ _ _ => hobject)

/-- A container that grows has given its old block back, if it comes to an end at all. -/
theorem ensureCapacity_released [DecidableEq C] {sizeofT : ℕ} {moved : V → V}
    {rebuild : S → Option ℕ → ℕ → S} {minCap : ℕ} (hc : s.object c = some x)
    (hfull : ¬minCap ≤ capacity x) :
    (ensureCapacity sizeofT moved rebuild c minCap).Meets env n s
      (fun _ _ s' => (∃ y, s'.object c = some y) ∧
        ∀ b, data x = some b → ∀ i, s'.storage.read b i = none) (fun _ => True) True := by
  have hallocate : ∀ k, (allocate sizeofT k).Meets env n s
      (fun _ _ s' => s'.object = s.object) (fun _ => True) True := by
    intro k
    rw [allocate]
    split
    · exact rfl
    · exact meets_bind.2 ((onStorage_object rfl).mono fun _ _ _ h => h)
  simp only [ensureCapacity, meets_bind]
  rw [members_of hc, if_neg hfull]
  simp only [meets_bind, dispose, destroyAll]
  refine (hallocate _).mono fun _ _ s₁ h₁ => (onStorage_object h₁).mono fun _ _ s₂ h₂ => ?_
  rw [members_of (h₂ ▸ hc)]
  refine (onStorage_object h₂).mono fun _ _ s₃ h₃ => ?_
  rw [members_of (h₃ ▸ hc), onStorage, meets_zoom]
  refine operatorDelete_released.mono fun _ _ m hm => ?_
  exact (setMembers_of (h₃ ▸ hc)).2 ⟨⟨_, Function.update_self ..⟩, hm⟩

/-- An argument that is an element of the container is gone before it is read, if the container
grows. -/
theorem pushBack_own_ne_ok [DecidableEq C] {sizeofT : ℕ} {moved : V → V}
    {rebuild : S → Option ℕ → ℕ → S} {construct : Option ℕ → ℕ → V → Fallible (Storage V) Unit}
    {resize : S → ℕ → S} {i n' : ℕ} {s' : Store C S V} (hc : s.object c = some x)
    (hfull : ¬size x < capacity x) (hwraps : size x + 1 < 2 ^ 64) :
    pushBack sizeofT moved rebuild construct resize (Arg.slot (data x) (slot x i)).load c env n s ≠
      .ok () n' s' := by
  have hmeets : (pushBack sizeofT moved rebuild construct resize
      (Arg.slot (data x) (slot x i)).load c).Meets env n s (fun _ _ _ => False) (fun _ => True)
      True := by
    rw [pushBack, meets_bind, members_of hc, meets_bind, Nat.mod_eq_of_lt hwraps]
    refine (ensureCapacity_released hc fun hle => hfull hle).mono fun _ _ s₁ hs₁ => ?_
    obtain ⟨⟨y, hc₁⟩, hgone⟩ := hs₁
    rw [append, meets_bind, members_of hc₁, meets_bind, onStorage, meets_zoom]
    refine (meets_act_none ?_).2 trivial
    cases hdata : data x with
    | none => rfl
    | some b => rw [Option.bind_some, hgone b hdata, Option.map_none]
  exact fun hrun => hmeets.ok hrun

/-- A container that counts an element that is not there cannot be destroyed. -/
theorem destruct_missing [DecidableEq C] {i : ℕ} (hc : s.object c = some x) (hi : i < size x)
    (hnone : s.storage.valueAt (data x) (slot x i) = none) : destruct c env n s = .undefined := by
  refine Meets.eq_undefined (U := True) ?_
  rw [destruct, meets_bind, dispose, meets_bind, destroyAll, meets_bind, members_of hc, onStorage,
    meets_zoom]
  exact (destroyEach_missing hi hnone).mono fun _ _ _ => False.elim

/-- Nor can a container that points to a block that is gone. -/
theorem destruct_dangling [DecidableEq C] {b : ℕ} (hs : s.Is w object) (hc : object c = some x)
    (hdata : data x = some b) (hb : w b = none) : destruct c env n s = .undefined := by
  have hview : s.storage.view b = none := by rw [hs.storage.view_eq, hb]
  rcases Nat.eq_zero_or_pos (size x) with hzero | hpos
  · refine Meets.eq_undefined (U := True) ?_
    rw [destruct, meets_bind, dispose, meets_bind, destroyAll, meets_bind,
      members_meets hs hc, hzero,
      onStorage, meets_zoom, destroyEach, forLoop, forFrom, meets_pure, meets_bind,
      members_meets hs hc,
      onStorage, meets_zoom, hdata]
    exact operatorDelete_missing hview
  · refine destruct_missing (i := 0) (hs.object_eq ▸ hc) hpos ?_
    rw [hdata, Storage.valueAt, Option.bind_some, hs.storage.balanced.read_eq_none hview]

/-- The elements are in their slots, and there is nothing in the others. -/
theorem Inv.valueAt (h : s.Inv ref) (hc : s.object c = some x) (hl : ref c = some l) :
    (∀ i < l.length, s.storage.valueAt (data x) (slot x i) = l[i]?) ∧
      ∀ j, (∀ i < l.length, slot x i ≠ j) → s.storage.valueAt (data x) j = none := by
  obtain ⟨l', hl', hshows⟩ := h.owned.shows hc
  cases hl.symm.trans hl'
  have hholds := hshows.holds
  cases hdata : data x with
  | none =>
    rw [hdata] at hholds
    refine ⟨fun i hi => ?_, fun _ _ => rfl⟩
    rw [hholds.2] at hi
    exact absurd hi (Nat.not_lt_zero i)
  | some b =>
    rw [hdata] at hholds
    obtain ⟨B, hB, -, hf⟩ := hholds
    refine ⟨fun i hi => ?_, fun j hj => ?_⟩
    · rw [Storage.valueAt, Option.bind_some, read_eq hB, hf.live_of_lt hi,
        List.getElem?_eq_getElem hi]
    · rw [Storage.valueAt, Option.bind_some, read_eq hB, hf.empty j hj]

/-- A container with elements in the reference is alive. -/
theorem Inv.exists_object (h : s.Inv ref) (hl : ref c = some l) : ∃ x, s.object c = some x := by
  cases hc : s.object c with
  | none => cases hl.symm.trans (h.owned.gone hc)
  | some x => exact ⟨x, rfl⟩

/-- A container that is not in the reference is not alive. -/
theorem Inv.object_eq_none (h : s.Inv ref) (hl : ref c = none) : s.object c = none := by
  cases hc : s.object c with
  | none => rfl
  | some x =>
    obtain ⟨l, hl', -⟩ := h.owned.shows hc
    cases hl.symm.trans hl'

/-- The containers that are alive are those of the reference. -/
theorem Inv.object_eq_none_iff (h : s.Inv ref) : s.object c = none ↔ ref c = none :=
  ⟨h.owned.gone, h.object_eq_none⟩

/-- When no container is left, each object was destroyed once, and each block was released. -/
theorem Inv.all_gone (h : s.Inv ref) (hnone : ∀ c, s.object c = none) :
    s.storage.destroyed.Perm (List.range s.storage.constructed) ∧
    ∀ b, s.storage.sizes b = none := by
  have hsizes : ∀ b, s.storage.sizes b = none := by
    intro b
    by_contra hb
    have hview : s.storage.view b ≠ none := fun hv => hb (Option.map_eq_none_iff.1 hv)
    obtain ⟨c, x, hc, -⟩ := h.owned.owner hview
    cases (hnone c).symm.trans hc
  refine ⟨h.balanced.perm_destroyed fun b i => ?_, hsizes⟩
  cases ho : s.storage.objects b i with
  | none => rfl
  | some o =>
    obtain ⟨n, hn, -⟩ := h.balanced.inBounds b i o ho
    cases (hsizes b).symm.trans hn

end

end Store

end RockCoro
