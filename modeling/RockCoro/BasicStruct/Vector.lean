import RockCoro.BasicStruct.Sequence

/-!
# `Vector`

The vector of `basic_struct/vector.h`, over storage in which each element is constructed and
destroyed by itself. `moved` is what the move constructor of `T` leaves of an object; it and the
destructor do not throw. A call may go wrong in two ways (`Safe`): `sizeof(T) * n` wraps around and
the block has fewer slots than the vector takes it to have, or an argument is an element of the
vector itself, whose block is released before the argument is read.
-/

namespace RockCoro

/-- The members. -/
structure Vector where
  data : Option ℕ
  size : ℕ
  capacity : ℕ
  deriving DecidableEq

namespace Vector

open Fallible Store Storage

variable {C V : Type}

instance : Container Vector where
  data := data
  size := size
  capacity := capacity
  slot _ := id
  -- no block has more bytes than two pointers can be apart
  limit := 2 ^ 63
  slot_lt _ _ hi := hi
  slot_inj _ _ _ _ _ _ he := he

variable (sizeofT : ℕ) (moved : V → V) (x₀ : V) (CAPACITY : ℕ) [DecidableEq C]

/-- `Vector()`. -/
def init (c : C) : Fallible (Store C Vector V) Unit :=
  Store.init sizeofT CAPACITY (⟨·, 0, CAPACITY⟩) c

/-- `Vector(size_t n)`, with `x₀` for `T()`. -/
def initSize (c : C) (n : ℕ) : Fallible (Store C Vector V) Unit := do
  let p ← allocate sizeofT n
  onStorage (fillEach p n x₀)
  create c ⟨p, n, n⟩

/-- The destructor. -/
def destruct (c : C) : Fallible (Store C Vector V) Unit := Store.destruct c

/-- `Vector(const Vector &other)`. -/
def copyInit (c other : C) : Fallible (Store C Vector V) Unit := do
  let o ← members other
  let p ← allocate sizeofT o.capacity
  onStorage (copyEach o.data p o.size)
  create c ⟨p, o.size, o.capacity⟩

/-- `operator=(const Vector &other)`. -/
def copyAssign (c other : C) : Fallible (Store C Vector V) Unit :=
  if c = other then pure ()
  else do
    dispose c
    let o ← members other
    let p ← allocate sizeofT o.capacity
    setMembers c ⟨p, o.size, o.capacity⟩
    onStorage (copyEach o.data p o.size)

/-- `Vector(Vector &&other)`. -/
def moveInit (c other : C) : Fallible (Store C Vector V) Unit := do
  let o ← members other
  create c o
  setMembers other ⟨none, 0, 0⟩

/-- `operator=(Vector &&other)`. -/
def moveAssign (c other : C) : Fallible (Store C Vector V) Unit :=
  if c = other then pure ()
  else do
    dispose c
    let o ← members other
    setMembers c o
    setMembers other ⟨none, 0, 0⟩

/-- `operator[]`. -/
def subscript (c : C) (i : ℕ) : Fallible (Store C Vector V) (Arg V) := Store.subscript c i

/-- The members after the elements were moved to a new block. -/
def rebuild (v : Vector) (newData : Option ℕ) (newCap : ℕ) : Vector :=
  { v with data := newData, capacity := newCap }

/-- A write to `size_`. -/
def resize (v : Vector) (size : ℕ) : Vector := { v with size := size }

/-- `push_back(const T &)`. -/
def pushBack (c : C) (value : Arg V) : Fallible (Store C Vector V) Unit :=
  Store.pushBack sizeofT moved rebuild tryConstructAt resize value.load c

/-- `push_back` of element `i` of the vector itself. -/
def pushBackOwn (c : C) (i : ℕ) : Fallible (Store C Vector V) Unit := do
  let r ← subscript c i
  pushBack sizeofT moved c r

/-- `push_back(T &&)`. -/
def pushBackMove (c : C) (value : Arg V) : Fallible (Store C Vector V) Unit :=
  Store.pushBack sizeofT moved rebuild constructAt resize (value.take moved) c

/-- `emplace_back`. The constructor of `T` gets the arguments after the vector has grown. -/
def emplaceBack (c : C) (make : List V → V) (args : List (Forward (Arg V))) :
    Fallible (Store C Vector V) (Arg V) := do
  Store.pushBack sizeofT moved rebuild tryConstructAt resize (do
    let xs ← mapEach (Forward.read moved) args
    pure (make xs)) c
  let v ← members c
  pure (.slot v.data (v.size - 1))

/-- `pop_back`. -/
def popBack (c : C) : Fallible (Store C Vector V) Unit := Store.popBack resize c

/-- `clear`. -/
def clear (c : C) : Fallible (Store C Vector V) Unit := Store.clear resize c

/-- The member functions. -/
def functions : Sequence C Vector V where
  init := init sizeofT CAPACITY
  initSize := initSize sizeofT x₀
  copyInit := copyInit sizeofT
  moveInit := moveInit
  copyAssign := copyAssign sizeofT
  moveAssign := moveAssign
  destruct := destruct
  pushBack := pushBack sizeofT moved
  pushBackMove := pushBackMove sizeofT moved
  emplaceBack := emplaceBack sizeofT moved
  popBack := popBack
  clear := clear
  subscript := subscript

omit [DecidableEq C] in
/-- The call allocates no block whose size in bytes overflows, and is given no element of a vector
that it moves to another block. -/
def Safe (s : Store C Vector V) : SequenceCall C V → Prop
  | .init _ => Fits Vector sizeofT CAPACITY
  | .initSize _ n => Fits Vector sizeofT n
  | .copyInit _ other | .copyAssign _ other =>
    ∀ o, s.object other = some o → Fits Vector sizeofT o.capacity
  | .pushBack c a | .pushBackMove c a => GrowsApart sizeofT s c [a]
  | .emplaceBack c _ args => GrowsApart sizeofT s c (args.map Forward.argument)
  | .moveInit .. | .moveAssign .. | .destruct _ | .popBack _ | .clear _ => True

instance (s : Store C Vector V) :
    (e : SequenceCall C V) → Decidable (Safe sizeofT CAPACITY s e)
  | .init _ | .initSize .. => inferInstanceAs (Decidable (Fits ..))
  | .copyInit _ other | .copyAssign _ other =>
    inferInstanceAs (Decidable (∀ o ∈ s.object other, Fits Vector sizeofT o.capacity))
  | .pushBack .. | .pushBackMove .. | .emplaceBack .. => inferInstanceAs (Decidable (GrowsApart ..))
  | .moveInit .. | .moveAssign .. | .destruct _ | .popBack _ | .clear _ =>
    inferInstanceAs (Decidable True)

/-! ## What the calls do -/

variable {sizeofT moved x₀ CAPACITY} {s : Store C Vector V} {ref ref' : C → Option (List V)}
  {c other : C} {v o : Vector} {l l' : List V} {x : V} {n : ℕ} {env : Environment}

/-- A new vector has storage and no elements. -/
theorem makes_init : Makes CAPACITY (⟨·, 0, CAPACITY⟩ : Option ℕ → Vector) :=
  ⟨fun _ => rfl, fun _ => rfl, fun _ => rfl⟩

/-- What `ensure_capacity` writes. -/
theorem rebuilds : Rebuilds rebuild :=
  ⟨fun _ _ _ => rfl, fun _ _ _ => rfl, fun _ _ _ => rfl, fun _ _ _ _ _ _ => rfl⟩

/-- A write to `size_` changes nothing else. -/
theorem resizes : Resizes resize :=
  ⟨fun _ _ => rfl, fun _ _ => rfl, fun _ _ => rfl, fun _ _ => rfl⟩

/-- `Vector(size_t n)`. -/
theorem initSize_meets {k : ℕ} (h : s.Inv ref) (hc : s.object c = none)
    (hfits : Fits Vector sizeofT k) : (initSize sizeofT x₀ c k).Meets env n s
      (fun _ _ s' => s'.Inv (Function.update ref c (some (List.replicate k x₀))))
      (fun _ => env.Fails)
      False := by
  simp only [initSize, meets_bind]
  refine (allocate_meets h.is hfits.1 fun henv => ⟨_, _, henv⟩).mono fun p _ s₁ hs₁ => ?_
  obtain ⟨-, hnew, hs₁⟩ := hs₁
  refine (onStorage_meets hs₁
    (hnew.holds.fillEach hs₁.storage (Nat.le_refl k) fun _ henv => henv)).mono
    fun _ _ s₂ hs₂ => ?_
  obtain ⟨hm₂, hobject₂⟩ := hs₂
  rw [update_update] at hm₂
  refine (create_meets ⟨hm₂, hobject₂⟩ hc).mono fun _ _ s₃ hs₃ => hs₃.inv ?_
  have hlen : (List.replicate k x₀).length = k := List.length_replicate
  exact hnew.owned h.owned hc rfl (hnew.shows_ofList rfl hlen.symm rfl rfl hlen.le hfits.2)

/-- `Vector(const Vector &other)`. -/
theorem copyInit_meets (h : s.Inv ref) (hc : s.object c = none) (hl : ref other = some l)
    (hfits : ∀ o, s.object other = some o → Fits Vector sizeofT o.capacity) :
    (copyInit sizeofT c other).Meets env n s (fun _ _ s' => s'.Inv (Function.update ref c (some l)))
      (fun _ => env.Fails) False := by
  obtain ⟨o, ho⟩ := h.exists_object hl
  obtain ⟨l', hl', hshows⟩ := h.owned.shows ho
  cases hl.symm.trans hl'
  have hsize : o.size = l.length := hshows.size_eq
  have hle : l.length ≤ o.capacity := hsize ▸ hshows.size_le
  simp only [copyInit, meets_bind]
  rw [members_meets h.is ho]
  refine (allocate_meets h.is (hfits o ho).1 fun henv => ⟨_, _, henv⟩).mono fun p _ s₁ hs₁ => ?_
  obtain ⟨-, hnew, hs₁⟩ := hs₁
  refine (onStorage_meets hs₁
    (hnew.copyEach hs₁.storage hshows rfl hle fun _ _ _ henv _ => henv)).mono
    fun _ _ s₂ hs₂ => ?_
  refine (create_meets ⟨hs₂.1, hs₂.2⟩ hc).mono fun _ _ s₃ hs₃ => hs₃.inv ?_
  exact hnew.owned h.owned hc rfl (hnew.shows_ofList rfl hsize rfl rfl hle hshows.le_limit)

/-- `Vector(Vector &&other)`. -/
theorem moveInit_meets (h : s.Inv ref) (hc : s.object c = none) (hl : ref other = some l) :
    (moveInit c other).Meets env n s
      (fun _ _ s' => s'.Inv (Function.update (Function.update ref other (some [])) c (some l)))
      (fun _ => env.Fails) False := by
  obtain ⟨o, ho⟩ := h.exists_object hl
  have hne : other ≠ c := by
    rintro rfl
    cases hc.symm.trans ho
  simp only [moveInit, meets_bind]
  rw [members_meets h.is ho]
  refine (create_meets h.is hc).mono fun _ _ s₁ hs₁ => ?_
  refine (setMembers_meets hs₁ (by rw [Function.update_of_ne hne, ho])).mono
    fun _ _ s₂ hs₂ => hs₂.inv ?_
  exact h.owned.handOver ho hc hl rfl rfl rfl

/-- How a copy assignment between two containers fails: in the allocation, when the members still
point to the block that was released, or in the copy of an element, when they count elements that
are not there. -/
inductive CopyAssignFailure (w : ℕ → Option (Block V)) (object : C → Option Vector) (c : C)
    (o : Vector)
    (l : List V) (allocFails : Bool) (s' : Store C Vector V) : Prop
  | alloc (hfails : allocFails = true) (hs' : s'.Is w object)
  | copy {p : Option ℕ} {j : ℕ} (hfails : allocFails = false) (hnew : New w p o.capacity)
    (hj : j < l.length) (hs' : s'.Is (update w p (some (.ofList o.capacity (l.take j))))
      (Function.update object c (some ⟨p, o.size, o.capacity⟩)))

/-- `operator=(const Vector &other)` between two vectors. -/
theorem copyAssign_meets (h : s.Inv ref) (hc : s.object c = some v) (ho : s.object other = some o)
    (hl : ref other = some l) (hne : c ≠ other) (hfits : Fits Vector sizeofT o.capacity) :
    (copyAssign sizeofT c other).Meets env n s
      (fun _ _ s' => s'.Inv (Function.update ref c (some l)))
      (fun s' => env.Fails ∧ CopyAssignFailure (update s.storage.view v.data none) s.object c o l
        (env n o.capacity) s') False := by
  obtain ⟨hdrop, hshows⟩ := h.others hc ho hl hne
  have hsize : o.size = l.length := hshows.size_eq
  have hle : l.length ≤ o.capacity := hsize ▸ hshows.size_le
  simp only [copyAssign, if_neg hne, meets_bind]
  refine (h.dispose_meets hc).mono fun _ _ s₁ hs₁ => ?_
  obtain ⟨rfl, hs₁⟩ := hs₁
  rw [members_meets hs₁ ho]
  refine (allocate_meets hs₁ hfits.1 fun henv => ⟨⟨_, _, henv⟩, .alloc henv hs₁⟩).mono
    fun p _ s₂ hs₂ => ?_
  obtain ⟨henv, hnew, hs₂⟩ := hs₂
  refine (setMembers_meets hs₂ hc).mono fun _ _ s₃ hs₃ => ?_
  refine (onStorage_meets hs₃ (hnew.copyEach hs₃.storage hshows rfl hle fun j hj m' hfails hm' =>
    ⟨hfails, .copy (henv ?_) hnew hj ⟨hm', hs₃.object_eq⟩⟩)).mono fun _ _ s₄ hs₄ => ?_
  · have howned := hnew.owned hdrop (x := ⟨p, o.size, o.capacity⟩) (Function.update_self ..) rfl
      (hnew.shows_ofList rfl hsize rfl rfl hle hfits.2)
    rw [Function.update_idem, Function.update_idem] at howned
    exact Is.inv ⟨hs₄.1, hs₄.2⟩ howned
  · rintro rfl
    rw [hnew.null rfl] at hle
    exact absurd (hj.trans_le hle) (Nat.not_lt_zero j)

/-- After a copy assignment that failed, the vector is as before if it was the allocation that
failed and there was no block to release before. Otherwise not even the destructor can be called. -/
theorem copyAssign_thrown {s' : Store C Vector V} (h : s.Inv ref) (hc : s.object c = some v)
    (ho : s.object other = some o) (hfits : Fits Vector sizeofT o.capacity)
    (hthrown : copyAssign sizeofT c other env n s = .thrown s') :
    (v.data = none ∧ env n o.capacity = true → s'.Inv ref) ∧
      (¬(v.data = none ∧ env n o.capacity = true) →
        (∃ v', s'.object c = some v') ∧ ∀ env k, destruct c env k s' = .undefined) := by
  have hne : c ≠ other := by
    rintro rfl
    rw [copyAssign, if_pos rfl] at hthrown
    cases hthrown
  obtain ⟨l, hl, hshows⟩ := h.owned.shows ho
  obtain ⟨-, hfailure⟩ := (copyAssign_meets h hc ho hl hne hfits).thrown hthrown
  cases hfailure with
  | alloc hfails hs' =>
    refine ⟨fun hcond => ?_, fun hcond => ?_⟩
    · rw [hcond.1] at hs'
      exact hs'.inv h.owned
    · refine ⟨⟨v, hs'.object_eq ▸ hc⟩, fun _ _ => ?_⟩
      cases hdata : v.data with
      | none => exact absurd ⟨hdata, hfails⟩ hcond
      | some b => exact destruct_dangling hs' hc hdata (update_self hdata)
  | copy hfails hnew hj hs' =>
    have hc' := congrFun hs'.object_eq c
    rw [Function.update_self] at hc'
    refine ⟨fun hcond => ?_, fun _ => ⟨⟨_, hc'⟩, fun _ _ => ?_⟩⟩
    · cases hfails.symm.trans hcond.2
    · exact destruct_missing hc' (hj.trans_eq hshows.size_eq.symm) (valueAt_take hs'.storage)

/-- `operator=(Vector &&other)` between two vectors. -/
theorem moveAssign_meets (h : s.Inv ref) (hc : s.object c = some v) (hl : ref other = some l)
    (hne : c ≠ other) : (moveAssign c other).Meets env n s
      (fun _ _ s' => s'.Inv (Function.update (Function.update ref other (some [])) c (some l)))
      (fun _ => env.Fails) False := by
  obtain ⟨o, ho⟩ := h.exists_object hl
  obtain ⟨hdrop, hshows⟩ := h.others hc ho hl hne
  simp only [moveAssign, if_neg hne, meets_bind]
  refine (h.dispose_meets hc).mono fun _ _ s₁ hs₁ => ?_
  rw [members_meets hs₁.2 ho]
  refine (setMembers_meets hs₁.2 hc).mono fun _ _ s₂ hs₂ => ?_
  refine (setMembers_meets hs₂ (by rw [Function.update_of_ne hne.symm, ho])).mono
    fun _ _ s₃ hs₃ => hs₃.inv ?_
  have howned := hdrop.handOver (d := other) (t := ⟨none, 0, 0⟩)
    (by rw [Function.update_of_ne hne.symm, ho]) (Function.update_self ..)
    (by rw [Function.update_of_ne hne.symm, hl]) rfl rfl rfl
  rw [Function.update_idem, Function.update_comm hne none (some []) ref,
    Function.update_idem] at howned
  exact howned

/-- A value that is read from references which the call leaves good. -/
theorem pushBack_safe {construct : Option ℕ → ℕ → V → Fallible (Storage V) Unit}
    {value : Fallible (Storage V) V} {args : List (Argument C V)} {ref₁ : C → Option (List V)}
    (hconstruct : Constructs env construct) (h : s.Inv ref) (hc : s.object c = some v)
    (hl : ref₁ c = some l) (hsafe : GrowsApart sizeofT s c args)
    (hvalue : ∀ s' : Store C Vector V, s'.Inv ref →
      (∀ a ∈ args, ∀ r, Refers s.object a r → Refers s'.object a r) → ∀ n',
      value.Meets env n' s'.storage
        (fun y _ m => y = x ∧ ({ s' with storage := m } : Store C Vector V).Inv ref₁)
        (fun _ => env.Fails) False) :
    (Store.pushBack sizeofT moved rebuild construct resize value c).Meets env n s
      (fun _ _ s' => s'.Inv (Function.update ref₁ c (some (l ++ [x]))))
      (fun _ => env.Fails) False := by
  refine Store.pushBack_meets rebuilds hconstruct resizes h hc hl
    (fun k hk => (hsafe v hc k hk).1) fun s' h' hg n' => hvalue s' h' (fun a ha r hr => ?_) n'
  exact hg.refers hr fun hfull => (hsafe v hc _ (if_neg hfull)).2 a ha

/-- The member functions do to the lists what the calls do, as long as these are safe. -/
theorem refines : (functions sizeofT moved x₀ CAPACITY : Sequence C Vector V).Refines moved x₀
    (fun _ => true) (Safe sizeofT CAPACITY) where
  init h hc hsafe _ _ := init_meets makes_init h hc hsafe
  initSize h hc _ hsafe _ _ := initSize_meets h hc hsafe
  copyInit h hc hl hsafe _ _ := copyInit_meets h hc hl hsafe
  moveInit h hc hl _ _ := moveInit_meets h hc hl
  copyAssign h hc hl hne hsafe _ _ := by
    obtain ⟨o, ho⟩ := h.exists_object hl
    exact (copyAssign_meets h hc ho hl hne (hsafe o ho)).weaken fun _ => And.left
  copyAssign_self _ := if_pos rfl
  moveAssign h hc hl hne _ _ := moveAssign_meets h hc hl hne
  moveAssign_self _ := if_pos rfl
  destruct h hc _ _ := (destruct_meets h hc).mono fun _ _ _ => And.left
  pushBack h hc hr hread hl _ hsafe _ _ :=
    pushBack_safe constructs_tryConstructAt h hc hl hsafe fun _ h' hgood _ =>
      h'.read_meets (.copy (hgood _ List.mem_cons_self _ hr)) hread
  pushBackMove h hc hr hread hl _ hsafe _ _ :=
    pushBack_safe constructs_constructAt h hc hl hsafe fun _ h' hgood _ =>
      h'.read_meets (.move (hgood _ List.mem_cons_self _ hr)) hread
  emplaceBack := by
    intro s ref ref₁ c v l make args rs xs h hc hrs hread hl _ hsafe env n
    simp only [functions, emplaceBack, meets_bind]
    refine (pushBack_safe (x := make xs) constructs_tryConstructAt h hc hl hsafe
      fun _ h' hgood _ => ?_).mono fun _ _ s₁ h₁ => ?_
    · rw [meets_bind]
      refine (h'.readAll_meets (refers_mono hgood hrs) rfl hread).mono fun ys _ m hm => ?_
      obtain ⟨rfl, h₁⟩ := hm
      exact ⟨rfl, h₁⟩
    · obtain ⟨v₁, hc₁⟩ := h₁.exists_object (Function.update_self ..)
      rw [members_meets h₁.is hc₁]
      exact h₁
  popBack h hc hl _ _ := popBack_meets resizes h hc hl
  clear h hc _ _ := clear_meets resizes h hc
  subscript := rfl
  slot _ := rfl

/-! ## An element of the vector as the argument -/

omit [DecidableEq C] in
/-- Without growth every argument is good. -/
theorem growsApart_of_room {args : List (Argument C V)} (hc : s.object c = some v)
    (hroom : v.size < v.capacity) : GrowsApart sizeofT s c args := by
  refine (growsApart_iff hc).2 fun k hk => ?_
  cases hk.symm.trans (if_pos hroom)

/-- An element is appended to its own vector, if there is room. -/
theorem pushBackOwn_meets {i : ℕ} (h : s.Inv ref) (hc : s.object c = some v) (hl : ref c = some l)
    (hi : l[i]? = some x) (hroom : v.size < v.capacity) :
    (pushBackOwn sizeofT moved c i).Meets env n s
      (fun _ _ s' => s'.Inv (Function.update ref c (some (l ++ [x])))) (fun _ => env.Fails)
      False := by
  have honLists : (SequenceCall.pushBack c (.element c i)).onLists moved x (fun _ => true) ref =
      some (Function.update ref c (some (l ++ [x]))) := by
    simp [SequenceCall.onLists, Forward.onLists, Argument.get, appendOnLists, hl, hi]
  have hrefines : (functions sizeofT moved x 0 : Sequence C Vector V).Refines moved x
      (fun _ => true) (Safe sizeofT 0) := refines
  exact hrefines.call h honLists (growsApart_of_room hc hroom) env n

/-- If the vector is full, the element is gone before it is read. -/
theorem pushBackOwn_ne_ok {i n' : ℕ} {s' : Store C Vector V} (h : s.Inv ref)
    (hc : s.object c = some v) (hl : ref c = some l) (hi : l[i]? = some x)
    (hfull : ¬v.size < v.capacity) : pushBackOwn sizeofT moved c i env n s ≠ .ok () n' s' := by
  obtain ⟨l', hl', hshows⟩ := h.owned.shows hc
  cases hl.symm.trans hl'
  have hlt : i < Container.size v := (List.getElem?_eq_some_iff.1 hi).1.trans_eq hshows.size_eq.symm
  have hlimit : v.size ≤ 2 ^ 63 := hshows.size_le.trans hshows.le_limit
  intro hrun
  have hmeets : (pushBackOwn sizeofT moved c i).Meets env n s (fun _ _ _ => False) (fun _ => True)
      True := by
    rw [pushBackOwn, subscript, Store.subscript, meets_bind, meets_bind, members_meets h.is hc,
      meets_bind, meets_require hlt, meets_pure]
    cases hpush : pushBack sizeofT moved c (.slot (Container.data v) (Container.slot v i)) env n s
      with
    | ok a n₁ s₁ => exact absurd hpush (pushBack_own_ne_ok hc hfull
        ((Nat.succ_le_succ hlimit).trans_lt (by omega)))
    | thrown s₁ => rw [Meets, hpush]; trivial
    | undefined => rw [Meets, hpush]; trivial
  exact hmeets.ok hrun

end Vector

end RockCoro
