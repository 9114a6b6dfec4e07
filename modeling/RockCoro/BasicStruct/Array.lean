import RockCoro.BasicStruct.Sequence

/-!
# `Array`

The array of `basic_struct/array.h`, whose buffer is a part of the object: a block of `CAPACITY`
slots that comes with the object and goes with it. `moved` is what the move constructor of `T`
leaves of an object; it and the destructor do not throw.
-/

namespace RockCoro

/-- `data` is the block of `buffer_`. -/
structure Array (CAPACITY : ℕ) where
  data : ℕ
  size : ℕ
  deriving DecidableEq

namespace Array

open Fallible Store Storage

variable {C V : Type} {CAPACITY : ℕ}

instance : Container (Array CAPACITY) where
  data a := some a.data
  size := size
  capacity _ := CAPACITY
  slot _ := id
  limit := CAPACITY
  slot_lt _ _ hi := hi
  slot_inj _ _ _ _ _ _ he := he

/-- The buffer of a new object. -/
def buffer : Fallible (Store C (Array CAPACITY) V) ℕ :=
  onStorage (act fun m => some (m.next, m.allocate CAPACITY))

variable (moved : V → V) (x₀ : V) [DecidableEq C]

/-- `Array()`. -/
def init (c : C) : Fallible (Store C (Array CAPACITY) V) Unit := do
  let b ← buffer
  create c ⟨b, 0⟩

/-- `Array(size_t n)`, with `x₀` for `T()`. -/
def initSize (c : C) (n : ℕ) : Fallible (Store C (Array CAPACITY) V) Unit := do
  require (n ≤ CAPACITY)
  let b ← buffer
  onStorage (fillEach (some b) n x₀)
  create c ⟨b, n⟩

/-- The destructor. The buffer goes with the object. -/
def destruct (c : C) : Fallible (Store C (Array CAPACITY) V) Unit := Store.destruct c

/-- `Array(const Array &other)`. -/
def copyInit (c other : C) : Fallible (Store C (Array CAPACITY) V) Unit := do
  let o ← members other
  let b ← buffer
  onStorage (copyEach (some o.data) (some b) o.size)
  create c ⟨b, o.size⟩

/-- A write to `size_`. -/
def resize (a : Array CAPACITY) (size : ℕ) : Array CAPACITY := { a with size := size }

/-- `operator=(const Array &other)`. -/
def copyAssign (c other : C) : Fallible (Store C (Array CAPACITY) V) Unit :=
  if c = other then pure ()
  else do
    destroyAll c
    let a ← members c
    let o ← members other
    setMembers c (a.resize o.size)
    onStorage (copyEach (some o.data) (some a.data) o.size)

/-- The loop that moves the elements of `other`, `other.destroy_all()` and `other.size_ = 0`. -/
def moveFrom (other : C) (data : ℕ) : Fallible (Store C (Array CAPACITY) V) Unit := do
  let o ← members other
  onStorage (moveEach moved (some o.data) id (some data) o.size)
  destroyAll other
  setMembers other (o.resize 0)

/-- `Array(Array &&other)`. -/
def moveInit (c other : C) : Fallible (Store C (Array CAPACITY) V) Unit := do
  let o ← members other
  let b ← buffer
  moveFrom moved other b
  create c ⟨b, o.size⟩

/-- `operator=(Array &&other)`. -/
def moveAssign (c other : C) : Fallible (Store C (Array CAPACITY) V) Unit :=
  if c = other then pure ()
  else do
    destroyAll c
    let a ← members c
    let o ← members other
    setMembers c (a.resize o.size)
    moveFrom moved other a.data

/-- `operator[]`. -/
def subscript (c : C) (i : ℕ) : Fallible (Store C (Array CAPACITY) V) (Arg V) := Store.subscript c i

/-- `push_back(const T &)`. -/
def pushBack (c : C) (value : Arg V) : Fallible (Store C (Array CAPACITY) V) Unit := do
  let a ← members c
  require (a.size < CAPACITY)
  append tryConstructAt resize value.load c

/-- `push_back(T &&)`. -/
def pushBackMove (c : C) (value : Arg V) : Fallible (Store C (Array CAPACITY) V) Unit := do
  let a ← members c
  require (a.size < CAPACITY)
  append constructAt resize (value.take moved) c

/-- `emplace_back`. -/
def emplaceBack (c : C) (make : List V → V) (args : List (Forward (Arg V))) :
    Fallible (Store C (Array CAPACITY) V) (Arg V) := do
  let a ← members c
  require (a.size < CAPACITY)
  append tryConstructAt resize (do
    let xs ← mapEach (Forward.read moved) args
    pure (make xs)) c
  pure (.slot (some a.data) a.size)

/-- `pop_back`. -/
def popBack (c : C) : Fallible (Store C (Array CAPACITY) V) Unit := Store.popBack resize c

/-- `clear`. -/
def clear (c : C) : Fallible (Store C (Array CAPACITY) V) Unit := Store.clear resize c

/-- The member functions. -/
def functions : Sequence C (Array CAPACITY) V where
  init := init
  initSize := initSize x₀
  copyInit := copyInit
  moveInit := moveInit moved
  copyAssign := copyAssign
  moveAssign := moveAssign moved
  destruct := destruct
  pushBack := pushBack
  pushBackMove := pushBackMove moved
  emplaceBack := emplaceBack moved
  popBack := popBack
  clear := clear
  subscript := subscript

/-! ## What the calls do -/

variable {moved x₀} {s : Store C (Array CAPACITY) V} {ref ref' : C → Option (List V)} {c other : C}
  {a o : Array CAPACITY} {w : ℕ → Option (Block V)} {object : C → Option (Array CAPACITY)}
  {l l' : List V} {x : V} {n : ℕ} {env : Environment}

/-- A write to `size_` changes nothing else. -/
theorem resizes : Resizes (resize : Array CAPACITY → ℕ → Array CAPACITY) :=
  ⟨fun _ _ => rfl, fun _ _ => rfl, fun _ _ => rfl, fun _ _ => rfl⟩

omit [DecidableEq C] in
/-- The buffer of a new object is a new block of `CAPACITY` slots. -/
theorem buffer_meets {E : Store C (Array CAPACITY) V → Prop} {U : Prop} (hs : s.Is w object) :
    buffer.Meets env n s (fun b _ s' => New w (some b) CAPACITY ∧
      s'.Is (update w (some b) (some (.raw CAPACITY))) object) E U := by
  obtain ⟨⟨h, rfl⟩, rfl⟩ := hs
  have hact : (fun m : Storage V => some (m.next, m.allocate CAPACITY)) s.storage =
      some (s.storage.next, s.storage.allocate CAPACITY) := rfl
  obtain ⟨hbalanced, hview⟩ := allocate_spec h CAPACITY
  rw [buffer, onStorage, meets_zoom, meets_act hact]
  refine ⟨⟨fun b hb => ?_, fun hb => ?_⟩, ⟨hbalanced, hview⟩, rfl⟩
  · cases hb
    exact view_next h
  · cases hb

/-- `Array()`. -/
theorem init_meets (h : s.Inv ref) (hc : s.object c = none) :
    (init c).Meets env n s (fun _ _ s' => s'.Inv (Function.update ref c (some [])))
      (fun _ => env.Fails) False := by
  rw [init, meets_bind]
  refine (buffer_meets h.is).mono fun b _ s₁ hs₁ => ?_
  obtain ⟨hnew, hs₁⟩ := hs₁
  refine (create_meets hs₁ hc).mono fun _ _ s₂ hs₂ => hs₂.inv ?_
  exact hnew.owned h.owned hc rfl ⟨rfl, Nat.zero_le _, Nat.le_refl _, hnew.holds⟩

/-- `Array(size_t n)`. -/
theorem initSize_meets {k : ℕ} (h : s.Inv ref) (hc : s.object c = none) (hk : k ≤ CAPACITY) :
    (initSize x₀ c k).Meets env n s
      (fun _ _ s' => s'.Inv (Function.update ref c (some (List.replicate k x₀))))
      (fun _ => env.Fails)
      False := by
  simp only [initSize, meets_bind]
  rw [meets_require hk]
  refine (buffer_meets h.is).mono fun b _ s₁ hs₁ => ?_
  obtain ⟨hnew, hs₁⟩ := hs₁
  refine (onStorage_meets hs₁ (hnew.holds.fillEach hs₁.storage hk fun _ henv => henv)).mono
    fun _ _ s₂ hs₂ => ?_
  obtain ⟨hm₂, hobject₂⟩ := hs₂
  rw [update_update] at hm₂
  refine (create_meets ⟨hm₂, hobject₂⟩ hc).mono fun _ _ s₃ hs₃ => hs₃.inv ?_
  have hlen : (List.replicate k x₀).length = k := List.length_replicate
  exact hnew.owned h.owned hc rfl
    (hnew.shows_ofList rfl hlen.symm rfl rfl (hlen.symm ▸ hk) (Nat.le_refl _))

/-- `Array(const Array &other)`. -/
theorem copyInit_meets (h : s.Inv ref) (hc : s.object c = none) (hl : ref other = some l) :
    (copyInit c other).Meets env n s (fun _ _ s' => s'.Inv (Function.update ref c (some l)))
      (fun _ => env.Fails) False := by
  obtain ⟨o, ho⟩ := h.exists_object hl
  obtain ⟨l', hl', hshows⟩ := h.owned.shows ho
  cases hl.symm.trans hl'
  have hsize : o.size = l.length := hshows.size_eq
  have hle : l.length ≤ CAPACITY := hsize ▸ hshows.size_le
  simp only [copyInit, meets_bind]
  rw [members_meets h.is ho]
  refine (buffer_meets h.is).mono fun b _ s₁ hs₁ => ?_
  obtain ⟨hnew, hs₁⟩ := hs₁
  refine (onStorage_meets hs₁
    (hnew.copyEach hs₁.storage hshows rfl hle fun _ _ _ henv _ => henv)).mono
    fun _ _ s₂ hs₂ => ?_
  refine (create_meets ⟨hs₂.1, hs₂.2⟩ hc).mono fun _ _ s₃ hs₃ => hs₃.inv ?_
  exact hnew.owned h.owned hc rfl (hnew.shows_ofList rfl hsize rfl rfl hle (Nat.le_refl _))

/-- A copy assignment fails in the copy of an element, when `size_` counts elements that are not
there. -/
theorem copyAssign_meets (h : s.Inv ref) (hc : s.object c = some a) (ho : s.object other = some o)
    (hl : ref other = some l) (hne : c ≠ other) :
    (copyAssign c other).Meets env n s (fun _ _ s' => s'.Inv (Function.update ref c (some l)))
      (fun s' => env.Fails ∧ ∃ j < l.length,
        s'.Is (update s.storage.view (some a.data) (some (.ofList CAPACITY (l.take j))))
          (Function.update s.object c (some (a.resize o.size)))) False := by
  obtain ⟨lc, -, hshowsc⟩ := h.owned.shows hc
  obtain ⟨hdrop, hshows⟩ := h.others hc ho hl hne
  have hnew : New (update s.storage.view (some a.data) none) (some a.data) CAPACITY :=
    ⟨fun _ hb => update_self hb, fun hb => by cases hb⟩
  have hsize : o.size = l.length := hshows.size_eq
  have hle : l.length ≤ CAPACITY := hsize ▸ hshows.size_le
  simp only [copyAssign, if_neg hne, meets_bind]
  refine (destroyAll_meets h.is hc hshowsc.size_eq distinct_id hshowsc.holds).mono
    fun _ _ s₁ hs₁ => ?_
  obtain ⟨-, hs₁⟩ := hs₁
  rw [members_meets hs₁ hc, members_meets hs₁ ho]
  refine (setMembers_meets hs₁ hc).mono fun _ _ s₂ hs₂ => ?_
  have hm₂ : s₂.storage.Is (update (update s.storage.view (some a.data) none) (some a.data)
      (some (.raw CAPACITY))) := by
    rw [update_update]
    exact hs₂.storage
  refine (onStorage_meets hs₂ (hnew.copyEach hm₂ hshows rfl hle fun j hj m' hfails hm' =>
    ⟨hfails, j, hj, update_update ▸ hm', hs₂.object_eq⟩)).mono fun _ _ s₃ hs₃ => ?_
  have howned := hnew.owned hdrop (x := a.resize o.size) (Function.update_self ..) rfl
    (hnew.shows_ofList rfl hsize rfl rfl hle (Nat.le_refl _))
  rw [Function.update_idem, Function.update_idem] at howned
  exact Is.inv ⟨hs₃.1, hs₃.2⟩ howned

/-- After a copy assignment that failed, not even the destructor can be called. -/
theorem copyAssign_thrown {s' : Store C (Array CAPACITY) V} (h : s.Inv ref)
    (hc : s.object c = some a)
    (ho : s.object other = some o) (hthrown : copyAssign c other env n s = .thrown s') :
    (∃ a', s'.object c = some a') ∧ ∀ env k, destruct c env k s' = .undefined := by
  have hne : c ≠ other := by
    rintro rfl
    rw [copyAssign, if_pos rfl] at hthrown
    cases hthrown
  obtain ⟨l, hl, hshows⟩ := h.owned.shows ho
  obtain ⟨-, j, hj, hs'⟩ := (copyAssign_meets h hc ho hl hne).thrown hthrown
  have hc' := congrFun hs'.object_eq c
  rw [Function.update_self] at hc'
  exact ⟨⟨_, hc'⟩, fun _ _ =>
    destruct_missing hc' (hj.trans_eq hshows.size_eq.symm) (valueAt_take hs'.storage)⟩

/-- The elements of `other` are moved to the buffer, and `other` is empty. -/
theorem moveFrom_meets {b : ℕ} {E : Store C (Array CAPACITY) V → Prop} {U : Prop}
    (hs : s.Is (Function.update w b (some (.raw CAPACITY))) object) (ho : object other = some o)
    (hshows : Shows w o l) (hne : o.data ≠ b) : (moveFrom moved other b).Meets env n s
      (fun _ _ s' => s'.Is (Function.update (Function.update w b (some (.ofList CAPACITY l))) o.data
        (some (.raw CAPACITY))) (Function.update object other (some (o.resize 0)))) E U := by
  have hne' : some o.data ≠ some b := fun he => hne (Option.some.inj he)
  have hsize : o.size = l.length := hshows.size_eq
  have hle : l.length ≤ CAPACITY := hsize ▸ hshows.size_le
  have hshows' : Shows (Function.update w b (some (.raw CAPACITY))) o l :=
    hshows.congr fun b' hb' =>
      Function.update_of_ne (fun he => hne' (hb'.trans (congrArg some he))) ..
  simp only [moveFrom, meets_bind]
  rw [members_meets hs ho, hsize]
  refine (onStorage_meets hs (hshows'.holds.moveEach hs.storage distinct_id
    (Function.update_self ..)
    hne' hle)).mono fun _ _ s₁ hs₁ => ?_
  obtain ⟨⟨l', w', hlen, hm₁, hholds, hw'⟩, hobject₁⟩ := hs₁
  refine (destroyAll_meets ⟨hm₁, hobject₁⟩ ho (hsize.trans hlen.symm) distinct_id hholds).mono
    fun _ _ s₂ hs₂ => ?_
  obtain ⟨-, hs₂⟩ := hs₂
  rw [hw', Function.update_idem] at hs₂
  exact setMembers_meets hs₂ ho

/-- The array that was moved from. -/
theorem owned_movedFrom (h : s.Inv ref) (ho : s.object other = some o) :
    Owned (Function.update s.storage.view o.data (some (.raw CAPACITY)))
      (Function.update s.object other (some (o.resize 0)))
      (Function.update ref other (some [])) := by
  obtain ⟨l, -, hshows⟩ := h.owned.shows ho
  exact h.owned.inPlace ho ⟨rfl, Nat.zero_le _, Nat.le_refl _, hshows.holds.emptied⟩ rfl fun _ hb =>
    update_of_ne hb

/-- `Array(Array &&other)`. -/
theorem moveInit_meets (h : s.Inv ref) (hc : s.object c = none) (hl : ref other = some l) :
    (moveInit moved c other).Meets env n s
      (fun _ _ s' => s'.Inv (Function.update (Function.update ref other (some [])) c (some l)))
      (fun _ => env.Fails) False := by
  obtain ⟨o, ho⟩ := h.exists_object hl
  obtain ⟨l', hl', hshows⟩ := h.owned.shows ho
  cases hl.symm.trans hl'
  have hne : c ≠ other := by
    rintro rfl
    cases hc.symm.trans ho
  have hsize : o.size = l.length := hshows.size_eq
  have hle : l.length ≤ CAPACITY := hsize ▸ hshows.size_le
  simp only [moveInit, meets_bind]
  rw [members_meets h.is ho]
  refine (buffer_meets h.is).mono fun b _ s₁ hs₁ => ?_
  obtain ⟨hnew, hs₁⟩ := hs₁
  have hb : o.data ≠ b := fun he =>
    hshows.block_ne_none (congrArg some he) (hnew.unused b rfl)
  refine (moveFrom_meets hs₁ ho hshows hb).mono
    fun _ _ s₂ hs₂ => ?_
  refine (create_meets hs₂ (by rw [Function.update_of_ne hne, hc])).mono
    fun _ _ s₃ hs₃ => hs₃.inv ?_
  have hnew' : New (Function.update s.storage.view o.data (some (.raw CAPACITY)))
    (some b) CAPACITY :=
    ⟨fun _ hb' => by
      cases hb'
      rw [Function.update_of_ne hb.symm, hnew.unused b rfl], fun hb' => by cases hb'⟩
  have howned := hnew'.owned (x := ⟨b, o.size⟩) (owned_movedFrom h ho)
    (by rw [Function.update_of_ne hne, hc]) rfl
    (hnew'.shows_ofList rfl hsize rfl rfl hle (Nat.le_refl _))
  rw [update, Function.update_comm hb] at howned
  exact howned

/-- `operator=(Array &&other)` between two arrays. -/
theorem moveAssign_meets (h : s.Inv ref) (hc : s.object c = some a) (hl : ref other = some l)
    (hne : c ≠ other) : (moveAssign moved c other).Meets env n s
      (fun _ _ s' => s'.Inv (Function.update (Function.update ref other (some [])) c (some l)))
      (fun _ => env.Fails) False := by
  obtain ⟨o, ho⟩ := h.exists_object hl
  obtain ⟨lc, -, hshowsc⟩ := h.owned.shows hc
  obtain ⟨l', hl', hshows⟩ := h.owned.shows ho
  cases hl.symm.trans hl'
  have hsize : o.size = l.length := hshows.size_eq
  have hle : l.length ≤ CAPACITY := hsize ▸ hshows.size_le
  have hdata : o.data ≠ a.data := fun he =>
    hne (h.owned.unique hc ho rfl (congrArg some he))
  simp only [moveAssign, if_neg hne, meets_bind]
  refine (destroyAll_meets h.is hc hshowsc.size_eq distinct_id hshowsc.holds).mono
    fun _ _ s₁ hs₁ => ?_
  obtain ⟨-, hs₁⟩ := hs₁
  rw [members_meets hs₁ hc, members_meets hs₁ ho]
  refine (setMembers_meets hs₁ hc).mono fun _ _ s₂ hs₂ => ?_
  refine (moveFrom_meets (l := l) hs₂ (by rw [Function.update_of_ne hne.symm, ho])
    hshows hdata).mono fun _ _ s₃ hs₃ => hs₃.inv ?_
  have hshows' : Shows (Function.update (Function.update s.storage.view o.data
      (some (.raw CAPACITY))) a.data (some (.ofList CAPACITY l))) (a.resize o.size) l :=
    ⟨hsize, hsize ▸ hle, Nat.le_refl _, _, Function.update_self .., rfl, filled_ofList⟩
  have howned := (owned_movedFrom h ho).inPlace (c := c) (s := a)
    (by rw [Function.update_of_ne hne, hc]) hshows' rfl
    fun b hb => Function.update_of_ne (fun he => hb (congrArg some he.symm)) ..
  rw [Function.update_comm hdata, Function.update_comm hne.symm] at howned
  exact howned

omit [DecidableEq C] in
/-- An array whose list may get longer has room. -/
theorem size_lt {ref₁ : C → Option (List V)} (hk : decide (l.length + 1 ≤ CAPACITY) = true)
    (h : s.Inv ref) (hc : s.object c = some a)
    (hlength : (ref₁ c).map List.length = (ref c).map List.length) (hl : ref₁ c = some l) :
    a.size < CAPACITY := by
  obtain ⟨l₀, hl₀, hlen⟩ := exists_of_length hlength hl
  obtain ⟨l', hl', hshows⟩ := h.owned.shows hc
  cases hl₀.symm.trans hl'
  have hsize : a.size = l.length := hshows.size_eq.trans hlen
  exact hsize ▸ of_decide_eq_true hk

/-- The member functions do to the lists what the calls do. An element stays where it is, so it may
be an argument. -/
theorem refines : (functions moved x₀ : Sequence C (Array CAPACITY) V).Refines moved x₀
    (fun n => decide (n ≤ CAPACITY)) fun _ _ => True where
  init h hc _ _ _ := init_meets h hc
  initSize h hc hk _ _ _ := initSize_meets h hc (of_decide_eq_true hk)
  copyInit h hc hl _ _ _ := copyInit_meets h hc hl
  moveInit h hc hl _ _ := moveInit_meets h hc hl
  copyAssign h hc hl hne _ _ _ := by
    obtain ⟨o, ho⟩ := h.exists_object hl
    exact (copyAssign_meets h hc ho hl hne).weaken fun _ => And.left
  copyAssign_self _ := if_pos rfl
  moveAssign h hc hl hne _ _ := moveAssign_meets h hc hl hne
  moveAssign_self _ := if_pos rfl
  destruct h hc _ _ := (destruct_meets h hc).mono fun _ _ _ => And.left
  pushBack h hc hr hread hl hk _ _ _ := by
    have hroom := size_lt hk h hc (onLists_length hread _) hl
    simp only [functions, pushBack, meets_bind]
    rw [members_meets h.is hc, meets_require hroom]
    exact (append_meets constructs_tryConstructAt resizes hc hl hroom
      (h.read_meets (.copy hr) hread)).mono fun _ _ _ => And.left
  pushBackMove h hc hr hread hl hk _ _ _ := by
    have hroom := size_lt hk h hc (onLists_length hread _) hl
    simp only [functions, pushBackMove, meets_bind]
    rw [members_meets h.is hc, meets_require hroom]
    exact (append_meets constructs_constructAt resizes hc hl hroom
      (h.read_meets (.move hr) hread)).mono fun _ _ _ => And.left
  emplaceBack := by
    intro s ref ref₁ c a l make args rs xs h hc hrs hread hl hk _ env n
    have hroom := size_lt hk h hc (readOnLists_length c hread) hl
    simp only [functions, emplaceBack, meets_bind]
    rw [members_meets h.is hc, meets_require hroom]
    refine (append_meets (v := make xs) constructs_tryConstructAt resizes hc hl hroom
      (meets_bind.2 ((h.readAll_meets hrs rfl hread).mono fun ys _ m hm => ?_))).mono
      fun _ _ _ => And.left
    obtain ⟨rfl, h₁⟩ := hm
    exact ⟨rfl, h₁⟩
  popBack h hc hl _ _ := popBack_meets resizes h hc hl
  clear h hc _ _ := clear_meets resizes h hc
  subscript := rfl
  slot _ := rfl

end Array

end RockCoro
