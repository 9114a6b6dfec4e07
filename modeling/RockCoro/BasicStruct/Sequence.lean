import RockCoro.Lib.Arguments

/-!
# What `Vector` and `Array` have in common

The member functions of the two classes, over any number of containers `C`, and what they do to
lists. The arguments of a call may be elements of the containers, also of the one that is called. A
call is possible if the containers that it works on exist, those that it constructs do not, the
elements that it is given exist, and the lists that it makes longer fit. Containers whose functions
do one by one what the calls do to lists, under the condition `safe`, are lists after any calls that
meet it (`Refines.run`).
-/

namespace RockCoro

open Fallible Store Storage Container

variable {C S V : Type}

/-- The member functions. -/
structure Sequence (C S V : Type) where
  /-- The default constructor. -/
  init (c : C) : Fallible (Store C S V) Unit
  /-- The constructor from a size. -/
  initSize (c : C) (n : ℕ) : Fallible (Store C S V) Unit
  copyInit (c other : C) : Fallible (Store C S V) Unit
  moveInit (c other : C) : Fallible (Store C S V) Unit
  copyAssign (c other : C) : Fallible (Store C S V) Unit
  moveAssign (c other : C) : Fallible (Store C S V) Unit
  destruct (c : C) : Fallible (Store C S V) Unit
  /-- `push_back(const T &)`. -/
  pushBack (c : C) (value : Arg V) : Fallible (Store C S V) Unit
  /-- `push_back(T &&)`. -/
  pushBackMove (c : C) (value : Arg V) : Fallible (Store C S V) Unit
  /-- `make` is what the constructor of `T` makes of the values of the arguments. -/
  emplaceBack (c : C) (make : List V → V) (args : List (Forward (Arg V))) :
    Fallible (Store C S V) (Arg V)
  popBack (c : C) : Fallible (Store C S V) Unit
  clear (c : C) : Fallible (Store C S V) Unit
  /-- `operator[]`. -/
  subscript (c : C) (i : ℕ) : Fallible (Store C S V) (Arg V)

/-- A call of a member function. -/
inductive SequenceCall (C V : Type)
  | init (c : C)
  | initSize (c : C) (n : ℕ)
  | copyInit (c other : C)
  | moveInit (c other : C)
  | copyAssign (c other : C)
  | moveAssign (c other : C)
  | destruct (c : C)
  | pushBack (c : C) (value : Argument C V)
  | pushBackMove (c : C) (value : Argument C V)
  | emplaceBack (c : C) (make : List V → V) (args : List (Forward (Argument C V)))
  | popBack (c : C)
  | clear (c : C)

namespace Sequence

/-- The reference that the caller passes for an argument: `operator[]` answers those to elements. -/
def refer (f : Sequence C S V) : Argument C V → Fallible (Store C S V) (Arg V)
  | .value x => pure (.value x)
  | .element d i => f.subscript d i

/-- The reference that the caller passes on for an argument. -/
def forward (f : Sequence C S V) :
    Forward (Argument C V) → Fallible (Store C S V) (Forward (Arg V))
  | .copy a => do
    let r ← f.refer a
    pure (.copy r)
  | .move a => do
    let r ← f.refer a
    pure (.move r)

/-- A call, after its arguments. -/
def call (f : Sequence C S V) : SequenceCall C V → Fallible (Store C S V) Unit
  | .init c => f.init c
  | .initSize c n => f.initSize c n
  | .copyInit c other => f.copyInit c other
  | .moveInit c other => f.moveInit c other
  | .copyAssign c other => f.copyAssign c other
  | .moveAssign c other => f.moveAssign c other
  | .destruct c => f.destruct c
  | .pushBack c a => do
    let r ← f.refer a
    f.pushBack c r
  | .pushBackMove c a => do
    let r ← f.refer a
    f.pushBackMove c r
  | .emplaceBack c make args => do
    let rs ← mapEach f.forward args
    let _ ← f.emplaceBack c make rs
    pure ()
  | .popBack c => f.popBack c
  | .clear c => f.clear c

/-- One call after another. -/
def run (f : Sequence C S V) (calls : List (SequenceCall C V)) : Fallible (Store C S V) Unit :=
  runAll f.call calls

end Sequence

variable [DecidableEq C]

/-- The call on lists, with `x₀` for `T()` and `moved` for what a constructor leaves of an object
that it moves from. -/
def SequenceCall.onLists (moved : V → V) (x₀ : V) (fits : ℕ → Bool) (ref : C → Option (List V)) :
    SequenceCall C V → Option (C → Option (List V))
  | init c => if (ref c).isNone then some (Function.update ref c (some [])) else none
  | initSize c n =>
    if (ref c).isNone && fits n then some (Function.update ref c (some (List.replicate n x₀)))
    else none
  | copyInit c other => do
    let l ← ref other
    if (ref c).isNone then some (Function.update ref c (some l)) else none
  | moveInit c other => do
    let l ← ref other
    if (ref c).isNone then
      some (Function.update (Function.update ref other (some [])) c (some l))
    else none
  | copyAssign c other => do
    let _ ← ref c
    let l ← ref other
    some (Function.update ref c (some l))
  | moveAssign c other => do
    let _ ← ref c
    let l ← ref other
    if c = other then some ref
    else some (Function.update (Function.update ref other (some [])) c (some l))
  | destruct c => (ref c).map fun _ => Function.update ref c none
  | pushBack c a => appendOnLists fits c ((Forward.copy a).onLists moved ref)
  | pushBackMove c a => appendOnLists fits c ((Forward.move a).onLists moved ref)
  | emplaceBack c make args =>
    appendOnLists fits c ((readOnLists moved args ref).map fun (xs, ref) => (make xs, ref))
  | popBack c => do
    let l ← ref c
    if l.isEmpty then none else some (Function.update ref c (some l.dropLast))
  | clear c => (ref c).map fun _ => Function.update ref c (some [])

namespace Sequence

variable [Container S] {f : Sequence C S V} {moved : V → V} {x₀ : V} {fits : ℕ → Bool}
  {safe : Store C S V → SequenceCall C V → Prop} {s : Store C S V}
  {ref ref' : C → Option (List V)} {c other : C} {x : S} {l : List V} {n : ℕ} {env : Environment}

/-- Unless a step throws, `p` leaves the containers in order, with the elements `ref`. -/
def Leads {α : Type} (p : Fallible (Store C S V) α) (s : Store C S V) (ref : C → Option (List V)) :
    Prop :=
  ∀ env n, p.Meets env n s (fun _ _ s' => s'.Inv ref) (fun _ => env.Fails) False

/-- The functions do what the calls do to lists, if these are `safe`. -/
structure Refines (f : Sequence C S V) (moved : V → V) (x₀ : V) (fits : ℕ → Bool)
    (safe : Store C S V → SequenceCall C V → Prop) : Prop where
  init : ∀ {s ref c}, s.Inv ref → s.object c = none → safe s (.init c) →
    Leads (f.init c) s (Function.update ref c (some []))
  initSize : ∀ {s ref c k}, s.Inv ref → s.object c = none → fits k = true →
    safe s (.initSize c k) →
    Leads (f.initSize c k) s (Function.update ref c (some (List.replicate k x₀)))
  copyInit : ∀ {s ref c other l}, s.Inv ref → s.object c = none → ref other = some l →
    safe s (.copyInit c other) → Leads (f.copyInit c other) s (Function.update ref c (some l))
  moveInit : ∀ {s ref c other l}, s.Inv ref → s.object c = none → ref other = some l →
    Leads (f.moveInit c other) s (Function.update (Function.update ref other (some [])) c (some l))
  copyAssign : ∀ {s ref c other x l}, s.Inv ref → s.object c = some x → ref other = some l →
    c ≠ other → safe s (.copyAssign c other) →
    Leads (f.copyAssign c other) s (Function.update ref c (some l))
  copyAssign_self : ∀ c, f.copyAssign c c = pure ()
  moveAssign : ∀ {s ref c other x l}, s.Inv ref → s.object c = some x → ref other = some l →
    c ≠ other → Leads (f.moveAssign c other) s
      (Function.update (Function.update ref other (some [])) c (some l))
  moveAssign_self : ∀ c, f.moveAssign c c = pure ()
  destruct : ∀ {s ref c x}, s.Inv ref → s.object c = some x →
    Leads (f.destruct c) s (Function.update ref c none)
  pushBack : ∀ {s ref ref₁ c x l a r v}, s.Inv ref → s.object c = some x → Refers s.object a r →
    (Forward.copy a).onLists moved ref = some (v, ref₁) → ref₁ c = some l →
    fits (l.length + 1) = true → safe s (.pushBack c a) →
    Leads (f.pushBack c r) s (Function.update ref₁ c (some (l ++ [v])))
  pushBackMove : ∀ {s ref ref₁ c x l a r v}, s.Inv ref → s.object c = some x →
    Refers s.object a r → (Forward.move a).onLists moved ref = some (v, ref₁) →
    ref₁ c = some l → fits (l.length + 1) = true → safe s (.pushBackMove c a) →
    Leads (f.pushBackMove c r) s (Function.update ref₁ c (some (l ++ [v])))
  emplaceBack : ∀ {s ref ref₁ c x l make args rs xs}, s.Inv ref → s.object c = some x →
    List.Forall₂ (Forward.Refers s.object) args rs →
    readOnLists moved args ref = some (xs, ref₁) → ref₁ c = some l →
    fits (l.length + 1) = true → safe s (.emplaceBack c make args) →
    Leads (f.emplaceBack c make rs) s (Function.update ref₁ c (some (l ++ [make xs])))
  popBack : ∀ {s ref c x l v}, s.Inv ref → s.object c = some x → ref c = some (l ++ [v]) →
    Leads (f.popBack c) s (Function.update ref c (some l))
  clear : ∀ {s ref c x}, s.Inv ref → s.object c = some x →
    Leads (f.clear c) s (Function.update ref c (some []))
  subscript : f.subscript = Store.subscript
  slot : ∀ x : S, slot x = id

/-- The reference for an argument that exists. -/
theorem Refines.refer {a : Argument C V} (hf : f.Refines moved x₀ fits safe) (h : s.Inv ref)
    (ha : (a.get ref).isSome = true) :
    (f.refer a).Meets env n s (fun r _ s' => Refers s.object a r ∧ s' = s) (fun _ => env.Fails)
      False := by
  cases a with
  | value x => exact ⟨rfl, rfl⟩
  | element d i =>
    obtain ⟨v, hv⟩ := Option.isSome_iff_exists.1 ha
    obtain ⟨l, hl, hi⟩ := Option.bind_eq_some_iff.1 hv
    obtain ⟨y, hd⟩ := h.exists_object hl
    obtain ⟨l', hl', hshows⟩ := h.owned.shows hd
    cases hl.symm.trans hl'
    have hlt : i < size y := (List.getElem?_eq_some_iff.1 hi).1.trans_eq hshows.size_eq.symm
    rw [Sequence.refer, hf.subscript, Store.subscript, meets_bind, members_meets h.is hd,
      meets_bind, meets_require hlt, meets_pure]
    exact ⟨⟨y, hd, rfl⟩, rfl⟩

/-- The references for the arguments of a constructor. -/
theorem Refines.forward {args : List (Forward (Argument C V))}
    (hf : f.Refines moved x₀ fits safe) (h : s.Inv ref)
    (hargs : ∀ a ∈ args, (a.argument.get ref).isSome = true) :
    ∀ {n}, (mapEach f.forward args).Meets env n s
      (fun rs _ s' => List.Forall₂ (Forward.Refers s.object) args rs ∧ s' = s)
      (fun _ => env.Fails) False := by
  induction args with
  | nil => exact ⟨.nil, rfl⟩
  | cons a args ih =>
    intro n
    have hfirst : (f.forward a).Meets env n s (fun r _ s' => a.Refers s.object r ∧ s' = s)
        (fun _ => env.Fails) False := by
      have ha := hargs a List.mem_cons_self
      cases a with
      | copy a =>
        rw [Sequence.forward, meets_bind]
        exact (hf.refer h ha).mono fun _ _ _ hr => ⟨.copy hr.1, hr.2⟩
      | move a =>
        rw [Sequence.forward, meets_bind]
        exact (hf.refer h ha).mono fun _ _ _ hr => ⟨.move hr.1, hr.2⟩
    rw [mapEach, meets_bind]
    refine hfirst.mono fun r _ s₁ hr => ?_
    obtain ⟨hr, rfl⟩ := hr
    rw [meets_bind]
    refine (ih fun a ha => hargs a (List.mem_cons_of_mem _ ha)).mono fun rs _ s₂ hrs => ?_
    obtain ⟨hrs, rfl⟩ := hrs
    exact ⟨.cons hr hrs, rfl⟩

/-- A safe call does what it does to lists. -/
theorem Refines.call {e : SequenceCall C V} (hf : f.Refines moved x₀ fits safe) (h : s.Inv ref)
    (he : e.onLists moved x₀ fits ref = some ref') (hsafe : safe s e) :
    Leads (f.call e) s ref' := by
  have hnone : ∀ {c}, (ref c).isNone = true → s.object c = none := fun hc =>
    h.object_eq_none (Option.isNone_iff_eq_none.1 hc)
  cases e with
  | init c =>
    rw [SequenceCall.onLists] at he
    split at he
    · cases he
      exact hf.init h (hnone ‹_›) hsafe
    · cases he
  | initSize c k =>
    rw [SequenceCall.onLists] at he
    split at he
    · rename_i hk
      cases he
      rw [Bool.and_eq_true] at hk
      exact hf.initSize h (hnone hk.1) hk.2 hsafe
    · cases he
  | copyInit c other =>
    obtain ⟨l, hl, he⟩ := Option.bind_eq_some_iff.1 he
    split at he
    · cases he
      exact hf.copyInit h (hnone ‹_›) hl hsafe
    · cases he
  | moveInit c other =>
    obtain ⟨l, hl, he⟩ := Option.bind_eq_some_iff.1 he
    split at he
    · cases he
      exact hf.moveInit h (hnone ‹_›) hl
    · cases he
  | copyAssign c other =>
    obtain ⟨lc, hlc, he⟩ := Option.bind_eq_some_iff.1 he
    obtain ⟨l, hl, he⟩ := Option.bind_eq_some_iff.1 he
    cases he
    obtain ⟨x, hc⟩ := h.exists_object hlc
    by_cases hne : c = other
    · subst hne
      rw [Sequence.call, hf.copyAssign_self, ← hl, Function.update_eq_self]
      exact fun _ _ => h
    · exact hf.copyAssign h hc hl hne hsafe
  | moveAssign c other =>
    obtain ⟨lc, hlc, he⟩ := Option.bind_eq_some_iff.1 he
    obtain ⟨l, hl, he⟩ := Option.bind_eq_some_iff.1 he
    obtain ⟨x, hc⟩ := h.exists_object hlc
    split at he
    · rename_i heq
      cases he
      rw [Sequence.call, heq, hf.moveAssign_self]
      exact fun _ _ => h
    · cases he
      exact hf.moveAssign h hc hl ‹_›
  | destruct c =>
    obtain ⟨l, hl, rfl⟩ := Option.map_eq_some_iff.1 he
    obtain ⟨x, hc⟩ := h.exists_object hl
    exact hf.destruct h hc
  | pushBack c a =>
    obtain ⟨v, ref₁, l, hread, hl, hk, rfl⟩ := appendOnLists_eq_some he
    obtain ⟨l', hl', -⟩ := exists_of_length (onLists_length hread c) hl
    obtain ⟨x, hc⟩ := h.exists_object hl'
    obtain ⟨y, hy, -⟩ := Option.map_eq_some_iff.1 hread
    intro env n
    rw [Sequence.call, meets_bind]
    refine (hf.refer h (Option.isSome_iff_exists.2 ⟨y, hy⟩)).mono fun r n₁ s₁ hr => ?_
    obtain ⟨hr, rfl⟩ := hr
    exact hf.pushBack h hc hr hread hl hk hsafe env n₁
  | pushBackMove c a =>
    obtain ⟨v, ref₁, l, hread, hl, hk, rfl⟩ := appendOnLists_eq_some he
    obtain ⟨l', hl', -⟩ := exists_of_length (onLists_length hread c) hl
    obtain ⟨x, hc⟩ := h.exists_object hl'
    obtain ⟨y, hy, -⟩ := Option.map_eq_some_iff.1 hread
    intro env n
    rw [Sequence.call, meets_bind]
    refine (hf.refer h (Option.isSome_iff_exists.2 ⟨y, hy⟩)).mono fun r n₁ s₁ hr => ?_
    obtain ⟨hr, rfl⟩ := hr
    exact hf.pushBackMove h hc hr hread hl hk hsafe env n₁
  | emplaceBack c make args =>
    obtain ⟨v, ref₁, l, hread, hl, hk, rfl⟩ := appendOnLists_eq_some he
    obtain ⟨⟨xs, ref₂⟩, hread, ⟨⟩⟩ := Option.map_eq_some_iff.1 hread
    obtain ⟨l', hl', -⟩ := exists_of_length (readOnLists_length c hread) hl
    obtain ⟨x, hc⟩ := h.exists_object hl'
    intro env n
    rw [Sequence.call, meets_bind]
    refine (hf.forward h (get_isSome_of_readOnLists hread)).mono fun rs n₁ s₁ hrs => ?_
    obtain ⟨hrs, rfl⟩ := hrs
    exact meets_bind.2 (hf.emplaceBack h hc hrs hread hl hk hsafe env n₁)
  | popBack c =>
    obtain ⟨l, hl, he⟩ := Option.bind_eq_some_iff.1 he
    obtain ⟨x, hc⟩ := h.exists_object hl
    split at he
    · cases he
    · rename_i hnil
      cases he
      have hne : l ≠ [] := fun he => hnil (List.isEmpty_iff.2 he)
      exact hf.popBack h hc ((List.dropLast_append_getLast hne).symm ▸ hl)
  | clear c =>
    obtain ⟨l, hl, rfl⟩ := Option.map_eq_some_iff.1 he
    obtain ⟨x, hc⟩ := h.exists_object hl
    exact hf.clear h hc

/-- The containers are in order after every sequence of safe calls that is possible for lists. -/
theorem Refines.run {calls : List (SequenceCall C V)} (hf : f.Refines moved x₀ fits safe)
    (h : s.Inv ref) (hcalls : calls.foldlM (SequenceCall.onLists moved x₀ fits) ref = some ref')
    (hsafe : Throughout f.call safe env n s calls) :
    (f.run calls).Meets env n s (fun _ _ s' => s'.Inv ref') (fun _ => env.Fails) False := by
  rw [Sequence.run]
  exact meets_runAll (I := fun ref s => Inv s ref)
    (fun e _ _ n _ h he hsafe => hf.call (e := e) h he hsafe env n) hcalls h hsafe

/-! ## What is seen of the containers -/

/-- The container is the list `l`: `size()` and `operator[]` say so, the slots below `size_` have
its elements, and the others have none. -/
structure IsList (f : Sequence C S V) (s : Store C S V) (c : C) (x : S) (l : List V) : Prop where
  size : size x = l.length
  subscript : ∀ i y, l[i]? = some y → ∀ n, (do
    let r ← f.subscript c i
    onStorage r.load : Fallible _ V) .never n s = .ok y n s
  live : ∀ i < Container.size x, s.storage.valueAt (data x) i = l[i]?
  others : ∀ i, Container.size x ≤ i → s.storage.valueAt (data x) i = none
  capacity : Container.size x ≤ capacity x

/-- The containers are the lists `ref`. Each object that was constructed is in one slot or was
destroyed, once; when the containers are gone all were destroyed, and no storage is left. -/
structure AreLists (f : Sequence C S V) (s : Store C S V) (ref : C → Option (List V)) : Prop where
  exist : ∀ c, s.object c = none ↔ ref c = none
  isList : ∀ c x l, s.object c = some x → ref c = some l → f.IsList s c x l
  balanced : s.storage.Balanced
  gone : (∀ c, ref c = none) → s.storage.destroyed.Perm (List.range s.storage.constructed) ∧
    ∀ b, s.storage.sizes b = none

/-- A container in order is a list. -/
theorem Refines.isList (hf : f.Refines moved x₀ fits safe) (h : s.Inv ref)
    (hc : s.object c = some x) (hl : ref c = some l) : f.IsList s c x l := by
  obtain ⟨l', hl', hshows⟩ := h.owned.shows hc
  cases hl.symm.trans hl'
  obtain ⟨hlive, hothers⟩ := h.valueAt hc hl
  rw [hf.slot] at hlive hothers
  refine ⟨hshows.size_eq, fun i y hi n => ?_, hshows.size_eq ▸ hlive, fun i hi => ?_,
    hshows.size_le⟩
  · rw [hf.subscript]
    obtain ⟨y', n', s', hp, rfl, rfl, rfl⟩ := (subscript_meets (n := n) h hc hl hi).of_never
    exact hp
  · refine hothers i fun j hj he => ?_
    rw [hshows.size_eq] at hi
    exact absurd (he ▸ hj : i < l.length) (Nat.not_lt.2 hi)

/-- Containers in order are lists. -/
theorem Refines.areLists (hf : f.Refines moved x₀ fits safe) (h : s.Inv ref) :
    f.AreLists s ref where
  exist _ := h.object_eq_none_iff
  isList _ _ _ hc hl := hf.isList h hc hl
  balanced := h.balanced
  gone hnone := h.all_gone fun c => h.object_eq_none (hnone c)

/-- After safe calls that are possible for lists the containers are these lists. -/
theorem Refines.run_areLists {calls : List (SequenceCall C V)}
    (hf : f.Refines moved x₀ fits safe) (h : s.Inv ref)
    (hcalls : calls.foldlM (SequenceCall.onLists moved x₀ fits) ref = some ref')
    (hsafe : Throughout f.call safe .never n s calls) :
    ∃ n' s', f.run calls .never n s = .ok () n' s' ∧ f.AreLists s' ref' := by
  obtain ⟨_, n', s', hrun, h'⟩ := (hf.run h hcalls hsafe).of_never
  exact ⟨n', s', hrun, hf.areLists h'⟩

/-- The state of containers after calls, whichever steps throw in other runs. -/
theorem Refines.inv_of_run {calls : List (SequenceCall C V)} {n' : ℕ}
    (hf : f.Refines moved x₀ fits safe)
    (hcalls : calls.foldlM (SequenceCall.onLists moved x₀ fits) (fun _ => none) = some ref)
    (hsafe : Throughout f.call safe env n {} calls)
    (hrun : f.run calls env n {} = .ok () n' s) : s.Inv ref :=
  (hf.run inv_empty hcalls hsafe).ok hrun

/-- The containers are lists, and are lists after any safe calls that are possible for these. -/
def Usable (f : Sequence C S V) (moved : V → V) (x₀ : V) (fits : ℕ → Bool)
    (safe : Store C S V → SequenceCall C V → Prop) (s : Store C S V) : Prop :=
  ∃ ref, f.AreLists s ref ∧ ∀ calls ref' n,
    calls.foldlM (SequenceCall.onLists moved x₀ fits) ref = some ref' →
      Throughout f.call safe .never n s calls →
      ∃ n' s', f.run calls .never n s = .ok () n' s' ∧ f.AreLists s' ref'

/-- Containers in order are usable. -/
theorem Refines.usable (hf : f.Refines moved x₀ fits safe) (h : s.Inv ref) :
    f.Usable moved x₀ fits safe s :=
  ⟨ref, hf.areLists h, fun _ _ _ hcalls hsafe => hf.run_areLists h hcalls hsafe⟩

/-- Containers of which one cannot be destroyed are not usable. -/
theorem not_usable (hc : s.object c = some x) (hsafe : safe s (.destruct c))
    (hundefined : f.destruct c .never n s = .undefined) : ¬f.Usable moved x₀ fits safe s := by
  rintro ⟨ref, hlists, hcalls⟩
  obtain ⟨l, hl⟩ : ∃ l, ref c = some l := by
    cases hl : ref c with
    | none => cases hc.symm.trans ((hlists.exist c).2 hl)
    | some l => exact ⟨l, rfl⟩
  have hpossible : [SequenceCall.destruct c].foldlM (SequenceCall.onLists moved x₀ fits) ref =
      some (Function.update ref c none) := by
    rw [List.foldlM_cons, SequenceCall.onLists, hl]
    rfl
  have hthroughout : Throughout f.call safe .never n s [.destruct c] := by
    refine ⟨hsafe, ?_⟩
    rw [Sequence.call, hundefined]
    trivial
  obtain ⟨n', s', hrun, -⟩ := hcalls _ _ n hpossible hthroughout
  have hmeets : (f.run [.destruct c]).Meets .never n s (fun _ _ _ => False)
    (fun _ => False) True := by
    rw [Sequence.run, runAll, meets_bind]
    exact meets_of_undefined hundefined
  cases hmeets.eq_undefined.symm.trans hrun

end Sequence

end RockCoro
