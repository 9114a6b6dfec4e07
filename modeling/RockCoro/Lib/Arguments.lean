import RockCoro.Lib.Containers

/-!
# Arguments that are elements

An argument of a call may be a reference to an element of a container, also of the one that is
called. `Refers` says which reference stands for which element. What such an argument reads, in any
later state in which the element is where it was, is the element of the list (`Inv.read_meets`), and
a constructor that moves from it changes the list.
-/

namespace RockCoro

open Fallible Container Storage

/-- An argument of a call: an object in no container, or element `i` of container `d`. -/
inductive Argument (C V : Type)
  | value (x : V)
  | element (d : C) (i : ℕ)

/-- An argument that is forwarded to a constructor: a reference that it reads, or one to an object
that it moves from. -/
inductive Forward (A : Type)
  | copy (a : A)
  | move (a : A)

variable {C S V : Type}

/-- The argument is an element of `c`. -/
def Argument.IsIn (c : C) : Argument C V → Prop
  | value _ => False
  | element d _ => d = c

instance [DecidableEq C] (c : C) : (a : Argument C V) → Decidable (a.IsIn c)
  | .value _ => inferInstanceAs (Decidable False)
  | .element d _ => inferInstanceAs (Decidable (d = c))

/-- What is forwarded. -/
def Forward.argument {A : Type} : Forward A → A
  | copy a | move a => a

/-! ## On lists -/

/-- The value of an argument. The element has to exist. -/
def Argument.get (ref : C → Option (List V)) : Argument C V → Option V
  | value x => some x
  | element d i => do
    let l ← ref d
    l[i]?

section
variable [DecidableEq C] (moved : V → V)

/-- The lists after an argument was moved from. -/
def Argument.leave (ref : C → Option (List V)) (x : V) : Argument C V → C → Option (List V)
  | value _ => ref
  | element d i => Function.update ref d ((ref d).map fun l => l.set i (moved x))

/-- What a constructor makes of one argument, and the lists after that. -/
def Forward.onLists (ref : C → Option (List V)) :
    Forward (Argument C V) → Option (V × (C → Option (List V)))
  | copy a => (a.get ref).map fun x => (x, ref)
  | move a => (a.get ref).map fun x => (x, a.leave moved ref x)

/-- What a constructor makes of its arguments, one after another. -/
def readOnLists : List (Forward (Argument C V)) → (C → Option (List V)) →
    Option (List V × (C → Option (List V)))
  | [], ref => some ([], ref)
  | a :: as, ref => do
    let (x, ref) ← a.onLists moved ref
    let (xs, ref) ← readOnLists as ref
    some (x :: xs, ref)

/-- The list of `c` with what was read behind it, if that fits. -/
def appendOnLists (fits : ℕ → Bool) (c : C) (read : Option (V × (C → Option (List V)))) :
    Option (C → Option (List V)) := do
  let (x, ref) ← read
  let l ← ref c
  if fits (l.length + 1) then some (Function.update ref c (some (l ++ [x]))) else none

variable {moved} {ref ref₁ : C → Option (List V)} {x : V} {xs : List V} {a : Argument C V}

/-- An element that was moved from is still there. -/
theorem get_leave_isSome {b : Argument C V} :
    (a.get (b.leave moved ref x)).isSome = (a.get ref).isSome := by
  cases b with
  | value _ => rfl
  | element d j =>
    cases a with
    | value _ => rfl
    | element e i =>
      simp only [Argument.get, Argument.leave]
      rcases eq_or_ne e d with rfl | hne
      · rw [Function.update_self]
        cases ref e with
        | none => rfl
        | some l =>
          change (l.set j (moved x))[i]?.isSome = l[i]?.isSome
          rw [List.getElem?_set]
          split
          · rename_i heq
            subst heq
            split
            · rename_i hlt
              rw [List.getElem?_eq_getElem hlt]
              rfl
            · rename_i hge
              rw [List.getElem?_eq_none (Nat.not_lt.1 hge)]
          · rfl
      · rw [Function.update_of_ne hne]

/-- All arguments of a constructor exist. -/
theorem get_isSome_of_readOnLists {fs : List (Forward (Argument C V))} :
    ∀ {ref : C → Option (List V)} {xs : List V}, readOnLists moved fs ref = some (xs, ref₁) →
      ∀ f ∈ fs, (f.argument.get ref).isSome = true := by
  induction fs with
  | nil =>
    intro ref xs _ f hf
    cases hf
  | cons g fs ih =>
    intro ref xs hread f hf
    obtain ⟨⟨x, ref₂⟩, hg, hread⟩ := Option.bind_eq_some_iff.1 hread
    obtain ⟨⟨ys, ref₃⟩, hfs, hread⟩ := Option.bind_eq_some_iff.1 hread
    cases hread
    cases g with
    | copy b =>
      obtain ⟨y, hy, ⟨⟩⟩ := Option.map_eq_some_iff.1 hg
      rcases List.mem_cons.1 hf with rfl | hf
      · exact Option.isSome_iff_exists.2 ⟨_, hy⟩
      · exact ih hfs f hf
    | move b =>
      obtain ⟨y, hy, ⟨⟩⟩ := Option.map_eq_some_iff.1 hg
      rcases List.mem_cons.1 hf with rfl | hf
      · exact Option.isSome_iff_exists.2 ⟨_, hy⟩
      · rw [← get_leave_isSome (b := b)]
        exact ih hfs f hf

/-- A list that got longer. -/
theorem appendOnLists_eq_some {fits : ℕ → Bool} {c : C} {ref' : C → Option (List V)}
    {read : Option (V × (C → Option (List V)))}
    (h : appendOnLists fits c read = some ref') : ∃ v ref₁ l, read = some (v, ref₁) ∧
      ref₁ c = some l ∧ fits (l.length + 1) = true ∧
      ref' = Function.update ref₁ c (some (l ++ [v])) := by
  obtain ⟨⟨v, ref₁⟩, hread, h⟩ := Option.bind_eq_some_iff.1 h
  obtain ⟨l, hl, h⟩ := Option.bind_eq_some_iff.1 h
  split at h
  · cases h
    exact ⟨v, ref₁, l, hread, hl, ‹_›, rfl⟩
  · cases h

/-- Reading an argument makes no list longer or shorter. -/
theorem onLists_length {f : Forward (Argument C V)} (hf : f.onLists moved ref = some (x, ref₁))
    (d : C) : (ref₁ d).map List.length = (ref d).map List.length := by
  cases f with
  | copy a =>
    obtain ⟨y, -, ⟨⟩⟩ := Option.map_eq_some_iff.1 hf
    rfl
  | move a =>
    obtain ⟨y, -, ⟨⟩⟩ := Option.map_eq_some_iff.1 hf
    cases a with
    | value _ => rfl
    | element e i =>
      rw [Argument.leave]
      rcases eq_or_ne d e with rfl | hne
      · rw [Function.update_self, Option.map_map]
        exact congrArg (Option.map · (ref d)) (funext fun l => List.length_set)
      · rw [Function.update_of_ne hne]

/-- Nor does reading all arguments of a constructor. -/
theorem readOnLists_length {fs : List (Forward (Argument C V))} (d : C) :
    ∀ {ref : C → Option (List V)} {xs : List V}, readOnLists moved fs ref = some (xs, ref₁) →
      (ref₁ d).map List.length = (ref d).map List.length := by
  induction fs with
  | nil =>
    intro ref xs hread
    cases hread
    rfl
  | cons f fs ih =>
    intro ref xs hread
    obtain ⟨⟨y, ref₂⟩, hf, hread⟩ := Option.bind_eq_some_iff.1 hread
    obtain ⟨⟨ys, ref₃⟩, hfs, hread⟩ := Option.bind_eq_some_iff.1 hread
    cases hread
    exact (ih hfs).trans (onLists_length hf d)

omit [DecidableEq C] in
/-- A list that is there after the arguments were read was there before, with the same length. -/
theorem exists_of_length {d : C} {l : List V}
    (hlength : (ref₁ d).map List.length = (ref d).map List.length) (hl : ref₁ d = some l) :
    ∃ l', ref d = some l' ∧ l'.length = l.length := by
  rw [hl, Option.map_some] at hlength
  exact Option.map_eq_some_iff.1 hlength.symm

end

/-! ## In storage -/

/-- What a constructor makes of one reference. -/
def Forward.read (moved : V → V) : Forward (Arg V) → Fallible (Storage V) V
  | copy r => r.load
  | move r => r.take moved

/-- The reference that stands for an argument. -/
def Refers [Container S] (object : C → Option S) : Argument C V → Arg V → Prop
  | .value x, r => r = .value x
  | .element d i, r => ∃ y, object d = some y ∧ r = .slot (data y) (slot y i)

/-- The reference that is forwarded for an argument. -/
inductive Forward.Refers [Container S] (object : C → Option S) :
    Forward (Argument C V) → Forward (Arg V) → Prop
  | copy {a r} (h : RockCoro.Refers object a r) : Forward.Refers object (.copy a) (.copy r)
  | move {a r} (h : RockCoro.Refers object a r) : Forward.Refers object (.move a) (.move r)

/-- References that stay good where the containers become others. -/
theorem refers_mono [Container S] {object object' : C → Option S}
    {args : List (Forward (Argument C V))} {rs : List (Forward (Arg V))}
    (hgood : ∀ a ∈ args.map Forward.argument, ∀ r, Refers object a r → Refers object' a r)
    (hrs : List.Forall₂ (Forward.Refers object) args rs) :
    List.Forall₂ (Forward.Refers object') args rs := by
  induction hrs with
  | nil => exact .nil
  | cons hfirst _ ih =>
    refine .cons ?_ (ih fun a ha => hgood a (List.mem_cons_of_mem _ ha))
    cases hfirst with
    | copy hr => exact .copy (hgood _ List.mem_cons_self _ hr)
    | move hr => exact .move (hgood _ List.mem_cons_self _ hr)

/-- If the call makes container `c` grow, the new block gets its slots and no argument is an element
of `c`. -/
def GrowsApart [Container S] (sizeofT : ℕ) (s : Store C S V) (c : C) (args : List (Argument C V)) :
    Prop :=
  ∀ x, s.object c = some x → ∀ k, Store.growth x = some k →
    Fits S sizeofT k ∧ ∀ a ∈ args, ¬a.IsIn c

instance [Container S] [DecidableEq C] {sizeofT : ℕ} {s : Store C S V} {c : C}
    {args : List (Argument C V)} : Decidable (GrowsApart sizeofT s c args) :=
  inferInstanceAs (Decidable (∀ x ∈ s.object c, ∀ k ∈ Store.growth x,
    Fits S sizeofT k ∧ ∀ a ∈ args, ¬a.IsIn c))

namespace Store

variable [Container S] {s s' : Store C S V} {ref ref₁ : C → Option (List V)} {c : C} {x : S}
  {l : List V} {v : V} {a : Argument C V} {r : Arg V} {moved : V → V} {env : Environment} {n : ℕ}
  {E : Storage V → Prop} {U : Prop}

/-- The slot of an element has the element. -/
theorem Inv.slot_eq {i : ℕ} (h : s.Inv ref) (hc : s.object c = some x) (hl : ref c = some l)
    (hi : l[i]? = some v) :
    ∃ b B, data x = some b ∧ s.storage.view b = some B ∧ B.values (slot x i) = some v := by
  obtain ⟨l', hl', hshows⟩ := h.owned.shows hc
  cases hl.symm.trans hl'
  have hholds := hshows.holds
  cases hdata : data x with
  | none =>
    rw [hdata] at hholds
    rw [hholds.2] at hi
    cases hi
  | some b =>
    rw [hdata] at hholds
    obtain ⟨B, hB, -, hf⟩ := hholds
    exact ⟨b, B, rfl, hB, hf.live i v hi⟩

/-- A reference that is read. -/
theorem Inv.load_meets (h : s.Inv ref) (hr : Refers s.object a r) (ha : a.get ref = some v) :
    r.load.Meets env n s.storage (fun y k m => y = v ∧ k = n ∧ m = s.storage) E U := by
  cases a with
  | value x =>
    obtain rfl := hr
    cases ha
    exact ⟨rfl, rfl, rfl⟩
  | element d i =>
    obtain ⟨y, hd, rfl⟩ := hr
    obtain ⟨l, hl, hi⟩ := Option.bind_eq_some_iff.1 ha
    obtain ⟨b, B, hdata, hB, hx⟩ := h.slot_eq hd hl hi
    rw [hdata]
    exact (Storage.load_meets h.is.storage hB hx).2 ⟨rfl, rfl, rfl⟩

/-- An element is changed in its slot. -/
theorem Inv.set {m : Storage V} {b i : ℕ} {B : Block V} [DecidableEq C] (h : s.Inv ref)
    (hc : s.object c = some x) (hl : ref c = some l) (hi : i < l.length) (hdata : data x = some b)
    (hB : s.storage.view b = some B)
    (hm : m.Is (Function.update s.storage.view b (some (B.set (slot x i) (some v))))) :
    ({ s with storage := m } : Store C S V).Inv (Function.update ref c (some (l.set i v))) := by
  obtain ⟨l', hl', hshows⟩ := h.owned.shows hc
  cases hl.symm.trans hl'
  obtain ⟨B', hB', hsize, hf⟩ : ∃ B', s.storage.view b = some B' ∧ B'.size = capacity x ∧
      Filled (slot x) l B' := by
    have hholds := hshows.holds
    rw [hdata] at hholds
    exact hholds
  cases hB.symm.trans hB'
  have hshows' : Shows m.view x (l.set i v) := by
    refine ⟨hshows.size_eq.trans List.length_set.symm, hshows.size_le, hshows.le_limit, ?_⟩
    rw [hdata, hm.view_eq]
    exact ⟨_, Function.update_self .., hsize, hf.set hshows.distinct hi⟩
  have howned := h.owned.inPlace hc hshows' rfl fun b' hb' => by
    rw [hm.view_eq]
    exact Function.update_of_ne (fun he => hb' (hdata.trans (congrArg some he.symm))) ..
  rw [← hc, Function.update_eq_self] at howned
  exact ⟨hm.balanced, howned⟩

/-- A reference that is moved from. -/
theorem Inv.take_meets [DecidableEq C] (h : s.Inv ref) (hr : Refers s.object a r)
    (ha : a.get ref = some v) :
    (r.take moved).Meets env n s.storage
      (fun y _ m => y = v ∧ ({ s with storage := m } : Store C S V).Inv (a.leave moved ref v))
      E U := by
  cases a with
  | value x =>
    obtain rfl := hr
    cases ha
    exact ⟨rfl, h⟩
  | element d i =>
    obtain ⟨y, hd, rfl⟩ := hr
    obtain ⟨l, hl, hi⟩ := Option.bind_eq_some_iff.1 ha
    obtain ⟨b, B, hdata, hB, hx⟩ := h.slot_eq hd hl hi
    rw [hdata]
    refine (Storage.takeFrom_meets h.is.storage hB hx).mono fun z _ m hm => ?_
    obtain ⟨rfl, hm⟩ := hm
    refine ⟨rfl, ?_⟩
    have hset := h.set hd hl (List.getElem?_eq_some_iff.1 hi).1 hdata hB hm
    rw [Argument.leave, hl]
    exact hset

/-- A reference that a constructor gets. -/
theorem Inv.read_meets [DecidableEq C] {f : Forward (Argument C V)} {g : Forward (Arg V)}
    (h : s.Inv ref) (hr : f.Refers s.object g) (hf : f.onLists moved ref = some (v, ref₁)) :
    (g.read moved).Meets env n s.storage
      (fun y _ m => y = v ∧ ({ s with storage := m } : Store C S V).Inv ref₁) E U := by
  cases hr with
  | copy hr =>
    obtain ⟨x, hx, ⟨⟩⟩ := Option.map_eq_some_iff.1 hf
    refine (h.load_meets hr hx).mono fun y _ m hm => ?_
    obtain ⟨rfl, -, rfl⟩ := hm
    exact ⟨rfl, h⟩
  | move hr =>
    obtain ⟨x, hx, ⟨⟩⟩ := Option.map_eq_some_iff.1 hf
    exact h.take_meets hr hx

/-- The references that a constructor gets, one after another. -/
theorem Inv.readAll_meets [DecidableEq C] {fs : List (Forward (Argument C V))}
    {gs : List (Forward (Arg V))} (hr : List.Forall₂ (Forward.Refers s.object) fs gs) :
    ∀ {s' : Store C S V} {ref : C → Option (List V)} {xs : List V} {n : ℕ}, s'.Inv ref →
      s'.object = s.object → readOnLists moved fs ref = some (xs, ref₁) →
      (mapEach (Forward.read moved) gs).Meets env n s'.storage
        (fun ys _ m => ys = xs ∧ ({ s' with storage := m } : Store C S V).Inv ref₁) E U := by
  induction hr with
  | nil =>
    intro s' ref xs n h _ hread
    cases hread
    exact ⟨rfl, h⟩
  | @cons f g fs gs hfg hrest ih =>
    intro s' ref xs n h hobject hread
    obtain ⟨⟨x, ref₂⟩, hf, hread⟩ := Option.bind_eq_some_iff.1 hread
    obtain ⟨⟨xs, ref₃⟩, hfs, hread⟩ := Option.bind_eq_some_iff.1 hread
    cases hread
    rw [mapEach, meets_bind]
    refine (h.read_meets (hobject ▸ hfg) hf).mono fun y n₁ m hm => ?_
    obtain ⟨rfl, h₁⟩ := hm
    rw [meets_bind]
    refine (ih h₁ hobject hfs).mono fun ys n₂ m₂ hm₂ => ?_
    obtain ⟨rfl, h₂⟩ := hm₂
    exact ⟨rfl, h₂⟩

/-- A reference stays good while `c` grows, if it is to no element of `c` or `c` has room. -/
theorem Grown.refers (hg : Grown s c x s') (hr : Refers s.object a r)
    (hout : ¬size x < capacity x → ¬a.IsIn c) : Refers s'.object a r := by
  by_cases hroom : size x < capacity x
  · rw [hg.same hroom]
    exact hr
  · cases a with
    | value _ => exact hr
    | element d i =>
      obtain ⟨y, hd, rfl⟩ := hr
      exact ⟨y, (hg.others d (hout hroom)).trans hd, rfl⟩

/-- The condition of a call on container `c`, for one argument. -/
theorem growsApart_iff {sizeofT : ℕ} {args : List (Argument C V)} (hc : s.object c = some x) :
    GrowsApart sizeofT s c args ↔
      ∀ k, growth x = some k → Fits S sizeofT k ∧ ∀ a ∈ args, ¬a.IsIn c := by
  constructor
  · exact fun h => h x hc
  · intro h y hy k hk
    cases hc.symm.trans hy
    exact h k hk

end Store

end RockCoro
