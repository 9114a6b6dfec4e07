import RockCoro.BasicStruct.RedBlackTree.Operations
import Mathlib.Order.Lattice.Nat
import Mathlib.Data.Finset.Lattice.Fold
import Mathlib.Data.List.Perm.Basic
import Mathlib.Order.Defs.Unbundled

/-!
# `RBTree` is a finite ordered set

The reference set is a list without order that keeps at most one element of a class of equivalent
ones. `run_refines` says that any sequence of calls from the empty tree gives the answers of the
reference set, and that the in-order traversal is the same set in strictly increasing order. The
comparer is a strict weak order; the allocator is arbitrary.
-/

namespace RockCoro.RBTree

open RedBlack

/-- A call on the tree. -/
inductive Op (T : Type)
  | insert (x : T)
  | erase (x : T)
  | find (x : T)
  | minimum
  | maximum

/-- What a call returns. -/
inductive Answer (T : Type)
  | bool (b : Bool)
  | ptr (x : Option T)
  deriving DecidableEq

section
variable {Ptr T : Type} (compare : T → T → Bool)

/-- A call on the reference set. -/
def Op.spec (S : List T) : Op T → Answer T × List T
  | .insert x => if S.any (equiv compare x) then (.bool false, S) else (.bool true, x :: S)
  | .erase x => (.bool (S.any (equiv compare x)), S.filter fun y => !equiv compare x y)
  | .find x => (.ptr (S.find? (equiv compare x)), S)
  | .minimum => (.ptr (S.find? fun x => S.all fun y => !compare y x), S)
  | .maximum => (.ptr (S.find? fun x => S.all fun y => !compare x y), S)

/-- A sequence of calls on the reference set. -/
def specRun (S : List T) : List (Op T) → List (Answer T) × List T
  | [] => ([], S)
  | op :: ops =>
    let (a, S) := op.spec compare S
    let (as, S) := specRun S ops
    (a :: as, S)

variable [DecidableEq Ptr]

/-- A call on the tree. -/
def Op.run (A : Alloc Ptr T) (fuel : ℕ) (s : RBTree Ptr T) :
    Op T → Option (Answer T × RBTree Ptr T)
  | .insert x => (s.insert compare A fuel x).map fun r => (.bool r.1, r.2)
  | .erase x => (s.erase compare A fuel x).map fun r => (.bool r.1, r.2)
  | .find x => (s.find compare fuel x).map fun r => (.ptr r, s)
  | .minimum => (s.minimum fuel).map fun r => (.ptr r, s)
  | .maximum => (s.maximum fuel).map fun r => (.ptr r, s)

/-- A sequence of calls on the tree. -/
def run (A : Alloc Ptr T) (fuel : ℕ) (s : RBTree Ptr T) :
    List (Op T) → Option (List (Answer T) × RBTree Ptr T)
  | [] => some ([], s)
  | op :: ops => do
    let (a, s) ← op.run compare A fuel s
    let (as, s) ← run A fuel s ops
    some (a :: as, s)

end

section
variable {Ptr T : Type} {compare : T → T → Bool} {s : RBTree Ptr T} {t : ColorTree (Ptr × T)}
  {k : Ctx (Ptr × T)} {S l : List T} {x y u val : T} {fuel : ℕ}

/-- The order of the comparer. -/
abbrev Less (compare : T → T → Bool) (a b : T) : Prop := compare a b = true

/-- The elements of a tree in order. -/
def elems (t : ColorTree (Ptr × T)) : List T := t.toList.map Prod.snd

/-- The tree `t` that `s` holds is the reference set `S` in increasing order. -/
structure Refines (compare : T → T → Bool) (s : RBTree Ptr T) (t : ColorTree (Ptr × T))
    (S : List T) :
    Prop where
  valid : s.Valid t
  sorted : (elems t).Pairwise (Less compare)
  perm : (elems t).Perm S

/-- Two elements are equivalent when neither compares less. -/
theorem equiv_iff : equiv compare x y = true ↔ compare x y = false ∧ compare y x = false := by
  simp [equiv]

/-- An element that compares less is not equivalent. -/
theorem not_equiv_of_less (h : Less compare x y) : equiv compare x y = false := by
  simp [equiv, show compare x y = true from h]

/-- Equivalence is symmetric for any comparer. -/
theorem equiv_comm : equiv compare x y = equiv compare y x := by
  simp [equiv, Bool.and_comm]

/-- `find?` answers the one element with the property. -/
theorem find?_eq_of_unique {p : T → Bool} (hu : u ∈ S) (hp : p u = true)
    (huniq : ∀ w ∈ S, p w = true → w = u) : S.find? p = some u := by
  cases hf : S.find? p with
  | none => exact absurd hp (by simpa using List.find?_eq_none.1 hf u hu)
  | some w => rw [huniq w (List.mem_of_find?_eq_some hf) (List.find?_some hf)]

variable [IsStrictWeakOrder T (Less compare)]

/-- The elements before the hole a search came to are less than its argument. -/
theorem Guided.before (hg : Guided compare val k)
    (hs : (elems (k.plug t)).Pairwise (Less compare)) :
    ∀ v ∈ k.before, Less compare v.2 val := by
  induction k generalizing t with
  | nil => simp [Ctx.before]
  | cons f k ih =>
    have ih := ih (fun g hg' => hg g (List.mem_cons_of_mem _ hg')) hs
    have hf := hg f List.mem_cons_self
    obtain ⟨d, c, v, b⟩ := f
    cases d with
    | left => simpa [Ctx.before] using ih
    | right =>
      rw [elems, Ctx.plug_cons, Ctx.toList_plug, Frame.fill, ColorTree.toList_on_right] at hs
      simp only [List.map_append, List.map_cons, List.pairwise_append, List.pairwise_cons,
        List.mem_append, List.mem_cons, List.mem_map] at hs
      intro w hw
      simp only [Ctx.before, List.mem_append, List.mem_singleton] at hw
      rcases hw with hw | hw | rfl
      · exact ih w hw
      · exact IsTrans.trans (r := Less compare) _ _ _
          (hs.2.1.1.2.2 w.2 ⟨w, hw, rfl⟩ v.2 (.inl rfl)) hf.2
      · exact hf.2

/-- The elements after the hole a search came to are greater than its argument. -/
theorem Guided.after (hg : Guided compare val k) (hs : (elems (k.plug t)).Pairwise (Less compare)) :
    ∀ v ∈ k.after, Less compare val v.2 := by
  induction k generalizing t with
  | nil => simp [Ctx.after]
  | cons f k ih =>
    have ih := ih (fun g hg' => hg g (List.mem_cons_of_mem _ hg')) hs
    have hf := hg f List.mem_cons_self
    obtain ⟨d, c, v, b⟩ := f
    cases d with
    | right => simpa [Ctx.after] using ih
    | left =>
      rw [elems, Ctx.plug_cons, Ctx.toList_plug, Frame.fill, ColorTree.toList_on_left] at hs
      simp only [List.map_append, List.map_cons, List.pairwise_append, List.pairwise_cons,
        List.mem_append, List.mem_cons, List.mem_map] at hs
      intro w hw
      simp only [Ctx.after, List.mem_append, List.mem_cons] at hw
      rcases hw with (rfl | hw) | hw
      · exact hf
      · exact IsTrans.trans (r := Less compare) _ _ _ hf (hs.2.1.1.2.1.1 w.2 ⟨w, hw, rfl⟩)
      · exact ih w hw

/-- Under a strict weak order equivalence is transitive. -/
theorem equiv_trans (h₁ : equiv compare x y = true) (h₂ : equiv compare y u = true) :
    equiv compare x u = true := by
  rw [equiv_iff] at *
  have h : ¬Less compare x u ∧ ¬Less compare u x :=
    IsStrictWeakOrder.incomp_trans x y u (by simpa using h₁) (by simpa using h₂)
  simpa using h

/-- An equivalent element of a sorted list is the only one. -/
theorem equiv_unique (hs : l.Pairwise (Less compare)) (hx : x ∈ l) (hy : y ∈ l)
    (h₁ : equiv compare val x = true) (h₂ : equiv compare val y = true) : x = y := by
  have h : equiv compare x y = true := equiv_trans (equiv_comm.trans h₁) h₂
  rw [equiv_iff] at h
  have hor := List.Pairwise.forall_of_forall_of_flip
    (R := fun a b => a = b ∨ Less compare a b ∨ Less compare b a) (fun _ _ => .inl rfl)
    (hs.imp fun h => .inr (.inl h)) (hs.imp fun h => .inr (.inr h)) hx hy
  simpa [Less, h] using hor

/-- A search that found no node shows that no element is equivalent to its argument. -/
theorem Refines.miss (hr : Refines compare s t S) (hk : k.plug .nil = t)
    (hg : Guided compare val k) : ∀ y ∈ S, equiv compare val y = false := by
  subst hk
  intro y hy
  have hy' := hr.perm.mem_iff.2 hy
  rw [elems, Ctx.toList_plug] at hy'
  simp only [ColorTree.toList_nil, List.nil_append, List.map_append, List.mem_append,
    List.mem_map] at hy'
  rcases hy' with ⟨w, hw, rfl⟩ | ⟨w, hw, rfl⟩
  · rw [equiv_comm]
    exact not_equiv_of_less (hg.before hr.sorted w hw)
  · exact not_equiv_of_less (hg.after hr.sorted w hw)

/-- The node a search found is the only equivalent element. -/
theorem Refines.hit (hr : Refines compare s t S) {v : Ptr × T} (hv : v ∈ t.toList)
    (heq : equiv compare val v.2 = true) :
    v.2 ∈ S ∧ ∀ y ∈ S, equiv compare val y = true → y = v.2 := by
  have hm : v.2 ∈ elems t := List.mem_map_of_mem hv
  exact ⟨hr.perm.mem_iff.1 hm, fun y hy hy' =>
    equiv_unique hr.sorted (hr.perm.mem_iff.2 hy) hm hy' heq⟩

omit [IsStrictWeakOrder T (Less compare)] in
/-- The node that a search ends at is a node of the tree. -/
theorem Hit.mem {v : Ptr × T} (h : Hit compare val t v) : v ∈ t.toList := by
  obtain ⟨-, k, c, l, r, rfl⟩ := h
  rw [Ctx.toList_plug, ColorTree.toList_on_left]
  simp

/-- An element that is `lt` all others is the one that `find?` looks for. -/
theorem find?_least (lt : T → T → Bool) (hmem : ∀ y, y ∈ S ↔ y = x ∨ y ∈ l)
    (hx : ∀ y ∈ l, lt x y = true) (hirr : lt x x = false)
    (hasymm : ∀ y, lt x y = true → lt y x = false) :
    S.find? (fun x => S.all fun y => !lt y x) = some x := by
  refine find?_eq_of_unique ((hmem x).2 (.inl rfl)) ?_ fun w hw hmin => ?_
  · simp only [List.all_eq_true, Bool.not_eq_true']
    intro y hy
    rcases (hmem y).1 hy with rfl | hy
    · exact hirr
    · exact hasymm y (hx y hy)
  · simp only [List.all_eq_true, Bool.not_eq_true'] at hmin
    rcases (hmem w).1 hw with rfl | hwl
    · rfl
    · exact absurd (hmin x ((hmem x).2 (.inl rfl))) (by simp [hx w hwl])

/-- A strict weak order never answers true both ways. -/
theorem Less.asymm (h : compare x y = true) : compare y x = false := by
  simpa using asymm_of (Less compare) h

/-- `minimum` is the first element of the traversal. -/
theorem Refines.minimum (hr : Refines compare s t S) :
    S.find? (fun x => S.all fun y => !compare y x) = (elems t).head? := by
  obtain ⟨-, hs, hp⟩ := hr
  cases hl : elems t with
  | nil => simp [(hl ▸ hp).nil_eq.symm]
  | cons x l =>
    rw [hl] at hp hs
    rw [List.pairwise_cons] at hs
    refine find?_least compare (fun y => by rw [← hp.mem_iff, List.mem_cons]) hs.1 ?_
      fun y => Less.asymm
    simpa using irrefl (r := Less compare) x

/-- `maximum` is the last element of the traversal. -/
theorem Refines.maximum (hr : Refines compare s t S) :
    S.find? (fun x => S.all fun y => !compare x y) = (elems t).getLast? := by
  obtain ⟨-, hs, hp⟩ := hr
  rcases List.eq_nil_or_concat (elems t) with hl | ⟨l, x, hl⟩
  · simp [hl, (hl ▸ hp).nil_eq.symm]
  · rw [List.concat_eq_append] at hl
    rw [hl] at hp hs ⊢
    rw [List.pairwise_append] at hs
    rw [List.getLast?_concat]
    have hlt : ∀ y ∈ l, compare y x = true := fun y hy => hs.2.2 y hy x List.mem_cons_self
    refine find?_least (fun a b => compare b a)
      (fun y => by rw [← hp.mem_iff]; simp [or_comm]) hlt ?_ fun y => Less.asymm
    simpa using irrefl (r := Less compare) x

/-- A new element at the hole its search came to. -/
theorem Refines.cons {s' : RBTree Ptr T} {t' : ColorTree (Ptr × T)} {p : Ptr}
    (hr : Refines compare s (k.plug .nil) S) (hg : Guided compare x k) (hv : s'.Valid t')
    (hl : t'.toList = k.before ++ (p, x) :: k.after) : Refines compare s' t' (x :: S) := by
  have hold : elems (k.plug .nil) = k.before.map Prod.snd ++ k.after.map Prod.snd := by
    rw [elems, Ctx.toList_plug]
    simp
  have hnew : elems t' = k.before.map Prod.snd ++ x :: k.after.map Prod.snd := by
    rw [elems, hl]
    simp
  obtain ⟨-, hs, hp⟩ := hr
  have hb := hg.before hs
  have ha := hg.after hs
  refine ⟨hv, ?_, ?_⟩
  · rw [hold, List.pairwise_append] at hs
    rw [hnew, List.pairwise_append, List.pairwise_cons]
    refine ⟨hs.1, ⟨?_, hs.2.1⟩, ?_⟩
    · intro y hy
      obtain ⟨w, hw, rfl⟩ := List.mem_map.1 hy
      exact ha w hw
    · intro y hy z hz
      rcases List.mem_cons.1 hz with rfl | hz
      · obtain ⟨w, hw, rfl⟩ := List.mem_map.1 hy
        exact hb w hw
      · exact hs.2.2 y hy z hz
  · rw [hnew]
    rw [hold] at hp
    exact List.perm_middle.trans (hp.cons x)

/-- Taking out the element equivalent to `x`. -/
theorem Refines.filter {s' : RBTree Ptr T} {t' : ColorTree (Ptr × T)} {v : Ptr × T}
    {l₁ l₂ : List (Ptr × T)} (hr : Refines compare s t S) (he : equiv compare x v.2 = true)
    (hl : t.toList = l₁ ++ v :: l₂) (hv : s'.Valid t') (hl' : t'.toList = l₁ ++ l₂) :
    Refines compare s' t' (S.filter fun y => !equiv compare x y) := by
  have hold : elems t = l₁.map Prod.snd ++ v.2 :: l₂.map Prod.snd := by
    rw [elems, hl]
    simp
  have hnew : elems t' = l₁.map Prod.snd ++ l₂.map Prod.snd := by
    rw [elems, hl']
    simp
  obtain ⟨-, hs, hp⟩ := hr
  rw [hold] at hs hp
  have hs' := hs
  rw [List.pairwise_append, List.pairwise_cons] at hs'
  -- an equivalent element elsewhere would be equivalent to `v` and less or greater
  have hne : ∀ y, Less compare y v.2 ∨ Less compare v.2 y → equiv compare x y = false := by
    intro y hy
    cases hxy : equiv compare x y with
    | false => rfl
    | true =>
      have h := equiv_iff.1 (equiv_trans (equiv_comm.trans hxy) he)
      simp [Less, h] at hy
  have hfilter : (l₁.map Prod.snd ++ v.2 :: l₂.map Prod.snd).filter (fun y => !equiv compare x y) =
      l₁.map Prod.snd ++ l₂.map Prod.snd := by
    rw [List.filter_append, List.filter_cons_of_neg (by simp [he]), List.filter_eq_self.2,
      List.filter_eq_self.2]
    · exact fun y hy => by simp [hne y (.inr (hs'.2.1.1 y hy))]
    · exact fun y hy => by simp [hne y (.inl (hs'.2.2 y hy v.2 List.mem_cons_self))]
  refine ⟨hv, ?_, ?_⟩
  · rw [hnew, ← hfilter]
    exact hs.filter _
  · rw [hnew, ← hfilter]
    exact hp.filter _

variable [DecidableEq Ptr]

/-- A call on the tree is a call on the reference set. -/
theorem Refines.step (A : Alloc Ptr T) (hr : Refines compare s t S) (hfuel : S.length < fuel)
    (op : Op T) :
    ∃ s' t', op.run compare A fuel s = some ((op.spec compare S).1, s') ∧
      Refines compare s' t' (op.spec compare S).2 := by
  have hlen : t.toList.length < fuel := by
    have := hr.perm.length_eq
    rw [elems, List.length_map] at this
    omega
  have hany : ∀ {x v}, v ∈ S → equiv compare x v = true → S.any (equiv compare x) = true :=
    fun hv he => List.any_eq_true.2 ⟨_, hv, he⟩
  have hnone : ∀ {x}, (∀ y ∈ S, equiv compare x y = false) → S.any (equiv compare x) = false :=
    fun h => List.any_eq_false.2 fun y hy => by simp [h y hy]
  cases op with
  | insert x =>
    rcases hr.valid.insert compare x A hlen with
      ⟨k, s', t', rfl, hg, hs, hv, hl⟩ | ⟨v, hh, hs⟩
    · have hmiss := hnone (hr.miss rfl hg)
      refine ⟨s', t', ?_, ?_⟩
      · rw [Op.run, hs, Op.spec, hmiss]
        rfl
      · rw [Op.spec, hmiss]
        exact hr.cons hg hv hl
    · obtain ⟨hm, -⟩ := hr.hit hh.mem hh.1
      refine ⟨s, t, ?_, ?_⟩
      · rw [Op.run, hs, Op.spec, hany hm hh.1]
        rfl
      · rw [Op.spec, hany hm hh.1]
        exact hr
  | erase x =>
    rcases hr.valid.erase compare x A hlen with
      ⟨k, hk, hg, hs⟩ | ⟨v, s', t', l₁, l₂, he, hl, hs, hv, hl'⟩
    · have hmiss := hr.miss hk hg
      refine ⟨s, t, ?_, ?_⟩
      · rw [Op.run, hs, Op.spec, hnone hmiss]
        rfl
      · have hfilter : S.filter (fun y => !equiv compare x y) = S :=
          List.filter_eq_self.2 fun y hy => by simp [hmiss y hy]
        rw [Op.spec, hfilter]
        exact hr
    · obtain ⟨hm, -⟩ := hr.hit (by simp [hl]) he
      refine ⟨s', t', ?_, hr.filter he hl hv hl'⟩
      rw [Op.run, hs, Op.spec, hany hm he]
      rfl
  | find x =>
    rcases hr.valid.find compare x hlen with ⟨k, hk, hg, hs⟩ | ⟨v, hh, hs⟩
    · refine ⟨s, t, ?_, hr⟩
      have : S.find? (equiv compare x) = none :=
        List.find?_eq_none.2 fun y hy => by simp [hr.miss hk hg y hy]
      rw [Op.run, hs, Op.spec, this]
      rfl
    · obtain ⟨hm, huniq⟩ := hr.hit hh.mem hh.1
      refine ⟨s, t, ?_, hr⟩
      rw [Op.run, hs, Op.spec, find?_eq_of_unique hm hh.1 huniq]
      rfl
  | minimum =>
    refine ⟨s, t, ?_, hr⟩
    rw [Op.run, hr.valid.minimum (Nat.le_of_lt hlen), Op.spec, hr.minimum, elems, List.head?_map]
    rfl
  | maximum =>
    refine ⟨s, t, ?_, hr⟩
    rw [Op.run, hr.valid.maximum (Nat.le_of_lt hlen), Op.spec, hr.maximum, elems, List.getLast?_map]
    rfl

omit [IsStrictWeakOrder T (Less compare)] in
variable (compare S) in
/-- A call adds one element to the reference at most. -/
theorem Op.spec_length (op : Op T) : (op.spec compare S).2.length ≤ S.length + 1 := by
  cases op with
  | insert x =>
    rw [Op.spec]
    split <;> simp
  | erase x => exact (List.length_filter_le _ _).trans (Nat.le_succ _)
  | find | minimum | maximum => exact Nat.le_succ _

/-- The calls refine the same calls on the reference set, with the same answers; the fuel is
enough for every element that the calls may insert. -/
theorem Refines.run (A : Alloc Ptr T) (ops : List (Op T)) (hr : Refines compare s t S)
    (hfuel : S.length + ops.length < fuel) :
    ∃ s' t', run compare A fuel s ops = some ((specRun compare S ops).1, s') ∧
      Refines compare s' t' (specRun compare S ops).2 ∧ t'.toList.length < fuel := by
  induction ops generalizing s t S with
  | nil =>
    refine ⟨s, t, rfl, hr, ?_⟩
    have := hr.perm.length_eq
    rw [elems, List.length_map] at this
    simp only [List.length_nil] at hfuel
    omega
  | cons op ops ih =>
    rw [List.length_cons] at hfuel
    have hS : S.length < fuel := by omega
    obtain ⟨s₁, t₁, hs₁, hr₁⟩ := hr.step A hS op
    have hlen := Op.spec_length compare S op
    obtain ⟨s₂, t₂, hs₂, hr₂⟩ := ih hr₁ (by omega)
    refine ⟨s₂, t₂, ?_, hr₂⟩
    simp only [RBTree.run, hs₁, Option.bind_eq_bind, Option.bind_some, hs₂, specRun]

variable (compare) in
/-- `RBTree` refines a finite ordered set. Any sequence of calls from the empty tree answers what
the reference set answers, and afterwards the in-order traversal is strictly increasing and holds
the elements of the reference set, which are pairwise inequivalent. -/
theorem run_refines (A : Alloc Ptr T) (ops : List (Op T)) (hfuel : ops.length < fuel) :
    ∃ s l, run compare A fuel (init A) ops = some ((specRun compare [] ops).1, s) ∧
      s.mapEach fuel s.root = some l ∧ l.Pairwise (Less compare) ∧
      l.Perm (specRun compare [] ops).2 ∧
      (specRun compare [] ops).2.Pairwise fun x y => equiv compare x y = false := by
  have h₀ : Refines compare (init A) .nil [] := ⟨valid_init A, .nil, .refl _⟩
  obtain ⟨s, t, hs, hr, hlen⟩ := h₀.run A ops (by simpa using hfuel)
  have htr := Stores.mapEach (k := []) hr.valid.stores hlen
  rw [← hr.valid.stores.root] at htr
  refine ⟨s, elems t, hs, htr, hr.sorted, hr.perm, ?_⟩
  exact (hr.sorted.imp not_equiv_of_less).perm hr.perm fun h => equiv_comm.trans h

end

/-- An allocator that takes the next number after all live ones. -/
def natAlloc (T : Type) : Alloc ℕ T where
  malloc _ s := s.sup id + 1
  fresh _ _ hm := absurd (Finset.le_sup (f := id) hm) (Nat.not_succ_le_self _)
  junkData _ := none
  junkColor _ := .red
  junkChild _ _ := 0
  junkParent _ := 0

/-- Three elements, one of them inserted twice, and the root erased. -/
theorem run_refines_int :
    ∃ s l, run (fun a b : Int => decide (a < b)) (natAlloc Int) 9 (init (natAlloc Int))
        [.insert 2, .insert 1, .insert 3, .insert 1, .minimum, .erase 2, .find 2, .maximum] =
      some ([.bool true, .bool true, .bool true, .bool false, .ptr (some 1), .bool true, .ptr none,
        .ptr (some 3)], s) ∧ s.mapEach 9 s.root = some l ∧ l.Perm [3, 1] := by
  have hlt : IsStrictWeakOrder Int (Less fun a b => decide (a < b)) :=
    { irrefl := fun a => by simp
      trans := fun a b c => by simpa using Int.lt_trans
      incomp_trans := fun a b c => by simp only [Less, decide_eq_true_eq]; omega }
  obtain ⟨_, l, hs, htr, -, hp, -⟩ := run_refines (fun a b : Int => decide (a < b)) (natAlloc Int)
    [.insert 2, .insert 1, .insert 3, .insert 1, .minimum, .erase 2, .find 2, .maximum]
    (Nat.lt_succ_self 8)
  exact ⟨_, l, hs, htr, hp⟩

end RockCoro.RBTree
