import RockCoro.BasicStruct.Array
import RockCoro.BasicStruct.Deque
import RockCoro.BasicStruct.Vector

/-!
# Elements of `Vector`, `Array` and `Deque`

The containers keep account of their elements (`sequences_areLists` for the first two), as long as
no step throws and, in a vector, the calls are safe: no size in bytes overflows, and no argument is
an element of the vector that the call moves to another block. The exact conditions under which a
copy assignment that throws leaves containers in order, and an element may be appended to its own
container, are those of `copyAssign_usable_iff` and `pushBack_own_iff`.
-/

namespace RockCoro

open Fallible

variable {C V : Type} [DecidableEq C] (sizeofT : ℕ) (moved : V → V) (x₀ : V) (CAPACITY : ℕ)

/-- Any number of vectors are lists after any safe calls, and any number of arrays after any calls
that keep their sizes within `CAPACITY`. -/
theorem sequences_areLists {calls : List (SequenceCall C V)} {ref : C → Option (List V)} :
    (calls.foldlM (SequenceCall.onLists moved x₀ fun _ => true) (fun _ => none) = some ref →
      Throughout (Vector.functions sizeofT moved x₀ CAPACITY).call (Vector.Safe sizeofT CAPACITY)
        .never 0 {} calls →
      ∃ n s, (Vector.functions sizeofT moved x₀ CAPACITY).run calls .never 0 {} = .ok () n s ∧
        (Vector.functions sizeofT moved x₀ CAPACITY).AreLists s ref) ∧
    (calls.foldlM (SequenceCall.onLists moved x₀ fun n => decide (n ≤ CAPACITY)) (fun _ => none) =
      some ref →
      ∃ n s, (Array.functions moved x₀ : Sequence C (Array CAPACITY) V).run calls .never 0 {} =
        .ok () n s ∧
        (Array.functions moved x₀ : Sequence C (Array CAPACITY) V).AreLists s ref) := by
  constructor
  · intro hcalls hsafe
    exact Vector.refines.run_areLists Store.inv_empty hcalls hsafe
  · intro hcalls
    exact Array.refines.run_areLists Store.inv_empty hcalls
      (throughout_of_forall fun _ _ => trivial)

/-- Growth from no storage, a vector that is used after it was moved from, its own first element as
an argument when there is room, and an assignment to itself. -/
def moveAndReuse : List (SequenceCall Bool ℕ) :=
  [.init false, .pushBack false (.value 1), .emplaceBack false (List.headD · 0) [.copy (.value 2)],
    .moveInit true false, .pushBackMove false (.value 3), .copyAssign false false,
    .moveAssign false true, .popBack false, .pushBack false (.element false 0), .destruct true]

/-- A run that moves from one container to the other and then reuses the one moved from. -/
theorem sequences_areLists_moveAndReuse :
    (∃ n s, (Vector.functions 8 id 0 0).run moveAndReuse .never 0 {} = .ok () n s ∧
      (Vector.functions 8 id 0 0).AreLists s fun c => if c then none else some [1, 1]) ∧
    ∃ n s, (Array.functions id 0 : Sequence Bool (Array 2) ℕ).run moveAndReuse .never 0 {} =
      .ok () n s ∧
      (Array.functions id 0 : Sequence Bool (Array 2) ℕ).AreLists s fun c =>
      if c then none else some [1, 1] := by
  have hcalls : ∀ fits : ℕ → Bool, fits 1 = true → fits 2 = true →
      moveAndReuse.foldlM (SequenceCall.onLists id 0 fits) (fun _ => none) =
        some fun c => if c then none else some [1, 1] := by
    intro fits h₁ h₂
    simp [moveAndReuse, SequenceCall.onLists, appendOnLists, readOnLists, Forward.onLists,
      Argument.get, Argument.leave, h₁, h₂]
    funext c
    cases c <;> rfl
  exact ⟨(sequences_areLists 8 id 0 0).1 (hcalls _ rfl rfl) (by decide +kernel),
    (sequences_areLists 8 id 0 2).2 (hcalls _ rfl rfl)⟩

/-- The two ways in which a call of a vector is not safe: its first element is appended to it when
it is full, by `push_back` or by `emplace_back`, and eight times the capacity is zero in the
arithmetic of `size_t`, so that the block has no slot for the first element. -/
theorem run_undefined_element :
    ([SequenceCall.init (), .pushBack () (.value 7), .pushBack () (.element () 0)].foldlM
        (SequenceCall.onLists id 0 fun _ => true) fun _ => none).isSome = true ∧
      (Vector.functions 8 id 0 1).run
        [.init (), .pushBack () (.value 7), .pushBack () (.element () 0)] .never 0 {} =
        .undefined ∧
      (Vector.functions 8 id 0 1).run
        [.init (), .pushBack () (.value 7),
          .emplaceBack () (List.headD · 0) [.copy (.element () 0)]] .never 0 {} = .undefined ∧
      ([SequenceCall.init (), .pushBack () (.value 7)].foldlM
        (SequenceCall.onLists id 0 fun _ => true) fun _ => none).isSome = true ∧
      (Vector.functions 8 id 0 (2 ^ 61)).run [.init (), .pushBack () (.value 7)] .never 0 {} =
        .undefined :=
  ⟨rfl, rfl, rfl, rfl, rfl⟩

/-! ## Copy assignments that fail -/

/-- A copy assignment that failed leaves usable vectors if and only if it was the allocation that
failed and the target had no storage. It never leaves usable arrays. -/
theorem copyAssign_usable_iff {calls : List (SequenceCall C V)} {ref : C → Option (List V)}
    {env env' : Environment} {n₀ n : ℕ} {c other : C} :
    (calls.foldlM (SequenceCall.onLists moved x₀ fun _ => true) (fun _ => none) = some ref →
      Throughout (Vector.functions sizeofT moved x₀ CAPACITY).call (Vector.Safe sizeofT CAPACITY)
        env n₀ {} calls →
      ∀ s a b s', (Vector.functions sizeofT moved x₀ CAPACITY).run calls env n₀ {} = .ok () n s →
        s.object c = some a → s.object other = some b →
        Vector.Safe sizeofT CAPACITY s (.copyAssign c other) →
        Vector.copyAssign sizeofT c other env' n s = .thrown s' →
        ((Vector.functions sizeofT moved x₀ CAPACITY).Usable moved x₀ (fun _ => true)
            (Vector.Safe sizeofT CAPACITY) s' ↔
          a.data = none ∧ env' n b.capacity = true)) ∧
    (calls.foldlM (SequenceCall.onLists moved x₀ fun n => decide (n ≤ CAPACITY)) (fun _ => none) =
      some ref →
      ∀ s a b s', (Array.functions moved x₀ : Sequence C (Array CAPACITY) V).run calls env n₀ {} =
        .ok () n s → s.object c = some a → s.object other = some b →
        Array.copyAssign c other env' n s = .thrown s' →
        ¬(Array.functions moved x₀).Usable moved x₀ (fun n => decide (n ≤ CAPACITY))
          (fun _ _ => True) s') := by
  constructor
  · intro hcalls hsafe s a b s' hrun hc ho hfits hthrown
    have h := Vector.refines.inv_of_run hcalls hsafe hrun
    obtain ⟨hsame, hbroken⟩ := Vector.copyAssign_thrown h hc ho (hfits b ho) hthrown
    refine ⟨fun husable => ?_, fun hcond => Vector.refines.usable (hsame hcond)⟩
    by_contra hcond
    obtain ⟨⟨a', hc'⟩, hundefined⟩ := hbroken hcond
    exact Sequence.not_usable (n := 0) hc' trivial (hundefined _ _) husable
  · intro hcalls s a b s' hrun hc ho hthrown
    have h := Array.refines.inv_of_run hcalls (throughout_of_forall fun _ _ => trivial) hrun
    obtain ⟨⟨a', hc'⟩, hundefined⟩ := Array.copyAssign_thrown h hc ho hthrown
    exact Sequence.not_usable (n := 0) hc' trivial (hundefined _ _)

/-- Two containers, of which only the second has an element. -/
def oneElement : List (SequenceCall Bool ℕ) :=
  [.init false, .init true, .pushBack true (.value 5)]

/-- One element and an assignment whose copy throws: the `Vector` stays usable, the `Array` does
not. -/
theorem copyAssign_usable_iff_oneElement :
    (∃ n s s', (Vector.functions 8 id 0 0).run oneElement .never 0 {} = .ok () n s ∧
      Vector.copyAssign 8 false true (fun _ _ => true) n s = .thrown s' ∧
      (Vector.functions 8 id 0 0).Usable id 0 (fun _ => true) (Vector.Safe 8 0) s') ∧
    ∃ n s s', (Array.functions id 0 : Sequence Bool (Array 1) ℕ).run oneElement .never 0 {} =
      .ok () n s ∧
      Array.copyAssign false true (fun _ _ => true) n s = .thrown s' ∧
      ¬(Array.functions id 0).Usable id 0 (fun n => decide (n ≤ 1)) (fun _ _ => True) s' := by
  constructor
  · obtain ⟨n, s, a, b, s', hrun, hc, ho, hfits, hthrown, hnull⟩ : ∃ n s a b s',
        (Vector.functions 8 id 0 0).run oneElement .never 0 {} = .ok () n s ∧
        s.object false = some a ∧ s.object true = some b ∧
        Fits Vector 8 b.capacity ∧
        Vector.copyAssign 8 false true (fun _ _ => true) n s = .thrown s' ∧ a.data = none :=
      ⟨_, _, _, _, _, rfl, rfl, rfl, by decide, rfl, rfl⟩
    have husable := (copyAssign_usable_iff 8 id 0 0).1 rfl (by decide +kernel) s a b s' hrun hc ho
      (fun o h => Option.some.inj (ho.symm.trans h) ▸ hfits) hthrown
    exact ⟨n, s, s', hrun, hthrown, husable.2 ⟨hnull, rfl⟩⟩
  · obtain ⟨n, s, a, b, s', hrun, hc, ho, hthrown⟩ : ∃ n s a b s',
        (Array.functions id 0 : Sequence Bool (Array 1) ℕ).run oneElement .never 0 {} = .ok () n s ∧
        s.object false = some a ∧ s.object true = some b ∧
        Array.copyAssign false true (fun _ _ => true) n s = .thrown s' :=
      ⟨_, _, _, _, _, rfl, rfl, rfl, rfl⟩
    exact ⟨n, s, s', hrun, hthrown,
      (copyAssign_usable_iff 8 id 0 1).2 rfl s a b s' hrun hc ho hthrown⟩

/-- The block of the target is released, and is released again by the destructor. -/
theorem not_usable_of_allocation_failed :
    ∃ n s s', (Vector.functions 8 id 0 1).run oneElement .never 0 {} = .ok () n s ∧
      Vector.copyAssign 8 false true (fun _ _ => true) n s = .thrown s' ∧
      Vector.destruct false .never n s' = .undefined ∧
      ¬(Vector.functions 8 id 0 1).Usable id 0 (fun _ => true) (Vector.Safe 8 1) s' :=
  ⟨_, _, _, rfl, rfl, rfl, Sequence.not_usable (n := 0) (c := false) rfl trivial rfl⟩

/-! ## An element of the container as the argument -/

/-- An element of a vector, or the first element of a deque, is appended to it if and only if there
is room. -/
theorem pushBack_own_iff {ref : C → Option (List V)} {env : Environment} {n₀ n : ℕ} {c : C} {x : V}
    {l : List V} :
    (∀ calls s v i,
      calls.foldlM (SequenceCall.onLists moved x₀ fun _ => true) (fun _ => none) = some ref →
      Throughout (Vector.functions sizeofT moved x₀ CAPACITY).call (Vector.Safe sizeofT CAPACITY)
        env n₀ {} calls →
      (Vector.functions sizeofT moved x₀ CAPACITY).run calls env n₀ {} = .ok () n s →
      s.object c = some v → ref c = some l → l[i]? = some x →
      ((∃ n' s', Vector.pushBackOwn sizeofT moved c i .never n s = .ok () n' s' ∧
          (Vector.functions sizeofT moved x₀ CAPACITY).AreLists s'
          (Function.update ref c (some (l ++ [x])))) ↔
        v.size < v.capacity)) ∧
    (∀ calls s q, calls.foldlM (Deque.Call.onQueues moved) (fun _ => none) = some ref →
      Throughout (Deque.call sizeofT moved CAPACITY) (Deque.Safe sizeofT CAPACITY) env n₀ {}
        calls →
      Deque.run sizeofT moved CAPACITY calls env n₀ {} = .ok () n s →
      s.object c = some q → ref c = some (x :: l) →
      ((∃ n' s', Deque.pushBackFront sizeofT moved c .never n s = .ok () n' s' ∧
          Deque.AreQueues s' (Function.update ref c (some (x :: l ++ [x])))) ↔
        q.size < q.capacity)) := by
  constructor
  · intro calls s v i hcalls hsafe hrun hc hl hi
    have h := Vector.refines.inv_of_run hcalls hsafe hrun
    constructor
    · rintro ⟨n', s', hpush, -⟩
      by_contra hfull
      exact Vector.pushBackOwn_ne_ok h hc hl hi hfull hpush
    · intro hroom
      obtain ⟨_, n', s', hpush, h'⟩ := (Vector.pushBackOwn_meets h hc hl hi hroom).of_never
      exact ⟨n', s', hpush, Vector.refines.areLists h'⟩
  · intro calls s q hcalls hsafe hrun hc hl
    have h := (Deque.run_meets hcalls hsafe).ok hrun
    constructor
    · rintro ⟨n', s', hpush, -⟩
      by_contra hfull
      exact Deque.pushBackFront_ne_ok h hc hl hfull hpush
    · intro hroom
      obtain ⟨_, n', s', hpush, h'⟩ := (Deque.pushBackFront_meets h hc hl hroom).of_never
      exact ⟨n', s', hpush, Deque.areQueues h'⟩

/-- Capacity two leaves room for an own element, which both containers then copy correctly. -/
theorem pushBack_own_iff_two :
    (∃ n s, (Vector.functions 8 id 0 2).run [.init (), .pushBack () (.value 7)] .never 0 {} =
        .ok () n s ∧
      ∃ n' s', Vector.pushBackOwn 8 id () 0 .never n s = .ok () n' s' ∧
        (Vector.functions 8 id 0 2).AreLists s'
        (Function.update (fun _ => some [7]) () (some [7, 7]))) ∧
    ∃ n s, Deque.run 8 id 2 [.init (), .pushBack () (.value 7)] .never 0 {} = .ok () n s ∧
      ∃ n' s', Deque.pushBackFront 8 id () .never n s = .ok () n' s' ∧
        Deque.AreQueues s' (Function.update (fun _ => some [7]) () (some [7, 7])) := by
  have hvector : [SequenceCall.init (), .pushBack () (.value 7)].foldlM
      (SequenceCall.onLists id 0 fun _ => true) (fun _ => none) = some fun _ => some [7] :=
    Eq.trans (b := some _) rfl (congrArg some (funext fun _ => rfl))
  have hdeque : [Deque.Call.init (), .pushBack () (.value 7)].foldlM
      (Deque.Call.onQueues id) (fun _ => none) = some fun _ => some [7] :=
    Eq.trans (b := some _) rfl (congrArg some (funext fun _ => rfl))
  constructor
  · obtain ⟨n, s, v, hrun, hc, hroom⟩ : ∃ n s v,
        (Vector.functions 8 id 0 2).run [.init (), .pushBack () (.value 7)] .never 0 {} =
          .ok () n s ∧ s.object () = some v ∧ v.size < v.capacity :=
      ⟨_, _, _, rfl, rfl, Nat.lt_succ_self 1⟩
    exact ⟨n, s, hrun, ((pushBack_own_iff 8 id 0 2).1 _ s v 0 hvector (by decide +kernel) hrun hc
      rfl rfl).2 hroom⟩
  · obtain ⟨n, s, q, hrun, hc, hroom⟩ : ∃ n s q,
        Deque.run 8 id 2 [.init (), .pushBack () (.value 7)] .never 0 {} = .ok () n s ∧
        s.object () = some q ∧ q.size < q.capacity :=
      ⟨_, _, _, rfl, rfl, Nat.lt_succ_self 1⟩
    exact ⟨n, s, hrun, ((pushBack_own_iff 8 id 0 2).2 _ s q hdeque (by decide +kernel) hrun hc
      rfl).2 hroom⟩

/-- Without room the storage of the element is released before it is read. -/
theorem pushBack_own_undefined_full :
    (∃ n s, (Vector.functions 8 id 0 1).run [.init (), .pushBack () (.value 7)] .never 0 {} =
        .ok () n s ∧
      Vector.pushBackOwn 8 id () 0 .never n s = .undefined) ∧
    ∃ n s, Deque.run 8 id 1 [.init (), .pushBack () (.value 7)] .never 0 {} = .ok () n s ∧
      Deque.pushBackFront 8 id () .never n s = .undefined :=
  ⟨⟨_, _, rfl, rfl⟩, ⟨_, _, rfl, rfl⟩⟩

end RockCoro
