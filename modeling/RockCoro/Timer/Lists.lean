import RockCoro.Timer.TimeWheel

/-!
# The intrusive lists of the timer

`Holds nodes l xs` says that the list `l` over the node memory is the chain of the coroutines `xs`.
`Contents s f` says the same of many lists over the same nodes, and that no coroutine is in two of
them; the places of the timer, its pending list and the slots of its wheels, are such a family. Each
list operation has one lemma for the list it works on, and one for all lists.
-/

namespace RockCoro

open Chain

variable {C : Type}

/-- The link of every node. -/
def nextOf (nodes : C → TimeWheelLinkedListNode C) : C → Option C := fun c => (nodes c).next

namespace TimeWheelLinkedList

variable {nodes : C → TimeWheelLinkedListNode C} {l : TimeWheelLinkedList C} {xs : List C} {c d : C}

/-- `l` is the chain of the coroutines `xs`. -/
structure Holds (nodes : C → TimeWheelLinkedListNode C) (l : TimeWheelLinkedList C) (xs : List C) :
    Prop where
  chain : Linked (nextOf nodes) l.head xs
  tail : l.tail = xs.getLast?

/-- A fresh list is empty. -/
theorem holds_empty : Holds nodes {} [] := ⟨rfl, rfl⟩

/-- A list is the business of its own nodes' links. -/
theorem Holds.congr {nodes' : C → TimeWheelLinkedListNode C} (h : Holds nodes l xs)
    (hn : ∀ c ∈ xs, nextOf nodes' c = nextOf nodes c) : Holds nodes' l xs :=
  ⟨h.chain.congr hn, h.tail⟩

variable [DecidableEq C]

/-- Writing a link changes that link. -/
theorem nextOf_setNext {n : Option C} :
    nextOf (setNext nodes c n) = Function.update (nextOf nodes) c n := by
  funext x
  rcases eq_or_ne x c with rfl | hx
  · simp [nextOf, setNext]
  · simp [nextOf, setNext, hx]

/-- Writing a link leaves the delays alone. -/
theorem delayMS_setNext {n : Option C} : (setNext nodes c n d).delayMS = (nodes d).delayMS := by
  rcases eq_or_ne d c with rfl | hx
  · simp [setNext]
  · simp [setNext, hx]

omit [DecidableEq C] in
/-- `pop_front` of an empty list is null. -/
theorem Holds.popFront_nil (h : Holds nodes l []) : l.popFront nodes = (none, l) := by
  have hh : l.head = none := h.chain
  rw [popFront, hh]

omit [DecidableEq C] in
/-- `pop_front` takes the first node. -/
theorem Holds.popFront_cons (h : Holds nodes l (c :: xs)) :
    ∃ l', l.popFront nodes = (some c, l') ∧ Holds nodes l' xs := by
  obtain ⟨⟨hh, hchain⟩, htail⟩ := h
  have hnext : (nodes c).next = xs.head? := hchain.head
  cases xs with
  | nil =>
    refine ⟨⟨none, none⟩, ?_, rfl, rfl⟩
    rw [popFront, hh]
    simp only [hnext, List.head?_nil, if_true]
  | cons x xs =>
    refine ⟨⟨some x, l.tail⟩, ?_, ⟨rfl, hchain.2⟩, htail⟩
    rw [popFront, hh]
    simp [hnext]

/-- `push_back` adds a node at the end, whatever its link was; it writes the links of that node and
of the old last one. -/
theorem Holds.pushBack (h : Holds nodes l xs) (hc : c ∉ xs) :
    ∃ nodes' l', l.pushBack nodes c = .ok (nodes', l') ∧ Holds nodes' l' (xs ++ [c]) ∧
      (∀ d, (nodes' d).delayMS = (nodes d).delayMS) ∧
      ∀ d, d ≠ c → d ∉ xs → nextOf nodes' d = nextOf nodes d := by
  obtain ⟨hchain, htail⟩ := h
  rcases List.eq_nil_or_concat xs with rfl | ⟨ys, t, hxs⟩
  · have hh : l.head = none := hchain
    refine ⟨setNext nodes c none, ⟨some c, some c⟩, ?_, ⟨⟨rfl, ?_⟩, rfl⟩,
      fun d => delayMS_setNext, fun d hd _ => ?_⟩
    · rw [TimeWheelLinkedList.pushBack, hh]
    · simp [nextOf_setNext]
    · rw [nextOf_setNext, Function.update_of_ne hd]
  · rw [List.concat_eq_append] at hxs
    subst hxs
    obtain ⟨h₀, hh⟩ : ∃ h₀, l.head = some h₀ := by
      rw [hchain.head]
      cases ys with
      | nil => exact ⟨_, rfl⟩
      | cons y ys => exact ⟨_, rfl⟩
    have ht : l.tail = some t := by simpa using htail
    have hct : c ≠ t := by
      rintro rfl
      exact hc (by simp)
    refine ⟨setNext (setNext nodes t (some c)) c none, ⟨some h₀, some c⟩, ?_, ⟨?_, by simp⟩,
      fun d => delayMS_setNext.trans delayMS_setNext, fun d hd hd' => ?_⟩
    · rw [TimeWheelLinkedList.pushBack, hh, ht]
    · rw [nextOf_setNext, nextOf_setNext, Function.update_comm hct.symm, ← hh]
      exact Linked.concat (hchain.update hc) hc (Function.update_self ..)
    · have hdt : d ≠ t := by
        rintro rfl
        exact hd' (by simp)
      rw [nextOf_setNext, Function.update_of_ne hd, nextOf_setNext, Function.update_of_ne hdt]

end TimeWheelLinkedList

open TimeWheelLinkedList

/-! ## Many lists over the same nodes -/

/-- Lists over the nodes of all coroutines. -/
structure TimeWheelLists (L C : Type) where
  nodes : C → TimeWheelLinkedListNode C
  lists : L → TimeWheelLinkedList C

namespace TimeWheelLists

variable {L : Type} {s : TimeWheelLists L C} {f : L → List C} {l : L} {c : C} {xs : List C}

/-- Every list `l` holds the coroutines `f l`, and no coroutine is in two lists. -/
structure Contents (s : TimeWheelLists L C) (f : L → List C) : Prop where
  holds : ∀ l, Holds s.nodes (s.lists l) (f l)
  disjoint : ∀ {l l' c}, c ∈ f l → c ∈ f l' → l = l'

variable [DecidableEq L]

/-- A popped coroutine is in no list. -/
theorem Contents.notMem_popped (h : s.Contents f) (hl : f l = c :: xs) (q : L) :
    c ∉ Function.update f l xs q := by
  rcases eq_or_ne q l with rfl | hq
  · rw [Function.update_self]
    exact (List.nodup_cons.1 (hl ▸ (h.holds q).chain.nodup)).1
  · rw [Function.update_of_ne hq]
    exact fun hm => hq (h.disjoint hm (hl ▸ List.mem_cons_self))

/-- `pop_front` on a list takes its first node; the other lists stay. -/
theorem Contents.pop (h : s.Contents f) (hl : f l = c :: xs) :
    ∃ l', (s.lists l).popFront s.nodes = (some c, l') ∧
      Contents ⟨s.nodes, Function.update s.lists l l'⟩ (Function.update f l xs) := by
  obtain ⟨l', hpop, hh⟩ := (hl ▸ h.holds l).popFront_cons
  have hsub : ∀ {q x}, x ∈ Function.update f l xs q → x ∈ f q := by
    intro q x hx
    rcases eq_or_ne q l with rfl | hq
    · rw [Function.update_self] at hx
      rw [hl]
      exact List.mem_cons_of_mem _ hx
    · rwa [Function.update_of_ne hq] at hx
  refine ⟨l', hpop, ⟨fun q => ?_, fun hx hy => h.disjoint (hsub hx) (hsub hy)⟩⟩
  change Holds s.nodes (Function.update s.lists l l' q) _
  rcases eq_or_ne q l with rfl | hq
  · rw [Function.update_self, Function.update_self]
    exact hh
  · rw [Function.update_of_ne hq, Function.update_of_ne hq]
    exact h.holds q

variable [DecidableEq C]

/-- `push_back` on a list adds a node that is in none; the other lists stay. -/
theorem Contents.push (h : s.Contents f) (l : L) (hc : ∀ q, c ∉ f q) :
    ∃ nodes l', (s.lists l).pushBack s.nodes c = .ok (nodes, l') ∧
      (∀ d, (nodes d).delayMS = (s.nodes d).delayMS) ∧
      Contents ⟨nodes, Function.update s.lists l l'⟩ (Function.update f l (f l ++ [c])) := by
  obtain ⟨nodes, l', hpush, hh, hdelay, hnext⟩ := (h.holds l).pushBack (hc l)
  refine ⟨nodes, l', hpush, hdelay, fun q => ?_, fun {q r x} hx hy => ?_⟩
  · change Holds nodes (Function.update s.lists l l' q) _
    rcases eq_or_ne q l with rfl | hq
    · rw [Function.update_self, Function.update_self]
      exact hh
    · rw [Function.update_of_ne hq, Function.update_of_ne hq]
      refine (h.holds q).congr fun d hd => hnext d ?_ ?_
      · exact fun he => hc q (he ▸ hd)
      · exact fun hm => hq (h.disjoint hd hm)
  · have hmem : ∀ {q x}, x ∈ Function.update f l (f l ++ [c]) q → x ∈ f q ∨ (x = c ∧ q = l) := by
      intro q x hx
      rcases eq_or_ne q l with rfl | hq
      · simpa using hx
      · rw [Function.update_of_ne hq] at hx
        exact .inl hx
    rcases hmem hx with hx' | ⟨hxc, hql⟩
    · rcases hmem hy with hy' | ⟨hxc, -⟩
      · exact h.disjoint hx' hy'
      · exact absurd (hxc ▸ hx') (hc q)
    · rcases hmem hy with hy' | ⟨-, hrl⟩
      · exact absurd (hxc ▸ hy') (hc r)
      · rw [hql, hrl]

end TimeWheelLists

/-! ## The lists of the timer -/

/-- The lists of the timer. -/
inductive Place
  | pending
  | slot (w : Fin TIMEWHEEL_NUM_WHEELS) (i : Fin TIMEWHEEL_NUM_SLOTS_PER_WHEEL)
  deriving DecidableEq

namespace TimerManager

variable {s : TimerManager C} {f : Place → List C} {p q : Place} {c : C} {xs : List C}
  {l : TimeWheelLinkedList C}

/-- The list at a place. -/
def listAt (s : TimerManager C) : Place → TimeWheelLinkedList C
  | .pending => s.pendingEvents
  | .slot w i => s.slot w i

/-- The list at a place is written. -/
def setList (s : TimerManager C) (p : Place) (l : TimeWheelLinkedList C) : TimerManager C :=
  match p with
  | .pending => { s with pendingEvents := l }
  | .slot w i => s.setSlot w i l

/-- The lists of all places. -/
def lists (s : TimerManager C) : TimeWheelLists Place C := ⟨s.nodes, s.listAt⟩

/-- Every place `p` holds the coroutines `f p`, and no coroutine is in two places. -/
structure Contents (s : TimerManager C) (f : Place → List C) : Prop where
  holds : ∀ p, Holds s.nodes (s.listAt p) (f p)
  disjoint : ∀ {p q c}, c ∈ f p → c ∈ f q → p = q

/-- The lists of the timer are lists of `TimeWheelLists`. -/
theorem contents_lists : s.lists.Contents f ↔ s.Contents f :=
  ⟨fun h => ⟨h.holds, h.disjoint⟩, fun h => ⟨h.holds, h.disjoint⟩⟩

/-- No coroutine is in a list twice. -/
theorem Contents.nodup (h : s.Contents f) (p : Place) : (f p).Nodup := (h.holds p).chain.nodup

/-- Changing one list leaves the others. -/
theorem listAt_setList : (s.setList p l).listAt = Function.update s.listAt p l := by
  funext q
  cases p with
  | pending => cases q <;> rfl
  | slot w i =>
    cases q with
    | pending => rfl
    | slot w' i' =>
      rcases eq_or_ne w' w with rfl | hw
      · rcases eq_or_ne i' i with rfl | hi
        · simp [setList, listAt, slot, setSlot, setWheel]
        · simp [setList, listAt, slot, setSlot, setWheel, hi]
      · simp [setList, listAt, slot, setSlot, setWheel, hw]

/-- Changing a list leaves the nodes alone. -/
theorem setList_nodes : (s.setList p l).nodes = s.nodes := by cases p <;> rfl

/-- Changing a list of the timer is changing that list of `TimeWheelLists`. -/
theorem lists_setList : (s.setList p l).lists = ⟨s.nodes, Function.update s.listAt p l⟩ := by
  rw [lists, setList_nodes, listAt_setList]

/-- A popped coroutine is at no place. -/
theorem Contents.notMem_popped (h : s.Contents f) (hp : f p = c :: xs) (q : Place) :
    c ∉ Function.update f p xs q :=
  (contents_lists.2 h).notMem_popped hp q

/-- `pop_front` at a place. -/
theorem Contents.pop (h : s.Contents f) (hp : f p = c :: xs) :
    ∃ l, (s.listAt p).popFront s.nodes = (some c, l) ∧
      (s.setList p l).Contents (Function.update f p xs) := by
  obtain ⟨l, hpop, h'⟩ := (contents_lists.2 h).pop hp
  exact ⟨l, hpop, contents_lists.1 (lists_setList ▸ h')⟩

variable [DecidableEq C]

/-- `push_back` at a place of a coroutine that is in none. -/
theorem Contents.push (h : s.Contents f) (p : Place) (hc : ∀ q, c ∉ f q) :
    ∃ nodes l, (s.listAt p).pushBack s.nodes c = .ok (nodes, l) ∧
      (∀ d, (nodes d).delayMS = (s.nodes d).delayMS) ∧
      ({ s with nodes := nodes }.setList p l).Contents (Function.update f p (f p ++ [c])) := by
  obtain ⟨nodes, l, hpush, hdelay, h'⟩ := (contents_lists.2 h).push p hc
  exact ⟨nodes, l, hpush, hdelay, contents_lists.1 (lists_setList ▸ h')⟩

end TimerManager

end RockCoro
