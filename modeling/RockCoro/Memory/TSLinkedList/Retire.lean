import RockCoro.Memory.TSLinkedList.Frame

/-!
# What is retired is unreachable

Where `head_` and `tail_` of a list are, and where the node is that `pop_front` retires: in no list,
and in none again before `get` returns it (`retire_unreachable`). Behind that it may be the last
node of a list once more (`tail_at_retired`).
-/

namespace RockCoro

open AtomicObject AtomicObject.Fifo

variable {L T N V : Type}

/-- The node is at the end of some links from the pointer. -/
def Queues.Reaches (s : Queues L T N V) (p : Option N) (n : N) : Prop :=
  ∃ m, p = some m ∧ Relation.ReflTransGen (fun a b => s.next a = some b) m n

/-- `tail_` is at the last node from `head_` on or at the one before. -/
def Queues.TailNearEnd (s : Queues L T N V) (l : L) : Prop :=
  ∃ l₁ n l₂, Chain.Linked s.next (s.lists l).head.ptr (l₁ ++ n :: l₂) ∧
    (s.lists l).tail.ptr = some n ∧ l₂.length ≤ 1

/-- The node is in no list. -/
def Queues.Unreachable (s : Queues L T N V) (n : N) : Prop :=
  ∀ l, ¬s.Reaches (s.lists l).head.ptr n ∧ ¬s.Reaches (s.lists l).tail.ptr n

/-- `get` returns the node. -/
def ListAction.Gets (n : N) : ListAction L T N V → Prop
  | .get _ ptr => ptr.ptr = some n
  | _ => False

namespace Config

variable {c : Config L T N V} {live : N → Prop} {l : L} {n : N}

/-- The nodes of a list are those from `head_` on. -/
theorem ListOk.linked_head (h : c.ListOk l) :
    Chain.Linked c.next (c.lists l).head.ptr (c.chain l) := by
  have hptr : (c.lists l).head.ptr = (c.chain l).head? := by
    rw [h.head]
    cases (c.chain l).head? <;> rfl
  rw [hptr]
  exact h.linked

/-- `tail_` is near the end of a list. -/
theorem ListOk.tailNearEnd (h : c.ListOk l) : c.TailNearEnd l := by
  obtain ⟨l₁, n, l₂, htail, hchain, hlen⟩ := h.tail
  exact ⟨l₁, n, l₂, hchain ▸ h.linked_head, congrArg TaggedPtr.ptr htail, hlen⟩

/-- What is reached from `head_` or `tail_` is in the list. -/
theorem ListOk.mem_of_reaches (h : c.ListOk l)
    (hn : c.Reaches (c.lists l).head.ptr n ∨ c.Reaches (c.lists l).tail.ptr n) : n ∈ c.chain l := by
  rcases hn with ⟨m, hm, hmn⟩ | ⟨m, hm, hmn⟩
  · refine h.linked_head.mem_of_reach ?_ hmn
    have hhead := h.linked_head.head
    rw [hm] at hhead
    exact List.mem_of_head? hhead.symm
  · obtain ⟨l₁, k, l₂, htail, hchain, -⟩ := h.tail
    rw [htail] at hm
    obtain rfl := Option.some.inj hm
    refine h.linked_head.mem_of_reach ?_ hmn
    rw [hchain]
    exact List.mem_append_right _ List.mem_cons_self

/-- A node at another place is in no list. -/
theorem Inv.unreachable [DecidableEq L] [DecidableEq T] (h : c.Inv live)
    (hchain : ∀ l, c.chain l ≠ []) {p : Place L T}
    (hn : c.At n p) (hp : ∀ l, p ≠ .chain l) : c.Unreachable n := by
  intro l
  have hmem : n ∉ c.chain l := fun hmem =>
    hp l (h.places.unique hn (show c.At n (.chain l) from hmem))
  exact ⟨fun hr => hmem ((h.list l (hchain l)).mem_of_reaches (.inl hr)),
    fun hr => hmem ((h.list l (hchain l)).mem_of_reaches (.inr hr))⟩

end Config

/-! ## Behind the step of `retire` -/

variable [DecidableEq L] [DecidableEq T] [DecidableEq N] {s s' s₀ : Queues L T N V}
  {log log' : List (ListEvent L T N V)} {t : T} {n : N}
  {P : ListAction L T N V → Prop}

/-- Some steps, which all meet `P`. -/
inductive Queues.Later (P : ListAction L T N V → Prop) (log : List (ListEvent L T N V))
    (s : Queues L T N V) : List (ListEvent L T N V) → Queues L T N V → Prop
  | refl : Later P log s log s
  | step {log' s' a s'' e} (hl : Later P log s log' s') (ha : Reclaims log' a) (hp : P a)
      (hs : s'.step a = some (s'', e)) : Later P log s (log' ++ e.toList) s''

/-- A run goes on with later steps. -/
theorem Queues.Run.later (hr : Queues.Run (fun _ _ => True) s₀ log s)
    (hl : Queues.Later P log s log' s') : Queues.Run (fun _ _ => True) s₀ log' s' := by
  induction hl with
  | refl => exact hr
  | step _ ha _ hs ih => exact ih.step ha trivial hs

/-- The node waits for its release or is free, or `t` is still at `retire`. -/
def Queues.Out (s : Queues L T N V) (t : T) (pc : ListPc L N V) (n : N) : Prop :=
  s.pcs t = pc ∨ (∃ p ∈ s.retired, p.ptr = some n) ∨ s.free n = true

variable {l : L} {first next : TaggedPtr N} {value : Option V} {a : ListAction L T N V}
  {e : Option (ListEvent L T N V)}

/-- A node that is out of the lists stays out, if no `get` returns it. -/
theorem Queues.Out.step (h : s.Out t (.popRetire l first next value) n) (hn : first.ptr = some n)
    (ha : ¬a.Gets n) (hs : s.step a = some (s', e)) :
    s'.Out t (.popRetire l first next value) n := by
  cases a with
  | call u op =>
    simp only [Queues.step] at hs
    split at hs
    · rename_i hidle
      cases hs
      refine h.imp_left fun hpc => ?_
      have hne : t ≠ u := by
        rintro rfl
        cases hpc.symm.trans hidle
      exact (Function.update_of_ne hne ..).trans hpc
    · cases hs
  | thread u spurious =>
    have hstays := stays_of_threadStep hs
    obtain ⟨pc, hpcs, -⟩ := hstays.pcs
    rcases h with hpc | ⟨p, hp, hpn⟩ | hfree
    · by_cases htu : t = u
      · subst htu
        simp only [Queues.step, Queues.threadStep, hpc] at hs
        split at hs
        · cases hs
        · cases hs
          exact .inr (.inl ⟨first, List.mem_append_right _ (List.mem_singleton_self _), hn⟩)
      · refine .inl ?_
        rw [hpcs, Function.update_of_ne htu, hpc]
    · refine .inr (.inl ⟨p, ?_, hpn⟩)
      rw [hstays.retired]
      exact List.mem_append_left _ hp
    · exact .inr (.inr (hstays.free ▸ hfree))
  | get u ptr =>
    simp only [Queues.step, Queues.get] at hs
    obtain ⟨s₁, hs₁, ⟨⟩⟩ := Option.map_eq_some_iff.1 hs
    obtain ⟨m, hm, hs₁⟩ := Option.bind_eq_some_iff.1 hs₁
    have hnm : n ≠ m := by
      rintro rfl
      exact ha hm
    have hframe : s'.retired = s.retired ∧ s'.free n = s.free n ∧
        (s.pcs t = .popRetire l first next value → s'.pcs t = s.pcs t) := by
      split at hs₁
      · split at hs₁
        · rename_i hgets
          cases hs₁
          refine ⟨rfl, Function.update_of_ne hnm .., fun hpc => Function.update_of_ne ?_ ..⟩
          rintro rfl
          cases hpc.symm.trans hgets
        · rename_i hgets
          cases hs₁
          refine ⟨rfl, Function.update_of_ne hnm .., fun hpc => Function.update_of_ne ?_ ..⟩
          rintro rfl
          cases hpc.symm.trans hgets
        · cases hs₁
      · cases hs₁
    obtain ⟨hretired, hfree, hpcs⟩ := hframe
    rw [Queues.Out, hretired, hfree]
    exact h.imp_left fun hpc => (hpcs hpc).trans hpc
  | release u ptr =>
    simp only [Queues.step] at hs
    obtain ⟨m, hm, hs⟩ := Option.bind_eq_some_iff.1 hs
    split at hs
    · cases hs
      rcases h with hpc | ⟨p, hp, hpn⟩ | hfree
      · exact .inl hpc
      · by_cases hmn : n = m
        · exact .inr (.inr (by rw [hmn]; exact Function.update_self ..))
        · refine .inr (.inl ⟨p, (List.mem_erase_of_ne ?_).2 hp, hpn⟩)
          rintro rfl
          exact hmn (Option.some.inj (hpn.symm.trans hm))
      · refine .inr (.inr ?_)
        change Function.update s.free m true n = true
        by_cases hmn : n = m
        · rw [hmn, Function.update_self]
        · rw [Function.update_of_ne hmn, hfree]
    · cases hs
  | write u m node =>
    simp only [Queues.step] at hs
    split at hs
    · cases hs
      exact h
    · cases hs

/-- A node that is out of the lists stays out until a `get` returns it. -/
theorem Queues.Out.later (h : s.Out t (.popRetire l first next value) n) (hn : first.ptr = some n)
    (hl : Queues.Later (fun a => ¬a.Gets n) log s log' s') :
    s'.Out t (.popRetire l first next value) n := by
  induction hl with
  | refl => exact h
  | step _ _ hp hs ih => exact ih.step hn hp hs

namespace Config

variable {c : Config L T N V} {live : N → Prop}

omit [DecidableEq L] [DecidableEq T] [DecidableEq N] in
/-- A node that a thread is about to retire was popped by it. -/
theorem at_popped {u : T} (hpc : c.pcs u = .popRetire l first next value)
    (hn : first.ptr = some n) :
    c.At n (.popped u) := by
  rw [At, footprint, hpc]
  exact hn

omit [DecidableEq N] in
/-- A node that is out is reached from no list, and no second thread is about to retire it. -/
theorem Inv.out (h : c.Inv live) (hchain : ∀ l, c.chain l ≠ []) (hn : first.ptr = some n)
    (hout : c.Out t (.popRetire l first next value) n) :
    c.Unreachable n ∧ ∀ u l' first' next' value', c.pcs u = .popRetire l' first' next' value' →
      first'.ptr = some n → u = t ∧ c.pcs t = .popRetire l first next value := by
  rcases hout with hpc | hretired | hfree
  · refine ⟨h.unreachable hchain (at_popped hpc hn) (fun _ he => by cases he), ?_⟩
    intro u l' first' next' value' hu hn'
    cases h.places.unique (at_popped hu hn') (at_popped hpc hn)
    exact ⟨rfl, hpc⟩
  · have hat : c.At n .retired := hretired
    refine ⟨h.unreachable hchain hat (fun _ he => by cases he), ?_⟩
    intro u l' first' next' value' hu hn'
    cases h.places.unique (at_popped hu hn') hat
  · have hat : c.At n .free := hfree
    refine ⟨h.unreachable hchain hat (fun _ he => by cases he), ?_⟩
    intro u l' first' next' value' hu hn'
    cases h.places.unique (at_popped hu hn') hat

end Config

/-- In every run from initialized lists `tail_` is the last node or the one before, on the way from
`head_`. When `pop_front` retires a node, it is in no list, it waits for no other release, and no
other call retires it. Until `get` returns it, it is in no list, `tail_` does not point to it, and
no other call retires it. -/
theorem retire_unreachable (hs₀ : s₀.Starts) (hinit : ∀ l, (s₀.lists l).head.ptr ≠ none)
    (hr : Queues.Run (fun _ _ => True) s₀ log s) :
    (∀ l, s.TailNearEnd l) ∧
    ∀ t l first next value, s.pcs t = .popRetire l first next value →
      ∃ n, first.ptr = some n ∧ (∀ p ∈ s.retired, p.ptr ≠ some n) ∧
        ∀ log' s', Queues.Later (fun a => ¬a.Gets n) log s log' s' →
          s'.Unreachable n ∧ (∀ l', (s'.lists l').tail.ptr ≠ some n) ∧
          ∀ u l' first' next' value', s'.pcs u = .popRetire l' first' next' value' →
            first'.ptr = some n → u = t ∧ s'.pcs t = .popRetire l first next value := by
  obtain ⟨c, rfl, rfl, hinv, hchain⟩ := hr.initialized hs₀ hinit
  refine ⟨fun l => (hinv.list l (hchain l)).tailNearEnd, fun t l first next value hpc => ?_⟩
  obtain ⟨n, rfl⟩ : ∃ n, first = c.ref n :=
    (hinv.threads t).popped first (by rw [Config.footprint, hpc]; rfl)
  refine ⟨n, rfl, fun p hp hpn => ?_, fun log' s' hl => ?_⟩
  · cases hinv.places.unique (Config.at_popped hpc rfl) (show c.At n .retired from ⟨p, hp, hpn⟩)
  · have hout := Queues.Out.later (.inl hpc) rfl hl
    obtain ⟨c', rfl, rfl, hinv', hchain'⟩ := (hr.later hl).initialized hs₀ hinit
    obtain ⟨hunreachable, honly⟩ := hinv'.out hchain' rfl hout
    exact ⟨hunreachable, fun l' htail => (hunreachable l').2 ⟨n, htail, .refl⟩, honly⟩

/-- One thread, and a list that has its dummy node `0`; the node `1` is free. -/
def oneThread : Queues Unit Unit (Fin 2) ℕ where
  nodes _ := {}
  lists _ := ⟨⟨some 0, 0⟩, ⟨some 0, 0⟩⟩
  free n := n != 0

/-- `oneThread` is a first state. -/
theorem starts_oneThread : oneThread.Starts where
  pcs _ := rfl
  retired := rfl
  lists _ := .inr ⟨0, rfl, rfl, rfl, rfl, rfl⟩
  distinct _ _ _ _ _ := rfl

/-- Some steps of the thread. -/
def ownSteps (k : ℕ) : List (ListAction Unit Unit (Fin 2) ℕ) := List.replicate k (.thread () false)

/-- A push of `7`, and a pop that is at `retire` of the dummy node. -/
def untilRetire : List (ListAction Unit Unit (Fin 2) ℕ) :=
  .call () (.push () 7) :: ownSteps 1 ++ .get () ⟨some 1, 0⟩ :: ownSteps 8 ++ .call () (.pop ()) ::
    ownSteps 9

/-- The thread is about to retire node `0`, which no list reaches. -/
theorem retire_unreachable_one :
    ∃ log s, oneThread.exec (fun _ _ => True) [] untilRetire = some (s, log) ∧
    s.Unreachable 0 ∧ s.TailNearEnd () := by
  have hpc : ((oneThread.exec (fun _ _ => True) [] untilRetire).any fun p =>
      decide (p.1.pcs () = .popRetire () ⟨some 0, 0⟩ ⟨some 1, 1⟩ (some 7))) = true := by
        decide +kernel
  obtain ⟨⟨s, log⟩, hrun, hpc⟩ := (Option.any_eq_true _ _).1 hpc
  obtain ⟨htail, hretire⟩ := retire_unreachable starts_oneThread nofun (Queues.Run.start.exec hrun)
  obtain ⟨n, hn, -, hlater⟩ := hretire _ _ _ _ _ (of_decide_eq_true hpc)
  cases hn
  exact ⟨log, s, hrun, (hlater _ _ .refl).1, htail ()⟩

/-- The node is written to when it is free, and is the node of the next push. -/
def reuse : List (ListAction Unit Unit (Fin 2) ℕ) :=
  .write () 0 {} :: ownSteps 1 ++ .call () (.push () 8) :: ownSteps 1 ++ .get () ⟨some 0, 0⟩ ::
    ownSteps 6

open EpochBasedReclamation in
/-- Behind its release the node is the last one of the list again. -/
theorem tail_at_retired : ∃ log s, Queues.Run (fun _ _ => True) oneThread log s ∧
    .epoch (.retired () ⟨some 0, 0⟩) ∈ log ∧ (s.lists ()).tail.ptr = some 0 := by
  have hsteps : ((oneThread.exec (fun _ _ => True) [] (untilRetire ++ ownSteps 2)).any fun p =>
      decide (epochs p.2 = [.entered (), .exited (), .entered (), .retired () ⟨some 0, 0⟩] ++
        [.exited ()]) &&
      (p.1.step (.release () ⟨some 0, 0⟩)).any fun q =>
        (q.1.exec (fun _ _ => True) (p.2 ++ q.2.toList) reuse).any fun r =>
          decide (.epoch (.retired () ⟨some 0, 0⟩) ∈ r.2 ∧ (r.1.lists ()).tail.ptr = some 0)) =
            true := by
    decide +kernel
  obtain ⟨⟨s₁, log₁⟩, hrun₁, hsteps⟩ := (Option.any_eq_true _ _).1 hsteps
  obtain ⟨hepochs, hsteps⟩ := Bool.and_eq_true_iff.1 hsteps
  obtain ⟨⟨s₂, e⟩, hrelease, hsteps⟩ := (Option.any_eq_true _ _).1 hsteps
  obtain ⟨⟨s, log⟩, hrun₂, htail⟩ := (Option.any_eq_true _ _).1 hsteps
  have hreclaims : Reclaims log₁ (.release () ⟨some 0, 0⟩ : ListAction Unit Unit (Fin 2) ℕ) := by
    intro u hprotects
    rw [of_decide_eq_true hepochs] at hprotects
    rcases hprotects.inside.of_append with he | ⟨-, he⟩
    · cases he
    · exact he rfl
  have hr := (Queues.Run.start.exec hrun₁).step hreclaims trivial hrelease
  exact ⟨log, s, hr.exec hrun₂, of_decide_eq_true htail⟩

end RockCoro
