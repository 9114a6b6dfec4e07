import RockCoro.Memory.TSLinkedList.Fifo

/-!
# Lists that are initialized by their first users

`init`, at the head of every operation, checks `head_` and stores `head_` and `tail_` later. Two
threads that are in it at once both store their dummy nodes (`not_lazilySafe`). A list whose `init`
is run by one thread at a time is safe (`run_lazilySafe`).
-/

namespace RockCoro

open AtomicObject AtomicObject.Fifo EpochBasedReclamation

variable {L T N V : Type} [DecidableEq L] [DecidableEq T] [DecidableEq N] {s s₀ : Queues L T N V}
  {log : List (ListEvent L T N V)}

/-- The thread is about to load `tail_`, behind `init`. -/
def ListPc.LoadsTail (l : L) : ListPc L N V → Prop
  | .pushTail l' _ _ | .popTail l' _ => l' = l
  | _ => False

/-- The first users of a list initialize it together. -/
structure LazilySafe (log : List (ListEvent L T N V)) (s : Queues L T N V) : Prop where
  /-- All stores of `init` are of one dummy node. -/
  dummies : ∀ l p q, .dummy l p ∈ log → .dummy l q ∈ log → p = q
  /-- No thread loads a null `tail_`. -/
  tail : ∀ t l, (s.pcs t).LoadsTail l → (s.lists l).tail.ptr ≠ none
  /-- A value that was pushed is taken once or is in the list. -/
  fifo : IsFifo log s

/-- The dummy nodes that were stored, against the lists. -/
structure Config.Dummies (c : Config L T N V) : Prop where
  ne : ∀ l p, .dummy l p ∈ c.log → p ≠ {}
  head : ∀ l p, .dummy l p ∈ c.log → c.chain l = [] → (c.lists l).head = p
  unique : ∀ l p q, .dummy l p ∈ c.log → .dummy l q ∈ c.log → p = q

namespace Config

variable {c c' : Config L T N V} {live : N → Prop} {e : Option (ListEvent L T N V)}

omit [DecidableEq N] in
/-- A step keeps the dummy nodes: a second store is of the node that was stored before. -/
theorem Dummies.follows (h : c.Dummies) (hf : Follows live c s e c') : c'.Dummies := by
  have hlog : ∀ l p, .dummy l p ∈ c'.log → .dummy l p ∈ c.log ∨ e = some (.dummy l p) := by
    intro l p hp
    rw [hf.log] at hp
    exact (List.mem_append.1 hp).imp_right fun hp => Option.mem_toList.1 hp
  -- a dummy node that is stored now is the one that was stored before
  have hnew : ∀ l p q, .dummy l p ∈ c.log → e = some (.dummy l q) → p = q := by
    intro l p q hp hq
    obtain ⟨-, hnil, hhead, -⟩ := hf.dummy l q hq
    have hold := h.head l p hp hnil
    rcases hhead with hhead | hhead
    · exact absurd (hold.symm.trans hhead) (h.ne l p hp)
    · exact hold.symm.trans hhead
  refine ⟨fun l p hp => ?_, fun l p hp hnil => ?_, fun l p q hp hq => ?_⟩
  · rcases hlog l p hp with hp | hp
    · exact h.ne l p hp
    · exact (hf.dummy l p hp).1
  · rcases hlog l p hp with hp | hp
    · by_cases he : ∃ q, e = some (.dummy l q)
      · obtain ⟨q, hq⟩ := he
        rw [(hf.dummy l q hq).2.2.2, hnew l p q hp hq]
      · rw [hf.head l hnil fun q hq => he ⟨q, hq⟩]
        refine h.head l p hp ?_
        by_contra hne
        exact hf.chain l hne hnil
    · exact (hf.dummy l p hp).2.2.2
  · rcases hlog l p hp with hp | hp
    · rcases hlog l q hq with hq | hq
      · exact h.unique l p q hp hq
      · exact hnew l p q hp hq
    · rcases hlog l q hq with hq | hq
      · exact (hnew l q p hq hp).symm
      · obtain ⟨-, rfl⟩ := ListEvent.dummy.inj (Option.some.inj (hp.symm.trans hq))
        rfl

omit [DecidableEq N] in
/-- The invariants make the first use of a list safe. -/
theorem Inv.lazilySafe (h : c.Inv live) (hd : c.Dummies) : LazilySafe c.log c.toQueues where
  dummies := hd.unique
  tail t l hpc := by
    have hpast : (c.footprint t).past = some l := by
      rw [footprint]
      cases hp : c.pcs t with
      | pushTail l' v node | popTail l' first =>
        rw [hp] at hpc
        exact congrArg some hpc
      | _ =>
        rw [hp] at hpc
        cases hpc
    obtain ⟨l₁, n, l₂, htail, -⟩ := (h.list l ((h.threads t).past l hpast)).tail
    rw [htail]
    exact Option.some_ne_none _
  fifo := h.isFifo

end Config

/-- The lists are safe in every run in which no thread is in `init` of a list when another one
checks `head_` there. -/
theorem run_lazilySafe (hs₀ : s₀.Starts) (hr : Queues.Run OneInit s₀ log s) : LazilySafe log s := by
  obtain ⟨c, rfl, rfl, hinv, hdummies⟩ : ∃ c : Config L T N V, c.toQueues = s ∧ c.log = log ∧
      c.Inv (fun n => ∃ p, s₀.config.At n p) ∧ c.Dummies := by
    induction hr with
    | start => exact ⟨s₀.config, rfl, rfl, hs₀.inv, nofun, nofun, nofun⟩
    | step _ ha hp hs ih =>
      obtain ⟨c, rfl, rfl, hinv, hdummies⟩ := ih
      obtain ⟨c', hfollows⟩ := hinv.follows ha hp hs
      exact ⟨c', hfollows.state, hfollows.log, hfollows.inv, hdummies.follows hfollows⟩
  exact hinv.lazilySafe hdummies

/-- A list that is not initialized. -/
def newList : Queues Unit Bool (Fin 4) ℕ where
  nodes _ := {}
  free _ := true

/-- `newList` is a first state. -/
theorem starts_newList : newList.Starts where
  pcs _ := rfl
  retired := rfl
  lists _ := .inl rfl
  distinct _ _ _ _ _ := rfl

/-- Some steps of one thread. -/
def initSteps (t : Bool) (k : ℕ) : List (ListAction Unit Bool (Fin 4) ℕ) :=
  List.replicate k (.thread t false)

/-- The thread `true` initializes the list and pushes `7`, then `false` checks `head_` and pops. -/
def initOnce : List (ListAction Unit Bool (Fin 4) ℕ) :=
  .call true (.push () 7) :: initSteps true 1 ++ .get true ⟨some 1, 0⟩ :: initSteps true 2 ++
    .get true ⟨some 2, 0⟩ :: initSteps true 8 ++ .call false (.pop ()) :: initSteps false 12

/-- The run of `initOnce`, in which `false` gets the value. -/
theorem run_lazilySafe_new : ∃ log s, newList.exec OneInit [] initOnce = some (s, log) ∧
    .op (.ret false (some 7)) ∈ log ∧ LazilySafe log s := by
  have hlog : ((newList.exec OneInit [] initOnce).any fun p =>
      decide (ListEvent.op (.ret false (some 7)) ∈ p.2)) = true := by decide +kernel
  obtain ⟨⟨s, log⟩, hrun, hmem⟩ := (Option.any_eq_true _ _).1 hlog
  exact ⟨log, s, hrun, of_decide_eq_true hmem,
    run_lazilySafe starts_newList (Queues.Run.start.exec hrun)⟩

/-- Both threads find `head_` null. `true` stores its dummy node, pushes `7` and returns; then
`false` stores its own. -/
def initTwice : List (ListAction Unit Bool (Fin 4) ℕ) :=
  .call true (.push () 7) :: initSteps true 1 ++ .call false (.pop ()) :: initSteps false 1 ++
    .get true ⟨some 1, 0⟩ :: initSteps true 2 ++ .get true ⟨some 2, 0⟩ :: initSteps true 8 ++
    .get false ⟨some 3, 0⟩ :: initSteps false 2

/-- `false` checks `head_` between the two stores of `true`. -/
def initHalf : List (ListAction Unit Bool (Fin 4) ℕ) :=
  .call true (.push () 7) :: initSteps true 1 ++ .get true ⟨some 1, 0⟩ :: initSteps true 1 ++
    .call false (.pop ()) :: initSteps false 3

/-- A value is lost, and a thread loads a null `tail_`. -/
theorem not_lazilySafe :
    (∃ log s, Queues.Run (fun _ _ => True) newList log s ∧ .op (.ret true none) ∈ log ∧
      pushes () (operations log) = [7] ∧ pops () (operations log) = [] ∧ s.Contains () [] ∧
      ¬LazilySafe log s) ∧
    ∃ log s, Queues.Run (fun _ _ => True) newList log s ∧ (s.pcs false).LoadsTail () ∧
      (s.lists ()).head.ptr ≠ none ∧ (s.lists ()).tail.ptr = none ∧ ¬LazilySafe log s := by
  constructor
  · have hlog : ((newList.exec (fun _ _ => True) [] initTwice).any fun p =>
        decide (ListEvent.op (.ret true none) ∈ p.2 ∧ pushes () (operations p.2) = [7] ∧
          pops () (operations p.2) = [] ∧ (p.1.lists ()).head.ptr = some 3 ∧ p.1.next 3 = none)) =
            true := by
      decide +kernel
    obtain ⟨⟨s, log⟩, hrun, hp⟩ := (Option.any_eq_true _ _).1 hlog
    obtain ⟨hret, hpushes, hpops, hhead, hnext⟩ := of_decide_eq_true hp
    have hlinked : Chain.Linked s.next (s.lists ()).head.ptr [3] := ⟨hhead, hnext⟩
    refine ⟨log, s, Queues.Run.start.exec hrun, hret, hpushes, hpops, ⟨[3], hlinked, rfl⟩,
      fun h => ?_⟩
    obtain ⟨vs, ⟨w, hw, hvs⟩, horder⟩ := h.fifo.order ()
    obtain rfl := hw.unique hlinked
    rw [hpushes, hpops] at horder
    obtain rfl : [7] = vs := horder
    cases hvs
  · have hlog : ((newList.exec (fun _ _ => True) [] initHalf).any fun p =>
        decide (p.1.pcs false = .popTail () ⟨some 1, 0⟩ ∧ (p.1.lists ()).head.ptr = some 1 ∧
          (p.1.lists ()).tail.ptr = none)) = true := by
      decide +kernel
    obtain ⟨⟨s, log⟩, hrun, hp⟩ := (Option.any_eq_true _ _).1 hlog
    obtain ⟨hpc, hhead, htail⟩ := of_decide_eq_true hp
    have hloads : (s.pcs false).LoadsTail () := by
      rw [hpc]
      rfl
    refine ⟨log, s, Queues.Run.start.exec hrun, hloads, ?_, htail, fun h =>
      h.tail false () hloads htail⟩
    rw [hhead]
    nofun

end RockCoro
