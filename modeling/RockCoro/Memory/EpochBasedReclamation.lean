import Mathlib.Logic.Function.Basic
import Mathlib.Data.Nat.Bitwise
import Mathlib.Algebra.Ring.Nat
import Mathlib.Data.Fintype.Defs

/-!
# Epoch-based reclamation

`memory/epoch_based_reclamation.cpp`, one atomic operation a step: threads `T` in `enter_epoch`,
`exit_epoch` and `retire`, nodes `N`, and the thread of `epoch_maintainer` in `advance_epoch`. The
retire list of a thread is read and written by that thread only, so its accesses belong to the
step before or after them. An assertion that fails ends the run, except for those on a duplicate
call of `enter_epoch` or `exit_epoch`: it returns at once, as in a build without assertions.
-/

namespace RockCoro

/-- `EBR_MAX_THREADS`. -/
abbrev EBR_MAX_THREADS : ℕ := 1024

/-- `GET_EPOCH_STATUS`. -/
def getEpochStatus (epoch : UInt64) (active : Bool) : UInt64 :=
  if active then epoch ||| 0x8000000000000000 else epoch &&& 0x7FFFFFFFFFFFFFFF

/-- `IS_EPOCH_STATUS_ACTIVE`. -/
def isEpochStatusActive (epochStatus : UInt64) : Bool :=
  epochStatus &&& 0x8000000000000000 != 0

/-- A pointer, and the epoch in which it was retired. -/
structure RetireRecord (N : Type) where
  ptr : N
  retireEpoch : UInt64
  deriving DecidableEq

/-- The status of a thread and its retire list. -/
structure ThreadEpoch (N : Type) where
  epochStatus : UInt64 := 0
  retireList : List (RetireRecord N) := []
  deriving DecidableEq

/-- Where a thread stands. The arguments are its local variables. -/
inductive ThreadPc (N : Type)
  /-- In none of the functions. -/
  | idle
  | enterLoad
  | enterGlobal (oldLocalEpoch : UInt64)
  | enterCas (oldLocalEpoch newLocalEpoch : UInt64)
  | exitLoad
  | exitCas (oldLocalEpoch : UInt64)
  | exitGc
  /-- At the head of the loop of `exit_epoch` that reclaims. -/
  | reclaim (curGcEpoch : UInt64)
  /-- In that loop, between the call of `release` and `pop_front`. -/
  | popFront (curGcEpoch : UInt64)
  /-- In `retire`, after its assertions. -/
  | retiring (ptr : N)
  deriving DecidableEq

/-- A thread: its `ThreadEpoch`, and the call that it is in. -/
structure Thread (N : Type) extends ThreadEpoch N where
  pc : ThreadPc N := .idle
  deriving DecidableEq

/-- The records of the retire list whose nodes were not handed to `release`. -/
def Thread.pending {N : Type} (x : Thread N) : List (RetireRecord N) :=
  match x.pc with
  | .popFront _ => x.retireList.tail
  | _ => x.retireList

/-- Outside `pop_front` the pending records are those of the list. -/
theorem Thread.pending_eq {N : Type} {x : Thread N} (hpc : ∀ cur, x.pc ≠ .popFront cur) :
    x.pending = x.retireList := by
  rw [Thread.pending]
  split
  · rename_i he
    exact absurd he (hpc _)
  · rfl

/-- Outside `pop_front` the pending records depend on the list only. -/
theorem Thread.pending_congr {N : Type} {x y : Thread N} (hx : ∀ cur, x.pc ≠ .popFront cur)
    (hy : ∀ cur, y.pc ≠ .popFront cur) (hlist : x.retireList = y.retireList) :
    x.pending = y.pending := by
  rw [Thread.pending_eq hx, Thread.pending_eq hy, hlist]

/-- Where the thread of `epoch_maintainer` stands in `advance_epoch`. -/
inductive MaintainerPc (T : Type)
  | load
  | fetchAdd (minEpoch : UInt64)
  | loadCur (minEpoch : UInt64)
  | loadCount (minEpoch curGlbEpoch : UInt64)
  /-- At the head of the loop; `rest` are the threads of the indices `i, …, 0`. -/
  | scan (minEpoch curGlbEpoch : UInt64) (rest : List T)
  | scanCas (minEpoch curGlbEpoch : UInt64) (i : T) (oldLocalEpoch : UInt64) (rest : List T)
  deriving DecidableEq

/-- The threads that called `init_thread_epoch` are in `registered`, in the order of their
`thread_epoch_index`; its length is `thread_epochs_count_`. -/
structure EpochBasedReclamation (T N : Type) where
  globalEpoch : UInt64 := 1
  gcEpoch : UInt64 := 0
  threads : T → Thread N := fun _ => {}
  registered : List T := []
  maintainer : MaintainerPc T := .load

/-- The calls of the functions by a thread, the next step of a thread, and the next step of the
maintainer. `spurious` is a `compare_exchange_weak` that fails without a reason. -/
inductive EpochAction (T N : Type)
  | enterEpoch (t : T)
  | exitEpoch (t : T)
  | retire (t : T) (ptr : N)
  | thread (t : T) (spurious : Bool)
  | advanceEpoch
  deriving DecidableEq

/-- What a run is observed by: the exchange by which a thread gets into its critical section or out
of it, the stamp of a retired node, and `TSLinkedListNodeAllocator::release`. -/
inductive EpochEvent (T N : Type)
  | entered (t : T)
  | exited (t : T)
  | retired (t : T) (ptr : N)
  | released (t : T) (ptr : N)
  deriving DecidableEq

namespace EpochBasedReclamation

variable {T N : Type} [DecidableEq T]

/-- The thread `t` becomes `x`. -/
def setThread (s : EpochBasedReclamation T N) (t : T) (x : Thread N) : EpochBasedReclamation T N :=
  { s with threads := Function.update s.threads t x }

/-- The thread `t` comes to `pc`. -/
def setPc (s : EpochBasedReclamation T N) (t : T) (pc : ThreadPc N) : EpochBasedReclamation T N :=
  s.setThread t { s.threads t with pc := pc }

/-- `init_thread_epoch`. -/
def initThreadEpoch (s : EpochBasedReclamation T N) (t : T) : Option (EpochBasedReclamation T N) :=
  if t ∈ s.registered then some s
  else if s.registered.length < EBR_MAX_THREADS then
    some { s with registered := s.registered ++ [t] }
  else none

/-- The call of `enter_epoch` or `exit_epoch`, up to its first load. -/
def call (s : EpochBasedReclamation T N) (t : T) (pc : ThreadPc N) :
    Option (EpochBasedReclamation T N) :=
  match (s.threads t).pc with
  | .idle => (s.initThreadEpoch t).map fun s => s.setPc t pc
  | _ => none

/-- The assertions of `retire`. -/
def callRetire (s : EpochBasedReclamation T N) (t : T) (ptr : N) :
    Option (EpochBasedReclamation T N) :=
  match (s.threads t).pc with
  | .idle =>
    if t ∈ s.registered ∧ isEpochStatusActive (s.threads t).epochStatus = true then
      some (s.setPc t (.retiring ptr))
    else none
  | _ => none

/-- The next step of a thread that is in one of the functions. -/
def threadStep (s : EpochBasedReclamation T N) (t : T) (spurious : Bool) :
    Option (EpochBasedReclamation T N × Option (EpochEvent T N)) :=
  let x := s.threads t
  match x.pc with
  | .idle => none
  | .enterLoad =>
    if isEpochStatusActive x.epochStatus then some (s.setPc t .idle, none)
    else some (s.setPc t (.enterGlobal x.epochStatus), none)
  | .enterGlobal old => some (s.setPc t (.enterCas old (getEpochStatus s.globalEpoch true)), none)
  | .enterCas old new =>
    if x.epochStatus = old ∧ spurious = false then
      some (s.setThread t { x with epochStatus := new, pc := .idle }, some (.entered t))
    else some (s.setPc t (.enterGlobal x.epochStatus), none)
  | .exitLoad =>
    if isEpochStatusActive x.epochStatus then some (s.setPc t (.exitCas x.epochStatus), none)
    else some (s.setPc t .idle, none)
  | .exitCas old =>
    if x.epochStatus = old ∧ spurious = false then
      some (s.setThread t { x with epochStatus := getEpochStatus old false, pc := .exitGc },
        some (.exited t))
    else some (s.setPc t (.exitCas x.epochStatus), none)
  | .exitGc => some (s.setPc t (.reclaim s.gcEpoch), none)
  | .reclaim cur =>
    match x.retireList with
    | [] => some (s.setPc t .idle, none)
    | r :: _ =>
      if r.retireEpoch ≤ cur then some (s.setPc t (.popFront cur), some (.released t r.ptr))
      else some (s.setPc t .idle, none)
  | .popFront cur =>
    some (s.setThread t { x with retireList := x.retireList.tail, pc := .reclaim cur }, none)
  | .retiring ptr =>
    let r := { ptr := ptr, retireEpoch := getEpochStatus s.globalEpoch false }
    some (s.setThread t { x with retireList := x.retireList ++ [r], pc := .idle },
      some (.retired t ptr))

/-- The next step of `advance_epoch`. -/
def advanceEpoch (s : EpochBasedReclamation T N) : Option (EpochBasedReclamation T N) :=
  match s.maintainer with
  | .load => some { s with maintainer := .fetchAdd s.globalEpoch }
  | .fetchAdd min => some { s with globalEpoch := s.globalEpoch + 1, maintainer := .loadCur min }
  | .loadCur min => some { s with maintainer := .loadCount min s.globalEpoch }
  | .loadCount min cur => some { s with maintainer := .scan min cur s.registered.reverse }
  | .scan min cur (i :: rest) =>
    let old := getEpochStatus (s.threads i).epochStatus false
    some { s with maintainer := .scanCas min cur i old rest }
  | .scanCas min cur i old rest =>
    let x := s.threads i
    if x.epochStatus = old then
      some { s.setThread i { x with epochStatus := cur } with maintainer := .scan min cur rest }
    else
      let old := getEpochStatus x.epochStatus false
      some { s with maintainer := .scan (if min > old then old else min) cur rest }
  | .scan min _ [] =>
    -- `assert(min_epoch > 0)`
    if min = 0 then none else some { s with gcEpoch := min - 1, maintainer := .load }

/-- One step and what is observed of it; `none` is a step that is not possible. -/
def step (s : EpochBasedReclamation T N) :
    EpochAction T N → Option (EpochBasedReclamation T N × Option (EpochEvent T N))
  | .enterEpoch t => (s.call t .enterLoad).map fun s => (s, none)
  | .exitEpoch t => (s.call t .exitLoad).map fun s => (s, none)
  | .retire t ptr => (s.callRetire t ptr).map fun s => (s, none)
  | .thread t spurious => s.threadStep t spurious
  | .advanceEpoch => s.advanceEpoch.map fun s => (s, none)

/-- The node that a thread in this place is about to stamp is not waiting for its release. -/
def Unretired (s : EpochBasedReclamation T N) : ThreadPc N → Prop
  | .retiring ptr => ∀ u, ∀ r ∈ (s.threads u).pending, r.ptr ≠ ptr
  | _ => True

/-- A node is retired at most once before its release. -/
def RetiresOnce (s : EpochBasedReclamation T N) : EpochAction T N → Prop
  | .thread t _ => s.Unretired (s.threads t).pc
  | _ => True

instance [Fintype T] [DecidableEq N] (s : EpochBasedReclamation T N) : DecidablePred s.Unretired
  | .retiring ptr =>
    inferInstanceAs (Decidable (∀ u, ∀ r ∈ (s.threads u).pending, r.ptr ≠ ptr))
  | .idle | .enterLoad | .enterGlobal _ | .enterCas .. | .exitLoad | .exitCas _ | .exitGc
  | .reclaim _ | .popFront _ => instDecidableTrue

instance [Fintype T] [DecidableEq N] (s : EpochBasedReclamation T N) : DecidablePred s.RetiresOnce
  | .thread t _ => inferInstanceAs (Decidable (s.Unretired (s.threads t).pc))
  | .enterEpoch _ | .exitEpoch _ | .retire .. | .advanceEpoch => instDecidableTrue

/-- The runs that retire a node at most once before its release and whose states all meet `P`. -/
inductive Run (P : EpochBasedReclamation T N → Prop) :
    List (EpochEvent T N) → EpochBasedReclamation T N → Prop
  | init : Run P [] {}
  | step {log s a s' e} (hr : Run P log s) (ha : s.RetiresOnce a) (hs : s.step a = some (s', e))
      (hp : P s') : Run P (log ++ e.toList) s'

/-- Takes the steps of a list. -/
def run [Fintype T] [DecidableEq N] (P : EpochBasedReclamation T N → Prop) [DecidablePred P]
    (s : EpochBasedReclamation T N) (log : List (EpochEvent T N)) :
    List (EpochAction T N) → Option (EpochBasedReclamation T N × List (EpochEvent T N))
  | [] => some (s, log)
  | a :: as =>
    match s.step a with
    | some (s', e) =>
      if s.RetiresOnce a ∧ P s' then run P s' (log ++ e.toList) as else none
    | none => none

/-- Executing actions extends a run whose states satisfy `P`. -/
theorem Run.run [Fintype T] [DecidableEq N] {P : EpochBasedReclamation T N → Prop} [DecidablePred P]
    {s s' : EpochBasedReclamation T N} {log log' : List (EpochEvent T N)}
    {as : List (EpochAction T N)} (hr : Run P log s) (h : s.run P log as = some (s', log')) :
    Run P log' s' := by
  induction as generalizing s log with
  | nil =>
    cases h
    exact hr
  | cons a as ih =>
    rw [EpochBasedReclamation.run] at h
    split at h
    · rename_i hs
      split at h
      · rename_i hok
        exact ih (hr.step hok.1 hs hok.2) h
      · cases h
    · cases h

/-! ## What the functions do -/

variable {s s' : EpochBasedReclamation T N} {t : T} {ptr : N} {pc : ThreadPc N}

/-- Registration adds threads and changes nothing else. -/
theorem initThreadEpoch_eq (hs : s.initThreadEpoch t = some s') :
    ∃ registered, s' = { s with registered := registered } ∧ s.registered ⊆ registered ∧
      t ∈ registered := by
  rw [initThreadEpoch] at hs
  split at hs
  · cases hs
    exact ⟨_, rfl, List.Subset.refl _, ‹_›⟩
  · split at hs
    · cases hs
      exact ⟨_, rfl, List.subset_append_left ..,
        List.mem_append_right _ (List.mem_singleton_self t)⟩
    · cases hs

/-- A call is made by an idle thread, which is registered by it. -/
theorem call_eq (hs : s.call t pc = some s') :
    (s.threads t).pc = .idle ∧ ∃ registered, s' = { s with registered := registered }.setPc t pc ∧
      s.registered ⊆ registered ∧ t ∈ registered := by
  rw [call] at hs
  split at hs
  · obtain ⟨s₁, hs₁, rfl⟩ := Option.map_eq_some_iff.1 hs
    obtain ⟨registered, rfl, hsub, hreg⟩ := initThreadEpoch_eq hs₁
    exact ⟨‹_›, registered, rfl, hsub, hreg⟩
  · cases hs

/-- `retire` is called by a registered thread in its critical section. -/
theorem callRetire_eq (hs : s.callRetire t ptr = some s') :
    (s.threads t).pc = .idle ∧ t ∈ s.registered ∧
      isEpochStatusActive (s.threads t).epochStatus = true ∧ s' = s.setPc t (.retiring ptr) := by
  rw [callRetire] at hs
  split at hs
  · split at hs
    · cases hs
      exact ⟨‹_›, (‹_ ∧ _›).1, (‹_ ∧ _›).2, rfl⟩
    · cases hs
  · cases hs

/-- The maintainer writes to the threads in the exchange of the scan only. -/
theorem advanceEpoch_cases (hs : s.advanceEpoch = some s') :
    (s'.threads = s.threads ∧ s'.registered = s.registered) ∨
      ∃ min cur i old rest, s.maintainer = .scanCas min cur i old rest ∧
        (s.threads i).epochStatus = old ∧
        s' = { s.setThread i { s.threads i with epochStatus := cur } with
          maintainer := .scan min cur rest } := by
  cases hmaintainer : s.maintainer with
  | load | fetchAdd | loadCur | loadCount =>
    simp only [advanceEpoch, hmaintainer] at hs
    cases hs
    exact .inl ⟨rfl, rfl⟩
  | scan min cur rest =>
    cases rest with
    | nil =>
      simp only [advanceEpoch, hmaintainer] at hs
      split at hs
      · cases hs
      · cases hs
        exact .inl ⟨rfl, rfl⟩
    | cons i rest =>
      simp only [advanceEpoch, hmaintainer] at hs
      cases hs
      exact .inl ⟨rfl, rfl⟩
  | scanCas min cur i old rest =>
    simp only [advanceEpoch, hmaintainer] at hs
    split at hs
    · cases hs
      exact .inr ⟨min, cur, i, old, rest, rfl, ‹_›, rfl⟩
    · cases hs
      exact .inl ⟨rfl, rfl⟩

end EpochBasedReclamation

end RockCoro
