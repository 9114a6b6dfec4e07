import RockCoro.Lib.Potential
import RockCoro.Memory.Reclaim

/-!
# What is retired is released

How long `exit_epoch` may keep a node. A thread that entered before may hold the published epoch
back, and so may one that read `global_epoch_` before and is still about to enter. The first scan
writes to the statuses of all threads that are in no critical section, so that the exchange of such
a thread fails (`Fresh`); from then on only those threads are behind that were inside (`Left`). When
these have left, the next scan publishes the epoch, and each thread releases what it had retired
when it leaves the next time.
-/

namespace RockCoro

/-- The place is in `exit_epoch`, behind the exchange. -/
def ThreadPc.Reclaims {N : Type} : ThreadPc N → Prop
  | .exitGc | .reclaim _ | .popFront _ => True
  | _ => False

namespace EpochBasedReclamation

variable {T N : Type}

/-- The exchange by which the thread is about to enter gives it an epoch above `g`, or fails. -/
def Fresh (g : ℕ) (x : Thread N) : Prop :=
  ∀ old new, x.pc = .enterCas old new → x.epochStatus = old → g < epochOf new

/-- The thread is in no critical section of an epoch up to `g`. -/
def Left (g : ℕ) (x : Thread N) : Prop :=
  isEpochStatusActive x.epochStatus = true → g < epochOf x.epochStatus

/-- What a step of a thread makes of its status and its place. -/
inductive Moves (s : EpochBasedReclamation T N) (x y : Thread N) : Prop
  | keeps (hstatus : y.epochStatus = x.epochStatus)
    (hpc : ∀ old new, y.pc = .enterCas old new → new = getEpochStatus s.globalEpoch true)
  | enters {old new : UInt64} (hpc : x.pc = .enterCas old new) (hold : x.epochStatus = old)
    (hstatus : y.epochStatus = new) (hidle : y.pc = .idle)
  | exits {old : UInt64} (hpc : x.pc = .exitCas old)
    (hstatus : y.epochStatus = getEpochStatus old false) (hgc : y.pc = .exitGc)

variable {s s' : EpochBasedReclamation T N} {g : ℕ} {x y : Thread N}

/-- When a thread moves after the epoch went past `g`, the exchange it prepares is fresh. -/
theorem Moves.fresh (h : Moves s x y) (hlt : s.globalEpoch.toNat < 2 ^ 63)
    (hg : g < s.globalEpoch.toNat) : Fresh g y := by
  intro old new hpc hold
  cases h with
  | keeps hstatus hnew =>
    rw [hnew old new hpc, epochOf_getEpochStatus_true hlt]
    exact hg
  | enters _ _ _ hidle => cases hidle.symm.trans hpc
  | exits _ _ hgc => cases hgc.symm.trans hpc

/-- What a thread that has left is inside again is above `g`. -/
theorem Moves.left (h : Moves s x y) (hx : Fresh g x) (hleft : Left g x) : Left g y := by
  intro hactive
  cases h with
  | keeps hstatus =>
    rw [hstatus] at hactive ⊢
    exact hleft hactive
  | enters hpc hold hstatus =>
    rw [hstatus]
    exact hx _ _ hpc hold
  | exits hpc hstatus =>
    rw [hstatus, isEpochStatusActive_getEpochStatus_false] at hactive
    cases hactive

variable [DecidableEq T] {t : T} {a : EpochAction T N} {e : Option (EpochEvent T N)}

/-- A step of a thread keeps its status, or is one of the two exchanges that succeed. -/
theorem moves_of_threadStep {spurious : Bool} (hs : s.threadStep t spurious = some (s', e)) :
    Moves s (s.threads t) (s'.threads t) := by
  cases hpc : (s.threads t).pc with
  | idle =>
    simp only [threadStep, hpc] at hs
    cases hs
  | enterLoad | exitLoad =>
    simp only [threadStep, hpc] at hs
    split at hs <;> cases hs <;> rw [setPc, setThread_self] <;>
      exact .keeps rfl fun _ _ he => by cases he
  | enterGlobal old =>
    simp only [threadStep, hpc] at hs
    cases hs
    rw [setPc, setThread_self]
    refine .keeps rfl fun _ _ he => ?_
    cases he
    rfl
  | enterCas old new =>
    simp only [threadStep, hpc] at hs
    split at hs
    · rename_i hcas
      cases hs
      rw [setThread_self]
      exact .enters hpc hcas.1 rfl rfl
    · cases hs
      rw [setPc, setThread_self]
      exact .keeps rfl fun _ _ he => by cases he
  | exitCas old =>
    simp only [threadStep, hpc] at hs
    split at hs
    · cases hs
      rw [setThread_self]
      exact .exits hpc rfl rfl
    · cases hs
      rw [setPc, setThread_self]
      exact .keeps rfl fun _ _ he => by cases he
  | exitGc =>
    simp only [threadStep, hpc] at hs
    cases hs
    rw [setPc, setThread_self]
    exact .keeps rfl fun _ _ he => by cases he
  | reclaim cur =>
    simp only [threadStep, hpc] at hs
    split at hs
    · cases hs
      rw [setPc, setThread_self]
      exact .keeps rfl fun _ _ he => by cases he
    · split at hs <;> cases hs <;> rw [setPc, setThread_self] <;>
        exact .keeps rfl fun _ _ he => by cases he
  | popFront | retiring =>
    simp only [threadStep, hpc] at hs
    cases hs
    rw [setThread_self]
    exact .keeps rfl fun _ _ he => by cases he

/-- A step of a thread, and what it leaves. -/
structure ThreadMoves (s s' : EpochBasedReclamation T N) : Prop where
  global : s'.globalEpoch = s.globalEpoch
  gc : s'.gcEpoch = s.gcEpoch
  maintainer : s'.maintainer = s.maintainer
  threads : ∀ t, s'.threads t = s.threads t ∨ Moves s (s.threads t) (s'.threads t)

/-- A thread that moves, while the others stay. -/
theorem threadMoves_setThread (h : Moves s (s.threads t) x) : ThreadMoves s (s.setThread t x) := by
  refine ⟨rfl, rfl, rfl, fun u => ?_⟩
  rcases eq_or_ne u t with rfl | hne
  · rw [setThread_self]
    exact .inr h
  · exact .inl (setThread_of_ne hne)

/-- Registration beside a move is not seen by the threads. -/
theorem ThreadMoves.register {registered : List T} (h : ThreadMoves s (s.setThread t x)) :
    ThreadMoves s
      (({ s with registered := registered } : EpochBasedReclamation T N).setThread t x) :=
  ⟨rfl, rfl, rfl, h.threads⟩

/-- Every action but the maintainer's is a move of one thread. -/
theorem threadMoves_of_step (hs : s.step a = some (s', e)) (ha : a ≠ .advanceEpoch) :
    ThreadMoves s s' := by
  cases a with
  | enterEpoch t | exitEpoch t =>
    obtain ⟨s₁, hs₁, ⟨⟩⟩ := Option.map_eq_some_iff.1 hs
    obtain ⟨-, registered, rfl, -⟩ := call_eq hs₁
    refine ThreadMoves.register (threadMoves_setThread (.keeps rfl fun _ _ he => ?_))
    simp at he
  | retire t ptr =>
    obtain ⟨s₁, hs₁, ⟨⟩⟩ := Option.map_eq_some_iff.1 hs
    obtain ⟨-, -, -, rfl⟩ := callRetire_eq hs₁
    exact threadMoves_setThread (.keeps rfl fun _ _ he => by cases he)
  | thread t spurious =>
    have hmoves := moves_of_threadStep hs
    obtain ⟨x, rfl⟩ : ∃ x, s' = s.setThread t x := by
      cases observed_of_threadStep hs with
      | moved | entered | exited | released | retired => exact ⟨_, rfl⟩
    rw [setThread_self] at hmoves
    exact threadMoves_setThread hmoves
  | advanceEpoch => exact absurd rfl ha

/-! ## Threads that are up to date stay so -/

omit [DecidableEq T] in
/-- A step of the threads keeps a thread fresh. -/
theorem ThreadMoves.fresh (h : ThreadMoves s s') (hinv : s.Inv) (hg : g < s.globalEpoch.toNat)
    (ht : Fresh g (s.threads t)) : Fresh g (s'.threads t) := by
  rcases h.threads t with he | hmoves
  · rwa [he]
  · exact hmoves.fresh hinv.global_lt hg

omit [DecidableEq T] in
/-- A thread that is fresh does not enter an epoch up to `g` again. -/
theorem ThreadMoves.left (h : ThreadMoves s s') (hfresh : Fresh g (s.threads t))
    (ht : Left g (s.threads t)) : Left g (s'.threads t) := by
  rcases h.threads t with he | hmoves
  · rwa [he]
  · exact hmoves.left hfresh ht

omit [DecidableEq T] in
/-- The exchange of the scan makes the exchange of the thread fail, unless that is to an epoch which
is at least as new. -/
theorem Inv.fresh_exchange {min cur old : UInt64} {i : T} {rest : List T} (h : s.Inv)
    (hm : s.maintainer = .scanCas min cur i old rest) (hg : g < s.globalEpoch.toNat) :
    Fresh g { s.threads i with epochStatus := cur } ∧
      Left g { s.threads i with epochStatus := cur } := by
  have hok := h.maintainer_ok
  rw [hm] at hok
  have hcur : cur = s.globalEpoch := hok.1.cur_eq
  have hlt := h.global_lt
  subst hcur
  refine ⟨fun old' new hpc hold => ?_, fun hactive => ?_⟩
  · have hpcOk := h.pc_ok i
    have hpc : (s.threads i).pc = .enterCas old' new := hpc
    rw [hpc] at hpcOk
    have hle := hpcOk.2.1
    have hold : s.globalEpoch = old' := hold
    rw [← hold, epochOf_of_lt hlt] at hle
    exact hg.trans_le hle
  · rw [(isEpochStatusActive_eq_false _).2 hlt] at hactive
    cases hactive

/-- The maintainer's exchange can only make a pending one fail, so it keeps a thread fresh. -/
theorem Inv.fresh_advance (h : s.Inv) (hg : g < s.globalEpoch.toNat)
    (hs : s.advanceEpoch = some s') (ht : Fresh g (s.threads t)) : Fresh g (s'.threads t) := by
  rcases advanceEpoch_cases hs with ⟨hthreads, -⟩ | ⟨min, cur, i, old, rest, hm, -, rfl⟩
  · rwa [hthreads]
  · change Fresh g ((s.setThread i _).threads t)
    rcases eq_or_ne t i with rfl | hne
    · rw [setThread_self]
      exact (h.fresh_exchange hm hg).1
    · rwa [setThread_of_ne hne]

/-- The maintainer raises the epochs of threads that are in no critical section, so they stay out.
-/
theorem Inv.left_advance (h : s.Inv) (hg : g < s.globalEpoch.toNat)
    (hs : s.advanceEpoch = some s') (ht : Left g (s.threads t)) : Left g (s'.threads t) := by
  rcases advanceEpoch_cases hs with ⟨hthreads, -⟩ | ⟨min, cur, i, old, rest, hm, -, rfl⟩
  · rwa [hthreads]
  · change Left g ((s.setThread i _).threads t)
    rcases eq_or_ne t i with rfl | hne
    · rw [setThread_self]
      exact (h.fresh_exchange hm hg).2
    · rwa [setThread_of_ne hne]

omit [DecidableEq T] in
/-- A thread that is on its way to no critical section. -/
theorem Inv.fresh_of_active (h : s.Inv)
    (hactive : isEpochStatusActive (s.threads t).epochStatus = true) : Fresh g (s.threads t) := by
  intro old new hpc _
  have hok := h.pc_ok t
  rw [hpc] at hok
  rw [hok.1] at hactive
  cases hactive

/-! ## The first scan -/

/-- The threads that the scan is past are up to date. -/
def Renewed (g : ℕ) (s : EpochBasedReclamation T N) : MaintainerPc T → Prop
  | .loadCur _ | .loadCount .. => True
  | .scan _ _ rest => ∀ t, t ∉ rest → Fresh g (s.threads t)
  | .scanCas _ _ i old rest => (∀ t, t ∉ i :: rest → Fresh g (s.threads t)) ∧
      ((s.threads i).epochStatus = old ∨ Fresh g (s.threads i))
  | .load | .fetchAdd _ => ∀ t, Fresh g (s.threads t)

omit [DecidableEq T] in
/-- A step of the threads keeps what the first scan has done. -/
theorem ThreadMoves.renewed {m : MaintainerPc T} (h : ThreadMoves s s') (hinv : s.Inv)
    (hg : g < s.globalEpoch.toNat) (hm : s.Renewed g m) : s'.Renewed g m := by
  have hfresh : ∀ t, Fresh g (s.threads t) → Fresh g (s'.threads t) := fun t =>
    h.fresh hinv hg
  cases m with
  | loadCur | loadCount => trivial
  | scan min cur rest => exact fun t ht => hfresh t (hm t ht)
  | scanCas min cur i old rest =>
    obtain ⟨hswept, hi⟩ := hm
    refine ⟨fun t ht => hfresh t (hswept t ht), ?_⟩
    rcases h.threads i with he | hmoves
    · rwa [he]
    · exact .inr (hmoves.fresh hinv.global_lt hg)
  | load | fetchAdd => exact fun t => hfresh t (hm t)

/-- The scan goes on, and ends. -/
theorem Inv.renewed_advance (h : s.Inv) (hg : g < s.globalEpoch.toNat)
    (hm : s.Renewed g s.maintainer) (hs : s.advanceEpoch = some s')
    (hglobal : s'.globalEpoch = s.globalEpoch) : s'.Renewed g s'.maintainer := by
  cases hmaintainer : s.maintainer with
  | load =>
    rw [hmaintainer] at hm
    simp only [EpochBasedReclamation.advanceEpoch, hmaintainer, Option.some.injEq] at hs
    subst hs
    exact hm
  | fetchAdd min =>
    simp only [EpochBasedReclamation.advanceEpoch, hmaintainer, Option.some.injEq] at hs
    subst hs
    trivial
  | loadCur min =>
    simp only [EpochBasedReclamation.advanceEpoch, hmaintainer, Option.some.injEq] at hs
    subst hs
    trivial
  | loadCount min cur =>
    simp only [EpochBasedReclamation.advanceEpoch, hmaintainer, Option.some.injEq] at hs
    subst hs
    intro t ht old new hpc _
    have hidle := (h.unregistered t fun hreg => ht (List.mem_reverse.2 hreg)).1
    cases hidle.symm.trans hpc
  | scan min cur rest =>
    rw [hmaintainer] at hm
    cases rest with
    | nil =>
      simp only [EpochBasedReclamation.advanceEpoch, hmaintainer] at hs
      split at hs
      · cases hs
      · cases hs
        exact fun t => hm t List.not_mem_nil
    | cons i rest =>
      simp only [EpochBasedReclamation.advanceEpoch, hmaintainer, Option.some.injEq] at hs
      subst hs
      refine ⟨hm, ?_⟩
      cases hactive : isEpochStatusActive (s.threads i).epochStatus with
      | true => exact .inr (h.fresh_of_active hactive)
      | false => exact .inl (getEpochStatus_false_of_inactive hactive).symm
  | scanCas min cur i old rest =>
    rw [hmaintainer] at hm
    obtain ⟨hswept, hi⟩ := hm
    simp only [EpochBasedReclamation.advanceEpoch, hmaintainer] at hs
    split at hs
    · cases hs
      intro t ht
      change Fresh g ((s.setThread i _).threads t)
      rcases eq_or_ne t i with rfl | hne
      · rw [setThread_self]
        exact (h.fresh_exchange hmaintainer hg).1
      · rw [setThread_of_ne hne]
        exact hswept t (List.not_mem_cons_of_ne_of_not_mem hne ht)
    · rename_i hold
      cases hs
      intro t ht
      rcases eq_or_ne t i with rfl | hne
      · exact hi.resolve_left hold
      · exact hswept t (List.not_mem_cons_of_ne_of_not_mem hne ht)

/-! ## The second scan -/

/-- The scan has found no thread behind. -/
def Raised (g : ℕ) (s : EpochBasedReclamation T N) : MaintainerPc T → Prop
  | .loadCur min | .loadCount min _ | .scan min _ _ => g < min.toNat
  | .scanCas min _ i old _ => g < min.toNat ∧
      ((s.threads i).epochStatus = old ∨ g < epochOf (s.threads i).epochStatus)
  | .load | .fetchAdd _ => g ≤ s.gcEpoch.toNat

omit [DecidableEq T] in
/-- A fresh thread that is out of the old epochs changes its status to a later epoch only. -/
theorem Moves.epoch_lt {old : UInt64} (h : Moves s x y) (hok : s.PcOk x x.pc) (hfresh : Fresh g x)
    (hleft : Left g x) (hx : x.epochStatus = old ∨ g < epochOf x.epochStatus) :
    y.epochStatus = old ∨ g < epochOf y.epochStatus := by
  cases h with
  | keeps hstatus => rwa [hstatus]
  | enters hpc hold hstatus =>
    rw [hstatus]
    exact .inr (hfresh _ _ hpc hold)
  | @exits old' hpc hstatus =>
    rw [hpc] at hok
    obtain ⟨rfl, hactive⟩ := hok
    rw [hstatus, epochOf_getEpochStatus_false]
    exact .inr (hleft hactive)

omit [DecidableEq T] in
/-- A step of the threads keeps what the second scan has done. -/
theorem ThreadMoves.raised {m : MaintainerPc T} (h : ThreadMoves s s') (hinv : s.Inv)
    (hfresh : ∀ t, Fresh g (s.threads t)) (hleft : ∀ t, Left g (s.threads t))
    (hm : s.Raised g m) : s'.Raised g m := by
  cases m with
  | loadCur | loadCount | scan => exact hm
  | scanCas min cur i old rest =>
    obtain ⟨hmin, hi⟩ := hm
    refine ⟨hmin, ?_⟩
    rcases h.threads i with he | hmoves
    · rwa [he]
    · exact hmoves.epoch_lt (hinv.pc_ok i) (hfresh i) (hleft i) hi
  | load | fetchAdd =>
    change g ≤ s'.gcEpoch.toNat
    rw [h.gc]
    exact hm

/-- A step of the maintainer within an advance keeps what the second scan has done. -/
theorem Inv.raised_advance (h : s.Inv) (hleft : ∀ t, Left g (s.threads t))
    (hm : s.Raised g s.maintainer) (hs : s.advanceEpoch = some s')
    (hglobal : s'.globalEpoch = s.globalEpoch) : s'.Raised g s'.maintainer := by
  cases hmaintainer : s.maintainer with
  | load | loadCur | loadCount =>
    rw [hmaintainer] at hm
    simp only [EpochBasedReclamation.advanceEpoch, hmaintainer, Option.some.injEq] at hs
    subst hs
    exact hm
  | fetchAdd min =>
    simp only [EpochBasedReclamation.advanceEpoch, hmaintainer, Option.some.injEq] at hs
    subst hs
    have := congrArg UInt64.toNat hglobal
    have hlt := h.global_lt
    simp only [UInt64.toNat_add, UInt64.toNat_one] at this
    omega
  | scan min cur rest =>
    rw [hmaintainer] at hm
    cases rest with
    | nil =>
      have hmin : g < min.toNat := hm
      simp only [EpochBasedReclamation.advanceEpoch, hmaintainer] at hs
      split at hs
      · cases hs
      · cases hs
        change g ≤ (min - 1).toNat
        rw [UInt64.toNat_sub_of_le, UInt64.toNat_one]
        · omega
        · rw [UInt64.le_iff_toNat_le, UInt64.toNat_one]
          omega
    | cons i rest =>
      simp only [EpochBasedReclamation.advanceEpoch, hmaintainer, Option.some.injEq] at hs
      subst hs
      refine ⟨hm, ?_⟩
      cases hactive : isEpochStatusActive (s.threads i).epochStatus with
      | true => exact .inr (hleft i hactive)
      | false => exact .inl (getEpochStatus_false_of_inactive hactive).symm
  | scanCas min cur i old rest =>
    rw [hmaintainer] at hm
    obtain ⟨hmin, hi⟩ := hm
    simp only [EpochBasedReclamation.advanceEpoch, hmaintainer] at hs
    split at hs
    · cases hs
      exact hmin
    · rename_i hold
      cases hs
      change g < (if min > getEpochStatus (s.threads i).epochStatus false then
        getEpochStatus (s.threads i).epochStatus false else min).toNat
      split
      · exact hi.resolve_left hold
      · exact hmin

/-! ## Runs -/

/-- `fetch_add` is what changes the global epoch. -/
theorem Inv.global_step (h : s.Inv) (hs : s.step a = some (s', e)) :
    ThreadMoves s s' ∨ s.advanceEpoch = some s' ∧ s'.globalEpoch = s.globalEpoch ∨
      ∃ min, s.maintainer = .fetchAdd min ∧ s'.globalEpoch.toNat = s.globalEpoch.toNat + 1 ∧
        s'.gcEpoch = s.gcEpoch ∧ s'.threads = s.threads ∧ s'.maintainer = .loadCur min := by
  by_cases ha : a = .advanceEpoch
  · subst ha
    obtain ⟨s₁, hs₁, ⟨⟩⟩ := Option.map_eq_some_iff.1 hs
    cases hmaintainer : s.maintainer with
    | fetchAdd min =>
      simp only [EpochBasedReclamation.advanceEpoch, hmaintainer, Option.some.injEq] at hs₁
      subst hs₁
      refine .inr (.inr ⟨min, rfl, ?_, rfl, rfl, rfl⟩)
      have hlt := h.global_lt
      simp only [UInt64.toNat_add, UInt64.toNat_one]
      omega
    | load | loadCur | loadCount =>
      refine .inr (.inl ⟨hs₁, ?_⟩)
      simp only [EpochBasedReclamation.advanceEpoch, hmaintainer, Option.some.injEq] at hs₁
      subst hs₁
      rfl
    | scan min cur rest =>
      refine .inr (.inl ⟨hs₁, ?_⟩)
      cases rest with
      | nil =>
        simp only [EpochBasedReclamation.advanceEpoch, hmaintainer] at hs₁
        split at hs₁ <;> cases hs₁
        rfl
      | cons i rest =>
        simp only [EpochBasedReclamation.advanceEpoch, hmaintainer, Option.some.injEq] at hs₁
        subst hs₁
        rfl
    | scanCas min cur i old rest =>
      refine .inr (.inl ⟨hs₁, ?_⟩)
      simp only [EpochBasedReclamation.advanceEpoch, hmaintainer] at hs₁
      split at hs₁ <;> cases hs₁ <;> rfl
  · exact .inl (threadMoves_of_step hs ha)

/-- The scan of the first advance after the epoch `g`, and what it leaves. -/
structure Renewing (g : ℕ) (s : EpochBasedReclamation T N) : Prop where
  during : s.globalEpoch.toNat = g + 1 → s.Renewed g s.maintainer
  after : g + 1 < s.globalEpoch.toNat → ∀ t, Fresh g (s.threads t)

/-- A step keeps what the first scan does, and its end makes all threads fresh. -/
theorem Renewing.step (h : Renewing g s) (hinv : s.Inv) (hs : s.step a = some (s', e)) :
    Renewing g s' := by
  rcases hinv.global_step hs with hmoves | ⟨hs, hglobal⟩ | ⟨min, hm, hsucc, -, hthreads, hm'⟩
  · refine ⟨fun heq => ?_, fun hlt t => ?_⟩
    · rw [hmoves.global] at heq
      rw [hmoves.maintainer]
      exact hmoves.renewed hinv (by omega) (h.during heq)
    · rw [hmoves.global] at hlt
      exact hmoves.fresh hinv (by omega) (h.after hlt t)
  · refine ⟨fun heq => ?_, fun hlt t => ?_⟩
    · rw [hglobal] at heq
      exact hinv.renewed_advance (by omega) (h.during heq) hs hglobal
    · rw [hglobal] at hlt
      exact hinv.fresh_advance (by omega) hs (h.after hlt t)
  · refine ⟨fun _ => ?_, fun hlt => ?_⟩
    · rw [hm']
      trivial
    · rw [hthreads]
      rcases Nat.eq_or_lt_of_le (show g + 1 ≤ s.globalEpoch.toNat by omega) with heq | hlt
      · have hrenewed := h.during heq.symm
        rwa [hm] at hrenewed
      · exact h.after hlt

/-- The scan of the first advance after the epoch `b`, when no thread is behind, and what it
leaves. -/
structure Raising (g b : ℕ) (s : EpochBasedReclamation T N) : Prop where
  fresh : ∀ t, Fresh g (s.threads t)
  left : ∀ t, Left g (s.threads t)
  le : b ≤ s.globalEpoch.toNat
  during : s.globalEpoch.toNat = b + 1 → s.Raised g s.maintainer
  after : b + 1 < s.globalEpoch.toNat → g ≤ s.gcEpoch.toNat

/-- A step keeps what the second scan does, and its end publishes an epoch from `g` on. -/
theorem Raising.step {b : ℕ} (h : Raising g b s) (hinv : s.Inv) (hb : g < b)
    (hs : s.step a = some (s', e)) : Raising g b s' := by
  have hle := h.le
  have hgc := UInt64.le_iff_toNat_le.1 (hinv.notBelow_step hs).gc_le
  rcases hinv.global_step hs with hmoves | ⟨hs, hglobal⟩ | ⟨min, hm, hsucc, hgc', hthreads, hm'⟩
  · refine ⟨fun t => hmoves.fresh hinv (by omega) (h.fresh t),
      fun t => hmoves.left (h.fresh t) (h.left t), hmoves.global ▸ hle, fun heq => ?_,
      fun hlt => ?_⟩
    · rw [hmoves.global] at heq
      rw [hmoves.maintainer]
      exact hmoves.raised hinv h.fresh h.left (h.during heq)
    · rw [hmoves.global] at hlt
      rw [hmoves.gc]
      exact h.after hlt
  · refine ⟨fun t => hinv.fresh_advance (by omega) hs (h.fresh t),
      fun t => hinv.left_advance (by omega) hs (h.left t), hglobal ▸ hle, fun heq => ?_,
      fun hlt => ?_⟩
    · rw [hglobal] at heq
      exact hinv.raised_advance h.left (h.during heq) hs hglobal
    · rw [hglobal] at hlt
      exact (h.after hlt).trans hgc
  · refine ⟨fun t => hthreads ▸ h.fresh t, fun t => hthreads ▸ h.left t, by omega, fun heq => ?_,
      fun hlt => ?_⟩
    · have hmin := hinv.maintainer_ok
      rw [hm] at hmin
      have hmin : min = s.globalEpoch := hmin
      rw [hm']
      change g < min.toNat
      rw [hmin]
      omega
    · rw [hgc']
      rcases Nat.eq_or_lt_of_le (show b + 1 ≤ s.globalEpoch.toNat by omega) with heq | hlt
      · have hraised := h.during heq.symm
        rwa [hm] at hraised
      · exact h.after hlt

/-- A step and what is observed of it, while the epochs fit into the 63 bits of a status. -/
def Observes (s : EpochBasedReclamation T N) (e : Option (EpochEvent T N))
    (s' : EpochBasedReclamation T N) : Prop :=
  ∃ a, s.step a = some (s', e) ∧ s'.globalEpoch.toNat < 2 ^ 63

/-- What is observed of some steps. -/
def events (es : List (Option (EpochEvent T N))) : List (EpochEvent T N) := es.flatMap Option.toList

variable {es : List (Option (EpochEvent T N))} {s₁ s₂ s₃ : EpochBasedReclamation T N}
  {es₁ es₂ es₃ : List (Option (EpochEvent T N))}

omit [DecidableEq T] in
/-- What is observed of steps after steps. -/
theorem events_append : events (es₁ ++ es₂) = events es₁ ++ events es₂ := List.flatMap_append

omit [DecidableEq T] in
/-- The last step is observed last. -/
theorem events_concat : events (es ++ [e]) = events es ++ e.toList := by
  rw [events_append]
  exact congrArg _ (List.append_nil _)

/-- Some steps from the start are a run, with the calls of the retire lists. -/
theorem reaches_of_steps (h : Potential.Steps Observes {} es s) :
    ∃ calls, Reaches (fun s => s.globalEpoch.toNat < 2 ^ 63) (events es) calls s := by
  induction h with
  | refl => exact ⟨[], .init⟩
  | step _ hlast ih =>
    obtain ⟨calls, hr⟩ := ih
    obtain ⟨a, hs, hlt⟩ := hlast
    rw [events_concat]
    exact ⟨_, hr.step hs hlt⟩

/-- Steps that are observed are steps. -/
theorem steps_of_observes (h : Potential.Steps Observes s es s') : Steps s s' := by
  induction h with
  | refl => exact .refl
  | step _ hlast ih =>
    obtain ⟨a, hs, hlt⟩ := hlast
    exact ih.tail ⟨a, _, hs, hlt⟩

/-- An epoch is published when the global epoch has gone up by two, the threads that were behind
have left, and it has gone up by two again. -/
theorem Inv.gc_reaches (h : s₁.Inv) (h₁₂ : Potential.Steps Observes s₁ es₁ s₂)
    (h₂₃ : Potential.Steps Observes s₂ es₂ s₃)
    (hfirst : s₁.globalEpoch.toNat + 2 ≤ s₂.globalEpoch.toNat)
    (hleft : ∀ t, Left s₁.globalEpoch.toNat (s₂.threads t))
    (hsecond : s₂.globalEpoch.toNat + 2 ≤ s₃.globalEpoch.toNat) :
    s₁.globalEpoch.toNat ≤ s₃.gcEpoch.toNat := by
  have hrenewing : s₂.Inv ∧ Renewing s₁.globalEpoch.toNat s₂ :=
    h₁₂.invariant (fun s => s.Inv ∧ Renewing s₁.globalEpoch.toNat s) (fun s _ s' hs hlast => by
      obtain ⟨a, hstep, hlt⟩ := hlast
      exact ⟨hs.1.step hstep hlt, hs.2.step hs.1 hstep⟩)
      ⟨h, fun heq => by omega, fun hlt => by omega⟩
  have hraising : s₃.Inv ∧ Raising s₁.globalEpoch.toNat s₂.globalEpoch.toNat s₃ :=
    h₂₃.invariant (fun s => s.Inv ∧ Raising s₁.globalEpoch.toNat s₂.globalEpoch.toNat s)
      (fun s _ s' hs hlast => by
      obtain ⟨a, hstep, hlt⟩ := hlast
      exact ⟨hs.1.step hstep hlt, hs.2.step hs.1 (by omega) hstep⟩)
      ⟨hrenewing.1, hrenewing.2.after (by omega), hleft, Nat.le_refl _, fun heq => by omega,
        fun hlt => by omega⟩
  exact hraising.2.after (by omega)

/-! ## What a thread releases when it leaves -/

/-- What the thread has left in its list after it has left a critical section, when the epoch `g`
was published before. -/
def Cleared (g : ℕ) (exited : Prop) (x : Thread N) : Prop :=
  match x.pc with
  | .exitGc => True
  | .reclaim cur | .popFront cur => exited → g ≤ cur.toNat
  | _ => exited → ∀ r ∈ x.retireList, g < r.retireEpoch.toNat

variable {exited exited' : Prop}

omit [DecidableEq T] in
/-- Before the thread has left, nothing is asked of its list. -/
theorem Cleared.of_not (h : ¬exited) : Cleared g exited x := by
  rw [Cleared]
  split
  · trivial
  · exact fun he => absurd he h
  · exact fun he => absurd he h
  · exact fun he => absurd he h

omit [DecidableEq T] in
/-- Behind the exchange, before `gc_epoch_` is read, nothing is asked of the list. -/
theorem Cleared.of_exitGc (h : x.pc = .exitGc) : Cleared g exited x := by
  rw [Cleared, h]
  trivial

omit [DecidableEq T] in
/-- Only the place and the list matter, and less is asked if the thread has not left. -/
theorem Cleared.congr (h : Cleared g exited x) (hpc : y.pc = x.pc)
    (hlist : y.retireList = x.retireList) (hexited : exited' → exited) : Cleared g exited' y := by
  rw [Cleared, hpc, hlist]
  rw [Cleared] at h
  split at h
  · trivial
  · exact fun he => h (hexited he)
  · exact fun he => h (hexited he)
  · exact fun he => h (hexited he)

omit [DecidableEq T] in
/-- Outside of the reclaiming part, the list has nothing of the old epochs once the thread has
left. -/
theorem cleared_iff (h : ¬x.pc.Reclaims) :
    Cleared g exited x ↔ (exited → ∀ r ∈ x.retireList, g < r.retireEpoch.toNat) := by
  rw [Cleared]
  split
  · rename_i hpc
    rw [hpc] at h
    exact absurd trivial h
  · rename_i hpc
    rw [hpc] at h
    exact absurd trivial h
  · rename_i hpc
    rw [hpc] at h
    exact absurd trivial h
  · exact Iff.rfl

omit [DecidableEq T] in
/-- A step outside of the reclaiming part that keeps the list. -/
theorem Cleared.walks (h : Cleared g exited x) (hx : ¬x.pc.Reclaims) (hy : ¬y.pc.Reclaims)
    (hlist : y.retireList = x.retireList) : Cleared g exited y := by
  rw [cleared_iff hx] at h
  rwa [cleared_iff hy, hlist]

/-- The thread that is seen to leave has come to the reclaiming part. -/
theorem exitGc_of_exited (hs : s.step a = some (s', some (.exited t))) :
    (s'.threads t).pc = .exitGc := by
  cases a with
  | enterEpoch u | exitEpoch u | retire u | advanceEpoch =>
    obtain ⟨s₁, hs₁, he⟩ := Option.map_eq_some_iff.1 hs
    cases he
  | thread u spurious =>
    cases observed_of_threadStep hs with
    | exited => rw [setThread_self]

/-- A step of the thread in one of the functions. -/
theorem Inv.cleared_threadStep {spurious : Bool} (h : s.Inv)
    (hsorted : (s.threads t).retireList.Pairwise fun r r' => r.retireEpoch ≤ r'.retireEpoch)
    (hgc : g ≤ s.gcEpoch.toNat) (hs : s.threadStep t spurious = some (s', e))
    (hx : Cleared g exited (s.threads t)) (he : e ≠ some (.exited t)) :
    Cleared g exited (s'.threads t) := by
  cases hpc : (s.threads t).pc with
  | idle =>
    simp only [EpochBasedReclamation.threadStep, hpc] at hs
    cases hs
  | enterLoad | exitLoad =>
    simp only [EpochBasedReclamation.threadStep, hpc] at hs
    split at hs <;> cases hs <;> rw [setPc, setThread_self] <;>
      exact hx.walks (by rw [hpc]; exact id) id rfl
  | enterCas old new =>
    simp only [EpochBasedReclamation.threadStep, hpc] at hs
    split at hs
    · cases hs
      rw [setThread_self]
      exact hx.walks (by rw [hpc]; exact id) id rfl
    · cases hs
      rw [setPc, setThread_self]
      exact hx.walks (by rw [hpc]; exact id) id rfl
  | enterGlobal =>
    simp only [EpochBasedReclamation.threadStep, hpc] at hs
    cases hs
    rw [setPc, setThread_self]
    exact hx.walks (by rw [hpc]; exact id) id rfl
  | exitCas old =>
    simp only [EpochBasedReclamation.threadStep, hpc] at hs
    split at hs
    · cases hs
      exact absurd rfl he
    · cases hs
      rw [setPc, setThread_self]
      exact hx.walks (by rw [hpc]; exact id) id rfl
  | exitGc =>
    simp only [EpochBasedReclamation.threadStep, hpc] at hs
    cases hs
    rw [setPc, setThread_self]
    exact fun _ => hgc
  | reclaim cur =>
    rw [Cleared, hpc] at hx
    simp only [EpochBasedReclamation.threadStep, hpc] at hs
    split at hs
    · rename_i hnil
      cases hs
      rw [setPc, setThread_self]
      intro _ r hr
      change r ∈ (s.threads t).retireList at hr
      rw [hnil] at hr
      cases hr
    · rename_i r rs hcons
      split at hs
      · cases hs
        rw [setPc, setThread_self]
        exact hx
      · rename_i hle
        cases hs
        rw [setPc, setThread_self]
        intro hexited r' hr'
        have hlt := lt_of_head (g := cur) hsorted (fun r' hr' => by
          rw [hcons] at hr'
          cases hr'
          exact UInt64.not_le.1 hle) r' hr'
        exact (hx hexited).trans_lt (UInt64.lt_iff_toNat_lt.1 hlt)
  | popFront cur =>
    rw [Cleared, hpc] at hx
    simp only [EpochBasedReclamation.threadStep, hpc] at hs
    cases hs
    rw [setThread_self]
    exact hx
  | retiring ptr =>
    rw [cleared_iff (by rw [hpc]; exact id)] at hx
    simp only [EpochBasedReclamation.threadStep, hpc] at hs
    cases hs
    rw [setThread_self]
    intro hexited r hr
    rcases List.mem_append.1 hr with hr | hr
    · exact hx hexited r hr
    · rw [List.mem_singleton.1 hr]
      change g < epochOf s.globalEpoch
      rw [epochOf_of_lt h.global_lt]
      exact hgc.trans_lt h.gc_lt

/-- A step keeps the list cleared: what is added to it is stamped with a later epoch. -/
theorem Inv.cleared_step (h : s.Inv)
    (hsorted : (s.threads t).retireList.Pairwise fun r r' => r.retireEpoch ≤ r'.retireEpoch)
    (hgc : g ≤ s.gcEpoch.toNat) (hs : s.step a = some (s', e))
    (hx : Cleared g exited (s.threads t)) (hexited : exited' → exited ∨ e = some (.exited t)) :
    Cleared g exited' (s'.threads t) := by
  by_cases he : e = some (.exited t)
  · subst he
    exact .of_exitGc (exitGc_of_exited hs)
  · have hexited : exited' → exited := fun h => (hexited h).resolve_right he
    by_cases ha : a.thread? = some t
    · refine Cleared.congr ?_ rfl rfl hexited
      cases a with
      | enterEpoch u | exitEpoch u =>
        obtain rfl : u = t := Option.some.inj ha
        obtain ⟨s₁, hs₁, ⟨⟩⟩ := Option.map_eq_some_iff.1 hs
        obtain ⟨hidle, registered, rfl, -⟩ := call_eq hs₁
        rw [setPc, setThread_self]
        exact hx.walks (by rw [hidle]; exact id) id rfl
      | retire u ptr =>
        obtain rfl : u = t := Option.some.inj ha
        obtain ⟨s₁, hs₁, ⟨⟩⟩ := Option.map_eq_some_iff.1 hs
        obtain ⟨hidle, -, -, rfl⟩ := callRetire_eq hs₁
        rw [setPc, setThread_self]
        exact hx.walks (by rw [hidle]; exact id) id rfl
      | thread u spurious =>
        obtain rfl : u = t := Option.some.inj ha
        exact h.cleared_threadStep hsorted hgc hs hx he
      | advanceEpoch => cases ha
    · obtain ⟨hpc, hlist, -⟩ := step_other ha hs
      exact hx.congr hpc hlist hexited

/-- The records that wait for their release and were stamped after the epoch `g`. -/
def newer (g : ℕ) (x : Thread N) : ℕ := x.pending.countP fun r => g < r.retireEpoch.toNat

/-- A step adds a newer record only by retiring it. -/
theorem ListStep.newer_le {calls : List (Deque.Call T (RetireRecord N))}
    (hl : ListStep s s' e calls) (t : T) :
    newer g (s'.threads t) ≤ newer g (s.threads t) + (retiredBy t e.toList).length := by
  cases hl with
  | keeps hsame =>
    rw [newer, (hsame t).pending_eq]
    exact Nat.le_add_right ..
  | @releases u cur r rs hpc hlist hle =>
    rcases eq_or_ne t u with rfl | hne
    · have hpending : (s.threads t).pending = r :: rs := by
        rw [Thread.pending_eq (by simp [hpc]), hlist]
      have hpending' : ((s.setPc t (.popFront cur)).threads t).pending = rs := by
        rw [setPc, setThread_self]
        exact congrArg List.tail hlist
      rw [newer, newer, hpending, hpending', List.countP_cons]
      omega
    · rw [setPc, setThread_of_ne hne]
      exact Nat.le_add_right ..
  | @pops u cur hpc =>
    rcases eq_or_ne t u with rfl | hne
    · have hpending : (s.threads t).pending = (s.threads t).retireList.tail := by
        rw [Thread.pending, hpc]
      rw [setThread_self, newer, newer, hpending, Thread.pending_eq (by simp)]
      exact Nat.le_add_right ..
    · rw [setThread_of_ne hne]
      exact Nat.le_add_right ..
  | @retires u ptr hpc =>
    rcases eq_or_ne t u with rfl | hne
    · have hretired : (retiredBy t [EpochEvent.retired t ptr]).length = 1 := by simp [retiredBy]
      rw [setThread_self, newer, newer, Thread.pending_eq (by simp),
        Thread.pending_eq (by simp [hpc]), List.countP_append, Option.toList_some, hretired]
      exact Nat.add_le_add_left List.countP_le_length _
    · rw [setThread_of_ne hne]
      exact Nat.le_add_right ..

/-- The newer records are some of those that were retired since. -/
theorem newer_le_of_steps (h : Potential.Steps Observes s es s')
    (hs : newer g (s.threads t) = 0) :
    newer g (s'.threads t) ≤ (retiredBy t (events es)).length := by
  induction h with
  | refl => exact hs.le
  | step _ hlast ih =>
    obtain ⟨a, hstep, -⟩ := hlast
    rw [events_concat, retiredBy_append, List.length_append]
    have hle := (listStep hstep).newer_le (g := g) t
    omega

/-- What a thread has retired is released when the global epoch has gone up by two, the threads that
were in an earlier epoch have left, the global epoch has gone up by two again, and the thread has
left a critical section once more. -/
theorem retired_is_released {s₄ : EpochBasedReclamation T N}
    {es₄ : List (Option (EpochEvent T N))} (h₁ : Potential.Steps Observes {} es₁ s₁)
    (h₂ : Potential.Steps Observes s₁ es₂ s₂) (h₃ : Potential.Steps Observes s₂ es₃ s₃)
    (h₄ : Potential.Steps Observes s₃ es₄ s₄)
    (hfirst : s₁.globalEpoch.toNat + 2 ≤ s₂.globalEpoch.toNat)
    (hleft : ∀ t, isEpochStatusActive (s₂.threads t).epochStatus = true →
      s₁.globalEpoch.toNat < epochOf (s₂.threads t).epochStatus)
    (hsecond : s₂.globalEpoch.toNat + 2 ≤ s₃.globalEpoch.toNat) :
    s₁.globalEpoch ≤ s₃.gcEpoch ∧
    ∀ t, .exited t ∈ events es₄ → (s₄.threads t).pc = .idle →
      retiredBy t (events es₁) <+: releasedBy t (events (es₁ ++ es₂ ++ es₃ ++ es₄)) := by
  have hinv₁ : s₁.Inv := (steps_of_observes h₁).inv
  have hgc : s₁.globalEpoch.toNat ≤ s₃.gcEpoch.toNat :=
    hinv₁.gc_reaches h₂ h₃ hfirst hleft hsecond
  refine ⟨UInt64.le_iff_toNat_le.2 hgc, fun t hexited hidle => ?_⟩
  have h₁₃ : Potential.Steps Observes {} (es₁ ++ es₂ ++ es₃) s₃ := (h₁.append h₂).append h₃
  have hinv₃ : s₃.Inv := (steps_of_observes h₁₃).inv
  have hcleared : Cleared s₁.globalEpoch.toNat (.exited t ∈ events es₄) (s₄.threads t) := by
    clear hidle hexited
    induction h₄ with
    | refl => exact .of_not List.not_mem_nil
    | @step es s e s' hrun hlast ih =>
      obtain ⟨a, hs, -⟩ := hlast
      obtain ⟨calls, hr⟩ := reaches_of_steps (h₁₃.append hrun)
      obtain ⟨hinv, hnotBelow⟩ := hinv₃.notBelow (steps_of_observes hrun)
      refine hinv.cleared_step (hr.inOrder t).sorted
        (hgc.trans (UInt64.le_iff_toNat_le.1 hnotBelow.gc_le)) hs ih fun hmem => ?_
      rw [events_concat] at hmem
      exact (List.mem_append.1 hmem).imp_right fun hmem => (Option.mem_toList.1 hmem)
  obtain ⟨calls₁, hr₁⟩ := reaches_of_steps h₁
  obtain ⟨calls₄, hr₄⟩ := reaches_of_steps (h₁₃.append h₄)
  -- what is pending was retired after `s₁`
  have hnewer : newer s₁.globalEpoch.toNat (s₄.threads t) = (s₄.threads t).pending.length := by
    rw [cleared_iff (by rw [hidle]; exact id)] at hcleared
    refine List.countP_eq_length.2 fun r hr => decide_eq_true ?_
    rw [Thread.pending_eq (by simp [hidle])] at hr
    exact hcleared hexited r hr
  have hnone : newer s₁.globalEpoch.toNat (s₁.threads t) = 0 := by
    refine List.countP_eq_zero.2 fun r hr hlt => ?_
    have hr : r ∈ (s₁.threads t).retireList := by
      rw [Thread.pending] at hr
      split at hr
      · exact List.mem_of_mem_tail hr
      · exact hr
    have hle := UInt64.le_iff_toNat_le.1 ((hr₁.inOrder t).stamp_le r hr)
    have hlt := of_decide_eq_true hlt
    omega
  have hle := newer_le_of_steps ((h₂.append h₃).append h₄) hnone
  have hfifo := hr₄.fifo t
  rw [Fifo, events_append, events_append, events_append, retiredBy_append, retiredBy_append,
    retiredBy_append, List.append_assoc, List.append_assoc] at hfifo
  have hlength := congrArg List.length hfifo
  rw [hnewer, events_append, events_append, retiredBy_append, retiredBy_append] at hle
  simp only [List.length_append, List.length_map] at hlength hle
  rw [events_append, events_append, events_append]
  refine List.prefix_of_prefix_length_le (hfifo ▸ List.prefix_append ..) (List.prefix_append ..) ?_
  omega

/-- A run from the code is a sequence of steps with its log. -/
theorem steps_of_run [Fintype T] [DecidableEq N] {as : List (EpochAction T N)}
    {log log' : List (EpochEvent T N)}
    (h : s.run (fun s => s.globalEpoch.toNat < 2 ^ 63) log as = some (s', log')) :
    ∃ es, Potential.Steps Observes s es s' ∧ log' = log ++ events es := by
  induction as generalizing s log with
  | nil =>
    cases h
    exact ⟨[], .refl, (List.append_nil _).symm⟩
  | cons a as ih =>
    rw [run] at h
    split at h
    · rename_i s₁ e hs
      split at h
      · rename_i hok
        obtain ⟨es, hrun, rfl⟩ := ih h
        refine ⟨[e] ++ es, Potential.Steps.append (.step .refl ⟨a, hs, hok.2⟩) hrun, ?_⟩
        rw [events_append, List.append_assoc]
        exact congrArg (log ++ ·) (congrArg (· ++ events es) (List.append_nil _).symm)
      · cases h
    · cases h

/-- The thread `true` retires a node. -/
def retireOne : List (EpochAction Bool Bool) :=
  .enterEpoch true :: threadSteps true 3 ++ .retire true false :: threadSteps true 1

/-- The thread leaves, and there are two advances, which scan one thread. -/
def leaveAndAdvance : List (EpochAction Bool Bool) :=
  .exitEpoch true :: threadSteps true 4 ++ List.replicate 14 .advanceEpoch

/-- The node of `retireOne` is released after two advances and a critical section. -/
theorem retired_is_released_one : ∃ es, ∃ s : EpochBasedReclamation Bool Bool,
    Potential.Steps Observes {} es s ∧ [false] <+: releasedBy true (events es) := by
  have hrun : ((run (fun s => s.globalEpoch.toNat < 2 ^ 63) {} [] retireOne).any fun p₁ =>
      decide (retiredBy true p₁.2 = [false] ∧ p₁.1.globalEpoch = 1) &&
      (p₁.1.run (fun s => s.globalEpoch.toNat < 2 ^ 63) [] leaveAndAdvance).any fun p₂ =>
        decide (p₂.1.globalEpoch = 3 ∧ ∀ t, isEpochStatusActive (p₂.1.threads t).epochStatus =
          false) &&
        (p₂.1.run (fun s => s.globalEpoch.toNat < 2 ^ 63) []
          (List.replicate 14 .advanceEpoch)).any fun p₃ =>
          decide (p₃.1.globalEpoch = 5) &&
          (p₃.1.run (fun s => s.globalEpoch.toNat < 2 ^ 63) []
            (.enterEpoch true :: threadSteps true 3 ++ .exitEpoch true :: threadSteps true 6)).any
            fun p₄ => decide (.exited true ∈ p₄.2 ∧ (p₄.1.threads true).pc = .idle)) = true := by
    decide +kernel
  obtain ⟨⟨s₁, log₁⟩, hrun₁, h₁⟩ := (Option.any_eq_true _ _).1 hrun
  obtain ⟨hstart, hrun⟩ := Bool.and_eq_true_iff.1 h₁
  obtain ⟨⟨s₂, log₂⟩, hrun₂, h₂⟩ := (Option.any_eq_true _ _).1 hrun
  obtain ⟨hleft, hrun⟩ := Bool.and_eq_true_iff.1 h₂
  obtain ⟨⟨s₃, log₃⟩, hrun₃, h₃⟩ := (Option.any_eq_true _ _).1 hrun
  obtain ⟨hsecond, hrun⟩ := Bool.and_eq_true_iff.1 h₃
  obtain ⟨⟨s₄, log₄⟩, hrun₄, hdone⟩ := (Option.any_eq_true _ _).1 hrun
  obtain ⟨hretired, hglobal₁⟩ := of_decide_eq_true hstart
  obtain ⟨hglobal₂, hleft⟩ := of_decide_eq_true hleft
  have hglobal₃ := of_decide_eq_true hsecond
  obtain ⟨hexited, hidle⟩ := of_decide_eq_true hdone
  obtain ⟨es₁, hsteps₁, rfl⟩ := steps_of_run hrun₁
  obtain ⟨es₂, hsteps₂, rfl⟩ := steps_of_run hrun₂
  obtain ⟨es₃, hsteps₃, rfl⟩ := steps_of_run hrun₃
  obtain ⟨es₄, hsteps₄, rfl⟩ := steps_of_run hrun₄
  have hreleased := (retired_is_released hsteps₁ hsteps₂ hsteps₃ hsteps₄
    (by rw [hglobal₁, hglobal₂]; decide) (fun t ht => by simp [hleft t] at ht)
    (by rw [hglobal₂, hglobal₃]; decide)).2 true hexited hidle
  rw [List.nil_append] at hretired
  rw [hretired] at hreleased
  exact ⟨_, s₄, ((hsteps₁.append hsteps₂).append hsteps₃).append hsteps₄, hreleased⟩

end EpochBasedReclamation

end RockCoro
