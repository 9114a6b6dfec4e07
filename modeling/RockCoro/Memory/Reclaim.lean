import RockCoro.Memory.RetireOrder

/-!
# What `exit_epoch` reclaims

The loop of `exit_epoch` stops at the first record whose epoch was not published yet. The stamps of
a retire list do not decrease, so what the loop leaves is all of what it has to leave
(`reclaimsExactly`). Once `global_epoch_` has overflown its 63 bits a record is stamped 0 behind
others, and stays (`not_reclaimsExactly_wrapped`).
-/

namespace RockCoro

/-- The thread whose step it is; none for the thread of `epoch_maintainer`. -/
def EpochAction.thread? {T N : Type} : EpochAction T N → Option T
  | .enterEpoch t | .exitEpoch t | .retire t _ | .thread t _ => some t
  | .advanceEpoch => none

namespace EpochBasedReclamation

variable {T N : Type} [DecidableEq T]

/-- Steps in which `t` makes no call; `n` of them are steps of `t`. -/
inductive During (t : T) (s : EpochBasedReclamation T N) :
    ℕ → List (EpochEvent T N) → EpochBasedReclamation T N → Prop
  | refl : During t s 0 [] s
  | own {n log s' b s'' e} (h : During t s n log s')
    (hs : s'.step (.thread t b) = some (s'', e)) : During t s (n + 1) (log ++ e.toList) s''
  | other {n log s' a s'' e} (h : During t s n log s') (ha : a.thread? ≠ some t)
    (hs : s'.step a = some (s'', e)) : During t s n (log ++ e.toList) s''

/-- A call of `exit_epoch` by `t` that reads `g` from `gc_epoch_`. It is made in `s`; in `s'`, after
the events of `log`, the thread has taken `n` steps since it has read `g`. -/
inductive ExitCall (t : T) (g : UInt64) (s : EpochBasedReclamation T N) (n : ℕ) :
    List (EpochEvent T N) → EpochBasedReclamation T N → Prop
  | intro {s₁ k log₁ s₂ b s₃ log₂ s'} (hcall : s.step (.exitEpoch t) = some (s₁, none))
    (hbefore : During t s₁ k log₁ s₂) (hpc : (s₂.threads t).pc = .exitGc) (hg : s₂.gcEpoch = g)
    (hread : s₂.step (.thread t b) = some (s₃, none)) (hafter : During t s₃ n log₂ s') :
    ExitCall t g s n (log₁ ++ log₂) s'

/-- The records that may be released when `gc_epoch_` is `g`. -/
def due (g : UInt64) (l : List (RetireRecord N)) : List (RetireRecord N) :=
  l.filter fun r => r.retireEpoch ≤ g

/-- What holds of the retire lists in the runs whose states all meet `P`. -/
structure ReclaimsExactly (P : EpochBasedReclamation T N → Prop) : Prop where
  inOrder : ∀ {log calls s}, Reaches P log calls s → ∀ t,
    (s.threads t).retireList.Pairwise fun r r' => r.retireEpoch ≤ r'.retireEpoch
  /-- What a call of `exit_epoch` has done when it returns. -/
  reclaims : ∀ {log₀ calls s}, Reaches P log₀ calls s → ∀ {t g n log s'}, ExitCall t g s n log s' →
    (s'.threads t).pc = .idle →
      releasedBy t log = (due g (s.threads t).retireList).map RetireRecord.ptr ∧
      (s'.threads t).retireList = (s.threads t).retireList.filter fun r => g < r.retireEpoch
  /-- It returns after two steps for each record that it releases, and a last one. -/
  returns : ∀ {log₀ calls s}, Reaches P log₀ calls s → ∀ {t g n log s'}, ExitCall t g s n log s' →
    n ≤ 2 * (due g (s.threads t).retireList).length + 1 ∧
    ((s'.threads t).pc = .idle ↔ n = 2 * (due g (s.threads t).retireList).length + 1) ∧
    ((s'.threads t).pc ≠ .idle → ∀ b, (s'.step (.thread t b)).isSome = true)
  /-- A list grows at its end, and shrinks by `pop_front` only. -/
  retires : ∀ {log calls s}, Reaches P log calls s → ∀ {a s' e}, s.step a = some (s', e) → ∀ t,
    (∀ ptr, e = some (.retired t ptr) → (s'.threads t).retireList =
      (s.threads t).retireList ++ [⟨ptr, getEpochStatus s.globalEpoch false⟩]) ∧
    ((∀ cur, (s.threads t).pc ≠ .popFront cur) →
      (s.threads t).retireList <+: (s'.threads t).retireList)
  /-- The nodes are released in the order in which they were retired, each once. -/
  fifo : ∀ {log calls s}, Reaches P log calls s → ∀ t,
    retiredBy t log = releasedBy t log ++ (s.threads t).pending.map RetireRecord.ptr
  /-- The deques of the threads, after their construction and the calls of the run, in which the
  sizes of their blocks do not overflow. -/
  deques : ∀ {log calls s}, Reaches P log calls s → ∀ {threads : List T}, threads.Nodup →
    (∀ t ∈ s.registered, t ∈ threads) → ∀ sizeofT moved INITIAL_CAPACITY,
    Fallible.Throughout (Deque.call sizeofT moved INITIAL_CAPACITY)
      (Deque.Safe sizeofT INITIAL_CAPACITY) .never 0 {} (threads.map .init ++ calls) → ∃ n m,
      Deque.run sizeofT moved INITIAL_CAPACITY (threads.map .init ++ calls) .never 0 {} =
        .ok () n m ∧
      Deque.AreQueues m fun t => if t ∈ threads then some (s.threads t).retireList else none

variable {s s' : EpochBasedReclamation T N} {t : T} {x y : Thread N} {a : EpochAction T N}
  {e : Option (EpochEvent T N)} {log : List (EpochEvent T N)} {l : List (RetireRecord N)}
  {released : List N} {g : UInt64} {n : ℕ} {b : Bool} {calls : List (Deque.Call T (RetireRecord N))}

/-! ## A call of `exit_epoch` -/

/-- The place of a thread and its retire list change by its own steps only. -/
theorem step_other (ha : a.thread? ≠ some t) (hs : s.step a = some (s', e)) :
    (s'.threads t).pc = (s.threads t).pc ∧ (s'.threads t).retireList = (s.threads t).retireList ∧
      releasedBy t e.toList = [] := by
  cases a with
  | enterEpoch u | exitEpoch u =>
    obtain ⟨s₁, hs₁, ⟨⟩⟩ := Option.map_eq_some_iff.1 hs
    have hne : t ≠ u := fun he => ha (congrArg some he.symm)
    obtain ⟨-, registered, rfl, -⟩ := call_eq hs₁
    rw [setPc, setThread_of_ne hne]
    exact ⟨rfl, rfl, rfl⟩
  | retire u ptr =>
    obtain ⟨s₁, hs₁, ⟨⟩⟩ := Option.map_eq_some_iff.1 hs
    have hne : t ≠ u := fun he => ha (congrArg some he.symm)
    obtain ⟨-, -, -, rfl⟩ := callRetire_eq hs₁
    rw [setPc, setThread_of_ne hne]
    exact ⟨rfl, rfl, rfl⟩
  | thread u b =>
    have hne : t ≠ u := fun he => ha (congrArg some he.symm)
    cases observed_of_threadStep hs with
    | moved | entered | exited | retired =>
      rw [setThread_of_ne hne]
      exact ⟨rfl, rfl, rfl⟩
    | released =>
      rw [setPc, setThread_of_ne hne]
      exact ⟨rfl, rfl, by simp [releasedBy, hne.symm]⟩
  | advanceEpoch =>
    obtain ⟨s₁, hs₁, ⟨⟩⟩ := Option.map_eq_some_iff.1 hs
    rcases advanceEpoch_cases hs₁ with ⟨hthreads, -⟩ | ⟨min, cur, i, old, rest, -, -, rfl⟩
    · rw [hthreads]
      exact ⟨rfl, rfl, rfl⟩
    · change ((s.setThread i _).threads t).pc = _ ∧ ((s.setThread i _).threads t).retireList = _ ∧ _
      rcases eq_or_ne t i with rfl | hne
      · rw [setThread_self]
        exact ⟨rfl, rfl, rfl⟩
      · rw [setThread_of_ne hne]
        exact ⟨rfl, rfl, rfl⟩

/-- In the call, until `gc_epoch_` is read, the list is `l` and nothing is released. -/
inductive Exiting (l : List (RetireRecord N)) (released : List N) (x : Thread N) : Prop
  | before (hpc : x.pc = .exitLoad ∨ (∃ old, x.pc = .exitCas old) ∨ x.pc = .exitGc)
    (hlist : x.retireList = l) (hreleased : released = [])
  | after (hpc : x.pc = .idle ∨ ∃ cur, x.pc = .reclaim cur ∨ x.pc = .popFront cur)

/-- After `gc_epoch_` was read: the records of `done` are those that were taken off the list `l`. -/
inductive Reclaiming (g : UInt64) (l : List (RetireRecord N)) : ℕ → List N → Thread N → Prop
  | reclaim {done x} (hpc : x.pc = .reclaim g) (hl : done ++ x.retireList = l)
    (hdone : ∀ r ∈ done, r.retireEpoch ≤ g) :
    Reclaiming g l (2 * done.length) (done.map RetireRecord.ptr) x
  | popFront {done r rs x} (hpc : x.pc = .popFront g) (hl : done ++ x.retireList = l)
    (hlist : x.retireList = r :: rs) (hdone : ∀ r' ∈ done ++ [r], r'.retireEpoch ≤ g) :
    Reclaiming g l (2 * done.length + 1) ((done ++ [r]).map RetireRecord.ptr) x
  | idle {done x} (hpc : x.pc = .idle) (hl : done ++ x.retireList = l)
    (hdone : ∀ r ∈ done, r.retireEpoch ≤ g) (hhead : ∀ r ∈ x.retireList.head?, g < r.retireEpoch) :
    Reclaiming g l (2 * done.length + 1) (done.map RetireRecord.ptr) x

/-- Only the place and the list matter. -/
theorem Exiting.congr (h : Exiting l released x) (hpc : y.pc = x.pc)
    (hlist : y.retireList = x.retireList) : Exiting l released y := by
  cases h with
  | before hx hl hreleased => exact .before (hpc ▸ hx) (hlist.trans hl) hreleased
  | after hx => exact .after (hpc ▸ hx)

/-- Only the place and the list matter. -/
theorem Reclaiming.congr (h : Reclaiming g l n released x) (hpc : y.pc = x.pc)
    (hlist : y.retireList = x.retireList) : Reclaiming g l n released y := by
  cases h with
  | reclaim hx hl hdone => exact .reclaim (hpc.trans hx) (hlist ▸ hl) hdone
  | popFront hx hl hcons hdone =>
    exact .popFront (hpc.trans hx) (hlist ▸ hl) (hlist.trans hcons) hdone
  | idle hx hl hdone hhead => exact .idle (hpc.trans hx) (hlist ▸ hl) hdone (hlist ▸ hhead)

/-- A step of the thread before `gc_epoch_` is read releases nothing. -/
theorem Exiting.own (h : Exiting l released (s.threads t)) (hs : s.threadStep t b = some (s', e)) :
    Exiting l (released ++ releasedBy t e.toList) (s'.threads t) := by
  cases h with
  | before hpc hlist hreleased =>
    subst hreleased
    rcases hpc with hpc | ⟨old, hpc⟩ | hpc
    · simp only [threadStep, hpc] at hs
      split at hs
      · cases hs
        rw [setPc, setThread_self]
        exact .before (.inr (.inl ⟨_, rfl⟩)) hlist rfl
      · cases hs
        rw [setPc, setThread_self]
        exact .after (.inl rfl)
    · simp only [threadStep, hpc] at hs
      split at hs
      · cases hs
        rw [setThread_self]
        exact .before (.inr (.inr rfl)) hlist rfl
      · cases hs
        rw [setPc, setThread_self]
        exact .before (.inr (.inl ⟨_, rfl⟩)) hlist rfl
    · simp only [threadStep, hpc] at hs
      cases hs
      rw [setPc, setThread_self]
      exact .after (.inr ⟨_, .inl rfl⟩)
  | after hpc =>
    rcases hpc with hpc | ⟨cur, hpc | hpc⟩
    · simp only [threadStep, hpc] at hs
      cases hs
    · simp only [threadStep, hpc] at hs
      split at hs
      · cases hs
        rw [setPc, setThread_self]
        exact .after (.inl rfl)
      · split at hs
        · cases hs
          rw [setPc, setThread_self]
          exact .after (.inr ⟨_, .inr rfl⟩)
        · cases hs
          rw [setPc, setThread_self]
          exact .after (.inl rfl)
    · simp only [threadStep, hpc] at hs
      cases hs
      rw [setThread_self]
      exact .after (.inr ⟨_, .inl rfl⟩)

/-- A round of the loop takes two steps, and the last look at the list takes one. -/
theorem Reclaiming.own (h : Reclaiming g l n released (s.threads t))
    (hs : s.threadStep t b = some (s', e)) :
    Reclaiming g l (n + 1) (released ++ releasedBy t e.toList) (s'.threads t) := by
  cases h with
  | @reclaim done _ hpc hl hdone =>
    simp only [threadStep, hpc] at hs
    split at hs
    · rename_i hnil
      cases hs
      rw [setPc, setThread_self]
      rw [Option.toList_none, releasedBy, List.filterMap_nil, List.append_nil]
      refine .idle rfl hl hdone fun r hr => ?_
      rw [hnil] at hr
      cases hr
    · rename_i r rs hcons
      split at hs
      · rename_i hle
        cases hs
        have hreleased : releasedBy t [.released t r.ptr] = [r.ptr] := by simp [releasedBy]
        rw [setPc, setThread_self, Option.toList_some, hreleased, ← List.map_singleton,
          ← List.map_append]
        refine .popFront rfl hl hcons fun r' hr' => ?_
        rcases List.mem_append.1 hr' with hr' | hr'
        · exact hdone r' hr'
        · exact List.mem_singleton.1 hr' ▸ hle
      · rename_i hle
        cases hs
        rw [setPc, setThread_self]
        rw [Option.toList_none, releasedBy, List.filterMap_nil, List.append_nil]
        refine .idle rfl hl hdone fun r' hr' => ?_
        rw [hcons] at hr'
        cases hr'
        exact UInt64.not_le.1 hle
  | @popFront done r rs _ hpc hl hcons hdone =>
    simp only [threadStep, hpc] at hs
    cases hs
    rw [setThread_self, Option.toList_none, releasedBy, List.filterMap_nil, List.append_nil]
    have hn : 2 * done.length + 1 + 1 = 2 * (done ++ [r]).length := by
      rw [List.length_append, List.length_singleton]
      omega
    rw [hn]
    refine .reclaim rfl ?_ hdone
    rw [List.append_assoc, ← hl, hcons]
    rfl
  | idle hpc =>
    simp only [threadStep, hpc] at hs
    cases hs

/-- Nothing is released before `gc_epoch_` is read, whatever the others do. -/
theorem During.exiting (h : During t s n log s') (hs : Exiting l [] (s.threads t)) :
    Exiting l (releasedBy t log) (s'.threads t) := by
  induction h with
  | refl => exact hs
  | own _ hown ih =>
    rw [releasedBy_append]
    exact ih.own hown
  | other _ ha hother ih =>
    obtain ⟨hpc, hlist, hreleased⟩ := step_other ha hother
    rw [releasedBy_append, hreleased, List.append_nil]
    exact ih.congr hpc hlist

/-- Releasing goes on through the steps of others. -/
theorem During.reclaiming (h : During t s n log s') (hs : Reclaiming g l 0 [] (s.threads t)) :
    Reclaiming g l n (releasedBy t log) (s'.threads t) := by
  induction h with
  | refl => exact hs
  | own _ hown ih =>
    rw [releasedBy_append]
    exact ih.own hown
  | other _ ha hother ih =>
    obtain ⟨hpc, hlist, hreleased⟩ := step_other ha hother
    rw [releasedBy_append, hreleased, List.append_nil]
    exact ih.congr hpc hlist

/-- A call of `exit_epoch` releases from the front of the list that it started with. -/
theorem ExitCall.reclaiming (h : ExitCall t g s n log s') :
    Reclaiming g (s.threads t).retireList n (releasedBy t log) (s'.threads t) := by
  cases h with
  | @intro s₁ k log₁ s₂ b s₃ log₂ _ hcall hbefore hpc hg hread hafter =>
    obtain ⟨s₁, hs₁, ⟨⟩⟩ := Option.map_eq_some_iff.1 hcall
    obtain ⟨-, registered, rfl, -⟩ := call_eq hs₁
    have hexit : Exiting (s.threads t).retireList (releasedBy t log₁) (s₂.threads t) := by
      refine hbefore.exiting ?_
      rw [setPc, setThread_self]
      exact .before (.inl rfl) rfl rfl
    have hread : s₂.threadStep t b = some (s₃, none) := hread
    simp only [threadStep, hpc] at hread
    cases hread
    rw [releasedBy_append]
    cases hexit with
    | before _ hlist hreleased =>
      rw [hreleased, List.nil_append]
      refine hafter.reclaiming ?_
      rw [setPc, setThread_self, hg]
      exact @Reclaiming.reclaim _ _ _ [] _ rfl hlist (by simp)
    | after hpc' => simp [hpc] at hpc'

/-- The due records of a list that starts with due ones. -/
theorem due_append {done : List (RetireRecord N)} (hdone : ∀ r ∈ done, r.retireEpoch ≤ g)
    (rest : List (RetireRecord N)) :
    due g (done ++ rest) = done ++ due g rest := by
  have hself : due g done = done := by
    refine List.filter_eq_self.2 fun r hr => ?_
    exact decide_eq_true (hdone r hr)
  rw [due, List.filter_append]
  exact congrArg (· ++ due g rest) hself

/-- In a list that is in order, no record behind one that is not due is due. -/
theorem lt_of_head {rest : List (RetireRecord N)}
    (hsorted : rest.Pairwise fun r r' => r.retireEpoch ≤ r'.retireEpoch)
    (hhead : ∀ r ∈ rest.head?, g < r.retireEpoch) : ∀ r ∈ rest, g < r.retireEpoch := by
  cases rest with
  | nil => simp
  | cons r rest =>
    have hr : g < r.retireEpoch := hhead r rfl
    intro r' hr'
    rcases List.mem_cons.1 hr' with rfl | hr'
    · exact hr
    · exact UInt64.lt_of_lt_of_le hr ((List.pairwise_cons.1 hsorted).1 r' hr')

/-- No record is due if all are newer. -/
theorem due_eq_nil {rest : List (RetireRecord N)} (hrest : ∀ r ∈ rest, g < r.retireEpoch) :
    due g rest = [] := by
  refine List.filter_eq_nil_iff.2 fun r hr hle => ?_
  exact UInt64.not_le.2 (hrest r hr) (of_decide_eq_true hle)

/-- When the call returns, what was taken off the list is what was due. -/
theorem Reclaiming.exact (h : Reclaiming g l n released x) (hpc : x.pc = .idle)
    (hsorted : l.Pairwise fun r r' => r.retireEpoch ≤ r'.retireEpoch) :
    released = (due g l).map RetireRecord.ptr ∧
      x.retireList = l.filter fun r => g < r.retireEpoch := by
  cases h with
  | reclaim hx | popFront hx => simp [hpc] at hx
  | @idle done _ _ hl hdone hhead =>
    subst hl
    have hrest := lt_of_head (hsorted.sublist (List.sublist_append_right ..)) hhead
    refine ⟨?_, ?_⟩
    · rw [due_append hdone, due_eq_nil hrest, List.append_nil]
    · have hnone : (done.filter fun r => g < r.retireEpoch) = [] := by
        refine List.filter_eq_nil_iff.2 fun r hr hlt => ?_
        exact UInt64.not_le.2 (of_decide_eq_true hlt) (hdone r hr)
      have hall : (x.retireList.filter fun r => g < r.retireEpoch) = x.retireList :=
        List.filter_eq_self.2 fun r hr => decide_eq_true (hrest r hr)
      rw [List.filter_append, hnone, hall, List.nil_append]

/-- The call has ended when each due record has taken its two steps, and one more step has seen
the next one. -/
theorem Reclaiming.steps (h : Reclaiming g l n released x)
    (hsorted : l.Pairwise fun r r' => r.retireEpoch ≤ r'.retireEpoch) :
    n ≤ 2 * (due g l).length + 1 ∧ (x.pc = .idle ↔ n = 2 * (due g l).length + 1) := by
  cases h with
  | reclaim hpc hl hdone =>
    have hlength := congrArg List.length (due_append hdone x.retireList)
    rw [hl, List.length_append] at hlength
    refine ⟨by omega, fun hidle => ?_, fun hn => by omega⟩
    simp [hpc] at hidle
  | @popFront done r rs _ hpc hl hlist hdone =>
    have hlength := congrArg List.length (due_append hdone rs)
    rw [List.append_assoc, List.singleton_append, ← hlist, hl, List.length_append,
      List.length_append, List.length_singleton] at hlength
    refine ⟨by omega, fun hidle => ?_, fun hn => by omega⟩
    simp [hpc] at hidle
  | idle hpc hl hdone hhead =>
    subst hl
    have hrest := lt_of_head (hsorted.sublist (List.sublist_append_right ..)) hhead
    rw [due_append hdone, due_eq_nil hrest, List.append_nil]
    exact ⟨Nat.le_refl _, fun _ => rfl, fun _ => hpc⟩

/-- The loop does not get stuck. -/
theorem Reclaiming.isSome_step (h : Reclaiming g l n released (s.threads t))
    (hpc : (s.threads t).pc ≠ .idle) (b : Bool) : (s.step (.thread t b)).isSome = true := by
  cases h with
  | reclaim hx =>
    simp only [step, threadStep, hx]
    split
    · rfl
    · split
      · rfl
      · rfl
  | popFront hx =>
    simp only [step, threadStep, hx]
    rfl
  | idle hx => exact absurd hx hpc

/-- A step that does not pop appends to the lists. -/
theorem ListStep.append (hl : ListStep s s' e calls) (t : T) :
    (∀ ptr, e = some (.retired t ptr) → (s'.threads t).retireList =
      (s.threads t).retireList ++ [⟨ptr, getEpochStatus s.globalEpoch false⟩]) ∧
    ((∀ cur, (s.threads t).pc ≠ .popFront cur) →
      (s.threads t).retireList <+: (s'.threads t).retireList) := by
  cases hl with
  | keeps hsame _ hretired =>
    refine ⟨fun ptr he => ?_, fun _ => (hsame t).list_eq ▸ List.prefix_refl _⟩
    have := hretired t
    simp [he, retiredBy] at this
  | @releases u cur r rs hpc hlist hle =>
    refine ⟨by simp, fun _ => ?_⟩
    have hsame : ((s.setPc u (.popFront cur)).threads t).retireList = (s.threads t).retireList := by
      rcases eq_or_ne t u with rfl | hne
      · rw [setPc, setThread_self]
      · rw [setPc, setThread_of_ne hne]
    exact hsame ▸ List.prefix_refl _
  | @pops u cur hpc =>
    refine ⟨by simp, fun hx => ?_⟩
    have hne : t ≠ u := by
      rintro rfl
      exact hx cur hpc
    exact (setThread_of_ne hne).symm ▸ List.prefix_refl _
  | @retires u ptr hpc =>
    rcases eq_or_ne t u with rfl | hne
    · rw [setThread_self]
      refine ⟨?_, fun _ => List.prefix_append ..⟩
      rintro _ ⟨⟩
      rfl
    · rw [setThread_of_ne hne]
      refine ⟨?_, fun _ => List.prefix_refl _⟩
      rintro _ ⟨⟩
      exact absurd rfl hne

/-- The call goes on. -/
theorem ExitCall.own {s'' : EpochBasedReclamation T N} (h : ExitCall t g s n log s')
    (hs : s'.step (.thread t b) = some (s'', e)) :
    ExitCall t g s (n + 1) (log ++ e.toList) s'' := by
  cases h with
  | intro hcall hbefore hpc hg hread hafter =>
    rw [List.append_assoc]
    exact .intro hcall hbefore hpc hg hread (hafter.own hs)

/-- The call ends, if the thread keeps taking steps. -/
theorem ExitCall.returns
    (hsorted : (s.threads t).retireList.Pairwise fun r r' => r.retireEpoch ≤ r'.retireEpoch)
    (h : ExitCall t g s n log s') :
    ∃ n log s', ExitCall t g s n log s' ∧ (s'.threads t).pc = .idle := by
  obtain ⟨hle, hiff⟩ := h.reclaiming.steps hsorted
  obtain ⟨k, hk⟩ := Nat.exists_eq_add_of_le hle
  induction k generalizing n log s' with
  | zero => exact ⟨n, log, s', h, hiff.2 hk.symm⟩
  | succ k ih =>
    have hpc : (s'.threads t).pc ≠ .idle := fun hidle => by
      have := hiff.1 hidle
      omega
    obtain ⟨⟨s'', e⟩, hs⟩ := Option.isSome_iff_exists.1 (h.reclaiming.isSome_step hpc false)
    have h' := h.own hs
    obtain ⟨hle', hiff'⟩ := h'.reclaiming.steps hsorted
    exact ih h' hle' hiff' (by omega)

/-- A thread in its critical section can call `exit_epoch`. -/
theorem exists_exitCall (hpc : (s.threads t).pc = .idle) (hreg : t ∈ s.registered)
    (hactive : isEpochStatusActive (s.threads t).epochStatus = true) :
    ∃ log s', ExitCall t s.gcEpoch s 0 log s' := by
  have hcall : s.step (.exitEpoch t) = some (s.setPc t .exitLoad, none) := by
    simp only [step, call, hpc, initThreadEpoch, if_pos hreg, Option.map_some]
  obtain ⟨s₁, hs₁⟩ : ∃ s₁, s₁ = s.setPc t .exitLoad := ⟨_, rfl⟩
  have hx₁ : s₁.threads t = { s.threads t with pc := .exitLoad } := hs₁ ▸ setThread_self
  have hload : s₁.step (.thread t false) =
      some (s₁.setPc t (.exitCas (s.threads t).epochStatus), none) := by
    simp only [step, threadStep, hx₁, if_pos hactive]
  obtain ⟨s₂, hs₂⟩ : ∃ s₂, s₂ = s₁.setPc t (.exitCas (s.threads t).epochStatus) := ⟨_, rfl⟩
  have hx₂ : s₂.threads t = { s.threads t with pc := .exitCas (s.threads t).epochStatus } := by
    rw [hs₂, setPc, setThread_self, hx₁]
  have hcas : s₂.step (.thread t false) = some (s₂.setThread t { s₂.threads t with
      epochStatus := getEpochStatus (s.threads t).epochStatus false, pc := .exitGc },
      some (.exited t)) := by
    simp only [step, threadStep, hx₂, and_self, if_true]
  obtain ⟨s₃, hs₃⟩ : ∃ s₃, s₃ = s₂.setThread t { s₂.threads t with
      epochStatus := getEpochStatus (s.threads t).epochStatus false, pc := .exitGc } := ⟨_, rfl⟩
  rw [← hs₃] at hcas
  have hpc₃ : (s₃.threads t).pc = .exitGc := by rw [hs₃, setThread_self]
  have hgc : s₃.gcEpoch = s.gcEpoch := by rw [hs₃, hs₂, hs₁]; rfl
  have hread : s₃.step (.thread t false) = some (s₃.setPc t (.reclaim s₃.gcEpoch), none) := by
    simp only [step, threadStep, hpc₃]
  rw [← hs₁] at hcall
  rw [← hs₂] at hload
  exact ⟨_, _, .intro hcall ((During.refl.own hload).own hcas) hpc₃ hgc hread .refl⟩

/-- `exit_epoch` reclaims exactly what is reclaimable, in every run whose global epoch fits into the
63 bits of a status. -/
theorem reclaimsExactly :
    ReclaimsExactly fun s : EpochBasedReclamation T N => s.globalEpoch.toNat < 2 ^ 63 where
  inOrder hr t := (hr.inOrder t).sorted
  reclaims hr _ _ _ _ _ hcall hidle := hcall.reclaiming.exact hidle (hr.inOrder _).sorted
  returns hr _ _ _ _ _ hcall := by
    obtain ⟨hle, hiff⟩ := hcall.reclaiming.steps (hr.inOrder _).sorted
    exact ⟨hle, hiff, hcall.reclaiming.isSome_step⟩
  retires _ _ _ _ hs t := (listStep hs).append t
  fifo hr t := hr.fifo t
  deques hr _ hnodup hmem sizeofT _ INITIAL_CAPACITY hsafe :=
    hr.areQueues hnodup hmem sizeofT INITIAL_CAPACITY hsafe

/-- A run has calls of the retire lists that lead to its state. -/
theorem Run.reaches {P : EpochBasedReclamation T N → Prop} (hr : Run P log s) :
    ∃ calls, Reaches P log calls s := by
  induction hr with
  | init => exact ⟨[], .init⟩
  | step _ _ hs hp ih =>
    obtain ⟨calls, h⟩ := ih
    exact ⟨_, h.step hs hp⟩

/-- The thread retires a node in epoch 1, and after two advances another in epoch 3. -/
def retireTwice : List (EpochAction Bool Bool) :=
  .enterEpoch true :: threadSteps true 3 ++ .retire true false :: threadSteps true 1 ++
    .exitEpoch true :: threadSteps true 4 ++ List.replicate 14 .advanceEpoch ++
    .enterEpoch true :: threadSteps true 3 ++ .retire true true :: threadSteps true 1

/-- The thread `true` releases the first of its two records, and keeps the second. -/
theorem reclaimsExactly_retireTwice : ∃ n log, ∃ s s' : EpochBasedReclamation Bool Bool,
    (s.threads true).retireList = [⟨false, 1⟩, ⟨true, 3⟩] ∧ ExitCall true 1 s n log s' ∧
      releasedBy true log = [false] ∧ (s'.threads true).retireList = [⟨true, 3⟩] := by
  have hrun : ((run (fun s => s.globalEpoch.toNat < 2 ^ 63) {} [] retireTwice).any fun p =>
      decide ((p.1.threads true).retireList = [⟨false, 1⟩, ⟨true, 3⟩] ∧ p.1.gcEpoch = 1 ∧
        (p.1.threads true).pc = .idle ∧ true ∈ p.1.registered ∧
        isEpochStatusActive (p.1.threads true).epochStatus = true)) = true := by
    decide +kernel
  obtain ⟨⟨s, log⟩, hrun, hs⟩ := (Option.any_eq_true _ _).1 hrun
  obtain ⟨hlist, hgc, hpc, hreg, hactive⟩ := of_decide_eq_true hs
  obtain ⟨calls, hr⟩ := (Run.init.run hrun).reaches
  obtain ⟨log₀, s₀, hcall⟩ := exists_exitCall hpc hreg hactive
  rw [hgc] at hcall
  obtain ⟨n, log', s', hcall, hidle⟩ := hcall.returns (hr.inOrder true).sorted
  obtain ⟨hreleased, hkept⟩ := reclaimsExactly.reclaims hr hcall hidle
  rw [hlist] at hreleased hkept
  exact ⟨n, log', s, s', hlist, hcall, hreleased, hkept⟩

/-- The thread enters in the last epoch of 63 bits and retires a node, and after the next advance
another one. -/
def retireAtWrap : List (EpochAction Bool Bool) :=
  .enterEpoch true :: threadSteps true 3 ++ .retire true false :: threadSteps true 1 ++
    List.replicate 2 .advanceEpoch ++ .retire true true :: threadSteps true 1

/-- Past the wrap-around the list is out of order: a record that is due waits behind one that is
not. -/
theorem not_reclaimsExactly_wrapped :
    ¬ReclaimsExactly fun _ : EpochBasedReclamation Bool Bool => True := by
  intro h
  have hrun : ((run (fun _ => True)
      { globalEpoch := UInt64.ofNat (2 ^ 63 - 3 + 2), gcEpoch := UInt64.ofNat (2 ^ 63 - 3) } []
      retireAtWrap).any fun p => decide ((p.1.threads true).retireList =
        [⟨false, 0x7FFFFFFFFFFFFFFF⟩, ⟨true, 0⟩])) = true := by decide +kernel
  obtain ⟨⟨s, log⟩, hrun, hlist⟩ := (Option.any_eq_true _ _).1 hrun
  have hlist : (s.threads true).retireList = [⟨false, 0x7FFFFFFFFFFFFFFF⟩, ⟨true, 0⟩] :=
    of_decide_eq_true hlist
  obtain ⟨calls, hr⟩ :=
    ((Run.init.advances (advances_init (2 ^ 63 - 3) (by decide))).run hrun).reaches
  have hsorted := h.inOrder hr true
  rw [hlist] at hsorted
  have hle := (List.pairwise_cons.1 hsorted).1 ⟨true, 0⟩ (List.mem_singleton_self _)
  revert hle
  decide

end EpochBasedReclamation

end RockCoro
