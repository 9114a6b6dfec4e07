import RockCoro.Memory.RetireLists

/-!
# Epochs only grow

The epochs of the threads and of the maintainer over a run. `global_epoch_` changes by the
maintainer's `fetch_add`, and `gc_epoch_` by its `store` of the minimum of a scan; the invariant of
`Epochs` bounds both from one side, so neither decreases (`epochs_conservative`).
-/

namespace RockCoro.EpochBasedReclamation

variable {T N : Type} {s s' : EpochBasedReclamation T N}

/-- The epochs are not below those of `s`. -/
structure NotBelow (s s' : EpochBasedReclamation T N) : Prop where
  global_le : s.globalEpoch ≤ s'.globalEpoch
  gc_le : s.gcEpoch ≤ s'.gcEpoch

/-- Epochs that do not fall do not fall over two runs. -/
theorem NotBelow.trans {s'' : EpochBasedReclamation T N} (h : NotBelow s s')
    (h' : NotBelow s' s'') :
    NotBelow s s'' :=
  ⟨UInt64.le_trans h.global_le h'.global_le, UInt64.le_trans h.gc_le h'.gc_le⟩

/-- Epochs that are the same have not fallen. -/
theorem NotBelow.of_eq (hglobal : s'.globalEpoch = s.globalEpoch) (hgc : s'.gcEpoch = s.gcEpoch) :
    NotBelow s s' :=
  ⟨hglobal ▸ UInt64.le_refl _, hgc ▸ UInt64.le_refl _⟩

/-- The minimum of a scan is above what was published before it. -/
theorem Swept.gc_le_pred {min cur : UInt64} {rest : List T} (h : s.Swept min cur rest) :
    s.gcEpoch ≤ min - 1 := by
  have hgc := h.gc_lt
  rw [UInt64.le_iff_toNat_le, UInt64.toNat_sub_of_le, UInt64.toNat_one]
  · omega
  · rw [UInt64.le_iff_toNat_le, UInt64.toNat_one]
    omega

variable [DecidableEq T] {t : T} {e : Option (EpochEvent T N)}

/-- A step, while the epochs fit into the 63 bits of a status. -/
def Next (s s' : EpochBasedReclamation T N) : Prop :=
  ∃ a e, s.step a = some (s', e) ∧ s'.globalEpoch.toNat < 2 ^ 63

/-- Any number of steps. -/
def Steps : EpochBasedReclamation T N → EpochBasedReclamation T N → Prop :=
  Relation.ReflTransGen Next

/-- A run is a sequence of steps from the start. -/
theorem Run.steps {log : List (EpochEvent T N)}
    (hr : Run (fun s => s.globalEpoch.toNat < 2 ^ 63) log s) : Steps {} s := by
  induction hr with
  | init => exact .refl
  | step _ _ hs hlt ih => exact ih.tail ⟨_, _, hs, hlt⟩

/-- The invariant holds after any steps from the start. -/
theorem Steps.inv (hr : Steps {} s) : s.Inv := by
  induction hr with
  | refl => exact inv_init
  | tail _ hnext ih =>
    obtain ⟨a, e, hs, hlt⟩ := hnext
    exact ih.step hs hlt

/-- A step of a thread leaves both epochs alone. -/
theorem Observed.notBelow (h : s.Observed t s' e) : NotBelow s s' := by
  cases h with
  | moved | entered | exited | released | retired => exact .of_eq rfl rfl

/-- A step of the maintainer raises an epoch or leaves both alone. -/
theorem Inv.notBelow_advance (h : s.Inv) (hs : s.advanceEpoch = some s') : NotBelow s s' := by
  have hm := h.maintainer_ok
  cases hmaintainer : s.maintainer with
  | load | loadCur | loadCount =>
    simp only [EpochBasedReclamation.advanceEpoch, hmaintainer, Option.some.injEq] at hs
    subst hs
    exact .of_eq rfl rfl
  | fetchAdd min =>
    simp only [EpochBasedReclamation.advanceEpoch, hmaintainer, Option.some.injEq] at hs
    subst hs
    refine ⟨?_, UInt64.le_refl _⟩
    have hlt := h.global_lt
    rw [UInt64.le_iff_toNat_le, UInt64.toNat_add, UInt64.toNat_one]
    omega
  | scan min cur rest =>
    rw [hmaintainer] at hm
    cases rest with
    | nil =>
      simp only [EpochBasedReclamation.advanceEpoch, hmaintainer] at hs
      split at hs
      · cases hs
      · cases hs
        exact ⟨UInt64.le_refl _, hm.gc_le_pred⟩
    | cons i rest =>
      simp only [EpochBasedReclamation.advanceEpoch, hmaintainer, Option.some.injEq] at hs
      subst hs
      exact .of_eq rfl rfl
  | scanCas min cur i old rest =>
    simp only [EpochBasedReclamation.advanceEpoch, hmaintainer] at hs
    split at hs
    · cases hs
      exact .of_eq rfl rfl
    · cases hs
      exact .of_eq rfl rfl

/-- A step does not lower an epoch. -/
theorem Inv.notBelow_step {a : EpochAction T N} (h : s.Inv) (hs : s.step a = some (s', e)) :
    NotBelow s s' := by
  cases a with
  | enterEpoch t | exitEpoch t =>
    obtain ⟨s₁, hs₁, ⟨⟩⟩ := Option.map_eq_some_iff.1 hs
    obtain ⟨-, registered, rfl, -⟩ := call_eq hs₁
    exact .of_eq rfl rfl
  | retire t ptr =>
    obtain ⟨s₁, hs₁, ⟨⟩⟩ := Option.map_eq_some_iff.1 hs
    obtain ⟨-, -, -, rfl⟩ := callRetire_eq hs₁
    exact .of_eq rfl rfl
  | thread t spurious => exact (observed_of_threadStep hs).notBelow
  | advanceEpoch =>
    obtain ⟨s₁, hs₁, ⟨⟩⟩ := Option.map_eq_some_iff.1 hs
    exact h.notBelow_advance hs₁

/-- Any number of steps keep the invariant and do not lower an epoch. -/
theorem Inv.notBelow (h : s.Inv) (hr : Steps s s') : s'.Inv ∧ NotBelow s s' := by
  induction hr with
  | refl => exact ⟨h, .of_eq rfl rfl⟩
  | tail _ hnext ih =>
    obtain ⟨a, e, hs, hlt⟩ := hnext
    exact ⟨ih.1.step hs hlt, ih.2.trans (ih.1.notBelow_step hs)⟩

/-- The bookkeeping of the epochs over every run: neither epoch decreases, the published one is
below the global one and below that of each thread in its critical section, and
`assert(min_epoch > 0)` holds when the maintainer gets there. -/
theorem epochs_conservative (hr : Steps {} s) :
    (∀ s', Steps s s' → s.globalEpoch ≤ s'.globalEpoch ∧ s.gcEpoch ≤ s'.gcEpoch) ∧
    s.gcEpoch < s.globalEpoch ∧
    (∀ t, isEpochStatusActive (s.threads t).epochStatus = true →
      s.gcEpoch.toNat < epochOf (s.threads t).epochStatus) ∧
    ∀ min cur, s.maintainer = .scan min cur [] → 0 < min := by
  have h := hr.inv
  refine ⟨fun s' hr' => ?_, UInt64.lt_iff_toNat_lt.2 h.gc_lt, fun t => h.gc_lt_epochOf,
    fun min cur hscan => ?_⟩
  · have hle := (h.notBelow hr').2
    exact ⟨hle.global_le, hle.gc_le⟩
  · have hm := h.maintainer_ok
    rw [hscan] at hm
    exact UInt64.lt_iff_toNat_lt.2 ((Nat.zero_le _).trans_lt hm.gc_lt)

/-- Two advances without threads, then `true` enters. -/
def enterAfterAdvances : List (EpochAction Bool Unit) :=
  List.replicate 10 .advanceEpoch ++ .enterEpoch true :: threadSteps true 3

/-- After the two advances `true` enters above the published epoch. -/
theorem epochs_conservative_bool :
    ∃ s : EpochBasedReclamation Bool Unit, s.gcEpoch = 1 ∧
    epochOf (s.threads true).epochStatus = 3 ∧
      s.gcEpoch.toNat < epochOf (s.threads true).epochStatus := by
  have hrun : ((run (fun s => s.globalEpoch.toNat < 2 ^ 63) {} [] enterAfterAdvances).any fun p =>
      decide (p.1.gcEpoch = 1 ∧ (p.1.threads true).epochStatus = 0x8000000000000003)) = true := by
    decide +kernel
  obtain ⟨⟨s, log⟩, hrun, hs⟩ := (Option.any_eq_true _ _).1 hrun
  obtain ⟨hgc, hstatus⟩ := of_decide_eq_true hs
  refine ⟨s, hgc, ?_, ?_⟩
  · rw [hstatus]
    decide
  · refine (epochs_conservative (Run.init.run hrun).steps).2.2.1 true ?_
    rw [hstatus]
    decide

end RockCoro.EpochBasedReclamation
