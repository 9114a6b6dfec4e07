import Mathlib.Logic.Relation
import RockCoro.Lib.Logs
import RockCoro.Memory.Epochs

/-!
# No node is released too early

`Tracks` relates the log of a run to the retire lists: a node that was retired while a thread was in
its critical section has a stamp that is not below the epoch of this thread, so that it is not
released before the thread has left (`run_neverEarly`). Once the epoch has overflown its 63 bits a
thread enters with epoch 0, and this fails (`not_neverEarly_wrapped`).
-/

namespace RockCoro.EpochBasedReclamation

variable {T N : Type} {s s' : EpochBasedReclamation T N} {log : List (EpochEvent T N)}

/-! ## The log of a run -/

/-- The thread is in its critical section. -/
def Inside (log : List (EpochEvent T N)) (t : T) : Prop :=
  ∃ l₀ l₁, log = l₀ ++ .entered t :: l₁ ∧ .exited t ∉ l₁

/-- The node was retired while the thread was in the critical section that it is still in. -/
def Protects (log : List (EpochEvent T N)) (t : T) (ptr : N) : Prop :=
  ∃ l₀ l₁ l₂ u, log = l₀ ++ .entered t :: (l₁ ++ .retired u ptr :: l₂) ∧ .exited t ∉ l₁ ++ l₂

/-- A node that is retired while a thread is in its critical section is not released until the
thread has left it. -/
def NeverEarly (log : List (EpochEvent T N)) : Prop :=
  ∀ l₀ l₁ l₂ l₃ t u v ptr,
    log = l₀ ++ .entered t :: (l₁ ++ .retired u ptr :: (l₂ ++ .released v ptr :: l₃)) →
      .exited t ∈ l₁ ++ l₂

variable {t : T} {x : Thread N} {e : EpochEvent T N} {ptr : N}

/-- Who protects a node is in its critical section. -/
theorem Protects.inside (h : Protects log t ptr) : Inside log t := by
  obtain ⟨l₀, l₁, l₂, u, rfl, hexit⟩ := h
  refine ⟨l₀, l₁ ++ .retired u ptr :: l₂, rfl, fun hmem => hexit ?_⟩
  rcases List.mem_append.1 hmem with hmem | hmem
  · exact List.mem_append_left _ hmem
  · exact List.mem_append_right _ (List.mem_of_ne_of_mem (by nofun) hmem)

/-- A critical section goes on, or begins with the last event. -/
theorem Inside.of_append (h : Inside (log ++ [e]) t) :
    e = .entered t ∨ Inside log t ∧ e ≠ .exited t := by
  obtain ⟨l₀, l₁, hlog, hexit⟩ := h
  rcases append_cons_of_concat hlog with ⟨he, -⟩ | ⟨l₂, rfl, hl⟩
  · exact .inl he
  · refine .inr ⟨⟨l₀, l₂, hl, fun hmem => hexit (List.mem_append_left _ hmem)⟩, ?_⟩
    rintro rfl
    exact hexit (List.mem_append_right _ (List.mem_singleton_self _))

/-- Protection goes on, or begins with the retirement that is the last event. -/
theorem Protects.of_append (h : Protects (log ++ [e]) t ptr) :
    (∃ u, e = .retired u ptr) ∧ Inside log t ∨ Protects log t ptr ∧ e ≠ .exited t := by
  obtain ⟨l₀, l₁, l₂, u, hlog, hexit⟩ := h
  rw [← List.cons_append, ← List.append_assoc] at hlog
  rcases append_cons_of_concat hlog with ⟨he, hl⟩ | ⟨l₃, rfl, hl⟩
  · refine .inl ⟨⟨u, he⟩, l₀, l₁, hl, fun hmem => hexit (List.mem_append_left _ hmem)⟩
  · rw [← List.append_assoc] at hexit
    rw [List.append_assoc, List.cons_append] at hl
    refine .inr ⟨⟨l₀, l₁, l₃, u, hl, fun hmem => hexit (List.mem_append_left _ hmem)⟩, ?_⟩
    rintro rfl
    exact hexit (List.mem_append_right _ (List.mem_singleton_self _))

/-- A critical section goes on with every event but its end. -/
theorem Inside.append (h : Inside log t) (he : e ≠ .exited t) : Inside (log ++ [e]) t := by
  obtain ⟨l₀, l₁, rfl, hexit⟩ := h
  refine ⟨l₀, l₁ ++ [e], by rw [List.append_assoc, List.cons_append], fun hmem => ?_⟩
  rcases List.mem_append.1 hmem with hmem | hmem
  · exact hexit hmem
  · exact he (List.mem_singleton.1 hmem).symm

/-- A thread that enters is in its critical section. -/
theorem inside_entered : Inside (log ++ [.entered t]) t := ⟨log, [], rfl, List.not_mem_nil⟩

/-- Protection goes on with every event but the end of the critical section. -/
theorem Protects.append (h : Protects log t ptr) (he : e ≠ .exited t) :
    Protects (log ++ [e]) t ptr := by
  obtain ⟨l₀, l₁, l₂, u, rfl, hexit⟩ := h
  refine ⟨l₀, l₁, l₂ ++ [e], u, ?_, fun hmem => ?_⟩
  · rw [List.append_assoc, List.cons_append, List.append_assoc, List.cons_append]
  · rw [← List.append_assoc] at hmem
    rcases List.mem_append.1 hmem with hmem | hmem
    · exact hexit hmem
    · exact he (List.mem_singleton.1 hmem).symm

/-- What is retired while a thread is in its critical section is protected. -/
theorem Inside.protects {u : T} (h : Inside log t) : Protects (log ++ [.retired u ptr]) t ptr := by
  obtain ⟨l₀, l₁, rfl, hexit⟩ := h
  exact ⟨l₀, l₁, [], u, by rw [List.append_assoc, List.cons_append],
    by rw [List.append_nil]; exact hexit⟩

/-- A log stays without early releases if a release is of a node that nobody protects. -/
theorem NeverEarly.append (h : NeverEarly log)
    (he : ∀ v ptr, e = .released v ptr → ∀ t, ¬Protects log t ptr) : NeverEarly (log ++ [e]) := by
  intro l₀ l₁ l₂ l₃ t u v ptr hlog
  have hassoc : log ++ [e] =
      (l₀ ++ .entered t :: (l₁ ++ .retired u ptr :: l₂)) ++ .released v ptr :: l₃ := by
    rw [hlog, List.append_assoc, List.cons_append, List.append_assoc, List.cons_append]
  rcases append_cons_of_concat hassoc with ⟨hrel, hl⟩ | ⟨l₄, -, hl⟩
  · by_contra hexit
    exact he v ptr hrel t ⟨l₀, l₁, l₂, u, hl, hexit⟩
  · rw [List.append_assoc, List.cons_append, List.append_assoc, List.cons_append] at hl
    exact h l₀ l₁ l₂ l₄ t u v ptr hl

/-! ## The retire lists -/

/-- The log against the state. A node that a thread in its critical section protects is in a retire
list, with a stamp that is not below the epoch of the thread. -/
structure Tracks (log : List (EpochEvent T N)) (s : EpochBasedReclamation T N) : Prop where
  active : ∀ t, Inside log t → isEpochStatusActive (s.threads t).epochStatus = true
  unique : ∀ u v, ∀ r ∈ (s.threads u).pending, ∀ r' ∈ (s.threads v).pending,
    r.ptr = r'.ptr → r.retireEpoch = r'.retireEpoch
  stamped : ∀ t ptr, Protects log t ptr → ∃ u, ∃ r ∈ (s.threads u).pending,
    r.ptr = ptr ∧ epochOf (s.threads t).epochStatus ≤ r.retireEpoch.toNat

/-- At the start nothing is tracked. -/
theorem tracks_init : Tracks [] ({} : EpochBasedReclamation T N) where
  active t h := by
    obtain ⟨l₀, l₁, hlog, -⟩ := h
    cases l₀ <;> cases hlog
  unique _ _ r hr := nomatch hr
  stamped t ptr h := by
    obtain ⟨l₀, l₁, l₂, u, hlog, -⟩ := h
    cases l₀ <;> cases hlog

/-- Nothing is observed: the retire lists stay, and the statuses of the threads that are in their
critical sections. -/
theorem Tracks.congr (h : Tracks log s)
    (hlist : ∀ t, (s'.threads t).pending = (s.threads t).pending)
    (hstatus : ∀ t, isEpochStatusActive (s.threads t).epochStatus = true →
      (s'.threads t).epochStatus = (s.threads t).epochStatus) : Tracks log s' := by
  refine ⟨fun t ht => ?_, fun u v r hr r' hr' => ?_, fun t ptr ht => ?_⟩
  · rw [hstatus t (h.active t ht)]
    exact h.active t ht
  · rw [hlist] at hr hr'
    exact h.unique u v r hr r' hr'
  · obtain ⟨u, r, hr, hptr, hle⟩ := h.stamped t ptr ht
    refine ⟨u, r, (hlist u).symm ▸ hr, hptr, ?_⟩
    rw [hstatus t (h.active t ht.inside)]
    exact hle

/-- A node that is released is protected by no thread: its stamp is not above the published epoch,
the epochs of the threads in their critical sections are. -/
theorem Tracks.not_protects {r : RetireRecord N} {u : T} (h : Tracks log s) (hinv : s.Inv)
    (hr : r ∈ (s.threads u).pending) (hle : r.retireEpoch.toNat ≤ s.gcEpoch.toNat) :
    ¬Protects log t r.ptr := by
  intro ht
  obtain ⟨v, r', hr', hptr, hstamp⟩ := h.stamped t r.ptr ht
  have hactive := h.active t ht.inside
  refine Nat.lt_irrefl s.gcEpoch.toNat ?_
  calc s.gcEpoch.toNat < epochOf (s.threads t).epochStatus := hinv.gc_lt_epochOf hactive
    _ ≤ r'.retireEpoch.toNat := hstamp
    _ = r.retireEpoch.toNat := by rw [h.unique v u r' hr' r hr hptr]
    _ ≤ s.gcEpoch.toNat := hle

/-- A thread gets into its critical section or out of it, or releases nothing that is protected. -/
theorem Tracks.append (h : Tracks log s) (he : ∀ u ptr, e ≠ .retired u ptr)
    (hactive : ∀ u, Inside (log ++ [e]) u →
      isEpochStatusActive (s'.threads u).epochStatus = true)
    (hstatus : ∀ u, Inside log u → e ≠ .exited u →
      (s'.threads u).epochStatus = (s.threads u).epochStatus)
    (hsub : ∀ u, ∀ r ∈ (s'.threads u).pending, r ∈ (s.threads u).pending)
    (hkept : ∀ t ptr, Protects log t ptr → ∀ u, ∀ r ∈ (s.threads u).pending, r.ptr = ptr →
      r ∈ (s'.threads u).pending) : Tracks (log ++ [e]) s' := by
  refine ⟨hactive, fun u v r hr r' hr' => ?_, fun u ptr hu => ?_⟩
  · exact h.unique u v r (hsub u r hr) r' (hsub v r' hr')
  · rcases hu.of_append with ⟨⟨v, hv⟩, -⟩ | ⟨hu, hne⟩
    · exact absurd hv (he v ptr)
    · obtain ⟨v, r, hr, hptr, hle⟩ := h.stamped u ptr hu
      refine ⟨v, r, hkept u ptr hu v r hr hptr, hptr, ?_⟩
      rw [hstatus u hu.inside hne]
      exact hle

variable [DecidableEq T]

/-! ## The steps that are observed -/

/-- A thread whose pending records stay changes those of no thread. -/
theorem setThread_pending (hlist : x.pending = (s.threads t).pending) (u : T) :
    ((s.setThread t x).threads u).pending = (s.threads u).pending := by
  rcases eq_or_ne u t with rfl | hne
  · rw [setThread_self]
    exact hlist
  · rw [setThread_of_ne hne]

/-- A thread enters: it protects nothing yet. -/
theorem Tracks.entered (h : Tracks log s)
    (hinactive : isEpochStatusActive (s.threads t).epochStatus = false)
    (hlist : x.pending = (s.threads t).pending)
    (hactive : isEpochStatusActive x.epochStatus = true) :
    Tracks (log ++ [.entered t]) (s.setThread t x) := by
  refine h.append (fun _ _ => nofun) (fun u hu => ?_) (fun u hu _ => ?_) (fun u r hr => ?_)
    (fun _ _ _ u r hr _ => ?_)
  · rcases eq_or_ne u t with rfl | hne
    · rw [setThread_self]
      exact hactive
    · rw [setThread_of_ne hne]
      rcases hu.of_append with he | ⟨hu, -⟩
      · cases he
        exact absurd rfl hne
      · exact h.active u hu
  · have hne : u ≠ t := by
      rintro rfl
      exact absurd (h.active u hu) (Bool.eq_false_iff.1 hinactive)
    rw [setThread_of_ne hne]
  · rw [setThread_pending hlist] at hr
    exact hr
  · rw [setThread_pending hlist]
    exact hr

/-- A thread leaves: it protects nothing any more. -/
theorem Tracks.exited (h : Tracks log s) (hlist : x.pending = (s.threads t).pending) :
    Tracks (log ++ [.exited t]) (s.setThread t x) := by
  have hother : ∀ u, EpochEvent.exited (N := N) t ≠ .exited u → u ≠ t := by
    rintro u hne rfl
    exact hne rfl
  refine h.append (fun _ _ => nofun) (fun u hu => ?_) (fun u _ hne => ?_) (fun u r hr => ?_)
    (fun _ _ _ u r hr _ => ?_)
  · rcases hu.of_append with he | ⟨hu, hne⟩
    · cases he
    · rw [setThread_of_ne (hother u hne)]
      exact h.active u hu
  · rw [setThread_of_ne (hother u hne)]
  · rw [setThread_pending hlist] at hr
    exact hr
  · rw [setThread_pending hlist]
    exact hr

/-- The first record is released. Its stamp is not above the published epoch, so no active thread
protects it. -/
theorem Tracks.released {r : RetireRecord N} {rs : List (RetireRecord N)} (h : Tracks log s)
    (hinv : s.Inv) (hlist : (s.threads t).pending = r :: rs) (hx : x.pending = rs)
    (hstatus : x.epochStatus = (s.threads t).epochStatus)
    (hle : r.retireEpoch.toNat ≤ s.gcEpoch.toNat) :
    Tracks (log ++ [.released t r.ptr]) (s.setThread t x) := by
  have hstatus : ∀ u, ((s.setThread t x).threads u).epochStatus = (s.threads u).epochStatus := by
    intro u
    rcases eq_or_ne u t with rfl | hne
    · rw [setThread_self, hstatus]
    · rw [setThread_of_ne hne]
  have hr : r ∈ (s.threads t).pending := hlist ▸ List.mem_cons_self
  refine h.append (fun _ _ => nofun) (fun u hu => ?_) (fun u _ _ => hstatus u) (fun u r' hr' => ?_)
    (fun v ptr hv u r' hr' hptr => ?_)
  · rw [hstatus]
    rcases hu.of_append with he | ⟨hu, -⟩
    · cases he
    · exact h.active u hu
  · rcases eq_or_ne u t with rfl | hne
    · rw [setThread_self, hx] at hr'
      exact hlist ▸ List.mem_cons_of_mem r hr'
    · rw [setThread_of_ne hne] at hr'
      exact hr'
  · rcases eq_or_ne u t with rfl | hne
    · rw [setThread_self, hx]
      rw [hlist] at hr'
      rcases List.mem_cons.1 hr' with rfl | hr'
      · exact absurd (hptr ▸ hv) (h.not_protects hinv hr hle)
      · exact hr'
    · rw [setThread_of_ne hne]
      exact hr'

/-- A node is retired. Its stamp is the global epoch, which no thread is above. -/
theorem Tracks.retired {r : RetireRecord N} (h : Tracks log s) (hinv : s.Inv)
    (hfresh : ∀ u, ∀ r' ∈ (s.threads u).pending, r'.ptr ≠ r.ptr)
    (hstamp : r.retireEpoch.toNat = s.globalEpoch.toNat)
    (hx : x.pending = (s.threads t).pending ++ [r])
    (hstatus : x.epochStatus = (s.threads t).epochStatus) :
    Tracks (log ++ [.retired t r.ptr]) (s.setThread t x) := by
  have hstatus : ∀ u, ((s.setThread t x).threads u).epochStatus = (s.threads u).epochStatus := by
    intro u
    rcases eq_or_ne u t with rfl | hne
    · rw [setThread_self, hstatus]
    · rw [setThread_of_ne hne]
  have hlist : ∀ u r', r' ∈ ((s.setThread t x).threads u).pending ↔
      r' ∈ (s.threads u).pending ∨ u = t ∧ r' = r := by
    intro u r'
    rcases eq_or_ne u t with rfl | hne
    · rw [setThread_self, hx, List.mem_append, List.mem_singleton]
      exact ⟨fun h => h.imp_right fun h => ⟨rfl, h⟩, fun h => h.imp_right And.right⟩
    · rw [setThread_of_ne hne]
      exact ⟨.inl, fun h => h.resolve_right fun h => hne h.1⟩
  refine ⟨fun u hu => ?_, fun u v r₁ hr₁ r₂ hr₂ hptr => ?_, fun u ptr hu => ?_⟩
  · rw [hstatus]
    rcases hu.of_append with he | ⟨hu, -⟩
    · cases he
    · exact h.active u hu
  · rcases (hlist u r₁).1 hr₁ with hr₁ | ⟨-, rfl⟩
    · rcases (hlist v r₂).1 hr₂ with hr₂ | ⟨-, rfl⟩
      · exact h.unique u v r₁ hr₁ r₂ hr₂ hptr
      · exact absurd hptr (hfresh u r₁ hr₁)
    · rcases (hlist v r₂).1 hr₂ with hr₂ | ⟨-, rfl⟩
      · exact absurd hptr.symm (hfresh v r₂ hr₂)
      · rfl
  · rw [hstatus]
    rcases hu.of_append with ⟨⟨v, he⟩, -⟩ | ⟨hu, -⟩
    · cases he
      exact ⟨t, r, (hlist t r).2 (.inr ⟨rfl, rfl⟩), rfl, hstamp ▸ hinv.epoch_le u⟩
    · obtain ⟨v, r', hr', hptr, hle⟩ := h.stamped u ptr hu
      exact ⟨v, r', (hlist v r').2 (.inl hr'), hptr, hle⟩

/-! ## Runs -/

/-- What is observed of a step of a thread. -/
inductive Observed (s : EpochBasedReclamation T N) (t : T) :
    EpochBasedReclamation T N → Option (EpochEvent T N) → Prop
  /-- The records that wait for their release stay. -/
  | moved {x : Thread N} (hlist : x.pending = (s.threads t).pending)
    (hstatus : x.epochStatus = (s.threads t).epochStatus) : Observed s t (s.setThread t x) none
  | entered {old new : UInt64} (hpc : (s.threads t).pc = .enterCas old new) :
    Observed s t (s.setThread t { s.threads t with epochStatus := new, pc := .idle })
      (some (.entered t))
  | exited {old : UInt64} (hpc : (s.threads t).pc = .exitCas old) :
    Observed s t
      (s.setThread t { s.threads t with epochStatus := getEpochStatus old false, pc := .exitGc })
      (some (.exited t))
  | released {cur : UInt64} {r : RetireRecord N} {rs : List (RetireRecord N)}
    (hpc : (s.threads t).pc = .reclaim cur) (hlist : (s.threads t).retireList = r :: rs)
    (hle : r.retireEpoch ≤ cur) :
    Observed s t (s.setPc t (.popFront cur)) (some (.released t r.ptr))
  | retired {ptr : N} (hpc : (s.threads t).pc = .retiring ptr) :
    Observed s t
      (s.setThread t { s.threads t with
        retireList := (s.threads t).retireList ++ [⟨ptr, getEpochStatus s.globalEpoch false⟩]
        pc := .idle })
      (some (.retired t ptr))

/-- A thread gets to another place and none of them is behind a `release`. -/
theorem Observed.setPc {pc : ThreadPc N} (hpc : ∀ cur, (s.threads t).pc ≠ .popFront cur)
    (hpc' : ∀ cur, pc ≠ .popFront cur) : Observed s t (s.setPc t pc) none := by
  exact .moved (Thread.pending_congr hpc' hpc rfl) rfl

/-- A step of a thread is observed as one of the five kinds. -/
theorem observed_of_threadStep {spurious : Bool} {e : Option (EpochEvent T N)}
    (hs : s.threadStep t spurious = some (s', e)) : s.Observed t s' e := by
  cases hpc : (s.threads t).pc with
  | idle =>
    simp only [EpochBasedReclamation.threadStep, hpc] at hs
    cases hs
  | enterLoad | exitLoad =>
    simp only [EpochBasedReclamation.threadStep, hpc] at hs
    split at hs
    · cases hs
      exact .setPc (by simp [hpc]) (by simp)
    · cases hs
      exact .setPc (by simp [hpc]) (by simp)
  | enterGlobal | exitGc =>
    simp only [EpochBasedReclamation.threadStep, hpc] at hs
    cases hs
    exact .setPc (by simp [hpc]) (by simp)
  | enterCas old new =>
    simp only [EpochBasedReclamation.threadStep, hpc] at hs
    split at hs
    · cases hs
      exact .entered hpc
    · cases hs
      exact .setPc (by simp [hpc]) (by simp)
  | exitCas old =>
    simp only [EpochBasedReclamation.threadStep, hpc] at hs
    split at hs
    · cases hs
      exact .exited hpc
    · cases hs
      exact .setPc (by simp [hpc]) (by simp)
  | reclaim cur =>
    simp only [EpochBasedReclamation.threadStep, hpc] at hs
    split at hs
    · cases hs
      exact .setPc (by simp [hpc]) (by simp)
    · split at hs
      · cases hs
        exact .released hpc ‹_› ‹_›
      · cases hs
        exact .setPc (by simp [hpc]) (by simp)
  | popFront cur =>
    simp only [EpochBasedReclamation.threadStep, hpc] at hs
    cases hs
    refine .moved ?_ rfl
    rw [Thread.pending, Thread.pending, hpc]
  | retiring ptr =>
    simp only [EpochBasedReclamation.threadStep, hpc] at hs
    cases hs
    exact .retired hpc

/-- A thread that starts a call keeps the records. -/
theorem Tracks.setPc {pc : ThreadPc N} (h : Tracks log s) (hpc : (s.threads t).pc = .idle)
    (hpc' : ∀ cur, pc ≠ .popFront cur) : Tracks log (s.setPc t pc) := by
  refine h.congr (setThread_pending ?_) fun u _ => ?_
  · exact Thread.pending_congr hpc' (by simp [hpc]) rfl
  · rw [EpochBasedReclamation.setPc]
    rcases eq_or_ne u t with rfl | hne
    · rw [setThread_self]
    · rw [setThread_of_ne hne]

/-- A step of a thread keeps the log in accord with the records. -/
theorem Tracks.threadStep {spurious : Bool} {e : Option (EpochEvent T N)} (h : Tracks log s)
    (hinv : s.Inv) (ha : s.RetiresOnce (.thread t spurious))
    (hs : s.threadStep t spurious = some (s', e)) : Tracks (log ++ e.toList) s' := by
  cases observed_of_threadStep hs with
  | moved hlist hstatus =>
    rw [Option.toList_none, List.append_nil]
    refine h.congr (setThread_pending hlist) fun u _ => ?_
    rcases eq_or_ne u t with rfl | hne
    · rw [setThread_self, hstatus]
    · rw [setThread_of_ne hne]
  | @entered old new hpc =>
    obtain ⟨hinactive, -, -, hactive⟩ : s.PcOk (s.threads t) (.enterCas old new) :=
      hpc ▸ hinv.pc_ok t
    refine h.entered hinactive ?_ hactive
    exact Thread.pending_congr (by nofun) (by simp [hpc]) rfl
  | exited hpc =>
    refine h.exited ?_
    exact Thread.pending_congr (by nofun) (by simp [hpc]) rfl
  | @released cur r rs hpc hlist hle =>
    have hpending : (s.threads t).pending = r :: rs := by
      rw [Thread.pending_eq (by simp [hpc]), hlist]
    have hgc := (UInt64.le_iff_toNat_le.1 hle).trans (hinv.curGcEpoch_le hpc)
    exact h.released hinv hpending (congrArg List.tail hlist) rfl hgc
  | @retired ptr hpc =>
    rw [RetiresOnce, hpc] at ha
    refine h.retired (r := ⟨ptr, getEpochStatus s.globalEpoch false⟩) hinv ha
      (epochOf_of_lt hinv.global_lt) ?_ rfl
    rw [Thread.pending_eq (x := s.threads t) (by simp [hpc])]
    exact Thread.pending_eq (by nofun)

/-- The maintainer writes to inactive statuses only. -/
theorem Tracks.advanceEpoch (h : Tracks log s) (hinv : s.Inv) (hs : s.advanceEpoch = some s') :
    Tracks log s' := by
  rcases advanceEpoch_cases hs with ⟨hthreads, -⟩ | ⟨min, cur, i, old, rest, hm, hold, rfl⟩
  · exact h.congr (fun _ => by rw [hthreads]) fun _ _ => by rw [hthreads]
  · have hok := hinv.maintainer_ok
    rw [hm] at hok
    refine h.congr (setThread_pending rfl) fun u hactive => ?_
    have hne : u ≠ i := by
      rintro rfl
      rw [hold, hok.2.1] at hactive
      cases hactive
    exact congrArg Thread.toThreadEpoch (setThread_of_ne hne) |> congrArg ThreadEpoch.epochStatus

/-- A call of `enter_epoch` or `exit_epoch` keeps it. -/
theorem Tracks.call {pc : ThreadPc N} (h : Tracks log s) (hs : s.call t pc = some s')
    (hpc : ∀ cur, pc ≠ .popFront cur) : Tracks log s' := by
  obtain ⟨hidle, registered, rfl, -⟩ := call_eq hs
  refine Tracks.setPc ?_ hidle hpc
  exact h.congr (fun _ => rfl) fun _ _ => rfl

/-- A call of `retire` keeps it; the record comes with its step. -/
theorem Tracks.callRetire (h : Tracks log s) (hs : s.callRetire t ptr = some s') :
    Tracks log s' := by
  obtain ⟨hidle, -, -, rfl⟩ := callRetire_eq hs
  exact h.setPc hidle (by simp)

/-- A step keeps the log in accord with the records. -/
theorem Tracks.step {a : EpochAction T N} {e : Option (EpochEvent T N)} (h : Tracks log s)
    (hinv : s.Inv) (ha : s.RetiresOnce a) (hs : s.step a = some (s', e)) :
    Tracks (log ++ e.toList) s' := by
  cases a with
  | enterEpoch t | exitEpoch t =>
    obtain ⟨s₁, hs₁, ⟨⟩⟩ := Option.map_eq_some_iff.1 hs
    rw [Option.toList_none, List.append_nil]
    exact h.call hs₁ nofun
  | retire t ptr =>
    obtain ⟨s₁, hs₁, ⟨⟩⟩ := Option.map_eq_some_iff.1 hs
    rw [Option.toList_none, List.append_nil]
    exact h.callRetire hs₁
  | thread t spurious => exact h.threadStep hinv ha hs
  | advanceEpoch =>
    obtain ⟨s₁, hs₁, ⟨⟩⟩ := Option.map_eq_some_iff.1 hs
    rw [Option.toList_none, List.append_nil]
    exact h.advanceEpoch hinv hs₁

/-- A step releases no protected node. -/
theorem NeverEarly.step {a : EpochAction T N} {e : Option (EpochEvent T N)} (h : NeverEarly log)
    (hinv : s.Inv) (htracks : Tracks log s) (hs : s.step a = some (s', e)) :
    NeverEarly (log ++ e.toList) := by
  cases e with
  | none =>
    rw [Option.toList_none, List.append_nil]
    exact h
  | some e =>
    refine h.append fun v ptr he t ht => ?_
    subst he
    cases a with
    | enterEpoch u | exitEpoch u | retire u ptr | advanceEpoch =>
      obtain ⟨s₁, -, ⟨⟩⟩ := Option.map_eq_some_iff.1 hs
    | thread u spurious =>
      cases observed_of_threadStep hs with
      | @released cur r rs hpc hlist hle =>
        have hgc := (UInt64.le_iff_toNat_le.1 hle).trans (hinv.curGcEpoch_le hpc)
        have hmem : r ∈ (s.threads v).pending := by
          rw [Thread.pending_eq (by simp [hpc]), hlist]
          exact List.mem_cons_self
        exact htracks.not_protects hinv hmem hgc ht

/-- The invariants hold in every run below the bound, and no node was released early. -/
theorem Run.invariants (hr : Run (fun s => s.globalEpoch.toNat < 2 ^ 63) log s) :
    s.Inv ∧ Tracks log s ∧ NeverEarly log := by
  induction hr with
  | init =>
    refine ⟨inv_init, tracks_init, fun l₀ _ _ _ _ _ _ _ hlog => ?_⟩
    cases l₀ <;> cases hlog
  | step _ ha hs hp ih =>
    obtain ⟨hinv, htracks, hearly⟩ := ih
    exact ⟨hinv.step hs hp, htracks.step hinv ha hs, hearly.step hinv htracks hs⟩

/-- No node is released too early: in every run whose global epoch fits into the 63 bits of a
status, a node that is retired while a thread is in its critical section is not released before the
thread has left it. -/
theorem run_neverEarly (hr : Run (fun s => s.globalEpoch.toNat < 2 ^ 63) log s) : NeverEarly log :=
  hr.invariants.2.2

/-- Some steps of one thread, whose exchanges do not fail spuriously. -/
def threadSteps (t : T) (n : ℕ) : List (EpochAction T N) := List.replicate n (.thread t false)

/-- The thread `true` enters, `false` enters and retires the node, both leave, the maintainer
advances, and `false` releases the node at the end of its next critical section. -/
def retireAndRelease : List (EpochAction Bool Unit) :=
  .enterEpoch true :: threadSteps true 3 ++ .enterEpoch false :: threadSteps false 3 ++
    .retire false () :: threadSteps false 1 ++ .exitEpoch true :: threadSteps true 4 ++
    .exitEpoch false :: threadSteps false 4 ++ List.replicate 18 .advanceEpoch ++
    .enterEpoch false :: threadSteps false 3 ++ .exitEpoch false :: threadSteps false 4

/-- In this run the node is released, after both threads have left. -/
theorem run_neverEarly_bool :
    ∃ log, ∃ s : EpochBasedReclamation Bool Unit,
      run (fun s => s.globalEpoch.toNat < 2 ^ 63) {} [] retireAndRelease = some (s, log) ∧
        .released false () ∈ log ∧ NeverEarly log := by
  have hlog : ((run (fun s => s.globalEpoch.toNat < 2 ^ 63) {} [] retireAndRelease).any fun p =>
      decide (EpochEvent.released false () ∈ p.2)) = true := by decide +kernel
  obtain ⟨⟨s, log⟩, hrun, hmem⟩ := (Option.any_eq_true _ _).1 hlog
  exact ⟨log, s, hrun, of_decide_eq_true hmem, run_neverEarly (Run.init.run hrun)⟩

/-! ## The epoch overflows -/

/-- The steps of the maintainer. -/
def Advances : EpochBasedReclamation T N → EpochBasedReclamation T N → Prop :=
  Relation.ReflTransGen fun s s' => s.advanceEpoch = some s'

/-- A run goes on with steps of the maintainer. -/
theorem Run.advances (hr : Run (fun _ => True) log s) (h : Advances s s') :
    Run (fun _ => True) log s' := by
  induction h with
  | refl => exact hr
  | @tail s s' _ hadvance ih =>
    have hstep : s.step .advanceEpoch = some (s', none) := by
      rw [EpochBasedReclamation.step, hadvance]
      rfl
    have hr := Run.step (a := .advanceEpoch) ih trivial hstep trivial
    rw [Option.toList_none, List.append_nil] at hr
    exact hr

/-- An advance without threads. -/
theorem advances_idle {g gc : UInt64} (hg : g ≠ 0) :
    Advances (T := T) (N := N) { globalEpoch := g, gcEpoch := gc }
      { globalEpoch := g + 1, gcEpoch := g - 1 } := by
  have hscan := Relation.ReflTransGen.refl.tail
    (r := fun s s' : EpochBasedReclamation T N => s.advanceEpoch = some s')
    (a := { globalEpoch := g, gcEpoch := gc }) rfl
  exact (((hscan.tail rfl).tail rfl).tail rfl).tail (if_neg hg)

/-- The epochs after `k + 1` advances without threads. -/
theorem advances_init (k : ℕ) (hk : k + 2 < 2 ^ 64) :
    Advances (T := T) (N := N) {}
      { globalEpoch := UInt64.ofNat (k + 2), gcEpoch := UInt64.ofNat k } := by
  induction k with
  | zero => exact advances_idle (by decide)
  | succ k ih =>
    have hne : UInt64.ofNat (k + 2) ≠ 0 := by
      intro he
      have := congrArg UInt64.toNat he
      rw [UInt64.toNat_ofNat', UInt64.toNat_zero] at this
      omega
    have hr := (ih (by omega)).trans (advances_idle hne)
    have hsucc : UInt64.ofNat (k + 2) + 1 = UInt64.ofNat (k + 1 + 2) := by
      rw [← UInt64.toNat_inj, UInt64.toNat_add, UInt64.toNat_ofNat', UInt64.toNat_ofNat',
        UInt64.toNat_one]
      omega
    have hpred : UInt64.ofNat (k + 2) - 1 = UInt64.ofNat (k + 1) := by
      rw [← UInt64.toNat_inj, UInt64.toNat_sub, UInt64.toNat_ofNat', UInt64.toNat_ofNat',
        UInt64.toNat_one]
      omega
    rw [hsucc, hpred] at hr
    exact hr

/-- The thread `true` enters in the last epoch of 63 bits. After the next advance `false` enters in
epoch 0, retires the node with the stamp 0 and releases it at once. -/
def enterAtWrap : List (EpochAction Bool Unit) :=
  .enterEpoch true :: threadSteps true 3 ++ List.replicate 7 .advanceEpoch ++
    .enterEpoch false :: threadSteps false 3 ++ .retire false () :: threadSteps false 1 ++
    .exitEpoch false :: threadSteps false 4

/-- Past the wrap-around a node is released while a thread is in its critical section. -/
theorem not_neverEarly_wrapped :
    ∃ log, ∃ s : EpochBasedReclamation Bool Unit, Run (fun _ => True) log s ∧ ¬NeverEarly log := by
  have hlog : ((run (fun _ => True)
      { globalEpoch := UInt64.ofNat (2 ^ 63 - 3 + 2), gcEpoch := UInt64.ofNat (2 ^ 63 - 3) } []
      enterAtWrap).any fun p => decide (p.2 =
        [.entered true, .entered false, .retired false (), .exited false, .released false ()])) =
      true := by decide +kernel
  obtain ⟨⟨s, log⟩, hrun, heq⟩ := (Option.any_eq_true _ _).1 hlog
  have hr := (Run.init.advances (advances_init (2 ^ 63 - 3) (by decide))).run hrun
  refine ⟨log, s, hr, fun h => ?_⟩
  have hexit := h [] [.entered false] [.exited false] [] true false false ()
    (of_decide_eq_true heq)
  revert hexit
  decide

end RockCoro.EpochBasedReclamation
