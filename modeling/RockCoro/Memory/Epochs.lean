import RockCoro.Memory.EpochBasedReclamation

/-!
# Epochs

The epoch that the maintainer publishes is below the epoch of every thread in its critical section.
A thread that is about to enter may still write an older epoch than the one the maintainer scans
for; what excludes it is that the maintainer has then written to its status, so that its exchange
fails. `Above` says this of one thread, `Inv` of a state, as long as `global_epoch_` fits into the
63 bits that a status has for its epoch.
-/

namespace RockCoro

/-! ## Epoch statuses -/

/-- The epoch index of a status. -/
def epochOf (epochStatus : UInt64) : ℕ := (getEpochStatus epochStatus false).toNat

/-- The epoch is in the lower 63 bits. -/
theorem epochOf_eq (e : UInt64) : epochOf e = e.toNat % 2 ^ 63 := by
  rw [epochOf, getEpochStatus, if_neg Bool.false_ne_true, UInt64.toNat_and]
  exact Nat.and_two_pow_sub_one_eq_mod e.toNat 63

/-- An epoch below `2 ^ 63` is its own status. -/
theorem epochOf_of_lt {e : UInt64} (h : e.toNat < 2 ^ 63) : epochOf e = e.toNat := by
  rw [epochOf_eq, Nat.mod_eq_of_lt h]

/-- An epoch has 63 bits. -/
theorem epochOf_lt (e : UInt64) : epochOf e < 2 ^ 63 := by
  rw [epochOf_eq]
  exact Nat.mod_lt _ (by decide)

/-- The highest bit says that the thread is active. -/
theorem isEpochStatusActive_iff (e : UInt64) :
    isEpochStatusActive e = true ↔ 2 ^ 63 ≤ e.toNat := by
  have hand : (e &&& 0x8000000000000000).toNat = (e.toNat.testBit 63).toNat * 2 ^ 63 := by
    rw [UInt64.toNat_and]
    exact Nat.and_two_pow e.toNat 63
  have hlt := e.toNat_lt
  rw [isEpochStatusActive, bne_iff_ne, ne_eq, ← UInt64.toNat_inj, hand, UInt64.toNat_zero,
    Nat.toNat_testBit]
  omega

/-- Without the highest bit the thread is inactive. -/
theorem isEpochStatusActive_eq_false (e : UInt64) :
    isEpochStatusActive e = false ↔ e.toNat < 2 ^ 63 := by
  rw [← Bool.not_eq_true, isEpochStatusActive_iff, Nat.not_le]

/-- The active status of an epoch has the highest bit more. -/
theorem getEpochStatus_true_toNat {e : UInt64} (h : e.toNat < 2 ^ 63) :
    (getEpochStatus e true).toNat = e.toNat + 2 ^ 63 := by
  rw [getEpochStatus, if_pos rfl, UInt64.toNat_or, Nat.or_comm, Nat.add_comm]
  exact (Nat.two_pow_add_eq_or_of_lt h 1).symm

/-- The active status of an epoch has that epoch. -/
theorem epochOf_getEpochStatus_true {e : UInt64} (h : e.toNat < 2 ^ 63) :
    epochOf (getEpochStatus e true) = e.toNat := by
  rw [epochOf_eq, getEpochStatus_true_toNat h]
  omega

/-- The active status of an epoch is active. -/
theorem isEpochStatusActive_getEpochStatus_true {e : UInt64} (h : e.toNat < 2 ^ 63) :
    isEpochStatusActive (getEpochStatus e true) = true := by
  rw [isEpochStatusActive_iff, getEpochStatus_true_toNat h]
  omega

/-- The inactive status is inactive, whatever it is made from. -/
theorem isEpochStatusActive_getEpochStatus_false (e : UInt64) :
    isEpochStatusActive (getEpochStatus e false) = false :=
  (isEpochStatusActive_eq_false _).2 (epochOf_lt e)

/-- The inactive status keeps the epoch. -/
theorem epochOf_getEpochStatus_false (e : UInt64) : epochOf (getEpochStatus e false) = epochOf e :=
  epochOf_of_lt (epochOf_lt e)

/-- Taking the epoch of an inactive status changes nothing. -/
theorem getEpochStatus_false_of_inactive {e : UInt64} (h : isEpochStatusActive e = false) :
    getEpochStatus e false = e :=
  UInt64.toNat_inj.1 (epochOf_of_lt ((isEpochStatusActive_eq_false e).1 h))

/-- The first status has epoch zero. -/
theorem epochOf_zero : epochOf 0 = 0 := by decide

/-- The first status is inactive. -/
theorem isEpochStatusActive_zero : isEpochStatusActive 0 = false := by decide

namespace EpochBasedReclamation

variable {T N : Type} {s s' : EpochBasedReclamation T N} {log : List (EpochEvent T N)}

/-! ## The epochs of the threads -/

/-- The thread is in an epoch from `b` on, or it is in none and will not enter an older one by the
exchange that it is about to do. -/
def Above (b : ℕ) (x : Thread N) : Prop :=
  b ≤ epochOf x.epochStatus ∨
    isEpochStatusActive x.epochStatus = false ∧
      ∀ old new, x.pc = .enterCas old new → b ≤ epochOf new

/-- What a thread knows in a place. -/
def PcOk (s : EpochBasedReclamation T N) (x : Thread N) : ThreadPc N → Prop
  | .enterGlobal old =>
    isEpochStatusActive x.epochStatus = false ∧ epochOf old ≤ s.globalEpoch.toNat
  | .enterCas old new =>
    isEpochStatusActive x.epochStatus = false ∧ epochOf old ≤ epochOf new ∧
      epochOf new ≤ s.globalEpoch.toNat ∧ isEpochStatusActive new = true
  | .exitCas old => x.epochStatus = old ∧ isEpochStatusActive old = true
  | .reclaim cur | .popFront cur => cur.toNat ≤ s.gcEpoch.toNat
  | _ => True

/-- The scan has brought the threads outside of `rest` above `min`. -/
structure Swept (s : EpochBasedReclamation T N) (min cur : UInt64) (rest : List T) : Prop where
  gc_lt : s.gcEpoch.toNat < min.toNat
  lt_cur : min.toNat < cur.toNat
  cur_eq : cur = s.globalEpoch
  above : ∀ t, t ∉ rest → Above min.toNat (s.threads t)

/-- What the maintainer knows in a place. -/
def MaintainerOk (s : EpochBasedReclamation T N) : MaintainerPc T → Prop
  | .load => True
  | .fetchAdd min => min = s.globalEpoch
  | .loadCur min => s.gcEpoch.toNat < min.toNat ∧ min.toNat < s.globalEpoch.toNat
  | .loadCount min cur =>
    s.gcEpoch.toNat < min.toNat ∧ min.toNat < cur.toNat ∧ cur = s.globalEpoch
  | .scan min cur rest => s.Swept min cur rest
  | .scanCas min cur i old rest =>
    s.Swept min cur (i :: rest) ∧ isEpochStatusActive old = false ∧
      ((s.threads i).epochStatus = old ∨ s.gcEpoch.toNat < epochOf (s.threads i).epochStatus)

/-- The published epoch is behind, and everyone knows what `PcOk` and `MaintainerOk` say. -/
structure Inv (s : EpochBasedReclamation T N) : Prop where
  gc_lt : s.gcEpoch.toNat < s.globalEpoch.toNat
  global_lt : s.globalEpoch.toNat < 2 ^ 63
  epoch_le : ∀ t, epochOf (s.threads t).epochStatus ≤ s.globalEpoch.toNat
  pc_ok : ∀ t, s.PcOk (s.threads t) (s.threads t).pc
  unregistered : ∀ t, t ∉ s.registered →
    (s.threads t).pc = .idle ∧ isEpochStatusActive (s.threads t).epochStatus = false
  above : ∀ t, Above (s.gcEpoch.toNat + 1) (s.threads t)
  maintainer_ok : s.MaintainerOk s.maintainer

/-- Above an epoch is above the earlier ones. -/
theorem Above.mono {b b' : ℕ} {x : Thread N} (h : Above b' x) (hb : b ≤ b') : Above b x := by
  rcases h with h | ⟨h, hpc⟩
  · exact .inl (hb.trans h)
  · exact .inr ⟨h, fun old new he => hb.trans (hpc old new he)⟩

/-- An active thread that is above an epoch is in it or a later one. -/
theorem Above.le_of_active {b : ℕ} {x : Thread N} (h : Above b x)
    (ha : isEpochStatusActive x.epochStatus = true) : b ≤ epochOf x.epochStatus := by
  rcases h with h | ⟨h, -⟩
  · exact h
  · rw [ha] at h
    cases h

/-- A thread in its critical section is in an epoch above the published one. -/
theorem Inv.gc_lt_epochOf {t : T} (h : s.Inv)
    (ha : isEpochStatusActive (s.threads t).epochStatus = true) :
    s.gcEpoch.toNat < epochOf (s.threads t).epochStatus :=
  (h.above t).le_of_active ha

/-- What a thread has read of `gc_epoch_` is not ahead of it. -/
theorem Inv.curGcEpoch_le {t : T} {cur : UInt64} (h : s.Inv)
    (hpc : (s.threads t).pc = .reclaim cur) :
    cur.toNat ≤ s.gcEpoch.toNat := by
  have hok := h.pc_ok t
  rw [hpc] at hok
  exact hok

/-- The invariant holds at the start, where no epoch is published. -/
theorem inv_init : ({} : EpochBasedReclamation T N).Inv where
  gc_lt := Nat.zero_lt_one
  global_lt := Nat.one_lt_two_pow (by decide)
  epoch_le _ := epochOf_zero.le.trans (Nat.zero_le _)
  pc_ok _ := trivial
  unregistered _ _ := ⟨rfl, isEpochStatusActive_zero⟩
  above _ := .inr ⟨isEpochStatusActive_zero, fun _ _ he => nomatch he⟩
  maintainer_ok := trivial

/-! ## The steps of the maintainer -/

/-- What the maintainer knows depends on the epochs and the threads only. -/
theorem MaintainerOk.congr {m : MaintainerPc T} (hm : s.MaintainerOk m)
    (hglobal : s'.globalEpoch = s.globalEpoch) (hgc : s'.gcEpoch = s.gcEpoch)
    (hthreads : s'.threads = s.threads) : s'.MaintainerOk m := by
  cases s
  cases s'
  cases hglobal
  cases hgc
  cases hthreads
  cases m with
  | scan min cur rest => exact ⟨hm.gc_lt, hm.lt_cur, hm.cur_eq, hm.above⟩
  | scanCas min cur i old rest =>
    exact ⟨⟨hm.1.gc_lt, hm.1.lt_cur, hm.1.cur_eq, hm.1.above⟩, hm.2⟩
  | _ => exact hm

/-- Without an exchange the maintainer changes its place only. -/
theorem Inv.setMaintainer {m : MaintainerPc T} (h : s.Inv) (hm : s.MaintainerOk m) :
    Inv { s with maintainer := m } :=
  ⟨h.gc_lt, h.global_lt, h.epoch_le, h.pc_ok, h.unregistered, h.above, hm.congr rfl rfl rfl⟩

/-- Registration keeps the invariant. -/
theorem Inv.register {registered : List T} (h : s.Inv) (hsub : s.registered ⊆ registered) :
    Inv { s with registered := registered } := by
  refine ⟨h.gc_lt, h.global_lt, h.epoch_le, h.pc_ok, fun u hu => ?_, h.above,
    h.maintainer_ok.congr rfl rfl rfl⟩
  exact h.unregistered u fun hmem => hu (hsub hmem)

/-- `global_epoch_.fetch_add(1)`. -/
theorem Inv.fetchAdd {min : UInt64} (h : s.Inv) (hm : s.maintainer = .fetchAdd min)
    (hlt : (s.globalEpoch + 1).toNat < 2 ^ 63) :
    Inv { s with globalEpoch := s.globalEpoch + 1, maintainer := .loadCur min } := by
  have hmin : s.MaintainerOk (.fetchAdd min) := hm ▸ h.maintainer_ok
  have hsucc : (s.globalEpoch + 1).toNat = s.globalEpoch.toNat + 1 := by
    have := h.global_lt
    rw [UInt64.toNat_add, UInt64.toNat_one]
    omega
  have hle : s.globalEpoch.toNat ≤ (s.globalEpoch + 1).toNat := by omega
  refine ⟨h.gc_lt.trans_le hle, hlt, fun t => (h.epoch_le t).trans hle, fun t => ?_,
    h.unregistered, h.above, ?_⟩
  · have hpc := h.pc_ok t
    change PcOk _ (s.threads t) (s.threads t).pc
    cases hc : (s.threads t).pc with
    | enterGlobal old =>
      rw [hc] at hpc
      exact ⟨hpc.1, hpc.2.trans hle⟩
    | enterCas old new =>
      rw [hc] at hpc
      exact ⟨hpc.1, hpc.2.1, hpc.2.2.1.trans hle, hpc.2.2.2⟩
    | _ =>
      rw [hc] at hpc
      exact hpc
  · rw [show min = s.globalEpoch from hmin]
    exact ⟨h.gc_lt, hsucc ▸ Nat.lt_succ_self _⟩

/-- A thread that registers after the count was loaded is in no epoch and on its way to none. -/
theorem Inv.sweptRegistered {min cur : UInt64} (h : s.Inv)
    (hm : s.MaintainerOk (.loadCount min cur)) : s.Swept min cur s.registered.reverse := by
  obtain ⟨hgc, hlt, hcur⟩ := hm
  refine ⟨hgc, hlt, hcur, fun t ht => .inr ?_⟩
  obtain ⟨hidle, hinactive⟩ := h.unregistered t (fun hreg => ht (List.mem_reverse.2 hreg))
  exact ⟨hinactive, fun _ _ he => nomatch hidle.symm.trans he⟩

/-- The exchange of the scan fails: the thread has entered an epoch above the published one. -/
theorem MaintainerOk.scanMin {min cur old : UInt64} {i : T} {rest : List T}
    (hm : s.MaintainerOk (.scanCas min cur i old rest)) (hold : (s.threads i).epochStatus ≠ old) :
    s.MaintainerOk (.scan (if min > getEpochStatus (s.threads i).epochStatus false then
      getEpochStatus (s.threads i).epochStatus false else min) cur rest) := by
  obtain ⟨hswept, -, hi⟩ := hm
  have hgc : s.gcEpoch.toNat < epochOf (s.threads i).epochStatus := hi.resolve_left hold
  split
  · rename_i hlt
    have hlt : epochOf (s.threads i).epochStatus < min.toNat := UInt64.lt_iff_toNat_lt.1 hlt
    refine ⟨hgc, hlt.trans hswept.lt_cur, hswept.cur_eq, fun u hu => ?_⟩
    rcases eq_or_ne u i with rfl | hne
    · exact .inl (Nat.le_refl _)
    · exact (hswept.above u (List.not_mem_cons_of_ne_of_not_mem hne hu)).mono hlt.le
  · rename_i hle
    have hle : min.toNat ≤ epochOf (s.threads i).epochStatus :=
      Nat.le_of_not_lt fun hlt => hle (UInt64.lt_iff_toNat_lt.2 hlt)
    refine ⟨hswept.gc_lt, hswept.lt_cur, hswept.cur_eq, fun u hu => ?_⟩
    rcases eq_or_ne u i with rfl | hne
    · exact .inl hle
    · exact hswept.above u (List.not_mem_cons_of_ne_of_not_mem hne hu)

/-- `gc_epoch_.store(min_epoch - 1)`. -/
theorem Inv.publish {min cur : UInt64} (h : s.Inv) (hm : s.Swept min cur []) :
    Inv { s with gcEpoch := min - 1, maintainer := .load } := by
  have hgc := hm.gc_lt
  have hlt := hm.lt_cur
  rw [hm.cur_eq] at hlt
  have hpred : (min - 1).toNat = min.toNat - 1 := by
    refine UInt64.toNat_sub_of_le _ _ (UInt64.le_iff_toNat_le.2 ?_)
    rw [UInt64.toNat_one]
    omega
  refine ⟨?_, h.global_lt, h.epoch_le, fun t => ?_, h.unregistered, fun t => ?_, trivial⟩
  · change (min - 1).toNat < s.globalEpoch.toNat
    omega
  · have hpc := h.pc_ok t
    change PcOk _ (s.threads t) (s.threads t).pc
    cases hc : (s.threads t).pc with
    | reclaim cur | popFront cur =>
      rw [hc] at hpc
      have hle : cur.toNat ≤ s.gcEpoch.toNat := hpc
      change cur.toNat ≤ (min - 1).toNat
      omega
    | _ =>
      rw [hc] at hpc
      exact hpc
  · refine (hm.above t List.not_mem_nil).mono ?_
    change (min - 1).toNat + 1 ≤ min.toNat
    omega

/-! ## The steps of the threads -/

variable [DecidableEq T] {t : T} {x : Thread N} {ptr : N}

/-- The thread is what it was set to. -/
theorem setThread_self : (s.setThread t x).threads t = x := Function.update_self ..

/-- The other threads are as before. -/
theorem setThread_of_ne {u : T} (hu : u ≠ t) : (s.setThread t x).threads u = s.threads u :=
  Function.update_of_ne hu ..

/-- The thread `t` moves, without an effect on the scan. -/
theorem MaintainerOk.setThread {m : MaintainerPc T} (hm : s.MaintainerOk m)
    (habove : ∀ b ≤ s.globalEpoch.toNat, Above b (s.threads t) → Above b x)
    (hstatus : x.epochStatus = (s.threads t).epochStatus ∨
      s.gcEpoch.toNat < epochOf x.epochStatus) : (s.setThread t x).MaintainerOk m := by
  have hswept : ∀ min cur rest, s.Swept min cur rest → (s.setThread t x).Swept min cur rest := by
    intro min cur rest hs
    refine ⟨hs.gc_lt, hs.lt_cur, hs.cur_eq, fun u hu => ?_⟩
    rcases eq_or_ne u t with rfl | hne
    · rw [setThread_self]
      exact habove _ (hs.cur_eq ▸ hs.lt_cur.le) (hs.above u hu)
    · rw [setThread_of_ne hne]
      exact hs.above u hu
  cases m with
  | scan min cur rest => exact hswept _ _ _ hm
  | scanCas min cur i old rest =>
    obtain ⟨hs, hold, hi⟩ := hm
    refine ⟨hswept _ _ _ hs, hold, ?_⟩
    rcases eq_or_ne i t with rfl | hne
    · rw [setThread_self]
      rcases hstatus with he | hgc
      · rw [he]
        exact hi
      · exact .inr hgc
    · rw [setThread_of_ne hne]
      exact hi
  | _ => exact hm

/-- The thread `t` moves. -/
theorem Inv.setThread (h : s.Inv)
    (hreg : t ∈ s.registered ∨ x.pc = .idle ∧ isEpochStatusActive x.epochStatus = false)
    (hle : epochOf x.epochStatus ≤ s.globalEpoch.toNat) (hpc : s.PcOk x x.pc)
    (habove : ∀ b ≤ s.globalEpoch.toNat, Above b (s.threads t) → Above b x)
    (hstatus : x.epochStatus = (s.threads t).epochStatus ∨
      s.gcEpoch.toNat < epochOf x.epochStatus) : (s.setThread t x).Inv := by
  refine ⟨h.gc_lt, h.global_lt, fun u => ?_, fun u => ?_, fun u hu => ?_, fun u => ?_,
    h.maintainer_ok.setThread habove hstatus⟩
  · rcases eq_or_ne u t with rfl | hne
    · rw [setThread_self]
      exact hle
    · rw [setThread_of_ne hne]
      exact h.epoch_le u
  · rcases eq_or_ne u t with rfl | hne
    · rw [setThread_self]
      exact hpc
    · rw [setThread_of_ne hne]
      exact h.pc_ok u
  · rcases eq_or_ne u t with rfl | hne
    · rw [setThread_self]
      exact hreg.resolve_left hu
    · rw [setThread_of_ne hne]
      exact h.unregistered u hu
  · rcases eq_or_ne u t with rfl | hne
    · rw [setThread_self]
      exact habove _ h.gc_lt (h.above u)
    · rw [setThread_of_ne hne]
      exact h.above u

/-- The thread `t` gets to another place, or changes its retire list. -/
theorem Inv.keepStatus (h : s.Inv) (hreg : t ∈ s.registered)
    (he : x.epochStatus = (s.threads t).epochStatus) (hpc : s.PcOk x x.pc)
    (hcas : ∀ old new, x.pc ≠ .enterCas old new) : (s.setThread t x).Inv := by
  refine h.setThread (.inl hreg) (he ▸ h.epoch_le t) hpc (fun b _ hb => ?_) (.inl he)
  rcases hb with hb | ⟨hb, -⟩
  · exact .inl (he ▸ hb)
  · exact .inr ⟨he ▸ hb, fun old new hx => absurd hx (hcas old new)⟩

/-- A thread in a call is registered. -/
theorem Inv.mem_registered (h : s.Inv) (hpc : (s.threads t).pc ≠ .idle) : t ∈ s.registered := by
  by_contra hreg
  exact hpc (h.unregistered t hreg).1

/-- A call of `enter_epoch` or `exit_epoch` keeps the invariant. -/
theorem Inv.call {pc : ThreadPc N} (h : s.Inv) (hs : s.call t pc = some s')
    (hpc : ∀ s x, PcOk (T := T) s x pc) (hcas : ∀ old new, pc ≠ .enterCas old new) : s'.Inv := by
  obtain ⟨-, registered, rfl, hsub, hreg⟩ := call_eq hs
  exact (h.register hsub).keepStatus hreg rfl (hpc _ _) hcas

/-- A call of `retire` keeps the invariant. -/
theorem Inv.callRetire {ptr : N} (h : s.Inv) (hs : s.callRetire t ptr = some s') : s'.Inv := by
  obtain ⟨-, hreg, -, rfl⟩ := callRetire_eq hs
  exact h.keepStatus hreg rfl trivial fun _ _ he => nomatch he

/-- The exchange of `enter_epoch`: the thread may be behind the epoch of the scan only if its status
is not the one it has read. -/
theorem Inv.enter {old new : UInt64} (h : s.Inv) (hreg : t ∈ s.registered)
    (hpc : (s.threads t).pc = .enterCas old new) (hold : (s.threads t).epochStatus = old) :
    (s.setThread t { s.threads t with epochStatus := new, pc := .idle }).Inv := by
  obtain ⟨-, hmono, hnew, -⟩ : s.PcOk (s.threads t) (.enterCas old new) := hpc ▸ h.pc_ok t
  have hnewAbove : ∀ b, Above b (s.threads t) → b ≤ epochOf new := by
    intro b hb
    rcases hb with hb | ⟨-, hb⟩
    · exact (hold ▸ hb : b ≤ epochOf old).trans hmono
    · exact hb old new hpc
  refine h.setThread (.inl hreg) hnew trivial
    (fun b _ hb => .inl (hnewAbove b hb)) (.inr ?_)
  exact hnewAbove _ (h.above t)

/-- The exchange of `exit_epoch`. -/
theorem Inv.exit {old : UInt64} (h : s.Inv) (hreg : t ∈ s.registered)
    (hpc : (s.threads t).pc = .exitCas old) :
    (s.setThread t
      { s.threads t with epochStatus := getEpochStatus old false, pc := .exitGc }).Inv := by
  obtain ⟨hold, hactive⟩ : s.PcOk (s.threads t) (.exitCas old) := hpc ▸ h.pc_ok t
  have hepoch : epochOf (getEpochStatus old false) = epochOf (s.threads t).epochStatus := by
    rw [hold, epochOf_getEpochStatus_false]
  rw [← hold] at hactive
  refine h.setThread (.inl hreg) ?_ trivial (fun b _ hb => .inl ?_)
    (.inr ?_)
  · exact hepoch ▸ h.epoch_le t
  · exact hepoch ▸ hb.le_of_active hactive
  · exact hepoch ▸ h.gc_lt_epochOf hactive

/-- Reading `global_epoch_` in `enter_epoch` keeps the invariant. -/
theorem Inv.enterGlobal {old : UInt64} (h : s.Inv) (hreg : t ∈ s.registered)
    (hpc : (s.threads t).pc = .enterGlobal old) :
    (s.setPc t (.enterCas old (getEpochStatus s.globalEpoch true))).Inv := by
  obtain ⟨hinactive, hold⟩ : s.PcOk (s.threads t) (.enterGlobal old) := hpc ▸ h.pc_ok t
  have hnew := epochOf_getEpochStatus_true h.global_lt
  refine h.setThread (.inl hreg) (h.epoch_le t) ?_ (fun b hle hb => ?_)
    (.inl rfl)
  · exact ⟨hinactive, hnew ▸ hold, hnew.le, isEpochStatusActive_getEpochStatus_true h.global_lt⟩
  · refine .inr ⟨hinactive, ?_⟩
    rintro _ _ ⟨⟩
    exact hnew ▸ hle

/-- A step of a thread keeps the invariant. -/
theorem Inv.threadStep {spurious : Bool} {e : Option (EpochEvent T N)} (h : s.Inv)
    (hs : s.threadStep t spurious = some (s', e)) : s'.Inv := by
  have hok := h.pc_ok t
  have hreg : t ∈ s.registered := by
    refine h.mem_registered fun hidle => ?_
    simp only [EpochBasedReclamation.threadStep, hidle] at hs
    cases hs
  cases hpc : (s.threads t).pc with
  | idle =>
    simp only [EpochBasedReclamation.threadStep, hpc] at hs
    cases hs
  | enterLoad =>
    simp only [EpochBasedReclamation.threadStep, hpc] at hs
    split at hs
    · cases hs
      exact h.keepStatus hreg rfl trivial fun _ _ he => nomatch he
    · rename_i hinactive
      cases hs
      refine h.keepStatus hreg rfl ⟨?_, h.epoch_le t⟩ fun _ _ he => nomatch he
      exact Bool.not_eq_true _ ▸ hinactive
  | enterGlobal old =>
    simp only [EpochBasedReclamation.threadStep, hpc, Option.some.injEq, Prod.mk.injEq] at hs
    exact hs.1 ▸ h.enterGlobal hreg hpc
  | enterCas old new =>
    simp only [EpochBasedReclamation.threadStep, hpc] at hs
    split at hs
    · cases hs
      exact h.enter hreg hpc (‹_ ∧ _›).1
    · cases hs
      rw [hpc] at hok
      exact h.keepStatus hreg rfl ⟨hok.1, h.epoch_le t⟩
        fun _ _ he => nomatch he
  | exitLoad =>
    simp only [EpochBasedReclamation.threadStep, hpc] at hs
    split at hs
    · cases hs
      exact h.keepStatus hreg rfl ⟨rfl, ‹_›⟩ fun _ _ he => nomatch he
    · cases hs
      exact h.keepStatus hreg rfl trivial fun _ _ he => nomatch he
  | exitCas old =>
    simp only [EpochBasedReclamation.threadStep, hpc] at hs
    split at hs
    · cases hs
      exact h.exit hreg hpc
    · cases hs
      rw [hpc] at hok
      exact h.keepStatus hreg rfl ⟨rfl, hok.1 ▸ hok.2⟩
        fun _ _ he => nomatch he
  | exitGc =>
    simp only [EpochBasedReclamation.threadStep, hpc, Option.some.injEq, Prod.mk.injEq] at hs
    rw [← hs.1]
    exact h.keepStatus hreg rfl (Nat.le_refl _)
      fun _ _ he => nomatch he
  | reclaim cur =>
    rw [hpc] at hok
    simp only [EpochBasedReclamation.threadStep, hpc] at hs
    split at hs
    · cases hs
      exact h.keepStatus hreg rfl trivial fun _ _ he => nomatch he
    · split at hs
      · cases hs
        exact h.keepStatus hreg rfl hok fun _ _ he => nomatch he
      · cases hs
        exact h.keepStatus hreg rfl trivial fun _ _ he => nomatch he
  | popFront cur =>
    rw [hpc] at hok
    simp only [EpochBasedReclamation.threadStep, hpc, Option.some.injEq, Prod.mk.injEq] at hs
    rw [← hs.1]
    exact h.keepStatus hreg rfl hok fun _ _ he => nomatch he
  | retiring ptr =>
    simp only [EpochBasedReclamation.threadStep, hpc, Option.some.injEq, Prod.mk.injEq] at hs
    rw [← hs.1]
    exact h.keepStatus hreg rfl trivial fun _ _ he => nomatch he

/-! ## The exchange of the maintainer -/

/-- The exchange of the scan: the status was read as `old`, which is inactive. -/
theorem Inv.scanExchange {min cur old : UInt64} {i : T} {rest : List T} (h : s.Inv)
    (hm : s.MaintainerOk (.scanCas min cur i old rest)) (hold : (s.threads i).epochStatus = old) :
    Inv { s.setThread i { s.threads i with epochStatus := cur } with
      maintainer := .scan min cur rest } := by
  obtain ⟨hswept, hinactive, -⟩ := hm
  rw [← hold] at hinactive
  have hcurLt : cur.toNat < 2 ^ 63 := hswept.cur_eq ▸ h.global_lt
  have hepoch : epochOf cur = s.globalEpoch.toNat := by
    rw [epochOf_of_lt hcurLt, hswept.cur_eq]
  have hcurInactive := (isEpochStatusActive_eq_false cur).2 hcurLt
  have hpc := h.pc_ok i
  have h₁ : (s.setThread i { s.threads i with epochStatus := cur }).Inv := by
    refine h.setThread ?_ hepoch.le ?_ (fun b hb _ => .inl (hepoch ▸ hb)) (.inr (hepoch ▸ h.gc_lt))
    · by_cases hreg : i ∈ s.registered
      · exact .inl hreg
      · exact .inr ⟨(h.unregistered i hreg).1, hcurInactive⟩
    · change PcOk s _ (s.threads i).pc
      cases hc : (s.threads i).pc with
      | enterGlobal old =>
        rw [hc] at hpc
        exact ⟨hcurInactive, hpc.2⟩
      | enterCas old new =>
        rw [hc] at hpc
        exact ⟨hcurInactive, hpc.2⟩
      | exitCas old =>
        rw [hc] at hpc
        exact absurd (hpc.1 ▸ hpc.2) (Bool.eq_false_iff.1 hinactive)
      | _ =>
        rw [hc] at hpc
        exact hpc
  refine h₁.setMaintainer ⟨hswept.gc_lt, hswept.lt_cur, hswept.cur_eq, fun u hu => ?_⟩
  rcases eq_or_ne u i with rfl | hne
  · rw [setThread_self]
    refine .inl ?_
    rw [hepoch, ← hswept.cur_eq]
    exact hswept.lt_cur.le
  · rw [setThread_of_ne hne]
    exact hswept.above u (List.not_mem_cons_of_ne_of_not_mem hne hu)

/-- A step of the maintainer keeps the invariant, as long as the new epoch fits. -/
theorem Inv.advanceEpoch (h : s.Inv) (hs : s.advanceEpoch = some s')
    (hlt : s'.globalEpoch.toNat < 2 ^ 63) : s'.Inv := by
  have hm := h.maintainer_ok
  cases hmaintainer : s.maintainer with
  | load =>
    simp only [EpochBasedReclamation.advanceEpoch, hmaintainer, Option.some.injEq] at hs
    subst hs
    exact h.setMaintainer rfl
  | fetchAdd min =>
    simp only [EpochBasedReclamation.advanceEpoch, hmaintainer, Option.some.injEq] at hs
    subst hs
    exact h.fetchAdd hmaintainer hlt
  | loadCur min =>
    simp only [EpochBasedReclamation.advanceEpoch, hmaintainer, Option.some.injEq] at hs
    subst hs
    rw [hmaintainer] at hm
    exact h.setMaintainer ⟨hm.1, hm.2, rfl⟩
  | loadCount min cur =>
    simp only [EpochBasedReclamation.advanceEpoch, hmaintainer, Option.some.injEq] at hs
    subst hs
    rw [hmaintainer] at hm
    exact h.setMaintainer (h.sweptRegistered hm)
  | scan min cur rest =>
    rw [hmaintainer] at hm
    cases rest with
    | nil =>
      simp only [EpochBasedReclamation.advanceEpoch, hmaintainer] at hs
      split at hs
      · cases hs
      · cases hs
        exact h.publish hm
    | cons i rest =>
      simp only [EpochBasedReclamation.advanceEpoch, hmaintainer, Option.some.injEq] at hs
      subst hs
      refine h.setMaintainer ⟨hm, isEpochStatusActive_getEpochStatus_false _, ?_⟩
      cases hactive : isEpochStatusActive (s.threads i).epochStatus with
      | true => exact .inr (h.gc_lt_epochOf hactive)
      | false => exact .inl (getEpochStatus_false_of_inactive hactive).symm
  | scanCas min cur i old rest =>
    rw [hmaintainer] at hm
    simp only [EpochBasedReclamation.advanceEpoch, hmaintainer] at hs
    split at hs
    · cases hs
      exact h.scanExchange hm ‹_›
    · cases hs
      exact h.setMaintainer (MaintainerOk.scanMin hm ‹_›)

/-- A step keeps the invariant, as long as the epoch fits into a status. -/
theorem Inv.step {a : EpochAction T N} {e : Option (EpochEvent T N)} (h : s.Inv)
    (hs : s.step a = some (s', e)) (hlt : s'.globalEpoch.toNat < 2 ^ 63) : s'.Inv := by
  cases a with
  | enterEpoch t =>
    obtain ⟨s₁, hs₁, ⟨⟩⟩ := Option.map_eq_some_iff.1 hs
    exact h.call hs₁ (fun _ _ => trivial) nofun
  | exitEpoch t =>
    obtain ⟨s₁, hs₁, ⟨⟩⟩ := Option.map_eq_some_iff.1 hs
    exact h.call hs₁ (fun _ _ => trivial) nofun
  | retire t ptr =>
    obtain ⟨s₁, hs₁, ⟨⟩⟩ := Option.map_eq_some_iff.1 hs
    exact h.callRetire hs₁
  | thread t spurious => exact h.threadStep hs
  | advanceEpoch =>
    obtain ⟨s₁, hs₁, ⟨⟩⟩ := Option.map_eq_some_iff.1 hs
    exact h.advanceEpoch hs₁ hlt

end EpochBasedReclamation

end RockCoro
