import RockCoro.Lib.Potential
import RockCoro.Memory.TSLinkedList.Frame

/-!
# The lists are lock-free

How many steps a thread still has before it returns, as long as no operation of another thread takes
effect: what is left of the round of its loop, and the rounds that `tail_` or an outdated load still
cost it. Every step of the thread takes one off, and no step of another thread puts one back, unless
this is the one with which its operation takes effect. The steps are those of `Queues.threadStep`,
where `enter_epoch` and `retire` are one step and `exit_epoch` is two: the loop in which a thread
releases what it has retired is not counted.
-/

namespace RockCoro

open AtomicObject AtomicObject.Fifo

variable {L T N V : Type}

namespace Queues

variable (s : Queues L T N V) {s' : Queues L T N V}

/-- A node is linked behind the node of the pointer. -/
def followed (p : TaggedPtr N) : Bool := p.ptr.any fun n => (s.nodes n).next.ptr.isSome

/-- The nodes behind `tail_`. -/
def lag (l : L) : ℕ := (s.followed (s.lists l).tail).toNat

/-- The nodes behind `tail_` after an exchange that expects `last`. -/
def lagAfter [DecidableEq N] (l : L) (last : TaggedPtr N) : ℕ :=
  if (s.lists l).tail = last then 0 else s.lag l

/-- The rounds of its loop that a thread has before it behind the present one. -/
def rounds [DecidableEq N] : ListPc L N V → ℕ
  | .initLoad op | .initGet op | .initHead op _ | .initTail op _ => s.lag op.list
  | .pushGet l _ | .pushNode l _ _ | .pushEnter l _ _ | .pushTail l _ _ | .popEnter l
  | .popHead l => s.lag l
  | .pushNext l _ _ last => if s.followed last then 1 + s.lagAfter l last else 0
  | .pushLink l _ _ last _ => if s.followed last then 1 + s.lag l else 0
  | .pushHelp l _ _ last _ | .popHelp l last _ => 1 + s.lagAfter l last
  | .popTail l first => if (s.lists l).head = first then s.lag l else 1 + s.lag l
  | .popAssertFirst l first last | .popAssertLast l first last | .popNext l first last =>
    if (s.lists l).head = first then
      if first.ptr = last.ptr ∧ s.followed last then 1 + s.lagAfter l last else 0
    else 1 + s.lag l
  | .popValue l first _ | .popCas l first _ _ =>
    if (s.lists l).head = first then 0 else 1 + s.lag l
  | .pushExit l _ _ false | .pushDone l _ _ false | .popExit l none | .popDone l none =>
    1 + s.lag l
  | .idle | .pushSwing .. | .pushExit .. | .pushDone .. | .popRetire .. | .popExit ..
  | .popDone .. => 0

end Queues

/-- The steps that a thread has in the present round, and behind its loop. -/
def ListPc.steps : ListPc L N V → ℕ
  | .idle => 0
  | .pushDone .. | .popDone .. => 1
  | .pushExit .. | .popExit .. => 2
  | .pushSwing .. | .pushHelp .. | .popHelp .. | .popRetire .. => 3
  | .pushLink .. | .popCas .. => 4
  | .pushNext .. | .popValue .. => 5
  | .pushTail .. | .popNext .. => 6
  | .pushEnter .. | .popAssertLast .. => 7
  | .pushNode .. | .popAssertFirst .. => 8
  | .pushGet .. | .popTail .. => 9
  | .popHead .. => 10
  | .popEnter .. => 11
  | .initTail .. => 12
  | .initHead .. => 13
  | .initGet .. => 14
  | .initLoad .. => 15

namespace Queues

variable (s : Queues L T N V) {s' : Queues L T N V}

/-- A round has at most 11 steps. -/
def stepsLeft [DecidableEq N] (t : T) : ℕ := (s.pcs t).steps + 11 * s.rounds (s.pcs t)

variable {s} {l : L} {last : TaggedPtr N}

/-- The thread is in the place that it was set to. -/
theorem pcs_setPc [DecidableEq T] {t : T} {pc : ListPc L N V} : (s.setPc t pc).pcs t = pc :=
  Function.update_self ..

/-- At most one node is behind `tail_`. -/
theorem lag_le_one : s.lag l ≤ 1 := Bool.toNat_le _

variable [DecidableEq N]

/-- An exchange of `tail_` that succeeds leaves no node behind. -/
theorem lagAfter_le : s.lagAfter l last ≤ s.lag l := by
  unfold lagAfter
  split
  · exact Nat.zero_le _
  · exact Nat.le_refl _

/-- No thread is more than two rounds from its end. -/
theorem stepsLeft_le {t : T} : s.stepsLeft t ≤ 31 := by
  have hafter : ∀ l last, s.lagAfter l last ≤ 1 := fun l last =>
    Nat.le_trans lagAfter_le lag_le_one
  have hlag : ∀ l, s.lag l ≤ 1 := fun l => lag_le_one
  unfold stepsLeft
  cases s.pcs t with
  | idle | pushSwing | popRetire =>
    simp only [ListPc.steps, rounds]
    omega
  | initLoad op | initGet op | initHead op | initTail op =>
    have := hlag op.list
    simp only [ListPc.steps, rounds]
    omega
  | pushGet l | pushNode l | pushEnter l | pushTail l | popEnter l | popHead l =>
    have := hlag l
    simp only [ListPc.steps, rounds]
    omega
  | pushNext l v node last | pushHelp l v node last | popHelp l last
  | popAssertFirst l first last | popAssertLast l first last | popNext l first last =>
    have := hlag l
    have := hafter l last
    simp only [ListPc.steps, rounds]
    (try split) <;> (try split) <;> omega
  | pushLink l | popTail l | popValue l | popCas l =>
    have := hlag l
    simp only [ListPc.steps, rounds]
    split <;> omega
  | pushExit l _ _ linked | pushDone l _ _ linked =>
    have := hlag l
    cases linked <;> simp only [ListPc.steps, rounds] <;> omega
  | popExit l result | popDone l result =>
    have := hlag l
    cases result <;> simp only [ListPc.steps, rounds] <;> omega

end Queues

namespace Config

variable {c : Config L T N V} {s' : Queues L T N V} {live : N → Prop} {t u : T} {l : L} {n : N}
  {last : TaggedPtr N} {pc : ListPc L N V}

/-- A step with which no operation takes effect: the nodes of the lists stay linked as they are, and
`tail_` at most goes on to the last one. -/
structure Quiet (c : Config L T N V) (s' : Queues L T N V) : Prop where
  nodes : ∀ t l n, c.Safe t l n → (s'.nodes n).next = (c.nodes n).next
  head : ∀ l, (s'.lists l).head = (c.lists l).head
  tail : ∀ l, (s'.lists l).tail = (c.lists l).tail ∨
    c.followed (c.lists l).tail = true ∧ s'.followed (s'.lists l).tail = false

/-- Whether a node has a successor does not change with a quiet step. -/
theorem Quiet.followed (h : Quiet c s') (hn : c.Safe t l n) :
    s'.followed (c.ref n) = c.followed (c.ref n) := by
  change (s'.nodes n).next.ptr.isSome = (c.nodes n).next.ptr.isSome
  rw [h.nodes t l n hn]

variable [DecidableEq L] [DecidableEq T]

/-- A quiet step puts no node behind `tail_`. -/
theorem Quiet.lag_le (h : Quiet c s') (hinv : c.Inv live) (hl : c.chain l ≠ []) (t : T) :
    s'.lag l ≤ c.lag l := by
  unfold Queues.lag
  rcases h.tail l with htail | ⟨hbefore, hbehind⟩
  · obtain ⟨n, hn, hsafe, -⟩ := hinv.pcOk_tail (t := t) hl
    rw [htail, hn, h.followed hsafe]
  · rw [hbehind]
    exact Nat.zero_le _

variable [DecidableEq N]

/-- No other thread makes the exchange that a thread is about to try leave more behind `tail_`. -/
theorem Quiet.lagAfter_le (h : Quiet c s') (hinv : c.Inv live) (hl : c.chain l ≠ []) (t : T) :
    s'.lagAfter l last ≤ c.lagAfter l last := by
  have hlag := h.lag_le hinv hl t
  unfold Queues.lagAfter
  rcases h.tail l with htail | ⟨hbefore, hbehind⟩
  · rw [htail]
    split
    · exact Nat.le_refl _
    · exact hlag
  · have hzero : s'.lag l = 0 := by rw [Queues.lag, hbehind]; rfl
    rw [hzero, ite_self]
    exact Nat.zero_le _

end Config

/-! ## The steps of the other threads -/

/-- The exchange of `tail_` that a thread is at: the list, what it expects and what it stores. -/
def ListPc.swings : ListPc L N V → Option (L × TaggedPtr N × TaggedPtr N)
  | .pushSwing l _ node last => some (l, last, node)
  | .pushHelp l _ _ last next | .popHelp l last next => some (l, last, next)
  | _ => none

/-- Whether an operation takes effect. -/
def commits : Option (ListEvent L T N V) → ℕ
  | some (.op (.commit ..)) => 1
  | _ => 0

/-- How a step of a thread changes `head_` and `tail_`. -/
inductive ListsAfter [DecidableEq L] (s s' : Queues L T N V) (t : T) : Prop
  | same (h : s'.lists = s.lists)
  | swing (l : L) (last next : TaggedPtr N) (hpc : (s.pcs t).swings = some (l, last, next))
      (htail : (s.lists l).tail = last)
      (h : s'.lists = Function.update s.lists l { s.lists l with tail := next })

section
variable [DecidableEq L] [DecidableEq T] [DecidableEq N] {s s' : Queues L T N V} {t : T}
  {e : Option (ListEvent L T N V)} {spurious : Bool}

/-- An exchange of `tail_` is one of the kinds of steps. -/
theorem listsAfter_casTail {l : L} {last next : TaggedPtr N} {pc : ListPc L N V}
    (hpc : (s.pcs t).swings = some (l, last, next)) :
    ListsAfter s ((s.casTail l last next spurious).setPc t pc) t := by
  unfold Queues.casTail
  split
  · rename_i htail
    exact .swing l last next hpc htail.1 rfl
  · exact .same rfl

/-- A step with which the operation of the thread does not take effect. -/
theorem listsAfter_of_threadStep (hinit : (s.pcs t).footprint.initializes = none)
    (hs : s.threadStep t spurious = some (s', e)) (he : commits e = 0) :
    ListsAfter s s' t := by
  cases hpc : s.pcs t with
  | idle | initGet | pushGet =>
    simp only [Queues.threadStep, hpc] at hs
    cases hs
  | initHead | initTail =>
    rw [hpc] at hinit
    cases hinit
  | pushEnter | pushTail | pushExit | popEnter | popHead | popTail | popExit =>
    simp only [Queues.threadStep, hpc] at hs
    cases hs
    exact .same rfl
  | pushNode | popAssertFirst | popAssertLast | popValue | pushNext =>
    simp only [Queues.threadStep, hpc] at hs
    obtain ⟨n, -, hs⟩ := Option.bind_eq_some_iff.1 hs
    (try split at hs) <;> cases hs <;> exact .same rfl
  | initLoad | popRetire =>
    simp only [Queues.threadStep, hpc] at hs
    split at hs <;> cases hs <;> exact .same rfl
  | pushDone _ _ _ linked =>
    cases linked <;> simp only [Queues.threadStep, hpc] at hs <;> cases hs <;> exact .same rfl
  | popDone _ result =>
    cases result <;> simp only [Queues.threadStep, hpc] at hs <;> cases hs <;> exact .same rfl
  | pushLink =>
    simp only [Queues.threadStep, hpc] at hs
    obtain ⟨n, -, hs⟩ := Option.bind_eq_some_iff.1 hs
    split at hs
    · cases hs
      cases he
    · cases hs
      exact .same rfl
  | pushSwing =>
    simp only [Queues.threadStep, hpc] at hs
    split at hs
    · cases hs
    · cases hs
      exact listsAfter_casTail (by rw [hpc]; rfl)
  | pushHelp | popHelp =>
    simp only [Queues.threadStep, hpc] at hs
    cases hs
    exact listsAfter_casTail (by rw [hpc]; rfl)
  | popNext =>
    simp only [Queues.threadStep, hpc] at hs
    obtain ⟨n, -, hs⟩ := Option.bind_eq_some_iff.1 hs
    split at hs <;> split at hs <;> cases hs <;> exact .same rfl
  | popCas =>
    simp only [Queues.threadStep, hpc] at hs
    split at hs
    · cases hs
      cases he
    · cases hs
      exact .same rfl

end

namespace Config

variable [DecidableEq L] [DecidableEq T] [DecidableEq N] {c : Config L T N V}
  {s' : Queues L T N V} {live : N → Prop} {t u : T} {l : L} {n : N} {last next : TaggedPtr N}
  {pc : ListPc L N V} {e : Option (ListEvent L T N V)} {spurious : Bool}

omit [DecidableEq L] [DecidableEq T] [DecidableEq N] in
/-- What a thread that is about to exchange `tail_` knows. -/
theorem PcOk.swings (h : c.PcOk t pc) (hpc : pc.swings = some (l, last, next)) :
    c.Swings t l last next := by
  cases pc with
  | pushSwing | pushHelp | popHelp =>
    cases hpc
    exact h
  | _ => cases hpc

/-- A node of a list that a thread writes to, other than to link its own. -/
theorem Inv.next_of_threadStep (h : c.Inv live) (hs : c.threadStep u spurious = some (s', e))
    (he : commits e = 0) (hn : c.Safe t l n) :
    (s'.nodes n).next = (c.nodes n).next := by
  by_contra hne
  rcases (stays_of_threadStep hs).nodes n fun heq => hne (by rw [heq]) with
    ⟨l', v, node, hpc, hptr⟩ | ⟨l', v, node, last, next, hpc, hptr⟩
  · have hheld : c.At n (.held u) := by
      rw [At, footprint, hpc]
      exact hptr
    exact (h.private_of_held hheld).ne_of_shared hn.mem.1 rfl
  · simp only [Queues.threadStep, hpc] at hs
    obtain ⟨k, -, hs⟩ := Option.bind_eq_some_iff.1 hs
    split at hs
    · cases hs
      cases he
    · cases hs
      exact hne rfl

omit [DecidableEq N] in
/-- `tail_` is behind before an exchange that succeeds, and not after it. -/
theorem Inv.followed_swing (h : c.Inv live) (hswings : c.Swings t l last next)
    (htail : (c.lists l).tail = last) :
    c.followed last = true ∧ ∃ m, next = c.ref m ∧ c.Safe u l m ∧ c.next m = none := by
  obtain ⟨l₁, n, m, rfl, rfl, hl⟩ := h.tail_split hswings htail
  have hm : m ∈ c.chain l := by
    rw [hl]
    exact List.mem_append_right _ (List.mem_cons_of_mem _ List.mem_cons_self)
  refine ⟨?_, m, rfl, h.safe_of_mem hm, ?_⟩
  · obtain ⟨-, k, hk, -, hnext⟩ := hswings
    obtain rfl : n = k := Option.some.inj (congrArg TaggedPtr.ptr hk)
    change (c.nodes n).next.ptr.isSome = true
    rw [hnext]
    rfl
  · have hlinked := (h.list l (List.ne_nil_of_mem hm)).linked
    rw [hl, show l₁ ++ [n, m] = (l₁ ++ [n]) ++ [m] by simp] at hlinked
    exact hlinked.next_last

/-- A step of a thread whose operation does not take effect with it. -/
theorem Inv.quiet_threadStep (h : c.Inv live) (hchain : ∀ l, c.chain l ≠ [])
    (hs : c.threadStep u spurious = some (s', e)) (he : commits e = 0) :
    Quiet c s' := by
  have hinit : (c.pcs u).footprint.initializes = none :=
    Option.eq_none_iff_forall_ne_some.2 fun l hl => hchain l ((h.threads u).initializes l hl)
  have hnodes : ∀ t l n, c.Safe t l n → (s'.nodes n).next = (c.nodes n).next := fun t l n hn =>
    h.next_of_threadStep hs he hn
  cases listsAfter_of_threadStep hinit hs he with
  | same hlists => exact ⟨hnodes, fun l => by rw [hlists], fun l => .inl (by rw [hlists])⟩
  | swing l last next hpc htail hlists =>
    have hat : ∀ l' ≠ l, s'.lists l' = c.lists l' := fun l' hl' => by
      rw [hlists, Function.update_of_ne hl']
    have hself : s'.lists l = { c.lists l with tail := next } := by
      rw [hlists, Function.update_self]
    refine ⟨hnodes, fun l' => ?_, fun l' => ?_⟩
    · rcases eq_or_ne l' l with rfl | hl'
      · rw [hself]
      · rw [hat l' hl']
    · rcases eq_or_ne l' l with rfl | hl'
      · obtain ⟨hlast, m, rfl, hsafe, hnull⟩ :=
          h.followed_swing (u := u) ((h.threads u).pc.swings hpc) htail
        refine .inr ⟨htail ▸ hlast, ?_⟩
        rw [hself]
        change (s'.nodes m).next.ptr.isSome = false
        rw [hnodes u l' m hsafe]
        exact Option.isSome_eq_false_iff.2 (Option.isNone_iff_eq_none.2 hnull)
      · exact .inl (by rw [hat l' hl'])

omit [DecidableEq L] [DecidableEq T] in
/-- The steps left from the place that the thread is in. -/
theorem stepsLeft_of_pc {s : Queues L T N V} (hpc : s.pcs t = pc) :
    s.stepsLeft t = pc.steps + 11 * s.rounds pc := by
  rw [Queues.stepsLeft, hpc]

omit [DecidableEq L] in
/-- The steps left from the place that the thread was set to. -/
theorem stepsLeft_setPc {s : Queues L T N V} :
    (s.setPc t pc).stepsLeft t = pc.steps + 11 * s.rounds pc :=
  stepsLeft_of_pc Queues.pcs_setPc

/-- Behind an exchange of `tail_` that cannot fail spuriously, no more nodes are behind than it
was to leave. -/
theorem Inv.lag_casTail (h : c.Inv live) (hswings : c.Swings t l last next) :
    (c.casTail l last next false).lag l ≤ c.lagAfter l last := by
  unfold Queues.casTail Queues.lagAfter
  by_cases htail : (c.lists l).tail = last
  · obtain ⟨-, m, rfl, -, hnull⟩ := h.followed_swing (u := t) hswings htail
    have hlists : (c.setList l { c.lists l with tail := c.ref m }).lists l =
        { c.lists l with tail := c.ref m } := Function.update_self ..
    rw [if_pos ⟨htail, rfl⟩, if_pos htail, Queues.lag, hlists]
    change (c.next m).isSome.toNat ≤ 0
    rw [hnull]
    exact Nat.le_refl _
  · rw [if_neg fun hcas => htail hcas.1, if_neg htail]

omit [DecidableEq N] in
/-- A head with no successor is the only node, and `tail_` points to it. -/
theorem Inv.tail_of_alone (h : c.Inv live) (hn : c.Safe t l n) (hfirst : c.First l n)
    (hnull : c.next n = none) : (c.lists l).tail.ptr = some n := by
  obtain ⟨l₁, hl⟩ := h.last_of_safe hn hnull
  have hhead := hfirst (hl ▸ List.mem_append_right _ (List.mem_singleton_self _))
  obtain ⟨r, hr⟩ := List.head?_eq_some_iff.1 hhead
  obtain ⟨rfl, -⟩ := h.split_unique (show _ = [] ++ _ :: r from hr) hl
  obtain ⟨r₁, k, r₂, htail, hsplit, -⟩ := (h.list l (h.chain_ne_nil hn)).tail
  rw [hl] at hsplit
  have hk : k ∈ [n] := by
    rw [show [n] = [] ++ [n] from rfl, hsplit]
    exact List.mem_append_right _ List.mem_cons_self
  rw [htail, ← List.mem_singleton.1 hk]
  rfl

variable {v : V} {node first : TaggedPtr N} {value : Option V}

omit [DecidableEq L] [DecidableEq T] in
/-- From `tail_` as it is now, a push has a round left only if a node is behind. -/
theorem rounds_pushNext_tail {s : Queues L T N V} :
    s.rounds (.pushNext l v node (s.lists l).tail : ListPc L N V) = s.lag l := by
  rw [Queues.rounds, Queues.lagAfter, if_pos rfl, Queues.lag]
  cases s.followed (s.lists l).tail <;> rfl

omit [DecidableEq L] [DecidableEq T] in
/-- Loading `tail_` after `head_` does not cost a round. -/
theorem rounds_popAssertFirst_tail (s : Queues L T N V) (l : L) (first : TaggedPtr N) :
    s.rounds (.popAssertFirst l first (s.lists l).tail : ListPc L N V) ≤
      s.rounds (.popTail l first : ListPc L N V) := by
  rw [Queues.rounds, Queues.rounds, Queues.lagAfter, if_pos rfl, Queues.lag]
  split
  · split
    · rename_i hlast
      rw [hlast.2]
      exact Nat.le_refl _
    · exact Nat.zero_le _
  · exact Nat.le_refl _

/-- In `push_back`, reading `next_` is a step nearer. -/
theorem Inv.stepsLeft_pushNext (h : c.Inv live) (hpc : c.pcs t = .pushNext l v node last)
    (hs : c.threadStep t false = some (s', e)) : s'.stepsLeft t < c.stepsLeft t := by
  have hok := (h.threads t).pc
  rw [hpc] at hok
  obtain ⟨n, rfl, hsafe, -⟩ := hok
  simp only [Queues.threadStep, hpc] at hs
  obtain ⟨k, hk, hs⟩ := Option.bind_eq_some_iff.1 hs
  obtain rfl := Option.some.inj hk
  rw [stepsLeft_of_pc hpc]
  split at hs
  · rename_i hnull
    cases hs
    have hfollowed : c.followed (c.ref n) = false := by
      change (c.nodes n).next.ptr.isSome = false
      rw [hnull]
      rfl
    rw [stepsLeft_setPc]
    simp only [Queues.rounds, hfollowed, Bool.false_eq_true, if_false, ListPc.steps]
    omega
  · rename_i hnull
    cases hs
    have hfollowed : c.followed (c.ref n) = true := Option.isSome_iff_ne_none.2 hnull
    rw [stepsLeft_setPc]
    simp only [Queues.rounds, hfollowed, if_true, ListPc.steps]
    omega

/-- In `push_back`, the exchange of `next_` is a step nearer, whether or not it succeeds. -/
theorem Inv.stepsLeft_pushLink (h : c.Inv live) (hpc : c.pcs t = .pushLink l v node last next)
    (hs : c.threadStep t false = some (s', e)) : s'.stepsLeft t < c.stepsLeft t := by
  have hok := (h.threads t).pc
  rw [hpc] at hok
  obtain ⟨rfl, n, rfl, hsafe, -⟩ := hok
  simp only [Queues.threadStep, hpc] at hs
  obtain ⟨k, hk, hs⟩ := Option.bind_eq_some_iff.1 hs
  obtain rfl := Option.some.inj hk
  rw [stepsLeft_of_pc hpc]
  split at hs
  · cases hs
    rw [stepsLeft_setPc]
    simp only [Queues.rounds, ListPc.steps]
    omega
  · rename_i hcas
    cases hs
    have hfollowed : c.followed (c.ref n) = true := by
      refine Option.isSome_iff_ne_none.2 fun hnull => hcas ⟨?_, trivial⟩
      rw [hsafe.mem.2, Queues.next, hnull]
      rfl
    rw [stepsLeft_setPc]
    simp only [Queues.rounds, hfollowed, if_true, ListPc.steps]
    omega

/-- In `pop_front`, reading `next_` is a step nearer. -/
theorem Inv.stepsLeft_popNext (h : c.Inv live) (hpc : c.pcs t = .popNext l first last)
    (hs : c.threadStep t false = some (s', e)) : s'.stepsLeft t < c.stepsLeft t := by
  have hok := (h.threads t).pc
  rw [hpc] at hok
  obtain ⟨n, m, rfl, rfl, hn, hfirst, hm, hpassed⟩ := hok
  simp only [Queues.threadStep, hpc] at hs
  obtain ⟨k, hk, hs⟩ := Option.bind_eq_some_iff.1 hs
  obtain rfl := Option.some.inj hk
  have hafter : c.lagAfter l (c.ref m) ≤ c.lag l := Queues.lagAfter_le
  rw [stepsLeft_of_pc hpc]
  split at hs
  · rename_i hnm
    obtain rfl := Option.some.inj hnm
    split at hs
    · cases hs
      rw [stepsLeft_setPc]
      simp only [Queues.rounds, ListPc.steps]
      omega
    · rename_i hnull
      cases hs
      have hfollowed : c.followed (c.ref n) = true := Option.isSome_iff_ne_none.2 hnull
      rw [stepsLeft_setPc]
      simp only [Queues.rounds, hfollowed, and_self, if_true, ListPc.steps]
      split <;> omega
  · rename_i hnm
    split at hs
    · cases hs
      rw [stepsLeft_setPc]
      simp only [Queues.rounds, hnm, false_and, if_false, ListPc.steps]
      split <;> omega
    · rename_i hnull
      cases hs
      -- a head that is not at `tail_` has a successor
      have hhead : (c.lists l).head ≠ c.ref n := by
        intro hhead
        have htail := h.tail_of_alone hn hfirst (not_not.1 hnull)
        refine hpassed (fun he => hnm (congrArg some he)) ?_ htail
        have hptr := (h.list l (h.chain_ne_nil hn)).head
        rw [hhead] at hptr
        cases hc : (c.chain l).head? with
        | none =>
          rw [hc] at hptr
          exact absurd hptr ref_ne_null
        | some k =>
          rw [hc] at hptr
          exact (congrArg TaggedPtr.ptr hptr).symm
      rw [stepsLeft_setPc]
      simp only [Queues.rounds, hhead, if_false, ListPc.steps]
      omega

/-- Every step of a thread brings it nearer to its return, if no exchange fails without a reason. -/
theorem Inv.stepsLeft_threadStep (h : c.Inv live) (hchain : ∀ l, c.chain l ≠ [])
    (hs : c.threadStep t false = some (s', e)) : s'.stepsLeft t < c.stepsLeft t := by
  have hinit : (c.pcs t).footprint.initializes = none :=
    Option.eq_none_iff_forall_ne_some.2 fun l hl => hchain l ((h.threads t).initializes l hl)
  have hok := (h.threads t).pc
  cases hpc : c.pcs t with
  | idle | initGet | pushGet =>
    simp only [Queues.threadStep, hpc] at hs
    cases hs
  | initHead | initTail =>
    rw [hpc] at hinit
    cases hinit
  | pushNext => exact h.stepsLeft_pushNext hpc hs
  | pushLink => exact h.stepsLeft_pushLink hpc hs
  | popNext => exact h.stepsLeft_popNext hpc hs
  | initLoad op =>
    simp only [Queues.threadStep, hpc] at hs
    split at hs
    · cases hs
      rw [stepsLeft_of_pc hpc, stepsLeft_setPc]
      simp only [Queues.rounds, ListPc.steps]
      omega
    · cases hs
      rw [stepsLeft_of_pc hpc, stepsLeft_setPc]
      cases op <;> simp only [Queues.rounds, Queues.afterInit, ListOp.list, ListPc.steps] <;> omega
  | pushNode l v node =>
    have hquiet := h.quiet_threadStep hchain hs
    simp only [Queues.threadStep, hpc] at hs
    obtain ⟨n, -, ⟨⟩⟩ := Option.bind_eq_some_iff.1 hs
    have hlag := (hquiet rfl).lag_le h (hchain l) t
    rw [stepsLeft_of_pc hpc, stepsLeft_setPc]
    exact Nat.add_lt_add_of_lt_of_le (Nat.lt_succ_self 7) (Nat.mul_le_mul_left 11 hlag)
  | pushEnter | popEnter | popHead =>
    simp only [Queues.threadStep, hpc] at hs
    cases hs
    rw [stepsLeft_of_pc hpc, stepsLeft_setPc]
    simp only [Queues.rounds, if_true, ListPc.steps]
    omega
  | pushTail =>
    simp only [Queues.threadStep, hpc] at hs
    cases hs
    rw [stepsLeft_of_pc hpc, stepsLeft_setPc, rounds_pushNext_tail]
    simp only [Queues.rounds, ListPc.steps]
    omega
  | popTail l first =>
    simp only [Queues.threadStep, hpc] at hs
    cases hs
    have hrounds := rounds_popAssertFirst_tail c.toQueues l first
    rw [stepsLeft_of_pc hpc, stepsLeft_setPc]
    simp only [ListPc.steps]
    omega
  | popAssertFirst | popAssertLast =>
    simp only [Queues.threadStep, hpc] at hs
    obtain ⟨n, -, hs⟩ := Option.bind_eq_some_iff.1 hs
    split at hs
    · cases hs
    · cases hs
      rw [stepsLeft_of_pc hpc, stepsLeft_setPc]
      simp only [Queues.rounds, ListPc.steps]
      omega
  | popValue =>
    simp only [Queues.threadStep, hpc] at hs
    obtain ⟨n, -, hs⟩ := Option.bind_eq_some_iff.1 hs
    cases hs
    rw [stepsLeft_of_pc hpc, stepsLeft_setPc]
    simp only [Queues.rounds, ListPc.steps]
    omega
  | popCas l first next value =>
    simp only [Queues.threadStep, hpc] at hs
    split at hs
    · cases hs
      rw [stepsLeft_of_pc hpc, stepsLeft_setPc]
      simp only [Queues.rounds, ListPc.steps]
      omega
    · rename_i hhead
      cases hs
      rw [stepsLeft_of_pc hpc, stepsLeft_setPc]
      simp only [Queues.rounds, hhead, if_false, ListPc.steps]
      omega
  | pushSwing | popRetire =>
    simp only [Queues.threadStep, hpc] at hs
    split at hs
    · cases hs
    · cases hs
      rw [stepsLeft_of_pc hpc, stepsLeft_setPc]
      simp only [Queues.rounds, ListPc.steps]
      omega
  | pushHelp l v node last next | popHelp l last next =>
    rw [hpc] at hok
    have hlag := h.lag_casTail hok
    simp only [Queues.threadStep, hpc] at hs
    cases hs
    rw [stepsLeft_of_pc hpc, stepsLeft_setPc]
    simp only [Queues.rounds, ListPc.steps]
    omega
  | pushExit l v node linked =>
    simp only [Queues.threadStep, hpc] at hs
    cases hs
    rw [stepsLeft_of_pc hpc, stepsLeft_setPc]
    cases linked <;> simp only [Queues.rounds, ListPc.steps] <;> omega
  | popExit l result =>
    simp only [Queues.threadStep, hpc] at hs
    cases hs
    rw [stepsLeft_of_pc hpc, stepsLeft_setPc]
    cases result <;> simp only [Queues.rounds, ListPc.steps] <;> omega
  | pushDone l v node linked =>
    cases linked <;> simp only [Queues.threadStep, hpc] at hs <;> cases hs <;>
      rw [stepsLeft_of_pc hpc, stepsLeft_setPc] <;> simp only [Queues.rounds, ListPc.steps] <;>
      omega
  | popDone l result =>
    cases result <;> simp only [Queues.threadStep, hpc] at hs <;> cases hs <;>
      rw [stepsLeft_of_pc hpc, stepsLeft_setPc] <;> simp only [Queues.rounds, ListPc.steps] <;>
      omega

end Config

/-! ## No thread is stuck -/

section
variable [DecidableEq L] [DecidableEq T] [DecidableEq N] {s s' s₀ : Queues L T N V} {t u : T}
  {e : Option (ListEvent L T N V)} {spurious : Bool} {log : List (ListEvent L T N V)}

/-- `assert(first.get_ptr() != next.get_ptr())` holds where it stands. -/
def Queues.RetiresFirst (s : Queues L T N V) : Prop :=
  ∀ t l first next value, s.pcs t = .popRetire l first next value → first.ptr ≠ next.ptr

end

namespace Config

variable [DecidableEq L] [DecidableEq T] [DecidableEq N] {c : Config L T N V}
  {s' : Queues L T N V} {live : N → Prop} {t u : T} {l : L} {n : N}
  {e : Option (ListEvent L T N V)} {spurious : Bool}

omit [DecidableEq L] [DecidableEq T] [DecidableEq N] in
/-- The links from a node do not lead back to it. -/
theorem Safe.next_ne (h : c.Safe t l n) : c.next n ≠ some n := by
  intro hn
  obtain ⟨w, hw, -⟩ := h
  cases w with
  | nil => cases hw
  | cons m w =>
    obtain ⟨⟨⟩, hrest⟩ := hw
    have hmem : n ∈ w := by
      rw [hn] at hrest
      cases w with
      | nil => cases hrest
      | cons k w =>
        obtain ⟨⟨⟩, -⟩ := hrest
        exact List.mem_cons_self
    exact (List.nodup_cons.1 (Chain.Linked.nodup (h := some n) ⟨rfl, hrest⟩)).1 hmem

/-- A thread in an operation has a step: no assertion fails, and no null pointer is followed. -/
theorem Inv.threadStep_ne_none (h : c.Inv live) (hchain : ∀ l, c.chain l ≠ [])
    (hretires : c.RetiresFirst) (hidle : c.pcs t ≠ .idle) (hget : ∀ l v, c.pcs t ≠ .pushGet l v) :
    c.threadStep t spurious ≠ none := by
  have hinit : (c.pcs t).footprint.initializes = none :=
    Option.eq_none_iff_forall_ne_some.2 fun l hl => hchain l ((h.threads t).initializes l hl)
  have hok := (h.threads t).pc
  cases hpc : c.pcs t with
  | idle => exact absurd hpc hidle
  | pushGet l v => exact absurd hpc (hget l v)
  | initGet | initHead | initTail =>
    rw [hpc] at hinit
    cases hinit
  | initLoad | pushEnter | pushTail | pushHelp | pushExit | popEnter | popHead | popTail | popHelp
  | popExit | popCas =>
    simp only [Queues.threadStep, hpc]
    (try split) <;> exact Option.some_ne_none _
  | pushNode l v node =>
    have hheld := (h.threads t).held
    rw [footprint, hpc] at hheld
    obtain ⟨n, rfl, -⟩ := hheld node rfl
    simp only [Queues.threadStep, hpc]
    exact Option.some_ne_none _
  | pushNext l v node last =>
    rw [hpc] at hok
    obtain ⟨n, rfl, -⟩ := hok
    simp only [Queues.threadStep, hpc, ref, bind, Option.bind_some]
    split <;> exact Option.some_ne_none _
  | pushLink l v node last next =>
    rw [hpc] at hok
    obtain ⟨-, n, rfl, -⟩ := hok
    simp only [Queues.threadStep, hpc, ref, bind, Option.bind_some]
    split <;> exact Option.some_ne_none _
  | pushSwing l v node last =>
    rw [hpc] at hok
    obtain ⟨-, n, rfl, hsafe, hnext⟩ := hok
    have hne : (c.ref n).ptr ≠ node.ptr := fun he =>
      hsafe.next_ne ((congrArg TaggedPtr.ptr hnext).trans he.symm)
    simp only [Queues.threadStep, hpc, hne, if_false]
    exact Option.some_ne_none _
  | popAssertFirst l first last =>
    rw [hpc] at hok
    obtain ⟨n, m, rfl, rfl, hn, -⟩ := hok
    simp only [Queues.threadStep, hpc, ref, bind, Option.bind_some, h.unreleased_of_safe hn,
      Bool.false_eq_true, if_false]
    exact Option.some_ne_none _
  | popAssertLast l first last =>
    rw [hpc] at hok
    obtain ⟨n, m, rfl, rfl, -, -, hm, -⟩ := hok
    simp only [Queues.threadStep, hpc, ref, bind, Option.bind_some, h.unreleased_of_safe hm,
      Bool.false_eq_true, if_false]
    exact Option.some_ne_none _
  | popNext l first last =>
    rw [hpc] at hok
    obtain ⟨n, m, rfl, -⟩ := hok
    simp only [Queues.threadStep, hpc, ref, bind, Option.bind_some]
    split <;> split <;> exact Option.some_ne_none _
  | popValue l first next =>
    rw [hpc] at hok
    obtain ⟨n, m, -, rfl, -⟩ := hok
    simp only [Queues.threadStep, hpc, ref, bind, Option.bind_some]
    exact Option.some_ne_none _
  | popRetire l first next value =>
    simp only [Queues.threadStep, hpc, hretires t l first next value hpc, if_false]
    exact Option.some_ne_none _
  | pushDone l v node linked =>
    cases linked <;> simp only [Queues.threadStep, hpc] <;> exact Option.some_ne_none _
  | popDone l result =>
    cases result <;> simp only [Queues.threadStep, hpc] <;> exact Option.some_ne_none _

end Config

/-! ## Runs -/

section
variable [DecidableEq L] [DecidableEq T] [DecidableEq N] {s s₀ : Queues L T N V}
  {log : List (ListEvent L T N V)}

/-- One step of a run, with what is observed of it. -/
def Queues.Transition (p : List (ListEvent L T N V) × Queues L T N V)
    (x : ListAction L T N V × Option (ListEvent L T N V))
    (q : List (ListEvent L T N V) × Queues L T N V) : Prop :=
  Reclaims p.1 x.1 ∧ p.2.step x.1 = some (q.2, x.2) ∧ q.1 = p.1 ++ x.2.toList

/-- What costs `t` more steps: that it calls an operation, that its own exchange fails without a
reason, and that the operation of another thread takes effect. -/
def setbacks (t : T) : ListAction L T N V × Option (ListEvent L T N V) → ℕ
  | (.call u _, _) => if u = t then 1 else 0
  | (.thread u spurious, e) => if u = t then spurious.toNat else commits e
  | _ => 0

end

end RockCoro
