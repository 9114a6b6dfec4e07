import RockCoro.Memory.QueueSystem.Invariant

/-!
# No recycled node is followed

A thread in its critical section has loaded pointers from `head_`, `tail_` and `next_`. While it is
to follow one of them, no `exit_epoch` releases the node (`run_neverRecycled`). A node that was
released since the thread entered can come back by `get` before the thread loads it, and once the
epoch has overflown its 63 bits a thread meets a released node (`not_neverRecycled`).
-/

namespace RockCoro.QueueSystem

open EpochBasedReclamation TSLinkedListNodeAllocator

variable {L T N V : Type} [DecidableEq L] [DecidableEq T] [DecidableEq N]

/-! ## Runs -/

section
variable {P : QueueSystem L T N V → SystemAction L T N V → QueueSystem L T N V → Prop}
  {s s' s₀ : QueueSystem L T N V} {log log' : List (SystemEvent L T N V)}

/-- The runs from `s₀` whose steps all meet `P`. -/
inductive Run (P : QueueSystem L T N V → SystemAction L T N V → QueueSystem L T N V → Prop)
    (s₀ : QueueSystem L T N V) : List (SystemEvent L T N V) → QueueSystem L T N V → Prop
  | start : Run P s₀ [] s₀
  | step {log s a s' e} (hr : Run P s₀ log s) (hp : P s a s') (hs : s.step a = some (s', e)) :
    Run P s₀ (log ++ e.toList) s'

/-- A list is initialized by one thread, and the epoch fits into the 63 bits of a status. -/
def InBounds (s : QueueSystem L T N V) (a : SystemAction L T N V)
    (s' : QueueSystem L T N V) : Prop :=
  s.OneInit a ∧ s'.epochs.globalEpoch.toNat < 2 ^ 63

instance [Fintype T] (s : QueueSystem L T N V) : DecidablePred s.OneInit
  | .thread t spurious => inferInstanceAs
    (Decidable (RockCoro.OneInit s.queues (.thread t spurious)))
  | .call .. | .new .. | .advanceEpoch => instDecidableTrue

instance [Fintype T] (s : QueueSystem L T N V) (a : SystemAction L T N V)
    (s' : QueueSystem L T N V) :
    Decidable (InBounds s a s') :=
  inferInstanceAs (Decidable (s.OneInit a ∧ s'.epochs.globalEpoch.toNat < 2 ^ 63))

/-- The invariant holds in every run below the bound. -/
theorem Run.inv {nodes : Nodes N V} (hr : Run InBounds (QueueSystem.start nodes) log s) :
    s.Inv log := by
  induction hr with
  | start => exact inv_start
  | step _ hp hs ih => exact ih.step hp.1 hp.2 hs

/-- Takes the steps of a list. -/
def exec (P : QueueSystem L T N V → SystemAction L T N V → QueueSystem L T N V → Prop)
    [∀ s a s', Decidable (P s a s')] (s : QueueSystem L T N V) (log : List (SystemEvent L T N V)) :
    List (SystemAction L T N V) → Option (QueueSystem L T N V × List (SystemEvent L T N V))
  | [] => some (s, log)
  | a :: as =>
    match s.step a with
    | some (s', e) => if P s a s' then exec P s' (log ++ e.toList) as else none
    | none => none

/-- Executing actions extends a run. -/
theorem Run.exec [∀ s a s', Decidable (P s a s')] {as : List (SystemAction L T N V)}
    (hr : Run P s₀ log s) (h : s.exec P log as = some (s', log')) : Run P s₀ log' s' := by
  induction as generalizing s log with
  | nil =>
    cases h
    exact hr
  | cons a as ih =>
    rw [QueueSystem.exec] at h
    split at h
    · rename_i hs
      split at h
      · rename_i hp
        exact ih (hr.step hp hs) h
      · cases h
    · cases h

end

end RockCoro.QueueSystem

/-! ## What a thread has loaded -/

namespace RockCoro

open EpochBasedReclamation TSLinkedListNodeAllocator

variable {L T N V : Type}

/-- The pointers that the thread has loaded and is to follow. -/
def ListPc.loaded : ListPc L N V → List (TaggedPtr N)
  | .pushNext _ _ _ last | .pushLink _ _ _ last _ => [last]
  | .popTail _ first | .popNext _ first _ => [first]
  | .popAssertFirst _ first last | .popAssertLast _ first last => [first, last]
  | .popValue _ _ next => [next]
  | _ => []

/-- The next step of the thread is one of the two assertions of `pop_front`. -/
def ListPc.Asserts : ListPc L N V → Prop
  | .popAssertFirst .. | .popAssertLast .. => True
  | _ => False

variable [DecidableEq L] [DecidableEq T] [DecidableEq N]

/-- The nodes that a thread has loaded and is to follow are allocated, not marked as released and in
no cache; no step releases one, and the assertions of `pop_front` do not fail. -/
structure NeverRecycled (s : QueueSystem L T N V) : Prop where
  loaded : ∀ t, ∀ p ∈ (s.queues.pcs t).loaded, ∃ n, p.ptr = some n ∧
    (s.queues.nodes n).released = false ∧
    s.allocator.allocated n = true ∧
      ∀ u w, Chain.Linked (Nodes.next s.queues.nodes) (s.allocator.caches u).head.ptr w → n ∉ w
  kept : ∀ a s' v q, s.step a = some (s', some (.list (.epoch (.released v q)))) →
    ∀ t, ∀ p ∈ (s.queues.pcs t).loaded, p.ptr ≠ q.ptr
  asserts : ∀ t spurious, (s.queues.pcs t).Asserts → s.step (.thread t spurious) ≠ none

omit [DecidableEq N] in
/-- A pointer that a thread has loaded is of a node that it may use. -/
theorem Config.Inv.safe_of_loaded {c : Config L T N V} {live : N → Prop} {t : T} {p : TaggedPtr N}
    (h : c.Inv live) (hp : p ∈ (c.pcs t).loaded) : ∃ l n, p = c.ref n ∧ c.Safe t l n := by
  have hok := (h.threads t).pc
  cases hpc : c.pcs t with
  | pushNext l v node last =>
    rw [hpc] at hp hok
    obtain rfl := List.mem_singleton.1 hp
    obtain ⟨n, hn, hsafe, -⟩ := hok
    exact ⟨l, n, hn, hsafe⟩
  | pushLink l v node last next =>
    rw [hpc] at hp hok
    obtain rfl := List.mem_singleton.1 hp
    obtain ⟨-, n, hn, hsafe, -⟩ := hok
    exact ⟨l, n, hn, hsafe⟩
  | popTail l first =>
    rw [hpc] at hp hok
    obtain rfl := List.mem_singleton.1 hp
    obtain ⟨n, hn, hsafe, -⟩ := hok
    exact ⟨l, n, hn, hsafe⟩
  | popAssertFirst l first last | popAssertLast l first last =>
    rw [hpc] at hp hok
    obtain ⟨n, m, hn, hm, hsafe, -, hsafe', -⟩ := hok
    rcases List.mem_cons.1 hp with rfl | hp
    · exact ⟨l, n, hn, hsafe⟩
    · obtain rfl := List.mem_singleton.1 hp
      exact ⟨l, m, hm, hsafe'⟩
  | popNext l first last =>
    rw [hpc] at hp hok
    obtain rfl := List.mem_singleton.1 hp
    obtain ⟨n, m, hn, -, hsafe, -⟩ := hok
    exact ⟨l, n, hn, hsafe⟩
  | popValue l first next =>
    rw [hpc] at hp hok
    obtain rfl := List.mem_singleton.1 hp
    obtain ⟨n, m, -, hm, hsafe, -, -, hnext⟩ := hok
    exact ⟨l, m, hm, hsafe.tail (congrArg TaggedPtr.ptr (hnext.trans hm))⟩
  | _ =>
    rw [hpc] at hp
    exact absurd hp List.not_mem_nil

namespace QueueSystem

variable {s : QueueSystem L T N V} {log : List (SystemEvent L T N V)} {t : T} {p : TaggedPtr N}

/-- What a thread has loaded is a node that is not released and not free. -/
theorem Inv.loaded (h : s.Inv log) (hp : p ∈ (s.queues.pcs t).loaded) : ∃ n, p.ptr = some n ∧
    (s.queues.nodes n).released = false ∧ s.queues.free n = false := by
  obtain ⟨c, hc, -, hinv⟩ := h.lists
  rw [← hc] at hp ⊢
  obtain ⟨l, n, rfl, hsafe⟩ := hinv.safe_of_loaded hp
  exact ⟨n, rfl, hinv.unreleased_of_safe hsafe, hinv.not_free_of_safe hsafe⟩

/-- A step of an operation is no release. -/
theorem map_list_ne_released {q q' : Queues L T N V} {e : Option (ListEvent L T N V)}
    {spurious : Bool} {v : T}
    (hs : q.threadStep t spurious = some (q', e)) :
    e.map SystemEvent.list ≠ some (.list (.epoch (.released v p))) := by
  intro he
  obtain ⟨x, hx, hrel⟩ := Option.map_eq_some_iff.1 he
  exact not_released_of_threadStep hs (hx.trans (congrArg some (SystemEvent.list.inj hrel)))

/-- A step of the lists is no release. -/
theorem listStep_ne_released {s' : QueueSystem L T N V} {spurious : Bool} {v : T} :
    s.listStep t spurious ≠ some (s', some (.list (.epoch (.released v p)))) := by
  intro hs
  cases hpc : s.queues.pcs t with
  | initGet | pushGet | pushEnter | popEnter | pushExit | popExit =>
    simp only [QueueSystem.listStep, hpc] at hs
    obtain ⟨-, -, ⟨⟩⟩ := Option.bind_eq_some_iff.1 hs
  | popRetire l first next value =>
    simp only [QueueSystem.listStep, hpc] at hs
    split at hs
    · cases hs
    · obtain ⟨-, -, ⟨⟩⟩ := Option.bind_eq_some_iff.1 hs
  | _ =>
    simp only [QueueSystem.listStep, hpc] at hs
    obtain ⟨⟨q, e⟩, hq, hs⟩ := Option.bind_eq_some_iff.1 hs
    exact map_list_ne_released hq (Prod.mk.inj (Option.some.inj hs)).2

/-- A step that releases a node is one of `exit_epoch`. -/
theorem release_of_step {s' : QueueSystem L T N V} {a : SystemAction L T N V} {v : T}
    {q : TaggedPtr N}
    (hs : s.step a = some (s', some (.list (.epoch (.released v q))))) :
    ∃ spurious epochs allocator,
      s.epochs.threadStep v spurious = some (epochs, some (.released v q)) ∧
      s.allocator.call v (.releaseMark q) = some allocator ∧
      s' = { queues := s.queues.releases q, epochs := epochs, allocator := allocator } := by
  cases a with
  | call t op =>
    obtain ⟨⟨queues, e⟩, hq, hs⟩ := Option.map_eq_some_iff.1 hs
    obtain ⟨-, he⟩ := Prod.mk.inj hs
    simp only [Queues.step] at hq
    split at hq
    · cases hq
      cases op with
      | init | push | pop => cases he
    · cases hq
  | thread t spurious =>
    rw [QueueSystem.step, QueueSystem.threadStep] at hs
    split at hs
    · obtain ⟨⟨nodes, allocator, x⟩, -, hs⟩ := Option.bind_eq_some_iff.1 hs
      rcases x with _ | _ | _ | _ <;> cases hs
    · split at hs
      · obtain ⟨⟨epochs, x⟩, hstep, hs⟩ := Option.bind_eq_some_iff.1 hs
        dsimp only at hs
        split at hs
        · obtain ⟨allocator, hcall, ⟨⟩⟩ := Option.bind_eq_some_iff.1 hs
          obtain rfl := thread_of_released hstep
          exact ⟨spurious, epochs, allocator, hstep, hcall, rfl⟩
        · obtain ⟨⟨queues, e⟩, hq, hs⟩ := Option.bind_eq_some_iff.1 hs
          exact absurd (Prod.mk.inj (Option.some.inj hs)).2 (map_list_ne_released hq)
        · split at hs
          · obtain ⟨⟨queues, e⟩, -, ⟨⟩⟩ := Option.bind_eq_some_iff.1 hs
          · obtain ⟨⟨queues, e⟩, -, ⟨⟩⟩ := Option.bind_eq_some_iff.1 hs
          · cases hs
      · exact absurd hs listStep_ne_released
  | new t n =>
    obtain ⟨⟨nodes, allocator⟩, -, ⟨⟩⟩ := Option.map_eq_some_iff.1 hs
  | advanceEpoch =>
    obtain ⟨epochs, -, ⟨⟩⟩ := Option.map_eq_some_iff.1 hs

/-- With the invariant, no node that a thread has loaded is recycled. -/
theorem Inv.neverRecycled (h : s.Inv log) : NeverRecycled s where
  loaded t p hp := by
    obtain ⟨n, hn, hreleased, hfree⟩ := h.loaded hp
    obtain ⟨cached, howns⟩ := h.owns
    have hdead : ¬s.queues.free n = true := by simp [hfree]
    refine ⟨n, hn, hreleased, ?_, fun u w hw hmem => hdead ?_⟩
    · rw [← Bool.not_eq_false]
      exact fun hheap => hdead (howns.places.live_of_at
        (show s.allocator.At cached n .heap from hheap))
    · rw [hw.unique (howns.chain u)] at hmem
      exact howns.places.live_of_at (show s.allocator.At cached n (.cached u) from hmem)
  kept a s' v q hs t p hp hptr := by
    obtain ⟨spurious, epochs, allocator, hstep, hcall, rfl⟩ := release_of_step hs
    have hglobal : epochs.globalEpoch = s.epochs.globalEpoch := by
      cases observed_of_threadStep hstep
      all_goals rfl
    have hinv := h.epochRelease (hglobal ▸ h.epochs.global_lt) hstep hcall
    -- the node is free behind the step, and the thread has loaded it
    obtain ⟨n, hn, -, hfree⟩ := hinv.loaded (t := t) hp
    have hfree : q.ptr.elim s.queues.free (fun m => Function.update s.queues.free m true) n =
      false := hfree
    rw [← hptr, hn, Option.elim_some, Function.update_self] at hfree
    cases hfree
  asserts t spurious hpc := by
    have hsynced := h.synced t
    have hstep : ∀ first last : TaggedPtr N, (s.queues.pcs t).loaded = [first, last] →
        ∃ n m, first.ptr = some n ∧ last.ptr = some m ∧ (s.queues.nodes n).released = false ∧
          (s.queues.nodes m).released = false := by
      intro first last hloaded
      obtain ⟨n, hn, hfirst, -⟩ := h.loaded (t := t) (hloaded ▸ List.mem_cons_self)
      obtain ⟨m, hm, hlast, -⟩ :=
        h.loaded (t := t) (hloaded ▸ List.mem_cons_of_mem _ List.mem_cons_self)
      exact ⟨n, m, hn, hm, hfirst, hlast⟩
    cases hq : s.queues.pcs t with
    | popAssertFirst l first last =>
      obtain ⟨n, m, hn, -, hreleased, -⟩ := hstep first last (by rw [hq]; rfl)
      rw [hq] at hsynced
      have hidle := hsynced.idle rfl
      have halloc := hsynced.allocator_idle id (by simp [hidle])
      simp [QueueSystem.step, QueueSystem.threadStep, QueueSystem.listStep, Queues.threadStep, hq,
        hidle, halloc, hn,
        hreleased]
    | popAssertLast l first last =>
      obtain ⟨n, m, -, hm, -, hreleased⟩ := hstep first last (by rw [hq]; rfl)
      rw [hq] at hsynced
      have hidle := hsynced.idle rfl
      have halloc := hsynced.allocator_idle id (by simp [hidle])
      simp [QueueSystem.step, QueueSystem.threadStep, QueueSystem.listStep, Queues.threadStep, hq,
        hidle, halloc, hm,
        hreleased]
    | _ =>
      rw [hq] at hpc
      exact hpc.elim

/-- No recycled node is followed: in every run in which the epoch fits into the 63 bits of a status,
a node that a thread has loaded is not released before the thread has followed it. -/
theorem run_neverRecycled {nodes : Nodes N V} (hr : Run InBounds (QueueSystem.start nodes) log s) :
    NeverRecycled s :=
  hr.inv.neverRecycled

/-! ## A run -/

/-- No list is initialized. -/
def newSystem : QueueSystem Unit Bool ℕ ℕ := QueueSystem.start fun _ => {}

/-- Some steps of one thread. -/
def threadSteps (t : Bool) (k : ℕ) : List (SystemAction Unit Bool ℕ ℕ) :=
  List.replicate k (.thread t false)

/-- The thread `t` initializes the list with the node `0` and pushes `7` in the node `1`. -/
def initAndPush (t : Bool) : List (SystemAction Unit Bool ℕ ℕ) :=
  .call t (.init ()) :: threadSteps t 2 ++ .new t 0 :: threadSteps t 4 ++
    .call t (.push () 7) :: threadSteps t 2 ++ .new t 1 :: threadSteps t 17

/-- The thread `true` pops, and is about to follow the two pointers that it has loaded. -/
def popLoads : List (SystemAction Unit Bool ℕ ℕ) :=
  initAndPush false ++ .call true (.pop ()) :: threadSteps true 7

/-- The run of `popLoads`, with the two pointers that `true` has loaded. -/
theorem run_neverRecycled_new : ∃ log s, newSystem.exec InBounds [] popLoads = some (s, log) ∧
    (s.queues.pcs true).loaded = [⟨some 0, 0⟩, ⟨some 1, 1⟩] ∧ NeverRecycled s := by
  have hloaded : ((newSystem.exec InBounds [] popLoads).any fun p =>
      decide ((p.1.queues.pcs true).loaded = [⟨some 0, 0⟩, ⟨some 1, 1⟩])) = true := by
        decide +kernel
  obtain ⟨⟨s, log⟩, hrun, hmem⟩ := (Option.any_eq_true _ _).1 hloaded
  exact ⟨log, s, hrun, of_decide_eq_true hmem, run_neverRecycled (Run.start.exec hrun)⟩

/-! ## Nodes that come back -/

/-- No node that a thread is to follow was released since the thread entered its critical
section. -/
def NeverReleasedInside (log : List (SystemEvent L T N V)) (s : QueueSystem L T N V) : Prop :=
  ∀ t, ∀ p ∈ (s.queues.pcs t).loaded, ∀ l₀ l₁ v q, RockCoro.epochs (listEvents log) = l₀ ++
    .entered t :: l₁ →
    .exited t ∉ l₁ → .released v q ∈ l₁ → q.ptr ≠ p.ptr

/-- The thread `false` takes the node `0` out and retires it. The thread `true` enters in the next
epoch. After another advance `false` releases the node `0`, gets it again and links it, and `true`
loads it. -/
def comesBack : List (SystemAction Unit Bool ℕ ℕ) :=
  initAndPush false ++ .call false (.pop ()) :: threadSteps false 20 ++
    List.replicate 7 .advanceEpoch ++
    .call true (.pop ()) :: threadSteps true 5 ++ List.replicate 9 .advanceEpoch ++
    .call false (.push () 8) :: threadSteps false 2 ++ .new false 2 :: threadSteps false 21 ++
    .call false (.push () 9) :: threadSteps false 16 ++ threadSteps true 2

/-- The thread `true` enters in the last epoch of 63 bits and loads the node `0`. After the next
advance `false`, which has never been in an epoch, enters in epoch 0, takes the node out, retires it
with the stamp 0 and releases it at once. -/
def popsAtWrap : List (SystemAction Unit Bool ℕ ℕ) :=
  initAndPush true ++ .call true (.pop ()) :: threadSteps true 7 ++
    List.replicate 7 .advanceEpoch ++ .call false (.pop ()) :: threadSteps false 20

/-- The steps of the maintainer in a run. -/
theorem Run.advances {P : QueueSystem L T N V → SystemAction L T N V → QueueSystem L T N V → Prop}
    {s₀ : QueueSystem L T N V} {epochs : EpochBasedReclamation T (TaggedPtr N)}
    (hr : Run P s₀ log s)
    (hP : ∀ s s', P s .advanceEpoch s') (h : Advances s.epochs epochs) :
    Run P s₀ log { s with epochs := epochs } := by
  induction h with
  | refl => exact hr
  | @tail epochs epochs' _ hadvance ih =>
    have hstep : QueueSystem.step { s with epochs := epochs } .advanceEpoch =
        some ({ s with epochs := epochs' }, none) := by
      rw [QueueSystem.step, hadvance]
      rfl
    have hr := ih.step (hP _ _) hstep
    rw [Option.toList_none, List.append_nil] at hr
    exact hr

/-- A node that was released since a thread entered comes back before the thread loads it. When the
epoch has overflown, an assertion of `pop_front` fails. -/
theorem not_neverRecycled :
    (∃ log s, Run InBounds newSystem log s ∧ ¬NeverReleasedInside log s) ∧
      ∃ log s, Run (fun s a _ => s.OneInit a) newSystem log s ∧
        (s.queues.pcs true).Asserts ∧ s.step (.thread true false) = none := by
  constructor
  · have hback : ((newSystem.exec InBounds [] comesBack).any fun p =>
        decide ((p.1.queues.pcs true).loaded = [⟨some 1, 1⟩, ⟨some 0, 1⟩] ∧
          RockCoro.epochs (listEvents p.2) =
          [.entered false, .exited false, .entered false, .retired false ⟨some 0, 0⟩, .exited false,
            .entered true, .entered false, .exited false, .released false ⟨some 0, 0⟩,
            .entered false])) =
        true := by decide +kernel
    obtain ⟨⟨s, log⟩, hrun, hmem⟩ := (Option.any_eq_true _ _).1 hback
    obtain ⟨hloaded, hlog⟩ := of_decide_eq_true hmem
    refine ⟨log, s, Run.start.exec hrun, fun h => ?_⟩
    refine h true ⟨some 0, 1⟩ ?_ [.entered false, .exited false, .entered false,
      .retired false ⟨some 0, 0⟩, .exited false] [.entered false, .exited false,
      .released false ⟨some 0, 0⟩,
      .entered false] false ⟨some 0, 0⟩ hlog (by decide) (by decide) rfl
    rw [hloaded]
    exact List.mem_cons_of_mem _ List.mem_cons_self
  · have hwrap : ((QueueSystem.exec (fun s a _ => s.OneInit a) { newSystem with
        epochs := {
          globalEpoch := UInt64.ofNat (2 ^ 63 - 3 + 2)
          gcEpoch := UInt64.ofNat (2 ^ 63 - 3) } } []
        popsAtWrap).any fun p => (p.1.queues.pcs true == .popAssertFirst () ⟨some 0, 0⟩
        ⟨some 1, 1⟩) &&
          (p.1.step (.thread true false)).isNone) = true := by decide +kernel
    obtain ⟨⟨s, log⟩, hrun, hmem⟩ := (Option.any_eq_true _ _).1 hwrap
    obtain ⟨hpc, hnone⟩ := Bool.and_eq_true_iff.1 hmem
    have hstart : Run (fun s a _ => s.OneInit a) newSystem [] newSystem := .start
    have hr := hstart.advances (fun _ _ => trivial) (advances_init (2 ^ 63 - 3) (by decide))
    refine ⟨log, s, hr.exec hrun, ?_, Option.isNone_iff_eq_none.1 hnone⟩
    rw [eq_of_beq hpc]
    trivial

end QueueSystem

end RockCoro
