import RockCoro.Memory.TSLinkedList.Fifo

/-!
# What the steps of the lists leave

A step of a thread on a list writes to no free node, and changes its own place only.
-/

namespace RockCoro

variable {L T N V : Type} [DecidableEq T] [DecidableEq L] [DecidableEq N]
  {s s' : Queues L T N V} {t : T}
  {e : Option (ListEvent L T N V)} {spurious : Bool} {n : N}

/-- Whether the thread is in its critical section behind a step that is observed by `e`. -/
def insideAfter (t : T) (inside : Bool) : Option (ListEvent L T N V) → Bool
  | some (.epoch (.entered u)) => if u = t then true else inside
  | some (.epoch (.exited u)) => if u = t then false else inside
  | _ => inside

omit [DecidableEq T] in
/-- An exchange of `tail_` touches the tail only. -/
theorem casTail_frame {l : L} {p q : TaggedPtr N} : (s.casTail l p q spurious).pcs = s.pcs ∧
    (s.casTail l p q spurious).free = s.free ∧ (s.casTail l p q spurious).retired = s.retired ∧
    (s.casTail l p q spurious).nodes = s.nodes := by
  unfold Queues.casTail
  split <;> exact ⟨rfl, rfl, rfl, rfl⟩

/-- The nodes that a step retires. -/
def newlyRetired : Option (ListEvent L T N V) → List (TaggedPtr N)
  | some (.epoch (.retired _ p)) => [p]
  | _ => []

/-- The step of the operation is one of the epochs. -/
def ListPc.AtEpoch : ListPc L N V → Prop
  | .pushEnter .. | .popEnter _ | .pushExit .. | .popExit .. | .popRetire .. => True
  | _ => False

/-- What a step of a thread leaves. -/
structure Stays (s s' : Queues L T N V) (t : T) (e : Option (ListEvent L T N V)) : Prop where
  free : s'.free = s.free
  retired : s'.retired = s.retired ++ newlyRetired e
  pcs : ∃ pc, s'.pcs = Function.update s.pcs t pc ∧
    pc.footprint.inside = insideAfter t (s.pcs t).footprint.inside e
  nodes : ∀ n, s'.nodes n ≠ s.nodes n →
    (∃ l v node, s.pcs t = .pushNode l v node ∧ node.ptr = some n) ∨
    ∃ l v node last next, s.pcs t = .pushLink l v node last next ∧ last.ptr = some n
  epoch : ∀ x, e = some (.epoch x) → (s.pcs t).AtEpoch

omit [DecidableEq L] [DecidableEq N] in
/-- A step that changes the thread's place only. -/
theorem stays_setPc {pc : ListPc L N V}
    (hinside : pc.footprint.inside = insideAfter t (s.pcs t).footprint.inside e)
    (hretired : newlyRetired e = []) (hepoch : ∀ x, e = some (.epoch x) → (s.pcs t).AtEpoch) :
    Stays s (s.setPc t pc) t e :=
  ⟨rfl, by rw [hretired, List.append_nil]; rfl, ⟨pc, rfl, hinside⟩, fun _ hne =>
    absurd rfl hne, hepoch⟩

/-- A step that is an exchange of `tail_`. -/
theorem stays_casTail {pc : ListPc L N V} {l : L} {p q : TaggedPtr N}
    (hinside : pc.footprint.inside = (s.pcs t).footprint.inside) :
    Stays s ((s.casTail l p q spurious).setPc t pc) t none := by
  obtain ⟨hpcs, hfree, hretired, hnodes⟩ := casTail_frame (s := s) (l := l) (p := p) (q := q)
  refine ⟨hfree, hretired.trans (List.append_nil _).symm, ⟨pc, ?_, hinside⟩, fun n hne =>
    absurd (congrFun hnodes n) hne, by simp⟩
  change Function.update (s.casTail l p q _).pcs t pc = _
  rw [hpcs]

/-- A step of a thread leaves the free nodes, the other threads and most nodes alone. -/
theorem stays_of_threadStep (hs : s.threadStep t spurious = some (s', e)) : Stays s s' t e := by
  cases hpc : s.pcs t with
  | idle | initGet | pushGet =>
    simp only [Queues.threadStep, hpc] at hs
    cases hs
  | initLoad op =>
    simp only [Queues.threadStep, hpc] at hs
    split at hs
    · cases hs
      exact stays_setPc (by rw [hpc]; rfl) rfl (by simp)
    · cases hs
      refine stays_setPc ?_ rfl (by simp)
      rw [hpc]
      cases op <;> rfl
  | initHead op dummy =>
    simp only [Queues.threadStep, hpc] at hs
    cases hs
    exact ⟨rfl, (List.append_nil _).symm, ⟨_, rfl, by rw [hpc]; rfl⟩, fun _ hne =>
      absurd rfl hne, by simp⟩
  | initTail op dummy =>
    simp only [Queues.threadStep, hpc] at hs
    cases hs
    refine ⟨rfl, (List.append_nil _).symm, ⟨_, rfl, ?_⟩, fun _ hne => absurd rfl hne, by simp⟩
    rw [hpc]
    cases op <;> rfl
  | pushNode l v node =>
    simp only [Queues.threadStep, hpc] at hs
    obtain ⟨m, hm, ⟨⟩⟩ := Option.bind_eq_some_iff.1 hs
    refine ⟨rfl, (List.append_nil _).symm, ⟨_, rfl, by rw [hpc]; rfl⟩, fun n hne =>
      .inl ⟨l, v, node, hpc, ?_⟩,
      by simp⟩
    by_contra hnm
    exact hne (Function.update_of_ne (fun he : n = m => hnm (he.symm ▸ hm)) _ _)
  | pushEnter | popEnter | popExit =>
    simp only [Queues.threadStep, hpc] at hs
    cases hs
    exact stays_setPc (by rw [insideAfter, if_pos rfl]; rfl) rfl fun _ _ => by rw [hpc]; trivial
  | pushExit l v node linked =>
    simp only [Queues.threadStep, hpc] at hs
    cases hs
    refine stays_setPc ?_ rfl fun _ _ => by rw [hpc]; trivial
    rw [insideAfter, if_pos rfl]
    cases linked <;> rfl
  | pushTail | popHead | popTail =>
    simp only [Queues.threadStep, hpc] at hs
    cases hs
    exact stays_setPc (by rw [hpc]; rfl) rfl (by simp)
  | pushNext l v node last =>
    simp only [Queues.threadStep, hpc] at hs
    obtain ⟨m, hm, hs⟩ := Option.bind_eq_some_iff.1 hs
    split at hs
    · cases hs
      exact stays_setPc (by rw [hpc]; rfl) rfl (by simp)
    · cases hs
      exact stays_setPc (by rw [hpc]; rfl) rfl (by simp)
  | pushLink l v node last next =>
    simp only [Queues.threadStep, hpc] at hs
    obtain ⟨m, hm, hs⟩ := Option.bind_eq_some_iff.1 hs
    split at hs
    · cases hs
      refine ⟨rfl, (List.append_nil _).symm, ⟨_, rfl, by rw [hpc]; rfl⟩,
        fun n hne => .inr ⟨l, v, node, last, next, hpc, ?_⟩, by simp⟩
      by_contra hnm
      exact hne (Function.update_of_ne (fun he : n = m => hnm (he.symm ▸ hm)) _ _)
    · cases hs
      exact stays_setPc (by rw [hpc]; rfl) rfl (by simp)
  | pushSwing l v node last =>
    simp only [Queues.threadStep, hpc] at hs
    split at hs
    · cases hs
    · cases hs
      exact stays_casTail (by rw [hpc]; rfl)
  | pushHelp | popHelp =>
    simp only [Queues.threadStep, hpc] at hs
    cases hs
    exact stays_casTail (by rw [hpc]; rfl)
  | pushDone l v node linked =>
    simp only [Queues.threadStep, hpc] at hs
    cases linked with
    | true =>
      cases hs
      exact stays_setPc (by rw [hpc]; rfl) rfl (by simp)
    | false =>
      cases hs
      exact stays_setPc (by rw [hpc]; rfl) rfl (by simp)
  | popAssertFirst l first last | popAssertLast l first last =>
    simp only [Queues.threadStep, hpc] at hs
    obtain ⟨m, hm, hs⟩ := Option.bind_eq_some_iff.1 hs
    split at hs
    · cases hs
    · cases hs
      exact stays_setPc (by rw [hpc]; rfl) rfl (by simp)
  | popNext l first last =>
    simp only [Queues.threadStep, hpc] at hs
    obtain ⟨m, hm, hs⟩ := Option.bind_eq_some_iff.1 hs
    split at hs
    · split at hs
      · cases hs
        exact stays_setPc (by rw [hpc]; rfl) rfl (by simp)
      · cases hs
        exact stays_setPc (by rw [hpc]; rfl) rfl (by simp)
    · split at hs
      · cases hs
        exact stays_setPc (by rw [hpc]; rfl) rfl (by simp)
      · cases hs
        exact stays_setPc (by rw [hpc]; rfl) rfl (by simp)
  | popValue l first next =>
    simp only [Queues.threadStep, hpc] at hs
    obtain ⟨m, hm, ⟨⟩⟩ := Option.bind_eq_some_iff.1 hs
    exact stays_setPc (by rw [hpc]; rfl) rfl (by simp)
  | popCas l first next value =>
    simp only [Queues.threadStep, hpc] at hs
    split at hs
    · cases hs
      exact ⟨rfl, (List.append_nil _).symm, ⟨_, rfl, by rw [hpc]; rfl⟩, fun _ hne =>
        absurd rfl hne, by simp⟩
    · cases hs
      exact stays_setPc (by rw [hpc]; rfl) rfl (by simp)
  | popRetire l first next value =>
    simp only [Queues.threadStep, hpc] at hs
    split at hs
    · cases hs
    · cases hs
      exact ⟨rfl, rfl, ⟨_, rfl, by rw [hpc]; rfl⟩, fun _ hne => absurd rfl hne,
        fun _ _ => by rw [hpc]; trivial⟩
  | popDone l result =>
    simp only [Queues.threadStep, hpc] at hs
    cases result with
    | some r =>
      cases hs
      exact stays_setPc (by rw [hpc]; rfl) rfl (by simp)
    | none =>
      cases hs
      exact stays_setPc (by rw [hpc]; rfl) rfl (by simp)

omit [DecidableEq N] in
/-- A node that the thread has safely loaded is not free. -/
theorem Config.Inv.not_free_of_safe {c : Config L T N V} {live : N → Prop} {l : L} (h : c.Inv live)
    (hn : c.Safe t l n) : c.free n = false := by
  rw [← Bool.not_eq_true]
  intro hfree
  have hfree : c.At n .free := hfree
  rcases hn.mem.1 with hmem | hkept
  · cases h.places.unique (show c.At n (.chain l) from hmem) hfree
  · obtain ⟨p, hp, hcase⟩ := hkept.gone.at
    obtain rfl := h.places.unique hp hfree
    rcases hcase with hcase | ⟨u, hcase⟩ <;> cases hcase

omit [DecidableEq N] in
/-- A node that the thread has safely loaded is not marked as released. -/
theorem Config.Inv.unreleased_of_safe {c : Config L T N V} {live : N → Prop} {l : L}
    (h : c.Inv live) (hn : c.Safe t l n) : (c.nodes n).released = false := by
  rcases hn.mem.1 with hmem | hkept
  · exact h.unreleased n (.chain l) hmem (by simp)
  · obtain ⟨p, hp, hcase⟩ := hkept.gone.at
    refine h.unreleased n p hp ?_
    rcases hcase with rfl | ⟨u, rfl⟩
    · simp
    · simp

/-- The steps of the lists write to no free node. -/
theorem Config.Inv.nodes_of_free {c : Config L T N V} {live : N → Prop} (h : c.Inv live)
    (hs : c.threadStep t spurious = some (s', e)) (hfree : c.free n = true) :
    s'.nodes n = c.nodes n := by
  by_contra hne
  rcases (stays_of_threadStep hs).nodes n hne with ⟨l, v, node, hpc, hn⟩ | ⟨l, v, node, last,
    next, hpc, hn⟩
  · have hheld : c.At n (.held t) := by
      rw [Config.At, Config.footprint, hpc]
      exact hn
    cases h.places.unique hheld (show c.At n .free from hfree)
  · have hok := (h.threads t).pc
    rw [hpc] at hok
    obtain ⟨-, m, rfl, hsafe, -⟩ := hok
    obtain rfl := Option.some.inj hn
    rw [h.not_free_of_safe hsafe] at hfree
    cases hfree

end RockCoro
