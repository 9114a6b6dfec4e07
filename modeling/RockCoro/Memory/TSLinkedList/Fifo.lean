import RockCoro.Memory.TSLinkedList.Ends

/-!
# The lists are linearizable queues

Every step keeps the invariant, if no node is released while a thread is in its critical section
that may have loaded it, and a list is initialized by one thread.
-/

namespace RockCoro

open AtomicObject AtomicObject.Fifo EpochBasedReclamation

variable {L T N V : Type} [DecidableEq L] [DecidableEq T]

namespace Config

variable {c : Config L T N V} {t u : T} {l : L} {n m : N} {live : N → Prop} {pc : ListPc L N V}

/-! ## What a load gives -/

/-- A node of a list may be used by any thread. -/
theorem Inv.safe_of_mem (h : c.Inv live) (hn : n ∈ c.chain l) : c.Safe t l n := by
  have hok := h.list l (List.ne_nil_of_mem hn)
  obtain ⟨l₁, l₂, hl⟩ := List.append_of_mem hn
  have hlinked := hok.linked
  rw [hl] at hlinked
  refine ⟨n :: l₂, hlinked.suffix, fun m hm => ?_⟩
  have hmem : m ∈ c.chain l := hl ▸ List.mem_append_right _ hm
  exact ⟨.inl hmem, hok.next m hmem⟩

/-- The tail of a list that is initialized may be used, and is reached. -/
theorem Inv.pcOk_tail (h : c.Inv live) (hl : c.chain l ≠ []) :
    ∃ n, (c.lists l).tail = c.ref n ∧ c.Safe t l n ∧ c.Reached l n := by
  obtain ⟨l₁, n, l₂, htail, hsplit, -⟩ := (h.list l hl).tail
  have hn : n ∈ c.chain l := hsplit ▸ List.mem_append_right _ List.mem_cons_self
  refine ⟨n, htail, h.safe_of_mem hn, fun r₁ m r₂ hr hm hmem => ?_⟩
  obtain rfl : n = m := Option.some.inj (congrArg TaggedPtr.ptr (htail.symm.trans hm))
  have hnodup := h.nodup_chain l
  rw [hr] at hnodup
  exact (List.nodup_cons.1 (List.nodup_middle.1 hnodup)).1 (List.mem_append_right _ hmem)

/-- The head of a list that is initialized may be used, and is first. -/
theorem Inv.pcOk_head (h : c.Inv live) (hl : c.chain l ≠ []) :
    ∃ n, (c.lists l).head = c.ref n ∧ c.Safe t l n ∧ c.First l n := by
  obtain ⟨n, r, hr⟩ := List.exists_cons_of_ne_nil hl
  have hhead : (c.chain l).head? = some n := by rw [hr]; rfl
  refine ⟨n, ?_, h.safe_of_mem (List.mem_of_mem_head? hhead), fun _ => hhead⟩
  rw [(h.list l hl).head, hhead]
  rfl

/-- The list is empty when the first node has no successor. -/
theorem Inv.contents_nil (h : c.Inv live) (hn : c.Safe t l n) (hfirst : c.First l n)
    (hnull : c.next n = none) : c.contents l = [] := by
  obtain ⟨l₁, hl⟩ := h.last_of_safe hn hnull
  have hhead := hfirst (hl ▸ List.mem_append_right _ (List.mem_singleton_self _))
  obtain ⟨r, hr⟩ := List.head?_eq_some_iff.1 hhead
  obtain ⟨rfl, -⟩ := h.split_unique (show _ = [] ++ _ :: r from hr) hl
  rw [contents, hl]
  rfl

end Config

/-! ## Runs -/

/-- No thread is in its critical section since before the node was retired. -/
def Reclaims (log : List (ListEvent L T N V)) : ListAction L T N V → Prop
  | .release _ ptr => ∀ u, ¬Protects (epochs log) u ptr
  | _ => True

/-- The list whose `head_` the thread is about to check in `init`. -/
def ListPc.checks : ListPc L N V → Option L
  | .initLoad op => some op.list
  | _ => none

/-- When a thread checks `head_` in `init`, no other thread is behind its own check there. -/
def OneInit (s : Queues L T N V) : ListAction L T N V → Prop
  | .thread t _ => ∀ l ∈ (s.pcs t).checks, ∀ u ≠ t, (s.pcs u).footprint.initializes ≠ some l
  | _ => True

instance [Fintype T] (s : Queues L T N V) : DecidablePred (OneInit s)
  | .thread t _ => inferInstanceAs (Decidable
      (∀ l ∈ (s.pcs t).checks, ∀ u ≠ t, (s.pcs u).footprint.initializes ≠ some l))
  | .call .. | .get .. | .release .. | .write .. => instDecidableTrue

/-- The runs from `s₀` whose steps all meet `P`. A node is released when no thread can have it. -/
inductive Queues.Run [DecidableEq N] (P : Queues L T N V → ListAction L T N V → Prop)
    (s₀ : Queues L T N V) : List (ListEvent L T N V) → Queues L T N V → Prop
  | start : Run P s₀ [] s₀
  | step {log s a s' e} (hr : Run P s₀ log s) (ha : Reclaims log a) (hp : P s a)
      (hs : s.step a = some (s', e)) : Run P s₀ (log ++ e.toList) s'

namespace Config

variable {c : Config L T N V} {t u : T} {l : L} {n m : N} {live : N → Prop} {pc : ListPc L N V}
  {e : Option (ListEvent L T N V)} {s' : Queues L T N V} [DecidableEq N]

/-- A configuration after a step. -/
structure Follows (live : N → Prop) (c : Config L T N V) (s' : Queues L T N V)
    (e : Option (ListEvent L T N V)) (c' : Config L T N V) : Prop where
  state : c'.toQueues = s'
  log : c'.log = c.log ++ e.toList
  inv : c'.Inv live
  /-- A list that is initialized stays so. -/
  chain : ∀ l, c.chain l ≠ [] → c'.chain l ≠ []
  /-- The first node of a list that is not yet initialized is that of the store in `init`. -/
  head : ∀ l, c'.chain l = [] → (∀ p, e ≠ some (.dummy l p)) → (c'.lists l).head = (c.lists l).head
  dummy : ∀ l p, e = some (.dummy l p) →
    p ≠ {} ∧ c.chain l = [] ∧ ((c.lists l).head = {} ∨ (c.lists l).head = p) ∧ (c'.lists l).head = p

omit [DecidableEq N] in
/-- A step that changes nothing but the thread's place. -/
theorem Inv.follows_move (h : c.Inv live) (hpc : pc.footprint = (c.pcs t).footprint)
    (hok : c.PcOk t pc) :
    ∃ c', Follows live c (c.setPc t pc) none c' :=
  ⟨c.go t pc none, rfl, rfl, h.move hpc hok, fun _ => id, fun _ _ _ => rfl, fun _ _ => nofun⟩

omit [DecidableEq N] in
/-- A thread enters its critical section. -/
theorem Inv.follows_enter {f : Footprint L N V} (h : c.Inv live) (hpc : c.footprint t = f)
    (hpc' : pc.footprint = { f with inside := true })
    (hok : (c.go t pc (some (.epoch (.entered t)))).PcOk t pc) :
    ∃ c', Follows live c (c.setPc t pc) (some (.epoch (.entered t))) c' := by
  have hlog : epochs (c.log ++ [.epoch (.entered t)]) = epochs c.log ++ [.entered t] :=
    epochs_append
  have hthread := h.threads t
  refine ⟨c.go t pc _, rfl, rfl, h.go ?_ ?_ ?_ (fun l hl => ?_) (fun l hl => ?_)
    (fun _ => hlog ▸ inside_entered) hok (fun _ _ => nofun) ?_ ?_, fun _ => id,
    fun _ _ _ => rfl, fun _ _ => nofun⟩
  · rw [hpc, hpc']
  · rw [hpc, hpc']
  · rw [hpc, hpc']
  · rw [hpc'] at hl
    have hinit : (c.footprint t).initializes = some l := by rw [hpc]; exact hl
    exact ⟨hthread.initializes l hinit, fun u hu hul => hu (h.alone u t l hul hinit)⟩
  · rw [hpc'] at hl
    exact hthread.past l (by rw [hpc]; exact hl)
  · rw [hpc, hpc']
  · have hops : operations (c.log ++ [.epoch (.entered t)]) = operations c.log :=
      operations_append.trans (List.append_nil _)
    exact hops ▸ h.trace_same (by rw [hpc, hpc'])

omit [DecidableEq N] in
/-- A thread leaves its critical section. -/
theorem Inv.follows_exit {f : Footprint L N V} (h : c.Inv live) (hpc : c.footprint t = f)
    (hpc' : pc.footprint = { f with inside := false }) :
    ∃ c', Follows live c (c.setPc t pc) (some (.epoch (.exited t))) c' := by
  have hthread := h.threads t
  refine ⟨c.go t pc _, rfl, rfl, h.go ?_ ?_ ?_ (fun l hl => ?_) (fun l hl => ?_) (fun hin => ?_)
    (pcOk_of_not_inside (by rw [hpc'])) (fun u hu he => ?_) ?_ ?_, fun _ => id,
    fun _ _ _ => rfl, fun _ _ => nofun⟩
  · rw [hpc, hpc']
  · rw [hpc, hpc']
  · rw [hpc, hpc']
  · rw [hpc'] at hl
    have hinit : (c.footprint t).initializes = some l := by rw [hpc]; exact hl
    exact ⟨hthread.initializes l hinit, fun u hu hul => hu (h.alone u t l hul hinit)⟩
  · rw [hpc'] at hl
    exact hthread.past l (by rw [hpc]; exact hl)
  · rw [hpc'] at hin
    cases hin
  · cases he
    exact hu rfl
  · rw [hpc, hpc']
  · have hops : operations (c.log ++ [.epoch (.exited t)]) = operations c.log :=
      operations_append.trans (List.append_nil _)
    exact hops ▸ h.trace_same (by rw [hpc, hpc'])

omit [DecidableEq N] in
/-- An event of the queue: the operation is called, takes effect without a change of the queue, or
returns. -/
theorem Inv.follows_op {f g : Footprint L N V} {x : Event T (QueueOp L V) (Option V)}
    (h : c.Inv live)
    (hpc : c.footprint t = f) (hpc' : pc.footprint = g) (hholds : g.holds = f.holds)
    (hgiven : g.given = f.given) (hpopped : g.popped = f.popped) (hstored : g.stored = f.stored)
    (hinit : g.initializes = none) (hpast : ∀ l, g.past = some l → f.past = some l)
    (hinside : g.inside = true → f.inside = true)
    (hok : (c.go t pc (some (.op x))).PcOk t pc)
    (hstep : AtomicObject.Step queue ⟨c.contents, fun u => (c.footprint u).phase⟩ x
      ⟨c.contents, Function.update (fun u => (c.footprint u).phase) t g.phase⟩) :
    ∃ c', Follows live c (c.setPc t pc) (some (.op x)) c' := by
  have hops : operations (c.log ++ [.op x]) = operations c.log ++ [x] := operations_append
  have hthread := h.threads t
  refine ⟨c.go t pc _, rfl, rfl, h.go ?_ ?_ ?_ (fun l hl => ?_) (fun l hl => ?_) (fun hin => ?_) hok
    (fun _ _ => nofun) ?_ ?_, fun _ => id, fun _ _ _ => rfl, fun _ _ => nofun⟩
  · rw [hpc, hpc', hholds]
  · rw [hpc, hpc', hgiven]
  · rw [hpc, hpc', hpopped]
  · rw [hpc', hinit] at hl
    cases hl
  · rw [hpc'] at hl
    exact hthread.past l (by rw [hpc]; exact hpast l hl)
  · rw [hpc'] at hin
    exact inside_append (e := some _) (hthread.inside (by rw [hpc]; exact hinside hin)) nofun
  · rw [hpc, hpc', hstored]
  · rw [hpc']
    exact hops ▸ h.trace.snoc hstep

/-- An exchange of `tail_`, whether or not it succeeds. -/
theorem Inv.follows_casTail {last next : TaggedPtr N} {spurious : Bool} (h : c.Inv live)
    (hswings : c.Swings t l last next) (hpc : pc.footprint = (c.pcs t).footprint)
    (hok : ∀ c' : Config L T N V, c'.PcOk t pc) :
    ∃ c', Follows live c ((c.casTail l last next spurious).setPc t pc) none c' := by
  rw [Queues.casTail]
  split
  · rename_i htail
    refine ⟨(c.setTail l next).go t pc none, rfl, rfl, (h.setTail hswings htail.1).move hpc (hok _),
      fun _ => id, fun l' _ _ => ?_, fun _ _ => nofun⟩
    change ((c.setTail l next).lists l').head = (c.lists l').head
    rcases eq_or_ne l' l with rfl | hne
    · rw [setTail_lists_self]
    · exact congrArg TSLinkedList.head (setTail_lists_of_ne hne)
  · exact h.follows_move hpc (hok c)

omit [DecidableEq N] in
/-- The check of `head_` in `init`. -/
theorem Inv.follows_initLoad {op : ListOp L V} (h : c.Inv live) (hpc : c.pcs t = .initLoad op)
    (hone : ∀ u ≠ t, (c.pcs u).footprint.initializes ≠ some op.list) (pc : ListPc L N V)
    (hpc' : (c.lists op.list).head.ptr = none ∧ pc = .initGet op ∨
      (c.lists op.list).head.ptr ≠ none ∧ pc = Queues.afterInit op) :
    ∃ c', Follows live c (c.setPc t pc) none c' := by
  have hfoot : c.footprint t = (ListPc.initLoad op).footprint := congrArg _ hpc
  obtain ⟨past, hpast, hafter⟩ := footprint_afterInit (N := N) op
  obtain ⟨i, p, hg, hi, hp⟩ :
    ∃ i p, pc.footprint = { phase := op.phase, initializes := i, past := p } ∧
      (∀ l, i = some l → l = op.list ∧ (c.lists op.list).head.ptr = none) ∧
      ∀ l, p = some l → l = op.list ∧ (c.lists op.list).head.ptr ≠ none := by
    rcases hpc' with ⟨hnull, rfl⟩ | ⟨hnull, rfl⟩
    · exact ⟨_, none, rfl, fun l hl => ⟨(Option.some.inj hl).symm, hnull⟩, nofun⟩
    · exact ⟨none, past, hafter, nofun, fun l hl => ⟨hpast l hl, hnull⟩⟩
  have hlog : c.log ++ (none : Option (ListEvent L T N V)).toList = c.log := List.append_nil _
  refine ⟨c.go t pc none, rfl, rfl, h.go ?_ ?_ ?_ (fun l hl => ?_) (fun l hl => ?_) ?_
    (pcOk_of_not_inside (by rw [hg])) (fun _ _ => nofun) ?_ ?_, fun _ => id, fun _ _ _ => rfl,
    fun _ _ => nofun⟩
  · rw [hg, hfoot]; rfl
  · rw [hg, hfoot]; rfl
  · rw [hg, hfoot]; rfl
  · rw [hg] at hl
    obtain ⟨rfl, hnull⟩ := hi l hl
    refine ⟨?_, hone⟩
    by_contra hne
    obtain ⟨n, hhead, -⟩ := h.pcOk_head (t := t) hne
    rw [hhead] at hnull
    cases hnull
  · rw [hg] at hl
    obtain ⟨rfl, hnull⟩ := hp l hl
    intro hnil
    rcases (h.fresh op.list hnil).2 with hhead | ⟨u, hu⟩
    · exact hnull (by rw [hhead])
    · refine hone u ?_ (initializes_of_stored hu)
      rintro rfl
      rw [hfoot] at hu
      cases hu
  · rw [hg]
    nofun
  · rw [hg, hfoot]; rfl
  · rw [hlog]
    exact h.trace_same (by rw [hg, hfoot]; rfl)

/-- The store of the dummy node to `head_`. -/
theorem Inv.follows_initHead {op : ListOp L V} {dummy : TaggedPtr N} {spurious : Bool}
    (h : c.Inv live)
    (hpc : c.pcs t = .initHead op dummy) (hs : c.threadStep t spurious = some (s', e)) :
    ∃ c', Follows live c s' e c' := by
  simp only [Queues.threadStep, hpc] at hs
  cases hs
  refine ⟨_, rfl, rfl, h.initHead hpc, fun _ => id, fun l _ he => ?_, fun l p he => ?_⟩
  · rw [initHead_lists_of_ne]
    rintro rfl
    exact he dummy rfl
  · obtain ⟨rfl, rfl⟩ := ListEvent.dummy.inj (Option.some.inj he)
    have hnil : c.chain op.list = [] :=
      (h.threads t).initializes op.list (by rw [footprint, hpc]; rfl)
    obtain ⟨n, hn, -⟩ := (h.threads t).held dummy (by rw [footprint, hpc]; rfl)
    refine ⟨by rw [hn]; exact ref_ne_null, hnil,
      .inl ((h.fresh op.list hnil).2.resolve_right fun hstored => ?_),
      congrArg TSLinkedList.head initHead_lists_self⟩
    -- the one thread in `init` has not stored `head_`
    obtain ⟨u, hu⟩ := hstored
    obtain rfl := h.alone u t op.list (initializes_of_stored hu) (by rw [footprint, hpc]; rfl)
    rw [footprint, hpc] at hu
    cases hu

/-- The store of the dummy node to `tail_`. -/
theorem Inv.follows_initTail {op : ListOp L V} {dummy : TaggedPtr N} {spurious : Bool}
    (h : c.Inv live)
    (hpc : c.pcs t = .initTail op dummy) (hs : c.threadStep t spurious = some (s', e)) :
    ∃ c', Follows live c s' e c' := by
  simp only [Queues.threadStep, hpc] at hs
  cases hs
  obtain ⟨n, hinv⟩ := h.initTail hpc
  refine ⟨_, rfl, rfl, hinv, fun l hl => ?_, fun l _ he => ?_, fun l p he => ?_⟩
  · rcases eq_or_ne l op.list with rfl | hne
    · rw [initTail_chain_self]
      exact List.cons_ne_nil _ _
    · rwa [initTail_chain_of_ne hne]
  · rw [initTail_lists_of_ne]
    rintro rfl
    exact he dummy rfl
  · obtain ⟨rfl, rfl⟩ := ListEvent.dummy.inj (Option.some.inj he)
    have hhead := h.stored t op.list dummy (by rw [footprint, hpc]; rfl)
    obtain ⟨n, hn, -⟩ := (h.threads t).held dummy (by rw [footprint, hpc]; rfl)
    refine ⟨by rw [hn]; exact ref_ne_null,
      (h.threads t).initializes op.list (by rw [footprint, hpc]; rfl),
      .inr hhead, ?_⟩
    rw [initTail_lists_self]
    exact hhead

/-- The exchange that links the new node. -/
theorem Inv.follows_pushLink {l : L} {v : V} {node last next : TaggedPtr N} {spurious : Bool}
    (h : c.Inv live)
    (hpc : c.pcs t = .pushLink l v node last next) (hs : c.threadStep t spurious = some (s', e)) :
    ∃ c', Follows live c s' e c' := by
  simp only [Queues.threadStep, hpc] at hs
  obtain ⟨n, hn, hs⟩ := Option.bind_eq_some_iff.1 hs
  split at hs
  · rename_i hcas
    cases hs
    obtain ⟨x, rfl, hinv⟩ := h.link hpc hn hcas.1
    refine ⟨_, rfl, rfl, hinv, fun l' hl => ?_, fun _ _ _ => rfl, by simp⟩
    rcases eq_or_ne l' l with rfl | hne
    · rw [link_chain_self]
      exact List.append_ne_nil_of_right_ne_nil _ (List.cons_ne_nil _ _)
    · rwa [link_chain_of_ne hne]
  · cases hs
    exact h.follows_move (by rw [hpc]; rfl) trivial

/-- The load of the next node in `pop_front`, where the list may turn out to be empty. -/
theorem Inv.follows_popNext {l : L} {first last : TaggedPtr N} {spurious : Bool} (h : c.Inv live)
    (hpc : c.pcs t = .popNext l first last) (hs : c.threadStep t spurious = some (s', e)) :
    ∃ c', Follows live c s' e c' := by
  have hok : c.PcOk t (c.pcs t) := (h.threads t).pc
  rw [hpc] at hok
  obtain ⟨n, m, rfl, rfl, hn, hfirst, hm, hpassed⟩ := hok
  simp only [Queues.threadStep, hpc] at hs
  obtain ⟨k, hk, hs⟩ := Option.bind_eq_some_iff.1 hs
  obtain rfl := Option.some.inj hk
  split at hs
  · rename_i hnm
    obtain rfl := Option.some.inj hnm
    split at hs
    · rename_i hnull
      cases hs
      have hnil := h.contents_nil hn hfirst hnull
      have hphase : (c.footprint t).phase = .pending (.pop l) := by rw [footprint, hpc]; rfl
      have happly : queue.apply (.pop l) c.contents = (c.contents, none) := by
        refine Prod.ext ?_ (congrArg List.head? hnil)
        refine (Function.update_eq_iff ..).2 ⟨?_, fun _ _ => rfl⟩
        change (c.contents l).tail = c.contents l
        rw [hnil]
        rfl
      exact h.follows_op (congrArg ListPc.footprint hpc) rfl rfl rfl rfl rfl rfl (fun _ => id)
        (fun _ => rfl) trivial
        (.commit hphase happly)
    · rename_i hnull
      cases hs
      exact h.follows_move (by rw [hpc]; rfl) ⟨hnull, n, rfl, hn, rfl⟩
  · rename_i hnm
    have hne : n ≠ m := fun he => hnm (congrArg some he)
    split at hs
    · rename_i hnull
      cases hs
      obtain ⟨k, hk⟩ := Option.ne_none_iff_exists'.1 hnull
      refine h.follows_move (by rw [hpc]; rfl) ⟨n, k, rfl, ?_, hn, hfirst, hpassed hne, rfl⟩
      rw [hn.mem.2, Queues.next, hk]
      rfl
    · cases hs
      exact h.follows_move (by rw [hpc]; rfl) trivial

/-- The exchange that takes the first node. -/
theorem Inv.follows_popCas {l : L} {first next : TaggedPtr N} {value : Option V} {spurious : Bool}
    (h : c.Inv live)
    (hpc : c.pcs t = .popCas l first next value) (hs : c.threadStep t spurious = some (s', e)) :
    ∃ c', Follows live c s' e c' := by
  have hok : c.PcOk t (c.pcs t) := (h.threads t).pc
  rw [hpc] at hok
  simp only [Queues.threadStep, hpc] at hs
  split at hs
  · rename_i hhead
    cases hs
    obtain ⟨n, m, r, -, -, hr, -⟩ := h.head_split hok.1 hhead
    have hchain : ∀ pc, (c.takeHead t pc l next value).chain l ≠ [] := by
      intro pc
      rw [takeHead_chain_self, hr]
      exact List.cons_ne_nil _ _
    refine ⟨_, rfl, rfl, h.takeHead hpc hhead, fun l' hl => ?_, fun l' hl _ => ?_, by simp⟩
    · rcases eq_or_ne l' l with rfl | hne
      · exact hchain _
      · rwa [takeHead_chain_of_ne hne]
    · rw [takeHead_lists_of_ne]
      rintro rfl
      exact hchain _ hl
  · cases hs
    exact h.follows_move (by rw [hpc]; rfl) trivial

/-- A step of a thread leads to a configuration with the invariant; one case for each place in the
code. -/
theorem Inv.follows_threadStep {spurious : Bool} (h : c.Inv live)
    (hone : OneInit c.toQueues (.thread t spurious)) (hs : c.threadStep t spurious = some (s', e)) :
    ∃ c', Follows live c s' e c' := by
  have hok : c.PcOk t (c.pcs t) := (h.threads t).pc
  have hpast : ∀ l, (c.footprint t).past = some l → c.chain l ≠ [] := (h.threads t).past
  cases hpc : c.pcs t with
  | idle | initGet | pushGet =>
    simp only [Queues.threadStep, hpc] at hs
    cases hs
  | initLoad op =>
    simp only [Queues.threadStep, hpc] at hs
    split at hs
    · cases hs
      exact h.follows_initLoad hpc (hone _ (by rw [hpc]; rfl)) _ (.inl ⟨‹_›, rfl⟩)
    · cases hs
      exact h.follows_initLoad hpc (hone _ (by rw [hpc]; rfl)) _ (.inr ⟨‹_›, rfl⟩)
  | initHead op dummy => exact h.follows_initHead hpc hs
  | initTail op dummy => exact h.follows_initTail hpc hs
  | pushNode l v node =>
    simp only [Queues.threadStep, hpc] at hs
    obtain ⟨n, hn, ⟨⟩⟩ := Option.bind_eq_some_iff.1 hs
    exact ⟨c.pushNode t l v node n, rfl, (List.append_nil _).symm, h.pushNode hpc hn, fun _ => id,
      fun _ _ _ => rfl, by simp⟩
  | pushEnter l v node =>
    simp only [Queues.threadStep, hpc] at hs
    cases hs
    exact h.follows_enter (congrArg ListPc.footprint hpc) rfl trivial
  | pushTail l v node =>
    simp only [Queues.threadStep, hpc] at hs
    cases hs
    refine h.follows_move (by rw [hpc]; rfl) (h.pcOk_tail (hpast l ?_))
    rw [footprint, hpc]
    rfl
  | pushNext l v node last =>
    rw [hpc] at hok
    obtain ⟨n, rfl, hsafe, hreached⟩ := hok
    simp only [Queues.threadStep, hpc] at hs
    obtain ⟨k, hk, hs⟩ := Option.bind_eq_some_iff.1 hs
    obtain rfl := Option.some.inj hk
    split at hs
    · rename_i hnull
      cases hs
      refine h.follows_move (by rw [hpc]; rfl) ⟨?_, n, rfl, hsafe, hreached⟩
      rw [hsafe.mem.2, Queues.next, hnull]
      rfl
    · rename_i hnull
      cases hs
      exact h.follows_move (by rw [hpc]; rfl) ⟨hnull, n, rfl, hsafe, rfl⟩
  | pushLink l v node last next => exact h.follows_pushLink hpc hs
  | pushSwing l v node last =>
    rw [hpc] at hok
    simp only [Queues.threadStep, hpc] at hs
    split at hs
    · cases hs
    · cases hs
      exact h.follows_casTail hok (by rw [hpc]; rfl) fun _ => trivial
  | pushHelp l v node last next =>
    rw [hpc] at hok
    simp only [Queues.threadStep, hpc] at hs
    cases hs
    exact h.follows_casTail hok (by rw [hpc]; rfl) fun _ => trivial
  | pushExit l v node linked =>
    simp only [Queues.threadStep, hpc] at hs
    cases hs
    cases linked with
    | false => exact h.follows_exit (congrArg ListPc.footprint hpc) rfl
    | true => exact h.follows_exit (congrArg ListPc.footprint hpc) rfl
  | pushDone l v node linked =>
    simp only [Queues.threadStep, hpc] at hs
    cases linked with
    | false =>
      cases hs
      exact h.follows_move (by rw [hpc]; rfl) trivial
    | true =>
      cases hs
      have hphase : (c.footprint t).phase = .done (.push l v) none := by rw [footprint, hpc]; rfl
      exact h.follows_op (congrArg ListPc.footprint hpc) rfl rfl rfl rfl rfl rfl
        (fun _ he => by cases he) (fun he => by cases he) trivial (.ret hphase)
  | popEnter l =>
    simp only [Queues.threadStep, hpc] at hs
    cases hs
    exact h.follows_enter (congrArg ListPc.footprint hpc) rfl trivial
  | popHead l =>
    simp only [Queues.threadStep, hpc] at hs
    cases hs
    refine h.follows_move (by rw [hpc]; rfl) (h.pcOk_head (hpast l ?_))
    rw [footprint, hpc]
    rfl
  | popTail l first =>
    rw [hpc] at hok
    obtain ⟨n, rfl, hsafe, hfirst⟩ := hok
    simp only [Queues.threadStep, hpc] at hs
    cases hs
    obtain ⟨m, htail, hm, -⟩ := h.pcOk_tail (t := t) (h.chain_ne_nil hsafe)
    refine h.follows_move (by rw [hpc]; rfl) ⟨n, m, rfl, htail, hsafe, hfirst, hm, fun hne _ => ?_⟩
    rw [htail]
    exact fun he => hne (Option.some.inj he).symm
  | popAssertFirst l first last =>
    rw [hpc] at hok
    simp only [Queues.threadStep, hpc] at hs
    obtain ⟨n, -, hs⟩ := Option.bind_eq_some_iff.1 hs
    split at hs
    · cases hs
    · cases hs
      exact h.follows_move (by rw [hpc]; rfl) hok
  | popAssertLast l first last =>
    rw [hpc] at hok
    simp only [Queues.threadStep, hpc] at hs
    obtain ⟨n, -, hs⟩ := Option.bind_eq_some_iff.1 hs
    split at hs
    · cases hs
    · cases hs
      exact h.follows_move (by rw [hpc]; rfl) hok
  | popNext l first last => exact h.follows_popNext hpc hs
  | popHelp l last next =>
    rw [hpc] at hok
    simp only [Queues.threadStep, hpc] at hs
    cases hs
    exact h.follows_casTail hok (by rw [hpc]; rfl) fun _ => trivial
  | popValue l first next =>
    rw [hpc] at hok
    simp only [Queues.threadStep, hpc] at hs
    obtain ⟨n, hn, hs⟩ := Option.bind_eq_some_iff.1 hs
    cases hs
    refine h.follows_move (by rw [hpc]; rfl) ⟨hok, fun k hk => ?_⟩
    rw [Option.some.inj (hn.symm.trans hk)]
  | popCas l first next value => exact h.follows_popCas hpc hs
  | popRetire l first next value =>
    simp only [Queues.threadStep, hpc] at hs
    split at hs
    · cases hs
    · cases hs
      exact ⟨_, rfl, rfl, h.retire hpc, fun _ => id, fun _ _ _ => rfl, by simp⟩
  | popExit l result =>
    simp only [Queues.threadStep, hpc] at hs
    cases hs
    exact h.follows_exit (congrArg ListPc.footprint hpc) rfl
  | popDone l result =>
    simp only [Queues.threadStep, hpc] at hs
    cases result with
    | none =>
      cases hs
      exact h.follows_move (by rw [hpc]; rfl) trivial
    | some r =>
      cases hs
      have hphase : (c.footprint t).phase = .done (.pop l) r := by rw [footprint, hpc]; rfl
      exact h.follows_op (congrArg ListPc.footprint hpc) rfl rfl rfl rfl rfl rfl
        (fun _ he => by cases he) (fun he => by cases he) trivial (.ret hphase)

/-- A step leads to a configuration with the invariant. -/
theorem Inv.follows {a : ListAction L T N V} (h : c.Inv live) (ha : Reclaims c.log a)
    (hp : OneInit c.toQueues a) (hs : c.step a = some (s', e)) : ∃ c', Follows live c s' e c' := by
  cases a with
  | call t op =>
    simp only [Queues.step] at hs
    split at hs
    · rename_i hpc
      have hphase : (c.footprint t).phase = .idle := by rw [footprint, hpc]; rfl
      cases op with
      | init l =>
        cases hs
        exact h.follows_move (by rw [hpc]; rfl) trivial
      | push l v | pop l =>
        cases hs
        exact h.follows_op (congrArg ListPc.footprint hpc) rfl rfl rfl rfl rfl rfl
          (fun _ he => by cases he) (fun he => by cases he) trivial (.call hphase)
    · cases hs
  | thread t spurious => exact h.follows_threadStep hp hs
  | get t ptr =>
    simp only [Queues.step, Queues.get] at hs
    obtain ⟨s₁, hs₁, ⟨⟩⟩ := Option.map_eq_some_iff.1 hs
    obtain ⟨n, hn, hs₁⟩ := Option.bind_eq_some_iff.1 hs₁
    split at hs₁
    · rename_i hok
      obtain ⟨hfree, hreleased, hnext⟩ := hok
      split at hs₁
      · rename_i op hpc
        cases hs₁
        exact ⟨c.get t (.initHead op ptr) ptr n, rfl, (List.append_nil _).symm,
          h.get hn hfree hreleased hnext (congrArg ListPc.footprint hpc) rfl, fun _ => id,
          fun _ _ _ => rfl, by simp⟩
      · rename_i l v hpc
        cases hs₁
        exact ⟨c.get t (.pushNode l v ptr) ptr n, rfl, (List.append_nil _).symm,
          h.get hn hfree hreleased hnext (congrArg ListPc.footprint hpc) rfl, fun _ => id,
          fun _ _ _ => rfl, by simp⟩
      · cases hs₁
    · cases hs₁
  | release t ptr =>
    simp only [Queues.step] at hs
    obtain ⟨n, hn, hs⟩ := Option.bind_eq_some_iff.1 hs
    split at hs
    · rename_i hmem
      cases hs
      exact ⟨c.release t ptr n, rfl, rfl, h.release hmem hn ha, fun _ => id, fun _ _ _ => rfl,
        by simp⟩
    · cases hs
  | write t n node =>
    simp only [Queues.step] at hs
    split at hs
    · rename_i hfree
      cases hs
      exact ⟨c.write n node, rfl, (List.append_nil _).symm, h.write t hfree, fun _ => id,
        fun _ _ _ => rfl, by simp⟩
    · cases hs

end Config

/-! ### The first state -/

/-- No operation is in progress. A list is new, or it is initialized and has its dummy node. -/
structure Queues.Starts (s : Queues L T N V) : Prop where
  pcs : ∀ t, s.pcs t = .idle
  retired : s.retired = []
  lists : ∀ l, s.lists l = {} ∨ ∃ n, (s.lists l).head.ptr = some n ∧
    (s.lists l).tail = (s.lists l).head ∧
    (s.nodes n).next = {} ∧ (s.nodes n).released = false ∧ s.free n = false
  distinct : ∀ l l' n, (s.lists l).head.ptr = some n → (s.lists l').head.ptr = some n → l = l'

open Classical in
/-- The configuration in which a run starts. -/
noncomputable def Queues.config (s : Queues L T N V) : Config L T N V where
  toQueues := s
  log := []
  chain l := (s.lists l).head.ptr.toList
  tag n := if h : ∃ l, (s.lists l).head.ptr = some n then (s.lists h.choose).head.tag else 0

section
variable {s : Queues L T N V}
omit [DecidableEq L] [DecidableEq T]

/-- At the start the chain of a list is its dummy node, if it has one. -/
theorem Queues.mem_chain_config {l : L} {n : N} :
    n ∈ s.config.chain l ↔ (s.lists l).head.ptr = some n := Option.mem_toList

/-- At the start no thread has anything. -/
theorem Queues.Starts.footprint (h : s.Starts) (t : T) : s.config.footprint t = {} :=
  congrArg ListPc.footprint (h.pcs t)

/-- The dummy node has the tag of its pointer. -/
theorem Queues.Starts.head_eq (h : s.Starts) {l : L} {n : N} (hn : (s.lists l).head.ptr = some n) :
    (s.lists l).head = s.config.ref n := by
  have hex : ∃ l, (s.lists l).head.ptr = some n := ⟨l, hn⟩
  have htag : s.config.tag n = (s.lists l).head.tag := by
    refine (dif_pos hex).trans ?_
    rw [h.distinct _ l n hex.choose_spec hn]
  rw [Config.ref, htag, ← hn]

/-- A list that is initialized has its dummy node only. -/
theorem Queues.Starts.chain_eq (h : s.Starts) {l : L} {n : N} (hn : n ∈ s.config.chain l) :
    s.config.chain l = [n] ∧ (s.lists l).tail = s.config.ref n ∧
      (s.nodes n).next = {} ∧ (s.nodes n).released = false ∧ s.free n = false := by
  rw [mem_chain_config] at hn
  rcases h.lists l with hl | ⟨m, hm, htail, hnode⟩
  · rw [hl] at hn
    cases hn
  · obtain rfl := Option.some.inj (hm.symm.trans hn)
    exact ⟨congrArg Option.toList hn, htail.trans (h.head_eq hm), hnode⟩

/-- At the start a node is in a chain or free. -/
theorem Queues.Starts.at_cases (h : s.Starts) {n : N} {p : Config.Place L T}
    (hp : s.config.At n p) :
    (∃ l, p = .chain l ∧ n ∈ s.config.chain l) ∨ p = .free ∧ s.free n = true := by
  cases p with
  | chain l => exact .inl ⟨l, rfl, hp⟩
  | held t | popped t =>
    rw [Config.At, h.footprint] at hp
    cases hp
  | retired =>
    obtain ⟨q, hq, -⟩ := hp
    change q ∈ s.retired at hq
    rw [h.retired] at hq
    cases hq
  | free => exact .inr ⟨rfl, hp⟩

/-- At the start every node is at one place at most. -/
theorem Queues.Starts.exclusive (h : s.Starts) :
    Placement.Exclusive s.config.At fun n => ∃ p, s.config.At n p := by
  refine ⟨fun _ => .rfl, fun {n p q} hp hq => ?_⟩
  rcases h.at_cases hp with ⟨l, rfl, hl⟩ | ⟨rfl, hn⟩
  · rcases h.at_cases hq with ⟨l', rfl, hl'⟩ | ⟨rfl, hn⟩
    · rw [h.distinct l l' n (mem_chain_config.1 hl) (mem_chain_config.1 hl')]
    · rw [(h.chain_eq hl).2.2.2.2] at hn
      cases hn
  · rcases h.at_cases hq with ⟨l', rfl, hl'⟩ | ⟨rfl, -⟩
    · rw [(h.chain_eq hl').2.2.2.2] at hn
      cases hn
    · rfl

/-- At the start no node is taken out of a list. -/
theorem Queues.Starts.not_gone (h : s.Starts) (n : N) : ¬s.config.Gone n := by
  rintro (⟨t, ht⟩ | hn)
  · rw [h.footprint] at ht
    cases ht
  · change s.config.ref n ∈ s.retired at hn
    rw [h.retired] at hn
    cases hn

end

/-- The first state has the invariant. -/
theorem Queues.Starts.inv {s : Queues L T N V} (h : s.Starts) :
    s.config.Inv fun n => ∃ p, s.config.At n p := by
  refine ⟨fun l hl => ?_, fun l hl => ?_, fun t l p ht => ?_, h.exclusive,
    fun n p hp hfree => ?_, ?_, fun p hp => ?_, fun n hn => absurd hn (h.not_gone n),
    fun t u l ht => ?_, fun t => ?_, ?_⟩
  · obtain ⟨n, hn⟩ := List.exists_mem_of_ne_nil _ hl
    obtain ⟨hsingle, htail, hnull, -⟩ := h.chain_eq hn
    refine ⟨?_, ?_, fun m hm => ?_, ⟨[], n, [], htail, hsingle, Nat.zero_le _⟩, ?_⟩
    · rw [hsingle]
      exact h.head_eq (mem_chain_config.1 hn)
    · rw [hsingle]
      exact ⟨rfl, congrArg TaggedPtr.ptr hnull⟩
    · rw [hsingle] at hm
      obtain rfl := List.mem_singleton.1 hm
      change (s.nodes m).next = s.config.toPtr (s.nodes m).next.ptr
      rw [hnull]
      rfl
    · rw [hsingle]
      exact fun _ hm => absurd hm List.not_mem_nil
  · rcases h.lists l with hl' | ⟨n, hn, -⟩
    · exact ⟨congrArg TSLinkedList.tail hl', .inl (congrArg TSLinkedList.head hl')⟩
    · have hmem : n ∈ s.config.chain l := mem_chain_config.2 hn
      rw [hl] at hmem
      cases hmem
  · rw [h.footprint] at ht
    cases ht
  · rcases h.at_cases hp with ⟨l, rfl, hl⟩ | ⟨rfl, -⟩
    · exact (h.chain_eq hl).2.2.2.1
    · exact absurd rfl hfree
  · change s.retired.Nodup
    rw [h.retired]
    exact List.nodup_nil
  · change p ∈ s.retired at hp
    rw [h.retired] at hp
    cases hp
  · rw [h.footprint] at ht
    cases ht
  · refine ⟨fun p hp => ?_, fun p hp => ?_, fun l hl => ?_, fun l hl => ?_, fun hin => ?_, ?_⟩
    · rw [h.footprint] at hp
      cases hp
    · rw [h.footprint] at hp
      cases hp
    · rw [h.footprint] at hl
      cases hl
    · rw [h.footprint] at hl
      cases hl
    · rw [h.footprint] at hin
      cases hin
    · exact (h.pcs t).symm ▸ trivial
  · have hcontents : s.config.contents = fun _ => [] := by
      funext l
      rw [Config.contents]
      change ((s.lists l).head.ptr.toList.tail.filterMap _) = []
      cases (s.lists l).head.ptr <;> rfl
    rw [hcontents, funext fun t => congrArg Footprint.phase (h.footprint t)]
    exact .nil

/-! ### Linearizability -/

section
variable [DecidableEq N] {s s₀ : Queues L T N V} {log : List (ListEvent L T N V)}
  {P : Queues L T N V → ListAction L T N V → Prop}

/-- Every state of a run is that of a configuration with the invariant; lists that are initialized
stay so. -/
theorem Queues.Run.config (hr : Queues.Run P s₀ log s) (hs₀ : s₀.Starts)
    (hP : ∀ (c : Config L T N V) a, c.Inv (fun n => ∃ p, s₀.config.At n p) →
      (∀ l, s₀.config.chain l ≠ [] → c.chain l ≠ []) → P c.toQueues a → OneInit c.toQueues a) :
    ∃ c : Config L T N V, c.toQueues = s ∧ c.log = log ∧ c.Inv (fun n => ∃ p, s₀.config.At n p) ∧
      ∀ l, s₀.config.chain l ≠ [] → c.chain l ≠ [] := by
  induction hr with
  | start => exact ⟨s₀.config, rfl, rfl, hs₀.inv, fun _ => id⟩
  | @step log s a s' e _ ha hp hs ih =>
    obtain ⟨c, rfl, rfl, hinv, hchain⟩ := ih
    obtain ⟨c', hfollows⟩ := hinv.follows ha (hP c a hinv hchain hp) hs
    exact ⟨c', hfollows.state, hfollows.log, hfollows.inv, fun l hl =>
      hfollows.chain l (hchain l hl)⟩

/-- The values in the nodes after the first one. A list that is not initialized has none. -/
def Queues.Contains (s : Queues L T N V) (l : L) (vs : List V) : Prop :=
  ∃ w, Chain.Linked s.next (s.lists l).head.ptr w ∧
    w.tail.map (fun n => (s.nodes n).value) = vs.map some

/-- The history of lists that are first-in first-out queues. -/
structure IsFifo (log : List (ListEvent L T N V)) (s : Queues L T N V) : Prop where
  linearizable : Linearizable queue (history (operations log))
  /-- An operation that returns took effect once since its call, with the result that it returns. -/
  returns : ∀ l₁ t r l₂, operations log = l₁ ++ .ret t r :: l₂ → ∃ op l m₁ m₂,
    l₁ = l ++ .call t op :: (m₁ ++ .commit t op r :: m₂) ∧ ∀ e ∈ m₁ ++ m₂, e.thread ≠ t
  /-- When a `pop_front` finds no value, every value that was linked is taken. -/
  empty : ∀ l₁ t l l₂, operations log = l₁ ++ .commit t (.pop l) none :: l₂ →
    pushes l l₁ = pops l l₁
  /-- The values are taken in the order in which they were linked. The others are in the nodes after
  `head_`. -/
  order : ∀ l, ∃ vs, s.Contains l vs ∧ pushes l (operations log) = pops l (operations log) ++ vs

namespace Config

variable {c : Config L T N V} {live : N → Prop} {l : L}

omit [DecidableEq N] in
/-- The nodes behind the first one hold the contents of the list. -/
theorem Inv.values (h : c.Inv live) (hl : c.chain l ≠ []) :
    (c.chain l).tail.map (fun n => (c.nodes n).value) = (c.contents l).map some := by
  have hvalue := (h.list l hl).value
  rw [contents]
  generalize (c.chain l).tail = w at hvalue
  induction w with
  | nil => rfl
  | cons n w ih =>
    obtain ⟨v, hv⟩ := Option.ne_none_iff_exists'.1 (hvalue n List.mem_cons_self)
    have hcons : (n :: w).filterMap (fun n => (c.nodes n).value) = v :: _ :=
      List.filterMap_cons_some hv
    rw [List.map_cons, hcons, List.map_cons, hv, ih fun m hm =>
      hvalue m (List.mem_cons_of_mem _ hm)]

omit [DecidableEq N] in
/-- The invariant makes the history first-in first-out. -/
theorem Inv.isFifo (h : c.Inv live) : IsFifo c.log c.toQueues where
  linearizable := h.trace.linearizable
  returns l₁ t r l₂ hlog := by
    obtain ⟨op, l, m₁, m₂, -, hl, hm, -⟩ := (hlog ▸ h.trace).committed_of_ret
    exact ⟨op, l, m₁, m₂, hl, hm⟩
  empty l₁ t l l₂ hlog := pushes_eq_pops (hlog ▸ h.trace)
  order l := by
    refine ⟨c.contents l, ?_, pushes_eq h.trace l⟩
    by_cases hl : c.chain l = []
    · have hnil : c.contents l = [] := by
        rw [contents, hl]
        rfl
      rw [hnil]
      rcases (h.fresh l hl).2 with hhead | ⟨t, ht⟩
      · exact ⟨[], by rw [hhead]; rfl, rfl⟩
      · -- the list has its dummy node, and no thread is past `init`
        obtain ⟨n, hn, hnull, -⟩ := (h.threads t).held _ (holds_of_stored ht)
        refine ⟨[n], ?_, rfl⟩
        rw [hn]
        exact ⟨rfl, congrArg TaggedPtr.ptr hnull⟩
    · refine ⟨c.chain l, ?_, h.values hl⟩
      have hptr : (c.lists l).head.ptr = (c.chain l).head? := by
        rw [(h.list l hl).head]
        cases (c.chain l).head? <;> rfl
      rw [hptr]
      exact (h.list l hl).linked

end Config

/-- In a run from initialized lists no thread gets past the check in `init`. -/
theorem Queues.Run.initialized (hr : Queues.Run (fun _ _ => True) s₀ log s) (hs₀ : s₀.Starts)
    (hinit : ∀ l, (s₀.lists l).head.ptr ≠ none) : ∃ c :
    Config L T N V, c.toQueues = s ∧ c.log = log ∧
      c.Inv (fun n => ∃ p, s₀.config.At n p) ∧ ∀ l, c.chain l ≠ [] := by
  have hstart : ∀ l, s₀.config.chain l ≠ [] := by
    intro l hl
    obtain ⟨n, hn⟩ := Option.ne_none_iff_exists'.1 (hinit l)
    have hmem : n ∈ s₀.config.chain l := Option.mem_toList.2 hn
    rw [hl] at hmem
    cases hmem
  obtain ⟨c, hstate, hlog, hinv, hchain⟩ := hr.config hs₀ fun c a hinv hchain _ => by
    cases a with
    | thread t spurious =>
      exact fun l _ u _ hu => hchain l (hstart l) ((hinv.threads u).initializes l hu)
    | _ => trivial
  exact ⟨c, hstate, hlog, hinv, fun l => hchain l (hstart l)⟩

/-- The lists are linearizable: in every run from initialized lists, in which no node is released
while a thread that may have it is in its critical section, they are first-in first-out queues. -/
theorem run_isFifo (hs₀ : s₀.Starts) (hinit : ∀ l, (s₀.lists l).head.ptr ≠ none)
    (hr : Queues.Run (fun _ _ => True) s₀ log s) :
    IsFifo log s ∧ ∀ l, (s.lists l).head.ptr ≠ none := by
  obtain ⟨c, rfl, rfl, hinv, hchain⟩ := hr.initialized hs₀ hinit
  refine ⟨hinv.isFifo, fun l => ?_⟩
  obtain ⟨n, r, hr⟩ := List.exists_cons_of_ne_nil (hchain l)
  rw [(hinv.list l (hchain l)).head, hr]
  nofun

/-! ### A run -/

/-- Takes the steps of a list, none of which releases a node. -/
def Queues.exec (P : Queues L T N V → ListAction L T N V → Prop) [∀ s a, Decidable (P s a)]
    (s : Queues L T N V) (log : List (ListEvent L T N V)) :
    List (ListAction L T N V) → Option (Queues L T N V × List (ListEvent L T N V))
  | [] => some (s, log)
  | .release .. :: _ => none
  | a :: as =>
    match s.step a with
    | some (s', e) => if P s a then exec P s' (log ++ e.toList) as else none
    | none => none

/-- Executing actions extends a run. -/
theorem Queues.Run.exec [∀ s a, Decidable (P s a)] {s' : Queues L T N V}
    {log' : List (ListEvent L T N V)}
    {as : List (ListAction L T N V)} (hr : Queues.Run P s₀ log s)
    (h : s.exec P log as = some (s', log')) :
    Queues.Run P s₀ log' s' := by
  induction as generalizing s log with
  | nil =>
    cases h
    exact hr
  | cons a as ih =>
    cases a with
    | release => cases h
    | call | thread | get | write =>
      simp only [Queues.exec] at h
      split at h
      · rename_i hs
        split at h
        · rename_i hp
          refine ih (hr.step ?_ hp hs) h
          exact trivial
        · cases h
      · cases h

/-- A list that has its dummy node `0`, and other nodes that are free. -/
def oneList : Queues Unit Bool (Fin 3) ℕ where
  nodes _ := {}
  lists _ := ⟨⟨some 0, 0⟩, ⟨some 0, 0⟩⟩
  free n := n != 0

/-- Some steps of one thread. -/
def listSteps (t : Bool) (k : ℕ) : List (ListAction Unit Bool (Fin 3) ℕ) :=
  List.replicate k (.thread t false)

/-- The thread `true` pushes `7`, then `false` pops. -/
def pushAndPop : List (ListAction Unit Bool (Fin 3) ℕ) :=
  .call true (.push () 7) :: listSteps true 1 ++ .get true ⟨some 1, 0⟩ :: listSteps true 8 ++
    .call false (.pop ()) :: listSteps false 12

/-- `oneList` is a first state. -/
theorem starts_oneList : oneList.Starts where
  pcs _ := rfl
  retired := rfl
  lists _ := .inr ⟨0, rfl, rfl, rfl, rfl, rfl⟩
  distinct _ _ _ _ _ := rfl

/-- The run of `pushAndPop`, in which `false` gets the value. -/
theorem run_isFifo_one : ∃ log s, oneList.exec (fun _ _ => True) [] pushAndPop = some (s, log) ∧
    .op (.ret false (some 7)) ∈ log ∧ IsFifo log s := by
  have hlog : ((oneList.exec (fun _ _ => True) [] pushAndPop).any fun p =>
      decide (ListEvent.op (.ret false (some 7)) ∈ p.2)) = true := by decide +kernel
  obtain ⟨⟨s, log⟩, hrun, hmem⟩ := (Option.any_eq_true _ _).1 hlog
  exact ⟨log, s, hrun, of_decide_eq_true hmem,
    (run_isFifo starts_oneList nofun (Queues.Run.start.exec hrun)).1⟩

end

end RockCoro
