import RockCoro.Memory.TSLinkedList.Invariant

/-!
# The steps of the lists

One lemma for each way in which a step changes what the threads share.
-/

namespace RockCoro

open AtomicObject AtomicObject.Fifo EpochBasedReclamation

variable {L T N V : Type} {log : List (ListEvent L T N V)} {e : Option (ListEvent L T N V)}
  {t u : T}

/-- The epoch events of a log that goes on. -/
theorem epochs_append {l : List (ListEvent L T N V)} : epochs (log ++ l) = epochs log ++ epochs l :=
  List.filterMap_append ..

/-- The operations of a log that goes on. -/
theorem operations_append {l : List (ListEvent L T N V)} :
    operations (log ++ l) = operations log ++ operations l :=
  List.filterMap_append ..

/-- An event of an operation is none of the epochs. -/
theorem op_ne_epoch {x : Event T (QueueOp L V) (Option V)} {y : EpochEvent T (TaggedPtr N)} :
    (some (.op x) : Option (ListEvent L T N V)) ≠ some (.epoch y) := nofun

/-- A store of `init` is no event of the epochs. -/
theorem dummy_ne_epoch {l : L} {ptr : TaggedPtr N} {y : EpochEvent T (TaggedPtr N)} :
    (some (.dummy l ptr) : Option (ListEvent L T N V)) ≠ some (.epoch y) := nofun

/-- A critical section goes on unless the thread leaves it. -/
theorem inside_append (h : Inside (epochs log) t) (he : e ≠ some (.epoch (.exited t))) :
    Inside (epochs (log ++ e.toList)) t := by
  rw [epochs_append]
  rcases e with _ | x | x | ⟨l, p⟩
  · exact (List.append_nil _).symm ▸ h
  · exact h.append fun hx => he (by rw [hx])
  · exact (List.append_nil _).symm ▸ h
  · exact (List.append_nil _).symm ▸ h

/-- Protection goes on unless the thread leaves its critical section. -/
theorem protects_append {ptr : TaggedPtr N} (h : Protects (epochs log) t ptr)
    (he : e ≠ some (.epoch (.exited t))) : Protects (epochs (log ++ e.toList)) t ptr := by
  rw [epochs_append]
  rcases e with _ | x | x | ⟨l, p⟩
  · exact (List.append_nil _).symm ▸ h
  · exact h.append fun hx => he (by rw [hx])
  · exact (List.append_nil _).symm ▸ h
  · exact (List.append_nil _).symm ▸ h

namespace Config

variable {c c' : Config L T N V} {l : L} {n m : N} {live : N → Prop} {pc : ListPc L N V}

/-- A pointer depends on the tag of its node. -/
theorem toPtr_congr {o : Option N} (h : ∀ n, o = some n → c'.tag n = c.tag n) :
    c'.toPtr o = c.toPtr o := by
  cases o with
  | none => rfl
  | some n => exact ref_congr (h n rfl)

/-- A pointer to a node is not null. -/
theorem ref_ne_null : c.ref n ≠ {} := nofun

/-- Two pointers to one node in different configurations. -/
theorem ref_eq {k : N} (h : c'.ref m = c.ref k) : c'.ref m = c.ref m := by
  obtain rfl := Option.some.inj (congrArg TaggedPtr.ptr h)
  exact h

/-- A list whose nodes, links and tags stay is still a list. -/
theorem ListOk.congr (h : c.ListOk l) (hchain : c'.chain l = c.chain l)
    (hlist : c'.lists l = c.lists l)
    (hnode : ∀ m ∈ c.chain l, c'.nodes m = c.nodes m ∧ c'.tag m = c.tag m) : c'.ListOk l := by
  have hnext : ∀ m ∈ c.chain l, c'.next m = c.next m := fun m hm => by
    rw [Queues.next, (hnode m hm).1]
    rfl
  refine ⟨?_, ?_, fun n hn => ?_, ?_, fun n hn => ?_⟩
  · rw [hlist, hchain, h.head]
    exact (toPtr_congr fun n hn => (hnode n (List.mem_of_mem_head? hn)).2).symm
  · rw [hchain]
    exact h.linked.congr hnext
  · rw [hchain] at hn
    rw [(hnode n hn).1, h.next n hn, hnext n hn]
    exact (toPtr_congr fun m hm => (hnode m (h.linked.mem_of_next hn hm)).2).symm
  · obtain ⟨l₁, n, l₂, htail, hl, hlen⟩ := h.tail
    refine ⟨l₁, n, l₂, ?_, hchain.trans hl, hlen⟩
    rw [hlist, htail]
    refine (ref_congr (hnode n ?_).2).symm
    rw [hl]
    exact List.mem_append_right _ List.mem_cons_self
  · rw [hchain] at hn
    rw [(hnode n (List.mem_of_mem_tail hn)).1]
    exact h.value n hn

/-- The contents depend on the chain and its values. -/
theorem contents_congr (hchain : c'.chain l = c.chain l)
    (hnode : ∀ m ∈ c.chain l, (c'.nodes m).value = (c.nodes m).value) :
    c'.contents l = c.contents l := by
  rw [contents, contents, hchain]
  exact List.filterMap_congr fun m hm => hnode m (List.mem_of_mem_tail hm)

section
variable [DecidableEq L] [DecidableEq T]

/-! ### The places after a move -/

section
variable (hpcs : c'.pcs = Function.update c.pcs t pc)
include hpcs

omit [DecidableEq L] in
/-- The thread that moves has what its new place says. -/
theorem footprint_self : c'.footprint t = pc.footprint := by
  rw [footprint, hpcs, Function.update_self]

omit [DecidableEq L] in
/-- The other threads have what they had. -/
theorem footprint_of_ne (hu : u ≠ t) : c'.footprint u = c.footprint u := by
  rw [footprint, hpcs, Function.update_of_ne hu]
  rfl

omit [DecidableEq L] in
/-- What a move does not change of the thread that moves. -/
theorem footprint_same {α : Type} {φ : Footprint L N V → α} (h : φ pc.footprint = φ (c.footprint t))
    (u : T) :
    φ (c'.footprint u) = φ (c.footprint u) := by
  rcases eq_or_ne u t with rfl | hu
  · rw [footprint_self hpcs, h]
  · rw [footprint_of_ne hpcs hu]

omit [DecidableEq L] in
/-- The phases change at the thread that moves. -/
theorem phases_eq : (fun u => (c'.footprint u).phase) =
    Function.update (fun u => (c.footprint u).phase) t pc.footprint.phase := by
  funext u
  rcases eq_or_ne u t with rfl | hu
  · rw [footprint_self hpcs, Function.update_self]
  · rw [footprint_of_ne hpcs hu, Function.update_of_ne hu]

end

omit [DecidableEq L] [DecidableEq T] in
/-- Nodes stay in their places when the lists, the retired and free nodes and what threads hold
stay. -/
theorem at_congr (hchain : c'.chain = c.chain) (hretired : c'.retired = c.retired)
    (hfree : c'.free = c.free)
    (hholds : ∀ u, (c'.footprint u).holds.bind TaggedPtr.ptr =
      (c.footprint u).holds.bind TaggedPtr.ptr)
    (hpopped : ∀ u, (c'.footprint u).popped = (c.footprint u).popped) (n : N) (p : Place L T) :
    c'.At n p ↔ c.At n p := by
  cases p with
  | chain l => rw [At, At, hchain]
  | held t => rw [At, At, hholds]
  | popped t => rw [At, At, hpopped]
  | retired => rw [At, At, hretired]
  | free => rw [At, At, hfree]

/-- A move within one phase is not seen in the trace. -/
theorem Inv.trace_same (h : c.Inv live) (hphase : pc.footprint.phase = (c.footprint t).phase) :
    Trace queue (operations c.log)
      ⟨c.contents, Function.update (fun u => (c.footprint u).phase) t pc.footprint.phase⟩ := by
  rw [hphase, Function.update_eq_self]
  exact h.trace

/-- A step that leaves the lists and their nodes alone. -/
theorem Inv.frame (h : c.Inv live) (hchain : c'.chain = c.chain) (hlists : c'.lists = c.lists)
    (hnode : ∀ l, ∀ m ∈ c.chain l, c'.nodes m = c.nodes m ∧ c'.tag m = c.tag m)
    (hstored : ∀ u, (c'.footprint u).stored = (c.footprint u).stored)
    (hplaces : Placement.Exclusive c'.At live)
    (hunreleased : ∀ n p, c'.At n p → p ≠ .free → (c'.nodes n).released = false)
    (hnodup : c'.retired.Nodup) (hretired : ∀ p ∈ c'.retired, ∃ n, p = c'.ref n)
    (hgone : ∀ n, c'.Gone n → c'.next n ≠ none)
    (halone : ∀ t u l, (c'.footprint t).initializes = some l →
      (c'.footprint u).initializes = some l → t = u)
    (hthreads : ∀ t, c'.ThreadOk t)
    (htrace : Trace queue (operations c'.log) ⟨c'.contents, fun t => (c'.footprint t).phase⟩) :
    c'.Inv live where
  list l hl := by
    rw [hchain] at hl
    exact (h.list l hl).congr (congrFun hchain l) (congrFun hlists l) (hnode l)
  fresh l hl := by
    rw [hchain] at hl
    rw [hlists]
    exact (h.fresh l hl).imp_right (Or.imp_right fun ⟨u, hu⟩ => ⟨u, (hstored u).trans hu⟩)
  stored u l p hu := by
    rw [hlists]
    exact h.stored u l p ((hstored u).symm.trans hu)
  places := hplaces
  unreleased := hunreleased
  nodup := hnodup
  retired := hretired
  gone := hgone
  alone := halone
  threads := hthreads
  trace := htrace

/-! ### A thread moves -/

/-- The thread goes to `pc`, and `e` is observed. -/
def go (c : Config L T N V) (t : T) (pc : ListPc L N V) (e : Option (ListEvent L T N V)) :
    Config L T N V :=
  { c with toQueues := c.setPc t pc, log := c.log ++ e.toList }

omit [DecidableEq L] in
/-- A move changes nothing that a thread knows of its nodes, unless this thread leaves its
critical section. -/
theorem stable_go (hpopped : pc.footprint.popped = (c.footprint t).popped)
    (hexit : e ≠ some (.epoch (.exited u))) : Stable c (c.go t pc e) u := by
  refine .of_frame rfl (fun _ _ => rfl) (fun _ _ => ⟨rfl, rfl⟩) fun m hm => ?_
  refine hm.imp (fun ⟨v, hv⟩ => ⟨v, ?_⟩) (And.imp_right fun hp => protects_append hp hexit)
  rw [footprint_same rfl hpopped]
  exact hv

/-- A move that changes no list keeps the invariant, if its new place is right and its event fits
the trace. -/
theorem Inv.go (h : c.Inv live) (hholds : pc.footprint.holds = (c.footprint t).holds)
    (hgiven : pc.footprint.given = (c.footprint t).given)
    (hpopped : pc.footprint.popped = (c.footprint t).popped)
    (hinit : ∀ l, pc.footprint.initializes = some l →
      c.chain l = [] ∧ ∀ u ≠ t, (c.footprint u).initializes ≠ some l)
    (hpast : ∀ l, pc.footprint.past = some l → c.chain l ≠ [])
    (hinside : pc.footprint.inside = true → Inside (epochs (c.log ++ e.toList)) t)
    (hok : (c.go t pc e).PcOk t pc) (hexit : ∀ u ≠ t, e ≠ some (.epoch (.exited u)))
    (hstored : pc.footprint.stored = (c.footprint t).stored)
    (htrace : Trace queue (operations (c.log ++ e.toList))
      ⟨c.contents, Function.update (fun u => (c.footprint u).phase) t pc.footprint.phase⟩) :
    (c.go t pc e).Inv live := by
  have hpcs : (c.go t pc e).pcs = Function.update c.pcs t pc := rfl
  have hat : ∀ n p, (c.go t pc e).At n p ↔ c.At n p :=
    at_congr rfl rfl rfl (fun u => congrArg (Option.bind · _) (footprint_same hpcs hholds u))
      (footprint_same hpcs hpopped)
  refine h.frame rfl rfl (fun _ _ _ => ⟨rfl, rfl⟩) (footprint_same hpcs hstored)
    (h.places.congr hat fun _ => .rfl)
    (fun n p hn => h.unreleased n p ((hat n p).1 hn)) h.nodup h.retired
    (fun n hn => h.gone n ?_) (fun v u l hv hu => ?_) (fun u => ?_) ?_
  · refine hn.imp_left fun ⟨u, hu⟩ => ⟨u, ?_⟩
    rw [← footprint_same hpcs hpopped]
    exact hu
  · rcases eq_or_ne v t with rfl | hvt
    · rcases eq_or_ne u v with rfl | hut
      · rfl
      · rw [footprint_self hpcs] at hv
        rw [footprint_of_ne hpcs hut] at hu
        exact absurd hu ((hinit l hv).2 u hut)
    · rw [footprint_of_ne hpcs hvt] at hv
      rcases eq_or_ne u t with rfl | hut
      · rw [footprint_self hpcs] at hu
        exact absurd hv ((hinit l hu).2 v hvt)
      · rw [footprint_of_ne hpcs hut] at hu
        exact h.alone v u l hv hu
  · rcases eq_or_ne u t with rfl | hu
    · refine ⟨fun p hp => ?_, fun p hp => ?_, fun l hl => ?_, fun l hl => ?_, fun hin => ?_, ?_⟩
      · rw [footprint_same hpcs hpopped] at hp
        exact (h.threads u).popped p hp
      · rw [footprint_same hpcs hholds] at hp
        rw [footprint_same hpcs hgiven]
        exact (h.threads u).held p hp
      · rw [footprint_self hpcs] at hl
        exact (hinit l hl).1
      · rw [footprint_self hpcs] at hl
        exact hpast l hl
      · rw [footprint_self hpcs] at hin
        exact hinside hin
      · rw [hpcs, Function.update_self]
        exact hok
    · refine (h.threads u).frame (Function.update_of_ne hu _ _)
        (fun _ => stable_go hpopped (hexit u hu))
        (fun hin => inside_append hin (hexit u hu)) (fun _ _ => rfl) (fun _ _ => ⟨rfl, rfl⟩)
        (fun _ _ => id) fun _ => id
  · rw [phases_eq hpcs]
    exact htrace

/-- A move that is not observed and changes nothing of what the thread has. -/
theorem Inv.move (h : c.Inv live) (hpc : pc.footprint = (c.pcs t).footprint) (hok : c.PcOk t pc) :
    (c.go t pc none).Inv live := by
  have hlog : c.log ++ (none : Option (ListEvent L T N V)).toList = c.log := List.append_nil _
  have hthread := h.threads t
  refine h.go (congrArg _ hpc) (congrArg _ hpc) (congrArg _ hpc) (fun l hl => ?_) (fun l hl => ?_)
    (fun hin => ?_) (hok.stable (stable_go (congrArg _ hpc) nofun)) (fun _ _ => nofun)
    (congrArg _ hpc) ?_
  · rw [hpc] at hl
    exact ⟨hthread.initializes l hl, fun u hu hul => hu (h.alone u t l hul hl)⟩
  · rw [hpc] at hl
    exact hthread.past l hl
  · rw [hpc] at hin
    rw [hlog]
    exact hthread.inside hin
  · rw [hlog]
    exact h.trace_same (congrArg _ hpc)

/-! ### Nodes that are not shared -/

/-- Nodes at different places are different. -/
theorem Inv.ne_of_at (h : c.Inv live) {p q : Place L T} (hn : c.At n p) (hm : c.At m q)
    (hpq : p ≠ q) :
    m ≠ n := by
  rintro rfl
  exact hpq (h.places.unique hn hm)

/-- A node that was not free before is not marked. -/
theorem Inv.unreleased_of (h : c.Inv live) (hplaces : Placement.Exclusive c'.At live)
    {p : Place L T}
    (hm : c'.At m p) (hp : p ≠ .free) (hfree : c.free m = true → c'.free m = true) :
    (c.nodes m).released = false := by
  obtain ⟨q, hq⟩ := (h.places.live_iff m).1 (hplaces.live_of_at hm)
  refine h.unreleased m q hq ?_
  rintro rfl
  exact hp (hplaces.unique hm (show c'.At m .free from hfree hq))

omit [DecidableEq L] [DecidableEq T] in
/-- A node that is gone was popped or retired. -/
theorem Gone.at (h : c.Gone n) : ∃ p, c.At n p ∧ (p = .retired ∨ ∃ t, p = .popped t) := by
  rcases h with ⟨t, ht⟩ | hret
  · exact ⟨.popped t, by rw [At, ht]; rfl, .inr ⟨t, rfl⟩⟩
  · exact ⟨.retired, ⟨_, hret, rfl⟩, .inl rfl⟩

omit [DecidableEq L] [DecidableEq T] in
/-- The node that a thread holds is at its place. -/
theorem at_held (h : (c.footprint t).holds = some (c.ref n)) : c.At n (.held t) := by
  rw [At, h]
  rfl

/-- A node that the thread held goes into a list. -/
theorem Inv.places_enter {xs : List N} (h : c.Inv live)
    (hpcs : c'.pcs = Function.update c.pcs t pc) (hn : (c.footprint t).holds = some (c.ref n))
    (hnone : pc.footprint.holds = none) (hpopped : pc.footprint.popped = (c.footprint t).popped)
    (hchain : c'.chain = Function.update c.chain l xs) (hxs : ∀ m, m ∈ xs ↔ m ∈ c.chain l ∨ m = n)
    (hretired : c'.retired = c.retired) (hfree : c'.free = c.free) :
    Placement.Exclusive c'.At live := by
  have hpopped := footprint_same (φ := Footprint.popped) hpcs hpopped
  have hself : (c'.footprint t).holds = none := by rw [footprint_self hpcs, hnone]
  refine h.places.move (q := .chain l) (p := .held t) (c := n) (at_held hn) ?_ (fun q hq => ?_)
    (fun m hm q => ?_) fun _ => .rfl
  · rw [At, hchain, Function.update_self]
    exact (hxs n).2 (.inr rfl)
  · cases q with
    | chain l' =>
      rcases eq_or_ne l' l with rfl | hne
      · exact .inl rfl
      · rw [At, hchain, Function.update_of_ne hne] at hq
        exact .inr ⟨hq, by simp⟩
    | held u =>
      rcases eq_or_ne u t with rfl | hu
      · rw [At, hself] at hq
        cases hq
      · rw [At, footprint_of_ne hpcs hu] at hq
        exact .inr ⟨hq, fun he => hu (Place.held.inj he)⟩
    | popped u =>
      rw [At, hpopped] at hq
      exact .inr ⟨hq, by simp⟩
    | retired =>
      rw [At, hretired] at hq
      exact .inr ⟨hq, by simp⟩
    | free =>
      rw [At, hfree] at hq
      exact .inr ⟨hq, by simp⟩
  · cases q with
    | chain l' =>
      rcases eq_or_ne l' l with rfl | hne
      · rw [At, At, hchain, Function.update_self, hxs]
        exact or_iff_left hm
      · rw [At, At, hchain, Function.update_of_ne hne]
    | held u =>
      rcases eq_or_ne u t with rfl | hu
      · rw [At, At, hself, hn]
        exact ⟨fun he => (by cases he), fun he => absurd (Option.some.inj he).symm hm⟩
      · rw [At, At, footprint_of_ne hpcs hu]
    | popped u => rw [At, At, hpopped]
    | retired => rw [At, At, hretired]
    | free => rw [At, At, hfree]

/-- A node that is free or held by `t` is no node of a list, and no other thread has it. -/
structure Private (c : Config L T N V) (t : T) (n : N) : Prop where
  chain : ∀ l, ∀ m ∈ c.chain l, m ≠ n
  gone : ∀ m, c.Gone m → m ≠ n
  held : ∀ u ≠ t, ∀ m, (c.footprint u).holds = some (c.ref m) → m ≠ n

/-- A node that a thread holds is private. -/
theorem Inv.private_of_held (h : c.Inv live) (hn : c.At n (.held t)) : Private c t n where
  chain l m hm := h.ne_of_at hn (q := .chain l) hm nofun
  gone m hm := by
    obtain ⟨p, hp, rfl | ⟨u, rfl⟩⟩ := hm.at
    · exact h.ne_of_at hn hp nofun
    · exact h.ne_of_at hn hp nofun
  held u hu m hm := h.ne_of_at hn (at_held hm) fun he => hu (Place.held.inj he).symm

/-- A free node is private. -/
theorem Inv.private_of_free (h : c.Inv live) (hn : c.free n = true) : Private c t n where
  chain l m hm := h.ne_of_at (p := .free) hn (q := .chain l) hm nofun
  gone m hm := by
    obtain ⟨p, hp, rfl | ⟨u, rfl⟩⟩ := hm.at
    · exact h.ne_of_at (p := .free) hn hp nofun
    · exact h.ne_of_at (p := .free) hn hp nofun
  held u _ m hm := h.ne_of_at (p := .free) hn (at_held hm) nofun

omit [DecidableEq L] [DecidableEq T] in
/-- A step that writes a private node. -/
theorem Private.stable (hn : Private c t n) (hchain : c'.chain = c.chain)
    (hlists : c'.lists = c.lists)
    (hnodes : ∀ m, m ≠ n → c'.nodes m = c.nodes m ∧ c'.tag m = c.tag m)
    (hpopped : ∀ v, (c'.footprint v).popped = (c.footprint v).popped)
    (hretired : c'.retired = c.retired)
    (hlog : c'.log = c.log) : Stable c c' u := by
  have hnode : ∀ m, (∃ l, m ∈ c.chain l) ∨ c.Kept u m → c'.nodes m = c.nodes m ∧
    c'.tag m = c.tag m := by
    rintro m (⟨l, hm⟩ | hm)
    · exact hnodes m (hn.chain l m hm)
    · exact hnodes m (hn.gone m hm.gone)
  refine .of_frame hchain (fun l _ => congrFun hlists l) hnode fun m hm => ?_
  rw [Kept, ref_congr (hnode m (.inr hm)).2, hretired, hlog]
  exact hm.imp_left fun ⟨v, hv⟩ => ⟨v, (hpopped v).trans hv⟩

omit [DecidableEq L] [DecidableEq T] in
/-- A thread that does not move while a private node of `t` is written. -/
theorem Private.threadOk (hn : Private c t n) (h : c.ThreadOk u)
    (hstable : Stable c c' u) (hpc : c'.pcs u = c.pcs u) (hchain : c'.chain = c.chain)
    (hlog : c'.log = c.log)
    (hnodes : ∀ m, m ≠ n → c'.nodes m = c.nodes m ∧ c'.tag m = c.tag m)
    (hheld : ∀ m, (c.footprint u).holds = some (c.ref m) → m ≠ n) : c'.ThreadOk u := by
  refine h.frame hpc (fun _ => hstable) (fun hin => hlog ▸ hin) (fun m hm => ?_) (fun m hm => ?_)
    (fun l _ hl => hchain ▸ hl) fun l hl => hchain ▸ hl
  · exact (hnodes m (hn.gone m (.inl ⟨u, hm⟩))).2
  · exact hnodes m (hheld m hm)

/-- `t` writes a private node and may go to another place, without a step of the lists. -/
theorem Inv.own (h : c.Inv live) (hn : Private c t n) (hchain : c'.chain = c.chain)
    (hlists : c'.lists = c.lists) (hretired : c'.retired = c.retired) (hlog : c'.log = c.log)
    (hnodes : ∀ m, m ≠ n → c'.nodes m = c.nodes m ∧ c'.tag m = c.tag m)
    (hpcs : c'.pcs = Function.update c.pcs t pc)
    (hinit : pc.footprint.initializes = (c.footprint t).initializes)
    (hphase : pc.footprint.phase = (c.footprint t).phase)
    (hpopped : pc.footprint.popped = (c.footprint t).popped)
    (hstored : pc.footprint.stored = (c.footprint t).stored)
    (hplaces : Placement.Exclusive c'.At live)
    (hunreleased : (c'.nodes n).released = false ∨ c'.free n = true)
    (hfree : ∀ m, m ≠ n → c'.free m = c.free m)
    (hthread : Stable c c' t → c'.ThreadOk t) : c'.Inv live := by
  have hsame := footprint_same (φ := Footprint.popped) hpcs hpopped
  have hstable : ∀ u, Stable c c' u := fun u => hn.stable hchain hlists hnodes hsame hretired hlog
  have hgone : ∀ m, c'.Gone m → c.Gone m := by
    rintro m (⟨u, hu⟩ | hm)
    · rw [hsame] at hu
      obtain ⟨k, hk⟩ := (h.threads u).popped _ hu
      exact .inl ⟨u, ref_eq hk ▸ hu⟩
    · rw [hretired] at hm
      obtain ⟨k, hk⟩ := h.retired _ hm
      exact .inr (ref_eq hk ▸ hm)
  refine h.frame hchain hlists (fun l m hm => hnodes m (hn.chain l m hm))
    (footprint_same hpcs hstored) hplaces
    (fun m p hm hp => ?_) (hretired ▸ h.nodup) (fun p hp => ?_) (fun m hm => ?_)
    (fun u v l hu hv => ?_)
    (fun u => ?_) ?_
  · rcases eq_or_ne m n with rfl | hmn
    · exact hunreleased.resolve_right fun hfree =>
        hp (hplaces.unique hm (show Config.At _ m .free from hfree))
    · rw [(hnodes m hmn).1]
      exact h.unreleased_of hplaces hm hp (hfree m hmn).trans
  · rw [hretired] at hp
    obtain ⟨k, rfl⟩ := h.retired p hp
    exact ⟨k, (ref_congr (hnodes k (hn.gone k (.inr hp))).2).symm⟩
  · rw [Queues.next, (hnodes m (hn.gone m (hgone m hm))).1]
    exact h.gone m (hgone m hm)
  · rw [footprint_same (φ := Footprint.initializes) hpcs hinit] at hu hv
    exact h.alone u v l hu hv
  · rcases eq_or_ne u t with rfl | hu
    · exact hthread (hstable u)
    · exact hn.threadOk (h.threads u) (hstable u)
        (by rw [hpcs, Function.update_of_ne hu]) hchain hlog
        hnodes (hn.held u hu)
  · have hcontents : c'.contents = c.contents := funext fun l =>
      contents_congr (congrFun hchain l) fun m hm => by rw [(hnodes m (hn.chain l m hm)).1]
    rw [phases_eq hpcs, hlog, hcontents]
    exact h.trace_same hphase

variable [DecidableEq N]

/-- The value is written to the new node, and its tag is incremented. -/
def pushNode (c : Config L T N V) (t : T) (l : L) (v : V) (node : TaggedPtr N) (n : N) :
    Config L T N V :=
  { c with
    toQueues := (c.setNode n { c.nodes n with value := some v, next := {} }).setPc t
      (.pushEnter l v node.incrementTag)
    tag := Function.update c.tag n (c.tag n + 1) }

/-- The value is written to the new node, which is still private. -/
theorem Inv.pushNode {v : V} {node : TaggedPtr N} (h : c.Inv live)
    (hpc : c.pcs t = .pushNode l v node)
    (hn : node.ptr = some n) : (c.pushNode t l v node n).Inv live := by
  have hfoot : c.footprint t = (ListPc.pushNode l v node).footprint := congrArg _ hpc
  have hheld : c.At n (.held t) := by
    rw [At, hfoot]
    exact hn
  have hnode : node = c.ref n := by
    obtain ⟨k, rfl, -⟩ := (h.threads t).held node (by rw [hfoot]; rfl)
    rw [Option.some.inj hn]
  have hpcs : (c.pushNode t l v node n).pcs =
    Function.update c.pcs t (.pushEnter l v node.incrementTag) := rfl
  refine h.own (h.private_of_held hheld) rfl rfl rfl rfl (fun m hm => ?_) hpcs ?_ ?_ ?_ ?_
    (h.places.congr (at_congr rfl rfl rfl (fun u => ?_) fun u => ?_) fun _ => .rfl) (.inl ?_)
    (fun _ _ => rfl) fun hstable => ?_
  · exact ⟨Function.update_of_ne hm _ _, Function.update_of_ne hm _ _⟩
  · rw [hfoot]; rfl
  · rw [hfoot]; rfl
  · rw [hfoot]; rfl
  · rw [hfoot]; rfl
  · rcases eq_or_ne u t with rfl | hu
    · rw [footprint_self hpcs, hfoot]
      rfl
    · rw [footprint_of_ne hpcs hu]
  · exact footprint_same (φ := Footprint.popped) hpcs (by rw [hfoot]; rfl) u
  · change (Function.update c.nodes n _ n).released = false
    rw [Function.update_self]
    exact h.unreleased n _ hheld nofun
  · have hself := footprint_self hpcs
    refine ⟨fun p hp => ?_, fun p hp => ?_, fun l hl => ?_, fun l' hl => ?_, fun hin => ?_, ?_⟩
    · rw [hself] at hp
      cases hp
    · rw [hself] at hp ⊢
      cases hp
      refine ⟨n, ?_, ?_, fun w hw => ?_⟩
      · change node.incrementTag = ⟨some n, Function.update c.tag n _ n⟩
        rw [hnode, Function.update_self]
        rfl
      · change (Function.update c.nodes n _ n).next = {}
        rw [Function.update_self]
      · change (Function.update c.nodes n _ n).value = some w
        cases hw
        rw [Function.update_self]
    · rw [hself] at hl
      cases hl
    · rw [hself] at hl
      cases hl
      exact (h.threads t).past l (by rw [hfoot]; rfl)
    · rw [hself] at hin
      cases hin
    · rw [hpcs, Function.update_self]
      trivial

/-- `get` hands the free node `n` over. -/
def get (c : Config L T N V) (t : T) (pc : ListPc L N V) (ptr : TaggedPtr N) (n : N) :
    Config L T N V :=
  { c with
    toQueues := { c.toQueues with free := Function.update c.free n false }.setPc t pc
    tag := Function.update c.tag n ptr.tag }

/-- A free node is given to a thread, with the tag of the pointer. -/
theorem Inv.get {ptr : TaggedPtr N} {φ : Phase (QueueOp L V) (Option V)} {i p : Option L}
    (h : c.Inv live)
    (hn : ptr.ptr = some n) (hfree : c.free n = true) (hreleased : (c.nodes n).released = false)
    (hnext : (c.nodes n).next = {})
    (hfoot : c.footprint t = { phase := φ, initializes := i, past := p })
    (hpc : pc.footprint = { phase := φ, initializes := i, past := p, holds := some ptr }) :
    (c.get t pc ptr n).Inv live := by
  have hpcs : (c.get t pc ptr n).pcs = Function.update c.pcs t pc := rfl
  have hself : (c.get t pc ptr n).footprint t = _ := (footprint_self hpcs).trans hpc
  have hpopped := footprint_same (φ := Footprint.popped) hpcs (by rw [hfoot, hpc])
  refine h.own (h.private_of_free (t := t) hfree) rfl rfl rfl rfl (fun m hm => ?_) hpcs ?_ ?_ ?_ ?_
    (h.places.move (q := .held t) (p := .free) (c := n) hfree ?_ (fun q hq => ?_) (fun m hm q => ?_)
      fun _ => .rfl) (.inl hreleased) (fun m hm => Function.update_of_ne hm _ _) fun hstable => ?_
  · exact ⟨rfl, Function.update_of_ne hm _ _⟩
  · rw [hfoot, hpc]
  · rw [hfoot, hpc]
  · rw [hfoot, hpc]
  · rw [hfoot, hpc]
  · rw [At, hself]
    exact hn
  · -- the node is free no more
    cases q with
    | chain l => exact .inr ⟨hq, nofun⟩
    | held u =>
      rcases eq_or_ne u t with rfl | hu
      · exact .inl rfl
      · rw [At, footprint_of_ne hpcs hu] at hq
        exact .inr ⟨hq, nofun⟩
    | popped u =>
      rw [At, hpopped] at hq
      exact .inr ⟨hq, nofun⟩
    | retired => exact .inr ⟨hq, nofun⟩
    | free =>
      change Function.update c.free n false n = true at hq
      rw [Function.update_self] at hq
      cases hq
  · cases q with
    | chain l | retired => exact .rfl
    | held u =>
      rcases eq_or_ne u t with rfl | hu
      · rw [At, At, hself, hfoot]
        refine ⟨fun he => absurd (Option.some.inj (hn.symm.trans he)).symm hm, nofun⟩
      · rw [At, At, footprint_of_ne hpcs hu]
    | popped u => rw [At, At, hpopped]
    | free =>
      change Function.update c.free n false m = true ↔ c.free m = true
      rw [Function.update_of_ne hm]
  · refine ⟨fun p hp => ?_, fun p hp => ?_, fun l hl => ?_, fun l hl => ?_, fun hin => ?_, ?_⟩
    · rw [hself] at hp
      cases hp
    · rw [hself] at hp ⊢
      cases hp
      refine ⟨n, ?_, hnext, nofun⟩
      change ptr = ⟨some n, Function.update c.tag n _ n⟩
      rw [Function.update_self, ← hn]
    · rw [hself] at hl
      exact (h.threads t).initializes l (by rw [hfoot]; exact hl)
    · rw [hself] at hl
      exact (h.threads t).past l (by rw [hfoot]; exact hl)
    · rw [hself] at hin
      cases hin
    · rw [hpcs, Function.update_self]
      exact pcOk_of_not_inside (by rw [hpc])

/-- The allocator writes to a free node. -/
def write (c : Config L T N V) (n : N) (x : TSLinkedListNode N V) : Config L T N V :=
  { c with toQueues := c.setNode n x }

/-- A write to a free node, which no list has. -/
theorem Inv.write {x : TSLinkedListNode N V} (h : c.Inv live) (t : T) (hfree : c.free n = true) :
    (c.write n x).Inv live := by
  have hn : Private c t n := h.private_of_free hfree
  have hnodes : ∀ m, m ≠ n → (c.write n x).nodes m = c.nodes m ∧ (c.write n x).tag m = c.tag m :=
    fun m hm => ⟨Function.update_of_ne hm _ _, rfl⟩
  have hpcs : (c.write n x).pcs = Function.update c.pcs t (c.pcs t) :=
    (Function.update_eq_self ..).symm
  refine h.own hn rfl rfl rfl rfl hnodes hpcs rfl rfl rfl rfl
    (h.places.congr (at_congr rfl rfl rfl (fun _ => rfl) fun _ => rfl) fun _ => .rfl) (.inr hfree)
    (fun _ _ => rfl) fun hstable => ?_
  refine hn.threadOk (h.threads t) hstable rfl rfl rfl hnodes fun m hm => ?_
  exact h.ne_of_at (p := .free) hfree (at_held hm) nofun

/-! ### Retired nodes -/

omit [DecidableEq N] in
/-- A retired pointer has the tag of its node. -/
theorem Inv.eq_ref (h : c.Inv live) {p : TaggedPtr N} (hp : p ∈ c.retired) (hn : p.ptr = some n) :
    p = c.ref n := by
  obtain ⟨k, rfl⟩ := h.retired p hp
  rw [Option.some.inj hn]

/-- `t` retires the node that it has taken out. -/
def retire (c : Config L T N V) (t : T) (pc : ListPc L N V) (ptr : TaggedPtr N) : Config L T N V :=
  { c with
    toQueues := { c.toQueues with retired := c.retired ++ [ptr] }.setPc t pc
    log := c.log ++ [.epoch (.retired t ptr)] }

omit [DecidableEq L] [DecidableEq N] in
/-- Retiring a node that was kept keeps it for the threads in their critical sections. -/
theorem stable_retire {ptr : TaggedPtr N} (hpopped : (c.footprint t).popped = some ptr)
    (hinside : Inside (epochs c.log) u) : Stable c (c.retire t pc ptr) u := by
  refine .of_frame rfl (fun _ _ => rfl) (fun _ _ => ⟨rfl, rfl⟩) fun m hm => ?_
  have hlog : epochs (c.retire t pc ptr).log = epochs c.log ++ [.retired t ptr] := epochs_append
  rcases hm with ⟨v, hv⟩ | ⟨hm, hprotects⟩
  · rcases eq_or_ne v t with rfl | hvt
    · obtain rfl := Option.some.inj (hpopped.symm.trans hv)
      exact .inr ⟨List.mem_append_right _ (List.mem_singleton_self _), hlog ▸ hinside.protects⟩
    · exact .inl ⟨v, by rw [footprint_of_ne rfl hvt]; exact hv⟩
  · exact .inr ⟨List.mem_append_left _ hm, hlog ▸ hprotects.append nofun⟩

omit [DecidableEq N] in
/-- The popped node is retired. -/
theorem Inv.retire {l : L} {first next : TaggedPtr N} {value : Option V} (h : c.Inv live)
    (hpc : c.pcs t = .popRetire l first next value) :
    (c.retire t (.popExit l (some value)) first).Inv live := by
  have hfoot : c.footprint t = (ListPc.popRetire l first next value).footprint := congrArg _ hpc
  have hpopped : (c.footprint t).popped = some first := by
    rw [hfoot]
    rfl
  obtain ⟨n, rfl⟩ := (h.threads t).popped first hpopped
  have hn : c.At n (.popped t) := by
    rw [At, hpopped]
    rfl
  set c' := c.retire t (.popExit l (some value)) (c.ref n) with hc'
  have hpcs : c'.pcs = Function.update c.pcs t (.popExit l (some value)) := rfl
  have hself := footprint_self hpcs
  have hholds := footprint_same (φ := Footprint.holds) hpcs (by rw [hfoot]; rfl)
  have hplaces : Placement.Exclusive c'.At live := by
    refine h.places.move (q := .retired) (p := .popped t) (c := n) hn ?_ (fun q hq => ?_)
      (fun m hm q => ?_) fun _ => .rfl
    · exact ⟨_, List.mem_append_right _ (List.mem_singleton_self _), rfl⟩
    · cases q with
      | chain l | free => exact .inr ⟨hq, nofun⟩
      | retired => exact .inl rfl
      | held u =>
        rw [At, hholds] at hq
        exact .inr ⟨hq, nofun⟩
      | popped u =>
        rcases eq_or_ne u t with rfl | hu
        · rw [At, hself] at hq
          cases hq
        · rw [At, footprint_of_ne hpcs hu] at hq
          exact .inr ⟨hq, fun he => hu (Place.popped.inj he)⟩
    · cases q with
      | chain l | free => exact .rfl
      | held u => rw [At, At, hholds]
      | popped u =>
        rcases eq_or_ne u t with rfl | hu
        · rw [At, At, hself, hpopped]
          exact ⟨nofun, fun he => absurd (Option.some.inj he).symm hm⟩
        · rw [At, At, footprint_of_ne hpcs hu]
      | retired =>
        refine ⟨fun ⟨p, hp, hpm⟩ => ?_, fun ⟨p, hp, hpm⟩ => ⟨p, List.mem_append_left _ hp, hpm⟩⟩
        rcases List.mem_append.1 hp with hp | hp
        · exact ⟨p, hp, hpm⟩
        · obtain rfl := List.mem_singleton.1 hp
          exact absurd (Option.some.inj hpm).symm hm
  have hstored := footprint_same (φ := Footprint.stored) hpcs (by rw [hfoot]; rfl)
  refine h.frame rfl rfl (fun _ _ _ => ⟨rfl, rfl⟩) hstored hplaces
    (fun m p hm hp => h.unreleased_of hplaces hm hp id) ?_ (fun p hp => ?_) (fun m hm => ?_)
    (fun u v l hu hv => ?_) (fun u => ?_) ?_
  · refine List.nodup_append.2 ⟨h.nodup, List.nodup_singleton _, fun p hp q hq hpq => ?_⟩
    obtain rfl := List.mem_singleton.1 hq
    exact absurd (h.places.unique hn (show c.At n .retired from ⟨p, hp, hpq ▸ rfl⟩)) nofun
  · rcases List.mem_append.1 hp with hp | hp
    · exact h.retired p hp
    · exact ⟨n, List.mem_singleton.1 hp⟩
  · refine h.gone m ?_
    rcases hm with ⟨u, hu⟩ | hm
    · rcases eq_or_ne u t with rfl | hut
      · rw [hself] at hu
        cases hu
      · rw [footprint_of_ne hpcs hut] at hu
        exact .inl ⟨u, hu⟩
    · rcases List.mem_append.1 hm with hm | hm
      · exact .inr hm
      · exact .inl ⟨t, by rw [hpopped, ← List.mem_singleton.1 hm]; rfl⟩
  · have hinit := footprint_same (φ := Footprint.initializes) hpcs (by rw [hfoot]; rfl)
    rw [hinit] at hu hv
    exact h.alone u v l hu hv
  · rcases eq_or_ne u t with rfl | hu
    · refine ⟨fun p hp => ?_, fun p hp => ?_, fun l hl => ?_, fun l' hl => ?_, fun _ => ?_, ?_⟩
      · rw [hself] at hp
        cases hp
      · rw [hself] at hp
        cases hp
      · rw [hself] at hl
        cases hl
      · rw [hself] at hl
        cases hl
        exact (h.threads u).past l (by rw [hfoot]; rfl)
      · exact inside_append (e := some _) ((h.threads u).inside (by rw [hfoot]; rfl)) nofun
      · rw [hpcs, Function.update_self]
        trivial
    · exact (h.threads u).frame (Function.update_of_ne hu _ _)
        (fun hin => stable_retire hpopped ((h.threads u).inside hin))
        (fun hin => inside_append (e := some _) hin nofun) (fun _ _ => rfl) (fun _ _ => ⟨rfl, rfl⟩)
        (fun _ _ => id) fun _ => id
  · have hlog : operations c'.log = operations c.log := operations_append.trans (List.append_nil _)
    rw [phases_eq hpcs, hlog]
    exact h.trace_same (by rw [hfoot]; rfl)

/-- `exit_epoch` of `t` releases a node. -/
def release (c : Config L T N V) (t : T) (ptr : TaggedPtr N) (n : N) : Config L T N V :=
  { c with
    retired := c.retired.erase ptr
    free := Function.update c.free n true
    log := c.log ++ [.epoch (.released t ptr)] }

/-- A retired node that no thread protects is released. -/
theorem Inv.release {ptr : TaggedPtr N} (h : c.Inv live) (hmem : ptr ∈ c.retired)
    (hn : ptr.ptr = some n) (hprotects : ∀ u, ¬Protects (epochs c.log) u ptr) :
    (c.release t ptr n).Inv live := by
  obtain rfl := h.eq_ref hmem hn
  have hat : c.At n .retired := ⟨_, hmem, rfl⟩
  have herase : ∀ p, p ∈ c.retired.erase (c.ref n) → p ∈ c.retired ∧ p ≠ c.ref n :=
    fun p hp => ((List.Nodup.mem_erase_iff h.nodup).1 hp).symm
  set c' := c.release t (c.ref n) n with hc'
  have hstable : ∀ u, Stable c c' u := by
    refine fun u => .of_frame rfl (fun _ _ => rfl) (fun _ _ => ⟨rfl, rfl⟩) fun m hm => ?_
    refine hm.imp_right fun ⟨hm, hp⟩ => ⟨(List.mem_erase_of_ne ?_).2 hm, ?_⟩
    · rintro (he : c.ref m = c.ref n)
      exact hprotects u (he ▸ hp)
    · exact protects_append (e := some _) hp nofun
  have hplaces : Placement.Exclusive c'.At live := by
    refine h.places.move (q := .free) (p := .retired) (c := n) hat ?_ (fun q hq => ?_)
      (fun m hm q => ?_) fun _ => .rfl
    · exact Function.update_self ..
    · cases q with
      | chain l | held u | popped u => exact .inr ⟨hq, nofun⟩
      | free => exact .inl rfl
      | retired =>
        obtain ⟨p, hp, hpn⟩ := hq
        obtain ⟨hp, hne⟩ := herase p hp
        exact absurd (h.eq_ref hp hpn) hne
    · cases q with
      | chain l | held u | popped u => exact .rfl
      | free =>
        change Function.update c.free n true m = true ↔ c.free m = true
        rw [Function.update_of_ne hm]
      | retired =>
        refine ⟨fun ⟨p, hp, hpm⟩ => ⟨p, (herase p hp).1, hpm⟩, fun ⟨p, hp, hpm⟩ => ⟨p, ?_, hpm⟩⟩
        refine (List.mem_erase_of_ne ?_).2 hp
        rintro rfl
        exact hm (Option.some.inj hpm).symm
  refine h.frame rfl rfl (fun _ _ _ => ⟨rfl, rfl⟩) (fun _ => rfl) hplaces
    (fun m p hm hp => h.unreleased_of hplaces hm hp fun hfree => ?_) (h.nodup.erase _)
    (fun p hp => h.retired p (herase p hp).1) (fun m hm => h.gone m ?_) h.alone (fun u => ?_) ?_
  · change Function.update c.free n true m = true
    rcases eq_or_ne m n with rfl | hmn
    · rw [Function.update_self]
    · rw [Function.update_of_ne hmn, hfree]
  · exact hm.imp_right fun hm => (herase _ hm).1
  · exact (h.threads u).frame rfl (fun _ => hstable u)
      (fun hin => inside_append (e := some _) hin nofun)
      (fun _ _ => rfl) (fun _ _ => ⟨rfl, rfl⟩) (fun _ _ => id) fun _ => id
  · have hlog : operations c'.log = operations c.log := operations_append.trans (List.append_nil _)
    rw [hlog]
    exact h.trace

end

end Config

end RockCoro
