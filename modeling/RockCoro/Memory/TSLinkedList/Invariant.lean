import RockCoro.Lib.Chain
import RockCoro.Lib.Placement
import RockCoro.Memory.TSLinkedList.Basic

/-!
# The invariant of the lists

A `Config` adds to a state its log, the nodes of each list, and the tag that a node has in every
pointer to it. A node that a thread has loaded in its critical section is `Safe`: the links from it
lead to the end of the list through nodes that are linked or that the epoch keeps.
-/

namespace RockCoro

open AtomicObject AtomicObject.Fifo EpochBasedReclamation

variable {L T N V : Type}

/-! ## What a place in the code means -/

/-- What a thread has and where it is. -/
structure Footprint (L N V : Type) where
  phase : Phase (QueueOp L V) (Option V) := .idle
  /-- The list that the thread initializes. -/
  initializes : Option L := none
  /-- The list whose `head_` the thread has set, and not its `tail_`. -/
  stored : Option (L × TaggedPtr N) := none
  /-- The list that is initialized for this thread. -/
  past : Option L := none
  /-- The node that is the thread's own. -/
  holds : Option (TaggedPtr N) := none
  /-- The value in that node. -/
  given : Option V := none
  inside : Bool := false
  /-- The node that the thread has taken out of a list and not retired. -/
  popped : Option (TaggedPtr N) := none

/-- The phase of an operation that was called; `init` is no operation of the queues. -/
def ListOp.phase (op : ListOp L V) : Phase (QueueOp L V) (Option V) :=
  match op.toQueueOp? with
  | some op => .pending op
  | none => .idle

/-- What a thread has while it pushes `v`. -/
def Footprint.pushing (l : L) (v : V) (node : TaggedPtr N) : Footprint L N V where
  phase := .pending (.push l v)
  past := some l
  holds := some node
  given := some v

/-- What a thread has that pops. -/
def Footprint.popping (l : L) (result : Option (Option V)) : Footprint L N V where
  phase :=
    match result with
    | some r => .done (.pop l) r
    | none => .pending (.pop l)
  past := some l

/-- What a thread has in each place of the code. -/
def ListPc.footprint : ListPc L N V → Footprint L N V
  | .idle => {}
  | .initLoad op => { phase := op.phase }
  | .initGet op => { phase := op.phase, initializes := some op.list }
  | .initHead op dummy => { phase := op.phase, initializes := some op.list, holds := some dummy }
  | .initTail op dummy =>
    { phase := op.phase, initializes := some op.list, holds := some dummy,
      stored := some (op.list, dummy) }
  | .pushGet l v => { phase := .pending (.push l v), past := some l }
  | .pushNode l v node => { phase := .pending (.push l v), past := some l, holds := some node }
  | .pushEnter l v node | .pushDone l v node false => .pushing l v node
  | .pushTail l v node | .pushNext l v node _ | .pushLink l v node _ _ | .pushHelp l v node _ _
  | .pushExit l v node false => { Footprint.pushing l v node with inside := true }
  | .pushSwing l v _ _ | .pushExit l v _ true =>
    { phase := .done (.push l v) none, past := some l, inside := true }
  | .pushDone l v _ true => { phase := .done (.push l v) none, past := some l }
  | .popEnter l => .popping l none
  | .popHead l | .popTail l _ | .popAssertFirst l _ _ | .popAssertLast l _ _ | .popNext l _ _
  | .popHelp l _ _ | .popValue l _ _ | .popCas l _ _ _ =>
    { Footprint.popping l none with inside := true }
  | .popRetire l first _ value =>
    { Footprint.popping l (some value) with inside := true, popped := some first }
  | .popExit l result => { Footprint.popping l result with inside := true }
  | .popDone l result => .popping l result

/-! ## Configurations -/

/-- The state with ghosts: the log, the nodes of each list, and the tag under which each node is
in use. -/
structure Config (L T N V : Type) extends Queues L T N V where
  log : List (ListEvent L T N V)
  /-- The nodes from `head_` on. -/
  chain : L → List N
  tag : N → UInt16

/-- The node that `next_` points to. -/
def Queues.next (s : Queues L T N V) (n : N) : Option N := (s.nodes n).next.ptr

namespace Config

variable (c : Config L T N V)

/-- The pointer to a node with its tag. -/
def ref (n : N) : TaggedPtr N := ⟨some n, c.tag n⟩

/-- The pointer to a node, or null. -/
def toPtr : Option N → TaggedPtr N
  | some n => c.ref n
  | none => {}

/-- What the thread has. -/
def footprint (t : T) : Footprint L N V := (c.pcs t).footprint

/-- The places of a node. -/
inductive Place (L T : Type)
  | chain (l : L)
  | held (t : T)
  | popped (t : T)
  | retired
  | free

/-- Where the node is. -/
def At (n : N) : Place L T → Prop
  | .chain l => n ∈ c.chain l
  | .held t => (c.footprint t).holds.bind TaggedPtr.ptr = some n
  | .popped t => (c.footprint t).popped.bind TaggedPtr.ptr = some n
  | .retired => ∃ p ∈ c.retired, p.ptr = some n
  | .free => c.free n = true

/-- The node was taken out of a list, and its release is not due. -/
def Gone (n : N) : Prop := (∃ t, (c.footprint t).popped = some (c.ref n)) ∨ c.ref n ∈ c.retired

/-- The node was taken out of a list while `t` was in the critical section that it is still in. -/
def Kept (t : T) (n : N) : Prop :=
  (∃ u, (c.footprint u).popped = some (c.ref n)) ∨
    c.ref n ∈ c.retired ∧ Protects (epochs c.log) t (c.ref n)

/-- The links from `n` lead to the end of the list, through nodes that are not released while `t` is
in its critical section. -/
def Safe (t : T) (l : L) (n : N) : Prop :=
  ∃ w, Chain.Linked c.next (some n) w ∧
    ∀ m ∈ w, (m ∈ c.chain l ∨ c.Kept t m) ∧ (c.nodes m).next = c.toPtr (c.next m)

/-- The node was at the head of the list, and it is there or was taken out. -/
def First (l : L) (n : N) : Prop := n ∈ c.chain l → (c.chain l).head? = some n

/-- The tail is behind the node while this is the head. -/
def Passed (l : L) (n : N) : Prop := (c.chain l).head? = some n → (c.lists l).tail.ptr ≠ some n

/-- The tail is at the node or behind it. -/
def Reached (l : L) (n : N) : Prop :=
  ∀ l₁ m l₂, c.chain l = l₁ ++ m :: l₂ → (c.lists l).tail = c.ref m → n ∉ l₂

/-- `tail_` may go on from `last` to `next`. -/
def Swings (t : T) (l : L) (last next : TaggedPtr N) : Prop :=
  next.ptr ≠ none ∧ ∃ n, last = c.ref n ∧ c.Safe t l n ∧ (c.nodes n).next = next

/-- What `pop_front` knows of the pointers that it loaded. -/
def Loaded (t : T) (l : L) (first last : TaggedPtr N) : Prop :=
  ∃ n m, first = c.ref n ∧ last = c.ref m ∧ c.Safe t l n ∧ c.First l n ∧ c.Safe t l m ∧
    (n ≠ m → c.Passed l n)

/-- What `pop_front` knows before it takes `first` out. -/
def Takes (t : T) (l : L) (first next : TaggedPtr N) : Prop :=
  ∃ n m, first = c.ref n ∧ next = c.ref m ∧ c.Safe t l n ∧ c.First l n ∧ c.Passed l n ∧
    (c.nodes n).next = next

/-- What a thread knows in each place of the code. -/
def PcOk (t : T) : ListPc L N V → Prop
  | .pushNext l _ _ last => ∃ n, last = c.ref n ∧ c.Safe t l n ∧ c.Reached l n
  | .pushLink l _ _ last next => next = {} ∧ ∃ n, last = c.ref n ∧ c.Safe t l n ∧ c.Reached l n
  | .pushSwing l _ node last => c.Swings t l last node
  | .pushHelp l _ _ last next | .popHelp l last next => c.Swings t l last next
  | .popTail l first => ∃ n, first = c.ref n ∧ c.Safe t l n ∧ c.First l n
  | .popAssertFirst l first last | .popAssertLast l first last | .popNext l first last =>
    c.Loaded t l first last
  | .popValue l first next => c.Takes t l first next
  | .popCas l first next value =>
    c.Takes t l first next ∧ ∀ n, next.ptr = some n → (c.nodes n).value = value
  | _ => True

/-- A list that is initialized. -/
structure ListOk (l : L) : Prop where
  head : (c.lists l).head = c.toPtr (c.chain l).head?
  linked : Chain.Linked c.next (c.chain l).head? (c.chain l)
  next : ∀ n ∈ c.chain l, (c.nodes n).next = c.toPtr (c.next n)
  /-- `tail_` is at the last node or at the one before. -/
  tail : ∃ l₁ n l₂, (c.lists l).tail = c.ref n ∧ c.chain l = l₁ ++ n :: l₂ ∧ l₂.length ≤ 1
  value : ∀ n ∈ (c.chain l).tail, (c.nodes n).value ≠ none

/-- The values in the list: those behind the first node. -/
def contents (l : L) : List V := (c.chain l).tail.filterMap fun n => (c.nodes n).value

/-- What is known of a thread. -/
structure ThreadOk (t : T) : Prop where
  popped : ∀ p, (c.footprint t).popped = some p → ∃ n, p = c.ref n
  held : ∀ p, (c.footprint t).holds = some p → ∃ n, p = c.ref n ∧ (c.nodes n).next = {} ∧
    ∀ v, (c.footprint t).given = some v → (c.nodes n).value = some v
  initializes : ∀ l, (c.footprint t).initializes = some l → c.chain l = []
  past : ∀ l, (c.footprint t).past = some l → c.chain l ≠ []
  inside : (c.footprint t).inside = true → Inside (epochs c.log) t
  pc : c.PcOk t (c.pcs t)

/-- The invariant of the lists. -/
structure Inv [DecidableEq L] [DecidableEq T] (live : N → Prop) : Prop where
  list : ∀ l, c.chain l ≠ [] → c.ListOk l
  fresh : ∀ l, c.chain l = [] → (c.lists l).tail = {} ∧
    ((c.lists l).head = {} ∨ ∃ t, (c.footprint t).stored = some (l, (c.lists l).head))
  stored : ∀ t l p, (c.footprint t).stored = some (l, p) → (c.lists l).head = p
  places : Placement.Exclusive c.At live
  unreleased : ∀ n p, c.At n p → p ≠ .free → (c.nodes n).released = false
  nodup : c.retired.Nodup
  retired : ∀ p ∈ c.retired, ∃ n, p = c.ref n
  gone : ∀ n, c.Gone n → c.next n ≠ none
  alone : ∀ t u l, (c.footprint t).initializes = some l → (c.footprint u).initializes = some l →
    t = u
  threads : ∀ t, c.ThreadOk t
  trace : Trace queue (operations c.log) ⟨c.contents, fun t => (c.footprint t).phase⟩

end Config

/-! ## What a step leaves to a thread -/

namespace Config

variable {c c' : Config L T N V} {t u : T} {l : L} {n m : N} {live : N → Prop}

/-- A pointer to a node depends on its tag only. -/
theorem ref_congr (h : c'.tag n = c.tag n) : c'.ref n = c.ref n :=
  congrArg (TaggedPtr.mk (some n)) h

/-- What `t` knows of the nodes that it has loaded stays true. -/
structure Stable (c c' : Config L T N V) (t : T) : Prop where
  safe : ∀ l n, c.Safe t l n → c'.Safe t l n
  ref : ∀ l n, c.Safe t l n → c'.ref n = c.ref n
  value : ∀ l n, c.Safe t l n → (c'.nodes n).value = (c.nodes n).value
  next : ∀ l n, c.Safe t l n → c.next n ≠ none → (c'.nodes n).next = (c.nodes n).next
  first : ∀ l n, c.Safe t l n → c.First l n → c'.First l n
  passed : ∀ l n, c.Safe t l n → c.First l n → c.Passed l n → c'.Passed l n
  reached : ∀ l n, c.Safe t l n → c.Reached l n → c'.Reached l n

/-- Safety goes along the links. -/
theorem Safe.tail (h : c.Safe t l n) (hm : c.next n = some m) : c.Safe t l m := by
  obtain ⟨w, hw, hok⟩ := h
  cases w with
  | nil => cases hw
  | cons n' w =>
    obtain ⟨⟨⟩, hw⟩ := hw
    rw [hm] at hw
    exact ⟨w, hw, fun k hk => hok k (List.mem_cons_of_mem _ hk)⟩

/-- A safe node is in the list or kept, and its link is what the tags say. -/
theorem Safe.mem (h : c.Safe t l n) :
    (n ∈ c.chain l ∨ c.Kept t n) ∧ (c.nodes n).next = c.toPtr (c.next n) := by
  obtain ⟨w, hw, hok⟩ := h
  cases w with
  | nil => cases hw
  | cons n' w =>
    obtain ⟨⟨⟩, -⟩ := hw
    exact hok n List.mem_cons_self

/-- A kept node is gone. -/
theorem Kept.gone (h : c.Kept t n) : c.Gone n := h.imp_right And.left

variable {pc : ListPc L N V}

/-- What swinging needs stays true. -/
theorem Swings.stable {last next : TaggedPtr N} (h : c.Swings t l last next) (hs : Stable c c' t) :
    c'.Swings t l last next := by
  obtain ⟨hnext, n, rfl, hsafe, rfl⟩ := h
  exact ⟨hnext, n, (hs.ref l n hsafe).symm, hs.safe l n hsafe, hs.next l n hsafe hnext⟩

/-- What `pop_front` knows of its loads stays true. -/
theorem Loaded.stable {first last : TaggedPtr N} (h : c.Loaded t l first last)
    (hs : Stable c c' t) :
    c'.Loaded t l first last := by
  obtain ⟨n, m, rfl, rfl, hn, hfirst, hm, hpassed⟩ := h
  exact ⟨n, m, (hs.ref l n hn).symm, (hs.ref l m hm).symm, hs.safe l n hn, hs.first l n hn hfirst,
    hs.safe l m hm, fun hne => hs.passed l n hn hfirst (hpassed hne)⟩

/-- What taking needs stays true. -/
theorem Takes.stable {first next : TaggedPtr N} (h : c.Takes t l first next) (hs : Stable c c' t) :
    c'.Takes t l first next := by
  obtain ⟨n, m, rfl, hm, hn, hfirst, hpassed, rfl⟩ := h
  have hnext : c.next n = some m := congrArg TaggedPtr.ptr hm
  refine ⟨n, m, (hs.ref l n hn).symm, ?_, hs.safe l n hn, hs.first l n hn hfirst,
    hs.passed l n hn hfirst hpassed, hs.next l n hn (hnext ▸ nofun)⟩
  rw [hm, hs.ref l m (hn.tail hnext)]

/-- What a thread knows in its place stays true while its nodes are stable. -/
theorem PcOk.stable (h : c.PcOk t pc) (hs : Stable c c' t) : c'.PcOk t pc := by
  cases pc with
  | pushNext l v node last =>
    obtain ⟨n, rfl, hsafe, hreached⟩ := h
    exact ⟨n, (hs.ref l n hsafe).symm, hs.safe l n hsafe, hs.reached l n hsafe hreached⟩
  | pushLink l v node last next =>
    obtain ⟨hnext, n, rfl, hsafe, hreached⟩ := h
    exact ⟨hnext, n, (hs.ref l n hsafe).symm, hs.safe l n hsafe, hs.reached l n hsafe hreached⟩
  | pushSwing | pushHelp | popHelp => exact Swings.stable h hs
  | popTail l first =>
    obtain ⟨n, rfl, hsafe, hfirst⟩ := h
    exact ⟨n, (hs.ref l n hsafe).symm, hs.safe l n hsafe, hs.first l n hsafe hfirst⟩
  | popAssertFirst | popAssertLast | popNext => exact Loaded.stable h hs
  | popValue => exact Takes.stable h hs
  | popCas l first next value =>
    obtain ⟨htakes, hvalue⟩ := h
    refine ⟨htakes.stable hs, fun m hm => ?_⟩
    obtain ⟨n, -, -, -, hn, -, -, rfl⟩ := htakes
    rw [hs.value l m (hn.tail hm)]
    exact hvalue m hm
  | _ => trivial

/-- The nodes that are linked or kept stay so. -/
theorem Safe.mono (h : c.Safe t l n)
    (hnode : ∀ m, m ∈ c.chain l ∨ c.Kept t m → c'.nodes m = c.nodes m ∧ c'.tag m = c.tag m)
    (hkept : ∀ m, m ∈ c.chain l ∨ c.Kept t m → m ∈ c'.chain l ∨ c'.Kept t m) : c'.Safe t l n := by
  obtain ⟨w, hw, hok⟩ := h
  have hnext : ∀ m ∈ w, c'.next m = c.next m := fun m hm => by
    rw [Queues.next, (hnode m (hok m hm).1).1]
    rfl
  refine ⟨w, hw.congr hnext, fun m hm => ⟨hkept m (hok m hm).1, ?_⟩⟩
  rw [(hnode m (hok m hm).1).1, (hok m hm).2, hnext m hm]
  cases hk : c.next m with
  | none => rfl
  | some k => exact (ref_congr (hnode k (hok k (hw.mem_of_next hm hk)).1).2).symm

/-- A step that changes no link, no list and no place of a node that is linked or kept. -/
theorem Stable.of_frame (hchain : c'.chain = c.chain)
    (hlists : ∀ l, c.chain l ≠ [] → c'.lists l = c.lists l)
    (hnode : ∀ m, (∃ l, m ∈ c.chain l) ∨ c.Kept t m → c'.nodes m = c.nodes m ∧ c'.tag m = c.tag m)
    (hkept : ∀ m, c.Kept t m → c'.Kept t m) : Stable c c' t := by
  have hsafe : ∀ l n, c.Safe t l n → c'.nodes n = c.nodes n ∧ c'.tag n = c.tag n :=
    fun l n h => hnode n (h.mem.1.imp_left fun hm => ⟨l, hm⟩)
  refine ⟨fun l n h => h.mono (fun m hm => hnode m (hm.imp_left fun hm => ⟨l, hm⟩)) fun m hm => ?_,
    fun l n h => ?_, fun l n h => ?_, fun l n h _ => ?_, fun l n _ hfirst => ?_,
    fun l n _ _ hpassed => ?_,
    fun l n _ hreached => ?_⟩
  · rw [hchain]
    exact hm.imp_right (hkept m)
  · exact ref_congr (hsafe l n h).2
  · rw [(hsafe l n h).1]
  · rw [(hsafe l n h).1]
  · rw [First, hchain]
    exact hfirst
  · rw [Passed, hchain]
    intro hhead
    have hne : c.chain l ≠ [] := by
      intro hnil
      rw [hnil] at hhead
      cases hhead
    rw [hlists l hne]
    exact hpassed hhead
  · rw [Reached, hchain]
    intro l₁ m l₂ hl htail
    have hm : m ∈ c.chain l := hl ▸ List.mem_append_right _ List.mem_cons_self
    rw [hlists l (List.ne_nil_of_mem hm), ref_congr (hnode m (.inl ⟨l, hm⟩)).2] at htail
    exact hreached l₁ m l₂ hl htail

/-- A thread that has set `head_` and not `tail_` initializes the list. -/
theorem initializes_of_stored {p : TaggedPtr N} (h : pc.footprint.stored = some (l, p)) :
    pc.footprint.initializes = some l := by
  cases pc with
  | initTail op dummy =>
    obtain ⟨rfl, -⟩ := Prod.mk.inj (Option.some.inj h)
    rfl
  | pushExit _ _ _ linked | pushDone _ _ _ linked => cases linked <;> cases h
  | _ => cases h

/-- A thread that has set `head_` still holds the dummy node. -/
theorem holds_of_stored {p : TaggedPtr N} (h : pc.footprint.stored = some (l, p)) :
    pc.footprint.holds = some p := by
  cases pc with
  | initTail op dummy =>
    obtain ⟨-, rfl⟩ := Prod.mk.inj (Option.some.inj h)
    rfl
  | pushExit _ _ _ linked | pushDone _ _ _ linked => cases linked <;> cases h
  | _ => cases h

/-- A place outside of the critical sections says nothing about nodes. -/
theorem pcOk_of_not_inside (h : pc.footprint.inside = false) : c.PcOk t pc := by
  cases pc with
  | pushExit | pushDone | popExit | popDone | idle | initLoad | initGet | initHead | initTail
  | pushGet | pushNode | pushEnter | pushTail | popEnter | popHead | popRetire => trivial
  | _ => cases h

/-- A thread that does not move. -/
theorem ThreadOk.frame (h : c.ThreadOk t) (hpc : c'.pcs t = c.pcs t)
    (hstable : (c.footprint t).inside = true → Stable c c' t)
    (hinside : Inside (epochs c.log) t → Inside (epochs c'.log) t)
    (hpopped : ∀ n, (c.footprint t).popped = some (c.ref n) → c'.tag n = c.tag n)
    (hheld : ∀ n, (c.footprint t).holds = some (c.ref n) → c'.nodes n = c.nodes n ∧
    c'.tag n = c.tag n)
    (hinit : ∀ l, (c.footprint t).initializes = some l → c.chain l = [] → c'.chain l = [])
    (hpast : ∀ l, c.chain l ≠ [] → c'.chain l ≠ []) : c'.ThreadOk t := by
  have hfoot : c'.footprint t = c.footprint t := congrArg ListPc.footprint hpc
  refine ⟨fun p hp => ?_, fun p hp => ?_, fun l hl => ?_, fun l hl => ?_, fun hin => ?_, ?_⟩
  · rw [hfoot] at hp
    obtain ⟨n, rfl⟩ := h.popped p hp
    exact ⟨n, (ref_congr (hpopped n hp)).symm⟩
  · rw [hfoot] at hp ⊢
    obtain ⟨n, rfl, hnext, hvalue⟩ := h.held p hp
    obtain ⟨hnode, htag⟩ := hheld n hp
    exact ⟨n, (ref_congr htag).symm, hnode ▸ hnext, hnode ▸ hvalue⟩
  · rw [hfoot] at hl
    exact hinit l hl (h.initializes l hl)
  · rw [hfoot] at hl
    exact hpast l (h.past l hl)
  · rw [hfoot] at hin
    exact hinside (h.inside hin)
  · rw [hpc]
    cases hin : (c.footprint t).inside with
    | false => exact pcOk_of_not_inside hin
    | true => exact h.pc.stable (hstable hin)

end Config

end RockCoro
