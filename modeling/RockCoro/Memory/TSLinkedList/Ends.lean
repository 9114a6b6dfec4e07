import RockCoro.Memory.TSLinkedList.Links

/-!
# The steps at the ends of a list

The exchanges of `tail_` and `head_`, and the stores of `init`.
-/

namespace RockCoro.Config

open AtomicObject AtomicObject.Fifo EpochBasedReclamation

variable {L T N V : Type} [DecidableEq L] [DecidableEq T] {c c' : Config L T N V} {t u : T}
  {l l' : L}
  {n m k : N} {live : N → Prop} {pc : ListPc L N V} {first last next : TaggedPtr N}

/-! ## The tail -/

/-- `tail_` is set. -/
def setTail (c : Config L T N V) (l : L) (p : TaggedPtr N) : Config L T N V :=
  { c with toQueues := c.setList l { c.lists l with tail := p } }

omit [DecidableEq T] in
/-- The tail of the list is the new one. -/
theorem setTail_lists_self {p : TaggedPtr N} :
    (c.setTail l p).lists l = { c.lists l with tail := p } :=
  Function.update_self ..

omit [DecidableEq T] in
/-- The other lists are as before. -/
theorem setTail_lists_of_ne {p : TaggedPtr N} (hl : l' ≠ l) :
    (c.setTail l p).lists l' = c.lists l' :=
  Function.update_of_ne hl ..

/-- What follows a node of a list in the chain. -/
theorem Inv.split_of_next (h : c.Inv live) (hn : n ∈ c.chain l) (hm : c.next n = some m) :
    ∃ l₁ l₂, c.chain l = l₁ ++ n :: m :: l₂ := by
  obtain ⟨l₁, l₂, hl⟩ := List.append_of_mem hn
  have hlinked := (h.list l (List.ne_nil_of_mem hn)).linked
  rw [hl] at hlinked
  have hrest := hlinked.suffix.2
  rw [hm] at hrest
  cases l₂ with
  | nil => cases hrest
  | cons b l₂ =>
    obtain ⟨⟨⟩, -⟩ := hrest
    exact ⟨l₁, l₂, hl⟩

/-- A node is at one position of its list. -/
theorem Inv.split_unique (h : c.Inv live) {l₁ l₂ r₁ r₂ : List N} (h₁ : c.chain l = l₁ ++ n :: r₁)
    (h₂ : c.chain l = l₂ ++ n :: r₂) : l₁ = l₂ ∧ r₁ = r₂ := by
  have hnodup := h.nodup_chain l
  rw [h₁] at hnodup h₂
  have hn : n ∉ l₁ ++ r₁ := (List.nodup_cons.1 (List.nodup_middle.1 hnodup)).1
  obtain ⟨hl, -, hr⟩ := (List.append_cons_inj_of_notMem (fun hl => hn (List.mem_append_left _ hl))
    fun hr => hn (List.mem_append_right _ hr)).1 h₂
  exact ⟨hl, hr⟩

/-- `tail_` goes on to the next node, which is the last. -/
theorem Inv.tail_split (h : c.Inv live) (hswings : c.Swings t l last next)
    (htail : (c.lists l).tail = last) :
    ∃ l₁ n m, last = c.ref n ∧ next = c.ref m ∧ c.chain l = l₁ ++ [n, m] := by
  obtain ⟨hnull, n, rfl, hsafe, rfl⟩ := hswings
  obtain ⟨l₁, k, l₂, hk, hl, hlen⟩ := (h.list l (h.chain_ne_nil hsafe)).tail
  obtain rfl : n = k := Option.some.inj (congrArg TaggedPtr.ptr (htail.symm.trans hk))
  have hn : n ∈ c.chain l := hl ▸ List.mem_append_right _ List.mem_cons_self
  obtain ⟨m, hm⟩ := Option.ne_none_iff_exists'.1 hnull
  obtain ⟨r₁, r₂, hr⟩ := h.split_of_next hn hm
  obtain ⟨-, rfl⟩ := h.split_unique hl hr
  obtain rfl : r₂ = [] := by
    rw [List.length_cons] at hlen
    exact List.eq_nil_of_length_eq_zero (by omega)
  refine ⟨r₁, n, m, rfl, ?_, hr⟩
  rw [hsafe.mem.2, Queues.next, hm]
  rfl

/-- `tail_` goes on to the last node. -/
theorem Inv.setTail (h : c.Inv live) (hswings : c.Swings t l last next)
    (htail : (c.lists l).tail = last) : (c.setTail l next).Inv live := by
  obtain ⟨l₁, n, m, rfl, rfl, hl⟩ := h.tail_split hswings htail
  have hne : c.chain l ≠ [] := by
    rw [hl]
    exact List.append_ne_nil_of_right_ne_nil _ (List.cons_ne_nil _ _)
  set c' := c.setTail l (c.ref m) with hc'
  have hlist : ∀ l', (c'.lists l').head = (c.lists l').head := by
    intro l'
    rcases eq_or_ne l' l with rfl | hl'
    · rw [hc', setTail_lists_self]
    · rw [hc', setTail_lists_of_ne hl']
  have hsplit : c.chain l = (l₁ ++ [n]) ++ m :: [] := by
    rw [hl, List.append_assoc]
    rfl
  have hstable : ∀ u, Stable c c' u := by
    refine fun u => ⟨fun l' k hk => hk, fun _ _ _ => rfl, fun _ _ _ => rfl, fun _ _ _ _ => rfl,
      fun _ _ _ hfirst => hfirst, fun l' k _ _ hpassed hhead => ?_,
      fun l' k _ hreached r₁ y r₂ hr hy => ?_⟩
    · rcases eq_or_ne l' l with rfl | hl'
      · -- the last of two nodes is not the head
        rw [hc', setTail_lists_self]
        intro hmk
        obtain rfl := Option.some.inj hmk
        change (c.chain l').head? = some m at hhead
        obtain ⟨r, hr⟩ := List.head?_eq_some_iff.1 hhead
        obtain ⟨hnil, -⟩ := h.split_unique (show _ = [] ++ _ :: r from hr) hsplit
        exact List.append_ne_nil_of_right_ne_nil _ (List.cons_ne_nil _ _) hnil.symm
      · rw [hc', setTail_lists_of_ne hl']
        exact hpassed hhead
    · rcases eq_or_ne l' l with rfl | hl'
      · rw [hc', setTail_lists_self] at hy
        obtain rfl : m = y := Option.some.inj (congrArg TaggedPtr.ptr hy)
        obtain ⟨-, rfl⟩ := h.split_unique hr hsplit
        exact List.not_mem_nil
      · rw [hc', setTail_lists_of_ne hl'] at hy
        exact hreached r₁ y r₂ hr hy
  refine ⟨fun l' hl' => ?_, fun l' hl' => ?_, fun u l' p hu => ?_, h.places, h.unreleased,
    h.nodup, h.retired, h.gone, h.alone, fun u => ?_, h.trace⟩
  · rcases eq_or_ne l' l with rfl | hne
    · have hok := h.list l' hl'
      refine ⟨?_, hok.linked, hok.next, ⟨l₁ ++ [n], m, [], ?_, hsplit, Nat.zero_le _⟩, hok.value⟩
      · rw [hlist]
        exact hok.head
      · rw [hc', setTail_lists_self]
        rfl
    · exact (h.list l' hl').congr rfl (setTail_lists_of_ne hne) fun _ _ => ⟨rfl, rfl⟩
  · have hl'l : l' ≠ l := by
      rintro rfl
      exact hne hl'
    rw [hc', setTail_lists_of_ne hl'l]
    exact h.fresh l' hl'
  · rw [hlist]
    exact h.stored u l' p hu
  · exact (h.threads u).frame rfl (fun _ => hstable u) id (fun _ _ => rfl) (fun _ _ => ⟨rfl, rfl⟩)
      (fun _ _ => id) fun _ => id

/-! ## The head -/

/-- The first node is taken out. -/
def takeHead (c : Config L T N V) (t : T) (pc : ListPc L N V) (l : L) (next : TaggedPtr N)
    (value : Option V) : Config L T N V :=
  { c with
    toQueues := (c.setList l { c.lists l with head := next }).setPc t pc
    chain := Function.update c.chain l (c.chain l).tail
    log := c.log ++ [.op (.commit t (.pop l) value)] }

variable {value : Option V}

/-- The head of the list is the next node. -/
theorem takeHead_lists_self :
    (c.takeHead t pc l next value).lists l = { c.lists l with head := next } :=
  Function.update_self ..

/-- The other lists are as before. -/
theorem takeHead_lists_of_ne (hl : l' ≠ l) : (c.takeHead t pc l next value).lists l' = c.lists l' :=
  Function.update_of_ne hl ..

/-- The chain loses its first node. -/
theorem takeHead_chain_self : (c.takeHead t pc l next value).chain l = (c.chain l).tail :=
  Function.update_self ..

/-- The other chains are as before. -/
theorem takeHead_chain_of_ne (hl : l' ≠ l) : (c.takeHead t pc l next value).chain l' = c.chain l' :=
  Function.update_of_ne hl ..

/-- `head_` goes on to the second node. -/
theorem Inv.head_split (h : c.Inv live) (htakes : c.Takes t l first next)
    (hhead : (c.lists l).head = first) :
    ∃ n m r, first = c.ref n ∧ next = c.ref m ∧ c.chain l = n :: m :: r ∧
    (c.nodes n).next = c.ref m ∧
      (c.lists l).tail.ptr ≠ some n := by
  obtain ⟨n, m, rfl, rfl, hsafe, -, hpassed, hnext⟩ := htakes
  have hne := h.chain_ne_nil hsafe
  obtain ⟨k, r, hk⟩ := List.exists_cons_of_ne_nil hne
  have hkn : some k = some n := by
    have hptr := (h.list l hne).head
    rw [hhead, hk] at hptr
    exact (congrArg TaggedPtr.ptr hptr).symm
  obtain rfl := Option.some.inj hkn
  have hmem : k ∈ c.chain l := hk ▸ List.mem_cons_self
  obtain ⟨l₁, l₂, hl⟩ := h.split_of_next hmem (congrArg TaggedPtr.ptr hnext)
  obtain ⟨rfl, rfl⟩ := h.split_unique (show _ = [] ++ _ :: r from hk) hl
  exact ⟨k, m, l₂, rfl, rfl, hk, hnext, hpassed (by rw [hk]; rfl)⟩

/-- Taking the first node out of a list changes nothing that a thread knows of its nodes: the node
is kept. -/
theorem Inv.stable_takeHead (h : c.Inv live) {r : List N} (hl : c.chain l = n :: r)
    (hholds : (c.footprint t).popped = none) (hpopped : pc.footprint.popped = some (c.ref n)) :
    Stable c (c.takeHead t pc l next value) u := by
  have hnr : n ∉ r := by
    have hnodup := h.nodup_chain l
    rw [hl] at hnodup
    exact (List.nodup_cons.1 hnodup).1
  have hchain : (c.takeHead t pc l next value).chain l = r := by
    rw [takeHead_chain_self, hl, List.tail_cons]
  -- a node that was once the head is no longer in the list
  have hout : ∀ k, c.First l k → k ∉ r := by
    intro k hfirst hkr
    have hhead := hfirst (hl ▸ List.mem_cons_of_mem _ hkr)
    rw [hl] at hhead
    exact hnr (Option.some.inj hhead ▸ hkr)
  have hkept : ∀ k, c.Kept u k → (c.takeHead t pc l next value).Kept u k := by
    refine fun k => Or.imp (Exists.imp fun w hw => ?_)
      (And.imp_right fun hp => protects_append (e := some _) hp nofun)
    have hwt : w ≠ t := by
      rintro rfl
      rw [hholds] at hw
      cases hw
    rw [footprint_of_ne rfl hwt]
    exact hw
  refine ⟨fun l' k hk => hk.mono (fun _ _ => ⟨rfl, rfl⟩) fun y hy => ?_, fun _ _ _ => rfl,
    fun _ _ _ => rfl, fun _ _ _ _ => rfl, fun l' k _ hfirst hmem => ?_,
    fun l' k _ hfirst hpassed hhead => ?_, fun l' k _ hreached l₁ y l₂ hy htail => ?_⟩
  · rcases hy with hy | hy
    · rcases eq_or_ne l' l with rfl | hne
      · rw [hl] at hy
        rw [hchain]
        rcases List.mem_cons.1 hy with rfl | hy
        · exact .inr (.inl ⟨t, by rw [footprint_self rfl]; exact hpopped⟩)
        · exact .inl hy
      · rw [takeHead_chain_of_ne hne]
        exact .inl hy
    · exact .inr (hkept y hy)
  · rcases eq_or_ne l' l with rfl | hne
    · rw [hchain] at hmem
      exact absurd hmem (hout k hfirst)
    · rw [takeHead_chain_of_ne hne] at hmem ⊢
      exact hfirst hmem
  · rcases eq_or_ne l' l with rfl | hne
    · rw [hchain] at hhead
      exact absurd (List.mem_of_mem_head? hhead) (hout k hfirst)
    · rw [takeHead_chain_of_ne hne] at hhead
      rw [takeHead_lists_of_ne hne]
      exact hpassed hhead
  · rcases eq_or_ne l' l with rfl | hne
    · rw [hchain] at hy
      rw [takeHead_lists_self] at htail
      exact hreached (n :: l₁) y l₂ (by rw [hl, hy]; rfl) htail
    · rw [takeHead_chain_of_ne hne] at hy
      rw [takeHead_lists_of_ne hne] at htail
      exact hreached l₁ y l₂ hy htail

/-- The node that is taken out of the chain comes into the hands of the thread. -/
theorem Inv.places_takeHead (h : c.Inv live) {r : List N} (hl : c.chain l = n :: r)
    (hout : (c.footprint t).popped = none) (hpopped : pc.footprint.popped = some (c.ref n))
    (hholds : pc.footprint.holds = (c.footprint t).holds) :
    Placement.Exclusive (c.takeHead t pc l next value).At live := by
  have hn : c.At n (.chain l) := by
    rw [At, hl]
    exact List.mem_cons_self
  have hnr : n ∉ r := by
    have hnodup := h.nodup_chain l
    rw [hl] at hnodup
    exact (List.nodup_cons.1 hnodup).1
  set c' := c.takeHead t pc l next value with hc'
  have hchain : c'.chain l = r := by rw [hc', takeHead_chain_self, hl, List.tail_cons]
  have hpcs : c'.pcs = Function.update c.pcs t pc := rfl
  have hself := footprint_self hpcs
  have hholds := footprint_same (φ := Footprint.holds) hpcs hholds
  refine h.places.move (q := .popped t) (p := .chain l) (c := n) hn ?_ (fun q hq => ?_)
    (fun k hk q => ?_) fun _ => .rfl
  · rw [At, hself, hpopped]
    rfl
  · cases q with
    | chain l' =>
      rcases eq_or_ne l' l with rfl | hl'
      · rw [At, hchain] at hq
        exact absurd hq hnr
      · rw [At, hc', takeHead_chain_of_ne hl'] at hq
        exact .inr ⟨hq, fun he => hl' (Place.chain.inj he)⟩
    | held u =>
      rw [At, hholds] at hq
      exact .inr ⟨hq, by simp⟩
    | popped u =>
      rcases eq_or_ne u t with rfl | hu
      · exact .inl rfl
      · rw [At, footprint_of_ne hpcs hu] at hq
        exact .inr ⟨hq, by simp⟩
    | retired | free => exact .inr ⟨hq, by simp⟩
  · cases q with
    | chain l' =>
      rcases eq_or_ne l' l with rfl | hl'
      · rw [At, At, hchain, hl, List.mem_cons (b := n)]
        exact ⟨.inr, fun he => he.resolve_left hk⟩
      · rw [At, At, hc', takeHead_chain_of_ne hl']
    | held u => rw [At, At, hholds]
    | popped u =>
      rcases eq_or_ne u t with rfl | hu
      · rw [At, At, hself, hout, hpopped]
        exact ⟨fun he => absurd (Option.some.inj he).symm hk, fun he => by cases he⟩
      · rw [At, At, footprint_of_ne hpcs hu]
    | retired | free => exact .rfl

/-- The list without its first node. -/
theorem ListOk.takeHead {r : List N} (h : c.ListOk l) (hl : c.chain l = n :: m :: r)
    (htail : (c.lists l).tail.ptr ≠ some n) :
    (c.takeHead t pc l (c.ref m) value).ListOk l := by
  set c' := c.takeHead t pc l (c.ref m) value with hc'
  have hchain : c'.chain l = m :: r := by rw [hc', takeHead_chain_self, hl, List.tail_cons]
  refine ⟨?_, ?_, fun k hk => h.next k ?_, ?_, fun k hk => h.value k ?_⟩
  · rw [hchain, hc', takeHead_lists_self]
    rfl
  · rw [hchain]
    have hlinked := h.linked
    rw [hl] at hlinked
    exact Chain.Linked.suffix (show Chain.Linked _ _ ([n] ++ _) from hlinked)
  · rw [hchain] at hk
    exact hl ▸ List.mem_cons_of_mem _ hk
  · -- the tail is behind the node that is taken out
    obtain ⟨l₁, k, l₂, hk, hsplit, hlen⟩ := h.tail
    cases l₁ with
    | nil =>
      rw [hl] at hsplit
      obtain ⟨rfl, -⟩ := List.cons.inj hsplit
      rw [hk] at htail
      exact absurd rfl htail
    | cons b l₁ =>
      rw [hl] at hsplit
      obtain ⟨-, hsplit⟩ := List.cons.inj hsplit
      exact ⟨l₁, k, l₂, by rw [hc', takeHead_lists_self]; exact hk, hchain.trans hsplit, hlen⟩
  · rw [hchain] at hk
    rw [hl]
    exact List.mem_of_mem_tail hk

/-- The exchange takes the first value of the queue. -/
theorem Inv.apply_takeHead (h : c.Inv live) {r : List N} (hl : c.chain l = n :: m :: r)
    (hvalue : (c.nodes m).value = value) :
    queue.apply (.pop l) c.contents =
      ((c.takeHead t pc l (c.ref m) value).contents, value) := by
  set c' := c.takeHead t pc l (c.ref m) value with hc'
  have hchain : c'.chain l = m :: r := by rw [hc', takeHead_chain_self, hl, List.tail_cons]
  have hok := h.list l (by rw [hl]; exact List.cons_ne_nil _ _)
  obtain ⟨w, hw⟩ : ∃ w, (c.nodes m).value = some w :=
    Option.ne_none_iff_exists'.1 (hok.value m (by rw [hl]; exact List.mem_cons_self))
  have hcontents : c.contents l = w :: c'.contents l := by
    rw [contents, contents, hchain, hl]
    exact List.filterMap_cons_some hw
  refine Prod.ext (funext fun l' => ?_) ?_
  · rcases eq_or_ne l' l with rfl | hl'
    · exact (Function.update_self ..).trans (congrArg List.tail hcontents)
    · have hsame : c'.contents l' = c.contents l' :=
        contents_congr (takeHead_chain_of_ne hl') fun _ _ => rfl
      exact (Function.update_of_ne hl' ..).trans hsame.symm
  · exact (congrArg List.head? hcontents).trans (hw.symm.trans hvalue)

/-- The exchange of `head_` that succeeds takes effect: the value goes to the thread, the node is
out of the list. -/
theorem Inv.takeHead (h : c.Inv live) (hpc : c.pcs t = .popCas l first next value)
    (hhead : (c.lists l).head = first) :
    (c.takeHead t (.popRetire l first next value) l next value).Inv live := by
  have hfoot : c.footprint t = (ListPc.popCas l first next value).footprint := congrArg _ hpc
  obtain ⟨htakes, hvalue⟩ : c.PcOk t (.popCas l first next value) := hpc ▸ (h.threads t).pc
  obtain ⟨n, m, r, rfl, rfl, hl, hnext, htail⟩ := h.head_split htakes hhead
  have hvalue : (c.nodes m).value = value := hvalue m rfl
  have hne : c.chain l ≠ [] := by
    rw [hl]
    exact List.cons_ne_nil _ _
  have hok := h.list l hne
  set pc : ListPc L N V := .popRetire l (c.ref n) (c.ref m) value with hpc'
  set c' := c.takeHead t pc l (c.ref m) value with hc'
  have hchain : c'.chain l = m :: r := by rw [hc', takeHead_chain_self, hl, List.tail_cons]
  have hpcs : c'.pcs = Function.update c.pcs t pc := rfl
  have hself := footprint_self hpcs
  have hstored := footprint_same (φ := Footprint.stored) hpcs (by rw [hfoot]; rfl)
  have hstable : ∀ u, Stable c c' u := fun u => h.stable_takeHead hl (by rw [hfoot]; rfl) rfl
  have hnil : ∀ l', c.chain l' ≠ [] ↔ c'.chain l' ≠ [] := by
    intro l'
    rcases eq_or_ne l' l with rfl | hl'
    · rw [hchain]
      exact ⟨fun _ => List.cons_ne_nil _ _, fun _ => hne⟩
    · rw [hc', takeHead_chain_of_ne hl']
  have hplaces : Placement.Exclusive c'.At live :=
    h.places_takeHead hl (by rw [hfoot]; rfl) rfl (by rw [hfoot]; rfl)
  refine ⟨fun l' hl' => ?_, fun l' hl' => ?_, fun u l' p hu => ?_, hplaces,
    fun k p hk hp => h.unreleased_of hplaces hk hp id, h.nodup, h.retired, fun k hk => ?_,
    fun u w l' hu hw => ?_, fun u => ?_, ?_⟩
  · rcases eq_or_ne l' l with rfl | hl'l
    · exact hok.takeHead hl htail
    · exact (h.list l' ((hnil l').2 hl')).congr (takeHead_chain_of_ne hl'l)
        (takeHead_lists_of_ne hl'l)
        fun _ _ => ⟨rfl, rfl⟩
  · have hl'l : l' ≠ l := by
      rintro rfl
      exact (hnil l').1 hne hl'
    rw [hc', takeHead_chain_of_ne hl'l] at hl'
    rw [hc', takeHead_lists_of_ne hl'l]
    exact (h.fresh l' hl').imp_right (Or.imp_right (Exists.imp fun u => (hstored u).trans))
  · rw [hstored] at hu
    have hl'l : l' ≠ l := by
      rintro rfl
      exact hne ((h.threads u).initializes l' (initializes_of_stored hu))
    rw [hc', takeHead_lists_of_ne hl'l]
    exact h.stored u l' p hu
  · rcases hk with ⟨u, hu⟩ | hk
    · rcases eq_or_ne u t with rfl | hut
      · rw [hself] at hu
        obtain rfl := Option.some.inj (congrArg TaggedPtr.ptr (Option.some.inj hu))
        change (c.nodes n).next.ptr ≠ none
        rw [hnext]
        exact Option.some_ne_none _
      · rw [footprint_of_ne hpcs hut] at hu
        exact h.gone k (.inl ⟨u, hu⟩)
    · exact h.gone k (.inr hk)
  · have hinit := footprint_same (φ := Footprint.initializes) hpcs (by rw [hfoot]; rfl)
    rw [hinit] at hu hw
    exact h.alone u w l' hu hw
  · rcases eq_or_ne u t with rfl | hu
    · refine ⟨fun p hp => ?_, fun p hp => ?_, fun l' hl' => ?_, fun l' hl' => ?_, fun _ => ?_, ?_⟩
      · rw [hself] at hp
        exact ⟨n, (Option.some.inj hp).symm⟩
      · rw [hself] at hp
        cases hp
      · rw [hself] at hl'
        cases hl'
      · rw [hself] at hl'
        cases hl'
        exact (hnil l).1 hne
      · exact inside_append (e := some _) ((h.threads u).inside (by rw [hfoot]; rfl)) op_ne_epoch
      · rw [hpcs, Function.update_self]
        trivial
    · refine (h.threads u).frame (Function.update_of_ne hu _ _) (fun _ => hstable u)
        (fun hin => inside_append (e := some _) hin op_ne_epoch) (fun _ _ => rfl)
        (fun _ _ => ⟨rfl, rfl⟩)
        (fun l' _ hl' => ?_) fun l' => (hnil l').1
      by_contra hne
      exact (hnil l').2 hne hl'
  · have hphase : (c.footprint t).phase = .pending (.pop l) := by
      rw [hfoot]
      rfl
    have happly : queue.apply (.pop l) c.contents = (c'.contents, value) :=
      h.apply_takeHead hl hvalue
    have htrace := h.trace.snoc (.commit hphase happly)
    rw [phases_eq hpcs, show operations c'.log = operations c.log ++ [_] from operations_append]
    exact htrace

/-! ## The stores of `init` -/

variable {op : ListOp L V} {dummy : TaggedPtr N}

/-- `head_` of a new list is set. -/
def initHead (c : Config L T N V) (t : T) (op : ListOp L V) (dummy : TaggedPtr N) :
    Config L T N V :=
  { c with
    toQueues :=
      (c.setList op.list { c.lists op.list with head := dummy }).setPc t (.initTail op dummy)
    log := c.log ++ [.dummy op.list dummy] }

/-- The head of the list is the dummy node. -/
theorem initHead_lists_self :
    (c.initHead t op dummy).lists op.list = { c.lists op.list with head := dummy } :=
  Function.update_self ..

/-- The other lists are as before. -/
theorem initHead_lists_of_ne (hl : l ≠ op.list) : (c.initHead t op dummy).lists l = c.lists l :=
  Function.update_of_ne hl ..

/-- The first store of `init`: the list has a head and is not initialized yet. -/
theorem Inv.initHead (h : c.Inv live) (hpc : c.pcs t = .initHead op dummy) :
    (c.initHead t op dummy).Inv live := by
  have hfoot : c.footprint t = (ListPc.initHead op dummy).footprint := congrArg _ hpc
  have hinit : (c.footprint t).initializes = some op.list := by
    rw [hfoot]
    rfl
  have hnil := (h.threads t).initializes op.list hinit
  have hne : ∀ l, c.chain l ≠ [] → l ≠ op.list := by
    rintro l hl rfl
    exact hl hnil
  set c' := c.initHead t op dummy with hc'
  have hpcs : c'.pcs = Function.update c.pcs t (.initTail op dummy) := rfl
  have hself := footprint_self hpcs
  have hholds := footprint_same (φ := Footprint.holds) hpcs (by rw [hfoot]; rfl)
  have hpopped := footprint_same (φ := Footprint.popped) hpcs (by rw [hfoot]; rfl)
  have hsame := footprint_same (φ := Footprint.initializes) hpcs (by rw [hfoot]; rfl)
  have hat : ∀ k p, c'.At k p ↔ c.At k p :=
    at_congr rfl rfl rfl (fun u => congrArg (Option.bind · _) (hholds u)) hpopped
  have hstable : ∀ u, Stable c c' u := by
    refine fun u => .of_frame rfl (fun l hl => initHead_lists_of_ne (hne l hl))
      (fun _ _ => ⟨rfl, rfl⟩)
      fun m hm => ?_
    refine hm.imp (Exists.imp fun w => (hpopped w).trans) (And.imp_right fun hp => ?_)
    exact protects_append (e := some _) hp nofun
  refine ⟨fun l hl => ?_, fun l hl => ?_, fun u l p hu => ?_, h.places.congr hat fun _ => .rfl,
    fun k p hk hp => h.unreleased k p ((hat k p).1 hk) hp, h.nodup, h.retired,
    fun k hk => h.gone k ?_,
    fun u w l hu hw => ?_, fun u => ?_, ?_⟩
  · exact (h.list l hl).congr rfl (initHead_lists_of_ne (hne l hl)) fun _ _ => ⟨rfl, rfl⟩
  · rcases eq_or_ne l op.list with rfl | hl'
    · rw [hc', initHead_lists_self]
      exact ⟨(h.fresh op.list hnil).1, .inr ⟨t, by rw [← hc', hself]; rfl⟩⟩
    · rw [hc', initHead_lists_of_ne hl']
      refine (h.fresh l hl).imp_right (Or.imp_right (Exists.imp fun u hu => ?_))
      rw [footprint_of_ne hpcs]
      · exact hu
      · rintro rfl
        rw [hfoot] at hu
        cases hu
  · rcases eq_or_ne u t with rfl | hut
    · rw [hself] at hu
      obtain ⟨rfl, rfl⟩ := Prod.mk.inj (Option.some.inj hu)
      rw [hc', initHead_lists_self]
    · rw [footprint_of_ne hpcs hut] at hu
      have hl : l ≠ op.list := by
        rintro rfl
        exact hut (h.alone u t op.list (initializes_of_stored hu) hinit)
      rw [hc', initHead_lists_of_ne hl]
      exact h.stored u l p hu
  · exact hk.imp_left (Exists.imp fun u => (hpopped u).symm.trans)
  · rw [hsame] at hu hw
    exact h.alone u w l hu hw
  · rcases eq_or_ne u t with rfl | hu
    · have hthread := h.threads u
      refine ⟨fun p hp => ?_, fun p hp => ?_, fun l hl => ?_, fun l hl => ?_, fun hin => ?_, ?_⟩
      · rw [hpopped] at hp
        exact hthread.popped p hp
      · rw [hholds] at hp
        obtain ⟨n, hn, hnull, -⟩ := hthread.held p hp
        refine ⟨n, hn, hnull, ?_⟩
        rw [hself]
        nofun
      · rw [hsame] at hl
        exact hthread.initializes l hl
      · rw [hself] at hl
        cases hl
      · rw [hself] at hin
        cases hin
      · rw [hpcs, Function.update_self]
        trivial
    · exact (h.threads u).frame (Function.update_of_ne hu _ _) (fun _ => hstable u)
        (fun hin => inside_append (e := some _) hin nofun) (fun _ _ => rfl) (fun _ _ => ⟨rfl, rfl⟩)
        (fun _ _ => id) fun _ => id
  · have hlog : operations c'.log = operations c.log := operations_append.trans (List.append_nil _)
    rw [phases_eq hpcs, hlog]
    exact h.trace_same (by rw [hfoot]; rfl)

/-- `tail_` of a new list is set, and the list has one node. -/
def initTail (c : Config L T N V) (t : T) (op : ListOp L V) (dummy : TaggedPtr N) (n : N) :
    Config L T N V :=
  { c with
    toQueues :=
      (c.setList op.list { c.lists op.list with tail := dummy }).setPc t (Queues.afterInit op)
    chain := Function.update c.chain op.list [n]
    log := c.log ++ [.dummy op.list dummy] }

/-- The tail of the list is the dummy node. -/
theorem initTail_lists_self :
    (c.initTail t op dummy n).lists op.list = { c.lists op.list with tail := dummy } :=
  Function.update_self ..

/-- The other lists are as before. -/
theorem initTail_lists_of_ne (hl : l ≠ op.list) : (c.initTail t op dummy n).lists l = c.lists l :=
  Function.update_of_ne hl ..

/-- The chain is the dummy node. -/
theorem initTail_chain_self : (c.initTail t op dummy n).chain op.list = [n] :=
  Function.update_self ..

/-- The other chains are as before. -/
theorem initTail_chain_of_ne (hl : l ≠ op.list) : (c.initTail t op dummy n).chain l = c.chain l :=
  Function.update_of_ne hl ..

omit [DecidableEq L] in
/-- Behind `init` a thread has nothing yet. -/
theorem footprint_afterInit (op : ListOp L V) : ∃ past, (∀ l, past = some l → l = op.list) ∧
    (Queues.afterInit op : ListPc L N V).footprint = { phase := op.phase, past := past } := by
  cases op with
  | init l => exact ⟨none, nofun, rfl⟩
  | push l v | pop l => exact ⟨some l, fun _ hl => (Option.some.inj hl).symm, rfl⟩

/-- Initializing a list changes nothing that a thread knows of its nodes, which are of other
lists. -/
theorem Inv.stable_initTail (h : c.Inv live) (hnil : c.chain op.list = [])
    (hout : (c.footprint t).popped = none) : Stable c (c.initTail t op dummy n) u := by
  obtain ⟨past, -, hafter⟩ := footprint_afterInit (N := N) op
  set c' := c.initTail t op dummy n with hc'
  have hpcs : c'.pcs = Function.update c.pcs t (Queues.afterInit op) := rfl
  have hpopped := footprint_same (φ := Footprint.popped) hpcs (by rw [hafter, hout])
  have hne : ∀ l, c.chain l ≠ [] → l ≠ op.list := by
    rintro l hl rfl
    exact hl hnil
  have hchain : ∀ l, c.chain l ≠ [] → c'.chain l = c.chain l ∧ c'.lists l = c.lists l :=
    fun l hl => ⟨initTail_chain_of_ne (hne l hl), initTail_lists_of_ne (hne l hl)⟩
  have hkept : ∀ k, c.Kept u k → c'.Kept u k := fun k => Or.imp
    (Exists.imp fun w => (hpopped w).trans)
    (And.imp_right fun hp => protects_append (e := some _) hp dummy_ne_epoch)
  refine ⟨fun l k hk => hk.mono (fun _ _ => ⟨rfl, rfl⟩) fun y => Or.imp ?_ (hkept y),
    fun _ _ _ => rfl, fun _ _ _ => rfl, fun _ _ _ _ => rfl, fun l k hk hfirst => ?_,
    fun l k hk _ hpassed => ?_, fun l k hk hreached => ?_⟩
  · rw [(hchain l (h.chain_ne_nil hk)).1]
    exact id
  · rw [First, (hchain l (h.chain_ne_nil hk)).1]
    exact hfirst
  · rw [Passed, (hchain l (h.chain_ne_nil hk)).1, (hchain l (h.chain_ne_nil hk)).2]
    exact hpassed
  · rw [Reached, (hchain l (h.chain_ne_nil hk)).1, (hchain l (h.chain_ne_nil hk)).2]
    exact hreached

/-- The new list. -/
theorem listOk_initTail (hhead : (c.lists op.list).head = c.ref n) (hnull : (c.nodes n).next = {}) :
    (c.initTail t op (c.ref n) n).ListOk op.list := by
  set c' := c.initTail t op (c.ref n) n with hc'
  have hchain : c'.chain op.list = [n] := initTail_chain_self
  refine ⟨?_, ?_, fun k hk => ?_, ⟨[], n, [], ?_, hchain, Nat.zero_le _⟩, ?_⟩
  · rw [hchain, hc', initTail_lists_self]
    exact hhead
  · rw [hchain]
    exact ⟨rfl, congrArg TaggedPtr.ptr hnull⟩
  · rw [hchain] at hk
    obtain rfl := List.mem_singleton.1 hk
    change (c.nodes k).next = c.toPtr (c.nodes k).next.ptr
    rw [hnull]
    rfl
  · rw [hc', initTail_lists_self]
    rfl
  · rw [hchain]
    exact fun _ hk => absurd hk List.not_mem_nil

/-- The second store of `init`: the list is initialized. -/
theorem Inv.initTail (h : c.Inv live) (hpc : c.pcs t = .initTail op dummy) :
    ∃ n, (c.initTail t op dummy n).Inv live := by
  have hfoot : c.footprint t = (ListPc.initTail op dummy).footprint := congrArg _ hpc
  have hinit : (c.footprint t).initializes = some op.list := by
    rw [hfoot]
    rfl
  have hnil := (h.threads t).initializes op.list hinit
  obtain ⟨n, rfl, hnull, -⟩ := (h.threads t).held dummy (by rw [hfoot]; rfl)
  have hhead : (c.lists op.list).head = c.ref n := h.stored t op.list _ (by rw [hfoot]; rfl)
  have hne : ∀ l, c.chain l ≠ [] → l ≠ op.list := by
    rintro l hl rfl
    exact hl hnil
  obtain ⟨past, hpast, hafter⟩ := footprint_afterInit (N := N) op
  refine ⟨n, ?_⟩
  set c' := c.initTail t op (c.ref n) n with hc'
  have hpcs : c'.pcs = Function.update c.pcs t (Queues.afterInit op) := rfl
  have hself := (footprint_self hpcs).trans hafter
  have hpopped := footprint_same (φ := Footprint.popped) hpcs (by rw [hfoot, hafter]; rfl)
  have hchain : ∀ l, c.chain l ≠ [] → c'.chain l = c.chain l ∧ c'.lists l = c.lists l :=
    fun l hl => ⟨initTail_chain_of_ne (hne l hl), initTail_lists_of_ne (hne l hl)⟩
  have hstable : ∀ u, Stable c c' u := fun u => h.stable_initTail hnil (by rw [hfoot]; rfl)
  have hplaces : Placement.Exclusive c'.At live :=
    h.places_enter hpcs (by rw [hfoot]; rfl) (by rw [hafter]) (by rw [hfoot, hafter]; rfl) rfl
      (by simp [hnil]) rfl rfl
  have hmono : ∀ l, c.chain l ≠ [] → c'.chain l ≠ [] := fun l hl => by rwa [(hchain l hl).1]
  refine ⟨fun l hl => ?_, fun l hl => ?_, fun u l p hu => ?_, hplaces,
    fun k p hk hp => h.unreleased_of hplaces hk hp id, h.nodup, h.retired, fun k hk => h.gone k ?_,
    fun u w l hu hw => ?_, fun u => ?_, ?_⟩
  · rcases eq_or_ne l op.list with rfl | hl'
    · exact listOk_initTail hhead hnull
    · rw [hc', initTail_chain_of_ne hl'] at hl
      exact (h.list l hl).congr (hchain l hl).1 (hchain l hl).2 fun _ _ => ⟨rfl, rfl⟩
  · have hl' : l ≠ op.list := by
      rintro rfl
      rw [hc', initTail_chain_self] at hl
      cases hl
    rw [hc', initTail_chain_of_ne hl'] at hl
    rw [hc', initTail_lists_of_ne hl']
    refine (h.fresh l hl).imp_right (Or.imp_right (Exists.imp fun u hu => ?_))
    rw [footprint_of_ne hpcs]
    · exact hu
    · rintro rfl
      rw [hfoot] at hu
      exact hl' (Prod.mk.inj (Option.some.inj hu)).1.symm
  · have hut : u ≠ t := by
      rintro rfl
      rw [hself] at hu
      cases hu
    rw [footprint_of_ne hpcs hut] at hu
    have hl : l ≠ op.list := by
      rintro rfl
      exact hut (h.alone u t op.list (initializes_of_stored hu) hinit)
    rw [hc', initTail_lists_of_ne hl]
    exact h.stored u l p hu
  · exact hk.imp_left (Exists.imp fun u => (hpopped u).symm.trans)
  · have hout : ∀ v, (c'.footprint v).initializes = some l →
      (c.footprint v).initializes = some l := by
      intro v hv
      rcases eq_or_ne v t with rfl | hvt
      · rw [hself] at hv
        cases hv
      · rwa [footprint_of_ne hpcs hvt] at hv
    exact h.alone u w l (hout u hu) (hout w hw)
  · rcases eq_or_ne u t with rfl | hu
    · refine ⟨fun p hp => ?_, fun p hp => ?_, fun l hl => ?_, fun l hl => ?_, fun hin => ?_, ?_⟩
      · rw [hself] at hp
        cases hp
      · rw [hself] at hp
        cases hp
      · rw [hself] at hl
        cases hl
      · rw [hself] at hl
        rw [hpast l hl, hc', initTail_chain_self]
        exact List.cons_ne_nil _ _
      · rw [hself] at hin
        cases hin
      · rw [hpcs, Function.update_self]
        exact pcOk_of_not_inside (by rw [hafter])
    · refine (h.threads u).frame (Function.update_of_ne hu _ _) (fun _ => hstable u)
        (fun hin => inside_append (e := some _) hin dummy_ne_epoch) (fun _ _ => rfl)
        (fun _ _ => ⟨rfl, rfl⟩)
        (fun l hl hl' => ?_) hmono
      rw [hc', initTail_chain_of_ne, hl']
      rintro rfl
      exact hu (h.alone u t op.list hl hinit)
  · have hcontents : c'.contents = c.contents := by
      funext l
      rcases eq_or_ne l op.list with rfl | hl
      · rw [contents, contents, hc', initTail_chain_self, hnil]
        rfl
      · exact contents_congr (initTail_chain_of_ne hl) fun _ _ => rfl
    have hlog : operations c'.log = operations c.log := operations_append.trans (List.append_nil _)
    rw [phases_eq hpcs, hlog, hcontents]
    exact h.trace_same (by rw [hfoot, hafter]; rfl)

end RockCoro.Config
