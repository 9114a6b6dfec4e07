import RockCoro.Memory.TSLinkedList.Steps

/-!
# The steps that change a list

The exchange that links a node, those of `tail_`, the one of `head_`, and the stores of `init`.
-/

namespace RockCoro.Config

open AtomicObject AtomicObject.Fifo EpochBasedReclamation

variable {L T N V : Type} [DecidableEq L] [DecidableEq T] {c c' : Config L T N V} {t u : T}
  {l l' : L}
  {n m e x : N} {live : N → Prop} {pc : ListPc L N V}

/-! ## What is known of a list -/

/-- Nodes of different lists are different. -/
theorem Inv.chain_ne (h : c.Inv live) (hn : n ∈ c.chain l) (hm : m ∈ c.chain l')
    (hl : l ≠ l') : m ≠ n :=
  h.ne_of_at (p := .chain l) hn (q := .chain l') hm fun he => hl (Place.chain.inj he)

/-- A node that a thread may use through one list is in no other. -/
theorem Inv.ne_of_shared (h : c.Inv live) (hn : n ∈ c.chain l ∨ c.Kept t n) (hm : m ∈ c.chain l')
    (hl : l' ≠ l) : n ≠ m := by
  rcases hn with hn | hn
  · exact h.chain_ne hm hn hl
  · obtain ⟨p, hp, rfl | ⟨u, rfl⟩⟩ := hn.gone.at
    · exact h.ne_of_at (p := .chain l') hm hp nofun
    · exact h.ne_of_at (p := .chain l') hm hp nofun

omit [DecidableEq L] [DecidableEq T] in
/-- A private node is none that others may use. -/
theorem Private.ne_of_shared (hx : Private c t x) (hn : n ∈ c.chain l ∨ c.Kept u n) : n ≠ x :=
  hn.elim (hx.chain l n) fun hn => hx.gone n hn.gone

/-- A node without a successor is the last of its list. -/
theorem Inv.last_of_safe (h : c.Inv live) (hn : c.Safe t l n) (hnull : c.next n = none) :
    ∃ l₁, c.chain l = l₁ ++ [n] := by
  have hmem : n ∈ c.chain l := hn.mem.1.resolve_right fun hk => h.gone n hk.gone hnull
  obtain ⟨l₁, l₂, hl⟩ := List.append_of_mem hmem
  have hlinked := (h.list l (List.ne_nil_of_mem hmem)).linked
  rw [hl] at hlinked
  have hrest := hlinked.suffix.2
  rw [hnull] at hrest
  cases l₂ with
  | nil => exact ⟨l₁, hl⟩
  | cons b l₂ => cases hrest.1

/-- A list has no node twice. -/
theorem Inv.nodup_chain (h : c.Inv live) (l : L) : (c.chain l).Nodup := by
  by_cases hl : c.chain l = []
  · rw [hl]
    exact List.nodup_nil
  · exact (h.list l hl).linked.nodup

/-- The list of a safe node is initialized. -/
theorem Inv.chain_ne_nil (h : c.Inv live) (hn : c.Safe t l n) : c.chain l ≠ [] := by
  obtain ⟨w, hw, hok⟩ := hn
  rcases List.eq_nil_or_concat w with rfl | ⟨w, z, rfl⟩
  · cases hw
  · rw [List.concat_eq_append] at hw hok
    have hz := (hok z (List.mem_append_right _ (List.mem_singleton_self _))).1
    exact List.ne_nil_of_mem (hz.resolve_right fun hk => h.gone z hk.gone hw.next_last)

/-! ## The exchange that links a node -/

section
variable [DecidableEq N]

/-- `node`, which `t` holds, becomes the successor of `n`. -/
def link (c : Config L T N V) (t : T) (pc : ListPc L N V) (l : L) (v : V) (n x : N) :
    Config L T N V :=
  { c with
    toQueues := (c.setNode n { c.nodes n with next := c.ref x }).setPc t pc
    chain := Function.update c.chain l (c.chain l ++ [x])
    log := c.log ++ [.op (.commit t (.push l v) none)] }

variable {v : V}

/-- The node gets its link. -/
theorem link_nodes_self : (c.link t pc l v n x).nodes n = { c.nodes n with next := c.ref x } :=
  Function.update_self ..

/-- The other nodes are as before. -/
theorem link_nodes_of_ne (hm : m ≠ n) : (c.link t pc l v n x).nodes m = c.nodes m :=
  Function.update_of_ne hm ..

/-- One link is new. -/
theorem link_next : (c.link t pc l v n x).next = Function.update c.next n (some x) := by
  funext m
  rcases eq_or_ne m n with rfl | hm
  · rw [Queues.next, link_nodes_self, Function.update_self]
    rfl
  · rw [Queues.next, link_nodes_of_ne hm, Function.update_of_ne hm]
    rfl

/-- The chain has the node at its end. -/
theorem link_chain_self : (c.link t pc l v n x).chain l = c.chain l ++ [x] :=
  Function.update_self ..

/-- The other chains are as before. -/
theorem link_chain_of_ne (hl : l' ≠ l) : (c.link t pc l v n x).chain l' = c.chain l' :=
  Function.update_of_ne hl ..

/-- What was kept is kept. -/
theorem link_kept (hpopped : pc.footprint.popped = (c.footprint t).popped) (hm : c.Kept u m) :
    (c.link t pc l v n x).Kept u m := by
  refine hm.imp (Exists.imp fun w hw => ?_)
    (And.imp_right fun hp => protects_append (e := some _) hp nofun)
  rw [footprint_same (φ := Footprint.popped) rfl hpopped]
  exact hw

/-- The links from a node lead on to the new end of the list. -/
theorem Inv.safe_link (h : c.Inv live) (hpopped : pc.footprint.popped = (c.footprint t).popped)
    (hn : c.Safe t l n) (hnull : c.next n = none) (hx : c.At x (.held t))
    (hxnull : (c.nodes x).next = {}) (hm : c.Safe u l' m) :
    (c.link t pc l v n x).Safe u l' m := by
  obtain ⟨l₁, hl⟩ := h.last_of_safe hn hnull
  have hmem : n ∈ c.chain l := hl ▸ List.mem_append_right _ (List.mem_singleton_self _)
  have hkept : ∀ k, k ∈ c.chain l' ∨ c.Kept u k →
      k ∈ (c.link t pc l v n x).chain l' ∨ (c.link t pc l v n x).Kept u k := by
    refine fun k => Or.imp (fun hk => ?_) (link_kept hpopped)
    rcases eq_or_ne l' l with rfl | hne
    · rw [link_chain_self]
      exact List.mem_append_left _ hk
    · rwa [link_chain_of_ne hne]
  rcases eq_or_ne l' l with rfl | hne
  · obtain ⟨w, hw, hok⟩ := hm
    rcases List.eq_nil_or_concat w with rfl | ⟨w, z, rfl⟩
    · cases hw
    rw [List.concat_eq_append] at hw hok
    -- the links from `m` lead to the last node, which is `n`
    have hz : z ∈ w ++ [z] := List.mem_append_right _ (List.mem_singleton_self _)
    have hzsafe : c.Safe u l' z := ⟨[z], hw.suffix, fun k hk => by
      rw [List.mem_singleton.1 hk]
      exact hok z hz⟩
    obtain ⟨l₂, hl₂⟩ := h.last_of_safe hzsafe hw.next_last
    obtain ⟨-, rfl⟩ := List.append_singleton_inj.1 (hl.symm.trans hl₂)
    have hxw : x ∉ w ++ [n] := fun hxw =>
      (h.private_of_held hx).ne_of_shared (hok x hxw).1 rfl
    refine ⟨w ++ [n] ++ [x], ?_, fun k hk => ?_⟩
    · rw [link_next]
      exact hw.concat hxw (congrArg TaggedPtr.ptr hxnull)
    rcases List.mem_append.1 hk with hk | hk
    · refine ⟨hkept k (hok k hk).1, ?_⟩
      rw [link_next]
      rcases eq_or_ne k n with rfl | hkn
      · rw [link_nodes_self, Function.update_self]
        rfl
      · rw [link_nodes_of_ne hkn, Function.update_of_ne hkn]
        exact (hok k hk).2
    · obtain rfl := List.mem_singleton.1 hk
      have hkn : k ≠ n := fun he => hxw (he ▸ hz)
      refine ⟨.inl (by rw [link_chain_self]; exact List.mem_append_right _ hk), ?_⟩
      rw [link_next, link_nodes_of_ne hkn, Function.update_of_ne hkn, Queues.next, hxnull]
      rfl
  · refine hm.mono (fun k hk => ⟨link_nodes_of_ne ?_, rfl⟩) hkept
    exact h.ne_of_shared hk hmem hne.symm

/-- Linking a node changes nothing that a thread knows: its paths only grow at their end. -/
theorem Inv.stable_link (h : c.Inv live) (hpopped : pc.footprint.popped = (c.footprint t).popped)
    (hn : c.Safe t l n) (hnull : c.next n = none) (hx : c.At x (.held t))
    (hxnull : (c.nodes x).next = {}) : Stable c (c.link t pc l v n x) u := by
  have hxp := h.private_of_held hx
  -- the new node is no safe one
  have hold : ∀ l' k, c.Safe u l' k → k ∈ (c.link t pc l v n x).chain l' → k ∈ c.chain l' := by
    intro l' k hk hmem
    rcases eq_or_ne l' l with rfl | hne
    · rw [link_chain_self] at hmem
      refine (List.mem_append.1 hmem).resolve_right fun he => ?_
      exact hxp.ne_of_shared hk.mem.1 (List.mem_singleton.1 he)
    · rwa [link_chain_of_ne hne] at hmem
  have hhead : ∀ l', c.chain l' ≠ [] →
      ((c.link t pc l v n x).chain l').head? = (c.chain l').head? := by
    intro l' hl'
    rcases eq_or_ne l' l with rfl | hne
    · rw [link_chain_self, List.head?_append_of_ne_nil _ hl']
    · rw [link_chain_of_ne hne]
  refine ⟨fun l' k => h.safe_link hpopped hn hnull hx hxnull, fun _ _ _ => rfl, fun l' k _ => ?_,
    fun l' k _ hk => ?_, fun l' k hk hfirst hmem => ?_, fun l' k hk _ hpassed hk' => ?_,
    fun l' k hk hreached l₁ y l₂ hl htail => ?_⟩
  · rcases eq_or_ne k n with rfl | hkn
    · rw [link_nodes_self]
    · rw [link_nodes_of_ne hkn]
  · refine congrArg _ (link_nodes_of_ne ?_)
    rintro rfl
    exact hk hnull
  · rw [hhead l' (h.chain_ne_nil hk)]
    exact hfirst (hold l' k hk hmem)
  · rw [hhead l' (h.chain_ne_nil hk)] at hk'
    exact hpassed hk'
  · intro hkl
    rcases eq_or_ne l' l with rfl | hne
    · rw [link_chain_self] at hl
      rcases List.eq_nil_or_concat l₂ with rfl | ⟨l₂, z, rfl⟩
      · cases hkl
      · rw [List.concat_eq_append, ← List.cons_append, ← List.append_assoc] at hl
        obtain ⟨hrest, rfl⟩ := List.append_singleton_inj.1 hl
        rw [List.concat_eq_append] at hkl
        rcases List.mem_append.1 hkl with hkl | hkl
        · exact hreached l₁ y l₂ hrest htail hkl
        · exact hxp.ne_of_shared hk.mem.1 (List.mem_singleton.1 hkl)
    · rw [link_chain_of_ne hne] at hl
      exact hreached l₁ y l₂ hl htail hkl

/-- The list with the node is a list. -/
theorem Inv.listOk_link (h : c.Inv live) (hn : c.Safe t l n) (hreached : c.Reached l n)
    (hnull : c.next n = none) (hx : c.At x (.held t)) (hxnull : (c.nodes x).next = {})
    (hvalue : (c.nodes x).value = some v) : (c.link t pc l v n x).ListOk l := by
  obtain ⟨l₁, hl⟩ := h.last_of_safe hn hnull
  have hmem : n ∈ c.chain l := hl ▸ List.mem_append_right _ (List.mem_singleton_self _)
  have hne : c.chain l ≠ [] := List.ne_nil_of_mem hmem
  have hok := h.list l hne
  have hxl : ∀ k ∈ c.chain l, k ≠ x := (h.private_of_held hx).chain l
  have hxn : x ≠ n := (hxl n hmem).symm
  have hchain : (c.link t pc l v n x).chain l = l₁ ++ [n] ++ [x] := by rw [link_chain_self, hl]
  have hhead : ((c.link t pc l v n x).chain l).head? = (c.chain l).head? := by
    rw [link_chain_self, List.head?_append_of_ne_nil _ hne]
  refine ⟨?_, ?_, fun k hk => ?_, ?_, fun k hk => ?_⟩
  · rw [hhead]
    exact hok.head
  · rw [hhead, hchain, link_next]
    have hlinked := hok.linked
    rw [hl] at hlinked hxl ⊢
    exact hlinked.concat (fun hmem => hxl x hmem rfl) (congrArg TaggedPtr.ptr hxnull)
  · rw [link_chain_self] at hk
    rw [link_next]
    rcases List.mem_append.1 hk with hk | hk
    · rcases eq_or_ne k n with rfl | hkn
      · rw [link_nodes_self, Function.update_self]
        rfl
      · rw [link_nodes_of_ne hkn, Function.update_of_ne hkn]
        exact hok.next k hk
    · obtain rfl := List.mem_singleton.1 hk
      rw [link_nodes_of_ne hxn, Function.update_of_ne hxn, Queues.next, hxnull]
      rfl
  · -- the tail has reached the last node
    obtain ⟨l₂, k, l₃, htail, hk, -⟩ := hok.tail
    have hlast : l₃ = [] := by
      rcases List.eq_nil_or_concat l₃ with rfl | ⟨l₃, z, rfl⟩
      · rfl
      · have hz := hk
        rw [hl, List.concat_eq_append, ← List.cons_append, ← List.append_assoc] at hz
        obtain ⟨-, rfl⟩ := List.append_singleton_inj.1 hz
        refine absurd ?_ (hreached l₂ k _ hk htail)
        rw [List.concat_eq_append]
        exact List.mem_append_right _ (List.mem_singleton_self _)
    subst hlast
    exact ⟨l₂, k, [x], htail, by rw [link_chain_self, hk, List.append_assoc]; rfl, Nat.le_refl _⟩
  · rw [link_chain_self, List.tail_append_of_ne_nil hne] at hk
    rcases List.mem_append.1 hk with hk | hk
    · have hkv := hok.value k hk
      rcases eq_or_ne k n with rfl | hkn
      · rw [link_nodes_self]
        exact hkv
      · rw [link_nodes_of_ne hkn]
        exact hkv
    · obtain rfl := List.mem_singleton.1 hk
      rw [link_nodes_of_ne hxn, hvalue]
      exact Option.some_ne_none _

/-- The contents have the value at their end. -/
theorem contents_link (hn : n ∈ c.chain l)
    (hvalue : (c.nodes x).value = some v) :
    (c.link t pc l v n x).contents = Function.update c.contents l (c.contents l ++ [v]) := by
  have hvalues : ∀ k, ((c.link t pc l v n x).nodes k).value = (c.nodes k).value := by
    intro k
    rcases eq_or_ne k n with rfl | hk
    · rw [link_nodes_self]
    · rw [link_nodes_of_ne hk]
  funext l'
  rcases eq_or_ne l' l with rfl | hne
  · rw [Function.update_self, contents, contents, link_chain_self,
      List.tail_append_of_ne_nil (List.ne_nil_of_mem hn), List.filterMap_append]
    refine congrArg₂ (· ++ ·) (List.filterMap_congr fun k _ => hvalues k) ?_
    exact List.filterMap_cons_some ((hvalues x).trans hvalue)
  · rw [Function.update_of_ne hne]
    exact contents_congr (link_chain_of_ne hne) fun k _ => hvalues k

/-- The exchange of `next_` that succeeds takes effect: the node is in the list. -/
theorem Inv.link {node last next : TaggedPtr N} (h : c.Inv live)
    (hpc : c.pcs t = .pushLink l v node last next) (hlast : last.ptr = some n)
    (hcas : (c.nodes n).next = next) :
    ∃ x, node = c.ref x ∧ (c.link t (.pushSwing l v node last) l v n x).Inv live := by
  have hfoot : c.footprint t = (ListPc.pushLink l v node last next).footprint := congrArg _ hpc
  obtain ⟨rfl, k, rfl, hn, hreached⟩ : c.PcOk t (.pushLink l v node last next) :=
    hpc ▸ (h.threads t).pc
  obtain rfl := Option.some.inj hlast
  obtain ⟨x, rfl, hxnull, hvalue⟩ := (h.threads t).held node (by rw [hfoot]; rfl)
  replace hvalue := hvalue v (by rw [hfoot]; rfl)
  have hnull : c.next k = none := congrArg TaggedPtr.ptr hcas
  have hx : c.At x (.held t) := at_held (by rw [hfoot]; rfl)
  obtain ⟨l₁, hl⟩ := h.last_of_safe hn hnull
  have hmem : k ∈ c.chain l := hl ▸ List.mem_append_right _ (List.mem_singleton_self _)
  set pc : ListPc L N V := .pushSwing l v (c.ref x) (c.ref k) with hpc'
  refine ⟨x, rfl, ?_⟩
  set c' := c.link t pc l v k x with hc'
  have hpcs : c'.pcs = Function.update c.pcs t pc := rfl
  have hself := footprint_self hpcs
  have hpopped : pc.footprint.popped = (c.footprint t).popped := by rw [hfoot]; rfl
  have hstored := footprint_same (φ := Footprint.stored) hpcs (by rw [hfoot]; rfl)
  have hstable : ∀ u, Stable c c' u := fun u => h.stable_link hpopped hn hnull hx hxnull
  have hchain : ∀ l', c.chain l' ≠ [] ↔ c'.chain l' ≠ [] := by
    intro l'
    rcases eq_or_ne l' l with rfl | hne
    · refine ⟨fun _ => ?_, fun _ => List.ne_nil_of_mem hmem⟩
      rw [hc', link_chain_self]
      exact List.append_ne_nil_of_right_ne_nil _ (List.cons_ne_nil _ _)
    · rw [hc', link_chain_of_ne hne]
  have hlast : ∀ m, m ∈ c.chain l ++ [x] ↔ m ∈ c.chain l ∨ m = x := by simp
  have hplaces : Placement.Exclusive c'.At live :=
    h.places_enter hpcs (by rw [hfoot]; rfl) rfl hpopped rfl hlast rfl rfl
  refine ⟨fun l' hl' => ?_, fun l' hl' => ?_, fun u l' p hu => ?_, hplaces, fun m p hm hp => ?_,
    h.nodup, h.retired, fun m hm => ?_, fun u w l' hu hw => ?_, fun u => ?_, ?_⟩
  · rcases eq_or_ne l' l with rfl | hne
    · exact h.listOk_link hn hreached hnull hx hxnull hvalue
    · refine (h.list l' ((hchain l').2 hl')).congr (link_chain_of_ne hne) rfl fun m hm => ⟨?_, rfl⟩
      exact link_nodes_of_ne (h.chain_ne hmem hm hne.symm)
  · have hnil : c.chain l' = [] := by
      by_contra hne
      exact (hchain l').1 hne hl'
    exact (h.fresh l' hnil).imp_right (Or.imp_right (Exists.imp fun u => (hstored u).trans))
  · exact h.stored u l' p ((hstored u).symm.trans hu)
  · have hrel := h.unreleased_of hplaces hm hp id
    rcases eq_or_ne m k with rfl | hmk
    · rw [hc', link_nodes_self]
      exact hrel
    · rw [hc', link_nodes_of_ne hmk]
      exact hrel
  · have hgone : c.Gone m := hm.imp_left (Exists.imp fun u hu => by
      rw [← footprint_same (φ := Footprint.popped) hpcs hpopped]
      exact hu)
    rw [hc', link_next, Function.update_of_ne]
    · exact h.gone m hgone
    · rintro rfl
      exact h.gone m hgone hnull
  · have hinit := footprint_same (φ := Footprint.initializes) hpcs (by rw [hfoot]; rfl)
    rw [hinit] at hu hw
    exact h.alone u w l' hu hw
  · rcases eq_or_ne u t with rfl | hu
    · refine ⟨fun p hp => ?_, fun p hp => ?_, fun l' hl' => ?_, fun l' hl' => ?_, fun _ => ?_, ?_⟩
      · rw [hself] at hp
        cases hp
      · rw [hself] at hp
        cases hp
      · rw [hself] at hl'
        cases hl'
      · rw [hself] at hl'
        cases hl'
        exact (hchain l).1 (List.ne_nil_of_mem hmem)
      · exact inside_append (e := some _) ((h.threads u).inside (by rw [hfoot]; rfl)) op_ne_epoch
      · rw [hpcs, Function.update_self]
        exact ⟨Option.some_ne_none _, k, rfl, (hstable u).safe l k hn, by rw [hc', link_nodes_self]⟩
    · refine (h.threads u).frame (Function.update_of_ne hu _ _) (fun _ => hstable u)
        (fun hin => inside_append (e := some _) hin op_ne_epoch) (fun _ _ => rfl)
        (fun m hm => ⟨link_nodes_of_ne ?_, rfl⟩) (fun l' _ hl' => ?_) fun l' => (hchain l').1
      · exact (h.ne_of_at (p := .chain l) hmem (at_held hm) (by simp))
      · by_contra hne
        exact (hchain l').2 hne hl'
  · have hphase : (c.footprint t).phase = .pending (.push l v) := by
      rw [hfoot]
      rfl
    have htrace := h.trace.snoc (.commit (r := none) hphase rfl)
    rw [hc', contents_link hmem hvalue, ← hc', phases_eq hpcs,
      show operations c'.log = operations c.log ++ [_] from operations_append]
    exact htrace

end

end RockCoro.Config
