import RockCoro.Memory.Destruction.Basic

/-!
# Where the nodes are

While `destroy` runs, every node is in a list, in a record, or in the allocator and on the heap.
Each part of `destroy` is one kind of hand-over.
-/

namespace RockCoro.Destruction

open TSLinkedListNodeAllocator

variable {L T N V : Type} [DecidableEq L] [DecidableEq T] [DecidableEq N]

/-- The places of a node: in a list, in a record, and in the allocator or on the heap. -/
inductive Place (L T : Type)
  | linked (l : L)
  | retired (u : T)
  | free

/-- Where a node is: in a list, in a retire record, or with the allocator. -/
def At {L T N : Type} (w : L → List N) (waiting : T → List (Option N)) (live : N → Prop) (n : N) :
    Place L T → Prop
  | .linked l => n ∈ w l
  | .retired u => some n ∈ waiting u
  | .free => live n

/-- Every node is at one place: `w l` are the nodes from `first l` on, `waiting u` those of the
records of `u`, and the allocator has the nodes of `live`. -/
structure Accounts {L T N V : Type} (nodes : Nodes N V) (a : TSLinkedListNodeAllocator T N)
    (first : L → Option N) (waiting : T → List (Option N)) (w : L → List N) (cached : T → List N)
    (live : N → Prop) : Prop where
  chain : ∀ l, Chain.Linked nodes.next (first l) (w l)
  places : Placement.Exclusive (At w waiting live) fun _ => True
  nodup : ∀ u, (waiting u).Nodup
  nonnull : ∀ u, none ∉ waiting u
  owns : Owns nodes a cached live

variable {nodes nodes' : Nodes N V} {a a' : TSLinkedListNodeAllocator T N} {first : L → Option N}
  {waiting : T → List (Option N)} {w : L → List N} {cached : T → List N} {live : N → Prop}
  {l : L} {t u : T} {n : N} {p : TaggedPtr N} {rest : List (Option N)}

omit [DecidableEq N] in
/-- The first node of a list is retired. -/
theorem Accounts.retire (h : Accounts nodes a first waiting w cached live)
    (hfirst : first l = some n) :
    Accounts nodes a (Function.update first l (nodes.next n))
      (Function.update waiting t (waiting t ++ [some n])) (Function.update w l (w l).tail) cached
      live := by
  obtain ⟨v, hv⟩ : ∃ v, w l = n :: v := by
    have hhead := (h.chain l).head
    rw [hfirst] at hhead
    exact List.head?_eq_some_iff.1 hhead.symm
  have hlinked : At w waiting live n (.linked l : Place L T) := by
    rw [At, hv]
    exact List.mem_cons_self
  have hout : ∀ u, some n ∉ waiting u := fun u hu => by
    cases h.places.unique hlinked (show At w waiting live n (.retired u) from hu)
  have hchain := h.chain l
  rw [hv] at hchain ⊢
  refine ⟨fun l' => ?_, ?_, fun u => ?_, fun u hu => ?_, h.owns⟩
  · rcases eq_or_ne l' l with rfl | hl
    · rw [Function.update_self, Function.update_self]
      exact hchain.2
    · rw [Function.update_of_ne hl, Function.update_of_ne hl]
      exact h.chain l'
  · refine h.places.move (q := .retired t) hlinked ?_ (fun q hq => ?_) (fun m hm q => ?_)
      fun _ => .rfl
    · rw [At, Function.update_self]
      exact List.mem_append_right _ (List.mem_singleton_self _)
    · cases q with
      | linked l' =>
        rcases eq_or_ne l' l with rfl | hl
        · rw [At, Function.update_self] at hq
          exact absurd hq (List.nodup_cons.1 hchain.nodup).1
        · rw [At, Function.update_of_ne hl] at hq
          exact .inr ⟨hq, fun he => hl (Place.linked.inj he)⟩
      | retired u =>
        rcases eq_or_ne u t with rfl | hu
        · exact .inl rfl
        · rw [At, Function.update_of_ne hu] at hq
          exact absurd hq (hout u)
      | free => exact .inr ⟨hq, by simp⟩
    · cases q with
      | linked l' =>
        rcases eq_or_ne l' l with rfl | hl
        · rw [At, At, Function.update_self, hv, List.tail_cons, List.mem_cons, or_iff_right hm]
        · rw [At, At, Function.update_of_ne hl]
      | retired u =>
        rcases eq_or_ne u t with rfl | hu
        · rw [At, At, Function.update_self, List.mem_append, List.mem_singleton, Option.some.injEq,
            or_iff_left hm]
        · rw [At, At, Function.update_of_ne hu]
      | free => exact .rfl
  · rcases eq_or_ne u t with rfl | hu
    · rw [Function.update_self]
      exact List.nodup_append'.2 ⟨h.nodup u, List.nodup_singleton _,
        List.disjoint_singleton.2 (hout u)⟩
    · rw [Function.update_of_ne hu]
      exact h.nodup u
  · rcases eq_or_ne u t with rfl | hut
    · rw [Function.update_self, List.mem_append, List.mem_singleton] at hu
      exact h.nonnull u (hu.resolve_right (by simp))
    · rw [Function.update_of_ne hut] at hu
      exact h.nonnull u hu

omit [DecidableEq L] [DecidableEq N] in
/-- The first record of a thread is handed to `release`. -/
theorem Accounts.release (h : Accounts nodes a first waiting w cached live)
    (hwaiting : waiting u = p.ptr :: rest) (hcall : a.call t (.releaseMark p) = some a') :
    ∃ live', Accounts nodes a' first (Function.update waiting u rest) w cached live' := by
  have hnonnull := h.nonnull u
  have hnodup := h.nodup u
  rw [hwaiting] at hnonnull hnodup
  obtain ⟨n, hn⟩ : ∃ n, p.ptr = some n :=
    Option.ne_none_iff_exists'.1 fun hnull => hnonnull (hnull ▸ List.mem_cons_self)
  rw [hn] at hwaiting hnodup
  have hretired : At w waiting live n (.retired u : Place L T) := by
    rw [At, hwaiting]
    exact List.mem_cons_self
  have hdead : ¬live n := fun hlive => by
    cases h.places.unique hretired (show At w waiting live n .free from hlive)
  refine ⟨_, h.chain, ?_, fun v => ?_, fun v hv => ?_, h.owns.callRelease hn hdead hcall⟩
  · refine h.places.move (q := .free) hretired (.inl rfl) (fun q hq => ?_) (fun m hm q => ?_)
      fun _ => .rfl
    · cases q with
      | linked l => exact .inr ⟨hq, by simp⟩
      | retired v =>
        rcases eq_or_ne v u with rfl | hv
        · rw [At, Function.update_self] at hq
          exact absurd hq (List.nodup_cons.1 hnodup).1
        · rw [At, Function.update_of_ne hv] at hq
          exact .inr ⟨hq, fun he => hv (Place.retired.inj he)⟩
      | free => exact .inl rfl
    · cases q with
      | linked l => exact .rfl
      | retired v =>
        rcases eq_or_ne v u with rfl | hv
        · rw [At, At, Function.update_self, hwaiting, List.mem_cons, Option.some.injEq,
            or_iff_right hm]
        · rw [At, At, Function.update_of_ne hv]
      | free => exact or_iff_right hm
  · rcases eq_or_ne v u with rfl | hvu
    · rw [Function.update_self]
      exact (List.nodup_cons.1 hnodup).2
    · rw [Function.update_of_ne hvu]
      exact h.nodup v
  · rcases eq_or_ne v u with rfl | hvu
    · rw [Function.update_self] at hv
      exact hnonnull (List.mem_cons_of_mem _ hv)
    · rw [Function.update_of_ne hvu] at hv
      exact h.nonnull v hv

omit [DecidableEq L] in
/-- The thread moves in `release`. -/
theorem Accounts.allocatorStep {e : Option (AllocatorEvent N)}
    (h : Accounts nodes a first waiting w cached live)
    (hs : a.threadStep nodes t = some (nodes', a', e))
    (hcall : (a.pcs t).allocatorCall = some .release) :
    ∃ cached', Accounts nodes' a' first waiting w cached' live ∧
      Nearer a a' t cached cached' := by
  obtain ⟨⟨cached', howns, hnearer⟩, hnodes⟩ := h.owns.threadStep hs
  have hkeeps : Keeps live e = live := by
    rcases e with _ | _ | _ | q
    · rfl
    · rfl
    · rfl
    · rw [(getNext_of_got hs).1] at hcall
      cases hcall
  refine ⟨cached', ⟨fun l => ?_, h.places, h.nodup, h.nonnull, hkeeps ▸ howns⟩, hnearer⟩
  rcases hnodes with rfl | ⟨n, x, hn, rfl⟩
  · exact h.chain l
  · -- the node that is written to is in no list
    refine (h.chain l).congr fun m hm => ?_
    have hmn : m ≠ n := by
      rintro rfl
      cases h.places.unique (show At w waiting live m (.linked l : Place L T) from hm)
        (show At w waiting live m .free from hn)
    rw [Nodes.next, Nodes.next, Function.update_of_ne hmn]

omit [DecidableEq L] in
/-- The first node of a cache is deleted. -/
theorem Accounts.delete (h : Accounts nodes a first waiting w cached live)
    (hhead : (a.caches u).head.ptr = some n) (hidle : a.pcs u = .idle) :
    Accounts nodes { a.setCache u { a.caches u with head := (nodes n).next } with
      allocated := Function.update a.allocated n false } first waiting w
      (Function.update cached u (cached u).tail) live := by
  have hset : ∀ {b : TSLinkedListNodeAllocator T N} {v : T → List N}, b.pcs u = .idle →
      Owns nodes (b.setPc u .idle) v live → Owns nodes b v live := by
    intro b v hb howns
    rw [TSLinkedListNodeAllocator.setPc, ← hb, Function.update_eq_self] at howns
    exact howns
  refine ⟨h.chain, h.places, h.nodup, h.nonnull, hset hidle ?_⟩
  exact h.owns.pop hhead (by rw [hidle]; rfl) rfl (by simp) (.inr ⟨rfl, rfl⟩)

end RockCoro.Destruction
