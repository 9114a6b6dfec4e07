import RockCoro.BasicStruct.RedBlackTree.Safety

/-!
# The parent of the sentinel

Deletions leave `_nil->_parent` at some node, which may be gone by now. No later call depends on it:
a call reads it only after it has called `fixDelete` at the sentinel, and by then it has written it
(`NilParent`). So trees that differ there only behave alike (`run_setParent_nil`).
-/

namespace RockCoro.RBTree

open RedBlack Prog

section
variable {Ptr T : Type} [DecidableEq Ptr]

/-- The call of `fixDelete` at `p`. -/
def Starts (p : Ptr) (e : RBTree Ptr T × Access (Cell.Val Ptr T) (Mark Ptr)) : Prop :=
  e.2 = .mark (.fixDelete p)

/-- What a call does with the parent of the sentinel. -/
structure NilParent (nil : Ptr) (log : List (RBTree Ptr T × Access (Cell.Val Ptr T) (Mark Ptr))) :
    Prop where
  /-- It is read only after `fixDelete` was called at the sentinel, -/
  read : Preceded (IsRead (.parent nil)) (Starts nil) log
  /-- which comes after a write of it in the same call. -/
  written : Preceded (Starts nil) (IsWrite (.parent nil)) log
  /-- Then it is the node above the place that lacks a black node, where the sentinel stands. -/
  place : ∀ e ∈ log, Starts nil e → ∃ k N, Deficit e.1 k .nil 0 N

variable {s s' : RBTree Ptr T} {t : ColorTree (Ptr × T)} {k : Ctx (Ptr × T)} {c : Color}
  {z : Ptr × T} {p q nil x : Ptr} {N fuel : ℕ} {α β : Type} {code : Code Ptr T α}
  {log log' : List (RBTree Ptr T × Access (Cell.Val Ptr T) (Mark Ptr))}

omit [DecidableEq Ptr] in
/-- A part of a call that does not start `fixDelete` at the sentinel. -/
theorem nilParent_of_forall (h : ∀ e ∈ log, e.1.nil = nil ∧ Ok False False e.1 e.2) :
    NilParent nil log := by
  have hread : ∀ e ∈ log, ¬IsRead (.parent nil) e := by
    rintro ⟨s, -⟩ he rfl
    obtain ⟨hn, hok⟩ := h _ he
    exact hok hn.symm
  have hstart : ∀ e ∈ log, ¬Starts nil e := by
    rintro ⟨s, -⟩ he rfl
    obtain ⟨hn, hok⟩ := h _ he
    exact hok hn.symm
  exact ⟨preceded_of_forall_not hread, preceded_of_forall_not hstart,
    fun e he hs => absurd hs (hstart e he)⟩

omit [DecidableEq Ptr] in
/-- Nothing happened to the sentinel's parent in an empty log. -/
theorem nilParent_nil : NilParent nil ([] : List (RBTree Ptr T × _)) :=
  nilParent_of_forall fun _ he => absurd he List.not_mem_nil

/-- The sentinel stays where it is. -/
theorem nil_of_mem_log (hn : s.nil = nil) : ∀ e ∈ code.log s, e.1.nil = nil := by
  have hsafe : Safe (fun _ _ => True) code s := fun _ _ => trivial
  refine (hsafe.invariant (I := fun s => s.nil = nil) (fun s i v h _ => ?_) hn).1
  exact (Code.set_nil i v).trans h

/-- A part of a call that never reads the sentinel's parent or calls `fixDelete` there. -/
theorem nilParent_of_safe (h : Safe (Ok False False) code s) (hn : s.nil = nil) :
    NilParent nil (code.log s) :=
  nilParent_of_forall fun e he => ⟨nil_of_mem_log hn e he, h e he⟩

omit [DecidableEq Ptr] in
/-- Two parts of a call, each of which keeps to the rule, keep to it together. -/
theorem NilParent.append (h : NilParent nil log) (h' : NilParent nil log') :
    NilParent nil (log ++ log') := by
  refine ⟨h.read.append (.inr h'.read), h.written.append (.inr h'.written), fun e he => ?_⟩
  rcases List.mem_append.1 he with he | he
  · exact h.place e he
  · exact h'.place e he

/-- The rule for a program followed by another, from the state that the first one leaves. -/
theorem NilParent.bind {f : α → Code Ptr T β} (h : NilParent nil (code.log s))
    (hf : ∀ r, code.run s = some r → NilParent nil ((f r.1).log r.2)) :
    NilParent nil ((code.bind f).log s) := by
  rw [log_bind]
  refine h.append ?_
  cases hr : code.run s with
  | none => exact nilParent_nil
  | some r => exact hf r hr

/-! ## `deleteNode` -/

/-- `transplant` writes the parent of the node that comes up. -/
theorem writes_transplant (hn : s.nil = nil) : Writes (.parent q) (Code.transplant nil p q) s :=
  .bind_right (Code.run_relink p q hn) (writes_read.2 writes_write)

/-- Freeing the successor writes the parent of its right child, whichever branch it takes. -/
theorem writes_freeSuccessor (hn : s.nil = nil) (z y : Ptr) :
    Writes (.parent (s.child .right y)) (Code.freeSuccessor nil z y (s.child .right y)) s := by
  subst hn
  simp [Code.freeSuccessor]
  split_ifs
  · exact writes_write
  · exact (writes_transplant rfl).bind_left

/-- `deleteNode` writes the parent of the node that it may call `fixDelete` at. -/
theorem writes_unlink (hn : s.nil = nil) {r : (Ptr × Color) × RBTree Ptr T}
    (hr : (Code.unlink nil fuel p).run s = some r) :
    Writes (.parent r.1.1) (Code.unlink nil fuel p) s := by
  subst hn
  simp [Code.unlink, run_bind] at hr ⊢
  split_ifs at hr ⊢
  · simp at hr
    subst hr
    exact (writes_transplant rfl).bind_left
  · simp at hr
    subst hr
    exact (writes_transplant rfl).bind_left
  · cases hy : s.sideMost .left fuel (s.child .right p) with
    | none => simp [hy] at hr
    | some y =>
      have hrun := Code.run_sideMost .left fuel (s.child .right p) (Eq.refl s.nil)
      rw [hy, Option.map_some] at hrun
      simp [hy] at hr
      subst hr
      refine .bind_right hrun ?_
      simp
      exact (writes_freeSuccessor rfl p y).bind_left

/-- The repair goes on from what `unlink` did: at the sentinel only with its parent written. -/
theorem nilParent_repair (hfocus : c = .black → p = s.nil ∧ (∃ k₁, Deficit s k₁ .nil 0 N ∧
      k₁.length < fuel) ∨ p ≠ s.nil ∧ s.color p = .red) (hn : s.nil = nil)
    (hlog : NilParent nil log) (hwrite : ∃ e ∈ log, IsWrite (.parent p) e) :
    NilParent nil (log ++ (Code.repair nil fuel p c).log s) := by
  subst hn
  cases c with
  | red =>
    have hlog' : (Code.repair s.nil fuel p .red).log s = [] := by simp [Code.repair]
    rwa [hlog', List.append_nil]
  | black =>
    have hlog' : (Code.repair s.nil fuel p .black).log s =
        (s, .mark (.fixDelete p)) :: (Code.fixDelete s.nil fuel p).log s := by simp [Code.repair]
    rw [hlog']
    rcases hfocus rfl with ⟨rfl, k₁, hdef, hlen⟩ | ⟨hne, hred⟩
    · have hsafe : Safe (Ok True False) (Code.fixDelete s.nil fuel s.nil) s :=
        hdef.safe_fixDelete rfl (by simpa [rank, ColorTree.color] using hlen)
      refine ⟨hlog.read.append (.inr ((preceded_cons (by rintro ⟨⟩)).2 (.inl rfl))),
        hlog.written.append (.inl hwrite), fun e he hstart => ?_⟩
      rcases List.mem_append.1 he with he | he
      · exact hlog.place e he hstart
      · rcases List.mem_cons.1 he with rfl | he
        · exact ⟨k₁, N, hdef⟩
        · -- the rounds do not call `fixDelete`
          have hok := hsafe e he
          rw [show e.2 = _ from hstart] at hok
          exact (hok (nil_of_mem_log rfl e he).symm).elim
    · refine hlog.append (nilParent_of_forall fun e he => ?_)
      rcases List.mem_cons.1 he with rfl | he
      · exact ⟨rfl, hne⟩
      · exact ⟨nil_of_mem_log rfl e he, safe_fixDelete_red hred e he⟩

/-- What `deleteNode` does with the parent of the sentinel. -/
theorem Stores.nilParent_deleteNode (A : Alloc Ptr T) {l r : ColorTree (Ptr × T)}
    (hs : s.Stores (k.plug (.on .left c l z r))) (hb : IsRB (k.plug (.on .left c l z r)) .black N)
    (hfuel : (k.plug (.on .left c l z r)).toList.length ≤ fuel) :
    NilParent s.nil ((Code.deleteNode s.nil A fuel z.1).log s) := by
  obtain ⟨s₁, x, col, hun, hn, hfocus⟩ := hs.unlink_focus hb hfuel
  have hz0 := hs.node.ne
  have hrun := Code.run_unlink fuel z.1 (Eq.refl s.nil)
  rw [hun, Option.map_some] at hrun
  rw [← hn] at hfocus
  have hunlink : NilParent s.nil ((Code.unlink s.nil fuel z.1).log s) :=
    nilParent_of_safe (safe_unlink rfl hz0) rfl
  have hrepair := nilParent_repair hfocus hn hunlink (writes_unlink rfl hrun)
  change NilParent s.nil (((Code.unlink s.nil fuel z.1).bind _).log s)
  rw [log_bind_of_eq hrun, log_bind, ← List.append_assoc]
  refine hrepair.append ?_
  cases hr : (Code.repair s.nil fuel x col).run s₁ with
  | none => exact nilParent_nil
  | some r =>
    have hnr : r.2.nil = s.nil := (Code.nil_of_run hr).trans hn
    exact nilParent_of_safe (safe_releaseNode (by rwa [hnr])) hnr

/-- A program that only returns keeps to the rule. -/
theorem nilParent_ret {a : α} : NilParent nil ((ret a : Code Ptr T α).log s) := nilParent_nil

/-- `erase` keeps to the rule: what it reads of the sentinel's parent it wrote itself. -/
theorem Valid.nilParent_erase (compare : T → T → Bool) (val : T) (A : Alloc Ptr T) (hv : s.Valid t)
    (hfuel : t.toList.length < fuel) :
    NilParent s.nil ((Code.erase s.nil A compare fuel val).log s) := by
  have hsearch : NilParent s.nil ((Code.findNode s.nil compare fuel val).log s) :=
    nilParent_of_safe (safe_findNode rfl) rfl
  refine hsearch.bind fun r hr => ?_
  rw [Code.run_findNode _ _ _ rfl] at hr
  rcases hv.findNode compare val hfuel with ⟨k, hk, hg, hf⟩ | ⟨v, hh, hf⟩
  · rw [hf, Option.map_some] at hr
    obtain rfl := Option.some.inj hr
    simp
    exact nilParent_nil
  · rw [hf, Option.map_some] at hr
    obtain rfl := Option.some.inj hr
    obtain ⟨-, k, c, l, b, rfl⟩ := hh
    obtain ⟨N, hN⟩ := hv.balanced
    simp [hv.stores.node.ne]
    exact (hv.stores.nilParent_deleteNode A hN (Nat.le_of_lt hfuel)).bind fun _ _ => nilParent_ret

/-- What a call does with the parent of the sentinel. -/
theorem Valid.nilParent (compare : T → T → Bool) (A : Alloc Ptr T) (hv : s.Valid t)
    (hfuel : t.toList.length < fuel) (op : Op T) :
    NilParent s.nil ((op.code s.nil compare A fuel).log s) := by
  cases op with
  | insert x =>
    exact nilParent_of_safe (safe_bind.2 ⟨hv.safe_insert compare x A hfuel, by simp⟩) rfl
  | find x => exact nilParent_of_safe (safe_bind.2 ⟨safe_find rfl, by simp⟩) rfl
  | minimum => exact nilParent_of_safe (safe_bind.2 ⟨safe_minimum rfl, by simp⟩) rfl
  | maximum => exact nilParent_of_safe (safe_bind.2 ⟨safe_maximum rfl, by simp⟩) rfl
  | erase x => exact (hv.nilParent_erase compare x A hfuel).bind fun _ _ => nilParent_ret

/-! ## Any calls -/

/-- All links, colours and data but the parent of the sentinel are the same. -/
structure SameTree (s s' : RBTree Ptr T) : Prop where
  nil : s'.nil = s.nil
  root : s'.root = s.root
  live : s'.live = s.live
  news : s'.news = s.news
  data : s'.data = s.data
  color : s'.color = s.color
  child : s'.child = s.child
  parent : ∀ p, p ≠ s.nil → s'.parent p = s.parent p

/-- States that agree on every cell but one are the same tree. -/
theorem sameTree_of_agree (hn : s'.nil = s.nil) (h : Agree {Cell.parent s.nil} s s') :
    SameTree s s' := by
  have hcell : ∀ i, i ≠ Cell.parent s.nil → Cells.get s i = Cells.get s' i := fun i hi => h i hi
  refine ⟨hn, ?_, ?_, ?_, ?_, ?_, ?_, fun p hp => ?_⟩
  · exact (hcell .root (by simp)).symm
  · exact (hcell .live (by simp)).symm
  · exact (hcell .news (by simp)).symm
  · exact funext fun p => (hcell (.data p) (by simp)).symm
  · exact funext fun p => (hcell (.color p) (by simp)).symm
  · exact funext fun d => funext fun p => (hcell (.child d p) (by simp)).symm
  · exact (hcell (.parent p) (by simpa using hp)).symm

/-- A write of the sentinel's parent changes no other cell. -/
theorem agree_setParent_nil (q : Ptr) : Agree {Cell.parent s.nil} s (s.setParent s.nil q) := by
  intro i hi
  exact (Cells.get_set_of_ne s (.parent s.nil) q i fun h => hi (Set.mem_singleton_iff.2 h)).symm

/-- A call on a tree with another parent of the sentinel. -/
theorem Valid.step_agree (compare : T → T → Bool) (A : Alloc Ptr T) (hv : s.Valid t)
    (hfuel : t.toList.length < fuel) (op : Op T) (hn : s'.nil = s.nil)
    (h : Agree {Cell.parent s.nil} s s') :
    ∃ a s₁ s₁' t₁, op.run compare A fuel s = some (a, s₁) ∧
      op.run compare A fuel s' = some (a, s₁') ∧ s₁.Valid t₁ ∧
      t₁.toList.length ≤ t.toList.length + 1 ∧ s₁.nil = s.nil ∧ s₁'.nil = s.nil ∧
      Agree {Cell.parent s.nil} s₁ s₁' := by
  obtain ⟨a, s₁, t₁, hs₁, hv₁, hlen⟩ := hv.step compare A hfuel op
  have hnil := hv.nilParent compare A hfuel op
  have hrun := op.run_code compare A fuel (s := s)
  rw [hs₁] at hrun
  have hpre : ∀ i ∈ ({Cell.parent s.nil} : Set (Cell Ptr)), Preceded (IsRead i) (IsWrite i)
      ((op.code s.nil compare A fuel).log s) := by
    rintro i rfl
    exact hnil.read.trans hnil.written
  obtain ⟨s₁', hs₁', hagree⟩ := run_agree h hpre hrun
  refine ⟨a, s₁, s₁', t₁, hs₁, ?_, hv₁, hlen, Code.nil_of_run hrun, ?_, hagree⟩
  · rw [← Op.run_code, hn]
    exact hs₁'
  · exact (Code.nil_of_run hs₁').trans hn

/-- Any calls answer the same from two trees that differ in the sentinel's parent, and end in the
same tree. -/
theorem Valid.run_agree (compare : T → T → Bool) (A : Alloc Ptr T) (ops : List (Op T))
    (hv : s.Valid t) (hfuel : t.toList.length + ops.length < fuel) (hn : s'.nil = s.nil)
    (h : Agree {Cell.parent s.nil} s s') :
    ∃ as s₁ s₁', RBTree.run compare A fuel s ops = some (as, s₁) ∧
      RBTree.run compare A fuel s' ops = some (as, s₁') ∧ SameTree s₁ s₁' := by
  induction ops generalizing s s' t with
  | nil => exact ⟨[], s, s', rfl, rfl, sameTree_of_agree hn h⟩
  | cons op ops ih =>
    rw [List.length_cons] at hfuel
    have ht : t.toList.length < fuel := by omega
    obtain ⟨a, s₁, s₁', t₁, hs₁, hs₁', hv₁, hlen, hn₁, hn₁', h₁⟩ :=
      hv.step_agree compare A ht op hn h
    rw [← hn₁] at h₁ hn₁'
    obtain ⟨as, s₂, s₂', hs₂, hs₂', hsame⟩ := ih hv₁ (by omega) hn₁' h₁
    refine ⟨a :: as, s₂, s₂', ?_, ?_, hsame⟩
    · simp only [RBTree.run, hs₁, Option.bind_eq_bind, Option.bind_some, hs₂]
    · simp only [RBTree.run, hs₁', Option.bind_eq_bind, Option.bind_some, hs₂']

variable (compare : T → T → Bool)

/-- The parent that deletions left the sentinel with never matters. After any calls, a call reads it
only after it has called `fixDelete` at the sentinel, with the parent written to the node above the
sentinel's place; and whatever it is set to, all further calls give the same answers and the same
tree. -/
theorem run_setParent_nil (A : Alloc Ptr T) (pre ops : List (Op T))
    (hfuel : pre.length + ops.length < fuel) :
    ∃ bs s, run compare A fuel (init A) pre = some (bs, s) ∧
      (∀ op : Op T, NilParent s.nil ((op.code s.nil compare A fuel).log s)) ∧
      ∀ q, ∃ as s₁ s₁', run compare A fuel s ops = some (as, s₁) ∧
        run compare A fuel (s.setParent s.nil q) ops = some (as, s₁') ∧ SameTree s₁ s₁' := by
  have hpre : pre.length < fuel := by omega
  obtain ⟨bs, s, t, hs, hv, hlen⟩ := (valid_init A).run A pre (by simpa using hpre)
  rw [ColorTree.toList_nil, List.length_nil, Nat.zero_add] at hlen
  have ht : t.toList.length + ops.length < fuel := by omega
  refine ⟨bs, s, hs, fun op => hv.nilParent compare A (by omega) op, fun q => ?_⟩
  exact hv.run_agree compare A ops ht rfl (agree_setParent_nil q)

/-- Two more calls on a tree whose sentinel was left with a parent, and on the same tree with the
sentinel as its own parent. -/
theorem run_setParent_nil_int :
    ∃ bs s, run (fun a b : Int => decide (a < b)) (natAlloc Int) 9 (init (natAlloc Int))
        [.insert 1, .insert 2, .insert 3, .erase 1] = some (bs, s) ∧
      ∃ as s₁ s₁', run (fun a b : Int => decide (a < b)) (natAlloc Int) 9 s [.insert 4, .erase 2] =
          some (as, s₁) ∧
        run (fun a b : Int => decide (a < b)) (natAlloc Int) 9 (s.setParent s.nil s.nil)
          [.insert 4, .erase 2] = some (as, s₁') ∧ SameTree s₁ s₁' := by
  obtain ⟨bs, s, hs, -, hsame⟩ := run_setParent_nil (fun a b : Int => decide (a < b))
    (natAlloc Int) [.insert 1, .insert 2, .insert 3, .erase 1] [.insert 4, .erase 2]
    (show 4 + 2 < 9 by decide)
  exact ⟨bs, s, hs, hsame s.nil⟩

end

end RockCoro.RBTree
