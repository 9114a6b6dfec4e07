import RockCoro.Lib.AddressSpace
import Mathlib.Logic.Function.Basic

/-!
# The stacks of the coroutines

`coroutine/stack.cpp`: a stack is mapped with a guard page below it, and unmapped with it. The
constructor and the destructor ignore whether `mprotect` and `munmap` fail. With the page size of
the system their arguments are valid, but the process may have too many mappings: then a stack has
no guard page, or stays mapped behind its destructor. Apart from that, whatever stacks come and go,
the process has mapped the live ones, their guard pages and what the rest of it maps (`run_stacks`).
-/

namespace RockCoro

open X86

/-- `STACK_SIZE`. -/
def STACK_SIZE : Word := 1024 * 1024

/-- The members of a `Stack`. -/
structure Stack where
  /-- The lowest address of the stack. -/
  stackMem : Word
  size : Word

namespace Stack

variable (page : PageSize)

/-- `STACK_SIZE` in whole pages. -/
def stackSize : Word := page.roundUp STACK_SIZE

/-- The size of the mapping, with the guard page. -/
def totalSize : Word := page.toWord + stackSize page

/-- `Stack::Stack`, when `mmap` returns `base`, or `MAP_FAILED`; `room` is for `mprotect`. -/
def construct (space : AddressSpace) (room : Bool) :
    Option Word → Except String (Stack × AddressSpace)
  | none => .error "stack mem buffer allocation failed"
  | some base =>
    let space := space.mmap base (totalSize page)
    -- this prevents the stack from overflow
    let space := (space.mprotect page base page.toWord room).getD space
    .ok (⟨base + page.toWord, stackSize page⟩, space)

/-- `Stack::~Stack`; `room` is for `munmap`. -/
def destroy (space : AddressSpace) (st : Stack) (room : Bool) : AddressSpace :=
  (space.munmap page (st.stackMem - page.toWord) (page.toWord + st.size) room).getD space

/-- The addresses of the guard page and the stack. -/
def Region (st : Stack) (x : Word) : Prop :=
  InRange (st.stackMem - page.toWord) (page.toWord + st.size) x

instance (st : Stack) (x : Word) : Decidable (st.Region page x) :=
  inferInstanceAs (Decidable (InRange ..))

/-- The addresses of the guard page. -/
def Guard (st : Stack) (x : Word) : Prop := InRange (st.stackMem - page.toWord) page.toWord x

/-- The addresses of the stack. -/
def Within (st : Stack) (x : Word) : Prop := InRange st.stackMem st.size x

/-- A stack that was mapped by the constructor. -/
structure Mapped (st : Stack) : Prop where
  aligned : page.Aligned st.stackMem
  base : page.Aligned (st.stackMem - page.toWord)
  size : st.size = stackSize page

variable {space space' : AddressSpace} {st st' : Stack} {base x : Word}

/-- The size is whole pages and no more than one page above `STACK_SIZE`. -/
theorem stackSize_spec : page.Aligned (stackSize page) ∧ 1048576 ≤ (stackSize page).toNat ∧
    (stackSize page).toNat < 1048576 + 2 ^ page.log :=
  PageSize.roundUp_spec (n := STACK_SIZE) (by decide)

/-- Guard page and stack together do not wrap. -/
theorem toNat_totalSize : (totalSize page).toNat = 2 ^ page.log + (stackSize page).toNat := by
  obtain ⟨-, -, hlt⟩ := stackSize_spec page
  have hle := page.two_pow_le
  rw [totalSize, BitVec.toNat_add, PageSize.toNat_toWord, Nat.mod_eq_of_lt (by omega)]

variable {page}

/-- A region is its guard page and its stack. -/
theorem Mapped.region_iff (h : st.Mapped page) :
    st.Region page x ↔ st.Guard page x ∨ st.Within x := by
  have htotal := toNat_totalSize page
  have hpage := page.toNat_toWord
  have hsize := h.size
  rw [totalSize, ← hsize] at htotal
  unfold Region Guard Within InRange
  bv_omega

/-- The guard page and the stack have no address in common. -/
theorem Mapped.not_guard (h : st.Mapped page) (hx : st.Within x) : ¬st.Guard page x := by
  have htotal := toNat_totalSize page
  have hpage := page.toNat_toWord
  have hsize := h.size
  rw [totalSize, ← hsize] at htotal
  unfold Guard Within InRange at *
  bv_omega

/-- What the guard page is good for: nothing, if there was no room for `mprotect`. -/
def guardAccess (room : Bool) : Protection := if room then .none else .readWrite

/-- The constructor maps a region of its own. -/
theorem construct_spec {room : Bool} (hfree : space.Free page base (totalSize page))
    (h : construct page space room (some base) = .ok (st, space')) :
    st.Mapped page ∧ (∀ x, st.Region page x → space x = none) ∧
      (∀ x, st.Within x → space' x = some .readWrite) ∧
      (∀ x, st.Guard page x → space' x = some (guardAccess room)) ∧
      ∀ x, ¬st.Region page x → space' x = space x := by
  simp only [construct, AddressSpace.mprotect_getD hfree.aligned] at h
  cases h
  have hbase : base + page.toWord - page.toWord = base := BitVec.add_sub_cancel ..
  have hmapped : Mapped page ⟨base + page.toWord, stackSize page⟩ :=
    ⟨hfree.aligned.add_page, hbase.symm ▸ hfree.aligned, rfl⟩
  have hregion : ∀ {x}, Region page ⟨base + page.toWord, stackSize page⟩ x ↔
      InRange base (totalSize page) x := by
    intro x
    rw [Region, hbase, totalSize]
  have hguard : ∀ {x}, Guard page ⟨base + page.toWord, stackSize page⟩ x ↔
      InRange base page.toWord x := by
    intro x
    rw [Guard, hbase]
  refine ⟨hmapped, fun x hx => hfree.free x (hregion.1 hx), fun x hx => ?_, fun x hx => ?_,
    fun x hx => ?_⟩
  · have hin := AddressSpace.fill_of_inRange (s := space) (v := some .readWrite)
      (hregion.1 (hmapped.region_iff.2 (.inr hx)))
    cases room with
    | true =>
      exact (AddressSpace.fill_of_not fun hg => hmapped.not_guard hx (hguard.2 hg)).trans hin
    | false => exact hin
  · cases room with
    | true => exact AddressSpace.fill_of_inRange (hguard.1 hx)
    | false =>
      exact AddressSpace.fill_of_inRange (hregion.1 (hmapped.region_iff.2 (.inl hx)))
  · have hout := AddressSpace.fill_of_not (s := space) (v := some .readWrite) (mt hregion.2 hx)
    cases room with
    | true =>
      refine (AddressSpace.fill_of_not fun hg => hx ?_).trans hout
      exact hmapped.region_iff.2 (.inl (hguard.2 hg))
    | false => exact hout

/-- The destructor unmaps the region and nothing else, or fails and changes nothing. -/
theorem destroy_spec (space : AddressSpace) (room : Bool) (h : st.Mapped page) :
    (∀ x, st.Region page x → destroy page space st room x = if room then none else space x) ∧
      ∀ x, ¬st.Region page x → destroy page space st room x = space x := by
  rw [destroy, AddressSpace.munmap_getD h.base]
  cases room with
  | true =>
    exact ⟨fun x hx => AddressSpace.fill_of_inRange hx, fun x hx => AddressSpace.fill_of_not hx⟩
  | false => exact ⟨fun _ _ => rfl, fun _ _ => rfl⟩

end Stack

/-- The address space of the process, the live `Stack` objects, whether they have their guard page,
what the rest of the process has mapped, what destructors have failed to unmap, and how many calls
of `mprotect` and `munmap` have failed. -/
structure Stacks (S : Type) where
  space : AddressSpace
  live : S → Option Stack := fun _ => none
  guarded : S → Bool := fun _ => true
  others : AddressSpace
  lost : AddressSpace := fun _ => none
  failed : ℕ := 0

namespace Stacks

variable {S : Type} [DecidableEq S] {page : PageSize}

/-- The constructor of `i` has returned. -/
def built (s : Stacks S) (i : S) (st : Stack) (space : AddressSpace) (room : Bool) : Stacks S :=
  { s with
    space := space
    live := Function.update s.live i (some st)
    guarded := Function.update s.guarded i room
    failed := s.failed + (!room).toNat }

/-- The destructor of `i` has returned. -/
def gone (page : PageSize) (s : Stacks S) (i : S) (st : Stack) (room : Bool) : Stacks S :=
  { s with
    space := Stack.destroy page s.space st room
    live := Function.update s.live i none
    lost := fun x => if st.Region page x ∧ room = false then s.space x else s.lost x
    failed := s.failed + (!room).toNat }

/-- A stack comes or goes, or the rest of the process changes its own mappings. -/
inductive Step (page : PageSize) (s : Stacks S) : Stacks S → Prop
  | construct {i : S} {base : Word} {st space} (room : Bool) (hi : s.live i = none)
    (hfree : s.space.Free page base (Stack.totalSize page))
    (h : Stack.construct page s.space room (some base) = .ok (st, space)) :
    Step page s (s.built i st space room)
  | destroy {i : S} {st} (room : Bool) (hi : s.live i = some st) :
    Step page s (s.gone page i st room)
  | others {a n : Word} {v : Option Protection}
    (h : ∀ i st, s.live i = some st → ∀ x, st.Region page x → ¬InRange a n x)
    (hlost : ∀ x, InRange a n x → s.lost x = none) :
    Step page s { s with space := s.space.fill a n v, others := s.others.fill a n v }

/-- The runs from a process without stacks. -/
inductive Run (page : PageSize) : Stacks S → Prop
  | init (space : AddressSpace) : Run page { space := space, others := space }
  | step {s s'} (hr : Run page s) (hs : Step page s s') : Run page s'

/-- Each live stack has its region, with the access that it needs; the rest of the process has the
other addresses, apart from what is lost. -/
structure Ledger (page : PageSize) (s : Stacks S) : Prop where
  mapped : ∀ {i st}, s.live i = some st → st.Mapped page
  within : ∀ {i st x}, s.live i = some st → st.Within x → s.space x = some .readWrite
  guard : ∀ {i st x}, s.live i = some st → st.Guard page x →
    s.space x = some (Stack.guardAccess (s.guarded i))
  own : ∀ {i st x}, s.live i = some st → st.Region page x → s.others x = none ∧ s.lost x = none
  disjoint : ∀ {i j st st' x}, s.live i = some st → s.live j = some st' →
    st.Region page x → st'.Region page x → i = j
  lost : ∀ {x}, s.lost x ≠ none → s.others x = none
  rest : ∀ {x}, (∀ i st, s.live i = some st → ¬st.Region page x) →
    s.space x = (s.lost x).or (s.others x)
  unfailing : s.failed = 0 → (∀ i st, s.live i = some st → s.guarded i = true) ∧
    ∀ x, s.lost x = none

variable {s s' : Stacks S} {i : S} {st : Stack} {space : AddressSpace} {base : Word} {room : Bool}

omit [DecidableEq S] in
/-- The region of a live stack is mapped. -/
theorem Ledger.region_mapped (h : s.Ledger page) (hi : s.live i = some st) {x : Word}
    (hx : st.Region page x) : s.space x ≠ none := by
  rcases (h.mapped hi).region_iff.1 hx with hx | hx
  · rw [h.guard hi hx]
    exact Option.some_ne_none _
  · rw [h.within hi hx]
    exact Option.some_ne_none _

/-- A constructor adds a region. -/
theorem Ledger.construct (h : s.Ledger page) (hi : s.live i = none)
    (hfree : s.space.Free page base (Stack.totalSize page))
    (hrun : Stack.construct page s.space room (some base) = .ok (st, space)) :
    Ledger page (s.built i st space room) := by
  obtain ⟨hmapped, hnone, hwithin, hguard, hrest⟩ := Stack.construct_spec hfree hrun
  have hof : ∀ {j st'}, Function.update s.live i (some st) j = some st' →
      j = i ∧ st' = st ∨ j ≠ i ∧ s.live j = some st' := by
    intro j st' hj
    rcases eq_or_ne j i with rfl | hne
    · rw [Function.update_self] at hj
      exact .inl ⟨rfl, (Option.some.inj hj).symm⟩
    · rw [Function.update_of_ne hne] at hj
      exact .inr ⟨hne, hj⟩
  have hnew : (s.built i st space room).guarded i = room := Function.update_self ..
  have hsame : ∀ {j}, j ≠ i → (s.built i st space room).guarded j = s.guarded j :=
    fun hne => Function.update_of_ne hne ..
  -- the kernel gave no address of a live stack
  have hapart : ∀ {j st' x}, s.live j = some st' → st'.Region page x → ¬st.Region page x :=
    fun hj hx hin => h.region_mapped hj hx (hnone _ hin)
  have hold : ∀ {j st' x}, s.live j = some st' → st'.Region page x → space x = s.space x :=
    fun hj hx => hrest _ (hapart hj hx)
  refine ⟨fun hj => ?_, fun hj hx => ?_, fun hj hx => ?_, fun {j st' x} hj hx => ?_,
    fun hj hk hx hx' => ?_, h.lost, fun {x} hx => ?_, fun hfailed => ?_⟩
  · rcases hof hj with ⟨-, rfl⟩ | ⟨-, hj⟩
    · exact hmapped
    · exact h.mapped hj
  · rcases hof hj with ⟨-, rfl⟩ | ⟨-, hj⟩
    · exact hwithin _ hx
    · exact (hold hj ((h.mapped hj).region_iff.2 (.inr hx))).trans (h.within hj hx)
  · rcases hof hj with ⟨rfl, rfl⟩ | ⟨hne, hj⟩
    · rw [hnew]
      exact hguard _ hx
    · rw [hsame hne]
      exact (hold hj ((h.mapped hj).region_iff.2 (.inl hx))).trans (h.guard hj hx)
  · rcases hof hj with ⟨-, rfl⟩ | ⟨-, hj⟩
    · have hfree := h.rest (x := x) fun k st' hk hin => hapart hk hin hx
      rw [hnone _ hx, eq_comm, Option.or_eq_none_iff] at hfree
      exact ⟨hfree.2, hfree.1⟩
    · exact h.own hj hx
  · rcases hof hj with ⟨hji, hst⟩ | ⟨-, hj⟩
    · rcases hof hk with ⟨hki, -⟩ | ⟨-, hk⟩
      · exact hji.trans hki.symm
      · exact absurd (hst ▸ hx) (hapart hk hx')
    · rcases hof hk with ⟨-, hst⟩ | ⟨-, hk⟩
      · exact absurd (hst ▸ hx') (hapart hj hx)
      · exact h.disjoint hj hk hx hx'
  · have hout : ∀ j st', s.live j = some st' → ¬st'.Region page x := by
      intro j st' hj
      have hne : j ≠ i := by
        rintro rfl
        cases hi.symm.trans hj
      exact hx j st' ((Function.update_of_ne hne _ _).trans hj)
    exact (hrest x (hx i st (Function.update_self ..))).trans (h.rest hout)
  · cases room with
    | false => cases hfailed
    | true =>
      obtain ⟨hguarded, hlost⟩ := h.unfailing hfailed
      refine ⟨fun j st' hj => ?_, hlost⟩
      rcases hof hj with ⟨rfl, -⟩ | ⟨hne, hj⟩
      · exact hnew
      · exact (hsame hne).trans (hguarded j st' hj)

/-- A destructor takes a region away, or leaves it behind. -/
theorem Ledger.destroy (h : s.Ledger page) (hi : s.live i = some st) :
    Ledger page (s.gone page i st room) := by
  obtain ⟨hgone, hkeep⟩ := Stack.destroy_spec s.space room (h.mapped hi)
  have hof : ∀ {j st'}, Function.update s.live i none j = some st' →
      j ≠ i ∧ s.live j = some st' := by
    intro j st' hj
    rcases eq_or_ne j i with rfl | hne
    · rw [Function.update_self] at hj
      cases hj
    · rw [Function.update_of_ne hne] at hj
      exact ⟨hne, hj⟩
  have hout : ∀ {j st' x}, j ≠ i → s.live j = some st' → st'.Region page x →
      ¬st.Region page x := fun hne hj hx hin => hne (h.disjoint hj hi hx hin)
  have hlost : ∀ {x}, ¬st.Region page x → (s.gone page i st room).lost x = s.lost x :=
    fun hx => if_neg fun hin => hx hin.1
  refine ⟨fun hj => h.mapped (hof hj).2, fun hj hx => ?_, fun hj hx => ?_, fun hj hx => ?_,
    fun hj hk hx hx' => h.disjoint (hof hj).2 (hof hk).2 hx hx', fun {x} hx => ?_,
    fun {x} hx => ?_, fun hfailed => ?_⟩
  · obtain ⟨hne, hj⟩ := hof hj
    have hregion := (h.mapped hj).region_iff.2 (.inr hx)
    exact (hkeep _ (hout hne hj hregion)).trans (h.within hj hx)
  · obtain ⟨hne, hj⟩ := hof hj
    have hregion := (h.mapped hj).region_iff.2 (.inl hx)
    exact (hkeep _ (hout hne hj hregion)).trans (h.guard hj hx)
  · obtain ⟨hne, hj⟩ := hof hj
    rw [hlost (hout hne hj hx)]
    exact h.own hj hx
  · by_cases hin : st.Region page x
    · exact (h.own hi hin).1
    · rw [hlost hin] at hx
      exact h.lost hx
  · by_cases hin : st.Region page x
    · obtain ⟨hothers, hnot⟩ := h.own hi hin
      refine (hgone x hin).trans ?_
      cases room with
      | true =>
        have hsame : (s.gone page i st true).lost x = s.lost x := if_neg (by simp)
        rw [hsame, hnot]
        exact hothers.symm
      | false =>
        have hleft : (s.gone page i st false).lost x = s.space x := if_pos ⟨hin, rfl⟩
        obtain ⟨v, hv⟩ := Option.ne_none_iff_exists'.1 (h.region_mapped hi hin)
        rw [hleft, hv]
        rfl
    · rw [hlost hin]
      refine (hkeep x hin).trans (h.rest fun j st' hj hx' => ?_)
      rcases eq_or_ne j i with rfl | hne
      · cases hi.symm.trans hj
        exact hin hx'
      · exact hx j st' ((Function.update_of_ne hne _ _).trans hj) hx'
  · cases room with
    | false => cases hfailed
    | true =>
      obtain ⟨hguarded, hnone⟩ := h.unfailing hfailed
      exact ⟨fun j st' hj => hguarded j st' (hof hj).2, fun x => (if_neg (by simp)).trans (hnone x)⟩

omit [DecidableEq S] in
/-- What the rest of the process maps is its own. -/
theorem Ledger.others {a n : Word} {v : Option Protection} (h : s.Ledger page)
    (hout : ∀ i st, s.live i = some st → ∀ x, st.Region page x → ¬InRange a n x)
    (hlost : ∀ x, InRange a n x → s.lost x = none) :
    Ledger page { s with space := s.space.fill a n v, others := s.others.fill a n v } := by
  have hkeep : ∀ {t : AddressSpace} {j st' x}, s.live j = some st' → st'.Region page x →
      t.fill a n v x = t x := fun hj hx => AddressSpace.fill_of_not (hout _ _ hj _ hx)
  refine ⟨h.mapped, fun hj hx => ?_, fun hj hx => ?_, fun hj hx => ?_, h.disjoint,
    fun {x} hx => ?_, fun {x} hx => ?_, h.unfailing⟩
  · exact (hkeep hj ((h.mapped hj).region_iff.2 (.inr hx))).trans (h.within hj hx)
  · exact (hkeep hj ((h.mapped hj).region_iff.2 (.inl hx))).trans (h.guard hj hx)
  · exact ⟨(hkeep hj hx).trans (h.own hj hx).1, (h.own hj hx).2⟩
  · exact (AddressSpace.fill_of_not fun hin => hx (hlost x hin)).trans (h.lost hx)
  · change s.space.fill a n v x = (s.lost x).or (s.others.fill a n v x)
    by_cases hin : InRange a n x
    · rw [hlost x hin, AddressSpace.fill_of_inRange hin, AddressSpace.fill_of_inRange hin]
      rfl
    · rw [AddressSpace.fill_of_not hin, AddressSpace.fill_of_not hin]
      exact h.rest hx

/-- A step keeps the ledger. -/
theorem Ledger.step (h : s.Ledger page) (hs : Step page s s') : s'.Ledger page := by
  cases hs with
  | construct room hi hfree hrun => exact h.construct hi hfree hrun
  | destroy room hi => exact h.destroy hi
  | others hout hlost => exact h.others hout hlost

/-- The ledger holds in every run. -/
theorem Run.ledger (hr : Run page s) : s.Ledger page := by
  induction hr with
  | init space =>
    refine ⟨nofun, nofun, nofun, nofun, nofun, fun hx => absurd rfl hx, fun _ => rfl, fun _ => ?_⟩
    exact ⟨nofun, fun _ => rfl⟩
  | step _ hs ih => exact ih.step hs

/-- Whatever stacks come and go in a process: each live stack is whole pages, at least `STACK_SIZE`
and aligned to a page, all of it accessible, with a page below it that is not, unless `mprotect`
failed there; the regions of two are disjoint; `munmap` has a valid argument, so that it fails only
for want of room; outside of the live regions the process has mapped what the rest of it maps and
the regions that `munmap` failed for, which are apart; and if no call failed, each live stack has
its guard page and nothing is left behind. -/
theorem run_stacks (hr : Run page s) :
    (∀ i st, s.live i = some st →
      (page.Aligned st.stackMem ∧ page.Aligned st.size ∧ STACK_SIZE ≤ st.size) ∧
      (∀ x, st.Within x → s.space x = some .readWrite) ∧
      (∀ x, st.Guard page x → s.space x = some (Stack.guardAccess (s.guarded i))) ∧
      s.space.munmap page (st.stackMem - page.toWord) (page.toWord + st.size) true =
        some (Stack.destroy page s.space st true)) ∧
    (∀ i j st st' x, s.live i = some st → s.live j = some st' →
      st.Region page x → st'.Region page x → i = j) ∧
    (∀ i st x, s.live i = some st → st.Region page x → s.others x = none ∧ s.lost x = none) ∧
    (∀ x, (∀ i st, s.live i = some st → ¬st.Region page x) →
      s.space x = (s.lost x).or (s.others x)) ∧
    (∀ x, s.lost x ≠ none → s.others x = none) ∧
    (s.failed = 0 → (∀ i st, s.live i = some st → s.guarded i = true) ∧ ∀ x, s.lost x = none) := by
  have h := hr.ledger
  refine ⟨fun i st hi => ⟨?_, fun x => h.within hi, fun x => h.guard hi, ?_⟩,
    fun i j st st' x => h.disjoint, fun i st x => h.own, fun x => h.rest, fun x => h.lost,
    h.unfailing⟩
  · obtain ⟨halign, hle, -⟩ := Stack.stackSize_spec page
    rw [(h.mapped hi).size]
    exact ⟨(h.mapped hi).aligned, halign, hle⟩
  · rw [Stack.destroy, AddressSpace.munmap, if_pos ⟨(h.mapped hi).base, rfl⟩, Option.getD_some]

/-- Two stacks, with pages of 4 KiB: there is no room for the guard page of the second one. -/
theorem run_stacks_two : ∃ s : Stacks Bool,
    s.space 0x10fff = some .none ∧ s.space 0x11000 = some .readWrite ∧
      s.space 0x110fff = some .readWrite ∧ s.space 0x111000 = none ∧
      s.space 0x200fff = some .readWrite ∧ s.space 0x201000 = some .readWrite := by
  let page : PageSize := ⟨12, by decide⟩
  let st : Stack := ⟨0x10000 + page.toWord, Stack.stackSize page⟩
  let st' : Stack := ⟨0x200000 + page.toWord, Stack.stackSize page⟩
  have hfree : AddressSpace.Free (fun _ => none) page 0x10000 (Stack.totalSize page) :=
    ⟨by decide, fun _ _ => rfl⟩
  obtain ⟨s₁, hone, hlive₁, hguarded₁, hlost₁, hothers₁⟩ : ∃ s₁ : Stacks Bool, Run page s₁ ∧
      s₁.live = Function.update (fun _ => none) true (some st) ∧ s₁.guarded true = true ∧
      s₁.lost = (fun _ => none) ∧ s₁.others = fun _ => none :=
    ⟨_, (Run.init fun _ => none).step (.construct (i := true) true rfl hfree rfl), rfl, rfl, rfl,
      rfl⟩
  have hfree' : s₁.space.Free page 0x200000 (Stack.totalSize page) := by
    refine ⟨by decide, fun x hx => ?_⟩
    have hrest := (run_stacks hone).2.2.2.1 x fun i st hi hin => by
      rw [hlive₁] at hi
      cases i with
      | false => cases hi
      | true =>
        cases hi
        have htotal : Stack.totalSize page = 0x101000 := by decide
        have hbase : (0x10000 + page.toWord - page.toWord : Word) = 0x10000 := by decide
        have hregion : page.toWord + Stack.stackSize page = 0x101000 := by decide
        rw [htotal] at hx
        rw [Stack.Region, hbase, hregion] at hin
        unfold InRange at hx hin
        bv_omega
    rw [hrest, hlost₁, hothers₁]
    rfl
  obtain ⟨s, hr, htrue, hfalse, hguarded, hunguarded, hlost, hothers⟩ : ∃ s : Stacks Bool,
      Run page s ∧ s.live true = some st ∧ s.live false = some st' ∧ s.guarded true = true ∧
      s.guarded false = false ∧ s.lost = (fun _ => none) ∧ s.others = fun _ => none := by
    refine ⟨_, hone.step (.construct (i := false) false ?_ hfree' rfl), ?_, rfl, hguarded₁, rfl,
      hlost₁, hothers₁⟩
    · rw [hlive₁]
      rfl
    · rw [built, hlive₁]
      rfl
  obtain ⟨hlive, -, -, hrest, -⟩ := run_stacks hr
  obtain ⟨-, hwithin, hguard, -⟩ := hlive true st htrue
  obtain ⟨-, hwithin', hguard', -⟩ := hlive false st' hfalse
  rw [hguarded] at hguard
  rw [hunguarded] at hguard'
  refine ⟨s, hguard _ (by unfold Stack.Guard; decide), hwithin _ (by unfold Stack.Within; decide),
    hwithin _ (by unfold Stack.Within; decide), (hrest _ fun i st₂ hi => ?_).trans ?_,
    hguard' _ (by unfold Stack.Guard; decide), hwithin' _ (by unfold Stack.Within; decide)⟩
  · cases i with
    | false =>
      cases hfalse.symm.trans hi
      decide
    | true =>
      cases htrue.symm.trans hi
      decide
  · rw [hlost, hothers]
    rfl

end Stacks

end RockCoro
