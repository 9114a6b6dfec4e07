import RockCoro.Coroutine.Context

/-!
# The first switch

`CoroutineContext::init` on the memory of a `Coroutine`, and then `ctx_entry_swap`. The coroutine
starts in `coroutine_entry_function` with its parameters, on the top of its own stack
(`entersCoroutine`).
-/

namespace RockCoro

open X86

/-! ## `Coroutine` -/

namespace CoroutineObject

variable (mem : Memory) (coroutine : Word)

/-- `stack_.stack_mem_`, which follows `ctx_`. -/
def stackMem : Word := load mem (coroutine + 56)

/-- `stack_.size_` -/
def stackSize : Word := load mem (coroutine + 64)

/-- `args_`, which follows `fn_`. -/
def args : Word := load mem (coroutine + 80)

/-- The addresses of `ctx_`, `stack_`, `fn_` and `args_`. -/
def InFields (x : Word) : Prop := InRange coroutine 88 x

/-- The addresses of the stack. -/
def InStack (x : Word) : Prop := InRange (stackMem mem coroutine) (stackSize mem coroutine) x

/-- The address just above the stack. -/
def stackEnd : Word := stackMem mem coroutine + stackSize mem coroutine

/-- The three words that `init` reserves. -/
def InTop (x : Word) : Prop := InRange (stackEnd mem coroutine - 24) 24 x

/-- A stack of whole alignment units, apart from the object. -/
structure StackOK : Prop where
  aligned : stackMem mem coroutine % 16 = 0
  units : stackSize mem coroutine % 16 = 0
  room : 24 ≤ stackSize mem coroutine
  apart : ∀ x, InFields coroutine x → ¬InStack mem coroutine x

end CoroutineObject

/-- `CoroutineContext::init`. The fields of `coroutine` are read where the source reads them:
`args_` after two of the words are written. -/
def CoroutineContext.init (mem : Memory) (ctx coroutine entry : Word) : Memory :=
  let sp := CoroutineObject.stackMem mem coroutine + CoroutineObject.stackSize mem coroutine - 24
  let mem := store mem sp entry
  let mem := store mem (sp + 8) coroutine
  let mem := store mem (sp + 16) (CoroutineObject.args mem coroutine)
  let mem := store mem (fieldAt ctx .rsp) sp
  store mem (fieldAt ctx .rbp) sp

section
variable {mem : Memory} {coroutine entry old x : Word} {m : Machine}

open CoroutineObject

/-- What `init` writes, for any coroutine: the top of its stack and two fields of the context. -/
theorem CoroutineContext.init_frame {ctx : Word} (htop : ¬InTop mem coroutine x)
    (hrsp : ¬InRange (fieldAt ctx .rsp) 8 x) (hrbp : ¬InRange (fieldAt ctx .rbp) 8 x) :
    init mem ctx coroutine entry x = mem x := by
  change ¬InRange (stackMem mem coroutine + stackSize mem coroutine - 24) 24 x at htop
  unfold init
  rw [store_apply_of_not hrbp, store_apply_of_not hrsp,
    store_apply_of_not fun h => htop (inRange_slot (by decide) h),
    store_apply_of_not fun h => htop (inRange_slot (by decide) h),
    store_apply_of_not fun h => htop (inRange_slot_zero h)]

/-- The context is the first part of the object. -/
theorem inFields_of_inContext (hx : InContext coroutine x) : InFields coroutine x := by
  unfold InContext InFields InRange at *
  change x - coroutine < 56 at hx
  bv_omega

/-! ## The stack -/

namespace CoroutineObject.StackOK

/-- The three words that `init` reserves are in the stack. -/
theorem inStack_of_inTop (h : StackOK mem coroutine) (hx : InTop mem coroutine x) :
    InStack mem coroutine x := by
  have hroom := h.room
  unfold InTop stackEnd InStack InRange at *
  bv_omega

/-- The object has no address among the three words. -/
theorem not_inTop_of_inFields (h : StackOK mem coroutine) (hx : InFields coroutine x) :
    ¬InTop mem coroutine x :=
  fun htop => h.apart x hx (h.inStack_of_inTop htop)

/-- The stack pointer of the entry is in the stack. -/
theorem inStack_entry (h : StackOK mem coroutine) :
    InStack mem coroutine (stackEnd mem coroutine - 24) := by
  refine h.inStack_of_inTop ?_
  unfold InTop InRange
  bv_omega

/-- Three words below an aligned end: the alignment of a function entry. -/
theorem entry_aligned (h : StackOK mem coroutine) : (stackEnd mem coroutine - 24) % 16 = 8 := by
  have haligned := congrArg BitVec.toNat h.aligned
  have hunits := congrArg BitVec.toNat h.units
  refine BitVec.eq_of_toNat_eq ?_
  simp only [stackEnd, BitVec.ofNat_eq_ofNat, BitVec.toNat_umod, BitVec.toNat_sub, BitVec.toNat_add,
    BitVec.toNat_ofNat, Nat.reducePow, Nat.reduceMod] at haligned hunits ⊢
  omega

end CoroutineObject.StackOK

/-! ## From `init` to the entry -/

/-- On an object of its own, `init` prepares the context as for the values of its fields. -/
theorem CoroutineContext.init_eq (h : StackOK mem coroutine) :
    init mem coroutine coroutine entry =
      contextInit mem coroutine (stackEnd mem coroutine) entry (args mem coroutine) := by
  set sp := stackEnd mem coroutine - 24 with hsp
  have hslot : ∀ x, InRange (coroutine + 80) 8 x → ¬InRange sp 24 x := by
    refine fun x hx => h.not_inTop_of_inFields ?_
    unfold InFields InRange at *
    bv_omega
  have hargs : args (store (store mem sp entry) (sp + 8) coroutine) coroutine =
      args mem coroutine := by
    unfold args
    rw [load_store_of_disjoint fun x hx hin => hslot x hx (inRange_slot (by decide) hin),
      load_store_of_disjoint fun x hx hin => hslot x hx (inRange_slot_zero hin)]
  change store (store (store _ _ (args (store (store mem sp entry) (sp + 8) coroutine) coroutine))
    _ _) _ _ = _
  rw [hargs]
  rfl

/-- `ctx_entry_swap(old, coroutine)` after `init`: between the two the caller writes neither the
context nor the words that `init` reserved. -/
structure FirstSwitch (mem : Memory) (old coroutine entry : Word) (m : Machine) : Prop where
  rdi : m.reg .rdi = old
  rsi : m.reg .rsi = coroutine
  kept : ∀ x, InContext coroutine x ∨ InTop mem coroutine x →
    m.mem x = CoroutineContext.init mem coroutine coroutine entry x

/-- The context of `old` is apart from the coroutine and its stack. -/
def ContextApart (mem : Memory) (old coroutine : Word) : Prop :=
  ∀ x, InContext old x → ¬InFields coroutine x ∧ ¬InStack mem coroutine x

/-- The state in which `coroutine_entry_function(coroutine, args)` starts. -/
structure EntersCoroutine (mem : Memory) (coroutine entry : Word) (m : Machine) : Prop where
  rip : m.rip = entry
  rdi : m.reg .rdi = coroutine
  rsi : m.reg .rsi = args mem coroutine
  rsp : m.reg .rsp % 16 = 8
  inStack : InStack mem coroutine (m.reg .rsp)

section
variable (hstack : StackOK mem coroutine) (hm : FirstSwitch mem old coroutine entry m)
include hstack hm

/-- The context is prepared when `ctx_entry_swap` starts. -/
theorem FirstSwitch.prepared :
    Prepared m.mem coroutine (stackEnd mem coroutine) entry (args mem coroutine) := by
  have htop : ∀ x, InContext coroutine x → ¬InTop mem coroutine x :=
    fun x hx => hstack.not_inTop_of_inFields (inFields_of_inContext hx)
  have hinit : ∀ x, InContext coroutine x ∨ InTop mem coroutine x → contextInit mem coroutine
      (stackEnd mem coroutine) entry (args mem coroutine) x = m.mem x := by
    intro x hx
    rw [hm.kept x hx, CoroutineContext.init_eq hstack]
  exact (prepared_contextInit htop).congr hinit

/-- `ctx_entry_swap` saves to the context of `old`, and leaves the prepared words alone. -/
theorem FirstSwitch.prepared_exec (hold : ContextApart mem old coroutine) :
    Prepared (m.exec ctxEntrySwap).mem coroutine (stackEnd mem coroutine) entry
      (args mem coroutine) := by
  obtain ⟨-, hframe⟩ := exec_suspend (m := m) (.inr (rfl : ctxEntrySwap = _))
  refine (hm.prepared hstack).congr fun x hx => (hframe x fun hin => ?_).symm
  rw [hm.rdi] at hin
  obtain ⟨hfields, hinStack⟩ := hold x hin
  rcases hx with hx | hx
  · exact hfields (inFields_of_inContext hx)
  · exact hinStack (hstack.inStack_of_inTop hx)

end

/-- The first switch enters the coroutine with its parameters, saves the old context and writes
nothing else. -/
theorem entersCoroutine (hstack : StackOK mem coroutine) (hold : ContextApart mem old coroutine)
    (hm : FirstSwitch mem old coroutine entry m) :
    EntersCoroutine mem coroutine entry (m.exec ctxEntrySwap) ∧
      HoldsRegs (m.exec ctxEntrySwap).mem old m.reg ∧
      ∀ x, ¬InTop mem coroutine x → ¬InRange (fieldAt coroutine .rsp) 8 x →
        ¬InRange (fieldAt coroutine .rbp) 8 x →
        CoroutineContext.init mem coroutine coroutine entry x = mem x := by
  obtain ⟨hsaved, -⟩ := exec_suspend (m := m) (.inr (rfl : ctxEntrySwap = _))
  have hapart : ∀ x, InContext (m.reg .rsi) x → ¬InContext (m.reg .rdi) x := by
    rw [hm.rdi, hm.rsi]
    exact fun x hx hin => (hold x hin).1 (inFields_of_inContext hx)
  have hsp : load m.mem (m.reg .rsi + 40) = stackEnd mem coroutine - 24 := by
    rw [hm.rsi]
    exact (hm.prepared hstack).rsp
  obtain ⟨hrip, hrdi, hrsi⟩ := exec_ctxEntrySwap hapart hsp
  have hrsp := (exec_ctxEntrySwap_rsp hapart).trans hsp
  have hprepared := hm.prepared_exec hstack hold
  refine ⟨⟨?_, ?_, ?_, ?_, ?_⟩, ?_, fun x htop hrsp hrbp => ?_⟩
  · rw [hrip, hprepared.entry]
  · rw [hrdi, hprepared.coroutine]
  · rw [hrsi, hprepared.args]
  · rw [hrsp]
    exact hstack.entry_aligned
  · rw [hrsp]
    exact hstack.inStack_entry
  · rwa [hm.rdi] at hsaved
  · exact CoroutineContext.init_frame htop hrsp hrbp

/-- A coroutine at `0x2000` with a stack of one page at `0x10000`. -/
def freshCoroutine : Memory :=
  store (store (store (fun _ => 0) 0x2038 0x10000) 0x2040 0x1000) 0x2050 0x1234

/-- Its first switch, from the coroutine at `0x1000`. -/
def switcher : Machine where
  reg
    | .rdi => 0x1000
    | .rsi => 0x2000
    | .rsp => 0x8000
    | _ => 0x77
  mem := CoroutineContext.init freshCoroutine 0x2000 0x2000 0x400000
  rip := 0x500000

/-- The stack of `freshCoroutine` is aligned and apart from the object. -/
theorem stackOK_freshCoroutine : StackOK freshCoroutine 0x2000 := by
  have hmem : stackMem freshCoroutine 0x2000 = 0x10000 := by decide
  have hsize : stackSize freshCoroutine 0x2000 = 0x1000 := by decide
  refine ⟨by decide, by decide, by decide, fun x hx hin => ?_⟩
  unfold InStack at hin
  rw [hmem, hsize] at hin
  unfold InFields InRange at *
  bv_omega

/-- The switching coroutine's context is apart from the new one. -/
theorem contextApart_freshCoroutine : ContextApart freshCoroutine 0x1000 0x2000 := by
  have hmem : stackMem freshCoroutine 0x2000 = 0x10000 := by decide
  have hsize : stackSize freshCoroutine 0x2000 = 0x1000 := by decide
  intro x hx
  change x - 0x1000 < 56 at hx
  unfold InStack InFields
  rw [hmem, hsize]
  constructor
  · unfold InRange
    bv_omega
  · unfold InRange
    bv_omega

/-- The first switch into `freshCoroutine`, with the `rsp` it starts at. -/
theorem entersCoroutine_switcher :
    EntersCoroutine freshCoroutine 0x2000 0x400000 (switcher.exec ctxEntrySwap) ∧
      (switcher.exec ctxEntrySwap).reg .rsp = 0x10fe8 := by
  have hm : FirstSwitch freshCoroutine 0x1000 0x2000 0x400000 switcher :=
    ⟨rfl, rfl, fun _ _ => rfl⟩
  have h := entersCoroutine stackOK_freshCoroutine contextApart_freshCoroutine hm
  exact ⟨h.1, by decide⟩

end

end RockCoro
