import RockCoro.Lib.X86

/-!
# Context switches

The three routines of `coroutine/context_swap.S` and `CoroutineContext::init`. `ctx_` is the first
field of `Coroutine`, so a `Coroutine*` is the address of its context.
-/

namespace RockCoro

open X86

/-! ## `CoroutineContext` -/

/-- The register that each field of `CoroutineContext` is for, in the order of the fields. -/
def CoroutineContext.fields : List Reg := [.r12, .r13, .r14, .r15, .rbp, .rsp, .rbx]

/-- The fields with their offsets: each is a pointer. -/
def CoroutineContext.layout : List (Reg × Word) :=
  CoroutineContext.fields.zipIdx.map fun (r, i) => (r, BitVec.ofNat 64 (8 * i))

/-- `sizeof(CoroutineContext)`. -/
def CoroutineContext.size : Word := BitVec.ofNat 64 (8 * CoroutineContext.fields.length)

/-- The address of a field. -/
def fieldAt (ctx : Word) (r : Reg) : Word :=
  ctx + BitVec.ofNat 64 (8 * CoroutineContext.fields.idxOf r)

/-! ## The routines -/

/-- `ctx_entry_swap`. -/
def ctxEntrySwap : List Instr :=
  [ .store .rsp 40 .rdi
  , .store .rbx 48 .rdi
  , .store .rbp 32 .rdi
  , .store .r12 0 .rdi
  , .store .r13 8 .rdi
  , .store .r14 16 .rdi
  , .store .r15 24 .rdi
  , .load 32 .rsi .rbp
  , .load 40 .rsi .rsp
  , .load 8 .rsp .rdi
  , .load 16 .rsp .rsi
  , .load 0 .rsp .rax
  , .jmp .rax ]

/-- `ctx_swap`. -/
def ctxSwap : List Instr :=
  [ .store .rbx 48 .rdi
  , .store .rsp 40 .rdi
  , .store .rbp 32 .rdi
  , .store .r12 0 .rdi
  , .store .r13 8 .rdi
  , .store .r14 16 .rdi
  , .store .r15 24 .rdi
  , .load 32 .rsi .rbp
  , .load 40 .rsi .rsp
  , .load 0 .rsi .r12
  , .load 8 .rsi .r13
  , .load 16 .rsi .r14
  , .load 24 .rsi .r15
  , .load 48 .rsi .rbx
  , .load 0 .rsp .rax
  , .jmp .rax ]

/-- `ctx_exit_swap`. -/
def ctxExitSwap : List Instr :=
  [ .load 32 .rdi .rbp
  , .load 40 .rdi .rsp
  , .load 0 .rdi .r12
  , .load 8 .rdi .r13
  , .load 16 .rdi .r14
  , .load 24 .rdi .r15
  , .load 48 .rdi .rbx
  , .load 0 .rsp .rax
  , .jmp .rax ]

/-- `CoroutineContext::init`, for a stack that ends at `stackEnd`. The coroutine starts in
`coroutine_entry_function`. -/
def contextInit (mem : Memory) (coroutine stackEnd entry args : Word) : Memory :=
  let sp := stackEnd - 24
  let mem := store mem sp entry
  let mem := store mem (sp + 8) coroutine
  let mem := store mem (sp + 16) args
  let mem := store mem (fieldAt coroutine .rsp) sp
  store mem (fieldAt coroutine .rbp) sp

/-! ## The offsets -/

/-- The registers that the code saves through `base`, with their offsets. -/
def savesThrough (base : Reg) (code : List Instr) : List (Reg × Word) :=
  code.filterMap fun
    | .store src off b => if b = base then some (src, off) else none
    | _ => none

/-- The registers that the code loads through `base`, with their offsets. -/
def loadsThrough (base : Reg) (code : List Instr) : List (Reg × Word) :=
  code.filterMap fun
    | .load off b dst => if b = base then some (dst, off) else none
    | _ => none

/-- The assembly reads and writes each register at the offset of its field: two routines save all of
them, two load all of them, and `ctx_entry_swap` loads two. -/
structure OffsetsAgree : Prop where
  saved : ∀ code ∈ [ctxSwap, ctxEntrySwap], (savesThrough .rdi code).Perm CoroutineContext.layout
  swapped : (loadsThrough .rsi ctxSwap).Perm CoroutineContext.layout
  exited : (loadsThrough .rdi ctxExitSwap).Perm CoroutineContext.layout
  entered : ∀ p ∈ loadsThrough .rsi ctxEntrySwap, p ∈ CoroutineContext.layout

/-- The offsets in the assembly are those of the fields. -/
theorem offsets_agree : OffsetsAgree := ⟨by decide, by decide, by decide, by decide⟩

/-! ## What the routines do -/

/-- The jump to the return address, which stays on the stack. -/
def jumpBack : List Instr := [.load 0 .rsp .rax, .jmp .rax]

/-- The end of `ctx_entry_swap`. -/
def jumpEntry : List Instr :=
  [.load 32 .rsi .rbp, .load 40 .rsi .rsp, .load 8 .rsp .rdi, .load 16 .rsp .rsi, .load 0 .rsp .rax,
    .jmp .rax]

/-- The jump changes `rax` and no other register. -/
theorem exec_jumpBack_reg {m : Machine} {r : Reg} (hr : r ≠ .rax) :
    (m.exec jumpBack).reg r = m.reg r := by
  change (m.set .rax (load m.mem (m.reg .rsp + 0))).reg r = m.reg r
  exact Machine.set_reg_of_ne hr

/-- The jump goes to the word on top of the stack. -/
theorem exec_jumpBack_rip {m : Machine} : (m.exec jumpBack).rip = load m.mem (m.reg .rsp) := by
  have hoff : m.reg .rsp + 0 = m.reg .rsp := BitVec.add_zero _
  change (m.set .rax (load m.mem (m.reg .rsp + 0))).reg .rax = _
  rw [Machine.set_reg_self, hoff]

/-- The jump leaves the memory alone. -/
theorem exec_jumpBack_mem {m : Machine} : (m.exec jumpBack).mem = m.mem := rfl

/-- The end of `ctx_entry_swap` leaves the memory alone. -/
theorem exec_jumpEntry_mem {m : Machine} : (m.exec jumpEntry).mem = m.mem := rfl

/-- `ctx_swap` saves, loads and jumps. -/
theorem ctxSwap_eq : ctxSwap = Machine.stores .rdi (savesThrough .rdi ctxSwap) ++
    (Machine.loads .rsi (loadsThrough .rsi ctxSwap) ++ jumpBack) :=
  rfl

/-- `ctx_entry_swap` saves and ends with the jump to the entry. -/
theorem ctxEntrySwap_eq :
    ctxEntrySwap = Machine.stores .rdi (savesThrough .rdi ctxEntrySwap) ++ jumpEntry :=
  rfl

/-- `ctx_exit_swap` loads and jumps. -/
theorem ctxExitSwap_eq :
    ctxExitSwap = Machine.loads .rdi (loadsThrough .rdi ctxExitSwap) ++ jumpBack :=
  rfl

/-- The context at `ctx` holds the registers `reg`. -/
def HoldsRegs (mem : Memory) (ctx : Word) (reg : Reg → Word) : Prop :=
  ∀ p ∈ CoroutineContext.layout, load mem (ctx + p.2) = reg p.1

/-- The addresses of the context. -/
abbrev InContext (ctx x : Word) : Prop := InRange ctx CoroutineContext.size x

/-- A field of the context lies within it. -/
theorem inContext_of_inRange {ctx x : Word} {p : Reg × Word} (hp : p ∈ CoroutineContext.layout)
    (hx : InRange (ctx + p.2) 8 x) : InContext ctx x := by
  have hlayout : ∀ p ∈ CoroutineContext.layout, p.2 ≤ 48 := by decide
  have hoff := hlayout p hp
  unfold InContext InRange at *
  change x - ctx < 56
  bv_omega

/-- The saved registers depend on the context's addresses only. -/
theorem HoldsRegs.congr {mem mem' : Memory} {ctx : Word} {reg : Reg → Word}
    (h : HoldsRegs mem ctx reg)
    (heq : ∀ x, InContext ctx x → mem x = mem' x) : HoldsRegs mem' ctx reg := by
  intro p hp
  rw [← h p hp]
  exact (load_congr fun x hx => heq x (inContext_of_inRange hp hx)).symm

section
variable {m : Machine} {l : List (Reg × Word)} {base : Reg} {reg : Reg → Word}

/-- The saves fill the context and write nothing else. -/
theorem exec_saves {b : Reg} (hl : l.Perm CoroutineContext.layout) :
    HoldsRegs (m.exec (Machine.stores b l)).mem (m.reg b) m.reg ∧
      ∀ x, ¬InContext (m.reg b) x → (m.exec (Machine.stores b l)).mem x = m.mem x := by
  have hapart : l.Pairwise fun p q => Apart p.2 q.2 :=
    hl.symm.pairwise (by decide) fun h => ⟨h.2, h.1⟩
  refine ⟨fun p hp => Machine.load_exec_stores hapart (hl.mem_iff.2 hp), fun x hx => ?_⟩
  exact Machine.exec_stores_frame fun p hp hin => hx (inContext_of_inRange (hl.mem_iff.1 hp) hin)

/-- The loads bring the registers of the context back, and the jump goes to the return address on
top of its stack. -/
theorem exec_restores (hl : l.Perm CoroutineContext.layout)
    (hbase : ∀ p ∈ CoroutineContext.layout, p.1 ≠ base) (h : HoldsRegs m.mem (m.reg base) reg) :
    (∀ r ∈ CoroutineContext.fields, (m.exec (Machine.loads base l ++ jumpBack)).reg r = reg r) ∧
      (m.exec (Machine.loads base l ++ jumpBack)).rip = load m.mem (reg .rsp) ∧
      (m.exec (Machine.loads base l ++ jumpBack)).mem = m.mem := by
  have hdistinct : l.Pairwise fun p q => p.1 ≠ q.1 :=
    hl.symm.pairwise (by decide) fun h => h.symm
  have hreg : ∀ r ∈ CoroutineContext.fields, (m.exec (Machine.loads base l)).reg r = reg r := by
    intro r hr
    obtain ⟨p, hp, rfl⟩ : ∃ p ∈ CoroutineContext.layout, p.1 = r := by
      revert r
      decide
    rw [Machine.exec_loads_reg hdistinct (fun p hp => hbase p (hl.mem_iff.1 hp)) (hl.mem_iff.2 hp),
      h p hp]
  rw [Machine.exec_append, exec_jumpBack_rip, exec_jumpBack_mem, hreg .rsp (by decide),
    Machine.exec_loads_mem]
  refine ⟨fun r hr => ?_, rfl, rfl⟩
  have hne : r ≠ .rax := by
    rintro rfl
    exact absurd hr (by decide)
  rw [exec_jumpBack_reg hne, hreg r hr]

/-- The two routines that save write the context of the caller. -/
theorem exec_suspend {code : List Instr} (hcode : code = ctxSwap ∨ code = ctxEntrySwap) :
    HoldsRegs (m.exec code).mem (m.reg .rdi) m.reg ∧
      ∀ x, ¬InContext (m.reg .rdi) x → (m.exec code).mem x = m.mem x := by
  rcases hcode with rfl | rfl
  · rw [ctxSwap_eq, Machine.exec_append, Machine.exec_append, exec_jumpBack_mem,
      Machine.exec_loads_mem]
    exact exec_saves (offsets_agree.saved _ (by decide))
  · rw [ctxEntrySwap_eq, Machine.exec_append, exec_jumpEntry_mem]
    exact exec_saves (offsets_agree.saved _ (by decide))

/-- `ctx_swap` takes the registers from the other context. -/
theorem exec_ctxSwap (h : HoldsRegs m.mem (m.reg .rsi) reg)
    (hapart : ∀ x, InContext (m.reg .rsi) x → ¬InContext (m.reg .rdi) x) :
    (∀ r ∈ CoroutineContext.fields, (m.exec ctxSwap).reg r = reg r) ∧
      (m.exec ctxSwap).rip = load (m.exec ctxSwap).mem (reg .rsp) := by
  obtain ⟨-, hframe⟩ := exec_saves (m := m) (b := .rdi) (offsets_agree.saved ctxSwap (by decide))
  set m₁ := m.exec (Machine.stores .rdi (savesThrough .rdi ctxSwap)) with hm₁
  have hreg₁ : m₁.reg = m.reg := Machine.exec_stores_reg
  have hrsi : HoldsRegs m₁.mem (m₁.reg .rsi) reg := by
    rw [hreg₁]
    exact h.congr fun x hx => (hframe x (hapart x hx)).symm
  obtain ⟨hreg, hrip, hmem⟩ := exec_restores offsets_agree.swapped (by decide) hrsi
  rw [ctxSwap_eq, Machine.exec_append, ← hm₁, hmem]
  exact ⟨hreg, hrip⟩

/-- The jump to the entry takes its target and two parameters from the three words at `sp`. -/
theorem exec_jumpEntry {sp : Word} (hsp : load m.mem (m.reg .rsi + 40) = sp) :
    (m.exec jumpEntry).rip = load m.mem sp ∧
      (m.exec jumpEntry).reg .rdi = load m.mem (sp + 8) ∧
      (m.exec jumpEntry).reg .rsi = load m.mem (sp + 16) := by
  subst hsp
  simp [jumpEntry, Machine.step, Machine.set]

/-- The jump to the entry leaves `rsp` at the target, without popping it. -/
theorem exec_jumpEntry_rsp : (m.exec jumpEntry).reg .rsp = load m.mem (m.reg .rsi + 40) := by
  simp [jumpEntry, Machine.step, Machine.set]

/-- `ctx_entry_swap` jumps to the return address on the stack of the other context, with the two
parameters above it. -/
theorem exec_ctxEntrySwap (hapart : ∀ x, InContext (m.reg .rsi) x → ¬InContext (m.reg .rdi) x)
    {sp : Word} (hsp : load m.mem (m.reg .rsi + 40) = sp) :
    (m.exec ctxEntrySwap).rip = load (m.exec ctxEntrySwap).mem sp ∧
      (m.exec ctxEntrySwap).reg .rdi = load (m.exec ctxEntrySwap).mem (sp + 8) ∧
      (m.exec ctxEntrySwap).reg .rsi = load (m.exec ctxEntrySwap).mem (sp + 16) := by
  obtain ⟨-, hframe⟩ := exec_saves (m := m) (b := .rdi)
    (offsets_agree.saved ctxEntrySwap (by decide))
  rw [ctxEntrySwap_eq, Machine.exec_append, exec_jumpEntry_mem]
  refine exec_jumpEntry ?_
  rw [Machine.exec_stores_reg, ← hsp]
  refine load_congr fun x hx => hframe x (hapart x ?_)
  exact inContext_of_inRange (p := (.rsp, 40)) (by decide) hx

/-- `ctx_entry_swap` continues on the stack of the other context. -/
theorem exec_ctxEntrySwap_rsp
    (hapart : ∀ x, InContext (m.reg .rsi) x → ¬InContext (m.reg .rdi) x) :
    (m.exec ctxEntrySwap).reg .rsp = load m.mem (m.reg .rsi + 40) := by
  obtain ⟨-, hframe⟩ := exec_saves (m := m) (b := .rdi)
    (offsets_agree.saved ctxEntrySwap (by decide))
  rw [ctxEntrySwap_eq, Machine.exec_append, exec_jumpEntry_rsp, Machine.exec_stores_reg]
  refine load_congr fun x hx => hframe x (hapart x ?_)
  exact inContext_of_inRange (p := (.rsp, 40)) (by decide) hx

/-- `ctx_exit_swap` writes no memory. -/
theorem exec_ctxExitSwap_mem : (m.exec ctxExitSwap).mem = m.mem := by
  rw [ctxExitSwap_eq, Machine.exec_append, exec_jumpBack_mem, Machine.exec_loads_mem]

/-- `ctx_exit_swap` brings back the saved registers and jumps to the return address they point at.
-/
theorem exec_ctxExitSwap (h : HoldsRegs m.mem (m.reg .rdi) reg) :
    (∀ r ∈ CoroutineContext.fields, (m.exec ctxExitSwap).reg r = reg r) ∧
      (m.exec ctxExitSwap).rip = load m.mem (reg .rsp) ∧ (m.exec ctxExitSwap).mem = m.mem := by
  rw [ctxExitSwap_eq]
  exact exec_restores offsets_agree.exited (by decide) h

end

/-! ## What `init` does -/

section
/-- A context that was initialized for a stack that ends at `stackEnd`. -/
structure Prepared (mem : Memory) (coroutine stackEnd entry args : Word) : Prop where
  rsp : load mem (coroutine + 40) = stackEnd - 24
  entry : load mem (stackEnd - 24) = entry
  coroutine : load mem (stackEnd - 24 + 8) = coroutine
  args : load mem (stackEnd - 24 + 16) = args

variable {mem mem' : Memory} {coroutine stackEnd entry args a o x : Word}

/-- A word at most 16 bytes in lies within the three words. -/
theorem inRange_slot (ho : o ≤ 16) (hx : InRange (a + o) 8 x) : InRange a 24 x := by
  unfold InRange at *
  bv_omega

/-- The first word lies within the three words. -/
theorem inRange_slot_zero (hx : InRange a 8 x) : InRange a 24 x := by
  unfold InRange at *
  bv_omega

/-- A field, by its register, lies within the context. -/
theorem inContext_field {r : Reg} (hr : r ∈ CoroutineContext.fields)
    (hx : InRange (fieldAt coroutine r) 8 x) : InContext coroutine x := by
  refine inContext_of_inRange
    (p := (r, BitVec.ofNat 64 (8 * CoroutineContext.fields.idxOf r))) ?_ hx
  clear hx
  revert r
  decide

/-- `init` writes the context and the top of the stack. -/
theorem contextInit_frame (hctx : ¬InContext coroutine x) (hstack : ¬InRange (stackEnd - 24) 24 x) :
    contextInit mem coroutine stackEnd entry args x = mem x := by
  unfold contextInit
  rw [store_apply_of_not fun h => hctx (inContext_field (by decide) h),
    store_apply_of_not fun h => hctx (inContext_field (by decide) h),
    store_apply_of_not fun h => hstack (inRange_slot (by decide) h),
    store_apply_of_not fun h => hstack (inRange_slot (by decide) h),
    store_apply_of_not fun h => hstack (inRange_slot_zero h)]

/-- `init` prepares a context that lies apart from the top of the stack. -/
theorem prepared_contextInit (h : ∀ x, InContext coroutine x → ¬InRange (stackEnd - 24) 24 x) :
    Prepared (contextInit mem coroutine stackEnd entry args) coroutine stackEnd entry args := by
  have hslot : ∀ o : Word, o ≤ 16 → ∀ x, InRange (stackEnd - 24 + o) 8 x →
      ∀ r ∈ CoroutineContext.fields, ¬InRange (fieldAt coroutine r) 8 x :=
    fun o ho x hx r hr hf => h x (inContext_field hr hf) (inRange_slot ho hx)
  have hzero : stackEnd - 24 + 0 = stackEnd - 24 := BitVec.add_zero _
  refine ⟨?_, ?_, ?_, ?_⟩
  · have hapart : Apart (40 : Word) 32 := by decide
    exact (load_store_of_disjoint (hapart.disjoint coroutine)).trans load_store
  · have hapart₁ : Apart (0 : Word) 8 := by decide
    have hapart₂ : Apart (0 : Word) 16 := by decide
    unfold contextInit
    have h0 := hslot 0 (by decide)
    rw [hzero] at h0
    have h1 := hapart₁.disjoint (stackEnd - 24)
    have h2 := hapart₂.disjoint (stackEnd - 24)
    rw [hzero] at h1 h2
    rw [load_store_of_disjoint fun x hx => h0 x hx _ (by decide),
      load_store_of_disjoint fun x hx => h0 x hx _ (by decide),
      load_store_of_disjoint h2, load_store_of_disjoint h1, load_store]
  · have hapart : Apart (8 : Word) 16 := by decide
    unfold contextInit
    rw [load_store_of_disjoint fun x hx => hslot 8 (by decide) x hx _ (by decide),
      load_store_of_disjoint fun x hx => hslot 8 (by decide) x hx _ (by decide),
      load_store_of_disjoint (hapart.disjoint _), load_store]
  · unfold contextInit
    rw [load_store_of_disjoint fun x hx => hslot 16 (by decide) x hx _ (by decide),
      load_store_of_disjoint fun x hx => hslot 16 (by decide) x hx _ (by decide), load_store]

/-- Only the context and the top of the stack matter. -/
theorem Prepared.congr (h : Prepared mem coroutine stackEnd entry args)
    (heq : ∀ x, InContext coroutine x ∨ InRange (stackEnd - 24) 24 x → mem x = mem' x) :
    Prepared mem' coroutine stackEnd entry args := by
  have hslot : ∀ o : Word, o ≤ 16 → load mem' (stackEnd - 24 + o) = load mem (stackEnd - 24 + o) :=
    fun o ho => (load_congr fun x hx => heq x (.inr (inRange_slot ho hx))).symm
  refine ⟨?_, ?_, ?_, ?_⟩
  · rw [← h.rsp]
    exact (load_congr fun x hx => heq x (.inl (inContext_of_inRange (p := (.rsp, 40)) (by decide)
      hx))).symm
  · rw [← h.entry]
    exact (load_congr fun x hx => heq x (.inr (inRange_slot_zero hx))).symm
  · rw [← h.coroutine]
    exact hslot 8 (by decide)
  · rw [← h.args]
    exact hslot 16 (by decide)

end

/-! ## A switch as a call -/

/-- `m` calls `ctx_swap` or `ctx_entry_swap`, with the address `ret` of the next instruction. The
context is untouched until `resumer`, at the first instruction of `ctx_swap` or `ctx_exit_swap`,
resumes it. -/
structure Resumption (m : Machine) (ret : Word) (away resumer back : Machine) : Prop where
  suspended : away = (m.pushRet ret).exec ctxSwap ∨ away = (m.pushRet ret).exec ctxEntrySwap
  untouched : ∀ x, InContext (m.reg .rdi) x → away.mem x = resumer.mem x
  resumed : resumer.reg .rsi = m.reg .rdi ∧ back = resumer.exec ctxSwap ∧
      (∀ x, InContext (resumer.reg .rsi) x → ¬InContext (resumer.reg .rdi) x) ∨
    resumer.reg .rdi = m.reg .rdi ∧ back = resumer.exec ctxExitSwap

/-- The return address of `m` is not in its context, and no one writes it before the jump. -/
structure KeepsReturn (m away back : Machine) : Prop where
  apart : ∀ x, InRange (m.reg .rsp - 8) 8 x → ¬InContext (m.reg .rdi) x
  kept : ∀ x, InRange (m.reg .rsp - 8) 8 x → away.mem x = back.mem x

/-- What the caller sees: the next instruction, with `rsp` as before the call. -/
def Returned (m : Machine) (ret : Word) (back : Machine) : Prop :=
  back.rip = ret ∧ back.reg .rsp = m.reg .rsp

instance (m : Machine) (ret : Word) (back : Machine) : Decidable (Returned m ret back) :=
  inferInstanceAs (Decidable (_ ∧ _))

/-- No switch returns like a call: the jump leaves the return address on the stack, so `rsp` is
eight too low. The next instruction is the right one. -/
theorem not_returned {m away resumer back : Machine} {ret : Word}
    (h : Resumption m ret away resumer back) :
    ¬Returned m ret back ∧ back.reg .rsp = m.reg .rsp - 8 ∧
      (KeepsReturn m away back → back.rip = ret) := by
  have hrdi : (m.pushRet ret).reg .rdi = m.reg .rdi := Machine.pushRet_reg_of_ne ret (by decide)
  obtain ⟨hsaved, hframe⟩ : HoldsRegs away.mem (m.reg .rdi) (m.pushRet ret).reg ∧
      ∀ x, ¬InContext (m.reg .rdi) x → away.mem x = (m.pushRet ret).mem x := by
    rw [← hrdi]
    rcases h.suspended with rfl | rfl
    · exact exec_suspend (.inl rfl)
    · exact exec_suspend (.inr rfl)
  have hresumer := hsaved.congr h.untouched
  obtain ⟨hreg, hrip⟩ : (∀ r ∈ CoroutineContext.fields, back.reg r = (m.pushRet ret).reg r) ∧
      back.rip = load back.mem ((m.pushRet ret).reg .rsp) := by
    rcases h.resumed with ⟨hctx, rfl, hapart⟩ | ⟨hctx, rfl⟩
    · exact exec_ctxSwap (hctx.symm ▸ hresumer) hapart
    · obtain ⟨hreg, hrip, hmem⟩ := exec_ctxExitSwap (hctx.symm ▸ hresumer)
      exact ⟨hreg, hmem.symm ▸ hrip⟩
  have hrsp : back.reg .rsp = m.reg .rsp - 8 := by
    rw [hreg .rsp (by decide), Machine.pushRet_rsp]
  refine ⟨fun hback => ?_, hrsp, fun hkeeps => ?_⟩
  · have hsame := hrsp.symm.trans hback.2
    bv_omega
  · calc back.rip = load back.mem (m.reg .rsp - 8) := by rw [hrip, Machine.pushRet_rsp]
      _ = load away.mem (m.reg .rsp - 8) := load_congr fun x hx => (hkeeps.kept x hx).symm
      _ = load (m.pushRet ret).mem (m.reg .rsp - 8) :=
        load_congr fun x hx => hframe x (hkeeps.apart x hx)
      _ = ret := load_store

/-- A caller with its context at `0x1000`, at the call. -/
def caller : Machine where
  reg
    | .rdi => 0x1000
    | .rsi => 0x2000
    | .rsp => 0x8000
    | _ => 0
  mem := fun _ => 0
  rip := 0x400000

/-- The memory after the switch, with the other registers gone, at the call of `ctx_exit_swap`. -/
def resumer : Machine where
  reg
    | .rdi => 0x1000
    | _ => 0
  mem := ((caller.pushRet 0x400005).exec ctxSwap).mem
  rip := 0x500000

/-- The resumer's machine is a resumption of the caller. -/
theorem resumption_caller : Resumption caller 0x400005 ((caller.pushRet 0x400005).exec ctxSwap)
    resumer (resumer.exec ctxExitSwap) where
  suspended := .inl rfl
  untouched := fun _ _ => rfl
  resumed := .inr ⟨rfl, rfl⟩

/-- The caller's `rsp` is eight below what it was, so it did not return from a call. -/
theorem not_returned_caller :
    ¬Returned caller 0x400005 (resumer.exec ctxExitSwap) ∧
      (resumer.exec ctxExitSwap).reg .rsp = 0x8000 - 8 := by
  have h := not_returned resumption_caller
  exact ⟨h.1, h.2.1⟩

/-- The caller comes back to its next instruction, with `rsp` eight too low. -/
theorem rsp_of_resumed_caller :
    Resumption caller 0x400005 ((caller.pushRet 0x400005).exec ctxSwap) resumer
        (resumer.exec ctxExitSwap) ∧
      KeepsReturn caller ((caller.pushRet 0x400005).exec ctxSwap) (resumer.exec ctxExitSwap) ∧
      (resumer.exec ctxExitSwap).rip = 0x400005 ∧ (resumer.exec ctxExitSwap).reg .rsp = 0x7ff8 ∧
      ¬Returned caller 0x400005 (resumer.exec ctxExitSwap) := by
  refine ⟨resumption_caller, ⟨fun x hx => ?_, fun x _ => ?_⟩, by decide, by decide, by decide⟩
  · unfold InContext InRange at *
    change x - (0x8000 - 8) < 8 at hx
    change ¬x - 0x1000 < 56
    bv_omega
  · rw [exec_ctxExitSwap_mem]
    rfl

end RockCoro
