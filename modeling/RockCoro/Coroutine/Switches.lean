import RockCoro.Coroutine.Context
import RockCoro.Lib.Logs

/-!
# Any sequence of switches

Coroutines with contexts and stacks of their own. The one that runs changes its registers and its
stack, and calls the routines of `coroutine/context_swap.S`. A context that was saved is whole until
it is resumed, and so is the return address on its stack (`run_isolated`).
-/

namespace RockCoro

open X86

/-- The coroutines, with disjoint contexts and stacks. `entry` is the address of
`coroutine_entry_function`. -/
structure Coroutines (C : Type*) where
  ctx : C → Word
  stackMem : C → Word
  stackSize : C → Word
  args : C → Word
  entry : Word
  ctx_disjoint : ∀ c d x, InContext (ctx c) x → InContext (ctx d) x → c = d
  stack_disjoint : ∀ c d x, InRange (stackMem c) (stackSize c) x →
    InRange (stackMem d) (stackSize d) x → c = d
  ctx_stack : ∀ c d x, InContext (ctx c) x → ¬InRange (stackMem d) (stackSize d) x

/-- What the context of a coroutine can be used for. It is `stale` while the coroutine runs and
after it has returned. -/
inductive Usable
  | stale
  /-- by `ctx_entry_swap` -/
  | prepared
  /-- by `ctx_swap` and `ctx_exit_swap` -/
  | saved
  deriving DecidableEq

/-- The machine, the coroutine that runs on it, and what the contexts are good for. -/
structure System (C : Type*) where
  machine : Machine
  running : C
  usable : C → Usable

/-- What a switch does, as the two coroutines see it. -/
inductive SwitchEvent (C : Type*)
  /-- `c` calls a routine that saves, with these registers and this return address. -/
  | out (c : C) (reg : Reg → Word) (ret : Word)
  | exited (c : C)
  /-- `c` is back, with these registers, at this address. -/
  | resumed (c : C) (reg : Reg → Word) (rip : Word)
  | entered (c : C) (reg : Reg → Word) (rip : Word)

namespace SwitchEvent

variable {C : Type*}

/-- The coroutine that an event is about. -/
def coroutine : SwitchEvent C → C
  | .out c .. | .exited c | .resumed c .. | .entered c .. => c

/-- The event is about `c`. -/
def About (c : C) (e : SwitchEvent C) : Prop := e.coroutine = c

/-- An event about one coroutine is about no other. -/
theorem not_about {c d : C} {e : SwitchEvent C} (he : e.coroutine = c) (hne : d ≠ c) : ¬About d e :=
  fun habout => hne (habout.symm.trans he)

end SwitchEvent

namespace Coroutines

variable {C : Type*} (P : Coroutines C)

/-- The addresses of the stack of `c`. -/
def InStack (c : C) (x : Word) : Prop := InRange (P.stackMem c) (P.stackSize c) x

/-- The context and the stack of `c`. -/
def Owned (c : C) (x : Word) : Prop := InContext (P.ctx c) x ∨ P.InStack c x

/-- The addresses that `c` does not write: the contexts, its own included, and the other stacks. -/
def Others (c : C) (x : Word) : Prop :=
  (∃ d, InContext (P.ctx d) x) ∨ ∃ d, d ≠ c ∧ P.InStack d x

/-- The address just above the stack of `c`. -/
def stackEnd (c : C) : Word := P.stackMem c + P.stackSize c

/-- The call of a routine pushes the return address on the stack of the caller. -/
def Calls (s : System C) : Prop := ∀ x, InRange (s.machine.reg .rsp - 8) 8 x → P.InStack s.running x

section
variable [DecidableEq C]

/-- The running coroutine calls a routine that saves its context. -/
def switch (s : System C) (c : C) (ret : Word) (code : List Instr) : System C where
  machine := (s.machine.pushRet ret).exec code
  running := c
  usable := Function.update (Function.update s.usable s.running .saved) c .stale

/-- The running coroutine calls `ctx_exit_swap`. -/
def exit (s : System C) (c : C) (ret : Word) : System C where
  machine := (s.machine.pushRet ret).exec ctxExitSwap
  running := c
  usable := Function.update s.usable c .stale

/-- The running coroutine calls `init` for `c`. -/
def prepare (s : System C) (c : C) : System C where
  machine := { s.machine with
    mem := contextInit s.machine.mem (P.ctx c) (P.stackEnd c) P.entry (P.args c) }
  running := s.running
  usable := Function.update s.usable c .prepared

/-- A step of the program. Each of the three routines is used as `usable` says. -/
inductive Step : System C → List (SwitchEvent C) → System C → Prop
  /-- Between switches, any registers, and any memory that is not for others. -/
  | work {s : System C} {machine : Machine}
      (hmem : ∀ x, P.Others s.running x → machine.mem x = s.machine.mem x) :
      Step s [] { s with machine }
  | init {s : System C} {c : C} (hc : c ≠ s.running) (hsize : 24 ≤ P.stackSize c) :
      Step s [] (P.prepare s c)
  | entrySwap {s s' : System C} {c : C} {ret : Word} (hc : s.usable c = .prepared)
    (hcalls : P.Calls s)
      (hfrom : s.machine.reg .rdi = P.ctx s.running) (hto : s.machine.reg .rsi = P.ctx c)
      (hs' : s' = switch s c ret ctxEntrySwap) :
      Step s [.out s.running s.machine.reg ret, .entered c s'.machine.reg s'.machine.rip] s'
  | swap {s s' : System C} {c : C} {ret : Word} (hc : s.usable c = .saved) (hcalls : P.Calls s)
      (hfrom : s.machine.reg .rdi = P.ctx s.running) (hto : s.machine.reg .rsi = P.ctx c)
      (hs' : s' = switch s c ret ctxSwap) :
      Step s [.out s.running s.machine.reg ret, .resumed c s'.machine.reg s'.machine.rip] s'
  | exitSwap {s s' : System C} {c : C} {ret : Word} (hc : s.usable c = .saved) (hcalls : P.Calls s)
      (hto : s.machine.reg .rdi = P.ctx c)
      (hs' : s' = exit s c ret) :
      Step s [.exited s.running, .resumed c s'.machine.reg s'.machine.rip] s'

/-- The runs of the program. One coroutine runs at the start, and no context is saved. -/
inductive Run : List (SwitchEvent C) → System C → Prop
  | start (machine : Machine) (c : C) : Run [] { machine, running := c, usable := fun _ => .stale }
  | step {log s es s'} (hr : Run log s) (hs : P.Step s es s') : Run (log ++ es) s'

end

/-- The registers that a switch is to keep. -/
def kept : List Reg := [.r12, .r13, .r14, .r15, .rbx, .rbp]

/-- The event is as the log before it has it: a coroutine that is back is where it left, with the
registers that it had then, and one that starts is in the entry function with its parameters. -/
def AsLeft (log : List (SwitchEvent C)) : SwitchEvent C → Prop
  | .resumed c reg rip => ∃ reg' ret, Latest (SwitchEvent.About c) log (.out c reg' ret) ∧
      rip = ret ∧ ∀ r ∈ kept, reg r = reg' r
  | .entered c reg rip => rip = P.entry ∧ reg .rdi = P.ctx c ∧ reg .rsi = P.args c
  | .out .. | .exited _ => True

/-! ## The context of a coroutine that does not run -/

section
variable {P} {c d : C} {mem mem' : Memory} {reg : Reg → Word} {ret x : Word}

/-- `c` called with the registers `reg`: the context has them, and the return address is on top of
the stack. -/
structure Suspended (P : Coroutines C) (mem : Memory) (c : C) (reg : Reg → Word) (ret : Word) :
    Prop where
  holds : HoldsRegs mem (P.ctx c) (Function.update reg .rsp (reg .rsp - 8))
  slot : ∀ x, InRange (reg .rsp - 8) 8 x → P.InStack c x
  ret : load mem (reg .rsp - 8) = ret

/-- `init` was called for `c`. -/
structure Ready (P : Coroutines C) (mem : Memory) (c : C) : Prop where
  size : 24 ≤ P.stackSize c
  prepared : Prepared mem (P.ctx c) (P.stackEnd c) P.entry (P.args c)

/-- No address is owned by two coroutines. -/
theorem Owned.eq (hc : P.Owned c x) (hd : P.Owned d x) : c = d := by
  rcases hc with hc | hc <;> rcases hd with hd | hd
  · exact P.ctx_disjoint c d x hc hd
  · exact absurd hd (P.ctx_stack c d x hc)
  · exact absurd hc (P.ctx_stack d c x hd)
  · exact P.stack_disjoint c d x hc hd

/-- What one coroutine owns is not for another to write. -/
theorem Owned.others (hd : P.Owned d x) (hne : d ≠ c) : P.Others c x :=
  hd.imp (fun h => ⟨d, h⟩) fun h => ⟨d, hne, h⟩

/-- The top of a stack, where `init` puts the entry function and its parameters. -/
theorem inStack_top (hsize : 24 ≤ P.stackSize c) (hx : InRange (P.stackEnd c - 24) 24 x) :
    P.InStack c x := by
  unfold InStack stackEnd InRange at *
  bv_omega

/-- A suspended coroutine stays so while nobody writes what it owns. -/
theorem Suspended.congr (h : P.Suspended mem c reg ret) (heq : ∀ x, P.Owned c x → mem x = mem' x) :
    P.Suspended mem' c reg ret where
  holds := h.holds.congr fun x hx => heq x (.inl hx)
  slot := h.slot
  ret := (load_congr fun x hx => heq x (.inr (h.slot x hx))).symm.trans h.ret

/-- A prepared context stays so while nobody writes what its coroutine owns. -/
theorem Ready.congr (h : P.Ready mem c) (heq : ∀ x, P.Owned c x → mem x = mem' x) :
    P.Ready mem' c where
  size := h.size
  prepared := h.prepared.congr fun x hx => heq x (hx.imp_right (inStack_top h.size))

end

/-! ## A switch -/

section
variable {P} {s : System C} {c d : C} {x : Word} {code : List Instr} (ret : Word)

/-- The push of the return address writes the stack of the caller. -/
theorem pushRet_frame (hcalls : P.Calls s) (hd : d ≠ s.running) (hx : P.Owned d x) :
    (s.machine.pushRet ret).mem x = s.machine.mem x :=
  store_apply_of_not fun hslot => hd (hx.eq (.inr (hcalls x hslot)))

/-- A switch writes nothing that another coroutine owns. -/
theorem suspend_frame (hcode : code = ctxSwap ∨ code = ctxEntrySwap) (hcalls : P.Calls s)
    (hfrom : s.machine.reg .rdi = P.ctx s.running) (hd : d ≠ s.running) (hx : P.Owned d x) :
    ((s.machine.pushRet ret).exec code).mem x = s.machine.mem x := by
  have hrdi : (s.machine.pushRet ret).reg .rdi = P.ctx s.running := by
    rw [Machine.pushRet_reg_of_ne ret (by decide), hfrom]
  rw [(exec_suspend hcode).2 x, pushRet_frame _ hcalls hd hx]
  rw [hrdi]
  exact fun hctx => hd (hx.eq (.inl hctx))

/-- A routine that saves leaves the caller suspended. -/
theorem suspended_caller (hcode : code = ctxSwap ∨ code = ctxEntrySwap) (hcalls : P.Calls s)
    (hfrom : s.machine.reg .rdi = P.ctx s.running) :
    P.Suspended ((s.machine.pushRet ret).exec code).mem s.running s.machine.reg ret := by
  have hrdi : (s.machine.pushRet ret).reg .rdi = P.ctx s.running := by
    rw [Machine.pushRet_reg_of_ne ret (by decide), hfrom]
  obtain ⟨hholds, hframe⟩ := exec_suspend (m := s.machine.pushRet ret) hcode
  rw [hrdi] at hholds hframe
  refine ⟨hholds, hcalls, ?_⟩
  calc load ((s.machine.pushRet ret).exec code).mem (s.machine.reg .rsp - 8)
      = load (s.machine.pushRet ret).mem (s.machine.reg .rsp - 8) :=
        load_congr fun x hx => hframe x fun hctx => P.ctx_stack _ _ x hctx (hcalls x hx)
    _ = ret := load_store

end

/-! ## The runs -/

section
variable {P} {s s' : System C} {c d : C} {ret : Word} {code : List Instr}
  {log es : List (SwitchEvent C)} {e : SwitchEvent C}

/-- Two events are appended one after the other. -/
theorem append_pair {a b : SwitchEvent C} : log ++ [a, b] = log ++ [a] ++ [b] := by
  rw [List.append_assoc, List.singleton_append]

/-- Each context is what `usable` says, and the saved ones are as their coroutine left them last. -/
structure Inv (P : Coroutines C) (log : List (SwitchEvent C)) (s : System C) : Prop where
  running : s.usable s.running = .stale
  prepared : ∀ c, s.usable c = .prepared → P.Ready s.machine.mem c
  saved : ∀ c, s.usable c = .saved → ∃ reg ret,
    Latest (SwitchEvent.About c) log (.out c reg ret) ∧ P.Suspended s.machine.mem c reg ret
  asLeft : ∀ l₀ e l₁, log = l₀ ++ e :: l₁ → P.AsLeft l₀ e

/-- A usable context is not the one of the running coroutine. -/
theorem Inv.ne_running (h : P.Inv log s) (hc : s.usable c ≠ .stale) : c ≠ s.running := by
  rintro rfl
  exact hc h.running

/-- Work between two switches keeps the invariant. -/
theorem Inv.work (h : P.Inv log s) {machine : Machine}
    (hmem : ∀ x, P.Others s.running x → machine.mem x = s.machine.mem x) :
    P.Inv log { s with machine } := by
  have hkeep : ∀ c, s.usable c ≠ .stale → ∀ x, P.Owned c x → s.machine.mem x = machine.mem x :=
    fun c hc x hx => (hmem x (hx.others (h.ne_running hc))).symm
  refine ⟨h.running, fun c hc => ?_, fun c hc => ?_, h.asLeft⟩
  · exact (h.prepared c hc).congr (hkeep c (hc ▸ nofun))
  · obtain ⟨reg, ret, hlatest, hsusp⟩ := h.saved c hc
    exact ⟨reg, ret, hlatest, hsusp.congr (hkeep c (hc ▸ nofun))⟩

/-- A suspended coroutine comes back as it left. `hback` is what the loads of a routine bring
back. -/
theorem asLeft_of_back {m : Machine} {reg : Reg → Word} {ret' : Word} {mem : Memory}
    (hlatest : Latest (SwitchEvent.About c) log (.out c reg ret'))
    (hsusp : P.Suspended mem c reg ret')
    (hmem : ∀ x, P.Owned c x → m.mem x = mem x)
    (hback : (∀ r ∈ CoroutineContext.fields,
        m.reg r = Function.update reg .rsp (reg .rsp - 8) r) ∧
      m.rip = load m.mem (reg .rsp - 8)) :
    P.AsLeft log (.resumed c m.reg m.rip) := by
  refine ⟨reg, ret', hlatest, ?_, fun r hr => ?_⟩
  · rw [hback.2, ← hsusp.ret]
    exact load_congr fun x hx => hmem x (.inr (hsusp.slot x hx))
  · have hfields : ∀ r ∈ kept, r ∈ CoroutineContext.fields ∧ r ≠ .rsp := by decide
    rw [hback.1 r (hfields r hr).1, Function.update_of_ne (hfields r hr).2]

variable [DecidableEq C]

/-- A value that an update does not give was there before. -/
theorem of_update {f : C → Usable} {u v : Usable} (h : Function.update f c u d = v) (huv : u ≠ v) :
    d ≠ c ∧ f d = v := by
  have hdc : d ≠ c := by
    rintro rfl
    rw [Function.update_self] at h
    exact huv h
  exact ⟨hdc, by rwa [Function.update_of_ne hdc] at h⟩

/-- `init` keeps the invariant. -/
theorem Inv.init (h : P.Inv log s) (hc : c ≠ s.running) (hsize : 24 ≤ P.stackSize c) :
    P.Inv log (P.prepare s c) := by
  have hkeep : ∀ d, d ≠ c → ∀ x, P.Owned d x → s.machine.mem x = (P.prepare s c).machine.mem x := by
    intro d hd x hx
    refine (contextInit_frame (fun hctx => hd (hx.eq (.inl hctx))) fun htop => ?_).symm
    exact hd (hx.eq (.inr (inStack_top hsize htop)))
  refine ⟨?_, fun d hd => ?_, fun d hd => ?_, h.asLeft⟩
  · change Function.update s.usable c .prepared s.running = .stale
    rw [Function.update_of_ne hc.symm, h.running]
  · change Function.update s.usable c .prepared d = .prepared at hd
    by_cases hdc : d = c
    · subst hdc
      refine ⟨hsize, prepared_contextInit fun x hctx htop => ?_⟩
      exact P.ctx_stack d d x hctx (inStack_top hsize htop)
    · rw [Function.update_of_ne hdc] at hd
      exact (h.prepared d hd).congr (hkeep d hdc)
  · obtain ⟨hdc, hd⟩ := of_update hd (by decide)
    obtain ⟨reg, ret, hlatest, hsusp⟩ := h.saved d hd
    exact ⟨reg, ret, hlatest, hsusp.congr (hkeep d hdc)⟩

/-- A routine that saves the context of the caller and goes on with `c`. -/
theorem Inv.switch (h : P.Inv log s) (hcode : code = ctxSwap ∨ code = ctxEntrySwap)
    (hcalls : P.Calls s) (hfrom : s.machine.reg .rdi = P.ctx s.running)
    (he : e.coroutine = c) (hleft : P.AsLeft (log ++ [.out s.running s.machine.reg ret]) e) :
    P.Inv (log ++ [.out s.running s.machine.reg ret, e]) (Coroutines.switch s c ret code) := by
  have hkeep : ∀ d, d ≠ s.running → ∀ x, P.Owned d x →
      s.machine.mem x = (Coroutines.switch s c ret code).machine.mem x :=
    fun d hd x hx => (suspend_frame _ hcode hcalls hfrom hd hx).symm
  rw [append_pair]
  refine ⟨Function.update_self .., fun d hd => ?_, fun d hd => ?_, ?_⟩
  · obtain ⟨-, hd⟩ := of_update hd (by decide)
    obtain ⟨hrun, hd⟩ := of_update hd (by decide)
    exact (h.prepared d hd).congr (hkeep d hrun)
  · obtain ⟨hdc, hd⟩ := of_update hd (by decide)
    have hother : ¬SwitchEvent.About d e := SwitchEvent.not_about he hdc
    by_cases hrun : d = s.running
    · subst hrun
      exact ⟨_, _, Latest.concat_self.concat hother, suspended_caller _ hcode hcalls hfrom⟩
    · rw [Function.update_of_ne hrun] at hd
      obtain ⟨reg, ret', hlatest, hsusp⟩ := h.saved d hd
      have hown : ¬SwitchEvent.About d (.out s.running s.machine.reg ret) :=
        SwitchEvent.not_about rfl hrun
      exact ⟨reg, ret', (hlatest.concat hown).concat hother, hsusp.congr (hkeep d hrun)⟩
  · exact forall_split_concat (forall_split_concat h.asLeft trivial) hleft

/-- `ctx_exit_swap` goes on with `c`, and leaves nothing of the caller. -/
theorem Inv.exit (h : P.Inv log s) (hcalls : P.Calls s) (he : e.coroutine = c)
    (hleft : P.AsLeft (log ++ [.exited s.running]) e) :
    P.Inv (log ++ [.exited s.running, e]) (Coroutines.exit s c ret) := by
  have hkeep : ∀ d, d ≠ s.running → ∀ x, P.Owned d x →
      s.machine.mem x = (Coroutines.exit s c ret).machine.mem x := by
    intro d hd x hx
    change _ = ((s.machine.pushRet ret).exec ctxExitSwap).mem x
    rw [exec_ctxExitSwap_mem, pushRet_frame _ hcalls hd hx]
  rw [append_pair]
  refine ⟨Function.update_self .., fun d hd => ?_, fun d hd => ?_, ?_⟩
  · obtain ⟨-, hd⟩ := of_update hd (by decide)
    exact (h.prepared d hd).congr (hkeep d (h.ne_running (hd ▸ nofun)))
  · obtain ⟨hdc, hd⟩ := of_update hd (by decide)
    have hrun : d ≠ s.running := h.ne_running (hd ▸ nofun)
    have hother : ¬SwitchEvent.About d e := SwitchEvent.not_about he hdc
    obtain ⟨reg, ret', hlatest, hsusp⟩ := h.saved d hd
    have hown : ¬SwitchEvent.About d (.exited s.running) := SwitchEvent.not_about rfl hrun
    exact ⟨reg, ret', (hlatest.concat hown).concat hother, hsusp.congr (hkeep d hrun)⟩
  · exact forall_split_concat (forall_split_concat h.asLeft trivial) hleft

/-- A step keeps the invariant. -/
theorem Inv.step (h : P.Inv log s) (hs : P.Step s es s') : P.Inv (log ++ es) s' := by
  -- the contexts of two coroutines do not overlap
  have hapart : ∀ c d, c ≠ d → ∀ x, InContext (P.ctx c) x → ¬InContext (P.ctx d) x :=
    fun c d hne x hc hd => hne (P.ctx_disjoint c d x hc hd)
  cases hs with
  | work hmem =>
    rw [List.append_nil]
    exact h.work hmem
  | init hc hsize =>
    rw [List.append_nil]
    exact h.init hc hsize
  | @entrySwap _ c ret hc hcalls hfrom hto hs' =>
    subst hs'
    have hne : c ≠ s.running := h.ne_running (hc ▸ nofun)
    have hpush := (h.prepared c hc).congr
      fun x hx => (pushRet_frame ret hcalls hne hx).symm
    have hready := (h.prepared c hc).congr
      fun x hx => (suspend_frame ret (.inr rfl) hcalls hfrom hne hx).symm
    refine h.switch (.inr rfl) hcalls hfrom rfl ?_
    rw [← Machine.pushRet_reg_of_ne ret (by decide)] at hfrom hto
    obtain ⟨hrip, hrdi, hrsi⟩ := exec_ctxEntrySwap (hfrom ▸ hto ▸ hapart _ _ hne)
      (hto ▸ hpush.prepared.rsp)
    exact ⟨hrip.trans hready.prepared.entry, hrdi.trans hready.prepared.coroutine,
      hrsi.trans hready.prepared.args⟩
  | @swap _ c ret hc hcalls hfrom hto hs' =>
    subst hs'
    have hne : c ≠ s.running := h.ne_running (hc ▸ nofun)
    obtain ⟨reg, ret', hlatest, hsusp⟩ := h.saved c hc
    have hpush := hsusp.congr fun x hx => (pushRet_frame ret hcalls hne hx).symm
    refine h.switch (.inl rfl) hcalls hfrom rfl ?_
    refine asLeft_of_back (hlatest.concat (SwitchEvent.not_about rfl hne)) hsusp
      (fun x hx => suspend_frame ret (.inl rfl) hcalls hfrom hne hx) ?_
    rw [← Machine.pushRet_reg_of_ne ret (by decide)] at hfrom hto
    have hback := exec_ctxSwap (hto.symm ▸ hpush.holds) (hfrom ▸ hto ▸ hapart _ _ hne)
    rw [Function.update_self] at hback
    exact hback
  | @exitSwap _ c ret hc hcalls hto hs' =>
    subst hs'
    have hne : c ≠ s.running := h.ne_running (hc ▸ nofun)
    obtain ⟨reg, ret', hlatest, hsusp⟩ := h.saved c hc
    have hpush := hsusp.congr fun x hx => (pushRet_frame ret hcalls hne hx).symm
    refine h.exit hcalls rfl ?_
    rw [← Machine.pushRet_reg_of_ne ret (by decide)] at hto
    obtain ⟨hreg, hrip, hmem⟩ := exec_ctxExitSwap (hto.symm ▸ hpush.holds)
    rw [Function.update_self] at hrip
    refine asLeft_of_back (hlatest.concat (SwitchEvent.not_about rfl hne)) hpush (fun x _ => ?_)
      ⟨hreg, ?_⟩
    · change ((s.machine.pushRet ret).exec ctxExitSwap).mem x = _
      rw [hmem]
    · change ((s.machine.pushRet ret).exec ctxExitSwap).rip =
        load ((s.machine.pushRet ret).exec ctxExitSwap).mem _
      rw [hmem]
      exact hrip

/-- The invariant holds in every run. -/
theorem Run.inv (h : P.Run log s) : P.Inv log s := by
  induction h with
  | start machine c => exact ⟨rfl, nofun, nofun, fun _ _ _ hlog => absurd hlog (by simp)⟩
  | step _ hs ih => exact ih.step hs

/-- Switches isolate the coroutines: whatever the others did, one that is resumed goes on at the
return address of its last call, with the registers of a callee as they were at the call. The
assembly has the fields at the offsets that the compiler gives them. -/
theorem run_isolated (h : P.Run log s) :
    OffsetsAgree ∧ ∀ l₀ e l₁, log = l₀ ++ e :: l₁ → P.AsLeft l₀ e :=
  ⟨offsets_agree, h.inv.asLeft⟩

end

/-! ### Two coroutines -/

/-- Two coroutines with separate contexts and stacks. -/
def two : Coroutines Bool where
  ctx c := if c then 0x1000 else 0x2000
  stackMem c := if c then 0x10000 else 0x20000
  stackSize _ := 0x1000
  args _ := 7
  entry := 0x400000
  ctx_disjoint := by
    intro c d x hc hd
    change x - _ < (56 : Word) at hc hd
    cases c <;> cases d <;> first
      | rfl
      | (simp only [reduceIte, Bool.false_eq_true] at hc hd; bv_omega)
  stack_disjoint := by
    intro c d x hc hd
    change x - _ < (0x1000 : Word) at hc hd
    cases c <;> cases d <;> first
      | rfl
      | (simp only [reduceIte, Bool.false_eq_true] at hc hd; bv_omega)
  ctx_stack := by
    intro c d x hc hd
    change x - _ < (56 : Word) at hc
    change x - _ < (0x1000 : Word) at hd
    cases c <;> cases d <;> (simp only [reduceIte, Bool.false_eq_true] at hc hd; bv_omega)

/-- The registers of `c` when it calls a routine to go on with the other. -/
def atCall (c : Bool) : Reg → Word
  | .rdi => two.ctx c
  | .rsi => two.ctx !c
  | .rsp => two.stackEnd c - 64
  | .r12 => if c then 12 else 21
  | _ => 0

/-- Coroutine `true` runs and no context is saved. -/
def atStart : System Bool where
  machine := { reg := atCall true, mem := fun _ => 0, rip := 0 }
  running := true
  usable := fun _ => .stale

/-- `true` starts `false`, which calls in its turn. -/
def inEntry : System Bool := switch (two.prepare atStart false) false 0x500000 ctxEntrySwap

/-- Coroutine `false` has run up to its own call. -/
def inOther : System Bool :=
  { inEntry with machine := { inEntry.machine with reg := atCall false } }

/-- The log up to the call of `false`. -/
def backLog : List (SwitchEvent Bool) :=
  [.out true (atCall true) 0x500000, .entered false inEntry.machine.reg inEntry.machine.rip,
    .out false (atCall false) 0x600000]

/-- `true` is back. -/
def inBack : System Bool := switch inOther true 0x600000 ctxSwap

/-- A call from within the stack pushes its return address there. -/
theorem calls_atCall {s : System Bool} (hs : s.machine.reg .rsp = two.stackEnd s.running - 64) :
    two.Calls s := by
  intro x hx
  rw [hs] at hx
  generalize s.running = c at *
  change x - (two.stackMem c + (0x1000 : Word) - 64 - 8) < (8 : Word) at hx
  change x - two.stackMem c < (0x1000 : Word)
  bv_omega

/-- The run in which `true` starts `false` and is resumed by it. -/
theorem run_back :
    two.Run (backLog ++ [.resumed true inBack.machine.reg inBack.machine.rip]) inBack := by
  have hinit : two.Run [] (two.prepare atStart false) :=
    (Run.start atStart.machine true).step (.init (by decide) (by decide))
  have hentry : two.Run [.out true (atCall true) 0x500000,
      .entered false inEntry.machine.reg inEntry.machine.rip] inEntry :=
    hinit.step (.entrySwap rfl (calls_atCall rfl) rfl rfl rfl)
  have hother : two.Run _ inOther := hentry.step (.work fun _ _ => rfl)
  have hback : two.Step inOther [.out false (atCall false) 0x600000,
      .resumed true inBack.machine.reg inBack.machine.rip] inBack :=
    .swap rfl (calls_atCall rfl) rfl rfl rfl
  exact hother.step hback

/-- In that run `true` is back at its return address with its registers. -/
theorem run_isolated_two : OffsetsAgree ∧
    ∃ reg ret, Latest (SwitchEvent.About true) backLog (.out true reg ret) ∧
      inBack.machine.rip = ret ∧ ∀ r ∈ kept, inBack.machine.reg r = reg r := by
  obtain ⟨hoffsets, hleft⟩ := run_isolated run_back
  exact ⟨hoffsets, hleft _ _ _ rfl⟩

end Coroutines

end RockCoro
