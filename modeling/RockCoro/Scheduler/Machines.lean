import RockCoro.Coroutine.Stack
import RockCoro.Coroutine.Switches
import RockCoro.Scheduler.Effects

/-!
# The workers as machines

The scheduler with the registers of its workers and the memory that they share. A worker switches
by the routines of `coroutine/context_swap.S`, to the context that the scheduler has for it, while
the others run, so a coroutine leaves one worker and comes back on another. `Coroutines.Run` takes
for granted that a context is used as it may be, once; here the scheduler sees to it
(`run_asLeft`).
-/

namespace RockCoro

open X86

/-! ## A context and its stack -/

/-- The addresses of a context and of the stack that it is for. -/
def InArea (ctx : Word) (st : Stack) (x : Word) : Prop := InContext ctx x ∨ st.Within x

/-- The address just above the stack. -/
def Stack.stackEnd (st : Stack) : Word := st.stackMem + st.size

/-- A switch out with the registers `reg`: the context has them, and the return address is on top of
the stack. -/
structure SavedAt (mem : Memory) (ctx : Word) (st : Stack) (reg : Reg → Word) (ret : Word) :
    Prop where
  holds : HoldsRegs mem ctx (Function.update reg .rsp (reg .rsp - 8))
  slot : ∀ x, InRange (reg .rsp - 8) 8 x → st.Within x
  ret : load mem (reg .rsp - 8) = ret

/-- What a switch back gives the caller: its next instruction, its registers, and a stack pointer
below the return address. -/
structure Back (reg : Reg → Word) (ret : Word) (m : Machine) : Prop where
  rip : m.rip = ret
  kept : ∀ r ∈ Coroutines.kept, m.reg r = reg r
  rsp : m.reg .rsp = reg .rsp - 8

/-- The start of `coroutine_entry_function(coroutine, args)` on a new stack. -/
structure Entry (entry coroutine args : Word) (st : Stack) (m : Machine) : Prop where
  rip : m.rip = entry
  rdi : m.reg .rdi = coroutine
  rsi : m.reg .rsi = args
  rsp : m.reg .rsp = st.stackEnd - 24

section
variable {mem mem' : Memory} {ctx ctx' ret ret' x : Word} {st st' : Stack} {reg : Reg → Word}
  {m : Machine} {code : List Instr}

/-- A context stays saved while nobody writes its area. -/
theorem SavedAt.congr (h : SavedAt mem ctx st reg ret)
    (heq : ∀ x, InArea ctx st x → mem x = mem' x) : SavedAt mem' ctx st reg ret where
  holds := h.holds.congr fun x hx => heq x (.inl hx)
  slot := h.slot
  ret := (load_congr fun x hx => heq x (.inr (h.slot x hx))).symm.trans h.ret

/-- The caller of a routine that saves is suspended; the routine writes its context and its
stack. -/
theorem savedAt_exec (ret : Word) (hcode : code = ctxSwap ∨ code = ctxEntrySwap)
    (hrdi : m.reg .rdi = ctx)
    (hslot : ∀ x, InRange (m.reg .rsp - 8) 8 x → st.Within x)
    (hown : ∀ x, InContext ctx x → ¬st.Within x) :
    SavedAt ((m.pushRet ret).exec code).mem ctx st m.reg ret ∧
      ∀ x, ¬InArea ctx st x → ((m.pushRet ret).exec code).mem x = m.mem x := by
  have hrdi' : (m.pushRet ret).reg .rdi = ctx := by
    rw [Machine.pushRet_reg_of_ne ret (by decide), hrdi]
  obtain ⟨hholds, hframe⟩ := exec_suspend (m := m.pushRet ret) hcode
  rw [hrdi'] at hholds hframe
  refine ⟨⟨hholds, hslot, ?_⟩, fun x hx => ?_⟩
  · calc load ((m.pushRet ret).exec code).mem (m.reg .rsp - 8)
        = load (m.pushRet ret).mem (m.reg .rsp - 8) :=
          load_congr fun x hx => hframe x fun hctx => hown x hctx (hslot x hx)
      _ = ret := load_store
  · rw [hframe x fun hctx => hx (.inl hctx)]
    exact store_apply_of_not fun hin => hx (.inr (hslot x hin))

/-- The registers that a switch keeps have fields; `rsp` is apart. -/
theorem fields_of_kept {r : Reg} (hr : r ∈ Coroutines.kept) :
    r ∈ CoroutineContext.fields ∧ r ≠ .rsp := by
  revert r
  decide

/-- What the loads of a routine bring back from a saved context. -/
theorem back_of_loads (h : SavedAt mem ctx st reg ret)
    (hmem : ∀ x, InArea ctx st x → m.mem x = mem x)
    (hreg : ∀ r ∈ CoroutineContext.fields, m.reg r = Function.update reg .rsp (reg .rsp - 8) r)
    (hrip : m.rip = load m.mem (reg .rsp - 8)) : Back reg ret m where
  rip := by
    rw [hrip, ← h.ret]
    exact load_congr fun x hx => hmem x (.inr (h.slot x hx))
  kept r hr := by
    rw [hreg r (fields_of_kept hr).1, Function.update_of_ne (fields_of_kept hr).2]
  rsp := by rw [hreg .rsp (by decide), Function.update_self]

/-- `ctx_swap` to a saved context. -/
theorem back_ctxSwap (ret : Word) (h : SavedAt m.mem ctx' st' reg ret') (hrdi : m.reg .rdi = ctx)
    (hrsi : m.reg .rsi = ctx') (hslot : ∀ x, InRange (m.reg .rsp - 8) 8 x → st.Within x)
    (hown : ∀ x, InContext ctx x → ¬st.Within x)
    (hapart : ∀ x, InArea ctx' st' x → ¬InArea ctx st x) :
    Back reg ret' ((m.pushRet ret).exec ctxSwap) := by
  obtain ⟨-, hframe⟩ := savedAt_exec ret (.inl rfl) hrdi hslot hown
  have hpush : SavedAt (m.pushRet ret).mem ctx' st' reg ret' := by
    refine h.congr fun x hx => (store_apply_of_not fun hin => ?_).symm
    exact hapart x hx (.inr (hslot x hin))
  have hrsi' : (m.pushRet ret).reg .rsi = ctx' := by
    rw [Machine.pushRet_reg_of_ne ret (by decide), hrsi]
  have hrdi' : (m.pushRet ret).reg .rdi = ctx := by
    rw [Machine.pushRet_reg_of_ne ret (by decide), hrdi]
  obtain ⟨hreg, hrip⟩ := exec_ctxSwap (hrsi'.symm ▸ hpush.holds)
    (hrsi' ▸ hrdi' ▸ fun x hx hin => hapart x (.inl hx) (.inl hin))
  rw [Function.update_self] at hrip
  exact back_of_loads h (fun x hx => hframe x (hapart x hx)) hreg hrip

/-- `ctx_exit_swap` to a saved context; it writes the return address only. -/
theorem back_ctxExitSwap (st : Stack) (ret : Word) (h : SavedAt m.mem ctx' st' reg ret')
    (hrdi : m.reg .rdi = ctx')
    (hslot : ∀ x, InRange (m.reg .rsp - 8) 8 x → st.Within x)
    (hapart : ∀ x, InArea ctx' st' x → ¬st.Within x) :
    Back reg ret' ((m.pushRet ret).exec ctxExitSwap) ∧
      ∀ x, ¬st.Within x → ((m.pushRet ret).exec ctxExitSwap).mem x = m.mem x := by
  have hframe : ∀ x, ¬st.Within x → (m.pushRet ret).mem x = m.mem x :=
    fun x hx => store_apply_of_not fun hin => hx (hslot x hin)
  have hpush := h.congr fun x hx => (hframe x (hapart x hx)).symm
  have hrdi' : (m.pushRet ret).reg .rdi = ctx' := by
    rw [Machine.pushRet_reg_of_ne ret (by decide), hrdi]
  obtain ⟨hreg, hrip, hmem⟩ := exec_ctxExitSwap (hrdi'.symm ▸ hpush.holds)
  rw [Function.update_self, ← hmem] at hrip
  exact ⟨back_of_loads hpush (fun x _ => by rw [hmem]) hreg hrip,
    fun x hx => by rw [hmem, hframe x hx]⟩

/-- The top of a stack, where `init` puts the entry function and its parameters. -/
theorem within_top (hsize : 24 ≤ st.size) (hx : InRange (st.stackEnd - 24) 24 x) : st.Within x := by
  unfold Stack.Within Stack.stackEnd InRange at *
  bv_omega

/-- `ctx_entry_swap` to a context that was prepared. -/
theorem entry_ctxEntrySwap {entry args : Word} (ret : Word)
    (h : Prepared m.mem ctx' st'.stackEnd entry args)
    (hsize : 24 ≤ st'.size) (hrdi : m.reg .rdi = ctx) (hrsi : m.reg .rsi = ctx')
    (hslot : ∀ x, InRange (m.reg .rsp - 8) 8 x → st.Within x)
    (hown : ∀ x, InContext ctx x → ¬st.Within x)
    (hapart : ∀ x, InArea ctx' st' x → ¬InArea ctx st x) :
    Entry entry ctx' args st' ((m.pushRet ret).exec ctxEntrySwap) := by
  obtain ⟨-, hframe⟩ := savedAt_exec ret (.inr rfl) hrdi hslot hown
  have harea : ∀ x, InContext ctx' x ∨ InRange (st'.stackEnd - 24) 24 x → InArea ctx' st' x :=
    fun x hx => hx.imp_right (within_top hsize)
  have hpush : Prepared (m.pushRet ret).mem ctx' st'.stackEnd entry args :=
    h.congr fun x hx => (store_apply_of_not fun hin =>
      hapart x (harea x hx) (.inr (hslot x hin))).symm
  have hdone : Prepared ((m.pushRet ret).exec ctxEntrySwap).mem ctx' st'.stackEnd entry args :=
    h.congr fun x hx => (hframe x (hapart x (harea x hx))).symm
  have hrsi' : (m.pushRet ret).reg .rsi = ctx' := by
    rw [Machine.pushRet_reg_of_ne ret (by decide), hrsi]
  have hrdi' : (m.pushRet ret).reg .rdi = ctx := by
    rw [Machine.pushRet_reg_of_ne ret (by decide), hrdi]
  have hctx : ∀ x, InContext ((m.pushRet ret).reg .rsi) x →
      ¬InContext ((m.pushRet ret).reg .rdi) x :=
    hrsi' ▸ hrdi' ▸ fun x hx hin => hapart x (.inl hx) (.inl hin)
  have hsp : load (m.pushRet ret).mem ((m.pushRet ret).reg .rsi + 40) = st'.stackEnd - 24 :=
    hrsi'.symm ▸ hpush.rsp
  obtain ⟨hrip, hrdi, hrsi⟩ := exec_ctxEntrySwap hctx hsp
  exact ⟨hrip.trans hdone.entry, hrdi.trans hdone.coroutine, hrsi.trans hdone.args,
    (exec_ctxEntrySwap_rsp hctx).trans hsp⟩

end

/-! ## The system -/

/-- The program and its threads: each worker has a main coroutine, on the stack of its thread. -/
structure Process (C W : Type) where
  page : PageSize
  /-- The address of `coroutine_entry_function`. -/
  entry : Word
  /-- The address of a `Coroutine`. -/
  object : C → Word
  mainCoroutine : W → Word
  threadStack : W → Stack
  disjoint : ∀ v w x, InArea (mainCoroutine v) (threadStack v) x →
    InArea (mainCoroutine w) (threadStack w) x → v = w
  main_own : ∀ w x, InContext (mainCoroutine w) x → ¬(threadStack w).Within x

/-- The registers of a worker. -/
structure Cpu where
  reg : Reg → Word
  rip : Word

/-- The scheduler, the registers of the workers, the memory and the fields of the coroutines that
`init` reads. -/
structure Machines (C W : Type) where
  scheduler : Scheduler C W
  cpu : W → Cpu
  mem : Memory
  stack : C → Stack
  args : C → Word

/-- What happens to a context. -/
inductive ContextEvent (C W : Type)
  | created (c : C) (st : Stack) (args : Word)
  /-- A call of a routine that saves, with these registers and this return address. -/
  | out (o : Owner C W) (reg : Reg → Word) (ret : Word)
  | exited (o : Owner C W)
  | entered (o : Owner C W) (m : Machine)
  | resumed (o : Owner C W) (m : Machine)

namespace ContextEvent

variable {C W : Type}

/-- The context that an event is about. -/
def owner : ContextEvent C W → Owner C W
  | .created c .. => .coroutine c
  | .out o .. | .exited o | .entered o .. | .resumed o .. => o

/-- The event is about the context of `o`. -/
def About (o : Owner C W) (e : ContextEvent C W) : Prop := e.owner = o

end ContextEvent

namespace Machines

variable {C W : Type} (P : Process C W) (s : Machines C W)

/-- The address of the context. -/
def ctx : Owner C W → Word
  | .coroutine c => P.object c
  | .main w => P.mainCoroutine w

/-- The stack that the context is for. -/
def stackOf : Owner C W → Stack
  | .coroutine c => s.stack c
  | .main w => P.threadStack w

/-- The addresses of the context of `o` and of its stack. -/
def Owned (o : Owner C W) (x : Word) : Prop := InArea (ctx P o) (s.stackOf P o) x

/-- The addresses that worker `w` does not write between two switches: the contexts, and the stacks
that it does not run on. -/
def Others (w : W) (x : Word) : Prop :=
  ∃ o, s.scheduler.Live o ∧
    (InContext (ctx P o) x ∨ o ≠ s.scheduler.current w ∧ (s.stackOf P o).Within x)

/-- `new` and `mmap` return memory that is not in use. -/
structure Fresh (c : C) (st : Stack) : Prop where
  size : st.size = Stack.stackSize P.page
  own : ∀ x, InContext (P.object c) x → ¬st.Within x
  apart : ∀ o x, s.scheduler.Live o → InArea (P.object c) st x → ¬s.Owned P o x

/-- The worker is in the code of a switch, and the call has room on its stack. -/
def Calls (w : W) : Prop :=
  ∀ x, InRange ((s.cpu w).reg .rsp - 8) 8 x → (s.stackOf P (s.scheduler.current w)).Within x

section
variable [DecidableEq C] [DecidableEq W]

/-- The worker goes on with the machine `m`. -/
def setMachine (w : W) (m : Machine) : Machines C W :=
  { s with cpu := Function.update s.cpu w ⟨m.reg, m.rip⟩, mem := m.mem }

/-- `CoroutineContext::init` for a coroutine. -/
def initContext : Owner C W → Memory
  | .coroutine c => contextInit s.mem (P.object c) (s.stack c).stackEnd P.entry (s.args c)
  | .main _ => s.mem

/-- The arguments of a routine that saves. -/
def swapArgs (w : W) (target : Owner C W) : Reg → Word :=
  Function.update (Function.update (s.cpu w).reg .rdi (ctx P (s.scheduler.current w))) .rsi
    (ctx P target)

/-- Worker `w` before the call of a routine that saves, with the memory `mem`. -/
def atSwap (w : W) (target : Owner C W) (mem : Memory) : Machine where
  reg := s.swapArgs P w target
  mem := mem
  rip := (s.cpu w).rip

/-- The two branches of `coroutine_swap`. -/
def coroutineSwap (w : W) (target : Owner C W) (ret : Word) : Machine :=
  if s.scheduler.started target then
    ((s.atSwap P w target s.mem).pushRet ret).exec ctxSwap
  else
    ((s.atSwap P w target (s.initContext P target)).pushRet ret).exec ctxEntrySwap

/-- Worker `w` before the call of `ctx_exit_swap`. -/
def atExit (w : W) : Machine where
  reg := Function.update (s.cpu w).reg .rdi (P.mainCoroutine w)
  mem := s.mem
  rip := (s.cpu w).rip

/-- `coroutine_exit_swap` to the main coroutine. -/
def coroutineExitSwap (w : W) (ret : Word) : Machine :=
  ((s.atExit P w).pushRet ret).exec ctxExitSwap

/-- How `target` goes on. -/
def arrival (target : Owner C W) (m : Machine) : ContextEvent C W :=
  if s.scheduler.started target then .resumed target m else .entered target m

/-- A step, with what it does to the contexts. -/
inductive Step : List (ContextEvent C W) → Machines C W → Prop
  /-- A worker between two switches: any registers, and any memory that is not for others. -/
  | work (w : W) (cpu : Cpu) {mem : Memory} (hmem : ∀ x, s.Others P w x → mem x = s.mem x) :
    Step [] { s with cpu := Function.update s.cpu w cpu, mem := mem }
  /-- Another thread. -/
  | outside {mem : Memory} (hmem : ∀ o x, s.scheduler.Live o → s.Owned P o x → mem x = s.mem x) :
    Step [] { s with mem := mem }
  | keep {a : Action C W} {sch} (hs : s.scheduler.step a = some sch)
    (hrange : s.scheduler.InRange a) (he : s.scheduler.effect a = .none) :
    Step [] { s with scheduler := sch }
  | create {a : Action C W} {c : C} {sch} {mem : Memory} (st : Stack) (args : Word)
    (hs : s.scheduler.step a = some sch) (he : s.scheduler.effect a = .create c)
    (hfresh : s.Fresh P c st)
    (hmem : ∀ o x, s.scheduler.Live o → s.Owned P o x → mem x = s.mem x) :
    Step [.created c st args] { s with
      scheduler := sch, mem := mem, stack := Function.update s.stack c st
      args := Function.update s.args c args }
  | swap {a : Action C W} {w : W} {target : Owner C W} {sch} (ret : Word)
    (hs : s.scheduler.step a = some sch) (he : s.scheduler.effect a = .swap w target)
    (hcalls : s.Calls P w) :
    Step [.out (s.scheduler.current w) (s.swapArgs P w target) ret,
      s.arrival target (s.coroutineSwap P w target ret)]
      { s.setMachine w (s.coroutineSwap P w target ret) with scheduler := sch }
  | exit {a : Action C W} {w : W} {sch} (ret : Word) (hs : s.scheduler.step a = some sch)
    (he : s.scheduler.effect a = .exit w) (hcalls : s.Calls P w) :
    Step [.exited (s.scheduler.current w), .resumed (.main w) (s.coroutineExitSwap P w ret)]
      { s.setMachine w (s.coroutineExitSwap P w ret) with scheduler := sch }

/-- The runs from `Scheduler::init`. -/
inductive Run : List (ContextEvent C W) → Machines C W → Prop
  | init (nodes : C → TimeWheelLinkedListNode C) (cpu : W → Cpu) (mem : Memory) (stack : C → Stack)
    (args : C → Word) : Run [] ⟨Scheduler.init nodes, cpu, mem, stack, args⟩
  | step {log s es s'} (hr : Run log s) (hs : Step P s es s') : Run (log ++ es) s'

end

/-- A worker runs with the context: the last that the log has of it is that a worker went on with
it, or nothing if the worker has been with its main coroutine from the start. -/
def Running (log : List (ContextEvent C W)) (o : Owner C W) : Prop :=
  (∃ m, Latest (ContextEvent.About o) log (.entered o m) ∨
    Latest (ContextEvent.About o) log (.resumed o m)) ∨
  ∃ w, o = .main w ∧ ∀ e ∈ log, ¬ContextEvent.About o e

/-- There is no coroutine `c`: not yet, or not since it returned. -/
def Gone (log : List (ContextEvent C W)) (c : C) : Prop :=
  (∀ e ∈ log, ¬ContextEvent.About (.coroutine c) e) ∨
    Latest (ContextEvent.About (.coroutine c)) log (.exited (.coroutine c))

/-- The event is as the log before it has it. A context that is resumed is as its last switch out
left it, which is the last that the log has of it. A coroutine that is entered was created and
nothing since, and starts with its parameters on its own stack. One that is created is not there.
Only a context that a worker runs with is switched out of, or returns, if it is a coroutine's. -/
def AsLeft (log : List (ContextEvent C W)) : ContextEvent C W → Prop
  | .resumed o m => ∃ reg ret, Latest (ContextEvent.About o) log (.out o reg ret) ∧ Back reg ret m
  | .entered o m => ∃ c st args, o = .coroutine c ∧
      Latest (ContextEvent.About o) log (.created c st args) ∧
      Entry P.entry (P.object c) args st m
  | .created c .. => Gone log c
  | .out o .. => Running log o
  | .exited o => (∃ c, o = .coroutine c) ∧ Running log o

/-! ## The invariant -/

/-- The areas of the live contexts are disjoint, the saved contexts are as their owners left them
last, and the coroutines that did not run are as they were created. The log has for each context
whether a worker runs with it, and for each coroutine whether it has returned. -/
structure Inv (P : Process C W) (log : List (ContextEvent C W)) (s : Machines C W) : Prop where
  scheduler : ∃ f cur, s.scheduler.Inv f cur
  size : ∀ {c}, s.scheduler.Live (.coroutine c) → 24 ≤ (s.stack c).size
  apart : ∀ {o o' x}, s.scheduler.Live o → s.scheduler.Live o' → s.Owned P o x → s.Owned P o' x →
    o = o'
  own : ∀ {o x}, s.scheduler.Live o → InContext (ctx P o) x → ¬(s.stackOf P o).Within x
  fresh : ∀ {c}, s.scheduler.Live (.coroutine c) → s.scheduler.started (.coroutine c) = false →
    Latest (ContextEvent.About (.coroutine c)) log (.created c (s.stack c) (s.args c))
  saved : ∀ {o}, s.scheduler.Saved o → ∃ reg ret,
    Latest (ContextEvent.About o) log (.out o reg ret) ∧
      SavedAt s.mem (ctx P o) (s.stackOf P o) reg ret
  running : ∀ w, Running log (s.scheduler.current w)
  returned : ∀ {w c}, (s.scheduler.workers w).pendingDestroy = some c →
    Latest (ContextEvent.About (.coroutine c)) log (.exited (.coroutine c))
  gone : ∀ {c}, ¬s.scheduler.Live (.coroutine c) → Gone log c
  asLeft : ∀ l₀ e l₁, log = l₀ ++ e :: l₁ → AsLeft P l₀ e

section
variable {P} {s} {s' : Machines C W} {log es : List (ContextEvent C W)} {w : W} {c : C}
  {o target : Owner C W} {ret : Word} {a : Action C W}

/-- A saved context is there. -/
theorem live_of_saved {t : Scheduler C W} (h : t.Saved o) : t.Live o := by
  cases o with
  | coroutine c => exact h.1
  | main w => trivial

/-- A context runs on while nothing happens to it. -/
theorem Running.concat {e : ContextEvent C W} (h : Running log o) (he : ¬ContextEvent.About o e) :
    Running (log ++ [e]) o := by
  refine h.imp ?_ ?_
  · rintro ⟨m, h⟩
    exact ⟨m, h.imp (·.concat he) (·.concat he)⟩
  · rintro ⟨w, rfl, h⟩
    refine ⟨w, rfl, fun e' he' => ?_⟩
    rcases List.mem_append.1 he' with he' | he'
    · exact h e' he'
    · exact List.mem_singleton.1 he' ▸ he

/-- A coroutine that is gone stays gone while nothing happens to it. -/
theorem Gone.concat {e : ContextEvent C W} (h : Gone log c)
    (he : ¬ContextEvent.About (.coroutine c) e) : Gone (log ++ [e]) c := by
  refine h.imp (fun h e' he' => ?_) (·.concat he)
  rcases List.mem_append.1 he' with he' | he'
  · exact h e' he'
  · exact List.mem_singleton.1 he' ▸ he

/-- Nothing is created or resumed. -/
theorem Inv.keep (h : Inv P log s) (hinv : ∃ f cur, s'.scheduler.Inv f cur)
    (hkeep : s.scheduler.KeepsContexts s'.scheduler)
    (hreturned : ∀ v c, (s'.scheduler.workers v).pendingDestroy = some c →
      (s.scheduler.workers v).pendingDestroy = some c)
    (hlive : ∀ c, s.scheduler.Live (.coroutine c) → s'.scheduler.Live (.coroutine c) ∨
      ∃ v, (s.scheduler.workers v).pendingDestroy = some c)
    (hstack : s'.stack = s.stack) (hargs : s'.args = s.args)
    (hmem : ∀ o x, s.scheduler.Saved o → s.Owned P o x → s.mem x = s'.mem x) : Inv P log s' := by
  have hof : ∀ o, s'.stackOf P o = s.stackOf P o := by
    intro o
    cases o with
    | coroutine c => exact congrFun hstack c
    | main w => rfl
  have howned : ∀ o x, s'.Owned P o x ↔ s.Owned P o x := by
    intro o x
    rw [Owned, Owned, hof]
  refine ⟨hinv, fun {c} hc => ?_, fun {o o' x} ho ho' hx hx' => ?_, fun {o x} ho => ?_,
    fun {c} hc hnot => ?_, fun {o} hsaved => ?_, fun v => ?_,
    fun hc => h.returned (hreturned _ _ hc), fun {c} hc => ?_, h.asLeft⟩
  · rw [hstack]
    exact h.size (hkeep.live hc)
  · rw [howned] at hx hx'
    exact h.apart (hkeep.live ho) (hkeep.live ho') hx hx'
  · rw [hof]
    exact h.own (hkeep.live ho)
  · rw [hstack, hargs]
    rw [hkeep.started hc] at hnot
    exact h.fresh (hkeep.live hc) hnot
  · have hold := hkeep.saved hsaved
    obtain ⟨reg, ret, hlatest, hat⟩ := h.saved hold
    rw [hof]
    exact ⟨reg, ret, hlatest, hat.congr fun x hx => hmem o x hold hx⟩
  · rw [hkeep.current]
    exact h.running v
  · by_cases hold : s.scheduler.Live (.coroutine c)
    · obtain ⟨v, hv⟩ := (hlive c hold).resolve_left hc
      exact .inr (h.returned hv)
    · exact h.gone hold

/-- Between switches a worker writes nothing that the invariant speaks of. -/
theorem Inv.work (h : Inv P log s) [DecidableEq W] {cpu : Cpu} {mem : Memory}
    (hmem : ∀ x, s.Others P w x → mem x = s.mem x) :
    Inv P log { s with cpu := Function.update s.cpu w cpu, mem := mem } := by
  obtain ⟨f, cur, hinv⟩ := h.scheduler
  refine h.keep ⟨f, cur, hinv⟩ .refl (fun _ _ => id) (fun _ => .inl) rfl rfl
    fun o x hsaved hx => (hmem x ⟨o, ?_, ?_⟩).symm
  · exact live_of_saved hsaved
  · refine hx.imp_right fun hx => ⟨?_, hx⟩
    rintro rfl
    exact hinv.not_saved_current hsaved

/-- A coroutine is created, in memory that nothing uses. -/
theorem Inv.create [DecidableEq C] {st : Stack} {args : Word} {mem : Memory} {sch : Scheduler C W}
    (h : Inv P log s)
    (hinv : ∃ f cur, sch.Inv f cur) (hcreated : s.scheduler.Created sch c)
    (hreturned : ∀ v d, (sch.workers v).pendingDestroy = some d →
      (s.scheduler.workers v).pendingDestroy = some d)
    (hfresh : s.Fresh P c st)
    (hmem : ∀ o x, s.scheduler.Live o → s.Owned P o x → mem x = s.mem x) :
    Inv P (log ++ [.created c st args]) { s with
      scheduler := sch, mem := mem, stack := Function.update s.stack c st
      args := Function.update s.args c args } := by
  generalize hs' : ({ s with
      scheduler := sch, mem := mem, stack := Function.update s.stack c st
      args := Function.update s.args c args } : Machines C W) = s'
  have hsch : s'.scheduler = sch := by
    subst hs'
    rfl
  have hself : s'.stackOf P (.coroutine c) = st ∧ s'.stack c = st ∧ s'.args c = args := by
    subst hs'
    exact ⟨Function.update_self .., Function.update_self .., Function.update_self ..⟩
  have hother : ∀ {d}, d ≠ c → s'.stack d = s.stack d ∧ s'.args d = s.args d := by
    intro d hd
    subst hs'
    exact ⟨Function.update_of_ne hd .., Function.update_of_ne hd ..⟩
  have hof : ∀ {o}, o ≠ .coroutine c → s'.stackOf P o = s.stackOf P o := by
    intro o ho
    cases o with
    | coroutine d => exact (hother fun he => ho (congrArg _ he)).1
    | main w => rfl
  have howned : ∀ {o x}, o ≠ .coroutine c → (s'.Owned P o x ↔ s.Owned P o x) := by
    intro o x ho
    rw [Owned, Owned, hof ho]
  have hnew : ∀ {x}, s'.Owned P (.coroutine c) x → InArea (P.object c) st x := by
    intro x hx
    rwa [Owned, hself.1] at hx
  have hlive : ∀ {o}, o ≠ .coroutine c → sch.Live o → s.scheduler.Live o :=
    fun ho => (hcreated.others _ ho).1.1
  have hnot : ∀ {o}, o ≠ .coroutine c →
      ¬ContextEvent.About o (.created c st args : ContextEvent C W) := fun ho he => ho he.symm
  have hmem' : s'.mem = mem := by
    subst hs'
    rfl
  obtain ⟨f, cur, hold⟩ := h.scheduler
  refine ⟨hsch ▸ hinv, fun {d} hd => ?_, fun {o o' x} ho ho' hx hx' => ?_, fun {o x} ho hx => ?_,
    fun {d} hd hstarted => ?_, fun {o} ho => ?_, fun v => ?_, fun {v d} hd => ?_, fun {d} hd => ?_,
    forall_split_concat h.asLeft (h.gone hcreated.not_live)⟩
  · rcases eq_or_ne d c with rfl | hne
    · rw [hself.2.1, hfresh.size]
      obtain ⟨-, hle, -⟩ := Stack.stackSize_spec P.page
      exact BitVec.le_def.2 (Nat.le_trans (by decide) hle)
    · rw [(hother hne).1]
      rw [hsch] at hd
      exact h.size (hlive (fun he => hne (Owner.coroutine.inj he)) hd)
  · rw [hsch] at ho ho'
    rcases eq_or_ne o (.coroutine c) with rfl | hne
    · rcases eq_or_ne o' (.coroutine c) with rfl | hne'
      · rfl
      · exact absurd ((howned hne').1 hx') (hfresh.apart o' x (hlive hne' ho') (hnew hx))
    · rcases eq_or_ne o' (.coroutine c) with rfl | hne'
      · exact absurd ((howned hne).1 hx) (hfresh.apart o x (hlive hne ho) (hnew hx'))
      · exact h.apart (hlive hne ho) (hlive hne' ho') ((howned hne).1 hx) ((howned hne').1 hx')
  · rw [hsch] at ho
    rcases eq_or_ne o (.coroutine c) with rfl | hne
    · rw [hself.1]
      exact hfresh.own x hx
    · rw [hof hne]
      exact h.own (hlive hne ho) hx
  · rw [hsch] at hd hstarted
    rcases eq_or_ne d c with rfl | hne
    · rw [hself.2.1, hself.2.2]
      exact Latest.concat_self
    · have hne' : (.coroutine d : Owner C W) ≠ .coroutine c :=
        fun he => hne (Owner.coroutine.inj he)
      rw [(hother hne).1, (hother hne).2]
      rw [(hcreated.others _ hne').2.1] at hstarted
      exact (h.fresh (hlive hne' hd) hstarted).concat (hnot hne')
  · rw [hsch] at ho
    have hne : o ≠ .coroutine c := by
      rintro rfl
      exact hcreated.not_saved ho
    have hold := (hcreated.others o hne).2.2.1 ho
    obtain ⟨reg, ret, hlatest, hat⟩ := h.saved hold
    rw [hof hne, hmem']
    exact ⟨reg, ret, hlatest.concat (hnot hne),
      hat.congr fun x hx => (hmem o x (live_of_saved hold) hx).symm⟩
  · rw [hsch, hcreated.current]
    exact (h.running v).concat (hnot fun he => hcreated.not_live (he ▸ hold.live_current))
  · rw [hsch] at hd
    have hpending := hreturned v d hd
    refine (h.returned hpending).concat (hnot fun he => hcreated.not_live ?_)
    exact he ▸ hold.live_of_pendingDestroy hpending
  · rw [hsch] at hd
    have hne : (.coroutine d : Owner C W) ≠ .coroutine c := by
      intro he
      exact hd (he ▸ hcreated.live)
    exact (h.gone (mt (hcreated.others _ hne).1.2 hd)).concat (hnot hne)

/-- Worker `w` goes on with `target`. The switch writes the areas of the two contexts. -/
theorem Inv.switched [DecidableEq W] {e e' : ContextEvent C W} {m : Machine} {sch : Scheduler C W}
    (h : Inv P log s) (hinv : ∃ f cur, sch.Inv f cur) (hsw : s.scheduler.Switched sch w target)
    (hreturned : ∀ v d, (sch.workers v).pendingDestroy = some d →
      (s.scheduler.workers v).pendingDestroy = some d ∨
        .coroutine d = s.scheduler.current w ∧ e = .exited (.coroutine d))
    (hout : e.owner = s.scheduler.current w)
    (hin : ∃ m, e' = .entered target m ∨ e' = .resumed target m)
    (hmem : ∀ o x, s.scheduler.Live o → o ≠ s.scheduler.current w → o ≠ target → s.Owned P o x →
      s.mem x = m.mem x)
    (hleft : sch.Saved (s.scheduler.current w) → ∃ reg ret,
      e = .out (s.scheduler.current w) reg ret ∧ SavedAt m.mem (ctx P (s.scheduler.current w))
        (s.stackOf P (s.scheduler.current w)) reg ret)
    (he : AsLeft P log e) (he' : AsLeft P (log ++ [e]) e') :
    Inv P (log ++ [e, e']) { s.setMachine w m with scheduler := sch } := by
  obtain ⟨f, cur, hold⟩ := h.scheduler
  have hlog : log ++ [e, e'] = log ++ [e] ++ [e'] := by simp
  have hnot : ∀ {o}, o ≠ s.scheduler.current w → ¬ContextEvent.About o e :=
    fun ho habout => ho (habout.symm.trans hout)
  have hnot' : ∀ {o}, o ≠ target → ¬ContextEvent.About o e' := by
    intro o ho habout
    obtain ⟨m, rfl | rfl⟩ := hin
    · exact ho habout.symm
    · exact ho habout.symm
  have hcurrent : ∀ v, s.scheduler.current v ≠ target := by
    rintro v rfl
    exact hold.not_saved_current (hsw.saved_target hold.started_current)
  rw [hlog]
  refine ⟨hinv, fun hc => h.size ((hsw.live _).1 hc),
    fun ho ho' => h.apart ((hsw.live _).1 ho) ((hsw.live _).1 ho'),
    fun ho => h.own ((hsw.live _).1 ho), fun {c} hc hstarted => ?_, fun {o} ho => ?_,
    fun v => ?_, fun {v d} hd => ?_, fun {d} hd => ?_,
    forall_split_concat (forall_split_concat h.asLeft he) he'⟩
  · obtain ⟨hstarted, hne⟩ := hsw.started _ hstarted
    have hcur : (.coroutine c : Owner C W) ≠ s.scheduler.current w := by
      intro heq
      rw [heq, hold.started_current] at hstarted
      cases hstarted
    exact ((h.fresh ((hsw.live _).1 hc) hstarted).concat (hnot hcur)).concat (hnot' hne)
  · obtain ⟨hne, hor⟩ := hsw.saved o ho
    rcases hor with rfl | hsaved
    · obtain ⟨reg, ret, rfl, hat⟩ := hleft ho
      exact ⟨reg, ret, Latest.concat_self.concat (hnot' hne), hat⟩
    · have hcur : o ≠ s.scheduler.current w := by
        rintro rfl
        exact hold.not_saved_current hsaved
      obtain ⟨reg, ret, hlatest, hat⟩ := h.saved hsaved
      exact ⟨reg, ret, (hlatest.concat (hnot hcur)).concat (hnot' hne),
        hat.congr fun x hx => hmem o x (live_of_saved hsaved) hcur hne hx⟩
  · rcases eq_or_ne v w with rfl | hv
    · change Running _ (sch.current v)
      rw [hsw.current]
      obtain ⟨m, rfl | rfl⟩ := hin
      · exact .inl ⟨m, .inl .concat_self⟩
      · exact .inl ⟨m, .inr .concat_self⟩
    · change Running _ (sch.current v)
      rw [hsw.others v hv]
      exact ((h.running v).concat (hnot fun he => hv (hold.current_inj he))).concat
        (hnot' (hcurrent v))
  · rcases hreturned v d hd with hd | ⟨hcur, rfl⟩
    · exact ((h.returned hd).concat (hnot (hold.ne_current_of_pendingDestroy hd))).concat
        (hnot' (hold.ne_target_of_pendingDestroy hd hsw))
    · exact Latest.concat_self.concat (hnot' (hcur ▸ hcurrent w))
  · have hdead := mt (hsw.live _).2 hd
    exact ((h.gone hdead).concat (hnot fun he => hdead (he ▸ hold.live_current))).concat
      (hnot' fun he => hdead (he ▸ hsw.live_target))

/-- The first argument is the own context. -/
theorem swapArgs_rdi : s.swapArgs P w target .rdi = ctx P (s.scheduler.current w) := by
  rw [swapArgs, Function.update_of_ne (by decide), Function.update_self]

/-- The second argument is the context to go on with. -/
theorem swapArgs_rsi : s.swapArgs P w target .rsi = ctx P target := Function.update_self ..

/-- The other registers are those of the worker. -/
theorem swapArgs_of_ne {r : Reg} (hrdi : r ≠ .rdi) (hrsi : r ≠ .rsi) :
    s.swapArgs P w target r = (s.cpu w).reg r := by
  rw [swapArgs, Function.update_of_ne hrsi, Function.update_of_ne hrdi]

/-- `init` writes the area of the coroutine. -/
theorem Inv.initContext (h : Inv P log s) (hlive : s.scheduler.Live (.coroutine c)) :
    Prepared (s.initContext P (.coroutine c)) (P.object c) (s.stack c).stackEnd P.entry (s.args c) ∧
      ∀ x, ¬s.Owned P (.coroutine c) x → s.initContext P (.coroutine c) x = s.mem x := by
  have hsize := h.size hlive
  refine ⟨prepared_contextInit fun x hx htop => h.own hlive hx (within_top hsize htop),
    fun x hx => contextInit_frame (fun hctx => hx (.inl hctx)) fun htop => ?_⟩
  exact hx (.inr (within_top hsize htop))

/-- A switch keeps the invariant: the own context is saved, and the other one comes back as it was
left. -/
theorem Inv.swap [DecidableEq W] {sch : Scheduler C W} (h : Inv P log s)
    (hinv : ∃ f cur, sch.Inv f cur) (hsw : s.scheduler.Switched sch w target)
    (hreturned : ∀ v d, (sch.workers v).pendingDestroy = some d →
      (s.scheduler.workers v).pendingDestroy = some d) (hcalls : s.Calls P w) :
    Inv P (log ++ [.out (s.scheduler.current w) (s.swapArgs P w target) ret,
      s.arrival target (s.coroutineSwap P w target ret)])
      { s.setMachine w (s.coroutineSwap P w target ret) with scheduler := sch } := by
  obtain ⟨f, cur, hold⟩ := h.scheduler
  have hlive := hold.live_current (w := w)
  have hrdi : s.swapArgs P w target .rdi = ctx P (s.scheduler.current w) := swapArgs_rdi
  have hrsi : s.swapArgs P w target .rsi = ctx P target := swapArgs_rsi
  have hslot : ∀ x, InRange (s.swapArgs P w target .rsp - 8) 8 x →
      (s.stackOf P (s.scheduler.current w)).Within x := by
    rw [swapArgs_of_ne (by decide) (by decide)]
    exact hcalls
  cases hstarted : s.scheduler.started target with
  | true =>
    have hsaved := hsw.saved_target hstarted
    have hne : target ≠ s.scheduler.current w := by
      rintro rfl
      exact hold.not_saved_current hsaved
    have hapart : ∀ x, s.Owned P target x → ¬s.Owned P (s.scheduler.current w) x :=
      fun x hx hx' => hne (h.apart hsw.live_target hlive hx hx')
    obtain ⟨reg, ret', hlatest, hat⟩ := h.saved hsaved
    obtain ⟨hout, hframe⟩ := savedAt_exec (m := s.atSwap P w target s.mem) ret (.inl rfl) hrdi hslot
      fun x => h.own hlive
    have hback : Back reg ret' (s.coroutineSwap P w target ret) := by
      rw [coroutineSwap, if_pos hstarted]
      exact back_ctxSwap (m := s.atSwap P w target s.mem) ret hat hrdi hrsi hslot
        (fun x => h.own hlive) hapart
    have hnot : ¬ContextEvent.About target
        (.out (s.scheduler.current w) (s.swapArgs P w target) ret) := fun he => hne he.symm
    have harrival : s.arrival target (s.coroutineSwap P w target ret) =
        .resumed target (s.coroutineSwap P w target ret) := by
      rw [arrival, if_pos hstarted]
    rw [harrival]
    refine h.switched hinv hsw (fun v d hd => .inl (hreturned v d hd)) rfl ⟨_, .inr rfl⟩
      (fun o x ho hcur _ hx => ?_) (fun _ => ⟨_, _, rfl, ?_⟩)
      (h.running w) ⟨reg, ret', hlatest.concat hnot, hback⟩
    · rw [coroutineSwap, if_pos hstarted]
      exact (hframe x fun hx' => hcur (h.apart ho hlive hx hx')).symm
    · rw [coroutineSwap, if_pos hstarted]
      exact hout
  | false =>
    obtain ⟨c, rfl⟩ : ∃ c, target = .coroutine c := by
      cases target with
      | coroutine c => exact ⟨c, rfl⟩
      | main v => cases hstarted
    have hlt := hsw.live_target
    have hne : (.coroutine c : Owner C W) ≠ s.scheduler.current w := by
      intro he
      rw [he, hold.started_current] at hstarted
      cases hstarted
    have hapart : ∀ x, s.Owned P (.coroutine c) x → ¬s.Owned P (s.scheduler.current w) x :=
      fun x hx hx' => hne (h.apart hlt hlive hx hx')
    obtain ⟨hprepared, hinit⟩ := h.initContext hlt
    obtain ⟨hout, hframe⟩ := savedAt_exec
      (m := s.atSwap P w (.coroutine c) (s.initContext P (.coroutine c))) ret (.inr rfl) hrdi hslot
      fun x => h.own hlive
    have hentry : Entry P.entry (P.object c) (s.args c) (s.stack c)
        (s.coroutineSwap P w (.coroutine c) ret) := by
      rw [coroutineSwap, hstarted]
      exact entry_ctxEntrySwap (m := s.atSwap P w (.coroutine c) (s.initContext P (.coroutine c)))
        ret hprepared (h.size hlt) hrdi hrsi hslot (fun x => h.own hlive) hapart
    have hnot : ¬ContextEvent.About (.coroutine c)
        (.out (s.scheduler.current w) (s.swapArgs P w (.coroutine c)) ret) := fun he => hne he.symm
    have harrival : s.arrival (.coroutine c) (s.coroutineSwap P w (.coroutine c) ret) =
        .entered (.coroutine c) (s.coroutineSwap P w (.coroutine c) ret) := by
      rw [arrival, hstarted]
      rfl
    rw [harrival]
    refine h.switched hinv hsw (fun v d hd => .inl (hreturned v d hd)) rfl ⟨_, .inl rfl⟩
      (fun o x ho hcur hc hx => ?_) (fun _ => ⟨_, _, rfl, ?_⟩)
      (h.running w) ⟨c, s.stack c, s.args c, rfl, (h.fresh hlt hstarted).concat hnot, hentry⟩
    · rw [coroutineSwap, hstarted]
      rw [← hinit x fun hx' => hc (h.apart ho hlt hx hx')]
      exact (hframe x fun hx' => hcur (h.apart ho hlive hx hx')).symm
    · rw [coroutineSwap, hstarted]
      exact hout

/-- The switch out of a coroutine that has ended keeps the invariant: nothing is saved. -/
theorem Inv.exit [DecidableEq W] {sch : Scheduler C W} (h : Inv P log s)
    (hinv : ∃ f cur, sch.Inv f cur) (hcur : s.scheduler.current w = .coroutine c)
    (hsw : s.scheduler.Switched sch w (.main w)) (hgone : ¬sch.Saved (.coroutine c))
    (hreturned : ∀ v d, (sch.workers v).pendingDestroy = some d →
      (s.scheduler.workers v).pendingDestroy = some d ∨ .coroutine d = s.scheduler.current w)
    (hcalls : s.Calls P w) :
    Inv P (log ++ [.exited (s.scheduler.current w),
      .resumed (.main w) (s.coroutineExitSwap P w ret)])
      { s.setMachine w (s.coroutineExitSwap P w ret) with scheduler := sch } := by
  obtain ⟨f, cur, hold⟩ := h.scheduler
  have hlive := hold.live_current (w := w)
  have hne : (.main w : Owner C W) ≠ s.scheduler.current w := by
    rw [hcur]
    nofun
  obtain ⟨reg, ret', hlatest, hat⟩ := h.saved (hsw.saved_target rfl)
  have hrdi : (s.atExit P w).reg .rdi = ctx P (.main w) := by simp [atExit, ctx]
  have hrsp : (s.atExit P w).reg .rsp = (s.cpu w).reg .rsp := by simp [atExit]
  have hslot : ∀ x, InRange ((s.atExit P w).reg .rsp - 8) 8 x →
      (s.stackOf P (s.scheduler.current w)).Within x := by
    rw [hrsp]
    exact hcalls
  obtain ⟨hback, hframe⟩ := back_ctxExitSwap (m := s.atExit P w)
    (s.stackOf P (s.scheduler.current w)) ret hat hrdi hslot
    fun x hx hx' => hne (h.apart hsw.live_target hlive hx (.inr hx'))
  have hnot : ¬ContextEvent.About (.main w) (.exited (s.scheduler.current w) : ContextEvent C W) :=
    fun he => hne he.symm
  refine h.switched hinv hsw (fun v d hd => (hreturned v d hd).imp_right fun he => ⟨he, ?_⟩) rfl
    ⟨_, .inr rfl⟩ (fun o x ho hcur _ hx => ?_) (fun hsaved => ?_) ⟨⟨c, hcur⟩, h.running w⟩
    ⟨reg, ret', hlatest.concat hnot, hback⟩
  · rw [he]
  · exact (hframe x fun hx' => hcur (h.apart ho hlive hx (.inr hx'))).symm
  · exact absurd (hcur ▸ hsaved) hgone

/-! ## Every run -/

variable [DecidableEq C] [DecidableEq W]

omit [DecidableEq C] [DecidableEq W] in
/-- Only the timer has a range to keep to. -/
theorem inRange_of_effect {t : Scheduler C W} (he : t.effect a ≠ .none) : t.InRange a := by
  cases a with
  | timer => exact absurd rfl he
  | create c => trivial
  | post => trivial
  | loop w => trivial
  | yield w => trivial
  | sleep w d => trivial
  | spawn w c => trivial
  | exit w => trivial

/-- A step keeps the invariant. -/
theorem Inv.step (h : Inv P log s) (hs : Step P s es s') : Inv P (log ++ es) s' := by
  obtain ⟨f, cur, hold⟩ := h.scheduler
  cases hs with
  | work w cpu hmem =>
    rw [List.append_nil]
    exact h.work hmem
  | outside hmem =>
    rw [List.append_nil]
    exact h.keep ⟨f, cur, hold⟩ .refl (fun _ _ => id) (fun _ => .inl) rfl rfl fun o x hsaved hx =>
      (hmem o x (live_of_saved hsaved) hx).symm
  | @keep a _ hs hrange he =>
    have hnot : ∀ v, a ≠ .exit v := by
      rintro v rfl
      cases he
    rw [List.append_nil]
    exact h.keep (hold.step hrange hs) (Scheduler.keepsContexts_step hs he)
      (fun _ _ => Scheduler.pendingDestroy_of_step hs hnot)
      (fun c hc => (Scheduler.step_destroys hs).2 hc) rfl rfl fun _ _ _ _ => rfl
  | @create a _ _ _ st args hs he hfresh hmem =>
    have hnot : ∀ v, a ≠ .exit v := by
      rintro v rfl
      cases he
    exact h.create (hold.step (inRange_of_effect (he ▸ nofun)) hs) (Scheduler.created hs he)
      (fun _ _ => Scheduler.pendingDestroy_of_step hs hnot)
      hfresh hmem
  | @swap a _ _ _ ret hs he hcalls =>
    have hnot : ∀ v, a ≠ .exit v := by
      rintro v rfl
      cases he
    exact h.swap (hold.step (inRange_of_effect (he ▸ nofun)) hs) (hold.switched hs he)
      (fun _ _ => Scheduler.pendingDestroy_of_step hs hnot)
      hcalls
  | exit ret hs he hcalls =>
    obtain ⟨c, hcur, hsw, hgone⟩ := hold.switched_exit hs he
    refine h.exit (hold.step (inRange_of_effect (he ▸ nofun)) hs) hcur hsw hgone
      (fun v d hd => ((Scheduler.step_destroys hs).1 v hd).imp_right fun hexit => ?_) hcalls
    obtain ⟨rfl, hcurrent⟩ := hexit
    cases he
    exact hcurrent.symm

/-- The invariant holds in every run. -/
theorem Run.inv (hr : Run P log s) : Inv P log s := by
  induction hr with
  | init nodes cpu mem stack args =>
    refine ⟨⟨_, _, Scheduler.inv_init nodes⟩, nofun, fun {o o' x} ho ho' hx hx' => ?_,
      fun {o x} ho => ?_, nofun, fun {o} ho => ?_, fun w => .inr ⟨w, rfl, nofun⟩, nofun,
      fun _ => .inl nofun, fun _ _ _ hlog => absurd hlog (by simp)⟩
    · cases o with
      | coroutine c => cases ho
      | main v =>
        cases o' with
        | coroutine c => cases ho'
        | main w => exact congrArg _ (P.disjoint v w x hx hx')
    · cases o with
      | coroutine c => cases ho
      | main w => exact P.main_own w x
    · cases o with
      | coroutine c => cases ho.1
      | main w => cases ho
  | step _ hs ih => exact ih.step hs

omit [DecidableEq C] [DecidableEq W] in
/-- What happens first to a coroutine that was created is that a worker enters it. -/
theorem Inv.entered_first (h : Inv P log s) {l₀ l₁ l₂ : List (ContextEvent C W)}
    {e : ContextEvent C W} {st : Stack} {args : Word}
    (hlog : log = l₀ ++ .created c st args :: (l₁ ++ e :: l₂))
    (hnone : ∀ e' ∈ l₁, ¬ContextEvent.About (.coroutine c) e')
    (habout : ContextEvent.About (.coroutine c) e) :
    ∃ m, e = .entered (.coroutine c) m ∧ Entry P.entry (P.object c) args st m := by
  have hleft := h.asLeft (l₀ ++ .created c st args :: l₁) e l₂ (by rw [hlog]; simp)
  have hlatest : Latest (ContextEvent.About (.coroutine c)) (l₀ ++ .created c st args :: l₁)
      (.created c st args) := ⟨l₀, l₁, rfl, hnone⟩
  have hunique : ∀ {e'}, Latest (ContextEvent.About (.coroutine c))
      (l₀ ++ .created c st args :: l₁) e' → ContextEvent.About (.coroutine c) e' →
        ContextEvent.created c st args = e' := fun h' he' => hlatest.unique h' rfl he'
  have hnot : ¬Running (l₀ ++ .created c st args :: l₁) (.coroutine c) := by
    rintro (⟨m, h' | h'⟩ | ⟨w, hw, -⟩)
    · cases hunique h' rfl
    · cases hunique h' rfl
    · cases hw
  cases e with
  | created d st' args' =>
    obtain rfl := Owner.coroutine.inj habout
    rcases hleft with hleft | hleft
    · exact absurd rfl (hleft _ (List.mem_append_right _ List.mem_cons_self))
    · cases hunique hleft rfl
  | out o reg ret =>
    obtain rfl : o = .coroutine c := habout
    exact absurd hleft hnot
  | exited o =>
    obtain rfl : o = .coroutine c := habout
    exact absurd hleft.2 hnot
  | resumed o m =>
    obtain rfl : o = .coroutine c := habout
    obtain ⟨reg, ret, h', -⟩ := hleft
    cases hunique h' rfl
  | entered o m =>
    obtain rfl : o = .coroutine c := habout
    obtain ⟨d, st', args', hd, h', hentry⟩ := hleft
    obtain rfl := Owner.coroutine.inj hd
    cases hunique h' rfl
    exact ⟨m, rfl, hentry⟩

omit [DecidableEq C] [DecidableEq W] in
/-- Between two entries a coroutine was created anew. -/
theorem Inv.created_between (h : Inv P log s) {l₀ l₁ l₂ : List (ContextEvent C W)} {m m' : Machine}
    (hlog : log = l₀ ++ .entered (.coroutine c) m :: (l₁ ++ .entered (.coroutine c) m' :: l₂)) :
    ∃ st args, .created c st args ∈ l₁ := by
  obtain ⟨d, st, args, hd, hlatest, -⟩ := h.asLeft (l₀ ++ .entered (.coroutine c) m :: l₁)
    (.entered (.coroutine c) m') l₂ (by rw [hlog]; simp)
  obtain rfl := Owner.coroutine.inj hd
  exact ⟨st, args, hlatest.mem_of_append rfl nofun⟩

/-- Whatever the workers, the timer and the other threads do in between, a context that a worker
resumes is as its last switch out left it, on whichever worker that was; a coroutine is entered once
after it was created, before anything else happens to it, with its parameters on its own stack; and
no two workers run on one stack. -/
theorem run_asLeft (hr : Run P log s) :
    (∀ l₀ e l₁, log = l₀ ++ e :: l₁ → AsLeft P l₀ e) ∧
    (∀ l₀ c st args l₁ e l₂, log = l₀ ++ .created c st args :: (l₁ ++ e :: l₂) →
      (∀ e' ∈ l₁, ¬ContextEvent.About (.coroutine c) e') → ContextEvent.About (.coroutine c) e →
      ∃ m, e = .entered (.coroutine c) m ∧ Entry P.entry (P.object c) args st m) ∧
    (∀ l₀ c m l₁ m' l₂,
      log = l₀ ++ .entered (.coroutine c) m :: (l₁ ++ .entered (.coroutine c) m' :: l₂) →
      ∃ st args, .created c st args ∈ l₁) ∧
    (∀ v w, s.scheduler.current v = s.scheduler.current w → v = w) ∧
    ∀ o o' x, s.scheduler.Live o → s.scheduler.Live o' → s.Owned P o x → s.Owned P o' x →
      o = o' := by
  obtain ⟨f, cur, hold⟩ := hr.inv.scheduler
  exact ⟨hr.inv.asLeft, fun l₀ c st args l₁ e l₂ => hr.inv.entered_first,
    fun l₀ c m l₁ m' l₂ => hr.inv.created_between, fun v w => hold.current_inj,
    fun o o' x => hr.inv.apart⟩

end

/-! ### A coroutine that changes its worker -/

/-- Pages of 4 KiB. -/
def smallPage : PageSize := ⟨12, by decide⟩

/-- The main coroutines of two workers. -/
def smallMain (w : Bool) : Word := bif w then 0x2000 else 0x3000

/-- The stacks of the threads of two workers. -/
def smallThread (w : Bool) : Stack := ⟨bif w then 0x10000 else 0x20000, 0x1000⟩

/-- The main coroutines and stacks of the two workers are apart. -/
theorem disjoint_small (v w : Bool) (x : Word) (hv : InArea (smallMain v) (smallThread v) x)
    (hw : InArea (smallMain w) (smallThread w) x) : v = w := by
  change x - _ < (56 : Word) ∨ x - _ < (0x1000 : Word) at hv hw
  unfold smallMain smallThread at hv hw
  cases v <;> cases w <;> first
    | rfl
    | (simp only [cond_true, cond_false] at hv hw; bv_omega)

/-- A main coroutine is not on its own stack. -/
theorem main_own_small (w : Bool) (x : Word) (hctx : InContext (smallMain w) x) :
    ¬(smallThread w).Within x := by
  intro hin
  change x - _ < (56 : Word) at hctx
  change x - _ < (0x1000 : Word) at hin
  unfold smallMain at hctx
  unfold smallThread at hin
  cases w <;> (simp only [cond_true, cond_false] at hctx hin; bv_omega)

/-- One coroutine, two workers and pages of 4 KiB. -/
def small : Process Unit Bool where
  page := smallPage
  entry := 0x400000
  object _ := 0x1000
  mainCoroutine := smallMain
  threadStack := smallThread
  disjoint := disjoint_small
  main_own := main_own_small

/-- The stack of the coroutine. -/
def smallStack : Stack := ⟨0x100000, Stack.stackSize small.page⟩

/-- The registers of a worker that calls with the stack pointer `sp`. -/
def cpuAt (sp : Word) : Cpu where
  reg
    | .rsp => sp
    | .r12 => sp + 12
    | _ => 0
  rip := 0

/-- The memory for the coroutine is not in use. -/
theorem fresh_small {s : Machines Unit Bool} (hlive : ∀ c, ¬s.scheduler.Live (.coroutine c)) :
    s.Fresh small () smallStack := by
  have hsize : smallStack.size = 0x100000 := by decide
  have hmem : smallStack.stackMem = 0x100000 := rfl
  refine ⟨rfl, fun x hctx hin => ?_, fun o x ho hx hown => ?_⟩
  · change x - (0x1000 : Word) < (56 : Word) at hctx
    unfold Stack.Within InRange at hin
    rw [hsize, hmem] at hin
    bv_omega
  · cases o with
    | coroutine c => exact hlive c ho
    | main w =>
      change x - (0x1000 : Word) < (56 : Word) ∨ InRange _ _ x at hx
      rw [hsize, hmem] at hx
      unfold InRange at hx
      cases w with
      | false =>
        change x - (0x3000 : Word) < (56 : Word) ∨ x - (0x20000 : Word) < (0x1000 : Word) at hown
        bv_omega
      | true =>
        change x - (0x2000 : Word) < (56 : Word) ∨ x - (0x10000 : Word) < (0x1000 : Word) at hown
        bv_omega

/-- A call with the stack pointer in the middle of a stack. -/
theorem within_call (st : Stack) {sp x : Word} (hsize : 0x1000 ≤ st.size)
    (hsp : sp = st.stackMem + 0x800) (hx : InRange (sp - 8) 8 x) : st.Within x := by
  unfold Stack.Within InRange at *
  bv_omega

/-- The coroutine starts on worker `true` and sleeps; the timer wakes it, and worker `false` is
about to go on with it. -/
theorem run_migrates : ∃ log s sch, Run small log s ∧ s.scheduler.step (.loop false) = some sch ∧
    s.scheduler.nextJob false = some () ∧ s.scheduler.started (.coroutine ()) = true ∧
      s.scheduler.current false = .main false ∧ (s.cpu false).reg .rsp = 0x20800 := by
  have hsize : (0x1000 : Word) ≤ smallStack.size := by decide
  have h0 : Run small [] _ := .init (fun _ => ⟨none, 0⟩)
    (fun w => cpuAt (if w then 0x10800 else 0x20800)) (fun _ => 0) (fun _ => smallStack) fun _ => 7
  have h1 : Run small _ _ := h0.step (.create (a := .create ()) (c := ()) smallStack 7 rfl rfl
    (fresh_small fun c hc => by cases hc) fun _ _ _ _ => rfl)
  have h2 : Run small _ _ := h1.step (.keep (a := .post) rfl trivial rfl)
  have h3 : Run small _ _ := h2.step (.keep (a := .loop true) rfl trivial rfl)
  have h4 : Run small _ _ := h3.step (.swap (a := .loop true) 0x500000 rfl rfl fun x hx =>
      within_call ⟨0x10000, 0x1000⟩ (by decide) rfl hx)
  have h5 : Run small _ _ := h4.step (.work true (cpuAt 0x100800) fun _ _ => rfl)
  have h6 : Run small _ _ := h5.step (.swap (a := .sleep true 0) 0x600000 rfl rfl fun x hx =>
    within_call smallStack hsize rfl hx)
  have h7 : Run small _ _ := h6.step (.keep (a := .loop true) rfl trivial rfl)
  have h8 : Run small _ _ := h7.step (.keep (a := .loop true) rfl trivial rfl)
  have h9 : Run small _ _ := h8.step (.keep (a := .loop true) rfl trivial rfl)
  have h10 : Run small _ _ := h9.step (.keep (a := .timer) rfl (fun _ c hc => by
    cases hc
    exact .inl (Int.le_refl 0)) rfl)
  have h11 : Run small _ _ := h10.step (.keep (a := .timer) rfl (fun _ c hc => by cases hc) rfl)
  have h12 : Run small _ _ := h11.step (.keep (a := .timer) rfl (fun h => by cases h) rfl)
  have h13 : Run small _ _ := h12.step (.keep (a := .timer) rfl (fun h => by cases h) rfl)
  have h14 : Run small _ _ := h13.step (.keep (a := .loop false) rfl trivial rfl)
  exact ⟨_, _, _, h14, rfl, rfl, rfl, rfl, rfl⟩

/-- In the run of the coroutine on both workers it comes back with the registers of its last
switch out. -/
theorem run_asLeft_migrates : ∃ (log : List (ContextEvent Unit Bool)) (m : Machine)
    (reg : Reg → Word) (ret : Word),
    Latest (ContextEvent.About (.coroutine ())) log (.out (.coroutine ()) reg ret) ∧
      Back reg ret m := by
  obtain ⟨log, s, sch, hr, hs, hjob, hstarted, hcur, hrsp⟩ := run_migrates
  have heffect : s.scheduler.effect (.loop false) = .swap false (.coroutine ()) := by
    rw [Scheduler.effect, hjob]
  have hnext := hr.step (.swap 0x500000 hs heffect fun x hx => by
    rw [hcur]
    exact within_call ⟨0x20000, 0x1000⟩ (by decide) hrsp hx)
  obtain ⟨hleft, -⟩ := run_asLeft hnext
  rw [arrival, if_pos hstarted, hcur] at hleft
  have hsplit : ∀ {a b : ContextEvent Unit Bool}, log ++ [a, b] = log ++ [a] ++ b :: [] := by
    intro a b
    rw [List.append_assoc, List.singleton_append]
  obtain ⟨reg, ret, hlatest, hback⟩ := hleft _ _ [] hsplit
  exact ⟨_, _, _, _, hlatest, hback⟩

end Machines

end RockCoro
