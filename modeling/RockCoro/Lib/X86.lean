import Mathlib.Data.List.Basic
import Mathlib.Algebra.Ring.Nat
import Mathlib.Tactic.Common

/-!
# A fragment of x86-64

The moves between registers and memory, the indirect jump and the call of straight-line code. Memory
is one byte per address, words are little endian, and addresses wrap. Code is a list of
instructions; `rip` is written by a jump only.
-/

namespace RockCoro.X86

/-- A machine word, and an address. -/
abbrev Word : Type := BitVec 64

/-- One byte at each address. -/
abbrev Memory : Type := Word → BitVec 8

/-- The addresses of the `n` bytes from `a` on. -/
def InRange (a n x : Word) : Prop := x - a < n

instance (a n x : Word) : Decidable (InRange a n x) := inferInstanceAs (Decidable (_ < _))

/-- The word at `a`. -/
def load (mem : Memory) (a : Word) : Word :=
  BitVec.ofNat 64 ((List.range 8).foldr
    (fun i n => (mem (a + BitVec.ofNat 64 i)).toNat + 256 * n) 0)

/-- The memory after the word `v` was written at `a`. -/
def store (mem : Memory) (a v : Word) : Memory := fun x =>
  if InRange a 8 x then BitVec.ofNat 8 (v.toNat / 256 ^ (x - a).toNat) else mem x

section
variable {mem mem' : Memory} {a b v : Word}

/-- A load depends on the eight bytes of its word only. -/
theorem load_congr (h : ∀ x, InRange a 8 x → mem x = mem' x) : load mem a = load mem' a := by
  refine congrArg (BitVec.ofNat 64) (List.foldr_ext _ _ _ fun i hi n => ?_)
  have hlt : i < 8 := List.mem_range.1 hi
  rw [h]
  rw [InRange, BitVec.add_comm, BitVec.add_sub_cancel]
  exact BitVec.lt_def.2 (by simp; omega)

/-- A load reads the word that was stored. -/
theorem load_store : load (store mem a v) a = v := by
  have hbyte : ∀ i < 8, (store mem a v (a + BitVec.ofNat 64 i)).toNat =
    v.toNat / 256 ^ i % 256 := by
    intro i hi
    have hsub : a + BitVec.ofNat 64 i - a = BitVec.ofNat 64 i := by
      rw [BitVec.add_comm, BitVec.add_sub_cancel]
    have hnat : (BitVec.ofNat 64 i).toNat = i := by
      rw [BitVec.toNat_ofNat, Nat.mod_eq_of_lt (by omega)]
    have hrange : InRange a 8 (a + BitVec.ofNat 64 i) := by
      rw [InRange, hsub, BitVec.lt_def, hnat]
      exact hi
    rw [store, if_pos hrange, hsub, hnat, BitVec.toNat_ofNat]
  have hlt := v.isLt
  refine BitVec.eq_of_toNat_eq ?_
  rw [load, BitVec.toNat_ofNat]
  simp only [List.range, List.range.loop, List.foldr_cons, List.foldr_nil, hbyte, Nat.reduceLT]
  omega

/-- A store leaves the bytes outside of its word alone. -/
theorem store_apply_of_not {x : Word} (hx : ¬InRange a 8 x) : store mem a v x = mem x := by
  rw [store, if_neg hx]

/-- A store to other bytes does not change what a load reads. -/
theorem load_store_of_disjoint (h : ∀ x, InRange b 8 x → ¬InRange a 8 x) :
    load (store mem a v) b = load mem b :=
  load_congr fun x hx => store_apply_of_not (h x hx)

/-- Two words of one block that do not overlap. -/
def Apart (o p : Word) : Prop := 8 ≤ o - p ∧ 8 ≤ p - o

instance (o p : Word) : Decidable (Apart o p) := inferInstanceAs (Decidable (_ ∧ _))

/-- Words at offsets that are apart have no byte in common, wherever they are. -/
theorem Apart.disjoint {o p : Word} (h : Apart o p) (a x : Word) (hx : InRange (a + o) 8 x) :
    ¬InRange (a + p) 8 x := by
  obtain ⟨h1, h2⟩ := h
  unfold InRange at *
  bv_omega

end

/-! ## Registers and instructions -/

/-- The registers that the code uses. -/
inductive Reg
  | rax | rbx | rcx | rdx | rsi | rdi | rbp | rsp
  | r8 | r9 | r10 | r11 | r12 | r13 | r14 | r15
  deriving DecidableEq

/-- The instructions of the fragment. -/
inductive Instr
  /-- `movq %src, off(%base)` -/
  | store (src : Reg) (off : Word) (base : Reg)
  /-- `movq off(%base), %dst` -/
  | load (off : Word) (base dst : Reg)
  /-- `jmp *%r` -/
  | jmp (r : Reg)
  deriving DecidableEq

/-- The registers, the memory, and where the code goes on. -/
structure Machine where
  reg : Reg → Word
  mem : Memory
  rip : Word

namespace Machine

/-- A register is written. -/
def set (m : Machine) (r : Reg) (v : Word) : Machine := { m with reg := Function.update m.reg r v }

/-- One instruction. -/
def step (m : Machine) : Instr → Machine
  | .store src off base => { m with mem := X86.store m.mem (m.reg base + off) (m.reg src) }
  | .load off base dst => m.set dst (X86.load m.mem (m.reg base + off))
  | .jmp r => { m with rip := m.reg r }

/-- Straight-line code. -/
def exec (m : Machine) (code : List Instr) : Machine := code.foldl step m

/-- The `call` instruction up to its jump: it pushes the address of the next instruction. -/
def pushRet (m : Machine) (ret : Word) : Machine :=
  { m.set .rsp (m.reg .rsp - 8) with mem := X86.store m.mem (m.reg .rsp - 8) ret }

variable {m : Machine} {code code' : List Instr}

/-- A register reads what was written to it. -/
theorem set_reg_self {r : Reg} {v : Word} : (m.set r v).reg r = v := Function.update_self ..

/-- The other registers keep their values. -/
theorem set_reg_of_ne {r r' : Reg} {v : Word} (hr : r ≠ r') : (m.set r' v).reg r = m.reg r :=
  Function.update_of_ne hr ..

/-- A call changes no register but `rsp`. -/
theorem pushRet_reg_of_ne (ret : Word) {r : Reg} (hr : r ≠ .rsp) :
    (m.pushRet ret).reg r = m.reg r := by
  change (m.set .rsp (m.reg .rsp - 8)).reg r = m.reg r
  exact set_reg_of_ne hr

/-- A call moves `rsp` down by a word. -/
theorem pushRet_rsp {ret : Word} : (m.pushRet ret).reg .rsp = m.reg .rsp - 8 := by
  change (m.set .rsp (m.reg .rsp - 8)).reg .rsp = _
  exact set_reg_self

@[simp] theorem exec_nil : m.exec [] = m := rfl

@[simp] theorem exec_cons {i : Instr} : m.exec (i :: code) = (m.step i).exec code := rfl

/-- Code after code. -/
theorem exec_append : m.exec (code ++ code') = (m.exec code).exec code' := List.foldl_append

/-! ### Blocks of moves -/

/-- Stores of registers to the block at `base`. -/
def stores (base : Reg) (l : List (Reg × Word)) : List Instr := l.map fun p => .store p.1 p.2 base

/-- Loads of registers from the block at `base`. -/
def loads (base : Reg) (l : List (Reg × Word)) : List Instr := l.map fun p => .load p.2 base p.1

variable {base : Reg} {l : List (Reg × Word)}

/-- Stores change no register. -/
theorem exec_stores_reg : (m.exec (stores base l)).reg = m.reg := by
  induction l generalizing m with
  | nil => rfl
  | cons p l ih => exact ih

/-- The first store, and then the others. -/
theorem exec_stores_cons {p : Reg × Word} :
    m.exec (stores base (p :: l)) = (m.step (.store p.1 p.2 base)).exec (stores base l) := rfl

/-- The first load, and then the others. -/
theorem exec_loads_cons {p : Reg × Word} :
    m.exec (loads base (p :: l)) = (m.step (.load p.2 base p.1)).exec (loads base l) := rfl

/-- Stores change the words that they are for. -/
theorem exec_stores_frame {x : Word} (hx : ∀ p ∈ l, ¬InRange (m.reg base + p.2) 8 x) :
    (m.exec (stores base l)).mem x = m.mem x := by
  induction l generalizing m with
  | nil => rfl
  | cons p l ih =>
    have hrest : ∀ q ∈ l, ¬InRange ((m.step (.store p.1 p.2 base)).reg base + q.2) 8 x :=
      fun q hq => hx q (List.mem_cons_of_mem _ hq)
    rw [exec_stores_cons, ih hrest]
    exact store_apply_of_not (hx p List.mem_cons_self)

/-- Each word that was stored can be loaded again. -/
theorem load_exec_stores (hl : l.Pairwise fun p q => Apart p.2 q.2) {p : Reg × Word} (hp : p ∈ l) :
    X86.load (m.exec (stores base l)).mem (m.reg base + p.2) = m.reg p.1 := by
  induction l generalizing m with
  | nil => exact absurd hp List.not_mem_nil
  | cons q l ih =>
    obtain ⟨hq, hl⟩ := List.pairwise_cons.1 hl
    rw [exec_stores_cons]
    rcases List.mem_cons.1 hp with rfl | hp
    · -- the stores that follow are to other words
      have hframe : ∀ x, InRange (m.reg base + p.2) 8 x →
          ((m.step (.store p.1 p.2 base)).exec (stores base l)).mem x =
            X86.store m.mem (m.reg base + p.2) (m.reg p.1) x :=
        fun x hx => exec_stores_frame fun r hr => (hq r hr).disjoint _ x hx
      rw [load_congr hframe, load_store]
    · exact ih (m := m.step (.store q.1 q.2 base)) hl hp

/-- Loads change no memory. -/
theorem exec_loads_mem : (m.exec (loads base l)).mem = m.mem := by
  induction l generalizing m with
  | nil => rfl
  | cons p l ih => exact ih

/-- A register that is not loaded keeps its value. -/
theorem exec_loads_reg_of_not_mem {r : Reg} (hr : ∀ p ∈ l, p.1 ≠ r) :
    (m.exec (loads base l)).reg r = m.reg r := by
  induction l generalizing m with
  | nil => rfl
  | cons p l ih =>
    rw [exec_loads_cons, ih fun q hq => hr q (List.mem_cons_of_mem _ hq)]
    exact set_reg_of_ne (hr p List.mem_cons_self).symm

/-- Each register is loaded with its word, if none is loaded twice and the base is not
overwritten. -/
theorem exec_loads_reg (hl : l.Pairwise fun p q => p.1 ≠ q.1) (hbase : ∀ p ∈ l, p.1 ≠ base)
    {p : Reg × Word} (hp : p ∈ l) :
    (m.exec (loads base l)).reg p.1 = X86.load m.mem (m.reg base + p.2) := by
  induction l generalizing m with
  | nil => exact absurd hp List.not_mem_nil
  | cons q l ih =>
    obtain ⟨hq, hl⟩ := List.pairwise_cons.1 hl
    rw [exec_loads_cons]
    rcases List.mem_cons.1 hp with rfl | hp
    · rw [exec_loads_reg_of_not_mem fun r hr => (hq r hr).symm]
      exact set_reg_self
    · have hb : (m.step (.load q.2 base q.1)).reg base = m.reg base :=
        set_reg_of_ne (hbase q List.mem_cons_self).symm
      rw [ih hl (fun r hr => hbase r (List.mem_cons_of_mem _ hr)) hp, hb]
      rfl

end Machine

end RockCoro.X86
