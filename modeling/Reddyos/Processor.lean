import Mathlib.Logic.Function.Basic
import Reddyos.CallStack
import Reddyos.Pmm

/-! The registers of the processor and what its instructions around interrupts do with them. The
caches of translations, `gs` and the floating-point unit are left out. -/
namespace Reddyos

open ByteMemory CallStack

inductive Reg where
  | rax | rbx | rcx | rdx | rbp | rdi | rsi | r8 | r9 | r10 | r11 | r12 | r13 | r14 | r15
  deriving DecidableEq, Repr

@[ext] structure Cpu where
  reg : Reg → U64
  rsp : U64
  rip : U64
  rflags : U64
  cs : U64
  ss : U64

def Cpu.ring3 (c : Cpu) : Bool := c.cs &&& 3#64 != 0#64

def Cpu.set (c : Cpu) (r : Reg) (value : U64) : Cpu := { c with reg := Function.update c.reg r value }

def Cpu.pop (m : Mem) (c : Cpu) (r : Reg) : Cpu := { c.set r (load64 m c.rsp.toNat) with rsp := c.rsp + 8#64 }

def Cpu.popAll (m : Mem) (regs : List Reg) (c : Cpu) : Cpu := regs.foldl (Cpu.pop m) c

def Cpu.ret (m : Mem) (c : Cpu) : Cpu := { c with rip := load64 m c.rsp.toNat, rsp := c.rsp + 8#64 }

def Cpu.sti (c : Cpu) : Cpu := { c with rflags := c.rflags ||| 0x200#64 }

def Cpu.iretq (m : Mem) (c : Cpu) : Cpu :=
  { c with
    rip := load64 m c.rsp.toNat
    cs := load64 m (c.rsp + 8#64).toNat
    rflags := load64 m (c.rsp + 16#64).toNat
    rsp := load64 m (c.rsp + 24#64).toNat
    ss := load64 m (c.rsp + 32#64).toNat }

/-- With the selectors that `syscall_init` puts into `IA32_STAR`. -/
def Cpu.sysret (c : Cpu) : Cpu :=
  { c with rip := c.reg .rcx, rflags := (c.reg .r11 &&& 0x3C7FD7#64) ||| 2#64, cs := 0x2B#64, ss := 0x23#64 }

/-- Where an interrupt puts its frame. `rsp0` is for interrupts out of ring 3. -/
def Cpu.interruptStack (rsp0 : U64) (c : Cpu) : U64 := (if c.ring3 then rsp0 else c.rsp) &&& ~~~0xF#64

def Cpu.interrupt (rsp0 : U64) (c : Cpu) (m : Mem) : U64 × Mem :=
  pushWords [c.ss,c.rsp,c.rflags,c.cs,c.rip] (c.interruptStack rsp0,m)

def Cpu.handler (c : Cpu) : Cpu := { c with cs := 8#64, ss := if c.ring3 then 0#64 else c.ss }

variable {c : Cpu} {m : Mem} {rsp0 : U64} {regs more : List Reg} {f : Reg → U64} {rest : List U64}

@[simp] theorem Cpu.pop_same (r : Reg) : (c.pop m r).reg r = load64 m c.rsp.toNat := Function.update_self _ _ _

theorem Cpu.popAll_append : c.popAll m (regs ++ more) = (c.popAll m regs).popAll m more :=
  List.foldl_append

@[simp] theorem Cpu.popAll_rsp : (c.popAll m regs).rsp = c.rsp + BitVec.ofNat 64 (8 * regs.length) := by
  induction regs generalizing c with
  | nil => simp [popAll]
  | cons r regs ih =>
    change ((c.pop m r).popAll m regs).rsp = _
    rw [ih,List.length_cons]
    change c.rsp + 8#64 + BitVec.ofNat 64 (8 * regs.length) = _
    rw [BitVec.add_assoc,show 8 * (regs.length + 1) = 8 + 8 * regs.length by omega,BitVec.ofNat_add]

theorem Cpu.popAll_last {r : Reg} : (c.popAll m (regs ++ [r])).reg r =
    load64 m (c.rsp + BitVec.ofNat 64 (8 * regs.length)).toNat := by
  rw [popAll_append]
  change ((c.popAll m regs).pop m r).reg r = _
  rw [pop_same,popAll_rsp]

@[simp] theorem Cpu.popAll_cs : (c.popAll m regs).cs = c.cs := by
  induction regs generalizing c with
  | nil => rfl
  | cons r regs ih => exact @ih (c.pop m r)

/-- Registers popped from where they lie in order; what lies above them is not read. -/
theorem Cpu.popAll_reg (holds : Holds m c.rsp.toNat (regs.map f ++ rest))
    (room : c.rsp.toNat + 8 * regs.length < 2^64) (r : Reg) :
    (c.popAll m regs).reg r = if r ∈ regs then f r else c.reg r := by
  induction regs generalizing c with
  | nil => simp [popAll]
  | cons first regs ih =>
    rw [List.length_cons] at room
    have up : (c.pop m first).rsp.toNat = c.rsp.toNat + 8 := by
      change (c.rsp + 8#64).toNat = _
      rw [BitVec.toNat_add]
      have eight : (8#64).toNat = 8 := rfl
      omega
    have popped : (c.popAll m (first :: regs)).reg r = if r ∈ regs then f r else (c.pop m first).reg r :=
      @ih (c.pop m first) (by rw [up]; exact holds.2) (by omega)
    rw [popped]
    by_cases later : r ∈ regs
    · simp [later]
    · by_cases same : r = first
      · subst same
        simpa [later,pop,set] using holds.1
      · simp [later,same,pop,set]

theorem Cpu.interruptStack_toNat : (c.interruptStack rsp0).toNat = (if c.ring3 then rsp0 else c.rsp).toNat / 16 * 16 :=
  Words.toNat_and_not_low _ 4

end Reddyos
