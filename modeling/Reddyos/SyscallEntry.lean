import Reddyos.Traps
import Reddyos.Transitions

/-! System calls from `syscall` to `sysret`: `syscalls/syscall_entry.asm` and `syscalls/syscalls.c`, and what
a user program sees of them and of the traps in between. -/
namespace Reddyos

open ByteMemory CallStack Transitions

/-- `enosys` is the `ENOSYS` of the C library. -/
structure SyscallBoot extends TrapBoot where
  percpu : U64
  afterSyscallHandler : U64
  enosys : U64

def kernelStackStart : U64 := 0xFFFFBFFF00000000#64
def kernelStackPages : U64 := 16#64

/-- `percpu_data.kernel_rsp`. -/
def kernelRsp : U64 := kernelStackStart + kernelStackPages * 4096#64 - 1#64

/-- The entries of `syscall_table` that are not `NULL`. -/
def syscallTable : List Nat := [0,1,2,3,4,5,8,9,11,16,35,100,158,228,999]

def syscallCount : Nat := 1000

/-- `syscall_args_t`. -/
structure SyscallArgs where
  rax : U64
  arg1 : U64
  arg2 : U64
  arg3 : U64
  arg4 : U64
  arg5 : U64
  arg6 : U64

abbrev SyscallTable (σ : Type) := Nat → SyscallArgs → σ → Except Stop (U64 × σ)

/-- `syscall_handler` on the registers of its frame; `calls` are the functions of the table. -/
def syscallHandler (boot : SyscallBoot) (calls : SyscallTable σ) (frame : Reg → U64) (s : σ) :
    Except Stop (U64 × σ) :=
  let rax := frame .rax
  if syscallCount ≤ rax.toNat then return (-boot.enosys,s)
  else if rax.toNat ∈ syscallTable then
    calls rax.toNat ⟨rax,frame .rdi,frame .rsi,frame .rdx,frame .r10,frame .r8,frame .r9⟩ s
  else return (-boot.enosys,s)

/-- The processor's `syscall`, up to the first instruction of `syscall_entry`. -/
def Core.syscall (c : Core) : Core :=
  { c with
    reg := Function.update (Function.update c.reg .rcx c.rip) .r11 c.rflags
    rflags := c.rflags &&& ~~~0x600#64
    cs := 8#64
    ss := 0x10#64 }

/-- `syscall_entry` up to the call of `syscall_handler`. -/
def syscallEnter (boot : SyscallBoot) (c : Core) (m : Mem) : Core × Mem :=
  let c := c.syscall.swapgs
  let m := store64 m (c.gs + 8#64).toNat c.rsp
  let stack := push (load64 m (c.gs + 16#64).toNat,m) (load64 m (c.gs + 8#64).toNat)
  let saved := pushWords (irqSaved.map c.reg) stack
  let called := push saved boot.afterSyscallHandler
  ({ c with reg := Function.update c.reg .rdi saved.1, rsp := called.1, rflags := c.rflags &&& ~~~0x400#64 },called.2)

/-- From the `ret` of `syscall_handler` to `sysret`. -/
def syscallLeave (m : Mem) (c : Core) : Core × Mem :=
  let popped := (c.ret m).popAll m irqRestored
  let m := store64 m (c.gs + 8#64).toNat (load64 m popped.rsp.toNat)
  let c := ({ c with toCpu := { popped with rsp := load64 m (c.gs + 8#64).toNat } } : Core).swapgs
  ({ c with toCpu := c.toCpu.sysret },m)

/-- `syscall_frame_t` begins with the registers in the order in which they are popped. -/
def frameSlot (frame : U64) (r : Reg) : Nat := (frame + BitVec.ofNat 64 (8 * irqRestored.idxOf r)).toNat

/-- The bytes of the frame that the handler only reads, and `percpu_data.kernel_rsp`. -/
def frameKept (boot : SyscallBoot) (k : Core) (b : Nat) : Prop :=
  k.rsp.toNat ≤ b ∧ b < kernelRsp.toNat ∧ ¬(frameSlot (k.reg .rdi) .rax ≤ b ∧ b < frameSlot (k.reg .rdi) .rax + 8) ∨
    boot.percpu.toNat + 16 ≤ b ∧ b < boot.percpu.toNat + 24

/-- A system call and its return: `syscall_handler` is code of the kernel that stores its result in the frame. -/
structure SystemCall (boot : SyscallBoot) (handlers : U64 → Bool)
    (calls : SyscallTable σ) (c : Core) (m : Mem) (s : σ) (c' : Core) (m' : Mem) (s' : σ) : Prop where
  called : ∃ k m₁ k' m₂ r, (k,m₁) = syscallEnter boot c m ∧ Body boot.toTrapBoot handlers (frameKept boot k) k m₁ k' m₂ ∧
    k'.rsp = k.rsp ∧ syscallHandler boot calls (fun reg => load64 m₁ (frameSlot (k.reg .rdi) reg)) s = .ok (r,s') ∧
    load64 m₂ (frameSlot (k.reg .rdi) .rax) = r ∧ (c',m') = syscallLeave m₂ k'

structure SyscallOk (boot : SyscallBoot) : Prop extends TrapOk boot.toTrapBoot where
  fits : boot.percpu.toNat + 24 ≤ 2^64
  apart : boot.percpu.toNat + 24 ≤ kernelStackStart.toNat ∨ kernelStackStart.toNat + 65536 ≤ boot.percpu.toNat

/-- Ring 3, with the kernel's `gs` base and stack in reserve. -/
structure UserOk (boot : SyscallBoot) (c : Core) (m : Mem) : Prop where
  cs : c.cs = 0x2B#64
  ss : c.ss = 0x23#64
  kernelGs : c.kernelGs = boot.percpu
  stack : load64 m (boot.percpu.toNat + 16) = kernelRsp

def Cpu.afterCall (r : U64) (c : Cpu) : Cpu :=
  { c with
    reg := Function.update (Function.update (Function.update c.reg .rcx c.rip) .r11 c.rflags) .rax r
    rflags := (c.rflags &&& 0x3C7FD7#64) ||| 2#64 }

variable {σ : Type} {boot : SyscallBoot} {handlers : U64 → Bool} {calls : SyscallTable σ}
variable {c c' k k' : Core} {m m' m₁ m₂ : Mem} {s s' : σ} {v : Nat} {error : U64}

def Cpu.called (c : Cpu) : Reg → U64 := Function.update (Function.update c.reg .rcx c.rip) .r11 c.rflags

def syscallWords (boot : SyscallBoot) (c : Core) : List U64 :=
  [c.rsp] ++ irqSaved.map c.called ++ [boot.afterSyscallHandler]

def regsKept : List Reg := [.r15,.r14,.r13,.r12,.r11,.r10,.r9,.r8,.rsi,.rdi,.rbp,.rdx,.rcx,.rbx]

theorem syscallWords_reverse : (syscallWords boot c).reverse =
    boot.afterSyscallHandler :: (regsKept.map c.called ++ [c.called .rax,c.rsp]) := rfl

theorem percpu_up (ok : SyscallOk boot) (n : Nat) (low : n < 24) :
    (boot.percpu + BitVec.ofNat 64 n).toNat = boot.percpu.toNat + n := toNat_up (by have := ok.fits; omega)

/-- What `syscall_handler` finds. -/
structure CalledOk (boot : SyscallBoot) (c : Core) (m : Mem) (k : Core) (m₁ : Mem) : Prop where
  rsp : k.rsp.toNat = kernelRsp.toNat - 136
  frame : k.reg .rdi = k.rsp + 8#64
  holds : Holds m₁ k.rsp.toNat (boot.afterSyscallHandler :: (regsKept.map c.called ++ [c.called .rax,c.rsp]))
  gs : k.gs = boot.percpu
  kernelGs : k.kernelGs = c.gs
  stack : load64 m₁ (boot.percpu.toNat + 16) = kernelRsp
  outside : ∀ b, ¬(kernelRsp.toNat - 136 ≤ b ∧ b < kernelRsp.toNat) →
    ¬(boot.percpu.toNat + 8 ≤ b ∧ b < boot.percpu.toNat + 16) → m₁ b = m b

theorem syscallEnter_ok (ok : SyscallOk boot) (user : UserOk boot c m) (enters : (k,m₁) = syscallEnter boot c m) :
    CalledOk boot c m k m₁ := by
  have eight : (c.syscall.swapgs.gs + 8#64).toNat = boot.percpu.toNat + 8 := by
    change (c.kernelGs + 8#64).toNat = _
    rw [user.kernelGs]
    exact percpu_up ok 8 (by decide)
  have sixteen : (c.syscall.swapgs.gs + 16#64).toNat = boot.percpu.toNat + 16 := by
    change (c.kernelGs + 16#64).toNat = _
    rw [user.kernelGs]
    exact percpu_up ok 16 (by decide)
  unfold syscallEnter at enters
  dsimp only at enters
  rw [eight,sixteen,load64_store64_apart (by omega),load64_store64_same,user.stack] at enters
  generalize stored : store64 m (boot.percpu.toNat + 8) c.syscall.swapgs.rsp = n at enters
  have words : push (pushWords (irqSaved.map c.syscall.swapgs.reg) (push (kernelRsp,n) c.syscall.swapgs.rsp))
      boot.afterSyscallHandler = pushWords (syscallWords boot c) (kernelRsp,n) := rfl
  rw [words] at enters
  have length : (syscallWords boot c).length = 17 := rfl
  have top : kernelRsp.toNat = kernelStackStart.toNat + 65535 := by decide
  obtain ⟨ends,holds,outside⟩ := @pushWords_spec n (syscallWords boot c) kernelRsp (by rw [length]; decide)
  rw [length] at ends holds outside
  obtain ⟨rfl,rfl⟩ := Prod.mk.inj enters
  refine ⟨ends,?_,?_,user.kernelGs,rfl,?_,?_⟩
  · dsimp only
    rw [Function.update_self,← words]
    exact (BitVec.sub_add_cancel _ _).symm
  · dsimp only
    rw [ends,← syscallWords_reverse]
    exact holds
  · have apart := ok.apart
    rw [load64_congr fun i low => outside (boot.percpu.toNat + 16 + i) (by omega),← stored,load64_store64_apart (by omega)]
    exact user.stack
  · intro b frame percpu
    rw [outside b (by omega),← stored]
    exact store64_outside (by omega)

theorem frameSlot_eq (called : CalledOk boot c m k m₁) (r : Reg) :
    frameSlot (k.reg .rdi) r = k.rsp.toNat + 8 + 8 * irqRestored.idxOf r := by
  have bound : irqRestored.idxOf r < 15 := by cases r <;> decide
  have top : kernelRsp.toNat - 136 + 136 < 2^64 := by decide
  have rsp := called.rsp
  unfold frameSlot
  rw [called.frame,BitVec.add_assoc,show 8#64 + BitVec.ofNat 64 (8 * irqRestored.idxOf r) =
    BitVec.ofNat 64 (8 + 8 * irqRestored.idxOf r) by rw [BitVec.ofNat_add]]
  rw [toNat_up (by omega)]
  omega

theorem CalledOk.slot (called : CalledOk boot c m k m₁) (r : Reg) :
    load64 m₁ (frameSlot (k.reg .rdi) r) = c.called r := by
  rw [frameSlot_eq called]
  have place : k.rsp.toNat + 8 + 8 * irqRestored.idxOf r = k.rsp.toNat + 8 * (irqRestored.idxOf r + 1) := by omega
  rw [place]
  refine called.holds.word _ ?_
  cases r <;> rfl

/-- The frame at the end of `syscall_handler`. -/
theorem CalledOk.after (called : CalledOk boot c m k m₁) (kept : ∀ b, frameKept boot k b → m₂ b = m₁ b)
    (result : load64 m₂ (frameSlot (k.reg .rdi) .rax) = r) :
    Holds m₂ (k.rsp.toNat + 8) (irqRestored.map (Function.update c.called .rax r) ++ [c.rsp]) := by
  have slot : frameSlot (k.reg .rdi) .rax = k.rsp.toNat + 120 := frameSlot_eq called .rax
  have top : kernelRsp.toNat - 136 + 136 = kernelRsp.toNat := by decide
  have rsp := called.rsp
  obtain ⟨regs,_,pushed⟩ := holds_append.mp called.holds.2
  have place : k.rsp.toNat + 8 + 8 * (regsKept.map c.called).length = k.rsp.toNat + 120 := rfl
  rw [place] at pushed
  have fourteen : (regsKept.map c.called).length = 14 := rfl
  have split : irqRestored.map (Function.update c.called .rax r) ++ [c.rsp] = regsKept.map c.called ++ [r,c.rsp] := rfl
  rw [split]
  refine holds_append.mpr ⟨?_,?_⟩
  · refine regs.congr fun b low high => kept b (.inl ⟨by omega,by omega,by omega⟩)
  · rw [place]
    refine ⟨slot ▸ result,?_,trivial⟩
    rw [load64_congr fun i low => kept (k.rsp.toNat + 120 + 8 + i) (.inl ⟨by omega,by omega,by omega⟩)]
    exact pushed.1

theorem syscallLeave_eq (ok : SyscallOk boot) (rsp : k'.rsp.toNat + 144 < 2^64) (gs : k'.gs = boot.percpu)
    {regs : Reg → U64} (holds : Holds m₂ (k'.rsp.toNat + 8) (irqRestored.map regs ++ [w])) :
    syscallLeave m₂ k' = (⟨(⟨regs,w,k'.rip,k'.rflags,k'.cs,k'.ss⟩ : Cpu).sysret,k'.kernelGs,k'.gs⟩,
      store64 m₂ (boot.percpu.toNat + 8) w) := by
  have start : (k'.ret m₂).rsp.toNat = k'.rsp.toNat + 8 := toNat_up (n := 8) (by omega)
  have regsHere : ((k'.ret m₂).popAll m₂ irqRestored).reg = regs := by
    have all : ∀ r, r ∈ irqRestored := fun r => by cases r <;> decide
    funext r
    rw [Cpu.popAll_reg (by rw [start]; exact holds) (by rw [start]; change _ + 120 < _; omega),if_pos (all r)]
  have above : ((k'.ret m₂).popAll m₂ irqRestored).rsp.toNat = k'.rsp.toNat + 128 := by
    rw [Cpu.popAll_rsp]
    change (k'.rsp + 8#64 + BitVec.ofNat 64 120).toNat = _
    rw [BitVec.add_assoc]
    exact toNat_up (n := 128) (by omega)
  have word : load64 m₂ (k'.rsp.toNat + 128) = w := by
    have last := (holds_append.mp holds).2.1
    rwa [show k'.rsp.toNat + 8 + 8 * (irqRestored.map regs).length = k'.rsp.toNat + 128 from rfl] at last
  unfold syscallLeave
  dsimp only
  rw [above,word,gs,percpu_up ok 8 (by decide),load64_store64_same]
  simp only [Core.swapgs,Cpu.sysret,regsHere]

/-- `syscall_handler` reads no register that `syscall` overwrites. -/
theorem syscallHandler_called : syscallHandler boot calls c.called s = syscallHandler boot calls c.reg s := rfl

structure CallReturned (boot : SyscallBoot) (calls : SyscallTable σ) (c : Core) (s : σ)
    (c' : Core) (m' : Mem) (s' : σ) : Prop where
  result : ∃ r, syscallHandler boot calls c.reg s = .ok (r,s') ∧ c'.toCpu = c.toCpu.afterCall r
  gs : c'.gs = c.gs
  user : UserOk boot c' m'

theorem SystemCall.returns (ok : SyscallOk boot) (user : UserOk boot c m)
    (call : SystemCall boot handlers calls c m s c' m' s') : CallReturned boot calls c s c' m' s' := by
  obtain ⟨k,m₁,k',m₂,r,enters,body,rsp,handled,result,leaves⟩ := call.called
  have called := syscallEnter_ok ok user enters
  obtain ⟨gs,kernelGs,kept⟩ := body.keeps ok.toTrapOk
  have slots : (fun reg => load64 m₁ (frameSlot (k.reg .rdi) reg)) = c.called := funext called.slot
  rw [slots,syscallHandler_called] at handled
  have holds := called.after kept result
  have top : kernelRsp.toNat - 136 + 144 < 2^64 := by decide
  have low := called.rsp
  rw [← rsp] at holds low
  rw [syscallLeave_eq ok (by omega) (gs.trans called.gs) holds] at leaves
  obtain ⟨rfl,rfl⟩ := Prod.mk.inj leaves
  have stack : load64 m₂ (boot.percpu.toNat + 16) = kernelRsp := by
    rw [load64_congr fun i inside => kept (boot.percpu.toNat + 16 + i) (.inr (by omega)),called.stack]
  refine ⟨⟨r,handled,?_⟩,kernelGs.trans called.kernelGs,⟨rfl,rfl,gs.trans called.gs,?_⟩⟩
  · refine Cpu.ext rfl rfl rfl rfl user.cs.symm user.ss.symm
  · rw [load64_store64_apart (by omega)]
    exact stack

abbrev UserMem := Nat → Option (BitVec 8)

/-- A program: its processor, its memory and the state that system calls work on besides. -/
structure Program (σ : Type) where
  cpu : Cpu
  gs : U64
  mem : UserMem
  world : σ

inductive UserEvent where
  | own
  | trap (v : Nat)
  | call
  deriving DecidableEq, Repr

/-- What surrounds a program: its own instructions, and what goes on in the kernel while it is interrupted. -/
structure Surroundings (σ : Type) where
  exec : Program σ → Program σ → Prop
  meanwhile : σ → σ → Prop

/-- No byte is lost or changed. -/
def Grown (mem mem' : UserMem) : Prop := ∀ b w, mem b = some w → mem' b = some w

/-- A program on a processor that has only it to run. A trap may give it memory that it did not have. -/
inductive ProgramStep (boot : SyscallBoot) (calls : SyscallTable (UserMem × σ)) (around : Surroundings σ) :
    Program σ → UserEvent → Program σ → Prop where
  | own {p p' : Program σ} : around.exec p p' → ProgramStep boot calls around p .own p'
  | trap {p : Program σ} {v : Nat} {mem : UserMem} {s : σ} : Grown p.mem mem → around.meanwhile p.world s →
      ProgramStep boot calls around p (.trap v) { p with mem := mem, world := s }
  | call {p : Program σ} {r : U64} {mem : UserMem} {s : σ} :
      syscallHandler boot calls p.cpu.reg (p.mem,p.world) = .ok (r,mem,s) →
      ProgramStep boot calls around p .call { p with cpu := p.cpu.afterCall r, mem := mem, world := s }

/-- The processor as it is, its memory, the bytes that ring 3 can reach, and the state that system calls
work on besides. -/
structure UserMachine (σ : Type) where
  core : Core
  mem : Mem
  mapped : Nat → Bool
  world : σ

def UserMachine.user (x : UserMachine σ) : UserMem := fun b => if x.mapped b then some (x.mem b) else none

def UserMachine.program (x : UserMachine σ) : Program σ := ⟨x.core.toCpu,x.core.gs,x.user,x.world⟩

def percpuStack (boot : SyscallBoot) (b : Nat) : Prop := boot.percpu.toNat + 16 ≤ b ∧ b < boot.percpu.toNat + 24

/-- Instructions of ring 3 leave the segments, the base in reserve and `percpu_data` alone, and handlers of
traps the memory of the program. -/
inductive UserStep (boot : SyscallBoot) (handlers : U64 → Bool) (calls : SyscallTable (UserMem × σ))
    (around : Surroundings σ) : UserMachine σ → UserEvent → UserMachine σ → Prop where
  | own {x x' : UserMachine σ} : around.exec x.program x'.program → x'.core.cs = x.core.cs → x'.core.ss = x.core.ss →
      x'.core.kernelGs = x.core.kernelGs → (∀ b, percpuStack boot b → x'.mem b = x.mem b) →
      UserStep boot handlers calls around x .own x'
  | trap {x x' : UserMachine σ} {v : Nat} {error : U64} {k : Core} {m₁ : Mem} :
      Trap boot.toTrapBoot handlers (fun b => percpuStack boot b ∨ x.mapped b = true) v error x.core x.mem k m₁ x'.core x'.mem →
      (∀ b, x.mapped b = true → x'.mapped b = true) → around.meanwhile x.world x'.world →
      UserStep boot handlers calls around x (.trap v) x'
  | call {x x' : UserMachine σ} :
      SystemCall boot handlers calls x.core x.mem (x.user,x.world) x'.core x'.mem (x'.user,x'.world) →
      UserStep boot handlers calls around x .call x'

variable {around : Surroundings σ} {x x' : UserMachine σ} {e : UserEvent} {events : List UserEvent}
variable {userCalls : SyscallTable (UserMem × σ)}

theorem UserOk.kept (user : UserOk boot c m) (cs : c'.cs = c.cs) (ss : c'.ss = c.ss) (kernelGs : c'.kernelGs = c.kernelGs)
    (bytes : ∀ b, percpuStack boot b → m' b = m b) : UserOk boot c' m' := by
  refine ⟨cs.trans user.cs,ss.trans user.ss,kernelGs.trans user.kernelGs,?_⟩
  rw [load64_congr fun i low => bytes (boot.percpu.toNat + 16 + i) ⟨by omega,by omega⟩]
  exact user.stack

/-- Of the exceptions only page faults have a handler. -/
def PageFaultsOnly (handlers : U64 → Bool) : Prop := ∀ n, handlers n = true → n = 14#64

theorem Returned.fits (only : PageFaultsOnly handlers) {live : Nat → Prop}
    (returned : Returned handlers live v error c m k m₁ c' m') : StubFits v := by
  refine ⟨?_,?_⟩ <;>
  · rintro rfl
    exact absurd (only _ (returned.handled (by decide))) (by decide)

/-- One step of the machine is one step of the program. -/
theorem UserStep.follows (ok : SyscallOk boot) (only : PageFaultsOnly handlers) (user : UserOk boot x.core x.mem)
    (moves : UserStep boot handlers userCalls around x e x') :
    ProgramStep boot userCalls around x.program e x'.program ∧ UserOk boot x'.core x'.mem := by
  cases moves with
  | own exec cs ss kernelGs bytes => exact ⟨.own exec,user.kept cs ss kernelGs bytes⟩
  | trap trap more meanwhile =>
    have returned := trap.returned ok.toTrapOk
    have resumed := returned.resumed (returned.fits only)
    have same : x'.program = { x.program with mem := x'.user, world := x'.world } := by
      rw [UserMachine.program,resumed]
      rfl
    have grown : Grown x.user x'.user := by
      intro b w here
      unfold UserMachine.user at here ⊢
      split at here
      · rename_i mapped
        rw [if_pos (more b mapped),returned.kept b (.inr mapped)]
        exact here
      · cases here
    rw [same]
    exact ⟨.trap grown meanwhile,user.kept (by rw [resumed]) (by rw [resumed]) (by rw [resumed])
      fun b inside => returned.kept b (.inl inside)⟩
  | call call =>
    obtain ⟨⟨r,handled,after⟩,gs,user'⟩ := call.returns ok user
    have same : x'.program = { x.program with cpu := x.core.toCpu.afterCall r, mem := x'.user, world := x'.world } := by
      rw [UserMachine.program,after,gs]
      rfl
    rw [same]
    exact ⟨.call handled,user'⟩

/-- Through `syscall_entry`, the stubs and all that happens behind them, a program is a program on a
processor of its own, for which a system call is one step that changes `rcx`, `r11`, `rax`, the flags
that `sysret` does not take and the memory that the call writes, and a trap is none. -/
theorem user_program (ok : SyscallOk boot) (only : PageFaultsOnly handlers) (user : UserOk boot x.core x.mem)
    (run : Run (fun y => y = x) (UserStep boot handlers userCalls around) free events x') :
    Run (fun p => p = x.program) (ProgramStep boot userCalls around) free events x'.program ∧ UserOk boot x'.core x'.mem := by
  have simulated : ∃ p, Run (fun p => p = x.program) (ProgramStep boot userCalls around) free events p ∧ p = x'.program ∧
      UserOk boot x'.core x'.mem := by
    refine run.simulated (fun y p => p = y.program ∧ UserOk boot y.core y.mem) ?_ ?_
    · rintro _ rfl
      exact ⟨_,rfl,rfl,user⟩
    · rintro y _ e y' ⟨rfl,user⟩ _ moves
      obtain ⟨follows,user'⟩ := moves.follows ok only user
      exact ⟨_,trivial,follows,rfl,user'⟩
  obtain ⟨_,program,rfl,user'⟩ := simulated
  exact ⟨program,user'⟩

def callBoot : SyscallBoot := { stubBoot with percpu := 0x340000#64, afterSyscallHandler := 0x350000#64, enosys := 38#64 }

theorem callBoot_ok : SyscallOk callBoot := { stubBoot_ok with fits := by decide, apart := .inl (by decide) }

/-- A handler that has only to store the result. -/
theorem SystemCall.plain (ok : SyscallOk boot) (user : UserOk boot c m)
    (handled : syscallHandler boot calls c.reg s = .ok (r,s')) : ∃ c' m', SystemCall boot handlers calls c m s c' m' s' ∧
      ∀ b, ¬(kernelRsp.toNat - 136 ≤ b ∧ b < kernelRsp.toNat) →
        ¬(boot.percpu.toNat + 8 ≤ b ∧ b < boot.percpu.toNat + 16) → m' b = m b := by
  obtain ⟨k,m₁,enters⟩ : ∃ k m₁, (k,m₁) = syscallEnter boot c m := ⟨_,_,rfl⟩
  have called := syscallEnter_ok ok user enters
  have slots : (fun reg => load64 m₁ (frameSlot (k.reg .rdi) reg)) = c.called := funext called.slot
  have slot : frameSlot (k.reg .rdi) .rax = k.rsp.toNat + 120 := frameSlot_eq called .rax
  have low := called.rsp
  have apart := ok.apart
  have top : kernelRsp.toNat = kernelStackStart.toNat + 65535 := by decide
  generalize stored : store64 m₁ (frameSlot (k.reg .rdi) .rax) r = m₂
  have kept : ∀ b, frameKept boot k b → m₂ b = m₁ b := by
    intro b kept
    rw [← stored]
    refine store64_outside ?_
    rcases kept with ⟨_,_,outside⟩ | ⟨low,high⟩
    · omega
    · rw [slot]
      omega
  have result : load64 m₂ (frameSlot (k.reg .rdi) .rax) = r := stored ▸ load64_store64_same
  have fits : kernelRsp.toNat - 136 + 144 < 2^64 := by decide
  have leaves := syscallLeave_eq ok (by rw [low]; exact fits) called.gs (called.after kept result)
  refine ⟨_,_,⟨k,m₁,k,m₂,r,enters,.work rfl rfl kept,rfl,by rw [slots]; exact handled,result,leaves.symm⟩,?_⟩
  intro b frame percpu
  have same : m₂ b = m₁ b := by
    rw [← stored,slot]
    exact store64_outside (by omega)
  rw [store64_outside (by omega),same]
  exact called.outside b frame percpu

def callMem : Mem := store64 (fun _ => 0#8) 0x340010 kernelRsp

/-- Every call returns its third argument, as a `write` of the whole buffer does. -/
def wholeCalls : SyscallTable (UserMem × Unit) := fun _ args s => .ok (args.arg3,s)

def writeCore : Core := { userCore with reg := Function.update userCore.reg .rax 1#64 }

def alone : Surroundings Unit := ⟨fun _ _ => False,fun _ _ => True⟩

def userMachine (c : Core) (m : Mem) : UserMachine Unit := ⟨c,m,fun b => decide (0x400000 ≤ b ∧ b < 0x401000),()⟩

/-- A page fault and a `write` of seven bytes. -/
theorem user_program_write :
    ∃ p, Run (fun p => p = (userMachine writeCore callMem).program) (ProgramStep callBoot wholeCalls alone) free
        [.trap 14,.call] p ∧
      p.cpu.reg .rax = 7#64 ∧ p.mem 0x400123 = some 0#8 := by
  have delivers : ∃ d, writeCore.deliver callBoot.toTrapBoot 14 6#64 callMem = some d ∧
      callBoot.codeAt d.1.rip = some (.isr 14) := ⟨_,rfl,by decide +kernel⟩
  obtain ⟨d,delivered,code⟩ := delivers
  obtain ⟨k,m₁,enters⟩ : ∃ k m₁, (k,m₁) = (Stub.isr 14).enter callBoot.toTrapBoot d.1 d.2 := ⟨_,_,rfl⟩
  have stack : (writeCore.trapStack callBoot.toTrapBoot 14).toNat = 0x302000 := by decide +kernel
  let live : Nat → Prop := fun b => percpuStack callBoot b ∨ (userMachine writeCore callMem).mapped b = true
  have way : TrapIn callBoot.toTrapBoot live 14 6#64 writeCore callMem (.isr 14) k m₁ := by
    refine ⟨⟨d,delivered,code,enters⟩,by omega,fun b here => ?_⟩
    rcases here with percpu | user
    · have low : 0x340000 + 16 ≤ b := percpu.1
      omega
    · have inside := of_decide_eq_true user
      omega
  have number := (way.entered callBoot_ok.toTrapOk).number
  have trap : Trap callBoot.toTrapBoot (fun n => n == 14#64) live 14 6#64 writeCore callMem k m₁ (leaveTrap m₁ k) m₁ :=
    ⟨_,k,way,by unfold Stub.returns; rw [number]; rfl,.work rfl rfl fun _ _ => rfl,rfl,rfl⟩
  have returned := trap.returned callBoot_ok.toTrapOk
  have user : UserOk callBoot writeCore callMem := ⟨rfl,rfl,rfl,load64_store64_same⟩
  rw [returned.resumed (by decide)] at trap
  have user₁ : UserOk callBoot writeCore m₁ := user.kept rfl rfl rfl fun b inside => returned.kept b (.inl inside)
  have handled : syscallHandler callBoot wholeCalls writeCore.reg ((userMachine writeCore m₁).user,()) =
      .ok (7#64,(userMachine writeCore m₁).user,()) := rfl
  obtain ⟨c',m',call,outside⟩ := @SystemCall.plain _ _ (fun n => n == 14#64) _ _ _ _ _ _ callBoot_ok user₁ handled
  have user_kept : (userMachine c' m').user = (userMachine writeCore m₁).user := by
    funext b
    unfold UserMachine.user userMachine
    dsimp only
    split
    · rename_i mapped
      have inside := of_decide_eq_true mapped
      have top : kernelRsp.toNat = 0xFFFFBFFF0000FFFF := by decide
      have percpu : callBoot.percpu.toNat = 0x340000 := by decide
      rw [outside b (by omega) (by omega)]
    · rfl
  have fault : UserStep callBoot (fun n => n == 14#64) wholeCalls alone (userMachine writeCore callMem) (.trap 14)
      (userMachine writeCore m₁) := .trap trap (fun _ => id) trivial
  have called : UserStep callBoot (fun n => n == 14#64) wholeCalls alone (userMachine writeCore m₁) .call
      (userMachine c' m') := by
    refine .call ?_
    rw [user_kept]
    exact call
  have faulted : Run (fun y => y = userMachine writeCore callMem) (UserStep callBoot (fun n => n == 14#64) wholeCalls alone)
      free ([] ++ [.trap 14]) (userMachine writeCore m₁) := .step (.start rfl) trivial fault
  have run := faulted.step trivial called
  obtain ⟨⟨r,returns,after⟩,_,_⟩ := call.returns callBoot_ok user₁
  rw [handled,Except.ok.injEq,Prod.mk.injEq] at returns
  obtain ⟨rfl,_⟩ := returns
  refine ⟨_,(user_program callBoot_ok (fun n handled => by simpa using handled) user run).1,?_,?_⟩
  · change c'.reg .rax = _
    rw [after]
    rfl
  change (userMachine c' m').user 0x400123 = _
  rw [user_kept]
  change some (m₁ 0x400123) = _
  rw [returned.kept 0x400123 (.inr rfl)]
  rfl

end Reddyos
