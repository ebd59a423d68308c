import Reddyos.Processor
import Reddyos.Scheduler

/-! The timer interrupt and the switch between threads, from `interrupts/irq.asm` and `scheduler/thread.asm`,
and the first frames of new threads, from `scheduler/thread.c`. Of the compiled code between them it is only
known how much of the stack it takes, and whether a return into `schedule` gets back out of it. -/
namespace Reddyos

open ByteMemory CallStack

/-- Addresses that are fixed once the kernel is linked and booted: of stacks, of code, and of the code
behind two calls. At the call of `arch_switch_thread` the frames of `irq_handler` and what it called take
`depth` bytes; all that these functions call takes `scratch` bytes at most. `arch_switch_thread` is declared
`noreturn`, so the compiler may put anything behind its call; `returns` says that it is, or runs into, code
that returns from `schedule`. -/
structure SwitchBoot extends SchedulerBoot where
  kernelIrqStack : U64
  bootStack : U64
  bootStackSize : Nat
  threadEntryKernel : U64
  threadEntryUser : U64
  taskBootstrap : U64
  afterHandler : U64
  afterSwitch : U64
  depth : Nat
  scratch : Nat
  returns : Bool

def SwitchBoot.rsp0 (boot : SwitchBoot) : U64 := boot.kernelIrqStack + 8192#64

structure Compiled where
  bytes : Nat → BitVec 8
  reg : Reg → U64
  rflags : U64

structure Tasks where
  cpu : Cpu
  mem : Mem
  sched : Scheduler
  nextTid : U64

def irqSaved : List Reg := [.rax,.rbx,.rcx,.rdx,.rbp,.rdi,.rsi,.r8,.r9,.r10,.r11,.r12,.r13,.r14,.r15]

def irqRestored : List Reg := [.r15,.r14,.r13,.r12,.r11,.r10,.r9,.r8,.rsi,.rdi,.rbp,.rdx,.rcx,.rbx,.rax]

def archSaved : List Reg := [.rbx,.rbp,.r12,.r13,.r14,.r15]

def archRestored : List Reg := [.r15,.r14,.r13,.r12,.rbp,.rbx]

def irqEnter (boot : SwitchBoot) (c : Cpu) (m : Mem) : U64 × Mem :=
  let framed := c.interrupt boot.rsp0 m
  let numbered := pushWords [0#64,32#64] framed
  let saved := pushWords (irqSaved.map c.reg) numbered
  push saved boot.afterHandler

def irqLeave (m : Mem) (c : Cpu) : Cpu :=
  let c := c.popAll m irqRestored
  { c with rsp := c.rsp + 16#64 }.iretq m

/-- The memory after `irq_handler` and what it calls, up to `schedule`. -/
def handlerMem (boot : SwitchBoot) (code : Compiled) (entered : U64 × Mem) : Mem :=
  copy entered.2 (entered.1.toNat - boot.scratch) code.bytes boot.scratch

def archSave (boot : SwitchBoot) (code : Compiled) (entered : U64 × Mem) : U64 × Mem :=
  let called := push (entered.1 - BitVec.ofNat 64 boot.depth,handlerMem boot code entered) boot.afterSwitch
  pushWords (archSaved.map code.reg) called

def threadEntryKernel (m : Mem) (c : Cpu) : Cpu := (c.pop m .rdi).sti.ret m

def threadEntryUser (m : Mem) (c : Cpu) : Cpu :=
  let c := c.popAll m [.rcx,.rdx,.r11]
  let c := c.set .r11 (c.reg .r11 ||| 0x200#64)
  { c with rsp := c.reg .rdx }.sysret

/-- The code behind the call of `arch_switch_thread`. Where it returns from `schedule`, `irq_handler` and what it
called come to their ends and `irq_common` goes on; where it does not, nothing is known. -/
def scheduleReturn (boot : SwitchBoot) (code : Compiled) (m : Mem) (c : Cpu) : Except Stop (Cpu × Mem) :=
  if boot.returns then
    let top := c.rsp + BitVec.ofNat 64 boot.depth
    let m := copy m (top.toNat - boot.scratch) code.bytes boot.scratch
    return (irqLeave m { c with rsp := top + 8#64 },m)
  else throw .undefined

/-- `arch_switch_thread` once it is on the stack of the next thread. -/
def archRestore (boot : SwitchBoot) (code : Compiled) (m : Mem) (c : Cpu) : Except Stop (Cpu × Mem) :=
  let c := (c.popAll m archRestored).pop m .rax
  let target := c.reg .rax
  if target = boot.threadEntryKernel then return (threadEntryKernel m c,m)
  else if target = boot.threadEntryUser then return (threadEntryUser m c,m)
  else if target = boot.afterSwitch then scheduleReturn boot code m c
  else return ({ c with rip := target },m)

def timerTick (boot : SwitchBoot) (code : Compiled) (x : Tasks) : Except Stop Tasks := do
  let entered := irqEnter boot x.cpu x.mem
  let saved := archSave boot code entered
  let handler := { x.cpu.handler with reg := code.reg, rflags := code.rflags }
  let (picked,sched) ← schedule boot.toSchedulerBoot saved.1 x.sched
  match picked with
  | none =>
    let mem := handlerMem boot code entered
    return { x with cpu := irqLeave mem { handler with rsp := entered.1 + 8#64 }, mem := mem, sched := sched }
  | some next =>
    let (cpu,mem) ← archRestore boot code saved.2 { handler with rsp := (sched.thread next).rsp }
    return { x with cpu := cpu, mem := mem, sched := sched }

structure UserStart where
  cr3 : U64
  entryPoint : U64
  rsp : U64

def Tasks.setThread (x : Tasks) (t : U64) (thread : Thread) : Tasks := { x with sched := x.sched.setThread t thread }

/-- Words pushed from the end of the stack of a new thread, and its `rsp` set to the last. -/
def Tasks.setupStack (words : List U64) (t : U64) (x : Tasks) : Tasks :=
  let stack := pushWords words ((x.sched.thread t).kernelStack + 4096#64,x.mem)
  { x.setThread t { x.sched.thread t with rsp := stack.1 } with mem := stack.2 }

def setupKernelStack (boot : SwitchBoot) (t entry arg : U64) (x : Tasks) : Tasks :=
  x.setupStack [entry,arg,boot.threadEntryKernel,0#64,0#64,0#64,0#64,0#64,0#64] t

def setupUserStack (boot : SwitchBoot) (t entry : U64) (x : Tasks) : Tasks :=
  x.setupStack [0x202#64,(x.sched.thread t).userStack,entry,boot.threadEntryUser,0#64,0#64,0#64,0#64,0#64,0#64] t

/-- `t` and `kernelStack` are what `kmalloc` returns. -/
def threadCreateBase (t kernelStack entry : U64) (x : Tasks) : U64 × Tasks :=
  if t = 0#64 then (0#64,x)
  else
    let x := { x with nextTid := x.nextTid + 1#64 }.setThread t { Thread.zero with tid := x.nextTid }
    if kernelStack = 0#64 then (0#64,x)
    else (t,x.setThread t { x.sched.thread t with kernelStack := kernelStack, entry := entry })

def threadCreate (boot : SwitchBoot) (t kernelStack entry : U64) (x : Tasks) : U64 × Tasks :=
  let (t,x) := threadCreateBase t kernelStack entry x
  if t = 0#64 then (0#64,x) else (t,setupKernelStack boot t boot.taskBootstrap 0#64 x)

def userThreadCreate (boot : SwitchBoot) (t kernelStack : U64) (process : Option UserStart) (x : Tasks) : U64 × Tasks :=
  match process with
  | none => (0#64,x)
  | some process =>
    let (t,x) := threadCreateBase t kernelStack process.entryPoint x
    if t = 0#64 then (0#64,x)
    else
      let x := x.setThread t { x.sched.thread t with process := some process.cr3, userStack := process.rsp }
      (t,setupUserStack boot t process.entryPoint x)

/-- What `task_bootstrap` calls, before it halts for good. -/
def taskBootstrap (s : Scheduler) (arg : U64) : Option (U64 × U64) :=
  let entry := (s.thread s.currentThread).entry
  if entry ≠ 0#64 then some (entry,arg) else none

variable {boot : SwitchBoot} {code : Compiled} {c : Cpu} {m : Mem} {x : Tasks} {t : U64} {words : List U64}

def frameEnd (boot : SwitchBoot) (c : Cpu) : Nat := (c.interruptStack boot.rsp0).toNat

def savedDepth (boot : SwitchBoot) : Nat := 240 + boot.depth

structure SwitchOk (boot : SwitchBoot) : Prop where
  nested : boot.depth + 56 ≤ boot.scratch
  irqRoom : 200 + boot.scratch ≤ 8192
  irqFits : boot.kernelIrqStack.toNat + 8192 < 2^64
  bootFits : boot.bootStack.toNat + boot.bootStackSize < 2^64
  bootApart : boot.bootStack.toNat + boot.bootStackSize ≤ boot.kernelIrqStack.toNat ∨
    boot.kernelIrqStack.toNat + 8192 ≤ boot.bootStack.toNat
  entries : boot.threadEntryKernel ≠ boot.threadEntryUser
  kernelReturns : boot.afterSwitch ≠ boot.threadEntryKernel
  userReturns : boot.afterSwitch ≠ boot.threadEntryUser

def irqWords (boot : SwitchBoot) (c : Cpu) : List U64 :=
  [c.ss,c.rsp,c.rflags,c.cs,c.rip,0#64,32#64] ++ irqSaved.map c.reg ++ [boot.afterHandler]

theorem irqEnter_eq : irqEnter boot c m = pushWords (irqWords boot c) (c.interruptStack boot.rsp0,m) := rfl

theorem irqWords_reverse : (irqWords boot c).reverse =
    boot.afterHandler :: (irqRestored.map c.reg ++ [32#64,0#64,c.rip,c.cs,c.rflags,c.rsp,c.ss]) := rfl

theorem irqEnter_spec (room : 184 ≤ frameEnd boot c) :
    (irqEnter boot c m).1.toNat = frameEnd boot c - 184 ∧
    Holds (irqEnter boot c m).2 (frameEnd boot c - 184) (irqWords boot c).reverse ∧
    ∀ b, b < frameEnd boot c - 184 ∨ frameEnd boot c ≤ b → (irqEnter boot c m).2 b = m b := by
  rw [irqEnter_eq]
  exact @pushWords_spec m (irqWords boot c) _ room

theorem handlerMem_spec (room : 184 + boot.scratch ≤ frameEnd boot c) :
    Holds (handlerMem boot code (irqEnter boot c m)) (frameEnd boot c - 184) (irqWords boot c).reverse ∧
    ∀ b, b < frameEnd boot c - (184 + boot.scratch) ∨ frameEnd boot c ≤ b →
      handlerMem boot code (irqEnter boot c m) b = m b := by
  obtain ⟨ends,holds,outside⟩ := @irqEnter_spec boot c m (by omega)
  unfold handlerMem
  rw [ends]
  refine ⟨holds.congr fun b low _ => copy_outside (by omega),fun b apart => ?_⟩
  rw [copy_outside (by omega),outside b (by omega)]

theorem archSave_eq {entered : U64 × Mem} : archSave boot code entered =
    pushWords (boot.afterSwitch :: archSaved.map code.reg)
      (entered.1 - BitVec.ofNat 64 boot.depth,handlerMem boot code entered) := rfl

/-- The switch saves an `rsp` that depends on the interrupted thread's stack only. The word 48 bytes above it
is the address behind the call of `arch_switch_thread`, and the frame of the interrupt is further up. -/
theorem archSave_spec (ok : SwitchOk boot) (room : 184 + boot.scratch ≤ frameEnd boot c) :
    (archSave boot code (irqEnter boot c m)).1.toNat = frameEnd boot c - savedDepth boot ∧
    load64 (archSave boot code (irqEnter boot c m)).2 (frameEnd boot c - savedDepth boot + 48) = boot.afterSwitch ∧
    Holds (archSave boot code (irqEnter boot c m)).2 (frameEnd boot c - 184) (irqWords boot c).reverse ∧
    ∀ b, b < frameEnd boot c - (184 + boot.scratch) ∨ frameEnd boot c ≤ b →
      (archSave boot code (irqEnter boot c m)).2 b = m b := by
  have nested := ok.nested
  obtain ⟨ends,_,_⟩ := @irqEnter_spec boot c m (by omega)
  obtain ⟨framed,kept⟩ := @handlerMem_spec boot code c m room
  rw [archSave_eq]
  generalize irqEnter boot c m = entered at ends framed kept ⊢
  generalize handlerMem boot code entered = after at framed kept ⊢
  have small := entered.1.isLt
  have start : (entered.1 - BitVec.ofNat 64 boot.depth).toNat = frameEnd boot c - 184 - boot.depth := by
    rw [BitVec.toNat_sub,BitVec.toNat_ofNat,ends]
    omega
  generalize entered.1 - BitVec.ofNat 64 boot.depth = rsp at start ⊢
  have count : (boot.afterSwitch :: archSaved.map code.reg).length = 7 := rfl
  obtain ⟨below,holds,outside⟩ := @pushWords_spec after (boot.afterSwitch :: archSaved.map code.reg) rsp
    (by rw [count,start]; omega)
  have place : rsp.toNat - 8 * 7 = frameEnd boot c - savedDepth boot := by
    unfold savedDepth
    omega
  rw [count,place] at below holds outside
  rw [List.reverse_cons] at holds
  refine ⟨below,(holds_append.mp holds).2.1,framed.congr fun b low _ => outside b (by unfold savedDepth; omega),
    fun b apart => ?_⟩
  have deeper : frameEnd boot c - (184 + boot.scratch) ≤ frameEnd boot c - savedDepth boot := by
    unfold savedDepth
    omega
  rw [outside b (by omega),kept b apart]

/-- `irq_common` gives back the registers in the frame above it. -/
theorem irqLeave_frame (room : 184 ≤ frameEnd boot c) (holds : Holds m (frameEnd boot c - 184) (irqWords boot c).reverse)
    (handler : Cpu) (here : handler.rsp.toNat = frameEnd boot c - 184 + 8) : irqLeave m handler = c := by
  rw [irqWords_reverse] at holds
  have small : frameEnd boot c < 2^64 := (c.interruptStack boot.rsp0).isLt
  have regs := holds.2
  rw [← here] at regs
  have frame := (@holds_append _ _ (irqRestored.map c.reg ++ [32#64,0#64]) [c.rip,c.cs,c.rflags,c.rsp,c.ss]).mp regs
  have word : ∀ i w, [c.rip,c.cs,c.rflags,c.rsp,c.ss][i]? = some w → load64 m (handler.rsp.toNat + 136 + 8 * i) = w :=
    fun i w here => frame.2.word i here
  have place : handler.rsp + BitVec.ofNat 64 (8 * irqRestored.length) + 16#64 = handler.rsp + BitVec.ofNat 64 136 := by
    rw [BitVec.add_assoc,← BitVec.ofNat_add]
    rfl
  have top : (handler.rsp + BitVec.ofNat 64 136).toNat = handler.rsp.toNat + 136 := toNat_up (by omega)
  have up : ∀ n ≤ 32, (handler.rsp + BitVec.ofNat 64 136 + BitVec.ofNat 64 n).toNat = handler.rsp.toNat + 136 + n :=
    fun n bound => by rw [toNat_up (by omega),top]
  unfold irqLeave Cpu.iretq
  dsimp only
  rw [Cpu.popAll_rsp,place,top,up 8 (by omega),up 16 (by omega),up 24 (by omega),up 32 (by omega)]
  have all : ∀ r, r ∈ irqRestored := fun r => by cases r <;> decide
  have reg : (handler.popAll m irqRestored).reg = c.reg := by
    funext r
    rw [Cpu.popAll_reg regs (by change _ + 120 < _; omega),if_pos (all r)]
  exact Cpu.ext reg (word 3 _ rfl) (word 0 _ rfl) (word 2 _ rfl) (word 1 _ rfl) (word 4 _ rfl)

/-- An interrupt after which the thread is not switched leaves no trace in the registers. -/
theorem irqLeave_spec (room : 184 + boot.scratch ≤ frameEnd boot c) (handler : Cpu)
    (here : handler.rsp = (irqEnter boot c m).1 + 8#64) :
    irqLeave (handlerMem boot code (irqEnter boot c m)) handler = c := by
  obtain ⟨ends,_,_⟩ := @irqEnter_spec boot c m (by omega)
  obtain ⟨holds,_⟩ := @handlerMem_spec boot code c m room
  have small : frameEnd boot c < 2^64 := (c.interruptStack boot.rsp0).isLt
  exact irqLeave_frame (by omega) holds handler (by rw [here,toNat_up (by omega),ends])

def archPopped (m : Mem) (c : Cpu) : Cpu := c.popAll m (archRestored ++ [.rax])

theorem archPopped_spec (fits : c.rsp.toNat + 56 < 2^64) :
    (archPopped m c).reg .rax = load64 m (c.rsp.toNat + 48) ∧ (archPopped m c).rsp.toNat = c.rsp.toNat + 56 ∧
    (archPopped m c).cs = c.cs := by
  refine ⟨?_,?_,Cpu.popAll_cs⟩
  · have last := @Cpu.popAll_last c m archRestored .rax
    rw [show archRestored.length = 6 from rfl,toNat_up (by omega)] at last
    exact last
  · unfold archPopped
    rw [Cpu.popAll_rsp]
    exact toNat_up fits

/-- A thread that was interrupted goes on where it was, if its frame is still there and the code behind the
call of `arch_switch_thread` returns. -/
theorem archRestore_returned {before : Cpu} (ok : SwitchOk boot) (returns : boot.returns = true)
    (room : 184 + boot.scratch ≤ frameEnd boot before) (saved : c.rsp.toNat + savedDepth boot = frameEnd boot before)
    (found : load64 m (c.rsp.toNat + 48) = boot.afterSwitch)
    (frame : Holds m (frameEnd boot before - 184) (irqWords boot before).reverse) :
    ∃ m', archRestore boot code m c = .ok (before,m') ∧
      ∀ b, b < frameEnd boot before - (184 + boot.scratch) ∨ frameEnd boot before - 184 ≤ b → m' b = m b := by
  have small : frameEnd boot before < 2^64 := (before.interruptStack boot.rsp0).isLt
  unfold savedDepth at saved
  obtain ⟨rax,rsp,_⟩ := @archPopped_spec c m (by omega)
  have target : ((c.popAll m archRestored).pop m .rax).reg .rax = boot.afterSwitch := rax.trans found
  have top : ((archPopped m c).rsp + BitVec.ofNat 64 boot.depth).toNat = frameEnd boot before - 184 := by
    rw [toNat_up (by omega),rsp]
    omega
  have outside : ∀ b, b < frameEnd boot before - (184 + boot.scratch) ∨ frameEnd boot before - 184 ≤ b →
      copy m (frameEnd boot before - 184 - boot.scratch) code.bytes boot.scratch b = m b :=
    fun b apart => copy_outside (by omega)
  refine ⟨_,?_,outside⟩
  unfold archRestore
  dsimp only
  rw [target,if_neg ok.kernelReturns,if_neg ok.userReturns,if_pos rfl]
  change scheduleReturn boot code m (archPopped m c) = _
  unfold scheduleReturn
  rw [if_pos returns]
  dsimp only
  rw [top,irqLeave_frame (c := before) (by omega) (frame.congr fun b low _ => outside b (by omega)) _
    (by dsimp only; rw [toNat_up (n := 8) (by omega),top])]
  rfl

theorem threadEntryKernel_spec : (threadEntryKernel m c).rip = load64 m (c.rsp + 8#64).toNat ∧
    (threadEntryKernel m c).reg .rdi = load64 m c.rsp.toNat ∧ (threadEntryKernel m c).rsp = c.rsp + 8#64 + 8#64 ∧
    (threadEntryKernel m c).cs = c.cs ∧ (threadEntryKernel m c).rflags = c.rflags ||| 0x200#64 :=
  ⟨rfl,@Cpu.pop_same c m .rdi,rfl,rfl,rfl⟩

theorem archRestore_kernel {entry arg : U64} {r₁ r₂ r₃ r₄ r₅ r₆ : U64} (fits : c.rsp.toNat + 72 < 2^64)
    (frame : Holds m c.rsp.toNat [r₁,r₂,r₃,r₄,r₅,r₆,boot.threadEntryKernel,arg,entry]) :
    ∃ next, archRestore boot code m c = .ok (next,m) ∧ next.rip = entry ∧ next.reg .rdi = arg ∧
      next.rsp.toNat = c.rsp.toNat + 72 ∧ next.cs = c.cs ∧ next.rflags.getLsbD 9 := by
  have target := frame.word 6 rfl
  have first := frame.word 7 rfl
  have second := frame.word 8 rfl
  obtain ⟨rax,rsp,cs⟩ := @archPopped_spec c m (by omega)
  have jumps : ((c.popAll m archRestored).pop m .rax).reg .rax = boot.threadEntryKernel := rax.trans target
  have above : ((archPopped m c).rsp + 8#64).toNat = c.rsp.toNat + 64 := by
    rw [toNat_up (by omega),rsp,add_assoc]
  have returns : archRestore boot code m c = .ok (threadEntryKernel m (archPopped m c),m) := by
    unfold archRestore
    dsimp only
    rw [jumps,if_pos rfl]
    rfl
  obtain ⟨rip,rdi,down,same,rflags⟩ := @threadEntryKernel_spec (archPopped m c) m
  refine ⟨_,returns,?_,?_,?_,same.trans cs,?_⟩
  · rw [rip,above]
    exact second
  · rw [rdi,rsp]
    exact first
  · rw [down,toNat_up (by omega),above,add_assoc]
  · rw [rflags,BitVec.getLsbD_or]
    simp

theorem archRestore_user {entry stack flags : U64} {r₁ r₂ r₃ r₄ r₅ r₆ : U64} (ok : SwitchOk boot)
    (fits : c.rsp.toNat + 80 < 2^64)
    (frame : Holds m c.rsp.toNat [r₁,r₂,r₃,r₄,r₅,r₆,boot.threadEntryUser,entry,stack,flags]) :
    ∃ next, archRestore boot code m c = .ok (next,m) ∧ next.rip = entry ∧ next.rsp = stack ∧ next.cs = 0x2B#64 ∧
      next.rflags = ((flags ||| 0x200#64) &&& 0x3C7FD7#64) ||| 2#64 := by
  have target := frame.word 6 rfl
  have first := frame.word 7 rfl
  have second := frame.word 8 rfl
  have third := frame.word 9 rfl
  obtain ⟨rax,rsp,_⟩ := @archPopped_spec c m (by omega)
  have jumps : ((c.popAll m archRestored).pop m .rax).reg .rax = boot.threadEntryUser := rax.trans target
  have rcx : load64 m (archPopped m c).rsp.toNat = entry := by
    rw [rsp]
    exact first
  have rdx : load64 m ((archPopped m c).rsp + 8#64).toNat = stack := by
    rw [toNat_up (by omega),rsp]
    exact second
  have r11 : load64 m ((archPopped m c).rsp + 8#64 + 8#64).toNat = flags := by
    rw [toNat_up (by rw [toNat_up (by omega)]; omega),toNat_up (by omega),rsp]
    exact third
  refine ⟨threadEntryUser m (archPopped m c),?_,?_,?_,rfl,?_⟩
  · unfold archRestore
    dsimp only
    rw [jumps,if_neg ok.entries.symm,if_pos rfl]
    rfl
  all_goals simp only [threadEntryUser,Cpu.sysret,Cpu.popAll,Cpu.set,Cpu.pop,List.foldl_cons,List.foldl_nil]
  · exact rcx
  · exact rdx
  · simp only [Function.update_self,r11]

@[simp] theorem Tasks.setThread_same (t : U64) (thread : Thread) : (x.setThread t thread).sched.thread t = thread :=
  Function.update_self _ _ _

@[simp] theorem Tasks.setThread_twice (t : U64) (thread thread' : Thread) :
    (x.setThread t thread).setThread t thread' = x.setThread t thread' := by
  simp [Tasks.setThread,Scheduler.setThread]

theorem setupStack_spec {x : Tasks} {t : U64} (fits : (x.sched.thread t).kernelStack.toNat + 4096 < 2^64)
    (short : 8 * words.length ≤ 4096) : ∃ rsp, (x.setupStack words t).sched =
      x.sched.setThread t { x.sched.thread t with rsp := rsp } ∧
    rsp.toNat + 8 * words.length = (x.sched.thread t).kernelStack.toNat + 4096 ∧
    Holds (x.setupStack words t).mem rsp.toNat words.reverse ∧
    ∀ b, b < (x.sched.thread t).kernelStack.toNat ∨ (x.sched.thread t).kernelStack.toNat + 4096 ≤ b →
      (x.setupStack words t).mem b = x.mem b := by
  have top : ((x.sched.thread t).kernelStack + 4096#64).toNat = (x.sched.thread t).kernelStack.toNat + 4096 :=
    toNat_up fits
  obtain ⟨ends,holds,outside⟩ := @pushWords_spec x.mem words ((x.sched.thread t).kernelStack + 4096#64) (by omega)
  rw [top] at ends holds outside
  refine ⟨_,rfl,by rw [ends]; omega,?_,fun b apart => outside b (by omega)⟩
  rw [ends]
  exact holds

end Reddyos
