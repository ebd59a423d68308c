import Reddyos.ThreadSwitch

/-! Threads that the timer interrupts: the runs of a machine with any number of them, what is left on the
stacks of those that do not run, and what happens when `schedule` picks one of them. -/
namespace Reddyos

open ByteMemory CallStack LinkedChain Transitions

inductive ThreadStart where
  | kernel (entry : U64)
  | user (entry stack : U64)
  deriving DecidableEq, Repr

def ThreadStart.entry : ThreadStart → U64
  | .kernel entry | .user entry _ => entry

/-- A tick carries the thread that it interrupts, with its registers, and the one that `schedule` picks. -/
inductive TaskEvent where
  | run
  | create (t : U64) (start : ThreadStart)
  | add (t : U64)
  | tick (left : U64) (before : Cpu) (picked : Option U64)

section

variable (boot : SwitchBoot)

def HasStack (x : Tasks) (t : U64) : Prop := (x.sched.thread t).kernelStack ≠ 0#64

def Owns (x : Tasks) (t : U64) : Prop := t = boot.bootstrapTask ∨ HasStack x t

def stackLow (x : Tasks) (t : U64) : Nat :=
  if t = boot.bootstrapTask then boot.bootStack.toNat else (x.sched.thread t).kernelStack.toNat

def stackSize (t : U64) : Nat := if t = boot.bootstrapTask then boot.bootStackSize else 4096

def OnStack (x : Tasks) (t : U64) (b : Nat) : Prop := stackLow boot x t ≤ b ∧ b < stackLow boot x t + stackSize boot t

def OnIrqStack (b : Nat) : Prop := boot.kernelIrqStack.toNat ≤ b ∧ b < boot.kernelIrqStack.toNat + 8192

/-- What the current thread may do between two interrupts: it changes the registers as it likes, but not
what the scheduler keeps, the stacks of other threads or that of the interrupts out of ring 3. -/
structure RunsAlone (x y : Tasks) : Prop where
  sched : y.sched = x.sched
  nextTid : y.nextTid = x.nextTid
  others : ∀ t, Owns boot x t → t ≠ x.sched.currentThread → ∀ b, OnStack boot x t b → y.mem b = x.mem b
  irqStack : ∀ b, OnIrqStack boot b → y.mem b = x.mem b

structure NewBlocks (x : Tasks) (t kernelStack : U64) : Prop where
  live : t ≠ 0#64 ∧ kernelStack ≠ 0#64
  thread : ¬Owns boot x t
  fits : kernelStack.toNat + 4096 < 2^64
  others : ∀ u, Owns boot x u → ∀ b, kernelStack.toNat ≤ b → b < kernelStack.toNat + 4096 → ¬OnStack boot x u b
  irqStack : ∀ b, kernelStack.toNat ≤ b → b < kernelStack.toNat + 4096 → ¬OnIrqStack boot b

/-- The interrupted code is in ring 3, or on its own stack with room for what the interrupt pushes. -/
def TickFits (x : Tasks) : Prop :=
  x.cpu.ring3 = true ∨ stackLow boot x x.sched.currentThread + 200 + boot.scratch ≤ x.cpu.rsp.toNat ∧
    x.cpu.rsp.toNat ≤ stackLow boot x x.sched.currentThread + stackSize boot x.sched.currentThread

/-- The call of `schedule` during a tick. -/
def tickSchedule (code : Compiled) (x : Tasks) : Except Stop (Option U64 × Scheduler) :=
  schedule boot.toSchedulerBoot (archSave boot code (irqEnter boot x.cpu x.mem)).1 x.sched

inductive TaskStep : Tasks → TaskEvent → Tasks → Prop where
  | run : RunsAlone boot x y → TaskStep x .run y
  | kernel : NewBlocks boot x t kernelStack → threadCreate boot t kernelStack entry x = (t,y) →
      TaskStep x (.create t (.kernel entry)) y
  | user : NewBlocks boot x t kernelStack → userThreadCreate boot t kernelStack (some process) x = (t,y) →
      TaskStep x (.create t (.user process.entryPoint process.rsp)) y
  | add : HasStack x t → (∀ threads, ThreadsListed x.sched threads → t ∉ threads) →
      schedulerAdd fuel t x.sched = .ok sched → TaskStep x (.add t) { x with sched := sched }
  | tick : TickFits boot x → tickSchedule boot code x = .ok (picked,sched) → timerTick boot code x = .ok y →
      TaskStep x (.tick x.sched.currentThread x.cpu picked) y

structure TasksStart (x : Tasks) : Prop where
  sched : SchedStart boot.toSchedulerBoot x.sched
  threads : ∀ t, x.sched.thread t = .zero

def Begins (y : Tasks) (t : U64) : ThreadStart → Prop
  | .kernel entry => y.cpu.rip = boot.taskBootstrap ∧ taskBootstrap y.sched (y.cpu.reg .rdi) = some (entry,0#64) ∧
      y.cpu.rsp.toNat = (y.sched.thread t).kernelStack.toNat + 4096 ∧ y.cpu.ring3 = false ∧ y.cpu.rflags.getLsbD 9
  | .user entry stack => y.cpu.rip = entry ∧ y.cpu.rsp = stack ∧ y.cpu.rflags = 0x202#64 ∧ y.cpu.ring3 = true

def Preempted (events : List TaskEvent) (t : U64) : Prop := ∃ before picked, .tick t before (some picked) ∈ events

/-- The registers of a thread when it was preempted last. -/
def LastLeft (events : List TaskEvent) (t : U64) (before : Cpu) : Prop :=
  ∃ earlier picked later, events = earlier ++ .tick t before (some picked) :: later ∧ ¬Preempted later t

/-- The frame of the interrupt that preempted `t` last is still there: it is on the stack of the thread itself,
or on the one stack for interrupts out of ring 3 and there was none of these since. -/
def FrameKept (events : List TaskEvent) (t : U64) (before : Cpu) : Prop :=
  ∃ earlier picked later, events = earlier ++ .tick t before (some picked) :: later ∧ ¬Preempted later t ∧
    (before.ring3 = true → ∀ left cpu picked, .tick left cpu picked ∈ later → cpu.ring3 = false)

/-- An interrupt of code with the registers `c` may pick `u`: it is new, or it was preempted, its frame is
still there, and the code behind the call of `arch_switch_thread` returns. -/
def PickOk (events : List TaskEvent) (c : Cpu) (u : U64) : Prop :=
  ¬Preempted events u ∨
    boot.returns = true ∧ ∃ before, FrameKept events u before ∧ (before.ring3 = true → c.ring3 = false)

def PicksOk (events : List TaskEvent) : Prop :=
  ∀ earlier left c u later, events = earlier ++ .tick left c (some u) :: later → PickOk boot earlier c u

/-- A thread that was preempted goes on where it was, and one that is picked for the first time begins. -/
def Continues (events : List TaskEvent) (t : U64) (y : Tasks) : Prop :=
  (∀ before, LastLeft events t before → y.cpu = before) ∧
    (¬Preempted events t → ∃ start, .create t start ∈ events ∧ Begins boot y t start)

end

def Started (events : List TaskEvent) (t : U64) : Prop := ∃ left before, .tick left before (some t) ∈ events

def TaskEvent.added : TaskEvent → Option U64
  | .add t => some t
  | _ => none

def addedTasks (events : List TaskEvent) : List U64 := events.filterMap TaskEvent.added

def threadFrame (boot : SwitchBoot) : ThreadStart → List U64
  | .kernel _ => [0#64,0#64,0#64,0#64,0#64,0#64,boot.threadEntryKernel,0#64,boot.taskBootstrap]
  | .user entry stack => [0#64,0#64,0#64,0#64,0#64,0#64,boot.threadEntryUser,entry,stack,0x202#64]

structure Ready (boot : SwitchBoot) (x : Tasks) (t : U64) (start : ThreadStart) : Prop where
  stack : (x.sched.thread t).rsp.toNat + 8 * (threadFrame boot start).length = (x.sched.thread t).kernelStack.toNat + 4096
  words : Holds x.mem (x.sched.thread t).rsp.toNat (threadFrame boot start)
  entry : (x.sched.thread t).entry = start.entry

def FramePlace (boot : SwitchBoot) (x : Tasks) (t : U64) (c : Cpu) (b : Nat) : Prop :=
  if c.ring3 then OnIrqStack boot b else OnStack boot x t b

/-- What a switch has left of `t`: its frame, and below it the way back into `schedule`. -/
structure Left (boot : SwitchBoot) (x : Tasks) (t : U64) (before : Cpu) : Prop where
  room : 184 + boot.scratch ≤ frameEnd boot before
  saved : (x.sched.thread t).rsp.toNat + savedDepth boot = frameEnd boot before
  returns : load64 x.mem ((x.sched.thread t).rsp.toNat + 48) = boot.afterSwitch
  frame : Holds x.mem (frameEnd boot before - 184) (irqWords boot before).reverse
  place : ∀ b, ¬FramePlace boot x t before b →
    b < frameEnd boot before - (184 + boot.scratch) ∨ frameEnd boot before ≤ b

structure StacksOk (boot : SwitchBoot) (x : Tasks) : Prop where
  fits : ∀ t, HasStack x t → t ≠ 0#64 ∧ t ≠ boot.bootstrapTask ∧ (x.sched.thread t).kernelStack.toNat + 4096 < 2^64
  irqApart : ∀ t b, Owns boot x t → OnStack boot x t b → ¬OnIrqStack boot b
  apart : ∀ t u b, t ≠ u → Owns boot x t → Owns boot x u → OnStack boot x t b → ¬OnStack boot x u b

structure TasksInv (boot : SwitchBoot) (events : List TaskEvent) (x : Tasks) : Prop where
  sched : SchedInv boot.toSchedulerBoot (addedTasks events) x.sched
  unlinked : ∀ t ∉ addedTasks events, (x.sched.thread t).next = 0#64
  stacksOk : StacksOk boot x
  listed : ∀ t ∈ addedTasks events, HasStack x t
  created : ∀ t, HasStack x t ↔ ∃ start, .create t start ∈ events
  picked : ∀ t, Started events t → t ∈ addedTasks events
  running : x.sched.currentThread = boot.bootstrapTask ∨ Started events x.sched.currentThread
  preempted : ∀ t, Preempted events t → t = boot.bootstrapTask ∨ Started events t
  left : ∀ t, Started events t → t ≠ x.sched.currentThread →
    Preempted events t ∧ ∀ before, FrameKept events t before → Left boot x t before
  ready : ∀ t start, .create t start ∈ events → ¬Started events t → Ready boot x t start

variable {boot : SwitchBoot} {code : Compiled} {x y : Tasks} {t u : U64} {start : ThreadStart} {e : TaskEvent}
variable {events : List TaskEvent} {picked : Option U64} {sched : Scheduler} {b : Nat} {c before before' : Cpu}

@[simp] theorem addedTasks_snoc : addedTasks (events ++ [e]) = addedTasks events ++ e.added.toList := by
  cases added : e.added <;> simp [addedTasks,List.filterMap_append,added]

theorem started_snoc : Started (events ++ [e]) t ↔ Started events t ∨ ∃ left before, e = .tick left before (some t) := by
  simp only [Started,List.mem_append,List.mem_singleton,exists_or,eq_comm]

theorem preempted_snoc : Preempted (events ++ [e]) t ↔
    Preempted events t ∨ ∃ before picked, e = .tick t before (some picked) := by
  simp only [Preempted,List.mem_append,List.mem_singleton,exists_or,eq_comm]

theorem FrameKept.lastLeft (kept : FrameKept events t before) : LastLeft events t before := by
  obtain ⟨earlier,picked,later,split,none,_⟩ := kept
  exact ⟨earlier,picked,later,split,none⟩

theorem LastLeft.preempted (last : LastLeft events t before) : Preempted events t := by
  obtain ⟨earlier,picked,later,rfl,_⟩ := last
  exact ⟨before,picked,by simp⟩

/-- Of two events of a run one is the later, if they are not the same. -/
theorem split_twice {e e' : TaskEvent} {first rest first' rest' : List TaskEvent}
    (same : first ++ e :: rest = first' ++ e' :: rest') : e' ∈ rest ∨ e ∈ rest' ∨ e = e' := by
  rcases List.append_eq_append_iff.mp same with ⟨more,_,tail⟩ | ⟨more,_,tail⟩
  · cases more with
    | nil =>
      rw [List.nil_append] at tail
      exact .inr (.inr (List.cons.inj tail).1)
    | cons first more =>
      obtain ⟨_,rfl⟩ := List.cons.inj tail
      exact .inl (by simp)
  · cases more with
    | nil =>
      rw [List.nil_append] at tail
      exact .inr (.inr (List.cons.inj tail).1.symm)
    | cons first more =>
      obtain ⟨_,rfl⟩ := List.cons.inj tail
      exact .inr (.inl (by simp))

theorem LastLeft.unique (first : LastLeft events t before) (second : LastLeft events t before') : before = before' := by
  obtain ⟨_,picked,later,rfl,none⟩ := first
  obtain ⟨_,picked',later',same,none'⟩ := second
  rcases split_twice same with later | later | equal
  · exact absurd ⟨_,_,later⟩ none
  · exact absurd ⟨_,_,later⟩ none'
  · exact (TaskEvent.tick.inj equal).2.1

/-- The stack for interrupts out of ring 3 holds one frame at a time. -/
theorem FrameKept.one_user (first : FrameKept events t before) (second : FrameKept events u before')
    (user : before.ring3 = true) (user' : before'.ring3 = true) : t = u := by
  obtain ⟨_,picked,later,rfl,_,quiet⟩ := first
  obtain ⟨_,picked',later',same,_,quiet'⟩ := second
  rcases split_twice same with later | later | equal
  · rw [quiet user _ _ _ later] at user'
    cases user'
  · rw [quiet' user' _ _ _ later] at user
    cases user
  · exact (TaskEvent.tick.inj equal).1

theorem frameKept_snoc (kept : FrameKept (events ++ [e]) t before) : (∃ picked, e = .tick t before (some picked)) ∨
    FrameKept events t before ∧ (∀ c picked, e ≠ .tick t c (some picked)) ∧
      (before.ring3 = true → ∀ left c picked, e = .tick left c picked → c.ring3 = false) := by
  obtain ⟨earlier,picked,later,split,none,quiet⟩ := kept
  rcases List.eq_nil_or_concat later with rfl | ⟨rest,last,rfl⟩
  · exact .inl ⟨picked,(List.append_singleton_inj.mp split).2⟩
  · rw [List.concat_eq_append,← List.cons_append,← List.append_assoc] at split
    obtain ⟨rfl,rfl⟩ := List.append_singleton_inj.mp split
    rw [List.concat_eq_append] at none quiet
    refine .inr ⟨⟨earlier,picked,rest,rfl,fun ⟨c,p,listed⟩ => none ⟨c,p,List.mem_append_left _ listed⟩,
      fun user left c p listed => quiet user left c p (List.mem_append_left _ listed)⟩,fun c p same => ?_,
      fun user left c p same => ?_⟩
    · exact none ⟨c,p,by simp [same]⟩
    · exact quiet user left c p (by simp [same])

theorem frameKept_older (kept : FrameKept (events ++ [e]) t before) (silent : ∀ c picked, e ≠ .tick t c (some picked)) :
    FrameKept events t before := by
  rcases frameKept_snoc kept with ⟨picked,same⟩ | ⟨older,_⟩
  · exact absurd same (silent before picked)
  · exact older

theorem picksOk_snoc : PicksOk boot (events ++ [e]) ↔
    PicksOk boot events ∧ ∀ left c u, e = .tick left c (some u) → PickOk boot events c u := by
  refine ⟨fun picks => ⟨?_,?_⟩,fun ⟨before,last⟩ earlier left c u later split => ?_⟩
  · rintro earlier left c u later rfl
    exact picks earlier left c u (later ++ [e]) (by simp)
  · rintro left c u rfl
    exact picks events left c u [] rfl
  · rcases List.eq_nil_or_concat later with rfl | ⟨rest,final,rfl⟩
    · obtain ⟨rfl,same⟩ := List.append_singleton_inj.mp split
      exact last left c u same
    · rw [List.concat_eq_append,← List.cons_append,← List.append_assoc] at split
      obtain ⟨rfl,rfl⟩ := List.append_singleton_inj.mp split
      exact before earlier left c u rest rfl

structure Untouched (boot : SwitchBoot) (x y : Tasks) (t : U64) : Prop where
  rsp : (y.sched.thread t).rsp = (x.sched.thread t).rsp
  kernelStack : (y.sched.thread t).kernelStack = (x.sched.thread t).kernelStack
  entry : (y.sched.thread t).entry = (x.sched.thread t).entry
  mem : ∀ b, OnStack boot x t b → y.mem b = x.mem b

theorem onStack_congr (same : (y.sched.thread t).kernelStack = (x.sched.thread t).kernelStack) :
    OnStack boot y t b ↔ OnStack boot x t b := by
  simp only [OnStack,stackLow,same]

theorem onStack_iff (other : t ≠ boot.bootstrapTask) : OnStack boot x t b ↔
    (x.sched.thread t).kernelStack.toNat ≤ b ∧ b < (x.sched.thread t).kernelStack.toNat + 4096 := by
  simp only [OnStack,stackLow,stackSize,if_neg other]

theorem Ready.frame (ready : Ready boot x t start) (other : t ≠ boot.bootstrapTask) (same : Untouched boot x y t) :
    Ready boot y t start where
  stack := by
    rw [same.rsp,same.kernelStack]
    exact ready.stack
  words := by
    rw [same.rsp]
    have stack := ready.stack
    have short : 8 * (threadFrame boot start).length ≤ 4096 := by
      cases start <;> simp [threadFrame]
    exact ready.words.congr fun b low high => same.mem b ((onStack_iff other).mpr (by omega))
  entry := same.entry.trans ready.entry

/-- What was left stays as long as its stack does. -/
theorem Left.keep (left : Left boot x t before) (rsp : (y.sched.thread t).rsp = (x.sched.thread t).rsp)
    (stack : (y.sched.thread t).kernelStack = (x.sched.thread t).kernelStack)
    (mem : ∀ b, FramePlace boot x t before b → y.mem b = x.mem b) (nested : boot.depth + 56 ≤ boot.scratch) :
    Left boot y t before := by
  obtain ⟨room,saved,returns,frame,place⟩ := left
  have inside : ∀ b, frameEnd boot before - (184 + boot.scratch) ≤ b → b < frameEnd boot before →
      y.mem b = x.mem b := by
    intro b low high
    refine mem b ?_
    by_contra apart
    have outside := place b apart
    omega
  unfold savedDepth at saved
  refine ⟨room,by rw [rsp]; exact saved,?_,?_,?_⟩
  · rw [rsp,load64_congr fun i bound => inside _ (by omega) (by omega)]
    exact returns
  · have count : (irqWords boot before).reverse.length = 23 := rfl
    exact frame.congr fun b low high => inside b (by omega) (by omega)
  · intro b apart
    refine place b fun here => apart ?_
    unfold FramePlace at here ⊢
    rwa [onStack_congr stack]

theorem StacksOk.congr (stacksOk : StacksOk boot x)
    (same : ∀ t, (y.sched.thread t).kernelStack = (x.sched.thread t).kernelStack) : StacksOk boot y := by
  have has : ∀ t, HasStack y t ↔ HasStack x t := fun t => by simp only [HasStack,same]
  have owns : ∀ t, Owns boot y t ↔ Owns boot x t := fun t => by simp only [Owns,has]
  have on : ∀ t b, OnStack boot y t b ↔ OnStack boot x t b := fun t b => onStack_congr (same t)
  refine ⟨fun t mine => ?_,fun t b mine => ?_,fun t u b other mine yours => ?_⟩
  · rw [same]
    exact stacksOk.fits t ((has t).mp mine)
  · rw [on]
    exact stacksOk.irqApart t b ((owns t).mp mine)
  · rw [on,on]
    exact stacksOk.apart t u b other ((owns t).mp mine) ((owns u).mp yours)

theorem SwitchOk.rsp0 (ok : SwitchOk boot) : boot.rsp0.toNat = boot.kernelIrqStack.toNat + 8192 :=
  toNat_up ok.irqFits

/-- A tick writes to the stack that the interrupt is taken on, and to no other. -/
def TickPlace (boot : SwitchBoot) (x : Tasks) (b : Nat) : Prop := FramePlace boot x x.sched.currentThread x.cpu b

theorem TickFits.place (ok : SwitchOk boot) (fits : TickFits boot x) : 184 + boot.scratch ≤ frameEnd boot x.cpu ∧
    ∀ b, ¬TickPlace boot x b → b < frameEnd boot x.cpu - (184 + boot.scratch) ∨ frameEnd boot x.cpu ≤ b := by
  have ends : frameEnd boot x.cpu = (if x.cpu.ring3 then boot.rsp0 else x.cpu.rsp).toNat / 16 * 16 :=
    Cpu.interruptStack_toNat
  have room := ok.irqRoom
  have top := ok.rsp0
  rcases Bool.eq_false_or_eq_true x.cpu.ring3 with user | kernel
  · rw [if_pos user] at ends
    simp only [TickPlace,FramePlace,OnIrqStack,if_pos user]
    exact ⟨by omega,fun b apart => by omega⟩
  · have kernel : ¬x.cpu.ring3 = true := by simp [kernel]
    rw [if_neg kernel] at ends
    obtain ⟨low,high⟩ := fits.resolve_left kernel
    simp only [TickPlace,FramePlace,OnStack,if_neg kernel]
    exact ⟨by omega,fun b apart => by omega⟩

/-- Others keep what they have when the tick leaves their fields. -/
theorem Untouched.ticked (stacksOk : StacksOk boot x) (ok : SwitchOk boot) (fits : TickFits boot x)
    (mem : ∀ b, b < frameEnd boot x.cpu - (184 + boot.scratch) ∨ frameEnd boot x.cpu ≤ b → y.mem b = x.mem b)
    (thread : y.sched.thread t = x.sched.thread t) (running : Owns boot x x.sched.currentThread)
    (mine : Owns boot x t) (other : t ≠ x.sched.currentThread) : Untouched boot x y t := by
  refine ⟨by rw [thread],by rw [thread],by rw [thread],fun b on => mem b ((fits.place ok).2 b fun place => ?_)⟩
  unfold TickPlace FramePlace at place
  split at place
  · exact stacksOk.irqApart t b mine on place
  · exact stacksOk.apart t _ b other mine running on place

def parked (boot : SwitchBoot) (code : Compiled) (x : Tasks) (sched : Scheduler) : Tasks :=
  { x with mem := (archSave boot code (irqEnter boot x.cpu x.mem)).2, sched := sched }

/-- A tick that does not switch threads is not noticed by the thread. -/
theorem timerTick_none (ok : SwitchOk boot) (fits : TickFits boot x)
    (schedules : tickSchedule boot code x = .ok (none,sched)) : timerTick boot code x =
      .ok { x with mem := handlerMem boot code (irqEnter boot x.cpu x.mem), sched := sched } := by
  have back : irqLeave (handlerMem boot code (irqEnter boot x.cpu x.mem)) { x.cpu.handler with
      reg := code.reg, rflags := code.rflags, rsp := (irqEnter boot x.cpu x.mem).1 + 8#64 } = x.cpu :=
    irqLeave_spec (fits.place ok).1 _ rfl
  unfold tickSchedule at schedules
  unfold timerTick
  dsimp only
  rw [schedules]
  change Except.ok { x with cpu := irqLeave _ _, mem := _, sched := sched } = _
  rw [back]

theorem timerTick_some (schedules : tickSchedule boot code x = .ok (some u,sched)) : timerTick boot code x =
    (archRestore boot code (parked boot code x sched).mem
      { x.cpu.handler with reg := code.reg, rflags := code.rflags, rsp := (sched.thread u).rsp }).map
      fun restored => { parked boot code x sched with cpu := restored.1, mem := restored.2 } := by
  unfold tickSchedule at schedules
  unfold timerTick
  dsimp only
  rw [schedules]
  unfold parked
  simp only [bind,Except.bind]
  split
  · rename_i stopped
    rw [stopped]
    rfl
  · rename_i returned
    rw [returned]
    rfl

end Reddyos
