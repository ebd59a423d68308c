import Reddyos.ThreadSwitch

/-! What a thread keeps in the processor besides its registers and its stack: the floating-point unit, the
base of `fs` and the root of the tables. Sources: `scheduler/scheduler.c`, `scheduler/thread.c`,
`scheduler/thread.asm`, `init/fpu.c` and `syscalls/arch/arch.c`. Where the switch leads on the stack of the
next thread does not matter here. -/
namespace Reddyos

open LinkedChain Transitions

/-- What `fxsave` stores and `fxrstor` loads. -/
abbrev FpuState := BitVec 4096

/-- The number of `ARCH_SET_FS` and the `EINVAL` of the C library, and what `fpu_init` has saved. -/
structure ContextBoot extends SwitchBoot where
  archSetFs : U64
  einval : U64
  fpuDefaultState : FpuState

/-- `fpuState` is the field of each `thread_t`, and `fpu` the unit itself. -/
structure Contexts extends Tasks where
  fpuState : U64 → FpuState
  fpu : FpuState

def switchThreadFs (thread : U64) (s : Scheduler) : Scheduler := { s with fsBase := (s.thread thread).fsBase }

def doSysArchPrctl (boot : ContextBoot) (cmd pointer : U64) (s : Scheduler) : U64 × Scheduler :=
  if cmd = boot.archSetFs then
    if pointer = 0#64 then (-boot.einval,s)
    else
      let s := s.setThread s.currentThread { s.thread s.currentThread with fsBase := pointer }
      (0#64,switchThreadFs s.currentThread s)
  else (-boot.einval,s)

/-- `schedule`, with `fxsave` and `fxrstor` in `arch_switch_thread`. -/
def scheduleContexts (boot : ContextBoot) (rsp : U64) (x : Contexts) : Except Stop (Option U64 × Contexts) := do
  let (picked,sched) ← schedule boot.toSchedulerBoot rsp x.sched
  match picked with
  | none => return (none,{ x with sched := sched })
  | some next =>
    let fpuState := Function.update x.fpuState x.sched.currentThread x.fpu
    return (some next,{ x with sched := sched, fpuState := fpuState, fpu := fpuState next })

/-- A new thread from `thread_create` or `user_thread_create`, whose `thread_create_base` copies the default
state. -/
def ThreadMade (boot : ContextBoot) (t : U64) (x y : Contexts) : Prop :=
  ((∃ kernelStack entry, threadCreate boot.toSwitchBoot t kernelStack entry x.toTasks = (t,y.toTasks)) ∨
    ∃ kernelStack process, userThreadCreate boot.toSwitchBoot t kernelStack process x.toTasks = (t,y.toTasks)) ∧
    y.fpuState = Function.update x.fpuState t boot.fpuDefaultState ∧ y.fpu = x.fpu

/-- What a thread does carries its address. -/
inductive ContextEvent where
  | compute (t : U64) (fpu : FpuState)
  | archPrctl (t cmd pointer : U64)
  | add (t : U64)
  | schedule (picked : Option U64)
  deriving DecidableEq

/-- Threads use their own registers and stacks as they like, and the unit; `fs` they do not load. -/
inductive ContextStep (boot : ContextBoot) : Contexts → ContextEvent → Contexts → Prop where
  | compute {x : Contexts} {cpu : Cpu} {mem : ByteMemory.Mem} {fpu : FpuState} :
      ContextStep boot x (.compute x.sched.currentThread fpu) { x with cpu := cpu, mem := mem, fpu := fpu }
  | archPrctl {x : Contexts} {cmd pointer : U64} : ContextStep boot x (.archPrctl x.sched.currentThread cmd pointer)
      { x with sched := (doSysArchPrctl boot cmd pointer x.sched).2 }
  | add {x y : Contexts} {t : U64} {fuel : Nat} {sched : Scheduler} : t ≠ 0#64 → t ≠ boot.bootstrapTask →
      (∀ threads, ThreadsListed x.sched threads → t ∉ threads) → ThreadMade boot t x y →
      schedulerAdd fuel t y.sched = .ok sched → ContextStep boot x (.add t) { y with sched := sched }
  | schedule {x y : Contexts} {rsp : U64} {picked : Option U64} :
      scheduleContexts boot rsp x = .ok (picked,y) → ContextStep boot x (.schedule picked) y

/-- The kernel's tables are loaded. -/
def ContextStart (boot : ContextBoot) (x : Contexts) : Prop :=
  SchedStart boot.toSchedulerBoot x.sched ∧ x.sched.cr3 = boot.kernelCr3

/-- The unit and the base of `fs` as a thread expects them. -/
@[ext] structure ThreadContext where
  fpu : FpuState
  fsBase : U64

/-- Only what the thread does itself counts. -/
def ContextEvent.apply (boot : ContextBoot) (t : U64) (c : ThreadContext) : ContextEvent → ThreadContext
  | .compute u fpu => if u = t then { c with fpu := fpu } else c
  | .archPrctl u cmd pointer =>
    if u = t ∧ cmd = boot.archSetFs ∧ pointer ≠ 0#64 then { c with fsBase := pointer } else c
  | .add _ | .schedule _ => c

def contextOf (boot : ContextBoot) (t : U64) (events : List ContextEvent) : ThreadContext :=
  events.foldl (ContextEvent.apply boot t) ⟨boot.fpuDefaultState,0#64⟩

def ContextEvent.added : ContextEvent → Option U64
  | .add t => some t
  | _ => none

def addedContexts (events : List ContextEvent) : List U64 := events.filterMap ContextEvent.added

variable {boot : ContextBoot} {x y : Contexts} {t u : U64} {e : ContextEvent} {events : List ContextEvent}
variable {sched : Scheduler} {picked : Option U64} {rsp : U64}

@[simp] theorem contextOf_snoc : contextOf boot t (events ++ [e]) = e.apply boot t (contextOf boot t events) := by
  simp [contextOf]

theorem addedContexts_snoc : addedContexts (events ++ [e]) = addedContexts events ++ e.added.toList := by
  cases added : e.added <;> simp [addedContexts,List.filterMap_append,added]

def FreshThread (t : U64) (s s' : Scheduler) : Prop :=
  ∃ created : Thread, created.next = 0#64 ∧ created.fsBase = 0#64 ∧ s' = s.setThread t created

theorem FreshThread.set {s : Scheduler} {z : Tasks} {thread : Thread} (fresh : FreshThread t s z.sched)
    (next : thread.next = (z.sched.thread t).next) (fsBase : thread.fsBase = (z.sched.thread t).fsBase) :
    FreshThread t s (z.setThread t thread).sched := by
  obtain ⟨created,ends,zero,same⟩ := fresh
  simp only [same,Scheduler.setThread,Function.update_self] at next fsBase
  exact ⟨thread,next.trans ends,fsBase.trans zero,by simp [Tasks.setThread,Scheduler.setThread,same]⟩

theorem FreshThread.setupStack {s : Scheduler} {z : Tasks} (fresh : FreshThread t s z.sched) (words : List U64) :
    FreshThread t s (z.setupStack words t).sched := fresh.set rfl rfl

theorem threadCreateBase_fresh {z z' : Tasks} {kernelStack entry t' : U64}
    (creates : threadCreateBase t kernelStack entry z = (t',z')) : t' = 0#64 ∨ FreshThread t z.sched z'.sched ∧ t' = t := by
  unfold threadCreateBase at creates
  split at creates
  · exact .inl (Prod.mk.inj creates).1.symm
  · dsimp only at creates
    split at creates
    · exact .inl (Prod.mk.inj creates).1.symm
    · obtain ⟨same,rfl⟩ := Prod.mk.inj creates
      refine .inr ⟨⟨⟨0#64,kernelStack,0#64,z.nextTid,entry,none,0#64,0#64⟩,rfl,rfl,?_⟩,same.symm⟩
      simp [Tasks.setThread,Scheduler.setThread,Thread.zero]

theorem ThreadMade.fresh (live : t ≠ 0#64) (made : ThreadMade boot t x y) : FreshThread t x.sched y.sched := by
  obtain ⟨⟨kernelStack,entry,creates⟩ | ⟨kernelStack,process,creates⟩,_⟩ := made
  · unfold threadCreate at creates
    obtain ⟨t',z,base⟩ : ∃ t' z, threadCreateBase t kernelStack entry x.toTasks = (t',z) := ⟨_,_,rfl⟩
    rw [base] at creates
    dsimp only at creates
    rcases threadCreateBase_fresh base with none | ⟨fresh,rfl⟩
    · rw [if_pos none] at creates
      exact absurd (Prod.mk.inj creates).1.symm live
    · rw [if_neg live] at creates
      rw [← (Prod.mk.inj creates).2]
      exact fresh.setupStack _
  · unfold userThreadCreate at creates
    cases process with
    | none => exact absurd (Prod.mk.inj creates).1.symm live
    | some process =>
      obtain ⟨t',z,base⟩ : ∃ t' z, threadCreateBase t kernelStack process.entryPoint x.toTasks = (t',z) := ⟨_,_,rfl⟩
      dsimp only at creates
      rw [base] at creates
      dsimp only at creates
      rcases threadCreateBase_fresh base with none | ⟨fresh,rfl⟩
      · rw [if_pos none] at creates
        exact absurd (Prod.mk.inj creates).1.symm live
      · rw [if_neg live] at creates
        rw [← (Prod.mk.inj creates).2]
        refine (FreshThread.set fresh ?_ ?_).setupStack _ <;> rfl

structure ContextsInv (boot : ContextBoot) (events : List ContextEvent) (x : Contexts) : Prop where
  sched : SchedInv boot.toSchedulerBoot (addedContexts events) x.sched
  parked : ∀ t ∈ addedContexts events, t ≠ x.sched.currentThread → x.fpuState t = (contextOf boot t events).fpu
  fsBase : ∀ t ∈ addedContexts events, (x.sched.thread t).fsBase = (contextOf boot t events).fsBase
  running : x.sched.currentThread ≠ boot.bootstrapTask → x.fpu = (contextOf boot x.sched.currentThread events).fpu ∧
    x.sched.fsBase = (x.sched.thread x.sched.currentThread).fsBase
  cr3 : x.sched.cr3 = (x.sched.thread x.sched.currentThread).process.getD boot.kernelCr3
  unseen : ∀ t ∉ addedContexts events, t ≠ boot.bootstrapTask → contextOf boot t events = ⟨boot.fpuDefaultState,0#64⟩

theorem SchedInv.congr {boot : SchedulerBoot} {threads : List U64} {s s' : Scheduler} (inv : SchedInv boot threads s)
    (links : ∀ t, (s'.thread t).next = (s.thread t).next) (list : s'.threadList = s.threadList)
    (current : s'.currentThread = s.currentThread) : SchedInv boot threads s' := by
  refine ⟨?_,inv.nodup,⟨inv.bootstrap.1,inv.bootstrap.2.1,(links _).trans inv.bootstrap.2.2⟩,current ▸ inv.current⟩
  unfold ThreadsListed
  rw [list]
  exact inv.listed.frame fun t _ => links t

theorem ContextsInv.absent (inv : ContextsInv boot events x) (absent : t ∉ addedContexts events)
    (notBoot : t ≠ boot.bootstrapTask) : t ≠ x.sched.currentThread := by
  rintro rfl
  exact inv.sched.current.elim notBoot absent

theorem ContextsInv.compute (inv : ContextsInv boot events x) {cpu : Cpu} {mem : ByteMemory.Mem} {fpu : FpuState} :
    ContextsInv boot (events ++ [.compute x.sched.currentThread fpu]) { x with cpu := cpu, mem := mem, fpu := fpu } := by
  have added : addedContexts (events ++ [.compute x.sched.currentThread fpu]) = addedContexts events := by
    simp [addedContexts_snoc,ContextEvent.added]
  have other : ∀ t, t ≠ x.sched.currentThread →
      contextOf boot t (events ++ [.compute x.sched.currentThread fpu]) = contextOf boot t events := by
    intro t other
    rw [contextOf_snoc,ContextEvent.apply,if_neg other.symm]
  have fsBase : ∀ t, (contextOf boot t (events ++ [.compute x.sched.currentThread fpu])).fsBase =
      (contextOf boot t events).fsBase := by
    intro t
    rw [contextOf_snoc,ContextEvent.apply]
    split <;> rfl
  constructor
  case sched => exact added ▸ inv.sched
  case parked =>
    rw [added]
    intro t member apart
    rw [other t apart]
    exact inv.parked t member apart
  case fsBase =>
    rw [added]
    intro t member
    rw [fsBase]
    exact inv.fsBase t member
  case running =>
    intro notBoot
    refine ⟨?_,(inv.running notBoot).2⟩
    rw [contextOf_snoc,ContextEvent.apply,if_pos rfl]
  case cr3 => exact inv.cr3
  case unseen =>
    rw [added]
    intro t absent notBoot
    rw [other t (inv.absent absent notBoot)]
    exact inv.unseen t absent notBoot

theorem doSysArchPrctl_cases {cmd pointer : U64} {s : Scheduler} :
    ((doSysArchPrctl boot cmd pointer s).2 = s ∧ ¬(cmd = boot.archSetFs ∧ pointer ≠ 0#64)) ∨
      (cmd = boot.archSetFs ∧ pointer ≠ 0#64) ∧ (doSysArchPrctl boot cmd pointer s).2 =
        { s.setThread s.currentThread { s.thread s.currentThread with fsBase := pointer } with fsBase := pointer } := by
  unfold doSysArchPrctl
  by_cases known : cmd = boot.archSetFs
  · rw [if_pos known]
    by_cases null : pointer = 0#64
    · rw [if_pos null]
      exact .inl ⟨rfl,fun both => both.2 null⟩
    · rw [if_neg null]
      refine .inr ⟨⟨known,null⟩,?_⟩
      simp [switchThreadFs,Scheduler.setThread]
  · rw [if_neg known]
    exact .inl ⟨rfl,fun both => known both.1⟩

theorem ContextsInv.archPrctl (inv : ContextsInv boot events x) (cmd pointer : U64) :
    ContextsInv boot (events ++ [.archPrctl x.sched.currentThread cmd pointer])
      { x with sched := (doSysArchPrctl boot cmd pointer x.sched).2 } := by
  have added : addedContexts (events ++ [.archPrctl x.sched.currentThread cmd pointer]) = addedContexts events := by
    simp [addedContexts_snoc,ContextEvent.added]
  have fpu : ∀ t, (contextOf boot t (events ++ [.archPrctl x.sched.currentThread cmd pointer])).fpu =
      (contextOf boot t events).fpu := by
    intro t
    rw [contextOf_snoc,ContextEvent.apply]
    split <;> rfl
  have other : ∀ t, t ≠ x.sched.currentThread →
      contextOf boot t (events ++ [.archPrctl x.sched.currentThread cmd pointer]) = contextOf boot t events := by
    intro t other
    rw [contextOf_snoc,ContextEvent.apply,if_neg fun same => other same.1.symm]
  have unseen : ∀ t ∉ addedContexts events, t ≠ boot.bootstrapTask →
      contextOf boot t (events ++ [.archPrctl x.sched.currentThread cmd pointer]) = ⟨boot.fpuDefaultState,0#64⟩ := by
    intro t absent notBoot
    rw [other t (inv.absent absent notBoot)]
    exact inv.unseen t absent notBoot
  rcases @doSysArchPrctl_cases boot cmd pointer x.sched with ⟨same,fails⟩ | ⟨sets,same⟩
  · rw [same]
    have nothing : ∀ t, contextOf boot t (events ++ [.archPrctl x.sched.currentThread cmd pointer]) =
        contextOf boot t events := by
      intro t
      rw [contextOf_snoc,ContextEvent.apply,if_neg fun all => fails all.2]
    constructor
    case sched => exact added ▸ inv.sched
    case parked => simpa only [added,nothing] using inv.parked
    case fsBase => simpa only [added,nothing] using inv.fsBase
    case running => simpa only [nothing] using inv.running
    case cr3 => exact inv.cr3
    case unseen => exact added ▸ unseen
  · rw [same]
    constructor
    case sched =>
      rw [added]
      refine inv.sched.congr (fun t => ?_) rfl rfl
      by_cases here : t = x.sched.currentThread
      · subst here
        simp [Scheduler.setThread]
      · simp [Scheduler.setThread,here]
    case parked =>
      rw [added]
      intro t member apart
      rw [fpu]
      exact inv.parked t member apart
    case fsBase =>
      rw [added]
      intro t member
      by_cases here : t = x.sched.currentThread
      · subst here
        rw [contextOf_snoc,ContextEvent.apply,if_pos ⟨rfl,sets⟩]
        simp [Scheduler.setThread]
      · rw [other t here,← inv.fsBase t member]
        simp [Scheduler.setThread,here]
    case running =>
      intro notBoot
      rw [fpu]
      exact ⟨(inv.running notBoot).1,by simp [Scheduler.setThread]⟩
    case cr3 => simpa [Scheduler.setThread] using inv.cr3
    case unseen => exact added ▸ unseen

theorem schedulerAdd_registers {fuel : Nat} {s next : Scheduler} (returns : schedulerAdd fuel t s = .ok next) :
    next.fsBase = s.fsBase ∧ next.cr3 = s.cr3 := by
  unfold schedulerAdd at returns
  split at returns
  · obtain rfl := Except.ok.inj returns
    exact ⟨rfl,rfl⟩
  · obtain ⟨last,_,returns⟩ := ok_of_bind returns
    obtain rfl := Except.ok.inj returns
    exact ⟨rfl,rfl⟩

theorem ContextsInv.add {fuel : Nat} (inv : ContextsInv boot events x) (live : t ≠ 0#64) (notBoot : t ≠ boot.bootstrapTask)
    (new : ∀ threads, ThreadsListed x.sched threads → t ∉ threads) (made : ThreadMade boot t x y)
    (adds : schedulerAdd fuel t y.sched = .ok sched) : ContextsInv boot (events ++ [.add t]) { y with sched := sched } := by
  obtain ⟨created,ends,zero,same⟩ := made.fresh live
  obtain ⟨image,unit⟩ := made.2
  have unlisted : t ∉ addedContexts events := new _ inv.sched.listed
  rw [same] at adds
  have step : SchedStep boot.toSchedulerBoot x.sched (.add t) sched := .add live notBoot new ends adds
  obtain ⟨inv',current,_⟩ := inv.sched.step step
  have current : sched.currentThread = x.sched.currentThread := current rfl
  obtain ⟨msr,cr3⟩ := schedulerAdd_registers adds
  have apart : x.sched.currentThread ≠ t := (inv.absent unlisted notBoot).symm
  have kept : ∀ u, (sched.thread u).fsBase = ((x.sched.setThread t created).thread u).fsBase ∧
      (sched.thread u).process = ((x.sched.setThread t created).thread u).process := by
    obtain ⟨last,link,threads⟩ := schedulerAdd_kept adds
    intro u
    rw [threads]
    by_cases here : u = last
    · subst here
      simp
    · simp [here]
  have others : ∀ u ≠ t, (sched.thread u).fsBase = (x.sched.thread u).fsBase ∧
      (sched.thread u).process = (x.sched.thread u).process := by
    intro u other
    simpa [Scheduler.setThread,other] using kept u
  have added : addedContexts (events ++ [.add t]) = addedContexts events ++ [t] := by
    simp [addedContexts_snoc,ContextEvent.added]
  have silent : ∀ u, contextOf boot u (events ++ [.add t]) = contextOf boot u events := fun u => contextOf_snoc
  have begins := inv.unseen t unlisted notBoot
  constructor
  case sched =>
    rw [added]
    exact inv'
  case parked =>
    rw [added,current]
    intro u member other
    change y.fpuState u = _
    rw [silent,image]
    by_cases here : u = t
    · subst here
      rw [begins,Function.update_self]
    · rw [Function.update_of_ne here]
      exact inv.parked u ((List.mem_append.mp member).resolve_right fun last => here (List.mem_singleton.mp last)) other
  case fsBase =>
    rw [added]
    intro u member
    rw [silent]
    by_cases here : u = t
    · subst here
      rw [begins,(kept u).1]
      simpa [Scheduler.setThread] using zero
    · rw [(others u here).1]
      exact inv.fsBase u ((List.mem_append.mp member).resolve_right fun last => here (List.mem_singleton.mp last))
  case running =>
    dsimp only
    rw [current,silent,msr,(others _ apart).1,unit]
    exact inv.running
  case cr3 =>
    dsimp only
    rw [current,cr3,(others _ apart).2]
    exact inv.cr3
  case unseen =>
    rw [added]
    intro u absent
    rw [silent]
    exact inv.unseen u fun member => absent (List.mem_append_left _ member)

/-- The registers after `schedule` are those of the thread that it picks. -/
theorem schedule_registers {boot : SchedulerBoot} {s next : Scheduler} (returns : schedule boot rsp s = .ok (some t,next)) :
    next.fsBase = (s.thread t).fsBase ∧ next.cr3 = (s.thread t).process.getD boot.kernelCr3 := by
  unfold schedule at returns
  split at returns
  · cases returns
  · dsimp only at returns
    generalize (if (s.thread s.currentThread).next ≠ 0#64 then (s.thread s.currentThread).next
      else s.threadList) = u at returns
    split at returns
    · cases returns
    · generalize root : (s.thread u).process.getD boot.kernelCr3 = target at returns
      generalize (if target ≠ 0#64 ∧ target ≠ s.cr3 then target else s.cr3) = cr3 at returns
      split at returns
      · cases returns
      · rename_i asserted
        obtain ⟨picked,rfl⟩ := ok_pair returns
        obtain rfl := Option.some.inj picked
        exact ⟨rfl,(not_not.mp (not_or.mp asserted).1).trans root.symm⟩

theorem scheduleContexts_cases (switches : scheduleContexts boot rsp x = .ok (picked,y)) :
    ∃ sched, schedule boot.toSchedulerBoot rsp x.sched = .ok (picked,sched) ∧ y.sched = sched ∧
      (picked = none → y.fpuState = x.fpuState ∧ y.fpu = x.fpu) ∧
      ∀ t, picked = some t → y.fpuState = Function.update x.fpuState x.sched.currentThread x.fpu ∧ y.fpu = y.fpuState t := by
  unfold scheduleContexts at switches
  obtain ⟨⟨chosen,sched⟩,returns,rest⟩ := ok_of_bind switches
  refine ⟨sched,?_⟩
  cases chosen with
  | none =>
    obtain ⟨rfl,rfl⟩ := ok_pair rest
    exact ⟨returns,rfl,fun _ => ⟨rfl,rfl⟩,nofun⟩
  | some next =>
    obtain ⟨rfl,rfl⟩ := ok_pair rest
    exact ⟨returns,rfl,nofun,fun t same => ⟨rfl,by rw [Option.some.inj same]⟩⟩

theorem ContextsInv.switch (inv : ContextsInv boot events x) (switches : scheduleContexts boot rsp x = .ok (picked,y)) :
    ContextsInv boot (events ++ [.schedule picked]) y := by
  obtain ⟨sched,returns,rfl,idle,moved⟩ := scheduleContexts_cases switches
  have step : SchedStep boot.toSchedulerBoot x.sched (.schedule picked) y.sched := .schedule returns
  obtain ⟨inv',_,_⟩ := inv.sched.step step
  have added : addedContexts (events ++ [.schedule picked]) = addedContexts events := by
    simp [addedContexts_snoc,ContextEvent.added]
  have silent : ∀ u, contextOf boot u (events ++ [.schedule picked]) = contextOf boot u events := fun u => contextOf_snoc
  have unseen : ∀ t ∉ addedContexts (events ++ [.schedule picked]), t ≠ boot.bootstrapTask →
      contextOf boot t (events ++ [.schedule picked]) = ⟨boot.fpuDefaultState,0#64⟩ := by
    simpa only [added,silent] using inv.unseen
  have sched' : SchedInv boot.toSchedulerBoot (addedContexts (events ++ [.schedule picked])) y.sched := by
    rw [added]
    simpa [SchedEvent.added] using inv'
  rcases schedule_cases returns with ⟨rfl,same,_⟩ | ⟨t,rfl,live,other,choice,_,current,_,threads⟩
  · obtain ⟨image,unit⟩ := idle rfl
    refine ⟨sched',?_,?_,?_,?_,unseen⟩ <;> simp only [added,silent,same,image,unit]
    · exact inv.parked
    · exact inv.fsBase
    · exact inv.running
    · exact inv.cr3
  · obtain ⟨image,unit⟩ := moved t rfl
    obtain ⟨msr,cr3⟩ := schedule_registers returns
    have listed : t ∈ addedContexts events := (inv.sched.successor live choice).mem
    have fields : ∀ u, (y.sched.thread u).fsBase = (x.sched.thread u).fsBase ∧
        (y.sched.thread u).process = (x.sched.thread u).process := by
      intro u
      rw [threads]
      by_cases here : u = x.sched.currentThread
      · subst here
        simp
      · simp [here]
    have images : ∀ u ∈ addedContexts events, y.fpuState u = (contextOf boot u events).fpu := by
      intro u member
      rw [image]
      by_cases here : u = x.sched.currentThread
      · rw [here,Function.update_self]
        refine (inv.running fun boots => ?_).1
        exact inv.sched.bootstrap.1 (boots ▸ here ▸ member)
      · rw [Function.update_of_ne here]
        exact inv.parked u member here
    refine ⟨sched',?_,?_,?_,?_,unseen⟩ <;> simp only [added,silent,current]
    · exact fun u member _ => images u member
    · intro u member
      rw [(fields u).1]
      exact inv.fsBase u member
    · refine fun _ => ⟨?_,?_⟩
      · rw [unit]
        exact images t listed
      · rw [msr,(fields t).1]
    · rw [cr3,(fields t).2]

theorem ContextsInv.step (inv : ContextsInv boot events x) (moves : ContextStep boot x e y) :
    ContextsInv boot (events ++ [e]) y := by
  cases moves with
  | compute => exact inv.compute
  | archPrctl => exact inv.archPrctl _ _
  | add live notBoot new made adds => exact inv.add live notBoot new made adds
  | schedule switches => exact inv.switch switches

theorem ContextStart.inv (start : ContextStart boot x) : ContextsInv boot [] x := by
  obtain ⟨sched,cr3⟩ := start
  constructor
  case sched => exact sched.inv
  case parked => exact fun t member => absurd member List.not_mem_nil
  case fsBase => exact fun t member => absurd member List.not_mem_nil
  case running => exact fun notBoot => absurd sched.2.2.1 notBoot
  case cr3 =>
    rw [cr3,sched.2.2.1,sched.2.2.2]
    rfl
  case unseen => exact fun _ _ _ => rfl

/-- Whichever threads are created and switched in between: the unit and the base of `fs` are what the current
thread has made of them since it was created, and the tables are those of its process, or the kernel's. -/
theorem thread_context (run : Run (ContextStart boot) (ContextStep boot) free events x) :
    (x.sched.currentThread ≠ boot.bootstrapTask →
      (⟨x.fpu,x.sched.fsBase⟩ : ThreadContext) = contextOf boot x.sched.currentThread events) ∧
    x.sched.cr3 = (x.sched.thread x.sched.currentThread).process.getD boot.kernelCr3 := by
  have inv : ContextsInv boot events x :=
    run.invariant (ContextsInv boot) (fun _ start => start.inv) fun _ _ _ _ inv _ moves => inv.step moves
  refine ⟨fun notBoot => ?_,inv.cr3⟩
  obtain ⟨unit,msr⟩ := inv.running notBoot
  have listed := inv.sched.current.resolve_left notBoot
  exact ThreadContext.ext unit (msr.trans (inv.fsBase _ listed))

def contextBoot : ContextBoot where
  toSchedulerBoot := taskBoot
  kernelIrqStack := 0x10000#64
  bootStack := 0x20000#64
  bootStackSize := 0x4000
  threadEntryKernel := 0x100#64
  threadEntryUser := 0x200#64
  taskBootstrap := 0x300#64
  afterHandler := 0x400#64
  afterSwitch := 0x500#64
  depth := 64
  scratch := 256
  returns := true
  archSetFs := 0x1002#64
  einval := 22#64
  fpuDefaultState := 0x1F80#4096

def contextIdle : Contexts :=
  ⟨⟨⟨fun _ => 0#64,0x23000#64,0x600#64,0x202#64,8#64,0x10#64⟩,fun _ => 0#8,idleScheduler,1#64⟩,fun _ => 0#4096,0#4096⟩

def addContext (t kernelStack : U64) (x : Contexts) : Except Stop Contexts := do
  let made := (threadCreate contextBoot.toSwitchBoot t kernelStack 0x400000#64 x.toTasks).2
  let sched ← schedulerAdd 8 t made.sched
  return ⟨{ made with sched := sched },Function.update x.fpuState t contextBoot.fpuDefaultState,x.fpu⟩

theorem addContext_step {kernelStack : U64} (run : Run (ContextStart contextBoot) (ContextStep contextBoot) free events x)
    (live : t ≠ 0#64 ∧ kernelStack ≠ 0#64) (notBoot : t ≠ contextBoot.bootstrapTask) (new : t ∉ addedContexts events)
    (adds : addContext t kernelStack x = .ok y) :
    Run (ContextStart contextBoot) (ContextStep contextBoot) free (events ++ [.add t]) y := by
  have inv : ContextsInv contextBoot events x :=
    run.invariant (ContextsInv contextBoot) (fun _ start => start.inv) fun _ _ _ _ inv _ moves => inv.step moves
  obtain ⟨sched,returns,same⟩ := ok_of_bind adds
  obtain rfl := Except.ok.inj same
  have made : ThreadMade contextBoot t x
      ⟨(threadCreate contextBoot.toSwitchBoot t kernelStack 0x400000#64 x.toTasks).2,
        Function.update x.fpuState t contextBoot.fpuDefaultState,x.fpu⟩ := by
    refine ⟨.inl ⟨kernelStack,0x400000#64,Prod.ext ?_ rfl⟩,rfl,rfl⟩
    simp [threadCreate,threadCreateBase,live.1,live.2]
  exact run.step trivial (.add live.1 notBoot (inv.sched.fresh new) made returns)

def twoContexts : Except Stop (Contexts × Contexts × Contexts × Contexts × Contexts) := do
  let x₁ ← addContext 0x2000#64 0x7000#64 contextIdle
  let x₂ ← addContext 0x3000#64 0xB000#64 x₁
  let (_,x₃) ← scheduleContexts contextBoot 0x22000#64 x₂
  let x₄ := { x₃ with fpu := 5#4096 }
  let x₅ := { x₄ with sched := (doSysArchPrctl contextBoot 0x1002#64 0x7000#64 x₄.sched).2 }
  let (_,x₆) ← scheduleContexts contextBoot 0x7800#64 x₅
  let (_,x₇) ← scheduleContexts contextBoot 0xB800#64 { x₆ with fpu := 9#4096 }
  return (x₁,x₂,x₃,x₆,x₇)

/-- The first thread computes and sets its base, and finds both again after the second has run. -/
theorem thread_context_two : ∃ events x, Run (ContextStart contextBoot) (ContextStep contextBoot) free events x ∧
    x.sched.currentThread = 0x2000#64 ∧ (⟨x.fpu,x.sched.fsBase⟩ : ThreadContext) = ⟨5#4096,0x7000#64⟩ := by
  have start : Run (ContextStart contextBoot) (ContextStep contextBoot) free [] contextIdle :=
    .start ⟨⟨by decide,rfl,rfl,rfl⟩,rfl⟩
  have runs : twoContexts.toOption.map (fun r => (r.2.2.1.sched.currentThread,r.2.2.2.1.sched.currentThread,
      r.2.2.2.2.sched.currentThread)) = some (0x2000#64,0x3000#64,0x2000#64) := by
    decide +kernel
  cases result : twoContexts with
  | error stop => rw [result] at runs; cases runs
  | ok r =>
    obtain ⟨x₁,x₂,x₃,x₆,x₇⟩ := r
    rw [result] at runs
    obtain ⟨first,rest⟩ := Prod.mk.inj (Option.some.inj runs)
    obtain ⟨second,third⟩ := Prod.mk.inj rest
    obtain ⟨y₁,add₁,rest⟩ := ok_of_bind result
    obtain ⟨y₂,add₂,rest⟩ := ok_of_bind rest
    obtain ⟨⟨p₁,y₃⟩,switch₁,rest⟩ := ok_of_bind rest
    obtain ⟨⟨p₂,y₆⟩,switch₂,rest⟩ := ok_of_bind rest
    obtain ⟨⟨p₃,y₇⟩,switch₃,rest⟩ := ok_of_bind rest
    obtain ⟨rfl,rfl,rfl,rfl,rfl⟩ : y₁ = x₁ ∧ y₂ = x₂ ∧ y₃ = x₃ ∧ y₆ = x₆ ∧ y₇ = x₇ := by
      simpa [pure,Except.pure] using rest
    have run := addContext_step start (by decide) (by decide) (by decide) add₁
    have run := addContext_step run (by decide) (by decide) (by decide) add₂
    have run := run.step trivial (.schedule switch₁)
    have run := run.step trivial (@ContextStep.compute _ y₃ y₃.cpu y₃.mem 5#4096)
    have run := run.step trivial (@ContextStep.archPrctl _ _ 0x1002#64 0x7000#64)
    have run := run.step trivial (.schedule switch₂)
    have run := run.step trivial (@ContextStep.compute _ y₆ y₆.cpu y₆.mem 9#4096)
    have run := run.step trivial (.schedule switch₃)
    obtain ⟨context,_⟩ := thread_context run
    refine ⟨_,y₇,run,third,?_⟩
    rw [context (by rw [third]; decide),third]
    have first : y₃.sched.currentThread = 0x2000#64 := first
    have second : y₆.sched.currentThread = 0x3000#64 := second
    simp only [first,second]
    simp [contextOf,ContextEvent.apply,contextBoot]

end Reddyos
