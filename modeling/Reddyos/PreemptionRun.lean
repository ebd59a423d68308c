import Reddyos.Preemption

/-! What every step of the threads keeps, and what a thread that is picked finds: a new one its first frame,
a preempted one the frame of the interrupt, unless another interrupt has written over it. -/
namespace Reddyos

open ByteMemory CallStack LinkedChain Transitions

variable {boot : SwitchBoot} {code : Compiled} {x y : Tasks} {t u kernelStack : U64} {start : ThreadStart}
variable {events : List TaskEvent} {picked : Option U64} {sched : Scheduler} {b : Nat}

structure Born (boot : SwitchBoot) (x : Tasks) (t kernelStack : U64) (start : ThreadStart) (y : Tasks) : Prop where
  others : ∀ u, u ≠ t → y.sched.thread u = x.sched.thread u
  list : y.sched.threadList = x.sched.threadList
  current : y.sched.currentThread = x.sched.currentThread
  stack : (y.sched.thread t).kernelStack = kernelStack
  next : (y.sched.thread t).next = 0#64
  ready : Ready boot y t start
  mem : ∀ b, b < kernelStack.toNat ∨ kernelStack.toNat + 4096 ≤ b → y.mem b = x.mem b

theorem threadCreateBase_live (live : t ≠ 0#64 ∧ kernelStack ≠ 0#64) (entry : U64) :
    threadCreateBase t kernelStack entry x = (t,{ x with nextTid := x.nextTid + 1#64 }.setThread t
      ⟨0#64,kernelStack,0#64,x.nextTid,entry,none,0#64,0#64⟩) := by
  unfold threadCreateBase
  rw [if_neg live.1]
  dsimp only
  rw [if_neg live.2,Tasks.setThread_twice,Tasks.setThread_same]
  rfl

theorem born_setup (start : ThreadStart) (thread : Thread) (fits : thread.kernelStack.toNat + 4096 < 2^64) (ends : thread.next = 0#64)
    (entry : thread.entry = start.entry) (tid : U64) : Born boot x t thread.kernelStack start
      (({ x with nextTid := tid }.setThread t thread).setupStack (threadFrame boot start).reverse t) := by
  have here : (({ x with nextTid := tid } : Tasks).setThread t thread).sched.thread t = thread := Tasks.setThread_same _ _
  have short : 8 * (threadFrame boot start).reverse.length ≤ 4096 := by
    rw [List.length_reverse]
    cases start <;> simp [threadFrame]
  obtain ⟨rsp,same,place,words,mem⟩ := @setupStack_spec (threadFrame boot start).reverse
    ({ x with nextTid := tid }.setThread t thread) t (by rw [here]; exact fits) short
  rw [here] at same place mem
  rw [List.reverse_reverse] at words
  rw [List.length_reverse] at place
  generalize ({ x with nextTid := tid }.setThread t thread).setupStack (threadFrame boot start).reverse t = y at *
  have mine : y.sched.thread t = { thread with rsp := rsp } := by
    rw [same]
    exact Function.update_self _ _ _
  refine ⟨fun u other => ?_,by rw [same]; rfl,by rw [same]; rfl,by rw [mine],by rw [mine]; exact ends,⟨?_,?_,?_⟩,mem⟩
  · rw [same]
    exact (Function.update_of_ne other _ _).trans (Function.update_of_ne other _ _)
  · rw [mine]
    exact place
  · rw [mine]
    exact words
  · rw [mine]
    exact entry

theorem threadCreate_born (blocks : NewBlocks boot x t kernelStack)
    (creates : threadCreate boot t kernelStack entry x = (t,y)) : Born boot x t kernelStack (.kernel entry) y := by
  unfold threadCreate at creates
  rw [threadCreateBase_live blocks.live] at creates
  dsimp only at creates
  rw [if_neg blocks.live.1] at creates
  obtain ⟨_,rfl⟩ := Prod.mk.inj creates
  exact born_setup (.kernel entry) ⟨_,kernelStack,_,_,_,_,_,_⟩ blocks.fits rfl rfl _

theorem userThreadCreate_born {process : UserStart} (blocks : NewBlocks boot x t kernelStack)
    (creates : userThreadCreate boot t kernelStack (some process) x = (t,y)) :
    Born boot x t kernelStack (.user process.entryPoint process.rsp) y := by
  unfold userThreadCreate at creates
  dsimp only at creates
  rw [threadCreateBase_live blocks.live] at creates
  dsimp only at creates
  rw [if_neg blocks.live.1,Tasks.setThread_twice,Tasks.setThread_same] at creates
  obtain ⟨_,rfl⟩ := Prod.mk.inj creates
  unfold setupUserStack
  rw [Tasks.setThread_same]
  exact born_setup (.user process.entryPoint process.rsp) ⟨_,kernelStack,_,_,_,_,_,_⟩ blocks.fits rfl rfl _

theorem TasksInv.other (inv : TasksInv boot events x) (has : HasStack x t) (new : ¬Started events t) :
    t ≠ x.sched.currentThread := by
  rintro rfl
  rcases inv.running with boots | started
  · exact (inv.stacksOk.fits _ has).2.1 boots
  · exact new started

theorem TasksInv.hasStack (inv : TasksInv boot events x) (started : Started events t) : HasStack x t :=
  inv.listed t (inv.picked t started)

theorem TasksInv.owns (inv : TasksInv boot events x) : Owns boot x x.sched.currentThread :=
  inv.running.imp_right inv.hasStack

theorem TasksInv.ready_frame (inv : TasksInv boot events x) (made : .create t start ∈ events)
    (new : ¬Started events t) (same : Untouched boot x y t) : Ready boot y t start :=
  (inv.ready t start made new).frame (inv.stacksOk.fits t ((inv.created t).mpr ⟨start,made⟩)).2.1 same

/-- What was left of a thread stays if its stack and the one for interrupts out of ring 3 do. -/
theorem TasksInv.left_frame (ok : SwitchOk boot) (inv : TasksInv boot events x) (started : Started events t)
    (other : t ≠ x.sched.currentThread) (same : Untouched boot x y t)
    (irq : ∀ b, OnIrqStack boot b → y.mem b = x.mem b) (kept : FrameKept events t before) : Left boot y t before := by
  refine ((inv.left t started other).2 before kept).keep same.rsp same.kernelStack (fun b here => ?_) ok.nested
  unfold FramePlace at here
  split at here
  · exact irq b here
  · exact same.mem b here

theorem TasksInv.quiet (inv : TasksInv boot events x) (same : y.sched = x.sched)
    (silent : e = .run ∨ ∃ left before, e = .tick left before none)
    (others : ∀ t, Owns boot x t → t ≠ x.sched.currentThread → ∀ b, OnStack boot x t b → y.mem b = x.mem b)
    (left : ∀ t, Started events t → t ≠ x.sched.currentThread →
      ∀ before, FrameKept events t before → Left boot y t before) : TasksInv boot (events ++ [e]) y := by
  obtain ⟨cpu,mem,sched,tid⟩ := y
  obtain rfl : sched = x.sched := same
  have added : addedTasks (events ++ [e]) = addedTasks events := by
    rcases silent with rfl | ⟨_,_,rfl⟩ <;> simp [TaskEvent.added]
  have started : ∀ t, Started (events ++ [e]) t ↔ Started events t := fun t => by
    rcases silent with rfl | ⟨_,_,rfl⟩ <;> simp [started_snoc]
  have preempted : ∀ t, Preempted (events ++ [e]) t ↔ Preempted events t := fun t => by
    rcases silent with rfl | ⟨_,_,rfl⟩ <;> simp [preempted_snoc]
  have created : ∀ t start, .create t start ∈ events ++ [e] ↔ .create t start ∈ events := fun t start => by
    rcases silent with rfl | ⟨_,_,rfl⟩ <;> simp
  constructor
  case sched => exact added ▸ inv.sched
  case unlinked => exact added ▸ inv.unlinked
  case stacksOk => exact inv.stacksOk.congr fun _ => rfl
  case listed => exact added ▸ inv.listed
  case created =>
    simp only [created]
    exact inv.created
  case picked =>
    simp only [started,added]
    exact inv.picked
  case running =>
    rw [started]
    exact inv.running
  case preempted =>
    simp only [started,preempted]
    exact inv.preempted
  case left =>
    simp only [started,preempted]
    refine fun t begun other => ⟨(inv.left t begun other).1,fun before kept => left t begun other before ?_⟩
    exact frameKept_older kept fun c picked same => by rcases silent with rfl | ⟨_,_,rfl⟩ <;> cases same
  case ready =>
    simp only [started,created]
    intro t start made new
    have has : HasStack x t := (inv.created t).mpr ⟨start,made⟩
    exact inv.ready_frame made new ⟨rfl,rfl,rfl,others t (.inr has) (inv.other has new)⟩

theorem TasksInv.run (ok : SwitchOk boot) (inv : TasksInv boot events x) (runs : RunsAlone boot x y) :
    TasksInv boot (events ++ [.run]) y := by
  refine inv.quiet runs.sched (.inl rfl) runs.others fun t started other before kept => ?_
  have same : Untouched boot x y t := ⟨by rw [runs.sched],by rw [runs.sched],by rw [runs.sched],
    runs.others t (.inr (inv.hasStack started)) other⟩
  exact inv.left_frame ok started other same runs.irqStack kept

/-- A tick that picks nobody: there is only the current thread to run. -/
theorem TasksInv.idle (ok : SwitchOk boot) (inv : TasksInv boot events x) (fits : TickFits boot x)
    (schedules : tickSchedule boot code x = .ok (none,sched)) :
    TasksInv boot (events ++ [.tick x.sched.currentThread x.cpu none])
      { x with mem := handlerMem boot code (irqEnter boot x.cpu x.mem), sched := sched } := by
  obtain rfl : sched = x.sched := by
    rcases schedule_cases schedules with ⟨_,same,_⟩ | ⟨_,picked,_⟩
    · exact same
    · cases picked
  obtain ⟨room,outside⟩ := fits.place ok
  obtain ⟨_,kept⟩ := @handlerMem_spec boot code x.cpu x.mem room
  refine inv.quiet rfl (.inr ⟨_,_,rfl⟩) (fun t mine other => ?_) fun t started other => ?_
  · exact (Untouched.ticked (y := { x with mem := handlerMem boot code (irqEnter boot x.cpu x.mem) })
      inv.stacksOk ok fits kept rfl inv.owns mine other).mem
  · exact absurd (inv.sched.alone schedules (inv.picked t started)) other

theorem Born.has (born : Born boot x t kernelStack start y) (live : kernelStack ≠ 0#64) :
    HasStack y u ↔ HasStack x u ∨ u = t := by
  by_cases same : u = t
  · subst same
    simp only [HasStack,born.stack,live,ne_eq,not_false_eq_true,or_true]
  · simp only [HasStack,born.others u same,same,or_false]

theorem Born.on (born : Born boot x t kernelStack start y) (other : u ≠ t) : OnStack boot y u b ↔ OnStack boot x u b :=
  onStack_congr (by rw [born.others u other])

theorem Born.untouched (born : Born boot x t kernelStack start y) (blocks : NewBlocks boot x t kernelStack)
    (mine : Owns boot x u) : Untouched boot x y u := by
  have same : y.sched.thread u = x.sched.thread u := born.others u fun same => blocks.thread (same ▸ mine)
  refine ⟨by rw [same],by rw [same],by rw [same],fun b on => born.mem b ?_⟩
  by_contra inside
  exact blocks.others u mine b (by omega) (by omega) on

theorem StacksOk.create (stacksOk : StacksOk boot x) (blocks : NewBlocks boot x t kernelStack)
    (born : Born boot x t kernelStack start y) : StacksOk boot y := by
  have notBoot : t ≠ boot.bootstrapTask := fun same => blocks.thread (.inl same)
  have new : ∀ b, OnStack boot y t b ↔ kernelStack.toNat ≤ b ∧ b < kernelStack.toNat + 4096 := fun b => by
    rw [onStack_iff notBoot,born.stack]
  have old : ∀ u, Owns boot y u → u ≠ t → Owns boot x u := fun u mine other =>
    mine.imp_right fun has => ((born.has blocks.live.2).mp has).resolve_right other
  refine ⟨fun u has => ?_,fun u b mine on => ?_,fun u v b other mine yours on => ?_⟩
  · by_cases same : u = t
    · subst same
      exact ⟨blocks.live.1,notBoot,by rw [born.stack]; exact blocks.fits⟩
    · rw [born.others u same]
      exact stacksOk.fits u (((born.has blocks.live.2).mp has).resolve_right same)
  · by_cases same : u = t
    · subst same
      obtain ⟨low,high⟩ := (new b).mp on
      exact blocks.irqStack b low high
    · exact stacksOk.irqApart u b (old u mine same) ((born.on same).mp on)
  · by_cases same : u = t
    · subst same
      obtain ⟨low,high⟩ := (new b).mp on
      rw [born.on other.symm]
      exact blocks.others v (old v yours other.symm) b low high
    · rw [born.on same] at on
      by_cases same' : v = t
      · subst same'
        rw [new]
        exact fun inside => blocks.others u (old u mine same) b inside.1 inside.2 on
      · rw [born.on same']
        exact stacksOk.apart u v b other (old u mine same) (old v yours same') on

theorem TasksInv.create (ok : SwitchOk boot) (inv : TasksInv boot events x) (blocks : NewBlocks boot x t kernelStack)
    (born : Born boot x t kernelStack start y) : TasksInv boot (events ++ [.create t start]) y := by
  have fresh : ¬HasStack x t := fun has => blocks.thread (.inr has)
  have notBoot : t ≠ boot.bootstrapTask := fun same => blocks.thread (.inl same)
  have unlisted : t ∉ addedTasks events := fun listed => fresh (inv.listed t listed)
  have added : addedTasks (events ++ [.create t start]) = addedTasks events := by simp [TaskEvent.added]
  have started : ∀ u, Started (events ++ [.create t start]) u ↔ Started events u := fun u => by simp [started_snoc]
  have preempted : ∀ u, Preempted (events ++ [.create t start]) u ↔ Preempted events u := fun u => by
    simp [preempted_snoc]
  have created : ∀ u start', .create u start' ∈ events ++ [.create t start] ↔
      .create u start' ∈ events ∨ u = t ∧ start' = start := fun u start' => by simp
  have next : ∀ u ≠ t, (y.sched.thread u).next = (x.sched.thread u).next := fun u other => by rw [born.others u other]
  constructor
  case sched =>
    rw [added]
    obtain ⟨listed,nodup,⟨absent,live,ends⟩,current⟩ := inv.sched
    refine ⟨?_,nodup,⟨absent,live,?_⟩,born.current ▸ current⟩
    · unfold ThreadsListed
      rw [born.list]
      exact listed.frame fun u member => next u fun same => unlisted (same ▸ member)
    · exact (next _ notBoot.symm).trans ends
  case unlinked =>
    rw [added]
    intro u absent
    by_cases same : u = t
    · exact same ▸ born.next
    · exact (next u same).trans (inv.unlinked u absent)
  case stacksOk => exact inv.stacksOk.create blocks born
  case listed =>
    rw [added]
    exact fun u member => (born.has blocks.live.2).mpr (.inl (inv.listed u member))
  case created =>
    intro u
    simp only [born.has blocks.live.2,inv.created u,created,exists_or,exists_and_left,exists_eq,and_true]
  case picked =>
    simp only [started,added]
    exact inv.picked
  case running =>
    rw [started,born.current]
    exact inv.running
  case preempted =>
    simp only [started,preempted]
    exact inv.preempted
  case left =>
    simp only [started,preempted,born.current]
    intro u begun other
    have irq : ∀ b, OnIrqStack boot b → y.mem b = x.mem b := by
      intro b on
      by_contra changed
      have outside := mt (born.mem b) changed
      exact blocks.irqStack b (by omega) (by omega) on
    refine ⟨(inv.left u begun other).1,fun before kept => ?_⟩
    refine inv.left_frame ok begun other (born.untouched blocks (.inr (inv.hasStack begun))) irq ?_
    exact frameKept_older kept fun _ _ same => by cases same
  case ready =>
    simp only [started,created]
    rintro u start' (made | ⟨rfl,rfl⟩) new
    · have has : HasStack x u := (inv.created u).mpr ⟨start',made⟩
      exact inv.ready_frame made new (born.untouched blocks (.inr has))
    · exact born.ready

theorem TasksInv.add (ok : SwitchOk boot) (inv : TasksInv boot events x) (has : HasStack x t)
    (new : ∀ threads, ThreadsListed x.sched threads → t ∉ threads) (adds : schedulerAdd fuel t x.sched = .ok sched) :
    TasksInv boot (events ++ [.add t]) { x with sched := sched } := by
  have unlisted : t ∉ addedTasks events := new _ inv.sched.listed
  obtain ⟨live,notBoot,_⟩ := inv.stacksOk.fits t has
  have ends : (x.sched.thread t).next = 0#64 := inv.unlinked t unlisted
  obtain ⟨_,current,links⟩ := schedulerAdd_listed inv.sched.listed live unlisted inv.sched.nodup ends adds
  obtain ⟨last,link,threads⟩ := schedulerAdd_kept adds
  have same : ∀ u, (sched.thread u).rsp = (x.sched.thread u).rsp ∧
      (sched.thread u).kernelStack = (x.sched.thread u).kernelStack ∧
      (sched.thread u).entry = (x.sched.thread u).entry := by
    intro u
    rw [threads]
    by_cases here : u = last
    · subst here
      simp
    · simp [here]
  have untouched : ∀ u, Untouched boot x { x with sched := sched } u := fun u =>
    ⟨(same u).1,(same u).2.1,(same u).2.2,fun _ _ => rfl⟩
  have owners : ∀ u, HasStack { x with sched := sched } u ↔ HasStack x u := fun u => by
    simp only [HasStack,(same u).2.1]
  have added : addedTasks (events ++ [.add t]) = addedTasks events ++ [t] := by simp [TaskEvent.added]
  have started : ∀ u, Started (events ++ [.add t]) u ↔ Started events u := fun u => by simp [started_snoc]
  have preempted : ∀ u, Preempted (events ++ [.add t]) u ↔ Preempted events u := fun u => by simp [preempted_snoc]
  have created : ∀ u start, .create u start ∈ events ++ [.add t] ↔ .create u start ∈ events := fun u start => by simp
  constructor
  case sched =>
    rw [added]
    have whole : x.sched.setThread t (x.sched.thread t) = x.sched := by simp [Scheduler.setThread]
    rw [← whole] at adds
    exact (inv.sched.step (.add live notBoot new ends adds)).1
  case unlinked =>
    rw [added]
    intro u absent
    have before : u ∉ addedTasks events := fun member => absent (List.mem_append_left _ member)
    exact (links u before).trans (inv.unlinked u before)
  case stacksOk => exact inv.stacksOk.congr fun u => (same u).2.1
  case listed =>
    rw [added]
    intro u member
    rw [owners]
    rcases List.mem_append.mp member with old | latest
    · exact inv.listed u old
    · exact List.mem_singleton.mp latest ▸ has
  case created =>
    simp only [owners,created]
    exact inv.created
  case picked =>
    simp only [started,added]
    exact fun u begun => List.mem_append_left _ (inv.picked u begun)
  case running =>
    rw [started]
    change sched.currentThread = _ ∨ Started events sched.currentThread
    rw [current]
    exact inv.running
  case preempted =>
    simp only [started,preempted]
    exact inv.preempted
  case left =>
    simp only [started,preempted,current]
    refine fun u begun other => ⟨(inv.left u begun other).1,fun before kept => ?_⟩
    refine inv.left_frame ok begun other (untouched u) (fun _ _ => rfl) ?_
    exact frameKept_older kept fun _ _ same => by cases same
  case ready =>
    simp only [started,created]
    exact fun u start made fresh => inv.ready_frame made fresh (untouched u)

/-- The thread that is picked is another one, from the list, and its record is not changed. -/
theorem tickSchedule_picked (inv : TasksInv boot events x) (schedules : tickSchedule boot code x = .ok (some u,sched)) :
    u ∈ addedTasks events ∧ u ≠ x.sched.currentThread ∧ (x.sched.thread u).entry ≠ 0#64 ∧ sched.currentThread = u ∧
      SchedInv boot.toSchedulerBoot (addedTasks events) sched ∧
      sched.thread = Function.update x.sched.thread x.sched.currentThread
        { x.sched.thread x.sched.currentThread with rsp := (archSave boot code (irqEnter boot x.cpu x.mem)).1 } := by
  rcases schedule_cases schedules with ⟨none,_⟩ | ⟨t,same,live,other,choice,entry,current,_,threads⟩
  · cases none
  · obtain rfl := Option.some.inj same
    have kept := (inv.sched.step (.schedule schedules)).1
    exact ⟨(inv.sched.successor live choice).mem,other,entry,current,by simpa [SchedEvent.added] using kept,threads⟩

/-- What is on the stacks when the registers of the interrupted thread are saved. -/
structure Parked (boot : SwitchBoot) (x y : Tasks) : Prop where
  others : ∀ t, Owns boot x t → t ≠ x.sched.currentThread → Untouched boot x y t
  irq : x.cpu.ring3 = false → ∀ b, OnIrqStack boot b → y.mem b = x.mem b
  left : Left boot y x.sched.currentThread x.cpu
  stack : ∀ t, (y.sched.thread t).kernelStack = (x.sched.thread t).kernelStack

theorem parked_spec (ok : SwitchOk boot) (inv : TasksInv boot events x) (fits : TickFits boot x)
    (schedules : tickSchedule boot code x = .ok (some u,sched)) : Parked boot x (parked boot code x sched) := by
  obtain ⟨_,_,_,_,_,threads⟩ := tickSchedule_picked inv schedules
  obtain ⟨room,outside⟩ := fits.place ok
  obtain ⟨saved,returns,frame,kept⟩ := @archSave_spec boot code x.cpu x.mem ok room
  have nested := ok.nested
  have memory : (parked boot code x sched).mem = (archSave boot code (irqEnter boot x.cpu x.mem)).2 := by
    dsimp only [parked]
  have scheduler : (parked boot code x sched).sched = sched := rfl
  generalize parked boot code x sched = y at memory scheduler ⊢
  subst scheduler
  rw [← memory] at returns frame kept
  generalize (archSave boot code (irqEnter boot x.cpu x.mem)).1 = rsp at threads saved
  have sameStack : ∀ t, (y.sched.thread t).kernelStack = (x.sched.thread t).kernelStack := by
    intro t
    rw [threads]
    by_cases here : t = x.sched.currentThread
    · subst here
      simp
    · simp [here]
  have mine : (y.sched.thread x.sched.currentThread).rsp.toNat = frameEnd boot x.cpu - savedDepth boot := by
    rw [threads,Function.update_self]
    exact saved
  refine ⟨fun t owns other => ?_,fun kernel b on => ?_,⟨room,?_,?_,frame,fun b apart => ?_⟩,sameStack⟩
  · refine Untouched.ticked inv.stacksOk ok fits kept ?_ inv.owns owns other
    rw [threads,Function.update_of_ne other]
  · refine kept b (outside b fun place => ?_)
    rw [TickPlace,FramePlace,if_neg (by simp [kernel])] at place
    exact inv.stacksOk.irqApart _ b inv.owns place on
  · rw [mine]
    unfold savedDepth
    omega
  · rw [mine]
    exact returns
  · refine outside b fun here => apart ?_
    unfold TickPlace FramePlace at here
    unfold FramePlace
    rwa [onStack_congr (sameStack _)]

structure Switched (boot : SwitchBoot) (events : List TaskEvent) (x z : Tasks) (u : U64) (y : Tasks) : Prop where
  sched : y.sched = z.sched
  mem : ∀ b, y.mem b = z.mem b ∨ ∃ before, FrameKept events u before ∧
    (before.ring3 = true → x.cpu.ring3 = false) ∧ FramePlace boot x u before b

theorem picked_ready (ok : SwitchOk boot) (schedules : tickSchedule boot code x = .ok (some u,sched))
    (current : sched.currentThread = u) (fits : (sched.thread u).kernelStack.toNat + 4096 < 2^64)
    (live : (sched.thread u).entry ≠ 0#64) (ready : Ready boot (parked boot code x sched) u start) :
    ∃ cpu, timerTick boot code x = .ok { parked boot code x sched with cpu := cpu } ∧
      Begins boot { parked boot code x sched with cpu := cpu } u start := by
  rw [timerTick_some schedules]
  have scheduler : (parked boot code x sched).sched = sched := rfl
  generalize parked boot code x sched = y at ready scheduler ⊢
  subst scheduler
  have handler : x.cpu.handler.cs = 8#64 := rfl
  generalize x.cpu.handler = c at handler
  obtain ⟨stack,words,entry⟩ := ready
  cases start with
  | kernel start =>
    have stack : (y.sched.thread u).rsp.toNat + 72 = (y.sched.thread u).kernelStack.toNat + 4096 := stack
    let loaded := { c with reg := code.reg, rflags := code.rflags, rsp := (y.sched.thread u).rsp }
    obtain ⟨next,returns,rip,rdi,rsp,cs,rflags⟩ := @archRestore_kernel boot code loaded y.mem _ _ _ _ _ _ _ _
      (by dsimp only [loaded]; omega) words
    refine ⟨next,by rw [returns]; rfl,rip,?_,rsp.trans stack,?_,rflags⟩
    · have begins : (y.sched.thread u).entry = start := entry
      change taskBootstrap y.sched (next.reg .rdi) = _
      rw [rdi,taskBootstrap,current,if_pos live,begins]
    · change Cpu.ring3 next = false
      rw [Cpu.ring3,cs.trans handler]
      rfl
  | user start top =>
    have stack : (y.sched.thread u).rsp.toNat + 80 = (y.sched.thread u).kernelStack.toNat + 4096 := stack
    let loaded := { c with reg := code.reg, rflags := code.rflags, rsp := (y.sched.thread u).rsp }
    obtain ⟨next,returns,rip,rsp,cs,rflags⟩ := @archRestore_user boot code loaded y.mem _ _ _ _ _ _ _ _ _ ok
      (by dsimp only [loaded]; omega) words
    refine ⟨next,by rw [returns]; rfl,rip,rsp,rflags,?_⟩
    change Cpu.ring3 next = true
    rw [Cpu.ring3,cs]
    rfl

theorem TasksInv.picked_resumed (ok : SwitchOk boot) (inv : TasksInv boot events x) (fits : TickFits boot x)
    (schedules : tickSchedule boot code x = .ok (some u,sched)) (returns : boot.returns = true)
    (kept : FrameKept events u before) (kernel : before.ring3 = true → x.cpu.ring3 = false) :
    ∃ mem, timerTick boot code x = .ok { parked boot code x sched with cpu := before, mem := mem } ∧
      Switched boot events x (parked boot code x sched) u { parked boot code x sched with cpu := before, mem := mem } := by
  obtain ⟨listed,other,_⟩ := tickSchedule_picked inv schedules
  have mine : Owns boot x u := .inr (inv.listed u listed)
  have started : Started events u := (inv.preempted u kept.lastLeft.preempted).resolve_left fun boots =>
    (inv.stacksOk.fits u (inv.listed u listed)).2.1 boots
  have parked := parked_spec ok inv fits schedules
  have same := parked.others u mine other
  have left : Left boot (Reddyos.parked boot code x sched) u before := by
    refine ((inv.left u started other).2 before kept).keep same.rsp same.kernelStack (fun b here => ?_) ok.nested
    unfold FramePlace at here
    split at here
    · rename_i user
      exact parked.irq (kernel user) b here
    · exact same.mem b here
  rw [timerTick_some schedules]
  have scheduler : (Reddyos.parked boot code x sched).sched = sched := rfl
  generalize Reddyos.parked boot code x sched = z at left scheduler same parked ⊢
  subst scheduler
  obtain ⟨room,saved,found,frame,place⟩ := left
  let loaded := { x.cpu.handler with reg := code.reg, rflags := code.rflags, rsp := (z.sched.thread u).rsp }
  obtain ⟨mem,restores,outside⟩ := @archRestore_returned boot code loaded z.mem before ok returns room saved found frame
  refine ⟨mem,by rw [restores]; rfl,rfl,fun b => ?_⟩
  by_cases here : FramePlace boot z u before b
  · refine .inr ⟨before,kept,kernel,?_⟩
    unfold FramePlace at here ⊢
    rwa [onStack_congr (parked.stack u)] at here
  · exact .inl (outside b (by have := place b here; omega))

theorem TasksInv.picked_new (ok : SwitchOk boot) (inv : TasksInv boot events x) (fits : TickFits boot x)
    (schedules : tickSchedule boot code x = .ok (some u,sched)) (new : ¬Started events u) :
    ∃ start cpu, .create u start ∈ events ∧ timerTick boot code x = .ok { parked boot code x sched with cpu := cpu } ∧
      Begins boot { parked boot code x sched with cpu := cpu } u start := by
  obtain ⟨listed,other,live,current,_,threads⟩ := tickSchedule_picked inv schedules
  have has : HasStack x u := inv.listed u listed
  obtain ⟨start,made⟩ := (inv.created u).mp has
  have parked := parked_spec ok inv fits schedules
  have same := parked.others u (.inr has) other
  have room := (inv.stacksOk.fits u has).2.2
  have thread : sched.thread u = x.sched.thread u := by rw [threads,Function.update_of_ne other]
  rw [← thread] at live room
  obtain ⟨cpu,ticks,begins⟩ := picked_ready ok schedules current room live (inv.ready_frame made new same)
  exact ⟨start,cpu,made,ticks,begins⟩

/-- Where a frame of one thread may be, none of another is written. -/
theorem framePlace_apart (stacksOk : StacksOk boot x) (mine : Owns boot x t) (yours : Owns boot x u) (other : t ≠ u)
    (users : c.ring3 = true → d.ring3 = true → False) (here : FramePlace boot x t c b) : ¬FramePlace boot x u d b := by
  unfold FramePlace at here ⊢
  split at here <;> split
  · exact fun _ => users ‹_› ‹_›
  · exact fun on => stacksOk.irqApart u b yours on here
  · exact stacksOk.irqApart t b mine here
  · exact stacksOk.apart t u b other mine yours here

/-- The stacks of the other threads when threads have been switched. -/
theorem Switched.untouched (switched : Switched boot events x z u y) (stacksOk : StacksOk boot x)
    (parked : Parked boot x z) (mine : Owns boot x t) (yours : Owns boot x u) (other : t ≠ u)
    (current : t ≠ x.sched.currentThread) : Untouched boot x y t := by
  obtain ⟨rsp,stack,entry,mem⟩ := parked.others t mine current
  refine ⟨by rw [switched.sched]; exact rsp,by rw [switched.sched]; exact stack,by rw [switched.sched]; exact entry,
    fun b on => ?_⟩
  rcases switched.mem b with same | ⟨before,_,_,place⟩
  · exact same.trans (mem b on)
  · unfold FramePlace at place
    split at place
    · exact absurd place (stacksOk.irqApart t b mine on)
    · exact absurd place (stacksOk.apart t u b other mine yours on)

/-- What is left of the other threads, the one just interrupted among them. -/
theorem TasksInv.left_switched (ok : SwitchOk boot) (inv : TasksInv boot events x) (parked : Parked boot x z)
    (switched : Switched boot events x z u y) (yours : Owns boot x u) (other : t ≠ u) (begun : Started events t)
    (kept : FrameKept (events ++ [.tick x.sched.currentThread x.cpu (some u)]) t before) : Left boot y t before := by
  have mine : Owns boot x t := .inr (inv.hasStack begun)
  have spared : ∀ d, FrameKept events u d → (d.ring3 = true → x.cpu.ring3 = false) →
      before.ring3 = true → d.ring3 = true → False := by
    intro d frame kernel user user'
    rcases frameKept_snoc kept with ⟨picked,same⟩ | ⟨older,_⟩
    · obtain ⟨_,rfl,_⟩ := TaskEvent.tick.inj same
      rw [kernel user'] at user
      cases user
    · exact other (older.one_user frame user user')
  have mem : ∀ b, FramePlace boot x t before b → y.mem b = z.mem b := by
    intro b here
    rcases switched.mem b with same | ⟨d,frame,kernel,place⟩
    · exact same
    · exact absurd place (framePlace_apart inv.stacksOk mine yours other (spared d frame kernel) here)
  have place : ∀ b, FramePlace boot z t before b ↔ FramePlace boot x t before b := fun b => by
    simp only [FramePlace,onStack_congr (parked.stack t)]
  have left : Left boot z t before := by
    rcases frameKept_snoc kept with ⟨picked,same⟩ | ⟨older,different,quiet⟩
    · obtain ⟨rfl,rfl,_⟩ := TaskEvent.tick.inj same
      exact parked.left
    · have current : t ≠ x.sched.currentThread := fun here => different x.cpu u (by rw [here])
      obtain ⟨rsp,stack,_,own⟩ := parked.others t mine current
      refine ((inv.left t begun current).2 before older).keep rsp stack (fun b here => ?_) ok.nested
      unfold FramePlace at here
      split at here
      · rename_i user
        exact parked.irq (quiet user _ _ _ rfl) b here
      · exact own b here
  exact left.keep (by rw [switched.sched]) (by rw [switched.sched]) (fun b here => mem b ((place b).mp here)) ok.nested

theorem TasksInv.switch (ok : SwitchOk boot) (inv : TasksInv boot events x) (fits : TickFits boot x)
    (schedules : tickSchedule boot code x = .ok (some u,sched))
    (switched : Switched boot events x (parked boot code x sched) u y) :
    TasksInv boot (events ++ [.tick x.sched.currentThread x.cpu (some u)]) y := by
  obtain ⟨listed,_,_,current,kept,threads⟩ := tickSchedule_picked inv schedules
  have yours : Owns boot x u := .inr (inv.listed u listed)
  have parked := parked_spec ok inv fits schedules
  have scheduler : y.sched = sched := switched.sched
  have stack : ∀ t, (y.sched.thread t).kernelStack = (x.sched.thread t).kernelStack := fun t => by
    rw [switched.sched,parked.stack]
  have untouched : ∀ t, Owns boot x t → t ≠ u → t ≠ x.sched.currentThread → Untouched boot x y t :=
    fun t mine => switched.untouched inv.stacksOk parked mine yours
  have left : ∀ t d, t ≠ u → Started events t →
      FrameKept (events ++ [.tick x.sched.currentThread x.cpu (some u)]) t d → Left boot y t d :=
    fun t d other begun kept => inv.left_switched ok parked switched yours other begun kept
  generalize x.cpu = before at left
  have added : addedTasks (events ++ [.tick x.sched.currentThread before (some u)]) = addedTasks events := by
    simp [TaskEvent.added]
  have started : ∀ t, Started (events ++ [.tick x.sched.currentThread before (some u)]) t ↔ Started events t ∨ t = u :=
    fun t => by simp [started_snoc,eq_comm]
  have preempted : ∀ t, Preempted (events ++ [.tick x.sched.currentThread before (some u)]) t ↔
      Preempted events t ∨ t = x.sched.currentThread := fun t => by simp [preempted_snoc,eq_comm]
  have created : ∀ t start, .create t start ∈ events ++ [.tick x.sched.currentThread before (some u)] ↔
      .create t start ∈ events := fun t start => by simp
  have has : ∀ t, HasStack y t ↔ HasStack x t := fun t => by simp only [HasStack,stack]
  constructor
  case sched => exact added ▸ scheduler ▸ kept
  case unlinked =>
    rw [added]
    intro t absent
    rw [scheduler,threads,update_links]
    exact inv.unlinked t absent
  case stacksOk => exact inv.stacksOk.congr stack
  case listed =>
    rw [added]
    exact fun t member => (has t).mpr (inv.listed t member)
  case created =>
    simp only [has,created]
    exact inv.created
  case picked =>
    simp only [started,added]
    rintro t (begun | rfl)
    · exact inv.picked t begun
    · exact listed
  case running =>
    rw [started,scheduler]
    exact .inr (.inr current)
  case preempted =>
    simp only [started,preempted]
    rintro t (before | rfl)
    · exact (inv.preempted t before).imp_right .inl
    · exact inv.running.imp_right .inl
  case left =>
    simp only [started,preempted,scheduler,current]
    intro t begun apart
    have begun : Started events t := begun.resolve_right apart
    refine ⟨?_,fun d frame => left t d apart begun frame⟩
    by_cases here : t = x.sched.currentThread
    · exact .inr here
    · exact .inl (inv.left t begun here).1
  case ready =>
    simp only [started,created,not_or]
    rintro t start made ⟨fresh,different⟩
    have mine : HasStack x t := (inv.created t).mpr ⟨start,made⟩
    exact inv.ready_frame made fresh (untouched t (.inr mine) different (inv.other mine fresh))

theorem TasksStart.inv (ok : SwitchOk boot) (start : TasksStart boot x) : TasksInv boot [] x := by
  have none : ∀ t, ¬HasStack x t := fun t has => has (by rw [start.threads]; rfl)
  have boots : ∀ t, Owns boot x t → t = boot.bootstrapTask := fun t mine => mine.resolve_right (none t)
  constructor
  case sched => exact start.sched.inv
  case unlinked =>
    intro t _
    rw [start.threads]
    rfl
  case stacksOk =>
    refine ⟨fun t has => absurd has (none t),fun t b mine on => ?_,fun t u b other mine yours => ?_⟩
    · have apart := ok.bootApart
      obtain rfl := boots t mine
      unfold OnStack stackLow stackSize at on
      rw [if_pos rfl,if_pos rfl] at on
      unfold OnIrqStack
      omega
    · exact absurd ((boots t mine).trans (boots u yours).symm) other
  case listed => exact fun t member => absurd member List.not_mem_nil
  case created => exact fun t => iff_of_false (none t) (by simp)
  case picked => exact fun t begun => by simp [Started] at begun
  case running => exact .inl start.sched.2.2.1
  case preempted => exact fun t before => by simp [Preempted] at before
  case left => exact fun t begun => by simp [Started] at begun
  case ready => exact fun t start made => absurd made List.not_mem_nil

theorem TasksInv.step (ok : SwitchOk boot) (inv : TasksInv boot events x) (picks : PicksOk boot (events ++ [e]))
    (moves : TaskStep boot x e y) : TasksInv boot (events ++ [e]) y := by
  cases moves with
  | run runs => exact inv.run ok runs
  | kernel blocks creates => exact inv.create ok blocks (threadCreate_born blocks creates)
  | user blocks creates => exact inv.create ok blocks (userThreadCreate_born blocks creates)
  | add has new adds => exact inv.add ok has new adds
  | @tick _ picked _ _ fits schedules ticks =>
    cases picked with
    | none =>
      obtain rfl := Except.ok.inj ((timerTick_none ok fits schedules).symm.trans ticks)
      exact inv.idle ok fits schedules
    | some u =>
      rcases (picksOk_snoc.mp picks).2 _ _ _ rfl with new | ⟨returns,before,kept,kernel⟩
      · obtain ⟨_,other,_⟩ := tickSchedule_picked inv schedules
        obtain ⟨start,cpu,_,begun,_⟩ := inv.picked_new ok fits schedules fun started => new (inv.left u started other).1
        have same := Except.ok.inj (begun.symm.trans ticks)
        exact inv.switch ok fits schedules ⟨by rw [← same],fun b => .inl (by rw [← same])⟩
      · obtain ⟨mem,resumed,switched⟩ := inv.picked_resumed ok fits schedules returns kept kernel
        obtain rfl := Except.ok.inj (resumed.symm.trans ticks)
        exact inv.switch ok fits schedules switched

theorem tasks_inv (ok : SwitchOk boot) (run : Run (TasksStart boot) (TaskStep boot) Transitions.free events x)
    (picks : PicksOk boot events) : TasksInv boot events x :=
  run.invariant (fun events x => PicksOk boot events → TasksInv boot events x) (fun _ start _ => start.inv ok)
    (fun _ _ _ _ inv _ moves picks => (inv (picksOk_snoc.mp picks).1).step ok picks moves) picks

/-- A tick is not noticed when nobody else is to run. A thread that is picked goes on where it was interrupted or
begins, in every run in which threads are picked that are new or whose frames are still there. -/
theorem preemption_transparent (ok : SwitchOk boot)
    (run : Run (TasksStart boot) (TaskStep boot) Transitions.free events x) (picks : PicksOk boot events)
    (fits : TickFits boot x) :
    (∀ sched, tickSchedule boot code x = .ok (none,sched) → ∃ y, timerTick boot code x = .ok y ∧ y.cpu = x.cpu) ∧
      ∀ u sched, tickSchedule boot code x = .ok (some u,sched) → PickOk boot events x.cpu u →
        ∃ y, timerTick boot code x = .ok y ∧ Continues boot events u y := by
  have inv := tasks_inv ok run picks
  refine ⟨fun sched schedules => ⟨_,timerTick_none ok fits schedules,rfl⟩,fun u sched schedules pick => ?_⟩
  rcases pick with new | ⟨returns,before,kept,kernel⟩
  · obtain ⟨_,other,_⟩ := tickSchedule_picked inv schedules
    obtain ⟨start,cpu,made,ticks,begins⟩ := inv.picked_new ok fits schedules fun started =>
      new (inv.left u started other).1
    exact ⟨_,ticks,fun before last => absurd last.preempted new,fun _ => ⟨start,made,begins⟩⟩
  · obtain ⟨mem,ticks,_⟩ := inv.picked_resumed ok fits schedules returns kept kernel
    exact ⟨_,ticks,fun before' last => kept.lastLeft.unique last,fun new => absurd kept.lastLeft.preempted new⟩

def taskSwitch (returns : Bool) : SwitchBoot :=
  ⟨taskBoot,0x10000#64,0x20000#64,0x4000,0x100#64,0x200#64,0x300#64,0x400#64,0x500#64,64,256,returns⟩

def taskCode : Compiled := ⟨fun _ => 0#8,fun _ => 0#64,0#64⟩

theorem taskSwitch_ok (returns : Bool) : SwitchOk (taskSwitch returns) := by
  cases returns <;> constructor <;> decide

def idleTasks : Tasks := ⟨⟨fun _ => 0#64,0x23000#64,0x600#64,0x202#64,8#64,0x10#64⟩,fun _ => 0#8,idleScheduler,1#64⟩

def createTask (boot : SwitchBoot) (t kernelStack : U64) : ThreadStart → Tasks → Tasks
  | .kernel entry, x => (threadCreate boot t kernelStack entry x).2
  | .user entry stack, x => (userThreadCreate boot t kernelStack (some ⟨0x9000#64,entry,stack⟩) x).2

theorem createTask_step (blocks : NewBlocks boot x t kernelStack) (start : ThreadStart) :
    Born boot x t kernelStack start (createTask boot t kernelStack start x) ∧
      TaskStep boot x (.create t start) (createTask boot t kernelStack start x) := by
  cases start with
  | kernel entry =>
    have address : (threadCreate boot t kernelStack entry x).1 = t := by
      unfold threadCreate
      rw [threadCreateBase_live blocks.live]
      simp only [if_neg blocks.live.1]
    have creates : threadCreate boot t kernelStack entry x = (t,createTask boot t kernelStack (.kernel entry) x) :=
      Prod.ext address rfl
    exact ⟨threadCreate_born blocks creates,.kernel blocks creates⟩
  | user entry stack =>
    have address : (userThreadCreate boot t kernelStack (some ⟨0x9000#64,entry,stack⟩) x).1 = t := by
      unfold userThreadCreate
      dsimp only
      rw [threadCreateBase_live blocks.live]
      simp only [if_neg blocks.live.1]
    have creates : userThreadCreate boot t kernelStack (some ⟨0x9000#64,entry,stack⟩) x =
        (t,createTask boot t kernelStack (.user entry stack) x) := Prod.ext address rfl
    exact ⟨userThreadCreate_born blocks creates,.user blocks creates⟩

def addTask (t : U64) (x : Tasks) : Except Stop Tasks := do
  let sched ← schedulerAdd 8 t x.sched
  return { x with sched := sched }

def createTwo (boot : SwitchBoot) (first second : ThreadStart) : Tasks :=
  createTask boot 0x3000#64 0xB000#64 second (createTask boot 0x2000#64 0x7000#64 first idleTasks)

def twoTasks (boot : SwitchBoot) (first second : ThreadStart) : Except Stop (Tasks × Tasks × Tasks) := do
  let x₁ ← addTask 0x2000#64 (createTwo boot first second)
  let x₂ ← addTask 0x3000#64 x₁
  let x₃ ← timerTick boot taskCode x₂
  let x₄ ← timerTick boot taskCode x₃
  return (x₂,x₃,x₄)

instance (x : Tasks) : Decidable (TickFits boot x) :=
  inferInstanceAs (Decidable (_ ∨ _))

def tickPicks (boot : SwitchBoot) (x : Tasks) : U64 × Bool × Option (Option U64) :=
  (x.sched.currentThread,decide (TickFits boot x),(tickSchedule boot taskCode x).toOption.map Prod.fst)

theorem tickPicks_spec (picks : tickPicks boot x = (t,true,some picked)) : x.sched.currentThread = t ∧ TickFits boot x ∧
    ∃ sched, tickSchedule boot taskCode x = .ok (picked,sched) := by
  unfold tickPicks at picks
  obtain ⟨current,rest⟩ := Prod.mk.inj picks
  obtain ⟨fits,picks⟩ := Prod.mk.inj rest
  refine ⟨current,of_decide_eq_true fits,?_⟩
  cases returns : tickSchedule boot taskCode x with
  | error stop =>
    rw [returns] at picks
    cases picks
  | ok result =>
    rw [returns] at picks
    obtain rfl := Option.some.inj picks
    exact ⟨result.2,rfl⟩

theorem idleTasks_blocks (returns : Bool) : NewBlocks (taskSwitch returns) idleTasks 0x2000#64 0x7000#64 := by
  have boots : ∀ u, Owns (taskSwitch returns) idleTasks u → u = 0x1000#64 := fun u mine =>
    mine.resolve_right fun has => has rfl
  refine ⟨by decide,fun mine => absurd (boots _ mine) (by decide),by decide,fun u mine b low high on => ?_,
    fun b low high on => ?_⟩
  · obtain rfl := boots u mine
    have above : 0x20000 ≤ b := on.1
    have below : b < 0x7000 + 4096 := high
    omega
  · have above : 0x10000 ≤ b := on.1
    have below : b < 0x7000 + 4096 := high
    omega

theorem firstTask_blocks {returns : Bool} (born : Born (taskSwitch returns) idleTasks 0x2000#64 0x7000#64 start x) :
    NewBlocks (taskSwitch returns) x 0x3000#64 0xB000#64 := by
  have mine : ∀ u, Owns (taskSwitch returns) x u → u = 0x1000#64 ∨ u = 0x2000#64 := by
    rintro u (boots | has)
    · exact .inl boots
    · exact .inr (((born.has (by decide)).mp has).resolve_left fun none => none rfl)
  refine ⟨by decide,fun owns => absurd (mine _ owns) (by decide),by decide,fun u owns b low high on => ?_,
    fun b low high on => ?_⟩
  · have above : 0xB000 ≤ b := low
    have below : b < 0xB000 + 4096 := high
    rcases mine u owns with rfl | rfl
    · have above : 0x20000 ≤ b := on.1
      omega
    · have other : (0x2000#64 : U64) ≠ taskBoot.bootstrapTask := by decide
      have stack := ((onStack_iff other).mp on).2
      rw [born.stack] at stack
      have below : b < 0x7000 + 4096 := stack
      omega
  · have above : 0x10000 ≤ b := on.1
    have below : b < 0xB000 + 4096 := high
    omega

theorem addTask_step (ok : SwitchOk boot)
    (run : Run (TasksStart boot) (TaskStep boot) Transitions.free events x) (picks : PicksOk boot events)
    (has : HasStack x t) (new : t ∉ addedTasks events) (adds : addTask t x = .ok y) :
    Run (TasksStart boot) (TaskStep boot) Transitions.free (events ++ [.add t]) y := by
  obtain ⟨sched,returns,adds⟩ := ok_of_bind adds
  obtain rfl := Except.ok.inj adds
  exact run.step trivial (.add has ((tasks_inv ok run picks).sched.fresh new) returns)

def twoEvents (first second : ThreadStart) (c d : Cpu) : List TaskEvent :=
  [.create 0x2000#64 first,.create 0x3000#64 second,.add 0x2000#64,.add 0x3000#64,
    .tick 0x1000#64 c (some 0x2000#64),.tick 0x2000#64 d (some 0x3000#64)]

theorem twoTasks_run {returns : Bool} {first second : ThreadStart} {x₂ x₃ x₄ : Tasks}
    (result : twoTasks (taskSwitch returns) first second = .ok (x₂,x₃,x₄))
    (picks₂ : tickPicks (taskSwitch returns) x₂ = (0x1000#64,true,some (some 0x2000#64)))
    (picks₃ : tickPicks (taskSwitch returns) x₃ = (0x2000#64,true,some (some 0x3000#64))) :
    Run (TasksStart (taskSwitch returns)) (TaskStep (taskSwitch returns)) Transitions.free
      (twoEvents first second x₂.cpu x₃.cpu) x₄ ∧ PicksOk (taskSwitch returns) (twoEvents first second x₂.cpu x₃.cpu) := by
  have ok := taskSwitch_ok returns
  obtain ⟨current₂,fits₂,_,picks₂⟩ := tickPicks_spec picks₂
  obtain ⟨current₃,fits₃,_,picks₃⟩ := tickPicks_spec picks₃
  obtain ⟨y₁,add₁,rest⟩ := ok_of_bind result
  obtain ⟨y₂,add₂,rest⟩ := ok_of_bind rest
  obtain ⟨y₃,tick₁,rest⟩ := ok_of_bind rest
  obtain ⟨y₄,tick₂,rest⟩ := ok_of_bind rest
  obtain ⟨rfl,rfl,rfl⟩ : y₂ = x₂ ∧ y₃ = x₃ ∧ y₄ = x₄ := by
    simpa [pure,Except.pure] using rest
  have start : Run (TasksStart (taskSwitch returns)) (TaskStep (taskSwitch returns)) Transitions.free [] idleTasks :=
    .start ⟨⟨show (0x1000#64 : U64) ≠ 0#64 by decide,rfl,rfl,rfl⟩,fun _ => rfl⟩
  obtain ⟨born,creates⟩ := createTask_step (idleTasks_blocks returns) first
  obtain ⟨_,creates'⟩ := createTask_step (firstTask_blocks born) second
  have run := (start.step trivial creates).step trivial creates'
  have none : ∀ events : List TaskEvent, (∀ e ∈ events, ∀ left c u, e ≠ .tick left c (some u)) →
      PicksOk (taskSwitch returns) events := by
    rintro events quiet earlier left c u later rfl
    exact absurd rfl (quiet _ (by simp) left c u)
  have picks₀ := none ([] ++ [.create 0x2000#64 first] ++ [.create 0x3000#64 second]) (by simp)
  have inv := tasks_inv ok run picks₀
  have run := addTask_step ok run picks₀ ((inv.created _).mpr ⟨first,by simp⟩) (by simp [addedTasks,TaskEvent.added]) add₁
  have picks₁ := none ([] ++ [.create 0x2000#64 first] ++ [.create 0x3000#64 second] ++ [.add 0x2000#64]) (by simp)
  have inv := tasks_inv ok run picks₁
  have run := addTask_step ok run picks₁ ((inv.created _).mpr ⟨second,by simp⟩) (by simp [addedTasks,TaskEvent.added]) add₂
  have run := (run.step trivial (.tick fits₂ picks₂ tick₁)).step trivial (.tick fits₃ picks₃ tick₂)
  rw [current₂,current₃] at run
  refine ⟨run,?_⟩
  have added := none ([] ++ [.create 0x2000#64 first] ++ [.create 0x3000#64 second] ++ [.add 0x2000#64] ++
    [.add 0x3000#64]) (by simp)
  refine picksOk_snoc.mpr ⟨picksOk_snoc.mpr ⟨added,fun left c u same => .inl ?_⟩,fun left c u same => .inl ?_⟩
  · obtain ⟨_,_,same⟩ := TaskEvent.tick.inj same
    simp [Preempted]
  · obtain ⟨_,_,same⟩ := TaskEvent.tick.inj same
    obtain rfl := Option.some.inj same
    simp [Preempted]

def threePicks (boot : SwitchBoot) (r : Tasks × Tasks × Tasks) : List (U64 × Bool × Option (Option U64)) :=
  [tickPicks boot r.1,tickPicks boot r.2.1,tickPicks boot r.2.2]

def turns : List (U64 × Bool × Option (Option U64)) :=
  [(0x1000#64,true,some (some 0x2000#64)),(0x2000#64,true,some (some 0x3000#64)),(0x3000#64,true,some (some 0x2000#64))]

theorem preemption_transparent_two : ∃ events x y sched,
    Run (TasksStart (taskSwitch true)) (TaskStep (taskSwitch true)) Transitions.free events x ∧
    tickSchedule (taskSwitch true) taskCode x = .ok (some 0x2000#64,sched) ∧ Preempted events 0x2000#64 ∧
    timerTick (taskSwitch true) taskCode x = .ok y ∧ Continues (taskSwitch true) events 0x2000#64 y := by
  have ticks : (twoTasks (taskSwitch true) (.kernel 0x400000#64) (.kernel 0x500000#64)).toOption.map (fun r =>
      (threePicks (taskSwitch true) r,r.2.1.cpu.ring3)) = some (turns,false) := by decide +kernel
  cases result : twoTasks (taskSwitch true) (.kernel 0x400000#64) (.kernel 0x500000#64) with
  | error stop => rw [result] at ticks; cases ticks
  | ok r =>
    obtain ⟨x₂,x₃,x₄⟩ := r
    rw [result] at ticks
    simp only [Except.toOption,Option.map_some,Option.some.injEq,Prod.mk.injEq,threePicks,turns,List.cons.injEq,
      and_true] at ticks
    obtain ⟨⟨first,second,third⟩,kernel⟩ := ticks
    obtain ⟨run,picks⟩ := twoTasks_run result first second
    obtain ⟨_,fits,sched,picked⟩ := tickPicks_spec third
    have kept : FrameKept (twoEvents (.kernel 0x400000#64) (.kernel 0x500000#64) x₂.cpu x₃.cpu) 0x2000#64 x₃.cpu :=
      ⟨[_,_,_,_,_],_,[],rfl,by simp [Preempted],fun user => by rw [kernel] at user; cases user⟩
    have pick : PickOk (taskSwitch true) (twoEvents (.kernel 0x400000#64) (.kernel 0x500000#64) x₂.cpu x₃.cpu) x₄.cpu
        0x2000#64 := .inr ⟨rfl,_,kept,fun user => by rw [kernel] at user; cases user⟩
    obtain ⟨y,ticks,continues⟩ := (preemption_transparent (taskSwitch_ok true) run picks fits).2 _ _ picked pick
    exact ⟨_,_,y,sched,run,picked,kept.lastLeft.preempted,ticks,continues⟩

/-- Two threads in ring 3 have taken turns on the one stack for their interrupts, and the first is picked again: it
comes back at the place of the second, or not at all where the code behind the call of `arch_switch_thread` does not
return. -/
def Swaps (returns : Bool) : Prop := ∃ events x sched,
  Run (TasksStart (taskSwitch returns)) (TaskStep (taskSwitch returns)) Transitions.free events x ∧
    PicksOk (taskSwitch returns) events ∧ TickFits (taskSwitch returns) x ∧
    tickSchedule (taskSwitch returns) taskCode x = .ok (some 0x2000#64,sched) ∧ Preempted events 0x2000#64 ∧
    (timerTick (taskSwitch returns) taskCode x).toOption.map (·.cpu.rip) =
      (if returns then some 0x500000#64 else none) ∧
    ¬∃ y, timerTick (taskSwitch returns) taskCode x = .ok y ∧ Continues (taskSwitch returns) events 0x2000#64 y

theorem swaps (returns : Bool) : Swaps returns := by
  have ticks : ∀ returns, (twoTasks (taskSwitch returns) (.user 0x400000#64 0x7FFF0000#64)
      (.user 0x500000#64 0x7FFE0000#64)).toOption.map (fun r => (threePicks (taskSwitch returns) r,r.2.1.cpu.rip,
        (timerTick (taskSwitch returns) taskCode r.2.2).toOption.map (·.cpu.rip))) =
      some (turns,0x400000#64,if returns then some 0x500000#64 else none) := by
    rintro (_ | _) <;> decide +kernel
  have ticks := ticks returns
  cases result : twoTasks (taskSwitch returns) (.user 0x400000#64 0x7FFF0000#64) (.user 0x500000#64 0x7FFE0000#64) with
  | error stop => rw [result] at ticks; cases ticks
  | ok r =>
    obtain ⟨x₂,x₃,x₄⟩ := r
    rw [result] at ticks
    simp only [Except.toOption,Option.map_some,Option.some.injEq,Prod.mk.injEq,threePicks,turns,List.cons.injEq,
      and_true] at ticks
    obtain ⟨⟨first,second,third⟩,rip,last⟩ := ticks
    obtain ⟨run,picks⟩ := twoTasks_run result first second
    obtain ⟨_,fits,sched,picked⟩ := tickPicks_spec third
    have left : LastLeft (twoEvents (.user 0x400000#64 0x7FFF0000#64) (.user 0x500000#64 0x7FFE0000#64) x₂.cpu x₃.cpu)
        0x2000#64 x₃.cpu := ⟨[_,_,_,_,_],_,[],rfl,by simp [Preempted]⟩
    refine ⟨_,_,sched,run,picks,fits,picked,left.preempted,last,?_⟩
    rintro ⟨y,ticked,continues,_⟩
    rw [ticked] at last
    change some y.cpu.rip = _ at last
    rw [continues _ left,rip] at last
    cases returns <;> exact absurd last (by decide)

theorem preempted_swapped : Swaps true ∧ Swaps false := ⟨swaps true,swaps false⟩

end Reddyos
