import Reddyos.Transitions
import Reddyos.UserMemory

/-! Processes that share one kernel and make their calls in any order: each has a memory of
its own, the replay of its own calls. -/
namespace Reddyos

open ByteMemory RadixForest OrderedTree PagedMemory Transitions

/-- A process, with the memory that its calls so far should have made. -/
structure Watched where
  process : Process
  memory : Memory U64 (BitVec 8)

abbrev Processes (ι : Type) := Global ι Kernel Watched

variable {ι : Type}

def Processes.machine (g : Processes ι) (i : ι) : Machine := ⟨g.shared,(g.own i).process⟩

def serve (boot : Boot) (ft : Ftrees) (k : Kernel) (w : Watched) (call : VmaCall) : Option (Kernel × Watched) :=
  match runCall boot ft call ⟨k,w.process⟩ with
  | .ok next => some (next.kernel,⟨next.process,replay w.memory (callEvents boot ft ⟨k,w.process⟩ call)⟩)
  | .error _ => none

/-- No frame lies behind two pages, of one process or of two. -/
def PrivateFrames (g : Processes ι) : Prop := ∀ i j v w e e', lowerHalf v → lowerHalf w →
  leafOf g.shared.pmm (g.own i).process.pml4 v = some e → leafOf g.shared.pmm (g.own j).process.pml4 w = some e' →
  e &&& pageMask = e' &&& pageMask → i = j ∧ v.toNat / 4096 = w.toNat / 4096

/-- Processes without areas, each with an address space and pages of its own. -/
structure ProcessesOk (boot : Boot) (procs : List U64) (g : Processes ι) : Prop where
  empty : ∀ i, NoAreas (g.machine i)
  member : ∀ i, (g.own i).process.pml4 ∈ procs
  apart : ∀ i j, (g.own i).process.pml4 = (g.own j).process.pml4 → i = j
  owned : ∃ free, Spaces boot g.shared.pmm free procs ∧ HeapOk boot g.shared.pmm free g.shared.heap ∧
    ∀ i v e, lowerHalf v → leafOf g.shared.pmm (g.own i).process.pml4 v = some e →
      Held boot procs g.shared.pmm free (e &&& pageMask)
  frames : PrivateFrames g
  memory : ∀ i, (g.own i).memory = userLoad (g.machine i)

def CallOk (ft : Ftrees) (g : Processes ι) (e : ι × VmaCall) : Prop := ResidentStep ft (g.machine e.1) e.2

structure MemoryInv (boot : Boot) (procs : List U64) (g : Processes ι) (free : List U64) : Prop where
  resident : ∀ i, (g.machine i).Resident boot procs free
  apart : ∀ i j, (g.own i).process.pml4 = (g.own j).process.pml4 → i = j
  frames : PrivateFrames g
  memory : ∀ i, userLoad (g.machine i) = (g.own i).memory

variable {boot : Boot} {procs : List U64} {ft : Ftrees} {g next : Processes ι} {free rest : List U64}
variable {start : Processes ι} {events : List (ι × VmaCall)}

theorem ProcessesOk.inv (ok : ProcessesOk boot procs g) : ∃ free, MemoryInv boot procs g free := by
  obtain ⟨free,spaces,heap,held⟩ := ok.owned
  refine ⟨free,fun i => ?_,ok.apart,ok.frames,fun i => (ok.memory i).symm⟩
  have one : ProcessOk boot procs (g.machine i) := ⟨ok.empty i,ok.member i,free,spaces,heap,held i⟩
  obtain ⟨left,res⟩ := one.resident
  rwa [freeList_unique spaces res.spaces]

/-- A process that stands by keeps its pages and its records. -/
theorem Served.beside {m last : Machine} {p : Process} {effects : List (Event U64 (BitVec 8))}
    (served : Served boot procs effects m free last rest)
    (res : Machine.Resident boot procs ⟨m.kernel,p⟩ free) (other : p.pml4 ≠ m.process.pml4) :
    Machine.Resident boot procs ⟨last.kernel,p⟩ rest := by
  have leaf : ∀ v, lowerHalf v → leafOf last.kernel.pmm p.pml4 v = leafOf m.kernel.pmm p.pml4 v :=
    fun v lower => served.others res.member other lower
  refine ⟨served.resident.spaces,served.resident.heap,res.member,res.vma,res.lower,res.inside,?_,?_,?_⟩
  · intro q listed page recorded
    obtain ⟨pt,found⟩ := res.table q listed page recorded
    exact ⟨pt,served.tables (res.adm (res.lowerHalf listed (res.inside q listed page recorded))) found⟩
  · intro q listed v inArea resident
    refine res.complete q listed v inArea ?_
    rwa [← leaf v (res.lowerHalf listed inArea)]
  · intro v e lower found
    rw [leaf v lower] at found
    exact served.held (res.frames v e lower found)

/-- One process was served, the others stand by. -/
theorem MemoryInv.served (inv : MemoryInv boot procs g free)
    {effects : List (Event U64 (BitVec 8))}
    (served : Served boot procs effects (g.machine i) free (next.machine i) rest)
    (memory : (next.own i).memory = replay (g.own i).memory effects)
    (others : ∀ j, j ≠ i → next.own j = g.own j) : MemoryInv boot procs next rest := by
  have root : ∀ j, (next.own j).process.pml4 = (g.own j).process.pml4 := by
    intro j
    by_cases here : j = i
    · subst j
      exact served.same
    · rw [others j here]
  have standing : ∀ j, j ≠ i → (g.own j).process.pml4 ≠ (g.own i).process.pml4 :=
    fun j different same => different (inv.apart j i same)
  have beside : ∀ j, j ≠ i → (next.machine j).Resident boot procs rest := by
    intro j different
    have kept := served.beside (p := (g.own j).process) (inv.resident j) (standing j different)
    unfold Processes.machine
    rwa [others j different]
  have leaf : ∀ j v, j ≠ i → lowerHalf v →
      leafOf next.shared.pmm (g.own j).process.pml4 v = leafOf g.shared.pmm (g.own j).process.pml4 v :=
    fun j v different lower => served.others (inv.resident j).member (standing j different) lower
  have fresh : ∀ j w e e', lowerHalf w → e &&& pageMask ∈ avail boot g.shared.pmm free →
      leafOf g.shared.pmm (g.own j).process.pml4 w = some e' → e &&& pageMask ≠ e' &&& pageMask :=
    fun j w e e' lower new found same => ((inv.resident j).frames w e' lower found).2.1 (same ▸ new)
  refine ⟨?_,?_,?_,?_⟩
  · intro j
    by_cases here : j = i
    · exact here ▸ served.resident
    · exact beside j here
  · intro j j' same
    rw [root,root] at same
    exact inv.apart j j' same
  · intro j j' v w e e' lower lower' first second same
    rw [root] at first second
    by_cases here : j = i <;> by_cases there : j' = i
    · subst j j'
      refine ⟨rfl,?_⟩
      rcases served.pages v e lower first with old | ⟨_,single⟩
      · rcases served.pages w e' lower' second with old' | ⟨_,single⟩
        · exact (inv.frames i i v w e e' lower lower' old old' same).2
        · exact single v e lower first same
      · exact (single w e' lower' second same.symm).symm
    · subst j
      rw [leaf j' w there lower'] at second
      rcases served.pages v e lower first with old | ⟨new,_⟩
      · exact inv.frames i j' v w e e' lower lower' old second same
      · exact absurd same (fresh j' w e e' lower' new second)
    · subst j'
      rw [leaf j v here lower] at first
      rcases served.pages w e' lower' second with old | ⟨new,_⟩
      · exact inv.frames j i v w e e' lower lower' first old same
      · exact absurd same.symm (fresh j v e' e lower new first)
    · rw [leaf j v here lower] at first
      rw [leaf j' w there lower'] at second
      exact inv.frames j j' v w e e' lower lower' first second same
  · intro j
    by_cases here : j = i
    · subst j
      rw [memory,← inv.memory]
      exact served.loads
    · rw [others j here,← inv.memory j]
      funext v
      by_cases lower : lowerHalf v
      · refine userLoad_congr (inv.resident j) (beside j here) lower ?_ fun e found => ?_
        · exact (congrArg (leafOf next.shared.pmm · v) (root j)).trans (leaf j v here lower)
        · -- the frames of the process that calls are not this one's
          refine served.bytes ((inv.resident j).frames v e lower found) (fun w e' lower' found' equal => ?_)
            (by omega) (by omega)
          exact here (inv.frames i j w v e' e lower' lower found' found equal).1.symm
      · rw [userLoad_upper lower,userLoad_upper lower]

theorem serve_cases [DecidableEq ι] (moves : Interleaved (serve boot ft) g (i,call) next) :
    runCall boot ft call (g.machine i) = .ok (next.machine i) ∧
      (next.own i).memory = replay (g.own i).memory (callEvents boot ft (g.machine i) call) ∧
      ∀ j, j ≠ i → next.own j = g.own j := by
  obtain ⟨k,w,acts,shared,own,others⟩ := moves.cases
  dsimp only at acts own others
  unfold serve at acts
  split at acts
  · rename_i last returns
    obtain ⟨rfl,rfl⟩ := Prod.mk.inj (Option.some.inj acts)
    unfold Processes.machine
    rw [shared,own]
    exact ⟨returns,rfl,others⟩
  · cases acts

theorem MemoryInv.step [DecidableEq ι] (ok : BootOk boot) (cpu : CpuOk boot) (lawful : Lawful ft.ops)
    (small : ft.nodeBytes.toNat ≤ 2^62) (inv : MemoryInv boot procs g free) (allowed : CallOk ft g (i,call))
    (moves : Interleaved (serve boot ft) g (i,call) next) : ∃ rest, MemoryInv boot procs next rest := by
  obtain ⟨returns,memory,others⟩ := serve_cases moves
  have alone : PrivatePages (g.machine i) := fun v w e e' lower lower' first second same =>
    (inv.frames i i v w e e' lower lower' first second same).2
  obtain ⟨rest,served⟩ := runCall_served ok cpu lawful small (inv.resident i) alone allowed returns
  exact ⟨rest,inv.served served memory others⟩

/-- What every process reads is the replay of its own calls, whatever the others do. -/
theorem process_memory [DecidableEq ι] (ok : BootOk boot) (cpu : CpuOk boot) (lawful : Lawful ft.ops)
    (small : ft.nodeBytes.toNat ≤ 2^62)
    (run : Run (ProcessesOk boot procs) (Interleaved (serve boot ft)) (CallOk ft) events g) (i : ι) :
    userLoad (g.machine i) = (g.own i).memory := by
  obtain ⟨free,inv⟩ := run.invariant (fun _ g => ∃ free, MemoryInv boot procs g free)
    (fun _ start => start.inv) fun _ _ _ _ inv allowed moves => by
      obtain ⟨free,inv⟩ := inv
      exact inv.step ok cpu lawful small allowed moves
  exact inv.memory i

theorem callEvents_come {m : Machine} (member : .come range contents ∈ callEvents boot ft m call) (v : U64) :
    contents v = 0#8 := by
  unfold callEvents at member
  split at member
  · cases member
  · split at member
    · simp at member
    · cases member
  · split at member
    · simp only [List.mem_singleton,Event.come.injEq] at member
      rw [member.2]
    · cases member
  · simp at member

theorem callEvents_store {m : Machine} (member : .store v b ∈ callEvents boot ft m call) : call = .store v b := by
  unfold callEvents at member
  split at member
  · cases member
  · split at member
    · simp at member
    · cases member
  · split at member
    · simp at member
    · cases member
  · simp only [List.mem_singleton,Event.store.injEq] at member
    rw [member.1,member.2]

/-- The byte was in the memory of the process at the start, it is the zero of a new page, or
the process has stored it itself. -/
def OwnByte (start : Processes ι) (events : List (ι × VmaCall)) (i : ι) (v : U64) (b : BitVec 8) : Prop :=
  userLoad (start.machine i) v = some b ∨ b = 0#8 ∨ (i,.store v b) ∈ events

theorem OwnByte.later (own : OwnByte start events i v b) (more : List (ι × VmaCall)) :
    OwnByte start (events ++ more) i v b :=
  own.imp_right (.imp_right (List.mem_append_left more))

/-- No byte comes to a process from another. -/
theorem process_reads_own [DecidableEq ι] (ok : BootOk boot) (cpu : CpuOk boot) (lawful : Lawful ft.ops)
    (small : ft.nodeBytes.toNat ≤ 2^62)
    (run : Run (fun g => g = start ∧ ProcessesOk boot procs g) (Interleaved (serve boot ft)) (CallOk ft) events g)
    (i : ι) (reads : userLoad (g.machine i) v = some b) : OwnByte start events i v b := by
  obtain ⟨⟨_,inv⟩,origin⟩ : (∃ free, MemoryInv boot procs g free) ∧
      ∀ i v b, (g.own i).memory v = some b → OwnByte start events i v b := by
    refine run.invariant (fun events g => (∃ free, MemoryInv boot procs g free) ∧
      ∀ i v b, (g.own i).memory v = some b → OwnByte start events i v b) ?_ ?_
    · rintro _ ⟨rfl,ok⟩
      refine ⟨ok.inv,fun i v b found => .inl ?_⟩
      rwa [← ok.memory i]
    · rintro events g ⟨j,call⟩ next ⟨⟨_,inv⟩,origin⟩ allowed moves
      refine ⟨inv.step ok cpu lawful small allowed moves,fun i v b found => ?_⟩
      obtain ⟨_,memory,others⟩ := serve_cases moves
      by_cases here : i = j
      · subst j
        rw [memory] at found
        rcases replay_origin found with before | ⟨range,contents,came,_,value⟩ | stored
        · exact (origin i v b before).later _
        · exact .inr (.inl (value ▸ callEvents_come came v))
        · rw [callEvents_store stored]
          exact .inr (.inr (by simp))
      · rw [others i here] at found
        exact (origin i v b found).later _
  exact origin i v b (inv.memory i ▸ reads)

def twoProcesses : Except Stop (Processes Bool) := do
  let (first,s) ← pagingCreateAddressSpace fbBoot fbStart.pmm
  let (second,s) ← pagingCreateAddressSpace fbBoot s
  return ⟨⟨s,fbStart.heap⟩,fun i =>
    ⟨⟨if i then second else first,0xEFFE0000#64,0xEFF60000#64,areasInit⟩,fun _ => none⟩⟩

theorem twoProcesses_ok {g : Processes Bool} (returns : twoProcesses = .ok g) : ∃ procs, ProcessesOk fbBoot procs g ∧
    ∀ i v, lowerHalf v → mmuTranslate g.shared.pmm.mem (g.own i).process.pml4 v = none := by
  unfold twoProcesses at returns
  obtain ⟨⟨first,s₁⟩,creates,returns⟩ := ok_of_bind returns
  obtain ⟨⟨second,s₂⟩,creates',returns⟩ := ok_of_bind returns
  obtain rfl := Except.ok.inj returns
  obtain ⟨free,spaces,heapOk⟩ := fbStart_ok
  obtain ⟨rest,created⟩ := pagingCreateAddressSpace_spec fbBoot_ok spaces creates
  obtain ⟨left,created'⟩ := pagingCreateAddressSpace_spec fbBoot_ok created.spaces creates'
  have root : ∀ i : Bool, (if i then second else first) ∈ [second,first] := by
    intro i
    cases i <;> simp
  have empty : ∀ (i : Bool) v, lowerHalf v → leafOf s₂ (if i then second else first) v = none := by
    intro i v lower
    cases i with
    | true => exact created'.leaf lower
    | false =>
      exact (created'.same.leafAt (adm_pathOf v (.inr ⟨by simp,lower⟩)) (index_lt v).2.2.2).trans
        (created.leaf lower)
  have absent : ∀ (i : Bool) v, lowerHalf v → mmuTranslate s₂.mem (if i then second else first) v = none := by
    intro i v lower
    rw [created'.spaces.translate (root i) (adm_pathOf v (.inr ⟨root i,lower⟩))]
    exact congrArg (Option.map (physical v)) (empty i v lower)
  refine ⟨[second,first],⟨fun _ => rfl,root,?_,⟨left,created'.spaces,created'.heapOk (created.heapOk heapOk),?_⟩,?_,?_⟩,
    absent⟩
  · intro i j same
    have different : second ≠ first := fun equal => created'.new (by simp [equal])
    cases i <;> cases j <;> simp_all
  · intro i v e lower leaf
    rw [empty i v lower] at leaf
    cases leaf
  · intro i j v w e e' lower _ leaf
    rw [empty i v lower] at leaf
    cases leaf
  · intro i
    funext v
    unfold userLoad
    split
    · exact (congrArg (Option.map _) (absent i v ‹_›)).symm
    · rfl

def touchAndStore : Option (Processes Bool × Processes Bool × Processes Bool × Processes Bool) := do
  let g₀ ← twoProcesses.toOption
  let g₁ ← g₀.take (serve fbBoot spineTrees) false (.mmap none 4096#64 0#64)
  let g₂ ← g₁.take (serve fbBoot spineTrees) true (.fault 0xEFFDFFF0#64)
  let g₃ ← g₂.take (serve fbBoot spineTrees) false (.fault 0x10000000#64)
  let g₄ ← g₃.take (serve fbBoot spineTrees) true (.store 0xEFFDFFF0#64 9#8)
  let g₅ ← g₄.take (serve fbBoot spineTrees) false (.store 0x10000000#64 7#8)
  return (g₀,g₁,g₂,g₅)

theorem touchAndStore_run : ∃ procs g₀ events g,
    Run (fun g => g = g₀ ∧ ProcessesOk fbBoot procs g) (Interleaved (serve fbBoot spineTrees)) (CallOk spineTrees)
        events g ∧ events.map Prod.fst = [false,true,false,true,false] ∧
      ((g.own false).memory 0x10000000#64 = some 7#8 ∧ (g.own true).memory 0x10000000#64 = none) ∧
      (g.own true).memory 0xEFFDFFF0#64 = some 9#8 ∧ (g.own false).memory 0xEFFDFFF0#64 = none := by
  have evaluated : touchAndStore.map (fun r => ([vmaFindFreeRegion spineTrees (r.1.own false).process.areas 4096#64,
        (r.2.1.own true).process.userStackBottom,(r.2.2.1.own false).process.userStackBottomMax],
      [(r.2.1.own true).process.areas.list,(r.2.2.1.own false).process.areas.list],
      ((r.2.2.1.own false).process.areas.area 0).type,
      [(r.2.2.2.own false).memory 0x10000000#64,(r.2.2.2.own true).memory 0x10000000#64,
        (r.2.2.2.own true).memory 0xEFFDFFF0#64,(r.2.2.2.own false).memory 0xEFFDFFF0#64])) =
      some ([0x10000000#64,0xEFFE0000#64,0xEFF60000#64],[[],[0]],.anon,[some 7#8,none,some 9#8,none]) := by
    decide +kernel
  obtain ⟨⟨_,_,_,_⟩,computed,values⟩ := Option.map_eq_some_iff.mp evaluated
  simp only [Prod.mk.injEq,List.cons.injEq,and_true] at values
  obtain ⟨⟨placed,bottom,stack⟩,⟨empty,list⟩,anon,stored,other,stored',other'⟩ := values
  unfold touchAndStore at computed
  obtain ⟨g₀,start,computed⟩ := Option.bind_eq_some_iff.mp computed
  obtain ⟨g₁,first,computed⟩ := Option.bind_eq_some_iff.mp computed
  obtain ⟨g₂,second,computed⟩ := Option.bind_eq_some_iff.mp computed
  obtain ⟨g₃,third,computed⟩ := Option.bind_eq_some_iff.mp computed
  obtain ⟨g₄,fourth,computed⟩ := Option.bind_eq_some_iff.mp computed
  obtain ⟨g₅,fifth,computed⟩ := Option.bind_eq_some_iff.mp computed
  simp only [pure,Option.some.injEq,Prod.mk.injEq] at computed
  obtain ⟨rfl,rfl,rfl,rfl⟩ := computed
  have begun : twoProcesses = .ok g₀ := by
    cases result : twoProcesses with
    | error stop => rw [result] at start; cases start
    | ok g => rw [result] at start; exact congrArg _ (Option.some.inj start)
  obtain ⟨procs,ok,absent⟩ := twoProcesses_ok begun
  have room : CallOk spineTrees g₀ (false,.mmap none 4096#64 0#64) := by
    have size : (alignUp 4096#64).toNat = 4096 := rfl
    have base : (0x10000000#64).toNat = 0x10000000 := rfl
    refine .inr (.inr (.inr ?_))
    change Vacant _ (vmaFindFreeRegion spineTrees (g₀.own false).process.areas 4096#64) _
    rw [placed]
    refine ⟨by omega,fun v _ high => absent false v ?_⟩
    unfold lowerHalf
    omega
  have grow : CallOk spineTrees g₁ (true,.fault 0xEFFDFFF0#64) := by
    have none : ∀ p, p ∉ (g₁.own true).process.areas.list := by
      intro p
      rw [empty]
      exact List.not_mem_nil
    refine ⟨fun _ => ⟨?_,fun p listed => absurd listed (none p)⟩,fun _ p listed _ => absurd listed (none p)⟩
    change lowerHalf ((g₁.own true).process.userStackBottom - 4096#64)
    rw [bottom]
    decide
  have touch : CallOk spineTrees g₂ (false,.fault 0x10000000#64) := by
    refine ⟨fun grows => ?_,fun _ p listed _ => .inl ?_⟩
    · have near := grows.1.1
      change (g₂.own false).process.userStackBottomMax ≤ _ at near
      rw [stack] at near
      exact absurd near (by decide)
    · change p ∈ (g₂.own false).process.areas.list at listed
      rw [list,List.mem_singleton] at listed
      rw [listed]
      exact anon
  have store : CallOk spineTrees g₃ (true,.store 0xEFFDFFF0#64 9#8) := trivial
  have store' : CallOk spineTrees g₄ (false,.store 0x10000000#64 7#8) := trivial
  have run : Run (fun g => g = g₀ ∧ ProcessesOk fbBoot procs g) (Interleaved (serve fbBoot spineTrees))
      (CallOk spineTrees) [] g₀ := .start ⟨rfl,ok⟩
  exact ⟨procs,g₀,_,g₅,.step (.step (.step (.step (.step run room first) grow second) touch third) store fourth) store' fifth,
    rfl,⟨stored,other⟩,stored',other'⟩

/-- Each finds what it stored, and nothing of the other. -/
theorem process_memory_touch : ∃ procs g events,
    Run (ProcessesOk fbBoot procs) (Interleaved (serve fbBoot spineTrees)) (CallOk spineTrees) events g ∧
      events.map Prod.fst = [false,true,false,true,false] ∧
      (userLoad (g.machine false) 0x10000000#64 = some 7#8 ∧ userLoad (g.machine true) 0x10000000#64 = none) ∧
      userLoad (g.machine true) 0xEFFDFFF0#64 = some 9#8 ∧ userLoad (g.machine false) 0xEFFDFFF0#64 = none := by
  obtain ⟨procs,g₀,events,g,run,turns,⟨stored,other⟩,stored',other'⟩ := touchAndStore_run
  have run := run.enlarge fun _ start => start.2
  have memory := process_memory fbBoot_ok fbBoot_cpu spineOps_lawful (by decide) run
  exact ⟨procs,g,events,run,turns,⟨(congrFun (memory false) _).trans stored,(congrFun (memory true) _).trans other⟩,
    (congrFun (memory true) _).trans stored',(congrFun (memory false) _).trans other'⟩

theorem process_reads_own_touch : ∃ procs g₀ events g,
    Run (fun g => g = g₀ ∧ ProcessesOk fbBoot procs g) (Interleaved (serve fbBoot spineTrees)) (CallOk spineTrees)
        events g ∧
      userLoad (g.machine false) 0x10000000#64 = some 7#8 ∧ OwnByte g₀ events false 0x10000000#64 7#8 := by
  obtain ⟨procs,g₀,events,g,run,_,⟨stored,_⟩,_⟩ := touchAndStore_run
  obtain ⟨_,inv⟩ := run.invariant (fun _ g => ∃ free, MemoryInv fbBoot procs g free)
    (fun _ start => start.2.inv) fun _ _ _ _ inv allowed moves =>
      inv.elim fun _ inv => inv.step fbBoot_ok fbBoot_cpu spineOps_lawful (by decide) allowed moves
  have reads : userLoad (g.machine false) 0x10000000#64 = some 7#8 := (congrFun (inv.memory false) _).trans stored
  exact ⟨procs,g₀,events,g,run,reads,process_reads_own fbBoot_ok fbBoot_cpu spineOps_lawful (by decide) run false reads⟩

end Reddyos
