import Mathlib.Data.List.Nodup
import Reddyos.Pmm
import Reddyos.Transitions

/-! The scheduler of `scheduler/scheduler.c`: the list of threads and the choice of the next one.
Threads are known by their addresses; the state of their floating-point units is left out. -/
namespace Reddyos

open LinkedChain Transitions

/-- `thread_t`; of a process only the root of its tables matters here. -/
structure Thread where
  rsp : U64
  kernelStack : U64
  userStack : U64
  tid : U64
  entry : U64
  process : Option U64
  next : U64
  fsBase : U64

def Thread.zero : Thread := ⟨0#64,0#64,0#64,0#64,0#64,none,0#64,0#64⟩

/-- The address of `bootstrap_task` and the root of the kernel's tables. -/
structure SchedulerBoot where
  bootstrapTask : U64
  kernelCr3 : U64

/-- `thread_list`, `current_thread` and the registers of the processor that a switch loads. -/
structure Scheduler where
  thread : U64 → Thread
  threadList : U64
  currentThread : U64
  cr3 : U64
  fsBase : U64

def Scheduler.setThread (s : Scheduler) (t : U64) (thread : Thread) : Scheduler :=
  { s with thread := Function.update s.thread t thread }

def schedulerInit (boot : SchedulerBoot) (s : Scheduler) : Scheduler := { s with currentThread := boot.bootstrapTask }

/-- `while (iter->next)`; `fuel` exceeds the length of the list. -/
def lastThread (thread : U64 → Thread) : Nat → U64 → Except Stop U64
  | 0, _ => throw .looping
  | fuel + 1, iter => if (thread iter).next ≠ 0#64 then lastThread thread fuel (thread iter).next else return iter

def schedulerAdd (fuel : Nat) (t : U64) (s : Scheduler) : Except Stop Scheduler :=
  if s.threadList = 0#64 then return { s with threadList := t }
  else do
    let last ← lastThread s.thread fuel s.threadList
    return s.setThread last { s.thread last with next := t }

/-- The thread that is made current, if any; `rsp` is what `arch_switch_thread` saves of the thread
that is left. -/
def schedule (boot : SchedulerBoot) (rsp : U64) (s : Scheduler) : Except Stop (Option U64 × Scheduler) :=
  if s.currentThread = 0#64 then return (none,s)
  else
    let prev := s.currentThread
    let next := if (s.thread prev).next ≠ 0#64 then (s.thread prev).next else s.threadList
    if next = 0#64 ∨ next = prev then return (none,s)
    else
      let targetCr3 := (s.thread next).process.getD boot.kernelCr3
      let cr3 := if targetCr3 ≠ 0#64 ∧ targetCr3 ≠ s.cr3 then targetCr3 else s.cr3
      if cr3 ≠ targetCr3 ∨ (s.thread next).rsp = 0#64 ∨ (s.thread next).entry = 0#64 then
        throw (.panic "Assertion Failed")
      else
        let s := { s with cr3 := cr3, fsBase := (s.thread next).fsBase, currentThread := next }
        return (some next,s.setThread prev { s.thread prev with rsp := rsp })

def ThreadsListed (s : Scheduler) (threads : List U64) : Prop :=
  Chain (fun t => t) (fun t => (s.thread t).next) 0#64 s.threadList threads

/-- `schedule` carries the thread that it makes current. -/
inductive SchedEvent where
  | add (t : U64)
  | schedule (picked : Option U64)
  deriving DecidableEq, Repr

inductive SchedStep (boot : SchedulerBoot) : Scheduler → SchedEvent → Scheduler → Prop where
  | add : t ≠ 0#64 → t ≠ boot.bootstrapTask → (∀ threads, ThreadsListed s threads → t ∉ threads) → created.next = 0#64 →
      schedulerAdd fuel t (s.setThread t created) = .ok next → SchedStep boot s (.add t) next
  | schedule : schedule boot rsp s = .ok (picked,next) → SchedStep boot s (.schedule picked) next

def SchedStart (boot : SchedulerBoot) (s : Scheduler) : Prop :=
  boot.bootstrapTask ≠ 0#64 ∧ s.threadList = 0#64 ∧ s.currentThread = boot.bootstrapTask ∧
    s.thread boot.bootstrapTask = .zero

def SchedEvent.added : SchedEvent → Option U64
  | .add t => some t
  | .schedule _ => none

def SchedEvent.picked : SchedEvent → Option U64
  | .add _ => none
  | .schedule picked => picked

def addedThreads (events : List SchedEvent) : List U64 := events.filterMap SchedEvent.added

def pickedThreads (events : List SchedEvent) : List U64 := events.filterMap SchedEvent.picked

/-- Between two times that a thread is made current, the threads behind it in the list, those of the
new threads that came in time, and the threads in front of it are made current in this order. -/
def RoundRobin (events : List SchedEvent) : Prop :=
  ∀ earlier between later t, events = earlier ++ [.schedule (some t)] ++ between ++ [.schedule (some t)] ++ later →
    t ∉ pickedThreads between → ∃ front behind new, addedThreads earlier = front ++ t :: behind ∧
      new <+: addedThreads between ∧ pickedThreads between = behind ++ new ++ front

/-- The one behind the current thread, or the first of the list behind its last. -/
inductive Successor (boot : SchedulerBoot) (threads : List U64) (current : U64) : U64 → Prop where
  | first : current = boot.bootstrapTask → threads = t :: rest → Successor boot threads current t
  | behind : threads = front ++ current :: t :: rest → Successor boot threads current t
  | wrap : threads = t :: rest → threads = front ++ [current] → Successor boot threads current t

def Lap (front behind new : List U64) (t : U64) (picked : List U64) (current : U64) : Prop :=
  (∃ passed rest, t :: picked = passed ++ [current] ∧ behind ++ new = picked ++ rest) ∨
    ∃ seen late passed rest, new = seen ++ late ∧ picked = behind ++ seen ++ (passed ++ [current]) ∧
      front = passed ++ current :: rest

variable {boot : SchedulerBoot} {s next : Scheduler} {threads front behind : List U64} {t current : U64}
variable {e : SchedEvent} {events : List SchedEvent}

/-- The list holds the threads added so far, and the current thread is one of them once there was a
switch. -/
structure SchedInv (boot : SchedulerBoot) (threads : List U64) (s : Scheduler) : Prop where
  listed : ThreadsListed s threads
  nodup : threads.Nodup
  bootstrap : boot.bootstrapTask ∉ threads ∧ boot.bootstrapTask ≠ 0#64 ∧ (s.thread boot.bootstrapTask).next = 0#64
  current : s.currentThread = boot.bootstrapTask ∨ s.currentThread ∈ threads

theorem lastThread_eq {thread : U64 → Thread} {head last : U64}
    (chain : Chain (fun t => t) (fun t => (thread t).next) 0#64 head (threads ++ [last])) (fuel : Nat) :
    lastThread thread fuel head = if threads.length < fuel then .ok last else .error .looping := by
  induction fuel generalizing head threads with
  | zero => rfl
  | succ fuel ih =>
    unfold lastThread
    cases threads with
    | nil =>
      obtain ⟨rfl,_,ends⟩ := chain
      rw [if_neg (not_not.mpr (show (thread head).next = 0#64 from ends))]
      rfl
    | cons first rest =>
      obtain ⟨rfl,_,tail⟩ := chain
      have more : (thread head).next ≠ 0#64 := fun ends =>
        absurd (tail.stop_iff.mp ends) (by simp)
      rw [if_pos more,ih tail]
      simp

theorem schedulerAdd_listed {fuel : Nat} (listed : ThreadsListed s threads) (live : t ≠ 0#64) (new : t ∉ threads)
    (nodup : threads.Nodup) (ends : (s.thread t).next = 0#64) (returns : schedulerAdd fuel t s = .ok next) :
    ThreadsListed next (threads ++ [t]) ∧ next.currentThread = s.currentThread ∧
      ∀ other ∉ threads, (next.thread other).next = (s.thread other).next := by
  unfold schedulerAdd at returns
  rcases List.eq_nil_or_concat threads with rfl | ⟨cells,last,rfl⟩
  · rw [if_pos (show s.threadList = 0#64 from listed)] at returns
    obtain rfl := Except.ok.inj returns
    exact ⟨⟨rfl,live,ends⟩,rfl,fun _ _ => rfl⟩
  · rw [List.concat_eq_append] at *
    have some : s.threadList ≠ 0#64 := fun none => absurd (listed.stop_iff.mp none) (by simp)
    rw [if_neg some,lastThread_eq listed] at returns
    split at returns
    · obtain rfl := Except.ok.inj returns
      have apart : ∀ other, other ≠ last → ((s.setThread last { s.thread last with next := t }).thread other).next =
          (s.thread other).next := by
        intro other different
        simp only [Scheduler.setThread,Function.update_of_ne different]
      have distinct := List.nodup_append.mp nodup
      refine ⟨listed.snoc live ?_ ?_ ?_,rfl,?_⟩
      · simp [Scheduler.setThread]
      · exact (apart t fun same => new (by simp [same])).trans ends
      · exact fun other member => apart other (distinct.2.2 other member last (by simp))
      · exact fun other unlisted => apart other fun same => unlisted (by simp [same])
    · cases returns

/-- A call returns when the list is shorter than `fuel`. -/
theorem schedulerAdd_returns {fuel : Nat} (listed : ThreadsListed s threads) (enough : threads.length ≤ fuel) :
    ∃ next, schedulerAdd fuel t s = .ok next := by
  unfold schedulerAdd
  rcases List.eq_nil_or_concat threads with rfl | ⟨cells,last,rfl⟩
  · rw [if_pos (show s.threadList = 0#64 from listed)]
    exact ⟨_,rfl⟩
  · rw [List.concat_eq_append] at *
    have some : s.threadList ≠ 0#64 := fun none => absurd (listed.stop_iff.mp none) (by simp)
    rw [List.length_append,List.length_singleton] at enough
    rw [if_neg some,lastThread_eq listed,if_pos (by omega)]
    exact ⟨_,rfl⟩

theorem schedulerAdd_kept {s next : Scheduler} (returns : schedulerAdd fuel t s = .ok next) :
    ∃ last link, next.thread = Function.update s.thread last { s.thread last with next := link } := by
  unfold schedulerAdd at returns
  split at returns
  · obtain rfl := Except.ok.inj returns
    exact ⟨t,(s.thread t).next,(Function.update_eq_self _ _).symm⟩
  · obtain ⟨last,_,returns⟩ := ok_of_bind returns
    obtain rfl := Except.ok.inj returns
    exact ⟨last,t,rfl⟩

def Scheduler.choice (s : Scheduler) : U64 :=
  if (s.thread s.currentThread).next ≠ 0#64 then (s.thread s.currentThread).next else s.threadList

theorem schedule_cases {rsp : U64} (returns : schedule boot rsp s = .ok (picked,next)) :
    (picked = none ∧ next = s ∧ (s.currentThread = 0#64 ∨ s.choice = 0#64 ∨ s.choice = s.currentThread)) ∨
    ∃ t, picked = some t ∧ t ≠ 0#64 ∧ t ≠ s.currentThread ∧ t = s.choice ∧ (s.thread t).entry ≠ 0#64 ∧
      next.currentThread = t ∧ next.threadList = s.threadList ∧
      next.thread = Function.update s.thread s.currentThread { s.thread s.currentThread with rsp := rsp } := by
  unfold schedule at returns
  split at returns
  · rename_i idle
    obtain ⟨rfl,rfl⟩ := ok_pair returns
    exact .inl ⟨rfl,rfl,.inl idle⟩
  · dsimp only at returns
    generalize choice : (if (s.thread s.currentThread).next ≠ 0#64 then (s.thread s.currentThread).next
      else s.threadList) = t at returns
    have choice : s.choice = t := choice
    rw [choice]
    split at returns
    · rename_i same
      obtain ⟨rfl,rfl⟩ := ok_pair returns
      exact .inl ⟨rfl,rfl,.inr same⟩
    · rename_i live
      obtain ⟨nonNull,other⟩ := not_or.mp live
      generalize (s.thread t).process.getD boot.kernelCr3 = target at returns
      generalize (if target ≠ 0#64 ∧ target ≠ s.cr3 then target else s.cr3) = cr3 at returns
      split at returns
      · cases returns
      · rename_i asserted
        obtain ⟨rfl,rfl⟩ := ok_pair returns
        exact .inr ⟨t,rfl,nonNull,other,rfl,(not_or.mp (not_or.mp asserted).2).2,rfl,rfl,rfl⟩

theorem update_links {thread : U64 → Thread} {t : U64} (rsp : U64) (other : U64) :
    (Function.update thread t { thread t with rsp := rsp } other).next = (thread other).next := by
  by_cases same : other = t
  · subst same
    simp
  · rw [Function.update_of_ne same]

theorem addedThreads_snoc : addedThreads (events ++ [e]) = addedThreads events ++ e.added.toList := by
  cases added : e.added <;> simp [addedThreads,List.filterMap_append,added]

theorem pickedThreads_snoc : pickedThreads (events ++ [e]) = pickedThreads events ++ e.picked.toList := by
  cases picked : e.picked <;> simp [pickedThreads,List.filterMap_append,picked]

theorem SchedInv.successor (inv : SchedInv boot threads s) (live : t ≠ 0#64)
    (choice : t = s.choice) : Successor boot threads s.currentThread t := by
  have start : t = s.threadList → ∃ rest, threads = t :: rest := by
    intro head
    have listed := inv.listed
    rcases threads with _ | ⟨first,rest⟩
    · exact absurd (head.trans listed) live
    · exact ⟨rest,by rw [head,show s.threadList = first from listed.1]⟩
  unfold Scheduler.choice at choice
  rcases inv.current with boots | member
  · rw [boots,inv.bootstrap.2.2,if_neg (by simp)] at choice
    obtain ⟨rest,first⟩ := start choice
    exact .first boots first
  · obtain ⟨front,rest,split⟩ := List.append_of_mem member
    have listed := inv.listed
    rw [split] at listed
    have tail : Chain (fun t => t) (fun t => (s.thread t).next) 0#64 (s.thread s.currentThread).next rest :=
      Chain.behind listed
    rcases rest with _ | ⟨next,rest⟩
    · rw [if_neg (not_not.mpr (show (s.thread s.currentThread).next = 0#64 from tail))] at choice
      obtain ⟨rest,first⟩ := start choice
      exact .wrap first split
    · obtain ⟨link,alive,_⟩ := tail
      have link : (s.thread s.currentThread).next = next := link
      have alive : next ≠ 0#64 := alive
      rw [link,if_pos alive] at choice
      subst choice
      exact .behind split

theorem Successor.mem (successor : Successor boot threads current t) : t ∈ threads := by
  cases successor with
  | first _ split => simp [split]
  | behind split => simp [split]
  | wrap split _ => simp [split]

/-- Nothing is picked when no other thread is listed. -/
theorem SchedInv.alone {rsp : U64} (inv : SchedInv boot threads s) (returns : schedule boot rsp s = .ok (none,next))
    (member : t ∈ threads) : t = s.currentThread := by
  have heads : s.threadList ≠ 0#64 := fun empty => by
    rw [inv.listed.stop_iff.mp empty] at member
    cases member
  rcases schedule_cases returns with ⟨_,_,idle | ends | same⟩ | ⟨_,picked,_⟩
  · rcases inv.current with boots | listed
    · exact absurd (boots.symm.trans idle) inv.bootstrap.2.1
    · exact absurd idle (inv.listed.live _ listed)
  · unfold Scheduler.choice at ends
    split at ends
    · rename_i links
      exact absurd ends links
    · exact absurd ends heads
  · have live : s.currentThread ≠ 0#64 := by
      rcases inv.current with boots | listed
      · exact boots ▸ inv.bootstrap.2.1
      · exact inv.listed.live _ listed
    cases inv.successor live same.symm with
    | first boots split => exact absurd (by rw [split,boots]; exact List.mem_cons_self) inv.bootstrap.1
    | behind split =>
      have distinct := split ▸ inv.nodup
      exact absurd List.mem_cons_self (List.nodup_cons.mp (List.nodup_append.mp distinct).2.1).1
    | @wrap _ rest front start last =>
      rcases front with _ | ⟨first,front⟩
      · rw [last] at member
        exact List.mem_singleton.mp member
      · obtain ⟨rfl,_⟩ := List.cons.inj (start.symm.trans last)
        have distinct := last ▸ inv.nodup
        exact absurd (by simp) (List.nodup_cons.mp distinct).1
  · cases picked

theorem SchedInv.step (inv : SchedInv boot threads s) (moves : SchedStep boot s e next) :
    SchedInv boot (threads ++ e.added.toList) next ∧ (e.picked = none → next.currentThread = s.currentThread) ∧
      ∀ t, e.picked = some t → e.added = none ∧ next.currentThread = t ∧ Successor boot threads s.currentThread t := by
  cases moves with
  | add live notBoot new ends returns =>
    rename_i t fuel created
    have unlisted : t ∉ threads := new threads inv.listed
    have kept : ∀ other, other ≠ t → ((s.setThread t created).thread other).next = (s.thread other).next := by
      intro other different
      simp only [Scheduler.setThread,Function.update_of_ne different]
    have listed : ThreadsListed (s.setThread t created) threads :=
      inv.listed.frame fun other member => kept other fun same => unlisted (same ▸ member)
    obtain ⟨longer,current,links⟩ := schedulerAdd_listed listed live unlisted inv.nodup
      (by simpa [Scheduler.setThread] using ends) returns
    change SchedInv boot (threads ++ [t]) next ∧ _
    refine ⟨⟨longer,?_,⟨?_,inv.bootstrap.2.1,?_⟩,?_⟩,fun _ => current,nofun⟩
    · exact List.nodup_append.mpr ⟨inv.nodup,List.nodup_singleton t,fun a listed b last same =>
        unlisted (List.mem_singleton.mp last ▸ same ▸ listed)⟩
    · rw [List.mem_append,List.mem_singleton]
      exact not_or.mpr ⟨inv.bootstrap.1,notBoot.symm⟩
    · rw [links _ inv.bootstrap.1,kept _ notBoot.symm]
      exact inv.bootstrap.2.2
    · rw [current]
      exact inv.current.imp_right (List.mem_append_left _)
  | schedule returns =>
    change SchedInv boot (threads ++ []) next ∧ _
    rw [List.append_nil]
    rcases schedule_cases returns with ⟨rfl,rfl,_⟩ | ⟨t,rfl,live,_,choice,_,current,list,threads'⟩
    · exact ⟨inv,fun _ => rfl,nofun⟩
    · have successor := inv.successor live choice
      have listed : ThreadsListed next threads := by
        unfold ThreadsListed
        rw [list,threads']
        exact inv.listed.frame fun other _ => update_links _ other
      refine ⟨⟨listed,inv.nodup,⟨inv.bootstrap.1,inv.bootstrap.2.1,?_⟩,.inr ?_⟩,
        nofun,?_⟩
      · rw [threads',update_links]
        exact inv.bootstrap.2.2
      · rw [current]
        exact successor.mem
      · rintro u same
        obtain rfl := Option.some.inj same
        exact ⟨rfl,current,successor⟩

theorem SchedStart.inv (start : SchedStart boot s) : SchedInv boot [] s := by
  obtain ⟨live,empty,current,zero⟩ := start
  exact ⟨empty,List.nodup_nil,⟨List.not_mem_nil,live,by rw [zero]; rfl⟩,.inl current⟩

theorem sched_inv (run : Run (SchedStart boot) (SchedStep boot) free events s) :
    SchedInv boot (addedThreads events) s := by
  refine run.invariant (fun events s => SchedInv boot (addedThreads events) s) (fun _ start => start.inv) ?_
  intro events s e next inv _ moves
  rw [addedThreads_snoc]
  exact (inv.step moves).1

theorem Lap.add (lap : Lap front behind new t picked current) : Lap front behind (new ++ more) t picked current := by
  rcases lap with ⟨passed,rest,here,ahead⟩ | ⟨seen,late,passed,rest,split,order,here⟩
  · exact .inl ⟨passed,rest ++ more,here,by rw [← List.append_assoc,ahead,List.append_assoc]⟩
  · exact .inr ⟨seen,late ++ more,passed,rest,by rw [split,List.append_assoc],order,here⟩

theorem Lap.mem (lap : Lap front behind new t picked current) : current ∈ front ++ t :: (behind ++ new) := by
  rcases lap with ⟨passed,rest,here,ahead⟩ | ⟨seen,late,passed,rest,_,_,here⟩
  · rw [ahead,← List.cons_append,here]
    simp
  · rw [here]
    simp

/-- Around the current thread the successor is the one behind it, or the first of the list. -/
theorem Successor.at (successor : Successor boot threads current u) (nodup : threads.Nodup)
    (notBoot : current ≠ boot.bootstrapTask) (split : threads = front ++ current :: behind) :
    (∃ rest, behind = u :: rest) ∨ (behind = [] ∧ ∃ rest, threads = u :: rest) := by
  have distinct := split ▸ nodup
  have absent : current ∉ front := fun member =>
    (List.nodup_append.mp distinct).2.2 current member current List.mem_cons_self rfl
  have absent' : current ∉ behind := (List.nodup_cons.mp (List.nodup_append.mp distinct).2.1).1
  have unique : ∀ {a b : List U64}, threads = a ++ current :: b → behind = b := by
    intro a b other
    exact ((List.append_cons_inj_of_notMem absent absent').mp (split.symm.trans other)).2.2
  cases successor with
  | first boots _ => exact absurd boots notBoot
  | behind here => exact .inl ⟨_,unique here⟩
  | wrap start last => exact .inr ⟨unique last,_,start⟩

/-- The next thread of a lap is a further one, or `t` again at its end. -/
theorem Lap.pick (lap : Lap front behind new t picked current) (split : threads = front ++ t :: (behind ++ new))
    (nodup : threads.Nodup) (notBoot : current ≠ boot.bootstrapTask)
    (successor : Successor boot threads current u) :
    if u = t then ∃ seen, seen <+: new ∧ picked = behind ++ seen ++ front
    else Lap front behind new t (picked ++ [u]) u := by
  have distinct := split ▸ nodup
  have once : t ∉ behind ++ new := (List.nodup_cons.mp (List.nodup_append.mp distinct).2.1).1
  have apart : t ∉ front := fun member => (List.nodup_append.mp distinct).2.2 t member t List.mem_cons_self rfl
  rcases lap with ⟨passed,rest,here,ahead⟩ | ⟨seen,late,passed,rest,behindNew,order,here⟩
  · have place : threads = (front ++ passed) ++ current :: rest := by
      rw [split,ahead,← List.cons_append,here]
      simp
    rcases successor.at nodup notBoot place with ⟨rest',rfl⟩ | ⟨rfl,rest',start⟩
    · have further : u ≠ t := by
        rintro rfl
        exact once (ahead ▸ by simp)
      rw [if_neg further]
      exact .inl ⟨t :: picked,rest',rfl,by rw [ahead,List.append_assoc]; rfl⟩
    · rw [List.append_nil] at ahead
      rcases front with _ | ⟨first,front'⟩
      · obtain ⟨rfl,_⟩ := List.cons.inj (start.symm.trans split)
        rw [if_pos rfl]
        exact ⟨new,List.prefix_refl new,by rw [← ahead,List.append_nil]⟩
      · obtain ⟨rfl,_⟩ := List.cons.inj (start.symm.trans split)
        have further : u ≠ t := fun same => apart (same ▸ List.mem_cons_self)
        rw [if_neg further]
        exact .inr ⟨new,[],[],front',(List.append_nil new).symm,by rw [ahead]; rfl,rfl⟩
  · have place : threads = passed ++ current :: (rest ++ t :: (behind ++ new)) := by
      rw [split,here]
      simp
    rcases successor.at nodup notBoot place with ⟨rest',next⟩ | ⟨none,_⟩
    · rcases rest with _ | ⟨first,rest⟩
      · obtain ⟨rfl,_⟩ := List.cons.inj next
        rw [if_pos rfl]
        exact ⟨seen,⟨late,behindNew.symm⟩,by rw [order,here]⟩
      · obtain ⟨rfl,_⟩ := List.cons.inj next
        have further : first ≠ t := fun same => apart (by rw [here,same]; simp)
        rw [if_neg further]
        exact .inr ⟨seen,late,passed ++ [current],rest,behindNew,by rw [order]; simp,by rw [here]; simp⟩
    · exact absurd none (by simp)

theorem lap_run {start : Scheduler} (inv : SchedInv boot (front ++ t :: behind) start)
    (here : start.currentThread = t) (run : Run (fun s => s = start) (SchedStep boot) free events s) :
    SchedInv boot (front ++ t :: (behind ++ addedThreads events)) s ∧
      (t ∉ pickedThreads events → Lap front behind (addedThreads events) t (pickedThreads events) s.currentThread) := by
  refine run.invariant (fun events s => SchedInv boot (front ++ t :: (behind ++ addedThreads events)) s ∧
    (t ∉ pickedThreads events → Lap front behind (addedThreads events) t (pickedThreads events) s.currentThread)) ?_ ?_
  · rintro s rfl
    refine ⟨by simpa [addedThreads] using inv,fun _ => .inl ⟨[],behind,?_,?_⟩⟩
    · simp [pickedThreads,here]
    · simp [pickedThreads,addedThreads]
  · rintro events s e next ⟨inv,lap⟩ _ moves
    obtain ⟨inv',silent,moved⟩ := inv.step moves
    rw [addedThreads_snoc,pickedThreads_snoc]
    refine ⟨by simpa using inv',fun unpicked => ?_⟩
    have before : t ∉ pickedThreads events := fun old => unpicked (List.mem_append_left _ old)
    cases picks : e.picked with
    | none =>
      rw [silent picks]
      simpa using (lap before).add
    | some u =>
      obtain ⟨quiet,current,successor⟩ := moved u picks
      rw [picks] at unpicked
      have other : u ≠ t := fun same => unpicked (by simp [same])
      have notBoot : s.currentThread ≠ boot.bootstrapTask := fun same => inv.bootstrap.1 (same ▸ (lap before).mem)
      have further := (lap before).pick rfl inv.nodup notBoot successor
      rw [if_neg other] at further
      rw [quiet,current]
      simpa using further

theorem made_current (moves : SchedStep boot s (.schedule (some t)) next) (inv : SchedInv boot threads s) :
    SchedInv boot threads next ∧ next.currentThread = t ∧ Successor boot threads s.currentThread t := by
  obtain ⟨inv',_,moved⟩ := inv.step moves
  obtain ⟨_,current,successor⟩ := moved t rfl
  exact ⟨by simpa [SchedEvent.added] using inv',current,successor⟩

/-- The list holds the threads in the order in which they were added, and they take turns in the order
of the list. -/
theorem scheduler_round_robin (run : Run (SchedStart boot) (SchedStep boot) free events s) :
    ThreadsListed s (addedThreads events) ∧ (addedThreads events).Nodup ∧ RoundRobin events := by
  refine ⟨(sched_inv run).listed,(sched_inv run).nodup,?_⟩
  rintro earlier between later t rfl once
  obtain ⟨_,run,_⟩ := run.split
  obtain ⟨s₃,run,last⟩ := run.split
  obtain ⟨s₂,run,lap⟩ := run.split
  obtain ⟨s₁,run,first⟩ := run.split
  obtain ⟨inv,here,successor⟩ := made_current first.single.2 (sched_inv run)
  obtain ⟨front,behind,split⟩ := List.append_of_mem successor.mem
  rw [split] at inv
  obtain ⟨inv',onward⟩ := lap_run inv here lap
  have lap' := onward once
  obtain ⟨_,_,again⟩ := made_current last.single.2 inv'
  have notBoot : s₃.currentThread ≠ boot.bootstrapTask := fun same => inv'.bootstrap.1 (same ▸ lap'.mem)
  have closes := lap'.pick rfl inv'.nodup notBoot again
  rw [if_pos rfl] at closes
  obtain ⟨seen,early,order⟩ := closes
  exact ⟨front,behind,seen,split,early,order⟩

theorem SchedInv.fresh (inv : SchedInv boot threads s) (new : t ∉ threads) :
    ∀ others, ThreadsListed s others → t ∉ others := fun _ listed =>
  Chain.unique Function.injective_id inv.listed listed ▸ new

def taskBoot : SchedulerBoot := ⟨0x1000#64,0x9000#64⟩

def readyThread (tid : U64) : Thread := ⟨0x8000#64,0x7000#64,0#64,tid,0x400000#64,none,0#64,0#64⟩

def idleScheduler : Scheduler := schedulerInit taskBoot ⟨fun _ => .zero,0#64,0#64,0x9000#64,0#64⟩

theorem scheduler_round_robin_two : ∃ events s, Run (SchedStart taskBoot) (SchedStep taskBoot) free events s ∧
    pickedThreads events = [0x2000#64,0x3000#64,0x2000#64] ∧ ThreadsListed s [0x2000#64,0x3000#64] ∧
    RoundRobin events := by
  have start : Run (SchedStart taskBoot) (SchedStep taskBoot) free [] idleScheduler :=
    .start ⟨by decide,rfl,rfl,rfl⟩
  have run := start.step trivial (@SchedStep.add _ 0x2000#64 _ 8 (readyThread 1#64) _ (by decide) (by decide)
    ((sched_inv start).fresh (by decide)) rfl rfl)
  have run := run.step trivial (@SchedStep.schedule _ 0x100#64 _ _ _ rfl)
  have run := run.step trivial (@SchedStep.add _ 0x3000#64 _ 8 (readyThread 2#64) _ (by decide) (by decide)
    ((sched_inv run).fresh (by decide)) rfl rfl)
  have run := run.step trivial (@SchedStep.schedule _ 0x200#64 _ _ _ rfl)
  have run := run.step trivial (@SchedStep.schedule _ 0x300#64 _ _ _ rfl)
  obtain ⟨listed,_,turns⟩ := scheduler_round_robin run
  exact ⟨_,_,run,rfl,listed,turns⟩

end Reddyos
