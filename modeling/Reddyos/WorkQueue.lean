import Reddyos.Pmm
import Reddyos.RingBuffer
import Reddyos.Transitions

/-! Deferred work of `acpi/uacpi_kernel.c`. Handlers are arbitrary: while one runs it may
schedule work and wait for completion again, so the calls in progress form a stack. -/
namespace Reddyos

open RingBuffer Transitions

inductive WorkType where
  | gpeExecution
  | notification
  deriving DecidableEq, Repr

/-- `handler` is a null pointer or the code to call. -/
structure WorkItem where
  type : WorkType
  handler : Option Nat
  ctx : U64
  deriving DecidableEq, Repr

def maxWorkItems : Nat := 256

/-- False stands for `UACPI_STATUS_OUT_OF_MEMORY`. -/
def uacpiKernelScheduleWork (item : WorkItem) (queue : RingBuf WorkItem) : Bool × RingBuf WorkItem :=
  let nextTail := (queue.tail + 1) % maxWorkItems
  if nextTail = queue.head then (false,queue)
  else (true,{ queue with slots := Function.update queue.slots queue.tail item, tail := nextTail })

/-- One round of the loop of `uacpi_kernel_wait_for_work_completion`, up to the call of the handler;
`none` when the loop ends. -/
def takeWork (queue : RingBuf WorkItem) : Option (WorkItem × RingBuf WorkItem) :=
  if queue.head = queue.tail then none
  else some (queue.slots queue.head,{ queue with head := (queue.head + 1) % maxWorkItems })

def WorkItem.call? (item : WorkItem) : Option (Nat × U64) := item.handler.map fun handler => (handler,item.ctx)

/-- A completion wait at the head of its loop, or a handler that it has called with an argument. -/
inductive WorkFrame where
  | waiting
  | handling (handler : Nat) (ctx : U64)
  deriving DecidableEq, Repr

def WorkFrame.call? : WorkFrame → Option (Nat × U64)
  | .waiting => none
  | .handling handler ctx => some (handler,ctx)

/-- `stack` holds the calls in progress, innermost first. -/
structure Work where
  queue : RingBuf WorkItem
  stack : List WorkFrame

/-- Code other than the loop of a completion wait is running: a handler or the caller of both. -/
def Work.Running (w : Work) : Prop := w.stack.head? ≠ some .waiting

inductive WorkEvent where
  | schedule (item : WorkItem) (accepted : Bool)
  | wait
  | take (item : WorkItem)
  | handled
  | complete
  deriving DecidableEq, Repr

inductive WorkStep : Work → WorkEvent → Work → Prop where
  | schedule : w.Running → uacpiKernelScheduleWork item w.queue = (accepted,queue) →
      WorkStep w (.schedule item accepted) { w with queue := queue }
  | wait : w.Running → WorkStep w .wait { w with stack := .waiting :: w.stack }
  | call : w.stack.head? = some .waiting → takeWork w.queue = some (item,queue) → item.handler = some handler →
      WorkStep w (.take item) ⟨queue,.handling handler item.ctx :: w.stack⟩
  | skip : w.stack.head? = some .waiting → takeWork w.queue = some (item,queue) → item.handler = none →
      WorkStep w (.take item) { w with queue := queue }
  | handled : w.stack = .handling handler ctx :: rest → WorkStep w .handled { w with stack := rest }
  | complete : w.stack = .waiting :: rest → takeWork w.queue = none → WorkStep w .complete { w with stack := rest }

def WorkIdle (w : Work) : Prop := w.queue.head = 0 ∧ w.queue.tail = 0 ∧ w.stack = []

/-- Items that `uacpi_kernel_schedule_work` has accepted, in order. -/
def acceptedWork (events : List WorkEvent) : List WorkItem :=
  events.filterMap fun | .schedule item true => some item | _ => none

/-- Items taken out of the queue, in order. -/
def takenWork (events : List WorkEvent) : List WorkItem :=
  events.filterMap fun | .take item => some item | _ => none

/-- The handlers that a step has put on the stack, with their arguments. -/
def callsMade (w next : Work) : List (Nat × U64) :=
  (next.stack.take (next.stack.length - w.stack.length)).filterMap WorkFrame.call?

/-- A step together with the record of the handlers started so far. -/
inductive RecordedStep : Work × List (Nat × U64) → WorkEvent → Work × List (Nat × U64) → Prop where
  | step : WorkStep w e next → RecordedStep (w,calls) e (next,calls ++ callsMade w next)

/-- What the queue does for its callers: items are taken in the order of acceptance, and the handlers
started are the ones of the items taken, each with its ctx and in this order; a completed wait leaves
nothing behind; an item is refused when 255 are waiting. -/
structure WorkFifo (events : List WorkEvent) (w : Work) (calls : List (Nat × U64)) : Prop where
  order : ∃ waiting, acceptedWork events = takenWork events ++ waiting
  started : calls = (takenWork events).filterMap WorkItem.call?
  complete : ∀ next, WorkStep w .complete next → calls = (acceptedWork events).filterMap WorkItem.call?
  refused : ∀ item accepted next, WorkStep w (.schedule item accepted) next →
    (accepted = false ↔ (acceptedWork events).length = (takenWork events).length + 255) ∧
      (accepted = false → next = w)

variable {w next : Work} {e : WorkEvent} {events : List WorkEvent} {items : List WorkItem} {item : WorkItem}
variable {queue queue' : RingBuf WorkItem}

theorem scheduleWork_cases (holds : Holds maxWorkItems queue items)
    (returns : uacpiKernelScheduleWork item queue = (accepted,queue')) :
    (accepted = false ∧ items.length = 255 ∧ queue' = queue) ∨
      (accepted = true ∧ items.length < 255 ∧ Holds maxWorkItems queue' (items ++ [item])) := by
  unfold uacpiKernelScheduleWork at returns
  dsimp only at returns
  split at returns
  · have full := holds.full_iff.mp ‹_›
    obtain ⟨rfl,rfl⟩ := Prod.mk.inj returns
    exact .inl ⟨rfl,Nat.succ.inj full,rfl⟩
  · have open_slot : items.length + 1 ≠ 256 := mt holds.full_iff.mpr ‹_›
    have room : items.length < 256 := holds.room
    obtain ⟨rfl,rfl⟩ := Prod.mk.inj returns
    exact .inr ⟨rfl,by omega,holds.push (show items.length + 1 < 256 by omega)⟩

theorem takeWork_some (holds : Holds maxWorkItems queue items) (takes : takeWork queue = some (item,queue')) :
    ∃ rest, items = item :: rest ∧ Holds maxWorkItems queue' rest := by
  unfold takeWork at takes
  split at takes
  · cases takes
  · obtain ⟨rfl,rfl⟩ := Prod.mk.inj (Option.some.inj takes)
    cases items with
    | nil => exact absurd (holds.empty_iff.mpr rfl) ‹_›
    | cons first rest => exact ⟨rest,by rw [holds.front],holds.pop⟩

theorem takeWork_none (holds : Holds maxWorkItems queue items) (ends : takeWork queue = none) : items = [] := by
  unfold takeWork at ends
  split at ends
  · exact holds.empty_iff.mp ‹_›
  · cases ends

/-- The ring holds what was accepted and not taken, oldest first. -/
def Queued (events : List WorkEvent) (w : Work) : Prop :=
  ∃ waiting, acceptedWork events = takenWork events ++ waiting ∧ Holds maxWorkItems w.queue waiting

theorem Queued.step (queued : Queued events w) (moves : WorkStep w e next) : Queued (events ++ [e]) next := by
  obtain ⟨waiting,order,holds⟩ := queued
  unfold Queued acceptedWork takenWork at *
  simp only [List.filterMap_append]
  cases moves with
  | schedule _ returns =>
    rcases scheduleWork_cases holds returns with ⟨rfl,_,rfl⟩ | ⟨rfl,_,longer⟩
    · exact ⟨waiting,by simpa using order,holds⟩
    · exact ⟨_,by simp [order],longer⟩
  | wait => exact ⟨waiting,by simpa using order,holds⟩
  | call _ takes _ =>
    obtain ⟨rest,rfl,left⟩ := takeWork_some holds takes
    exact ⟨rest,by simp [order],left⟩
  | skip _ takes _ =>
    obtain ⟨rest,rfl,left⟩ := takeWork_some holds takes
    exact ⟨rest,by simp [order],left⟩
  | handled => exact ⟨waiting,by simpa using order,holds⟩
  | complete => exact ⟨waiting,by simpa using order,holds⟩

theorem WorkIdle.queued (idle : WorkIdle w) : Queued [] w := by
  obtain ⟨⟨slots,head,tail⟩,stack⟩ := w
  obtain ⟨rfl,rfl,_⟩ := idle
  exact ⟨[],rfl,.empty slots (by decide)⟩

/-- A step starts the handler of the item that it takes out, and no other. -/
theorem callsMade_eq (moves : WorkStep w e next) : callsMade w next = (takenWork [e]).filterMap WorkItem.call? := by
  unfold callsMade takenWork WorkItem.call?
  cases moves with
  | schedule => simp
  | wait => simp [WorkFrame.call?]
  | call _ _ calls => simp [WorkFrame.call?,calls]
  | skip _ _ null => simp [null]
  | handled stack => simp [stack]
  | complete stack => simp [stack]

theorem takenWork_append (events : List WorkEvent) (e : WorkEvent) :
    takenWork (events ++ [e]) = takenWork events ++ takenWork [e] := List.filterMap_append

/-- What `Queued` and the record say after a run. -/
def QueuedStarted (events : List WorkEvent) (s : Work × List (Nat × U64)) : Prop :=
  Queued events s.1 ∧ s.2 = (takenWork events).filterMap WorkItem.call?

theorem QueuedStarted.step {s t : Work × List (Nat × U64)} (inv : QueuedStarted events s)
    (moves : RecordedStep s e t) : QueuedStarted (events ++ [e]) t := by
  obtain ⟨queued,started⟩ := inv
  cases moves with
  | step moves =>
    refine ⟨queued.step moves,?_⟩
    dsimp only at started ⊢
    rw [started,callsMade_eq moves,takenWork_append,List.filterMap_append]

theorem QueuedStarted.fifo (inv : QueuedStarted events (w,calls)) : WorkFifo events w calls := by
  obtain ⟨⟨waiting,order,holds⟩,started⟩ := inv
  dsimp only at holds started
  refine ⟨⟨waiting,order⟩,started,?_,?_⟩
  · intro next moves
    cases moves with
    | complete _ ends =>
      obtain rfl := takeWork_none holds ends
      rw [started,order,List.append_nil]
  · intro item accepted next moves
    cases moves with
    | schedule _ returns =>
      rw [order,List.length_append]
      rcases scheduleWork_cases holds returns with ⟨rfl,full,rfl⟩ | ⟨rfl,room,_⟩
      · exact ⟨by simp [full],fun _ => rfl⟩
      · refine ⟨?_,fun refused => by cases refused⟩
        simp only [reduceCtorEq,false_iff]
        omega

/-- Whatever the handlers do, deferred work is first in, first out. -/
theorem work_queue_fifo (run : Run (fun s => WorkIdle s.1 ∧ s.2 = []) RecordedStep free events (w,calls)) :
    WorkFifo events w calls := by
  have inv := run.invariant QueuedStarted (fun _ idle => ⟨idle.1.queued,idle.2⟩)
    fun _ _ _ _ inv _ moves => inv.step moves
  exact inv.fifo

def gpeWork (handler : Option Nat) (ctx : U64) : WorkItem := ⟨.gpeExecution,handler,ctx⟩

def idleWork : Work := ⟨⟨fun _ => gpeWork none 0#64,0,0⟩,[]⟩

/-- A handler that schedules more work and waits for it; the second of three items has no handler. -/
theorem work_queue_fifo_nested : ∃ events w, WorkFifo events w [(1,10#64),(2,20#64)] ∧ w.stack = [] := by
  have start : Run (fun s => WorkIdle s.1 ∧ s.2 = []) RecordedStep free [] (idleWork,[]) :=
    .start ⟨⟨rfl,rfl,rfl⟩,rfl⟩
  have first := start.step trivial
    (.step (show WorkStep _ (.schedule (gpeWork (some 1) 10#64) true) _ from .schedule nofun rfl))
  have null := first.step trivial
    (.step (show WorkStep _ (.schedule (gpeWork none 30#64) true) _ from .schedule nofun rfl))
  have outer := (null.step trivial (.step (.wait nofun))).step trivial (.step (.call rfl rfl rfl))
  have second := outer.step trivial
    (.step (show WorkStep _ (.schedule (gpeWork (some 2) 20#64) true) _ from .schedule nofun rfl))
  have waits := (second.step trivial (.step (.wait nofun))).step trivial (.step (.skip rfl rfl rfl))
  have inner := waits.step trivial (.step (.call rfl rfl rfl))
  have back := (inner.step trivial (.step (.handled rfl))).step trivial (.step (.complete rfl rfl))
  have run := (back.step trivial (.step (.handled rfl))).step trivial (.step (.complete rfl rfl))
  exact ⟨_,_,work_queue_fifo run,rfl⟩

end Reddyos
