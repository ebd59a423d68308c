import Reddyos.Framebuffer
import Reddyos.Transitions

/-! Interrupt handlers: the table of `interrupts/irq.c` and the handlers that uACPI installs
through `acpi/uacpi_kernel.c`. The frame of an interrupt is known by its address. -/
namespace Reddyos

open Transitions

/-- A function of the kernel's own drivers or one that uACPI hands over. -/
inductive IrqHandler where
  | driver (n : Nat)
  | uacpi (n : Nat)
  deriving DecidableEq, Repr

/-- `uacpi_irq_wrapper`. -/
structure IrqWrapper where
  handler : Nat
  ctx : U64
  irq : BitVec 8

inductive UacpiStatus where
  | ok
  | invalidArgument
  | outOfMemory
  deriving DecidableEq, Repr

/-- `handlers`, `uacpi_wrappers` with the wrappers they point to, and the masks of both interrupt
controllers. -/
structure Irqs where
  handlers : BitVec 8 → Option IrqHandler
  wrappers : BitVec 32 → U64
  wrapper : U64 → IrqWrapper
  pic1Data : BitVec 8
  pic2Data : BitVec 8
  kernel : Kernel

def picUnmaskIrq (irq : BitVec 8) (s : Irqs) : Irqs :=
  if irq < 8#8 then { s with pic1Data := s.pic1Data &&& ~~~(1#8 <<< irq) }
  else { s with pic2Data := s.pic2Data &&& ~~~(1#8 <<< (irq - 8#8)) }

def irqRegisterHandler (vector : BitVec 8) (handler : Option IrqHandler) (s : Irqs) : Irqs :=
  { s with handlers := Function.update s.handlers vector handler }

/-- The handler called and its argument; `none` when the interrupt is only reported. -/
def irqDispatch (interruptNumber frame : U64) (s : Irqs) : Option (IrqHandler × U64) :=
  (s.handlers (interruptNumber.setWidth 8)).map fun handler => (handler,frame)

def uacpiKernelInstallInterruptHandler (boot : Boot) (irq : BitVec 32) (handler : Nat) (ctx : U64) (s : Irqs) :
    Except Stop ((UacpiStatus × Option U64) × Irqs) :=
  if 16#32 ≤ irq then return ((.invalidArgument,none),s)
  else do
    let (w,kernel) ← kmalloc boot 24#64 s.kernel
    let s := { s with kernel := kernel }
    if w = 0#64 then return ((.outOfMemory,none),s)
    let s := { s with
      wrapper := Function.update s.wrapper w ⟨handler,ctx,irq.setWidth 8⟩,
      wrappers := Function.update s.wrappers irq w }
    let s := picUnmaskIrq (irq.setWidth 8) s
    let s := irqRegisterHandler (32#8 + irq.setWidth 8) (some (.uacpi handler)) s
    return ((.ok,some w),s)

/-- The table keeps what it holds. -/
def uacpiKernelUninstallInterruptHandler (irqHandle : U64) (s : Irqs) : UacpiStatus × Irqs :=
  (.ok,{ s with kernel := kfree irqHandle s.kernel })

structure Installed where
  irq : BitVec 32
  handler : Nat
  ctx : U64
  handle : U64
  deriving DecidableEq, Repr

inductive IrqEvent where
  | install (entry : Installed)
  | refuse
  | uninstall (handle : U64)
  | interrupt (line : BitVec 32) (frame : U64) (called : Option (IrqHandler × U64))
  deriving DecidableEq, Repr

inductive IrqStep (boot : Boot) : Irqs → IrqEvent → Irqs → Prop where
  | install : uacpiKernelInstallInterruptHandler boot irq handler ctx s = .ok ((.ok,some handle),next) →
      IrqStep boot s (.install ⟨irq,handler,ctx,handle⟩) next
  | refuse : uacpiKernelInstallInterruptHandler boot irq handler ctx s = .ok ((status,none),next) →
      IrqStep boot s .refuse next
  | uninstall : IrqStep boot s (.uninstall handle) (uacpiKernelUninstallInterruptHandler handle s).2
  | interrupt : line < 16#32 → irqDispatch (32#64 + line.setWidth 64) frame s = called →
      IrqStep boot s (.interrupt line frame called) s

/-- Only drivers have registered handlers. -/
def IrqStart (s : Irqs) : Prop := ∀ vector n, s.handlers vector ≠ some (.uacpi n)

def IrqEvent.entry : IrqEvent → Option Installed
  | .install entry => some entry
  | _ => none

def installs (events : List IrqEvent) : List Installed := (events.filterMap IrqEvent.entry).reverse

def IrqEvent.live (live : List Installed) : IrqEvent → List Installed
  | .install entry => entry :: live
  | .uninstall handle => live.filter fun entry => entry.handle ≠ handle
  | _ => live

def liveInstalls (events : List IrqEvent) : List Installed := events.foldl IrqEvent.live []

def installedOn (line : BitVec 32) (entries : List Installed) : Option Installed :=
  entries.find? fun entry => entry.irq = line

/-- The interrupt calls the handler that is installed on its line with the ctx of its installation,
and no handler of uACPI when none is. -/
def CallsInstalled (events : List IrqEvent) (line : BitVec 32) (called : Option (IrqHandler × U64)) : Prop :=
  match installedOn line (liveInstalls events) with
  | some entry => called = some (.uacpi entry.handler,entry.ctx)
  | none => ∀ n argument, called ≠ some (.uacpi n,argument)

/-- Nothing was ever installed on the line, or the installed handler is the one that was installed
last and its ctx happens to be the address of the frame. -/
def FrameIsCtx (events : List IrqEvent) (line : BitVec 32) (frame : U64) : Prop :=
  installedOn line (installs events) = none ∨
    ∃ live last, installedOn line (liveInstalls events) = some live ∧ installedOn line (installs events) = some last ∧
      live.handler = last.handler ∧ live.ctx = frame

variable {boot : Boot} {s next start : Irqs} {e : IrqEvent} {events : List IrqEvent} {line irq : BitVec 32}
variable {called : Option (IrqHandler × U64)} {frame : U64}

theorem vector_injective (low : line < 16#32) (low' : irq < 16#32)
    (same : 32#8 + line.setWidth 8 = 32#8 + irq.setWidth 8) : line = irq := by
  have value := congrArg BitVec.toNat same
  simp only [BitVec.toNat_add,BitVec.toNat_setWidth,BitVec.toNat_ofNat] at value
  have low := BitVec.lt_def.mp low
  have low' := BitVec.lt_def.mp low'
  apply BitVec.eq_of_toNat_eq
  simp only [BitVec.toNat_ofNat] at low low'
  omega

theorem vector_number (low : line < 16#32) :
    (32#64 + line.setWidth 64).setWidth 8 = 32#8 + line.setWidth 8 := by
  have low := BitVec.lt_def.mp low
  apply BitVec.eq_of_toNat_eq
  simp only [BitVec.toNat_add,BitVec.toNat_setWidth,BitVec.toNat_ofNat] at low ⊢
  omega

theorem install_cases (returns : uacpiKernelInstallInterruptHandler boot irq handler ctx s = .ok (result,next)) :
    (result.2 = none ∧ next.handlers = s.handlers) ∨
      (irq < 16#32 ∧ result.2 ≠ none ∧
        next.handlers = Function.update s.handlers (32#8 + irq.setWidth 8) (some (.uacpi handler))) := by
  unfold uacpiKernelInstallInterruptHandler at returns
  split at returns
  · obtain ⟨rfl,rfl⟩ := ok_pair returns
    exact .inl ⟨rfl,rfl⟩
  · rename_i high
    obtain ⟨⟨w,kernel⟩,_,returns⟩ := ok_of_bind returns
    dsimp only at returns
    split at returns
    · obtain ⟨rfl,rfl⟩ := ok_pair returns
      exact .inl ⟨rfl,rfl⟩
    · obtain ⟨rfl,rfl⟩ := ok_pair returns
      refine .inr ⟨BitVec.not_le.mp high,by simp,?_⟩
      unfold irqRegisterHandler picUnmaskIrq
      split <;> rfl

/-- The table holds the handler that was installed last on each line, whatever was uninstalled. -/
def TableHolds (start : Irqs) (events : List IrqEvent) (s : Irqs) : Prop :=
  ∀ line, line < 16#32 → s.handlers (32#8 + line.setWidth 8) =
    match installedOn line (installs events) with
    | some last => some (.uacpi last.handler)
    | none => start.handlers (32#8 + line.setWidth 8)

theorem installs_snoc : installs (events ++ [e]) = e.entry.toList ++ installs events := by
  cases entry : e.entry <;> simp [installs,List.filterMap_append,entry]

theorem TableHolds.step (holds : TableHolds start events s) (moves : IrqStep boot s e next) :
    TableHolds start (events ++ [e]) next := by
  intro line low
  have before := holds line low
  rw [installs_snoc]
  cases moves with
  | install returns =>
    rename_i irq handler ctx handle
    rcases install_cases returns with ⟨none,_⟩ | ⟨low',_,table⟩
    · cases none
    · rw [table]
      change _ = match installedOn line (⟨irq,handler,ctx,handle⟩ :: installs events) with
        | some last => some (IrqHandler.uacpi last.handler)
        | none => start.handlers (32#8 + line.setWidth 8)
      by_cases same : irq = line
      · subst line
        simp [installedOn]
      · rw [Function.update_of_ne fun equal => same (vector_injective low low' equal).symm]
        simpa [installedOn,same] using before
  | refuse returns =>
    rcases install_cases returns with ⟨_,table⟩ | ⟨_,some,_⟩
    · rw [table]
      exact before
    · exact absurd rfl some
  | uninstall => exact before
  | interrupt => exact before

theorem table_holds (run : Run IrqStart (IrqStep boot) free events s) :
    ∃ start, IrqStart start ∧ TableHolds start events s := by
  refine run.invariant (fun events s => ∃ start, IrqStart start ∧ TableHolds start events s) ?_ ?_
  · exact fun s begins => ⟨s,begins,fun _ _ => rfl⟩
  · rintro events s e next ⟨start,begins,holds⟩ _ moves
    exact ⟨start,begins,holds.step moves⟩

theorem live_subset (events : List IrqEvent) : ∀ entry ∈ liveInstalls events, entry ∈ installs events := by
  induction events using List.reverseRecOn with
  | nil => exact fun _ member => member
  | append_singleton events e ih =>
    intro entry member
    rw [installs_snoc]
    unfold liveInstalls at ih member
    rw [List.foldl_append] at member
    cases e with
    | install new =>
      rcases List.mem_cons.mp member with rfl | old
      · exact List.mem_cons_self
      · exact List.mem_cons_of_mem _ (ih entry old)
    | refuse => exact ih entry member
    | uninstall handle => exact ih entry (List.mem_of_mem_filter member)
    | interrupt line frame called => exact ih entry member

theorem installedOn_live (found : installedOn line (liveInstalls events) = some live) :
    ∃ last, installedOn line (installs events) = some last := by
  have member := live_subset events live (List.mem_of_find?_eq_some found)
  have here := List.find?_some found
  exact Option.isSome_iff_exists.mp (List.find?_isSome.mpr ⟨live,member,here⟩)

/-- An interrupt calls what is installed on its line exactly when nothing ever was, or when the frame
passes for the ctx. -/
theorem interrupt_calls_installed (run : Run IrqStart (IrqStep boot) free events s)
    (moves : IrqStep boot s (.interrupt line frame called) next) :
    CallsInstalled events line called ↔ FrameIsCtx events line frame := by
  obtain ⟨start,begins,holds⟩ := table_holds run
  cases moves with
  | interrupt low calls =>
    unfold irqDispatch at calls
    rw [vector_number low,holds line low] at calls
    unfold CallsInstalled FrameIsCtx
    subst calls
    cases last : installedOn line (installs events) with
    | none =>
      have none_live : installedOn line (liveInstalls events) = none := by
        cases live : installedOn line (liveInstalls events) with
        | none => rfl
        | some entry =>
          obtain ⟨_,some⟩ := installedOn_live live
          rw [last] at some
          cases some
      rw [none_live]
      refine iff_of_true ?_ (.inl rfl)
      intro n argument same
      obtain ⟨handler,registered,here⟩ := Option.map_eq_some_iff.mp same
      exact begins _ n (registered.trans (congrArg some (Prod.mk.inj here).1))
    | some entry =>
      cases live : installedOn line (liveInstalls events) with
      | none => simp
      | some wanted =>
        constructor
        · intro same
          obtain ⟨handler,argument⟩ := Prod.mk.inj (Option.some.inj same)
          exact .inr ⟨wanted,entry,rfl,rfl,(IrqHandler.uacpi.inj handler).symm,argument.symm⟩
        · rintro (none | ⟨live,last,⟨⟩,⟨⟩,handler,argument⟩)
          · cases none
          · change some (IrqHandler.uacpi entry.handler,frame) = some (.uacpi wanted.handler,wanted.ctx)
            rw [handler,argument]

def irqStart : Irqs := ⟨fun _ => none,fun _ => 0#64,fun _ => ⟨0,0#64,0#8⟩,0xFF#8,0xFF#8,fbStart⟩

theorem sci_installed : ∃ handle s, Run IrqStart (IrqStep fbBoot) free [.install ⟨9#32,7,0x5000#64,handle⟩] s := by
  have evaluated : (uacpiKernelInstallInterruptHandler fbBoot 9#32 7 0x5000#64 irqStart).toOption.map Prod.fst =
      some (.ok,some 0xFFFFC00000000020#64) := by decide +kernel
  obtain ⟨s,returns⟩ := returns_of_fst evaluated
  have none : Run IrqStart (IrqStep fbBoot) free [] irqStart := .start fun _ _ => nofun
  exact ⟨_,s,none.step trivial (.install returns)⟩

/-- The handler gets the frame and not its ctx. -/
theorem interrupt_gets_frame : ∃ events s next called, Run IrqStart (IrqStep fbBoot) free events s ∧
    IrqStep fbBoot s (.interrupt 9#32 0x1000#64 called) next ∧
    called = some (.uacpi 7,0x1000#64) ∧ ¬CallsInstalled events 9#32 called := by
  obtain ⟨handle,s,run⟩ := sci_installed
  obtain ⟨_,_,holds⟩ := table_holds run
  have table : irqDispatch (32#64 + (9#32).setWidth 64) 0x1000#64 s = some (.uacpi 7,0x1000#64) := by
    unfold irqDispatch
    rw [vector_number (by decide),holds 9#32 (by decide)]
    rfl
  refine ⟨_,s,s,_,run,.interrupt (by decide) table,rfl,fun same => ?_⟩
  exact absurd (show 0x1000#64 = 0x5000#64 from (Prod.mk.inj (Option.some.inj same)).2) (by decide)

/-- An interrupt whose frame lies at the ctx. -/
theorem interrupt_calls_installed_line : ∃ events s next called, Run IrqStart (IrqStep fbBoot) free events s ∧
    IrqStep fbBoot s (.interrupt 9#32 0x5000#64 called) next ∧ CallsInstalled events 9#32 called := by
  obtain ⟨handle,s,run⟩ := sci_installed
  have moves : IrqStep fbBoot s (.interrupt 9#32 0x5000#64 _) s := .interrupt (by decide) rfl
  refine ⟨_,s,s,_,run,moves,(interrupt_calls_installed run moves).mpr (.inr ⟨_,_,rfl,rfl,rfl,rfl⟩)⟩

end Reddyos
