import Reddyos.DescriptorTables
import Reddyos.ThreadSwitch

/-! Exceptions and interrupts from delivery to `iretq`: `interrupts/isr.asm`, `interrupts/irq.asm` and
`asm/macros.inc`. Handlers are compiled code that may be interrupted itself, to any depth. -/
namespace Reddyos

open ByteMemory CallStack

@[ext] structure Core extends Cpu where
  gs : U64
  kernelGs : U64

def Core.swapgs (c : Core) : Core := { c with gs := c.kernelGs, kernelGs := c.gs }

inductive Stub where
  | isr (n : Nat)
  | irq (n : Nat)
  deriving DecidableEq, Repr

/-- What lies at which address of the kernel's code. -/
structure TrapBoot extends TableBoot where
  codeAt : U64 → Option Stub
  afterIsrHandler : U64
  afterIrqHandler : U64

structure TrapOk (boot : TrapBoot) : Prop where
  isr : ∀ n < 32, boot.codeAt (boot.isrStub n) = some (.isr n)
  irq : ∀ n < 16, boot.codeAt (boot.irqStub n) = some (.irq n)

/-- The vectors for which the processor pushes an error code. -/
def cpuErrorCode (v : Nat) : Bool := [8,10,11,12,13,14,17,21,29,30].contains v

/-- The stubs written with `ISR_ERR`; the others push a zero in its place. -/
def isrErr (n : Nat) : Bool := [8,10,11,12,13,14,17,30].contains n

def Stub.pushed : Stub → List U64
  | .isr n => if isrErr n then [BitVec.ofNat 64 n] else [0#64,BitVec.ofNat 64 n]
  | .irq n => [0#64,BitVec.ofNat 64 (n + 32)]

def Stub.after (boot : TrapBoot) : Stub → U64
  | .isr _ => boot.afterIsrHandler
  | .irq _ => boot.afterIrqHandler

/-- Where the processor puts its frame. -/
def Core.trapStack (boot : TrapBoot) (v : Nat) (c : Core) : U64 :=
  (if (readGate (boot.idt v).bits).ist = 1#3 then boot.doubleFaultIstStack + 8192#64
    else if c.ring3 then boot.kernelIrqStack + 8192#64 else c.rsp) &&& ~~~0xF#64

/-- Delivery through the gate, which clears TF, IF, NT and RF. -/
def Core.deliver (boot : TrapBoot) (v : Nat) (error : U64) (c : Core) (m : Mem) : Option (Core × Mem) :=
  let gate := readGate (boot.idt v).bits
  if gate.present then
    let stack := pushWords ([c.ss,c.rsp,c.rflags,c.cs,c.rip] ++ if cpuErrorCode v then [error] else [])
      (c.trapStack boot v,m)
    some ({ c with
      rsp := stack.1
      rip := gate.offset
      cs := gate.selector.setWidth 64
      ss := if c.ring3 then 0#64 else c.ss
      rflags := c.rflags &&& ~~~0x14300#64 },stack.2)
  else none

def swapgsIf (m : Mem) (address : U64) (c : Core) : Core := if m address.toNat &&& 3#8 = 0#8 then c else c.swapgs

/-- A stub and what follows it up to the call of the handler, which gets the frame. -/
def Stub.enter (boot : TrapBoot) (stub : Stub) (c : Core) (m : Mem) : Core × Mem :=
  let numbered := pushWords stub.pushed (c.rsp,m)
  let c := swapgsIf numbered.2 (numbered.1 + 24#64) c
  let saved := pushWords (irqSaved.map c.reg) numbered
  let called := push saved (stub.after boot)
  ({ c with reg := Function.update c.reg .rdi saved.1, rsp := called.1 },called.2)

/-- From the `ret` of the handler on. -/
def leaveTrap (m : Mem) (c : Core) : Core :=
  let popped := (c.ret m).popAll m irqRestored
  let c := { c with toCpu := { popped with rsp := popped.rsp + 16#64 } }
  let c := swapgsIf m (c.rsp + 8#64) c
  { c with toCpu := c.toCpu.iretq m }

/-- `isr_handler` returns when a handler is registered for the number in its frame, and that returns
`true`; otherwise it panics. `irq_handler` always returns. -/
def Stub.returns (handlers : U64 → Bool) (m : Mem) (frame : U64) : Stub → Bool
  | .isr _ => handlers (load64 m (frame + 120#64).toNat)
  | .irq _ => true

/-- The way into a handler. Nothing of `live` is where the frame goes. -/
structure TrapIn (boot : TrapBoot) (live : Nat → Prop) (v : Nat) (error : U64) (c : Core) (m : Mem) (stub : Stub)
    (k : Core) (m' : Mem) : Prop where
  delivered : ∃ d, c.deliver boot v error m = some d ∧ boot.codeAt d.1.rip = some stub ∧ (k,m') = stub.enter boot d.1 d.2
  room : 192 ≤ (c.trapStack boot v).toNat
  clear : ∀ b, live b → b < (c.trapStack boot v).toNat - 192 ∨ (c.trapStack boot v).toNat ≤ b

/-- Code of the kernel, which keeps the bytes of `live` and the `gs` bases, with the traps that it
takes on the way and that return. -/
inductive Body (boot : TrapBoot) (handlers : U64 → Bool) : (Nat → Prop) → Core → Mem → Core → Mem → Prop where
  | work {live : Nat → Prop} {c c' : Core} {m m' : Mem} : c'.gs = c.gs → c'.kernelGs = c.kernelGs →
      (∀ b, live b → m' b = m b) → Body boot handlers live c m c' m'
  | trap {live : Nat → Prop} {v : Nat} {error : U64} {c k k' : Core} {m m₁ m₂ : Mem} {stub : Stub} :
      TrapIn boot live v error c m stub k m₁ → stub.returns handlers m₁ (k.reg .rdi) = true →
      Body boot handlers (fun b => live b ∨ k.rsp.toNat ≤ b ∧ b < (c.trapStack boot v).toNat) k m₁ k' m₂ →
      k'.rsp = k.rsp → Body boot handlers live c m (leaveTrap m₂ k') m₂
  | trans {live : Nat → Prop} {c c' c'' : Core} {m m' m'' : Mem} : Body boot handlers live c m c' m' →
      Body boot handlers live c' m' c'' m'' → Body boot handlers live c m c'' m''

/-- A trap and its return. `k` and `m₁` are what the handler is called with; it gets its frame as `const`. -/
structure Trap (boot : TrapBoot) (handlers : U64 → Bool) (live : Nat → Prop) (v : Nat) (error : U64) (c : Core)
    (m : Mem) (k : Core) (m₁ : Mem) (c' : Core) (m' : Mem) : Prop where
  handled : ∃ stub k', TrapIn boot live v error c m stub k m₁ ∧ stub.returns handlers m₁ (k.reg .rdi) = true ∧
    Body boot handlers (fun b => live b ∨ k.rsp.toNat ≤ b ∧ b < (c.trapStack boot v).toNat) k m₁ k' m' ∧
    k'.rsp = k.rsp ∧ c' = leaveTrap m' k'

/-- `interrupt_frame_t`. -/
structure InterruptFrame where
  reg : Reg → U64
  interruptNumber : U64
  errorCode : U64
  rip : U64
  cs : U64
  rflags : U64
  rsp : U64
  ss : U64

def readFrame (m : Mem) (frame : Nat) : InterruptFrame where
  reg r := load64 m (frame + 8 * irqRestored.idxOf r)
  interruptNumber := load64 m (frame + 120)
  errorCode := load64 m (frame + 128)
  rip := load64 m (frame + 136)
  cs := load64 m (frame + 144)
  rflags := load64 m (frame + 152)
  rsp := load64 m (frame + 160)
  ss := load64 m (frame + 168)

variable {boot : TrapBoot} {handlers : U64 → Bool} {live : Nat → Prop} {v : Nat} {error : U64} {c c' k k' : Core}
variable {m m' m₁ m₂ : Mem} {stub : Stub}

def Stub.ofVector (v : Nat) : Stub := if v < 32 then .isr v else .irq (v - 32)

/-- What lies between the number of the vector and `rip`, the highest word first. -/
def frameGap (v : Nat) (error : U64) : List U64 :=
  (if cpuErrorCode v then [error] else []) ++ if v < 32 ∧ isrErr v then [] else [0#64]

/-- The stub pushes a zero exactly where the processor pushes nothing. -/
def StubFits (v : Nat) : Prop := v ≠ 21 ∧ v ≠ 29

instance (v : Nat) : Decidable (StubFits v) := inferInstanceAs (Decidable (_ ∧ _))

def trapWords (boot : TrapBoot) (v : Nat) (error : U64) (c : Core) : List U64 :=
  [c.ss,c.rsp,c.rflags,c.cs,c.rip] ++ frameGap v error ++ [BitVec.ofNat 64 v] ++ irqSaved.map c.reg ++
    [(Stub.ofVector v).after boot]

theorem pushed_eq (bound : v < 48) : (if cpuErrorCode v then [error] else []) ++ (Stub.ofVector v).pushed =
    frameGap v error ++ [BitVec.ofNat 64 v] := by
  unfold Stub.ofVector frameGap
  by_cases isr : v < 32
  · simp only [isr,if_true,true_and,Stub.pushed]
    cases isrErr v <;> simp
  · simp only [isr,if_false,false_and,Stub.pushed,show v - 32 + 32 = v by omega]
    simp

/-- The processor's error code, or the zero in its place. -/
def pushedCode (v : Nat) (error : U64) : U64 := if cpuErrorCode v then error else 0#64

theorem frameGap_fits (fits : StubFits v) (bound : v < 48) (error : U64) : frameGap v error = [pushedCode v error] := by
  have table : ∀ v < 48, StubFits v → cpuErrorCode v = decide (v < 32 ∧ isrErr v) := by decide
  have same := table v bound fits
  unfold frameGap pushedCode
  by_cases pushes : v < 32 ∧ isrErr v = true
  · simp [same,pushes]
  · simp [same,pushes]

theorem frameGap_misfit (misfit : v = 21 ∨ v = 29) : frameGap v error = [error,0#64] := by
  rcases misfit with rfl | rfl <;> rfl

/-- The five words that `iretq` takes, and a sixth that stays when the stub does not fit. -/
def resumeWords (v : Nat) (error : U64) (c : Core) : List U64 :=
  (frameGap v error).reverse.drop 1 ++ [c.rip,c.cs,c.rflags,c.rsp,c.ss]

theorem resumeWords_fits (fits : StubFits v) (bound : v < 48) :
    resumeWords v error c = [c.rip,c.cs,c.rflags,c.rsp,c.ss] := by
  have gap := frameGap_fits fits bound error
  simp [resumeWords,gap]

theorem resumeWords_misfit (misfit : v = 21 ∨ v = 29) :
    resumeWords v error c = [error,c.rip,c.cs,c.rflags,c.rsp,c.ss] := by
  simp [resumeWords,frameGap_misfit misfit]

def numberedWords (v : Nat) (error : U64) (c : Core) : List U64 :=
  [c.ss,c.rsp,c.rflags,c.cs,c.rip] ++ (frameGap v error ++ [BitVec.ofNat 64 v])

theorem not_fits (misfit : ¬StubFits v) : v = 21 ∨ v = 29 := by
  unfold StubFits at misfit
  omega

theorem numberedWords_reverse (bound : v < 48) (error : U64) (c : Core) : ∃ e, (numberedWords v error c).reverse =
    BitVec.ofNat 64 v :: e :: resumeWords v error c := by
  unfold numberedWords resumeWords
  by_cases fits : StubFits v
  · have gap := frameGap_fits fits bound error
    exact ⟨pushedCode v error,by simp [gap]⟩
  · exact ⟨0#64,by simp [frameGap_misfit (not_fits fits)]⟩

theorem trapWords_eq : trapWords boot v error c =
    numberedWords v error c ++ irqSaved.map c.reg ++ [(Stub.ofVector v).after boot] := by
  simp [trapWords,numberedWords]

theorem trapWords_reverse (boot : TrapBoot) (bound : v < 48) (error : U64) (c : Core) : ∃ e, (trapWords boot v error c).reverse =
    (Stub.ofVector v).after boot :: (irqRestored.map c.reg ++ (BitVec.ofNat 64 v :: e :: resumeWords v error c)) := by
  obtain ⟨e,reversed⟩ := numberedWords_reverse bound error c
  have restored : (irqSaved.map c.reg).reverse = irqRestored.map c.reg := rfl
  refine ⟨e,?_⟩
  rw [trapWords_eq,List.reverse_append,List.reverse_append,reversed,restored]
  rfl

theorem resumeWords_length (bound : v < 48) (error : U64) (c : Core) : (resumeWords v error c).length ≤ 6 := by
  by_cases fits : StubFits v
  · simp [resumeWords_fits fits bound]
  · simp [resumeWords_misfit (not_fits fits)]

theorem trapWords_length (boot : TrapBoot) (bound : v < 48) (error : U64) (c : Core) :
    (trapWords boot v error c).length ≤ 24 := by
  obtain ⟨_,reversed⟩ := numberedWords_reverse bound error c
  have lengths := congrArg List.length reversed
  have resumed := resumeWords_length bound error c
  have fifteen : (irqSaved.map c.reg).length = 15 := rfl
  rw [trapWords_eq]
  simp only [List.length_reverse,List.length_cons,List.length_append,List.length_nil,fifteen] at lengths ⊢
  omega

/-- `test byte` looks at the two low bits of the word. -/
theorem low_bits {a : Nat} {w : U64} (word : load64 m a = w) : m a &&& 3#8 = 0#8 ↔ w &&& 3#64 = 0#64 := by
  have byte : (m a &&& 3#8).toNat = (m a).toNat % 4 := by
    rw [BitVec.toNat_and]
    exact Nat.and_two_pow_sub_one_eq_mod _ 2
  have whole : (w &&& 3#64).toNat = w.toNat % 4 := Words.toNat_and_low w 2 (by decide)
  have same : w.toNat % 4 = (m a).toNat % 4 := by
    have low : (load64 m a).setWidth 8 = m a := BitVec.setWidth_append_eq_right
    have number := congrArg BitVec.toNat low
    rw [word,BitVec.toNat_setWidth] at number
    omega
  rw [← BitVec.toNat_inj,← BitVec.toNat_inj,byte,whole,same]
  rfl

/-- `swapgs` when the word is the selector of a user segment. -/
def Core.swapFor (selector : U64) (c : Core) : Core := if selector &&& 3#64 = 0#64 then c else c.swapgs

@[simp] theorem Core.swapFor_cpu (selector : U64) (c : Core) : (c.swapFor selector).toCpu = c.toCpu := by
  unfold swapFor
  split <;> rfl

@[simp] theorem Core.swapFor_gs (selector : U64) (c : Core) :
    (c.swapFor selector).gs = if selector &&& 3#64 = 0#64 then c.gs else c.kernelGs := by
  unfold swapFor
  split <;> rfl

@[simp] theorem Core.swapFor_kernelGs (selector : U64) (c : Core) :
    (c.swapFor selector).kernelGs = if selector &&& 3#64 = 0#64 then c.kernelGs else c.gs := by
  unfold swapFor
  split <;> rfl

theorem swapgsIf_eq {a w : U64} (word : load64 m a.toNat = w) : swapgsIf m a c = c.swapFor w := by
  unfold swapgsIf Core.swapFor
  simp only [low_bits word]

theorem leaveTrap_spec {reg : Reg → U64} {after n e rip cs rflags rsp ss : U64} {rest : List U64}
    (holds : Holds m k.rsp.toNat (after :: (irqRestored.map reg ++ (n :: e :: rip :: cs :: rflags :: rsp :: ss :: rest))))
    (room : k.rsp.toNat + 184 ≤ 2^64) :
    leaveTrap m k = ⟨⟨reg,rsp,rip,rflags,cs,ss⟩,(k.swapFor cs).gs,(k.swapFor cs).kernelGs⟩ := by
  have up : ∀ i < 184, (k.rsp + BitVec.ofNat 64 i).toNat = k.rsp.toNat + i := fun i bound => toNat_up (by omega)
  have start : (k.ret m).rsp.toNat = k.rsp.toNat + 8 := up 8 (by decide)
  have regs : Holds m (k.ret m).rsp.toNat (irqRestored.map reg ++ (n :: e :: rip :: cs :: rflags :: rsp :: ss :: rest)) := by
    rw [start]
    exact holds.2
  have frame := (holds_append.mp regs).2
  rw [start] at frame
  have word : ∀ i w, (n :: e :: rip :: cs :: rflags :: rsp :: ss :: rest)[i]? = some w →
      load64 m (k.rsp.toNat + 128 + 8 * i) = w := fun i w here => frame.word i here
  have skipped : ((k.ret m).popAll m irqRestored).rsp + 16#64 = k.rsp + BitVec.ofNat 64 144 := by
    rw [Cpu.popAll_rsp]
    change k.rsp + 8#64 + BitVec.ofNat 64 120 + 16#64 = _
    rw [BitVec.add_assoc,BitVec.add_assoc]
    rfl
  have popped : ((k.ret m).popAll m irqRestored).reg = reg := by
    have all : ∀ r, r ∈ irqRestored := fun r => by cases r <;> decide
    funext r
    rw [Cpu.popAll_reg regs (by rw [start]; change _ + 120 < _; omega),if_pos (all r)]
  have upper : ∀ i, i + 144 < 184 → (k.rsp + BitVec.ofNat 64 144 + BitVec.ofNat 64 i).toNat = k.rsp.toNat + 144 + i := by
    intro i bound
    rw [toNat_up (by rw [up 144 (by decide)]; omega),up 144 (by decide)]
  unfold leaveTrap
  dsimp only
  rw [skipped,swapgsIf_eq (w := cs) (by rw [upper 8 (by decide)]; exact word 3 cs rfl)]
  refine Core.ext ?_ ?_ ?_ ?_ ?_ ?_ ?_ ?_ <;>
    simp only [Core.swapFor_cpu,Core.swapFor_gs,Core.swapFor_kernelGs,Cpu.iretq,popped]
  · rw [upper 24 (by decide)]
    exact word 5 rsp rfl
  · rw [up 144 (by decide)]
    exact word 2 rip rfl
  · rw [upper 16 (by decide)]
    exact word 4 rflags rfl
  · rw [upper 8 (by decide)]
    exact word 3 cs rfl
  · rw [upper 32 (by decide)]
    exact word 6 ss rfl

/-- The word that decides about `swapgs`, on the way in and on the way out. -/
def swapWord (v : Nat) (c : Core) : U64 := if StubFits v then c.cs else c.rip

theorem swapWord_resumed (bound : v < 48) (error : U64) (c : Core) :
    (resumeWords v error c)[1]? = some (swapWord v c) := by
  unfold swapWord
  by_cases fits : StubFits v
  · rw [resumeWords_fits fits bound,if_pos fits]
    rfl
  · rw [resumeWords_misfit (not_fits fits),if_neg fits]
    rfl

structure Entered (boot : TrapBoot) (v : Nat) (error : U64) (c : Core) (m : Mem) (k : Core) (m₁ : Mem) : Prop where
  bound : v < 48
  place : k.rsp.toNat + 8 * (trapWords boot v error c).length = (c.trapStack boot v).toNat
  low : (c.trapStack boot v).toNat ≤ k.rsp.toNat + 192
  holds : Holds m₁ k.rsp.toNat (trapWords boot v error c).reverse
  outside : ∀ b, b < k.rsp.toNat ∨ (c.trapStack boot v).toNat ≤ b → m₁ b = m b
  frame : k.reg .rdi = k.rsp + 8#64
  gs : k.gs = (c.swapFor (swapWord v c)).gs
  kernelGs : k.kernelGs = (c.swapFor (swapWord v c)).kernelGs

theorem TrapIn.vector (ok : TrapOk boot) (entered : TrapIn boot live v error c m stub k m₁) :
    v < 48 ∧ stub = Stub.ofVector v := by
  obtain ⟨⟨d,delivers,code,_⟩,_,_⟩ := entered
  have gates := gates_ok boot.toTableBoot
  unfold Core.deliver at delivers
  dsimp only at delivers
  split at delivers
  swap
  · cases delivers
  rename_i present
  obtain rfl := Option.some.inj delivers
  by_cases isr : v < 32
  · refine ⟨by omega,?_⟩
    rw [gates.exceptions v isr] at code
    dsimp only at code
    rw [ok.isr v isr] at code
    rw [Stub.ofVector,if_pos isr]
    exact (Option.some.inj code).symm
  · by_cases irq : v < 48
    · refine ⟨irq,?_⟩
      rw [gates.interrupts v (by omega) irq] at code
      dsimp only at code
      rw [ok.irq _ (by omega)] at code
      rw [Stub.ofVector,if_neg isr]
      exact (Option.some.inj code).symm
    · rw [gates.others v (by omega)] at present
      cases present

theorem pushWords_append {x : U64 × Mem} (first second : List U64) :
    pushWords (first ++ second) x = pushWords second (pushWords first x) := List.foldl_append

theorem numbered_spec (room : 192 ≤ (c.trapStack boot v).toNat) (bound : v < 48) :
    load64 (pushWords (numberedWords v error c) (c.trapStack boot v,m)).2
      ((pushWords (numberedWords v error c) (c.trapStack boot v,m)).1 + 24#64).toNat = swapWord v c := by
  obtain ⟨e,reversed⟩ := numberedWords_reverse bound error c
  have lengths := congrArg List.length reversed
  have resumed := resumeWords_length bound error c
  simp only [List.length_reverse,List.length_cons] at lengths
  obtain ⟨ends,holds,_⟩ := @pushWords_spec m (numberedWords v error c) (c.trapStack boot v) (by omega)
  have below := (c.trapStack boot v).isLt
  obtain ⟨first,second⟩ := List.getElem?_eq_some_iff.mp (swapWord_resumed bound error c)
  rw [← ends,reversed] at holds
  have place : ((pushWords (numberedWords v error c) (c.trapStack boot v,m)).1 + 24#64).toNat =
      (pushWords (numberedWords v error c) (c.trapStack boot v,m)).1.toNat + 24 := toNat_up (n := 24) (by omega)
  rw [place]
  exact holds.word 3 (swapWord_resumed bound error c)

theorem Stub.enter_eq {numbered : U64 × Mem} {w : U64} (pushes : pushWords stub.pushed (c.rsp,m) = numbered)
    (tested : load64 numbered.2 (numbered.1 + 24#64).toNat = w) : stub.enter boot c m =
      let saved := pushWords (irqSaved.map c.reg) numbered
      let called := push saved (stub.after boot)
      ({ c.swapFor w with reg := Function.update c.reg .rdi saved.1, rsp := called.1 },called.2) := by
  unfold Stub.enter
  dsimp only
  rw [pushes,swapgsIf_eq tested]
  simp only [Core.swapFor_cpu]

theorem TrapIn.entered (ok : TrapOk boot) (entered : TrapIn boot live v error c m stub k m₁) :
    Entered boot v error c m k m₁ := by
  obtain ⟨bound,rfl⟩ := entered.vector ok
  obtain ⟨⟨d,delivers,_,enters⟩,room,_⟩ := entered
  unfold Core.deliver at delivers
  dsimp only at delivers
  split at delivers
  swap
  · cases delivers
  obtain rfl := Option.some.inj delivers
  have length := trapWords_length boot bound error c
  obtain ⟨ends,holds,outside⟩ := @pushWords_spec m (trapWords boot v error c) (c.trapStack boot v) (by omega)
  have numbered : pushWords (Stub.ofVector v).pushed
      (pushWords ([c.ss,c.rsp,c.rflags,c.cs,c.rip] ++ if cpuErrorCode v then [error] else []) (c.trapStack boot v,m)) =
      pushWords (numberedWords v error c) (c.trapStack boot v,m) := by
    rw [← pushWords_append,List.append_assoc,pushed_eq bound]
    rfl
  rw [Stub.enter_eq numbered (numbered_spec room bound)] at enters
  dsimp only at enters
  have called : push (pushWords (irqSaved.map c.reg) (pushWords (numberedWords v error c) (c.trapStack boot v,m)))
      ((Stub.ofVector v).after boot) = pushWords (trapWords boot v error c) (c.trapStack boot v,m) := by
    rw [trapWords_eq,pushWords_append,pushWords_append]
    rfl
  rw [called] at enters
  obtain ⟨rfl,rfl⟩ := Prod.mk.inj enters
  refine ⟨bound,?_,?_,ends ▸ holds,fun b apart => outside b (by rwa [← ends]),?_,?_,?_⟩
  · dsimp only
    omega
  · dsimp only
    omega
  · dsimp only
    rw [Function.update_self,← called]
    exact (BitVec.sub_add_cancel _ _).symm
  · simp
  · simp

def Core.shifted (error : U64) (c : Core) : Core :=
  { c with rip := error, cs := c.rip, rflags := c.cs, rsp := c.rflags, ss := c.rsp }

/-- A frame that is still what was put there takes the code back to where it was, and one word too
low when the stub does not fit. -/
theorem Entered.leaves (entered : Entered boot v error c m k m₁)
    (kept : ∀ b, k.rsp.toNat ≤ b → b < (c.trapStack boot v).toNat → m₂ b = m₁ b)
    (gs : k'.gs = k.gs) (kernelGs : k'.kernelGs = k.kernelGs) (rsp : k'.rsp = k.rsp) :
    leaveTrap m₂ k' = if StubFits v then c else c.shifted error := by
  obtain ⟨e,reversed⟩ := trapWords_reverse boot entered.bound error c
  have count := congrArg List.length reversed
  have fifteen : (irqRestored.map c.reg).length = 15 := rfl
  simp only [List.length_reverse,List.length_cons,List.length_append,fifteen] at count
  have place := entered.place
  have below := (c.trapStack boot v).isLt
  have holds : Holds m₂ k'.rsp.toNat (trapWords boot v error c).reverse := by
    rw [rsp]
    refine entered.holds.congr fun b low high => kept b low ?_
    rw [List.length_reverse] at high
    omega
  rw [reversed] at holds
  have swapped : ∀ w, swapWord v c = w → (k'.swapFor w).gs = c.gs ∧ (k'.swapFor w).kernelGs = c.kernelGs := by
    rintro w rfl
    simp only [Core.swapFor_gs,Core.swapFor_kernelGs,gs,kernelGs,entered.gs,entered.kernelGs]
    constructor <;> split <;> rfl
  by_cases fits : StubFits v
  · rw [resumeWords_fits fits entered.bound] at holds count
    rw [leaveTrap_spec holds (by rw [rsp]; simp at count; omega),if_pos fits,(swapped c.cs (if_pos fits)).1,
      (swapped c.cs (if_pos fits)).2]
  · rw [resumeWords_misfit (not_fits fits)] at holds count
    rw [leaveTrap_spec holds (by rw [rsp]; simp at count; omega),if_neg fits,(swapped c.rip (if_neg fits)).1,
      (swapped c.rip (if_neg fits)).2]
    rfl

/-- Code of the kernel keeps what it must keep, through every trap that it takes. -/
theorem Body.keeps (ok : TrapOk boot) (body : Body boot handlers live c m c' m') :
    c'.gs = c.gs ∧ c'.kernelGs = c.kernelGs ∧ ∀ b, live b → m' b = m b := by
  induction body with
  | work gs kernelGs kept => exact ⟨gs,kernelGs,kept⟩
  | trans _ _ first second =>
    exact ⟨second.1.trans first.1,second.2.1.trans first.2.1,fun b here => (second.2.2 b here).trans (first.2.2 b here)⟩
  | trap way _ _ rsp inner =>
    obtain ⟨gs,kernelGs,kept⟩ := inner
    have entered := way.entered ok
    rw [entered.leaves (fun b low high => kept b (.inr ⟨low,high⟩)) gs kernelGs rsp]
    refine ⟨by split <;> rfl,by split <;> rfl,fun b here => ?_⟩
    rw [kept b (.inl here),entered.outside b ?_]
    have low := entered.low
    have clear := way.clear b here
    omega

def trapFrame (v : Nat) (error : U64) (c : Core) : InterruptFrame :=
  ⟨c.reg,BitVec.ofNat 64 v,pushedCode v error,c.rip,c.cs,c.rflags,c.rsp,c.ss⟩

def shiftedFrame (v : Nat) (error : U64) (c : Core) : InterruptFrame :=
  ⟨c.reg,BitVec.ofNat 64 v,0#64,error,c.rip,c.cs,c.rflags,c.rsp⟩

structure Returned (handlers : U64 → Bool) (live : Nat → Prop) (v : Nat) (error : U64) (c : Core) (m : Mem) (k : Core)
    (m₁ : Mem) (c' : Core) (m' : Mem) : Prop where
  vector : v < 48
  handled : v < 32 → handlers (BitVec.ofNat 64 v) = true
  handed : readFrame m₁ (k.reg .rdi).toNat = if StubFits v then trapFrame v error c else shiftedFrame v error c
  resumed : StubFits v → c' = c
  shifted : ¬StubFits v → c' = c.shifted error
  kept : ∀ b, live b → m' b = m b

theorem readFrame_holds {reg : Reg → U64} {n e rip cs rflags rsp ss : U64} {rest : List U64}
    (holds : Holds m a (irqRestored.map reg ++ (n :: e :: rip :: cs :: rflags :: rsp :: ss :: rest))) :
    readFrame m a = ⟨reg,n,e,rip,cs,rflags,rsp,ss⟩ := by
  have word : ∀ i w, (irqRestored.map reg ++ (n :: e :: rip :: cs :: rflags :: rsp :: ss :: rest))[i]? = some w →
      load64 m (a + 8 * i) = w := fun i w here => holds.word i here
  unfold readFrame
  rw [InterruptFrame.mk.injEq]
  refine ⟨funext fun r => word _ _ ?_,word 15 n rfl,word 16 e rfl,word 17 rip rfl,word 18 cs rfl,word 19 rflags rfl,
    word 20 rsp rfl,word 21 ss rfl⟩
  cases r <;> rfl

theorem Entered.room (entered : Entered boot v error c m k m₁) :
    k.rsp.toNat + 184 < 2^64 ∧ (k.reg .rdi).toNat = k.rsp.toNat + 8 := by
  have fifteen : (irqSaved.map c.reg).length = 15 := rfl
  have place := entered.place
  have below := (c.trapStack boot v).isLt
  have gap : 0 < (frameGap v error).length := by
    by_cases fits : StubFits v
    · simp [frameGap_fits fits entered.bound]
    · simp [frameGap_misfit (not_fits fits)]
  rw [trapWords_eq] at place
  simp only [List.length_append,numberedWords,List.length_cons,List.length_nil,fifteen] at place
  have room : k.rsp.toNat + 184 < 2^64 := by omega
  refine ⟨room,?_⟩
  rw [entered.frame]
  exact toNat_up (n := 8) (by omega)

theorem Entered.handed (entered : Entered boot v error c m k m₁) :
    readFrame m₁ (k.reg .rdi).toNat = if StubFits v then trapFrame v error c else shiftedFrame v error c := by
  have holds := entered.holds
  rw [entered.room.2]
  have restored : (irqSaved.map c.reg).reverse = irqRestored.map c.reg := rfl
  by_cases fits : StubFits v
  · rw [if_pos fits]
    have words : (trapWords boot v error c).reverse = (Stub.ofVector v).after boot :: (irqRestored.map c.reg ++
        (BitVec.ofNat 64 v :: pushedCode v error :: c.rip :: c.cs :: c.rflags :: c.rsp :: c.ss :: [])) := by
      rw [trapWords_eq,numberedWords,frameGap_fits fits entered.bound,List.reverse_append,List.reverse_append,restored]
      rfl
    rw [words] at holds
    exact readFrame_holds holds.2
  · rw [if_neg fits]
    have words : (trapWords boot v error c).reverse = (Stub.ofVector v).after boot :: (irqRestored.map c.reg ++
        (BitVec.ofNat 64 v :: 0#64 :: error :: c.rip :: c.cs :: c.rflags :: c.rsp :: [c.ss])) := by
      rw [trapWords_eq,numberedWords,frameGap_misfit (not_fits fits),List.reverse_append,List.reverse_append,restored]
      rfl
    rw [words] at holds
    exact readFrame_holds holds.2

/-- `isr_handler` finds the number of the vector in its frame. -/
theorem Entered.number (entered : Entered boot v error c m k m₁) :
    load64 m₁ (k.reg .rdi + 120#64).toNat = BitVec.ofNat 64 v := by
  have number : (readFrame m₁ (k.reg .rdi).toNat).interruptNumber = BitVec.ofNat 64 v := by
    rw [entered.handed]
    split <;> rfl
  obtain ⟨room,frame⟩ := entered.room
  rw [toNat_up (n := 120) (by omega)]
  exact number

theorem Trap.returned (ok : TrapOk boot) (trap : Trap boot handlers live v error c m k m₁ c' m') :
    Returned handlers live v error c m k m₁ c' m' := by
  obtain ⟨stub,k',way,returns,body,rsp,rfl⟩ := trap.handled
  obtain ⟨gs,kernelGs,kept⟩ := body.keeps ok
  have entered := way.entered ok
  have leaves := entered.leaves (fun b low high => kept b (.inr ⟨low,high⟩)) gs kernelGs rsp
  refine ⟨entered.bound,fun exception => ?_,entered.handed,fun fits => ?_,fun misfit => ?_,fun b here => ?_⟩
  · rw [(way.vector ok).2,Stub.ofVector,if_pos exception] at returns
    rw [← entered.number]
    exact returns
  · rw [leaves,if_pos fits]
  · rw [leaves,if_neg misfit]
  · have clear := way.clear b here
    have low := entered.low
    rw [kept b (.inl here),entered.outside b (by omega)]

/-- Whatever traps come while a handler runs, and whatever comes while they are handled: the handler finds
the interrupted registers in its frame, and the code that was interrupted goes on as if nothing had been. -/
theorem trap_returns (ok : TrapOk boot) (trap : Trap boot handlers live v error c m k m₁ c' m') :
    Returned handlers live v error c m k m₁ c' m' := trap.returned ok

def stubBoot : TrapBoot where
  isrStub n := BitVec.ofNat 64 (0x100000 + 16 * n)
  irqStub n := BitVec.ofNat 64 (0x200000 + 16 * n)
  kernelIrqStack := 0x300000#64
  doubleFaultIstStack := 0x310000#64
  tss := 0x320000#64
  codeAt a := if a.toNat < 0x200000 then some (.isr ((a.toNat - 0x100000) / 16))
    else some (.irq ((a.toNat - 0x200000) / 16))
  afterIsrHandler := 0x330000#64
  afterIrqHandler := 0x330100#64

theorem stubBoot_ok : TrapOk stubBoot where
  isr := by decide
  irq := by decide

def userCore : Core := ⟨⟨fun _ => 7#64,0x7FFFE000#64,0x400123#64,0x202#64,0x2B#64,0x23#64⟩,0#64,0x340000#64⟩

/-- A page fault that is handled. -/
theorem trap_returns_fault : ∃ k m₁ c' m',
    Trap stubBoot (fun n => n == 14#64) (fun _ => False) 14 6#64 userCore (fun _ => 0#8) k m₁ c' m' ∧
      readFrame m₁ (k.reg .rdi).toNat = trapFrame 14 6#64 userCore ∧ c' = userCore := by
  have delivers : ∃ d, userCore.deliver stubBoot 14 6#64 (fun _ => 0#8) = some d ∧
      stubBoot.codeAt d.1.rip = some (.isr 14) := ⟨_,rfl,by decide +kernel⟩
  obtain ⟨d,delivered,code⟩ := delivers
  obtain ⟨k,m₁,enters⟩ : ∃ k m₁, (k,m₁) = (Stub.isr 14).enter stubBoot d.1 d.2 := ⟨_,_,rfl⟩
  have way : TrapIn stubBoot (fun _ => False) 14 6#64 userCore (fun _ => 0#8) (.isr 14) k m₁ :=
    ⟨⟨d,delivered,code,enters⟩,by decide +kernel,fun _ => False.elim⟩
  have number := (way.entered stubBoot_ok).number
  have trap : Trap stubBoot (fun n => n == 14#64) (fun _ => False) 14 6#64 userCore (fun _ => 0#8) k m₁ (leaveTrap m₁ k) m₁ :=
    ⟨_,k,way,by unfold Stub.returns; rw [number]; rfl,.work rfl rfl fun _ _ => rfl,rfl,rfl⟩
  have returned := trap_returns stubBoot_ok trap
  exact ⟨_,_,_,_,trap,returned.handed,returned.resumed (by decide)⟩

end Reddyos
