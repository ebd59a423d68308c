import Reddyos.Processor

/-! The tables of `interrupts/idt.c` and `interrupts/gdt.c` and the selectors of `IA32_STAR`, as the
kernel writes them and as the processor reads them. -/
namespace Reddyos

open ByteMemory

/-- `idt_entry_t`. -/
structure IdtEntry where
  offsetLow : BitVec 16
  selector : BitVec 16
  ist : BitVec 8
  typeAttributes : BitVec 8
  offsetMid : BitVec 16
  offsetHigh : BitVec 32
  zero : BitVec 32

def IdtEntry.empty : IdtEntry := ⟨0#16,0#16,0#8,0#8,0#16,0#32,0#32⟩

abbrev Idt := Nat → IdtEntry

def idtSetGate (kernelCsSelector : BitVec 16) (vector : Nat) (isr : U64) (flags : BitVec 8) (idt : Idt) : Idt :=
  Function.update idt vector
    { offsetLow := (isr &&& 0xFFFF#64).setWidth 16
      selector := kernelCsSelector
      ist := 0#8
      typeAttributes := flags
      offsetMid := ((isr >>> 16) &&& 0xFFFF#64).setWidth 16
      offsetHigh := ((isr >>> 32) &&& 0xFFFFFFFF#64).setWidth 32
      zero := 0#32 }

/-- The addresses that the tables are filled with. -/
structure TableBoot where
  isrStub : Nat → U64
  irqStub : Nat → U64
  kernelIrqStack : U64
  doubleFaultIstStack : U64
  tss : U64

def setGates (kernelCsSelector : BitVec 16) (first : Nat) (stub : Nat → U64) (count : Nat) (idt : Idt) : Idt :=
  (List.range count).foldl (fun idt i => idtSetGate kernelCsSelector (first + i) (stub i) 0x8E#8 idt) idt

def idtInit (boot : TableBoot) (kernelCsSelector : BitVec 16) (idt : Idt) : Idt :=
  let idt := setGates kernelCsSelector 0 boot.isrStub 32 idt
  Function.update idt 8 { idt 8 with ist := 1#8 }

def irqInstall (boot : TableBoot) (kernelCsSelector : BitVec 16) (idt : Idt) : Idt :=
  setGates kernelCsSelector 32 boot.irqStub 16 idt

/-- The table as `main` leaves it; `gdt_install` has reloaded `cs` before. -/
def TableBoot.idt (boot : TableBoot) : Idt := irqInstall boot 8#16 (idtInit boot 8#16 fun _ => .empty)

/-- The sixteen bytes of an entry, the first field lowest. -/
def IdtEntry.bits (e : IdtEntry) : BitVec 128 :=
  e.zero ++ e.offsetHigh ++ e.offsetMid ++ e.typeAttributes ++ e.ist ++ e.selector ++ e.offsetLow

structure Gate where
  offset : U64
  selector : BitVec 16
  ist : BitVec 3
  type : BitVec 4
  dpl : BitVec 2
  present : Bool
  deriving DecidableEq

def readGate (w : BitVec 128) : Gate where
  offset := w.extractLsb' 64 32 ++ w.extractLsb' 48 16 ++ w.extractLsb' 0 16
  selector := w.extractLsb' 16 16
  ist := w.extractLsb' 32 3
  type := w.extractLsb' 40 4
  dpl := w.extractLsb' 45 2
  present := w.getLsbD 47

theorem getLsbD_low (k i : Nat) (bound : k ≤ 64) : (BitVec.ofNat 64 (2^k - 1)).getLsbD i = decide (i < k) := by
  rw [BitVec.getLsbD_ofNat,Nat.testBit_two_pow_sub_one]
  by_cases low : i < k <;> simp [low]
  omega

/-- The three parts of an address put together again. -/
theorem offset_parts (isr : U64) : ((isr >>> 32) &&& 0xFFFFFFFF#64).setWidth 32 ++
    ((isr >>> 16) &&& 0xFFFF#64).setWidth 16 ++ (isr &&& 0xFFFF#64).setWidth 16 = isr := by
  apply BitVec.eq_of_getLsbD_eq
  intro i inside
  have low : ∀ j, (0xFFFF#64).getLsbD j = decide (j < 16) := fun j => getLsbD_low 16 j (by decide)
  have high : ∀ j, (0xFFFFFFFF#64).getLsbD j = decide (j < 32) := fun j => getLsbD_low 32 j (by decide)
  simp only [BitVec.getLsbD_append,BitVec.getLsbD_setWidth,BitVec.getLsbD_and,BitVec.getLsbD_ushiftRight,low,high]
  grind

/-- The fields of an entry are where the processor looks for them. -/
theorem readGate_bits (e : IdtEntry) : readGate e.bits =
    ⟨e.offsetHigh ++ e.offsetMid ++ e.offsetLow,e.selector,e.ist.extractLsb' 0 3,e.typeAttributes.extractLsb' 0 4,
      e.typeAttributes.extractLsb' 5 2,e.typeAttributes.getLsbD 7⟩ := by
  unfold readGate IdtEntry.bits
  rw [Gate.mk.injEq]
  refine ⟨?_,?_,?_,?_,?_,?top⟩
  case top =>
    simp only [BitVec.getLsbD_append]
    rfl
  all_goals
    simp (disch := omega) only [BitVec.extractLsb'_append_eq_of_add_le,BitVec.extractLsb'_append_eq_of_le,
      Nat.reduceSub,BitVec.extractLsb'_eq_self]

theorem idtSetGate_same (isr : U64) (flags : BitVec 8) (idt : Idt) :
    readGate (idtSetGate cs vector isr flags idt vector).bits =
      ⟨isr,cs,0#3,flags.extractLsb' 0 4,flags.extractLsb' 5 2,flags.getLsbD 7⟩ := by
  rw [idtSetGate,Function.update_self,readGate_bits,Gate.mk.injEq]
  exact ⟨offset_parts isr,rfl,rfl,rfl,rfl,rfl⟩

theorem setGates_apart (apart : vector < first ∨ first + count ≤ vector) (idt : Idt) :
    setGates cs first stub count idt vector = idt vector := by
  induction count with
  | zero => rfl
  | succ count ih =>
    unfold setGates at ih ⊢
    rw [List.range_succ,List.foldl_append]
    refine (Function.update_of_ne ?_ _ _).trans (ih (by omega))
    omega

theorem setGates_inside (low : first ≤ vector) (high : vector < first + count) (idt idt' : Idt) :
    setGates cs first stub count idt vector = idtSetGate cs vector (stub (vector - first)) 0x8E#8 idt' vector := by
  induction count with
  | zero => omega
  | succ count ih =>
    by_cases here : vector = first + count
    · subst vector
      unfold setGates
      rw [List.range_succ,List.foldl_append,Nat.add_sub_cancel_left]
      unfold idtSetGate
      rw [List.foldl_cons,List.foldl_nil,Function.update_self,Function.update_self]
    · rw [← ih (by omega)]
      unfold setGates
      rw [List.range_succ,List.foldl_append]
      exact Function.update_of_ne here _ _

def tssLimit : BitVec 32 := 103#32

def tssDescLow (base : U64) : U64 :=
  (tssLimit &&& 0xFFFF#32).setWidth 64 ||| (base &&& 0xFFFFFF#64) <<< 16 ||| 0x89#64 <<< 40 |||
    ((tssLimit >>> 16) &&& 0xF#32).setWidth 64 <<< 48 ||| ((base >>> 24) &&& 0xFF#64) <<< 56

def tssDescHigh (base : U64) : U64 := (base >>> 32) &&& 0xFFFFFFFF#64

def TableBoot.gdtEntries (boot : TableBoot) : List U64 :=
  [0#64,0x00AF9A000000FFFF#64,0x00AF92000000FFFF#64,0x00AFFB000000FFFF#64,0x00AFF3000000FFFF#64,
    0x00AFFB000000FFFF#64,tssDescLow boot.tss,tssDescHigh boot.tss]

/-- The TSS as `gdt_install` leaves it. -/
def TableBoot.writeTss (boot : TableBoot) (m : Mem) : Mem :=
  let m := fill m boot.tss.toNat 0#8 104
  let m := store64 m (boot.tss.toNat + 4) (boot.kernelIrqStack + 8192#64)
  store64 m (boot.tss.toNat + 36) (boot.doubleFaultIstStack + 8192#64)

structure Segment where
  base : BitVec 32
  limit : BitVec 20
  type : BitVec 4
  user : Bool
  dpl : BitVec 2
  present : Bool
  long : Bool
  deriving DecidableEq

/-- A descriptor of eight bytes; `user` is its S bit. -/
def readSegment (w : U64) : Segment where
  base := w.extractLsb' 56 8 ++ w.extractLsb' 16 24
  limit := w.extractLsb' 48 4 ++ w.extractLsb' 0 16
  type := w.extractLsb' 40 4
  user := w.getLsbD 44
  dpl := w.extractLsb' 45 2
  present := w.getLsbD 47
  long := w.getLsbD 53

def TableBoot.segment (boot : TableBoot) (selector : BitVec 16) : Option Segment :=
  boot.gdtEntries[(selector >>> 3).toNat]?.map readSegment

def readTssBase (low high : U64) : U64 := high.extractLsb' 0 32 ++ (readSegment low).base

/-- A segment of 64-bit code, or of data that can be written. -/
def Segment.Runs (s : Segment) (dpl : BitVec 2) : Prop :=
  s.present ∧ s.user ∧ s.type.getLsbD 3 ∧ s.long ∧ s.dpl = dpl

def Segment.Stores (s : Segment) (dpl : BitVec 2) : Prop :=
  s.present ∧ s.user ∧ ¬s.type.getLsbD 3 ∧ s.type.getLsbD 1 ∧ s.dpl = dpl

instance (s : Segment) (dpl : BitVec 2) : Decidable (s.Runs dpl) := inferInstanceAs (Decidable (_ ∧ _))
instance (s : Segment) (dpl : BitVec 2) : Decidable (s.Stores dpl) := inferInstanceAs (Decidable (_ ∧ _))

/-- What `syscall_init` writes to `IA32_STAR`. -/
def star : U64 := 0x08#64 <<< 32 ||| 0x1B#64 <<< 48

/-- `syscall` and `sysret` take these selectors from `IA32_STAR`. -/
def syscallCs : BitVec 16 := (star.extractLsb' 32 16) &&& 0xFFFC#16
def syscallSs : BitVec 16 := star.extractLsb' 32 16 + 8#16
def sysretCs : BitVec 16 := (star.extractLsb' 48 16 + 16#16) ||| 3#16
def sysretSs : BitVec 16 := (star.extractLsb' 48 16 + 8#16) ||| 3#16

theorem tssDescLow_eq (base : U64) : tssDescLow base =
    0x0000890000000067#64 ||| (base &&& 0xFFFFFF#64) <<< 16 ||| ((base >>> 24) &&& 0xFF#64) <<< 56 := by
  unfold tssDescLow
  rw [show (tssLimit &&& 0xFFFF#32).setWidth 64 = 103#64 by decide,
    show ((tssLimit >>> 16) &&& 0xF#32).setWidth 64 <<< 48 = 0#64 by decide,BitVec.or_zero,
    BitVec.or_assoc 103#64,BitVec.or_comm _ (0x89#64 <<< 40),← BitVec.or_assoc 103#64,
    show 103#64 ||| 0x89#64 <<< 40 = 0x0000890000000067#64 by decide]

/-- The parts of the base stay clear of the bits in between. -/
theorem tssDescLow_bit (base : U64) (i : Nat) (inside : i < 64) : (tssDescLow base).getLsbD i =
    if 16 ≤ i ∧ i < 40 then base.getLsbD (i - 16) else if 56 ≤ i then base.getLsbD (i - 32)
      else (0x0000890000000067#64).getLsbD i := by
  have constant : ∀ j < 64, (16 ≤ j ∧ j < 40) ∨ 56 ≤ j → (0x0000890000000067#64).getLsbD j = false := by decide
  have low : ∀ j, (0xFFFFFF#64).getLsbD j = decide (j < 24) := fun j => getLsbD_low 24 j (by decide)
  have high : ∀ j, (0xFF#64).getLsbD j = decide (j < 8) := fun j => getLsbD_low 8 j (by decide)
  rw [tssDescLow_eq]
  simp only [BitVec.getLsbD_or,BitVec.getLsbD_shiftLeft,BitVec.getLsbD_and,BitVec.getLsbD_ushiftRight,low,high]
  split
  · rw [constant i inside (.inl ‹_›)]
    grind
  · split
    · rw [constant i inside (.inr ‹_›)]
      grind
    · grind

/-- Every address of a TSS comes out of its descriptor. -/
theorem tss_base (base : U64) : readTssBase (tssDescLow base) (tssDescHigh base) = base := by
  apply BitVec.eq_of_getLsbD_eq
  intro i inside
  have mask : ∀ j, (0xFFFFFFFF#64).getLsbD j = decide (j < 32) := fun j => getLsbD_low 32 j (by decide)
  unfold readTssBase readSegment tssDescHigh
  simp only [BitVec.getLsbD_append,BitVec.getLsbD_extractLsb',BitVec.getLsbD_and,BitVec.getLsbD_ushiftRight,mask]
  by_cases upper : i < 32
  · by_cases middle : i < 24
    · simp only [upper,middle,if_true]
      rw [tssDescLow_bit base _ (by omega)]
      grind
    · simp only [upper,middle,if_true,if_false]
      rw [tssDescLow_bit base _ (by omega)]
      grind
  · grind

/-- Nothing of the base gets into the other fields. -/
theorem tss_rest (base : U64) : (readSegment (tssDescLow base)).limit = 103#20 ∧
    (readSegment (tssDescLow base)).type = 9#4 ∧ (readSegment (tssDescLow base)).user = false ∧
    (readSegment (tssDescLow base)).dpl = 0#2 ∧ (readSegment (tssDescLow base)).present = true := by
  have fixed : ∀ i < 64, ¬(16 ≤ i ∧ i < 40) → ¬56 ≤ i →
      (tssDescLow base).getLsbD i = (0x0000890000000067#64).getLsbD i := by
    intro i inside low high
    rw [tssDescLow_bit base i inside,if_neg low,if_neg high]
  have field : ∀ start len, start + len ≤ 56 → 40 ≤ start ∨ start + len ≤ 16 →
      (tssDescLow base).extractLsb' start len = (0x0000890000000067#64).extractLsb' start len := by
    intro start len short apart
    apply BitVec.eq_of_getLsbD_eq
    intro i inside
    rw [BitVec.getLsbD_extractLsb',BitVec.getLsbD_extractLsb',fixed _ (by omega) (by omega) (by omega)]
  unfold readSegment
  dsimp only
  rw [field 48 4 (by decide) (by decide),field 0 16 (by decide) (by decide),field 40 4 (by decide) (by decide),
    field 45 2 (by decide) (by decide),fixed 44 (by decide) (by decide) (by decide),
    fixed 47 (by decide) (by decide) (by decide)]
  decide

structure GatesOk (boot : TableBoot) : Prop where
  exceptions : ∀ v < 32, readGate (boot.idt v).bits =
    ⟨boot.isrStub v,8#16,if v = 8 then 1#3 else 0#3,0xE#4,0#2,true⟩
  interrupts : ∀ v, 32 ≤ v → v < 48 → readGate (boot.idt v).bits = ⟨boot.irqStub (v - 32),8#16,0#3,0xE#4,0#2,true⟩
  others : ∀ v, 48 ≤ v → (readGate (boot.idt v).bits).present = false

/-- The segments that gates, `syscall` and `sysret` load, and the TSS. -/
structure SegmentsOk (boot : TableBoot) : Prop where
  gate : ∃ s, boot.segment 8#16 = some s ∧ s.Runs 0#2
  syscall : (∃ s, boot.segment syscallCs = some s ∧ s.Runs 0#2) ∧ ∃ s, boot.segment syscallSs = some s ∧ s.Stores 0#2
  sysret : (∃ s, boot.segment sysretCs = some s ∧ s.Runs 3#2) ∧ ∃ s, boot.segment sysretSs = some s ∧ s.Stores 3#2
  rings : syscallCs &&& 3#16 = 0#16 ∧ sysretCs &&& 3#16 = 3#16 ∧ sysretSs &&& 3#16 = 3#16
  selectors : sysretCs = 0x2B#16 ∧ sysretSs = 0x23#16
  task : boot.gdtEntries[6]? = some (tssDescLow boot.tss) ∧ boot.gdtEntries[7]? = some (tssDescHigh boot.tss) ∧
    readTssBase (tssDescLow boot.tss) (tssDescHigh boot.tss) = boot.tss ∧
    (readSegment (tssDescLow boot.tss)).limit.toNat + 1 = 104 ∧ (readSegment (tssDescLow boot.tss)).present = true ∧
    (readSegment (tssDescLow boot.tss)).type = 9#4
  ends : ∀ m, load64 (boot.writeTss m) (boot.tss.toNat + 4) = boot.kernelIrqStack + 8192#64 ∧
    load64 (boot.writeTss m) (boot.tss.toNat + 36) = boot.doubleFaultIstStack + 8192#64

theorem gates_ok (boot : TableBoot) : GatesOk boot := by
  have first : ∀ v, 48 ≤ v ∨ v < 32 → boot.idt v = idtInit boot 8#16 (fun _ => .empty) v :=
    fun v apart => setGates_apart (by omega) _
  refine ⟨fun v inside => ?_,fun v low high => ?_,fun v above => ?_⟩
  · have gate : readGate (idtSetGate 8#16 v (boot.isrStub v) 0x8E#8 (fun _ => .empty) v).bits = _ :=
      idtSetGate_same _ _ _
    have inside' : setGates 8#16 0 boot.isrStub 32 (fun _ => .empty) v =
        idtSetGate 8#16 v (boot.isrStub v) 0x8E#8 (fun _ => .empty) v := setGates_inside (Nat.zero_le v) (by omega) _ _
    rw [← inside'] at gate
    rw [first v (.inr inside)]
    unfold idtInit
    dsimp only
    by_cases double : v = 8
    · subst v
      rw [Function.update_self,readGate_bits]
      rw [readGate_bits,Gate.mk.injEq] at gate
      obtain ⟨offset,selector,_,type,dpl,present⟩ := gate
      rw [Gate.mk.injEq]
      exact ⟨offset,selector,rfl,type,dpl,present⟩
    · rw [Function.update_of_ne double,if_neg double]
      exact gate
  · unfold TableBoot.idt irqInstall
    rw [setGates_inside low (by omega) _ fun _ => .empty]
    exact idtSetGate_same _ _ _
  · rw [first v (.inl above)]
    unfold idtInit
    dsimp only
    rw [Function.update_of_ne (by omega),setGates_apart (by omega)]
    decide

theorem segments_ok (boot : TableBoot) : SegmentsOk boot := by
  obtain ⟨limit,type,_,_,present⟩ := tss_rest boot.tss
  refine ⟨⟨_,rfl,by decide⟩,⟨⟨_,rfl,by decide⟩,⟨_,rfl,by decide⟩⟩,⟨⟨_,rfl,by decide⟩,⟨_,rfl,by decide⟩⟩,by decide,by decide,
    ⟨rfl,rfl,tss_base _,by rw [limit]; rfl,present,type⟩,fun m => ⟨?_,load64_store64_same⟩⟩
  unfold TableBoot.writeTss
  dsimp only
  rw [load64_store64_apart (by omega)]
  exact load64_store64_same

/-- Every vector finds its stub and every selector its segment, wherever the kernel is linked. -/
theorem descriptor_tables (boot : TableBoot) : GatesOk boot ∧ SegmentsOk boot := ⟨gates_ok boot,segments_ok boot⟩

end Reddyos
