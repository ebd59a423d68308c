import Mathlib.Data.List.Induction
import Reddyos.ByteMemory
import Reddyos.RecordRow

/-! The walk of `acpi/madt.c` over the interrupt controllers that the firmware lists. The table is what lies in
memory from `madt` on, by offset; the walk logs every byte it reads. -/
namespace Reddyos

open ByteMemory RecordRow

/-- Offset of `entries` in `struct acpi_madt`. -/
def madtEntries : Nat := 44

def acpiMadtEntryTypeIoapic : BitVec 8 := 1#8

/-- `madt->hdr.length`. -/
def madtLength (m : Mem) : Nat := (load32 m 4).toNat

def entryType (m : Mem) (p : Nat) : BitVec 8 := m p

def entryLength (m : Mem) (p : Nat) : Nat := (m (p + 1)).toNat

def entryAddress (m : Mem) (p : Nat) : BitVec 32 := load32 m (p + 4)

structure MadtWalk where
  ioapicAddress : BitVec 32
  reads : List Nat
  deriving DecidableEq, Repr

def entryReads (m : Mem) (p : Nat) : List Nat :=
  if entryType m p = acpiMadtEntryTypeIoapic then [p,p + 4,p + 5,p + 6,p + 7,p + 1] else [p,p + 1]

def visitMadtEntry (m : Mem) (p : Nat) (s : MadtWalk) : MadtWalk where
  ioapicAddress := if entryType m p = acpiMadtEntryTypeIoapic then entryAddress m p else s.ioapicAddress
  reads := s.reads ++ entryReads m p

/-- False when the fuel ran out. -/
def readMadt (m : Mem) (fuel : Nat) (ioapicAddress : BitVec 32) : Bool × MadtWalk :=
  walk (entryLength m) (madtLength m) (visitMadtEntry m) fuel madtEntries ⟨ioapicAddress,[4,5,6,7]⟩

def lastIoapic (m : Mem) (entries : List Nat) (otherwise : BitVec 32) : BitVec 32 :=
  match (entries.filter fun p => entryType m p = acpiMadtEntryTypeIoapic).getLast? with
  | none => otherwise
  | some p => entryAddress m p

/-- The walk ends and stays inside the table; entries that tile the table decide about the address. -/
structure MadtRead (m : Mem) (ioapicAddress : BitVec 32) : Prop where
  ends : ∃ fuel, (readMadt m fuel ioapicAddress).1 = true
  inside : ∀ fuel, ∀ b ∈ (readMadt m fuel ioapicAddress).2.reads, b < madtLength m
  last : ∀ entries, Tiles (entryLength m) (madtLength m) madtEntries entries → ∀ fuel,
    (readMadt m fuel ioapicAddress).1 = true →
      (readMadt m fuel ioapicAddress).2.ioapicAddress = lastIoapic m entries ioapicAddress

/-- Type and length lie in the table, and so does the address of an I/O APIC. -/
def EntryFits (m : Mem) (p : Nat) : Prop :=
  p + 2 ≤ madtLength m ∧ (entryType m p = acpiMadtEntryTypeIoapic → p + 8 ≤ madtLength m)

/-- What lies behind the header is a row of entries, none of them of length 0. -/
def EntriesFit (m : Mem) : Prop :=
  ∃ entries, Row (entryLength m) (madtLength m) madtEntries entries ∧ ∀ p ∈ entries, EntryFits m p

variable {m : Mem} {p stop : Nat} {entries : List Nat} {s : MadtWalk}

theorem entryReads_inside : (∀ b ∈ entryReads m p, b < madtLength m) ↔ EntryFits m p := by
  unfold entryReads EntryFits
  split
  · rename_i ioapic
    simp only [List.forall_mem_cons,ioapic,true_implies]
    simp
    omega
  · rename_i other
    simp only [List.forall_mem_cons,other,false_implies,and_true]
    simp
    omega

theorem visited_reads (m : Mem) (entries : List Nat) (s : MadtWalk) :
    (entries.foldl (fun s p => visitMadtEntry m p s) s).reads = s.reads ++ entries.flatMap (entryReads m) := by
  induction entries generalizing s with
  | nil => simp
  | cons p entries ih =>
    rw [List.foldl_cons,ih,List.flatMap_cons,← List.append_assoc]
    rfl

theorem visited_address (m : Mem) (entries : List Nat) (s : MadtWalk) :
    (entries.foldl (fun s p => visitMadtEntry m p s) s).ioapicAddress = lastIoapic m entries s.ioapicAddress := by
  induction entries using List.reverseRecOn with
  | nil => rfl
  | append_singleton entries p ih =>
    rw [List.foldl_append,List.foldl_cons,List.foldl_nil,visitMadtEntry]
    dsimp only
    by_cases ioapic : entryType m p = acpiMadtEntryTypeIoapic
    · simp [lastIoapic,ioapic]
    · simp [lastIoapic,ioapic,ih]

/-- The walk over a table goes well exactly when its entries get on and are wholly there as far as they are
read. -/
theorem read_madt_iff (m : Mem) (ioapicAddress : BitVec 32) :
    MadtRead m ioapicAddress ↔ 8 ≤ madtLength m ∧ EntriesFit m := by
  constructor
  · rintro ⟨⟨fuel,ends⟩,inside,_⟩
    obtain ⟨entries,row⟩ := row_of_walk ends
    have all := inside (entries.length + 1)
    rw [readMadt,row.walk_all (Nat.lt_succ_self _)] at all
    rw [visited_reads] at all
    refine ⟨all 7 (by simp),entries,row,fun p member => entryReads_inside.mp fun b read => all b ?_⟩
    exact List.mem_append_right _ (List.mem_flatMap.mpr ⟨p,member,read⟩)
  · rintro ⟨header,entries,row,fit⟩
    refine ⟨⟨_,congrArg Prod.fst (row.walk_all (Nat.lt_succ_self _))⟩,fun fuel b read => ?_,fun tiles tiled fuel ends => ?_⟩
    · rw [readMadt,row.walk,visited_reads] at read
      rcases List.mem_append.mp read with length | later
      · simp only [List.mem_cons,List.not_mem_nil,or_false] at length
        omega
      · obtain ⟨p,member,read⟩ := List.mem_flatMap.mp later
        exact entryReads_inside.mpr (fit p (List.mem_of_mem_take member)) b read
    · obtain rfl := row.unique tiled.1
      unfold readMadt at ends ⊢
      have enough : entries.length < fuel := by
        rw [row.walk] at ends
        exact of_decide_eq_true ends
      rw [row.walk_all enough]
      exact visited_address m entries _

def stuckMadt : Mem := fun i => if i = 4 then 46#8 else 0#8

/-- The walk does not get past the entry. -/
theorem read_madt_stuck : ¬MadtRead stuckMadt 0#32 := by
  rintro ⟨⟨fuel,ends⟩,_⟩
  obtain ⟨entries,row⟩ := row_of_walk ends
  cases row with
  | done behind => exact absurd behind (by decide)
  | record _ moves => exact absurd moves (by decide)

end Reddyos
