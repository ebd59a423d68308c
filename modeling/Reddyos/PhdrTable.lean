import Reddyos.ElfImage

/-! The address of the program headers that `elf_read_info` puts in `info->phdr`: the search looks at one
segment after the other, and what it takes for the segment of the table need not hold the table. -/
namespace Reddyos

open ByteMemory

variable {vnode : Vnode} {header : ElfHeader} {info : ElfInfo} {indices : List Nat} {ph first : ElfPhdr}
variable {segments : List ElfPhdr} {address pml4 : U64} {boot : Boot} {k after : Kernel} {s : Pmm}

def ElfHeader.tableBytes (header : ElfHeader) : Nat := header.phnum.toNat * header.phentsize.toNat

/-- The part of the segment that is in the file has the whole table; no sum wraps. -/
def HoldsTable (header : ElfHeader) (ph : ElfPhdr) : Prop :=
  ph.offset.toNat ≤ header.phoff.toNat ∧
    header.phoff.toNat + header.tableBytes ≤ ph.offset.toNat + ph.filesz.toNat

instance (header : ElfHeader) (ph : ElfPhdr) : Decidable (HoldsTable header ph) := inferInstanceAs (Decidable (_ ∧ _))

def tableAddress (header : ElfHeader) (ph : ElfPhdr) : U64 := ph.vaddr + (header.phoff - ph.offset)

/-- The advertised address is the place of the table in a segment that holds it; it is there when such a place
is not 0. -/
structure PhdrReal (vnode : Vnode) (header : ElfHeader) (info : ElfInfo) : Prop where
  real : info.phdr ≠ 0#64 → ∃ ph ∈ elfSegments vnode, HoldsTable header ph ∧ info.phdr = tableAddress header ph
  found : ∀ ph ∈ elfSegments vnode, HoldsTable header ph → tableAddress header ph ≠ 0#64 → info.phdr ≠ 0#64

/-- The tests of the search: 64-bit sums, the first byte of the table only, and any segment at offset 0. -/
def searchAccepts (header : ElfHeader) (ph : ElfPhdr) : Bool :=
  (ph.offset ≤ header.phoff ∧ header.phoff < ph.offset + ph.filesz) ∨ ph.offset = 0#64

def ElfPhdr.displacement (ph : ElfPhdr) : U64 := ph.vaddr - ph.offset

/-- The segment has the first byte of the table and ends below 2^64, or begins with the file. -/
def Candidate (header : ElfHeader) (ph : ElfPhdr) : Prop :=
  (ph.offset.toNat ≤ header.phoff.toNat ∧ header.phoff.toNat < ph.offset.toNat + ph.filesz.toNat ∧
    ph.offset.toNat + ph.filesz.toNat < 2^64) ∨ ph.offset = 0#64

def Leading (header : ElfHeader) (segments : List ElfPhdr) (ph : ElfPhdr) : Prop :=
  ∃ before after, segments = before ++ ph :: after ∧ Candidate header ph ∧
    ∀ earlier ∈ before, ¬Candidate header earlier

/-- The segments on which the search goes right. -/
structure TableFound (header : ElfHeader) (segments : List ElfPhdr) : Prop where
  /-- A leading candidate that has not the whole table lies as far from its place in the file as one that has it. -/
  cut : ∀ ph, Leading header segments ph → ¬HoldsTable header ph → tableAddress header ph ≠ 0#64 →
    ∃ whole ∈ segments, HoldsTable header whole ∧ whole.displacement = ph.displacement
  /-- A table in a segment that ends at 2^64 or above has a candidate beside it. -/
  wraps : ∀ ph ∈ segments, HoldsTable header ph → tableAddress header ph ≠ 0#64 →
    2^64 ≤ ph.offset.toNat + ph.filesz.toNat → ∃ candidate ∈ segments, Candidate header candidate
  /-- A leading candidate at address 0 keeps no other address back. -/
  null : ∀ ph, Leading header segments ph → tableAddress header ph = 0#64 →
    ∀ whole ∈ segments, HoldsTable header whole → tableAddress header whole = 0#64

theorem tableAddress_eq (header : ElfHeader) (ph : ElfPhdr) : tableAddress header ph = ph.displacement + header.phoff := by
  unfold tableAddress ElfPhdr.displacement
  bv_omega

theorem tableAddress_inj : tableAddress header ph = tableAddress header first ↔ ph.displacement = first.displacement := by
  rw [tableAddress_eq,tableAddress_eq]
  exact BitVec.add_left_inj _

/-- The loop takes the first segment it accepts; both its branches compute the same address. -/
theorem findPhdr_spec (returns : findPhdr vnode header indices = some address) :
    address = (((indices.filterMap (readPhdr vnode header)).filter fun ph => ph.type = ptLoad).find?
      (searchAccepts header)).elim 0#64 (tableAddress header) := by
  induction indices with
  | nil => exact (Option.some.inj returns).symm
  | cons i indices ih =>
    unfold findPhdr at returns
    split at returns
    · cases returns
    rename_i ph read
    rw [List.filterMap_cons_some read]
    split at returns
    · rename_i other
      rw [List.filter_cons_of_neg (by simpa using other)]
      exact ih returns
    rename_i load
    rw [List.filter_cons_of_pos (by simpa using load)]
    split at returns
    · rename_i inside
      rw [List.find?_cons_of_pos (by simp [searchAccepts,inside])]
      exact (Option.some.inj returns).symm
    rename_i outside
    split at returns
    · rename_i zero
      rw [List.find?_cons_of_pos (by simp [searchAccepts,zero]),Option.elim_some,tableAddress,zero,BitVec.sub_zero]
      exact (Option.some.inj returns).symm
    · rename_i later
      rw [List.find?_cons_of_neg (by simp only [searchAccepts,outside,later,or_self]; decide)]
      exact ih returns

theorem elfReadInfo_phdr (valid : readElfHeader vnode = some header) (reads : elfReadInfo vnode = some info) :
    info.phdr = ((elfSegments vnode).find? (searchAccepts header)).elim 0#64 (tableAddress header) := by
  unfold elfReadInfo at reads
  rw [valid] at reads
  obtain ⟨header',same,reads⟩ := Option.bind_eq_some_iff.mp reads
  obtain rfl := Option.some.inj same
  obtain ⟨address,search,result⟩ := Option.bind_eq_some_iff.mp reads
  obtain rfl := Option.some.inj result
  unfold elfSegments elfPhdrs
  rw [valid]
  exact findPhdr_spec search

theorem searchAccepts_iff : searchAccepts header ph = true ↔ Candidate header ph := by
  unfold searchAccepts Candidate
  rw [decide_eq_true_iff,BitVec.le_def,BitVec.lt_def,BitVec.toNat_add]
  refine or_congr_left ⟨fun ⟨low,high⟩ => ?_,fun ⟨low,high,below⟩ => ⟨low,by rwa [Nat.mod_eq_of_lt below]⟩⟩
  -- a sum that wraps is below the offset
  have := ph.offset.isLt
  have := ph.filesz.isLt
  omega

theorem find_candidate : segments.find? (searchAccepts header) = some first ↔ Leading header segments first := by
  rw [List.find?_eq_some_iff_append,searchAccepts_iff]
  constructor
  · rintro ⟨accepted,before,after,split,none⟩
    exact ⟨before,after,split,accepted,fun ph member candidate => by
      simpa [searchAccepts_iff.mpr candidate] using none ph member⟩
  · rintro ⟨before,after,split,accepted,none⟩
    exact ⟨accepted,before,after,split,fun ph member => by
      simpa using mt searchAccepts_iff.mp (none ph member)⟩

theorem find_nothing : segments.find? (searchAccepts header) = none ↔ ∀ ph ∈ segments, ¬Candidate header ph := by
  rw [List.find?_eq_none]
  exact forall₂_congr fun ph _ => not_congr searchAccepts_iff

theorem readElfHeader_phentsize (valid : readElfHeader vnode = some header) : header.phentsize = 56#16 := by
  unfold readElfHeader at valid
  dsimp only at valid
  split at valid
  · cases valid
  split at valid
  · cases valid
  split at valid
  · cases valid
  split at valid
  · cases valid
  · rename_i size
    obtain rfl := Option.some.inj valid
    exact not_not.mp size

/-- A file with a segment has a table of at least one entry. -/
theorem tableBytes_pos (valid : readElfHeader vnode = some header) (member : ph ∈ elfSegments vnode) :
    0 < header.tableBytes := by
  unfold elfSegments elfPhdrs at member
  rw [valid] at member
  obtain ⟨i,inside,_⟩ := List.mem_filterMap.mp (List.mem_filter.mp member).1
  unfold ElfHeader.tableBytes
  rw [readElfHeader_phentsize valid]
  have := List.mem_range.mp inside
  exact Nat.mul_pos (by omega) (by decide)

/-- A segment with the table is a candidate unless its end wraps. -/
theorem HoldsTable.candidate (holds : HoldsTable header ph) (valid : readElfHeader vnode = some header)
    (member : ph ∈ elfSegments vnode) (below : ph.offset.toNat + ph.filesz.toNat < 2^64) : Candidate header ph := by
  have := tableBytes_pos valid member
  obtain ⟨low,high⟩ := holds
  exact .inl ⟨low,by omega,below⟩

theorem tableFound_iff (valid : readElfHeader vnode = some header) (reads : elfReadInfo vnode = some info) :
    PhdrReal vnode header info ↔ TableFound header (elfSegments vnode) := by
  have result := elfReadInfo_phdr valid reads
  cases accepted : (elfSegments vnode).find? (searchAccepts header) with
  | none =>
    have nobody := find_nothing.mp accepted
    rw [accepted,Option.elim_none] at result
    have nowhere : ∀ ph, ¬Leading header (elfSegments vnode) ph := fun ph leading =>
      Option.some_ne_none ph ((find_candidate.mpr leading).symm.trans accepted)
    constructor
    · rintro ⟨_,found⟩
      exact ⟨fun ph leading => absurd leading (nowhere ph),fun ph member holds live => absurd result (found ph member holds live),
        fun ph leading => absurd leading (nowhere ph)⟩
    · rintro ⟨_,wraps,_⟩
      refine ⟨fun live => absurd result live,fun ph member holds live => ?_⟩
      by_cases below : ph.offset.toNat + ph.filesz.toNat < 2^64
      · exact absurd (holds.candidate valid member below) (nobody ph member)
      · obtain ⟨candidate,listed,is⟩ := wraps ph member holds live (Nat.le_of_not_lt below)
        exact absurd is (nobody candidate listed)
  | some first =>
    have leading := find_candidate.mp accepted
    rw [accepted,Option.elim_some] at result
    have only : ∀ ph, Leading header (elfSegments vnode) ph → ph = first := fun ph other =>
      Option.some.inj ((find_candidate.mpr other).symm.trans accepted)
    have listed : first ∈ elfSegments vnode := List.mem_of_find?_eq_some accepted
    constructor
    · rintro ⟨real,found⟩
      refine ⟨fun ph other cut live => ?_,fun ph _ _ _ _ => ⟨first,listed,leading.choose_spec.choose_spec.2.1⟩,
        fun ph other zero whole member holds => ?_⟩
      · obtain rfl := only ph other
        obtain ⟨whole,member,holds,address⟩ := real (result ▸ live)
        exact ⟨whole,member,holds,tableAddress_inj.mp (address.symm.trans result)⟩
      · obtain rfl := only ph other
        by_contra live
        exact found whole member holds live (result.trans zero)
    · rintro ⟨cut,_,null⟩
      refine ⟨fun live => ?_,fun ph member holds live zero => live (null first leading (result.symm.trans zero) ph member holds)⟩
      by_cases holds : HoldsTable header first
      · exact ⟨first,listed,holds,result⟩
      · obtain ⟨whole,member,holds,same⟩ := cut first leading holds (result ▸ live)
        exact ⟨whole,member,holds,result.trans (tableAddress_inj.mpr same).symm⟩

/-- The bytes from `v` on are the program headers of the file. -/
def TableAt (vnode : Vnode) (header : ElfHeader) (pml4 : U64) (s : Pmm) (v : U64) : Prop :=
  ∀ j < header.tableBytes, userByte s pml4 (v + BitVec.ofNat 64 j) = some (vnode.data (header.phoff.toNat + j))

theorem loadSegment_sizes (loads : loadSegment boot pml4 vnode ph k = .ok (true,after)) (load : ph.type = ptLoad) :
    ph.filesz ≤ ph.memsz := by
  unfold loadSegment at loads
  rw [if_neg (not_not.mpr load)] at loads
  by_contra more
  rw [BitVec.not_le] at more
  change (if ph.memsz < ph.filesz then _ else _) = _ at loads
  rw [if_pos more] at loads
  exact absurd (ok_pair loads).1 (by decide)

theorem loadSegments_sizes (loads : loadSegments boot pml4 vnode header indices k = .ok (true,after)) :
    ∀ ph ∈ indices.filterMap (readPhdr vnode header), ph.type = ptLoad → ph.filesz ≤ ph.memsz := by
  induction indices generalizing k with
  | nil => exact fun ph member => absurd member List.not_mem_nil
  | cons i indices ih =>
    unfold loadSegments at loads
    split at loads
    · exact absurd (ok_pair loads).1 (by decide)
    rename_i ph read
    rw [List.filterMap_cons_some read]
    obtain ⟨⟨loaded,k₁⟩,one,loads⟩ := ok_of_bind loads
    cases loaded with
    | false => exact absurd (ok_pair loads).1 (by decide)
    | true =>
      refine List.forall_mem_cons.mpr ⟨loadSegment_sizes one,ih loads⟩

/-- A file with a segment that takes more from the file than it has in memory is not loaded. -/
theorem elfLoad_sizes (loads : elfLoadIntoAddressSpace boot pml4 vnode info k = .ok (true,after)) :
    ∀ ph ∈ elfSegments vnode, ph.filesz ≤ ph.memsz := by
  unfold elfLoadIntoAddressSpace at loads
  unfold elfSegments elfPhdrs
  intro ph member
  obtain ⟨member,load⟩ := List.mem_filter.mp member
  cases valid : readElfHeader vnode with
  | none =>
    rw [valid] at member
    exact absurd member List.not_mem_nil
  | some header =>
    rw [valid] at loads member
    dsimp only at loads
    split at loads
    · exact absurd (ok_pair loads).1 (by decide)
    · exact loadSegments_sizes loads ph member (by simpa using load)

/-- A segment that holds the table takes it to its address. -/
theorem HoldsTable.placed (holds : HoldsTable header ph) (image : ImageCorrect vnode pml4 s)
    (member : ph ∈ elfSegments vnode) (sizes : ph.filesz ≤ ph.memsz) :
    TableAt vnode header pml4 s (tableAddress header ph) := by
  obtain ⟨low,high⟩ := holds
  intro j inside
  rw [BitVec.le_def] at sizes
  have inFile : header.phoff.toNat - ph.offset.toNat + j < ph.filesz.toNat := by omega
  have place : tableAddress header ph + BitVec.ofNat 64 j =
      ph.vaddr + BitVec.ofNat 64 (header.phoff.toNat - ph.offset.toNat + j) := by
    have distance : header.phoff - ph.offset = BitVec.ofNat 64 (header.phoff.toNat - ph.offset.toNat) := by bv_omega
    rw [tableAddress,distance,BitVec.add_assoc,← BitVec.ofNat_add]
  rw [place,image ph member _ (Nat.lt_of_lt_of_le inFile sizes),segmentByte,if_pos inFile]
  congr 2
  omega

/-- The address is real exactly when the leading candidate lies as a segment with the whole table, and no table is
kept back by an end that wraps or by a candidate at address 0; then a right image has the table there. -/
theorem phdr_real_iff (valid : readElfHeader vnode = some header) (reads : elfReadInfo vnode = some info) :
    (PhdrReal vnode header info ↔ TableFound header (elfSegments vnode)) ∧
    (TableFound header (elfSegments vnode) → info.phdr ≠ 0#64 → ∀ boot pml4 k after,
      elfLoadIntoAddressSpace boot pml4 vnode info k = .ok (true,after) → ImageCorrect vnode pml4 after.pmm →
      TableAt vnode header pml4 after.pmm info.phdr) := by
  have right := tableFound_iff valid reads
  refine ⟨right,fun search live boot pml4 k after loads image => ?_⟩
  obtain ⟨ph,member,holds,address⟩ := (right.mpr search).real live
  rw [address]
  exact holds.placed image member (elfLoad_sizes loads ph member)

def oneHeader : ElfHeader :=
  ⟨[0x7F#8,0x45#8,0x4C#8,0x46#8],2#8,1#8,1#8,62#16,1#32,0x400000#64,64#64,56#16,1#16⟩

def cutFile : Vnode := elfFile [⟨1#32,5#32,0x40#64,0x400040#64,8#64,8#64⟩]

theorem phdr_not_loaded : elfReadInfo cutFile = some ⟨0x400000#64,0#64,0x400040#64,1#16,56#16⟩ ∧
    readElfHeader cutFile = some oneHeader ∧ ¬PhdrReal cutFile oneHeader ⟨0x400000#64,0#64,0x400040#64,1#16,56#16⟩ := by
  have segments : elfSegments cutFile = [⟨1#32,5#32,0x40#64,0x400040#64,8#64,8#64⟩] := by decide +kernel
  refine ⟨by decide +kernel,by decide +kernel,fun right => ?_⟩
  obtain ⟨ph,member,holds,_⟩ := right.real (by decide)
  rw [segments] at member
  obtain rfl := List.mem_singleton.mp member
  exact absurd holds (by decide)

def headFile : Vnode := elfFile [⟨1#32,5#32,0#64,0x400000#64,0x1000#64,0x1000#64⟩]

theorem phdr_real_iff_head : elfReadInfo headFile = some ⟨0x400000#64,0#64,0x400040#64,1#16,56#16⟩ ∧
    PhdrReal headFile oneHeader ⟨0x400000#64,0#64,0x400040#64,1#16,56#16⟩ := by
  have segments : elfSegments headFile = [⟨1#32,5#32,0#64,0x400000#64,0x1000#64,0x1000#64⟩] := by decide +kernel
  have reads : elfReadInfo headFile = some ⟨0x400000#64,0#64,0x400040#64,1#16,56#16⟩ := by decide +kernel
  have valid : readElfHeader headFile = some oneHeader := by decide +kernel
  refine ⟨reads,(phdr_real_iff valid reads).1.mpr ?_⟩
  have only : ∀ ph, Leading oneHeader (elfSegments headFile) ph →
      ph = ⟨1#32,5#32,0#64,0x400000#64,0x1000#64,0x1000#64⟩ := by
    rintro ph ⟨before,after,split,_⟩
    have member : ph ∈ elfSegments headFile := split ▸ List.mem_append_right _ List.mem_cons_self
    rw [segments] at member
    exact List.mem_singleton.mp member
  refine ⟨fun ph leading cut => ?_,fun ph member _ _ wraps => ?_,fun ph leading zero => ?_⟩
  · obtain rfl := only ph leading
    exact absurd (by decide) cut
  · rw [segments] at member
    obtain rfl := List.mem_singleton.mp member
    exact absurd wraps (by decide)
  · obtain rfl := only ph leading
    exact absurd zero (by decide)

end Reddyos
