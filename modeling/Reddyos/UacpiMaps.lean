import Reddyos.AddressSpaces
import Reddyos.KernelHalf
import Reddyos.PageTree
import Reddyos.Transitions

/-! Mappings that uACPI asks for: `uacpi_kernel_map` and `uacpi_kernel_unmap` of
`acpi/uacpi_kernel.c` over the kernel's page tables. -/
namespace Reddyos

open RadixForest Transitions

def pageMmio : U64 := pagePresent ||| pageWritable ||| pageNocache

/-- `vmm_virt_to_phys_as(&kernel_address_space, v)` in an unsigned variable. -/
def kernelPhys (boot : Boot) (s : Pmm) (v : U64) : U64 := BitVec.ofInt 64 (vmmVirtToPhysAs s.mem boot.kernelPml4 v)

def uacpiKernelMap (boot : Boot) (addr len : U64) (s : Pmm) : Except Stop (U64 × Pmm) := do
  let pageAddr := alignDown addr
  let offset := addr - pageAddr
  let physAddr := kernelPhys boot s (boot.virt pageAddr)
  if physAddr = 0#64 ∨ physAddr ≠ pageAddr then
    if 4096#64 < len then throw (.panic "idk how to map more than one page, fix me later.")
    let s ← vmmMap boot boot.kernelPml4 pageAddr pageAddr pageMmio s
    return (pageAddr + offset,s)
  else return (boot.virt pageAddr + offset,s)

/-- The length is not looked at. -/
def uacpiKernelUnmap (boot : Boot) (addr : U64) (s : Pmm) : Pmm :=
  if addr = boot.virt (kernelPhys boot s addr) then s else vmmUnmap boot.kernelPml4 addr s

structure AcpiMapping where
  ptr : U64
  addr : U64
  len : U64
  deriving DecidableEq

structure AcpiMaps where
  pmm : Pmm
  outstanding : List AcpiMapping

inductive AcpiCall where
  | map (addr len : U64)
  | unmap (m : AcpiMapping)

def AcpiStart (boot : Boot) (procs : List U64) (g : AcpiMaps) : Prop :=
  (∃ free, Spaces boot g.pmm free procs) ∧ KernelHalf boot procs g.pmm ∧ g.outstanding = []

/-- A call that returns; only what was mapped is unmapped. -/
def AcpiStep (boot : Boot) (g : AcpiMaps) : AcpiCall → AcpiMaps → Prop
  | .map addr len, next => ∃ ptr s, uacpiKernelMap boot addr len g.pmm = .ok (ptr,s) ∧
      next = ⟨s,⟨ptr,addr,len⟩ :: g.outstanding⟩
  | .unmap m, next => m ∈ g.outstanding ∧ next = ⟨uacpiKernelUnmap boot m.ptr g.pmm,g.outstanding.erase m⟩

def TranslatesTo (boot : Boot) (s : Pmm) (v p : U64) : Prop :=
  Canonical v ∧ mmuTranslate s.mem boot.kernelPml4 v = some p

def MapsBytes (boot : Boot) (s : Pmm) (m : AcpiMapping) : Prop :=
  ∀ i < m.len, TranslatesTo boot s (m.ptr + i) (m.addr + i)

def MappingsValid (boot : Boot) (g : AcpiMaps) : Prop := ∀ m ∈ g.outstanding, MapsBytes boot g.pmm m

def NotDirect (boot : Boot) (s : Pmm) (page : U64) : Prop :=
  kernelPhys boot s (boot.virt page) = 0#64 ∨ kernelPhys boot s (boot.virt page) ≠ page

instance (boot : Boot) (s : Pmm) (page : U64) : Decidable (NotDirect boot s page) := inferInstanceAs (Decidable (_ ∨ _))

/-- All bytes of a range found in the direct map are there. An identity mapping has a canonical
address and no large page in its way, and what it does not cover itself is already mapped so. -/
def MapFits (boot : Boot) (s : Pmm) (addr len : U64) : Prop :=
  if NotDirect boot s (alignDown addr) then
    lowerHalf addr ∧ SmallOn s.mem boot.kernelPml4 (alignDown addr) ∧ ∀ i < len, SamePage addr (addr + i) ∨
      lowerHalf (addr + i) ∧ mmuTranslate s.mem boot.kernelPml4 (addr + i) = some (addr + i)
  else ∀ i < len, upperHalf (boot.virt addr + i) ∧ mmuTranslate s.mem boot.kernelPml4 (boot.virt addr + i) = some (addr + i)

/-- A pointer into the direct map is recognised; a page that is unmapped has no byte of another
mapping. -/
def UnmapFits (boot : Boot) (g : AcpiMaps) (m : AcpiMapping) : Prop :=
  (m.ptr = boot.virt m.addr → m.ptr = boot.virt (kernelPhys boot g.pmm m.ptr)) ∧
  (m.ptr ≠ boot.virt (kernelPhys boot g.pmm m.ptr) →
    ∀ other ∈ g.outstanding.erase m, ∀ i < other.len, ¬SamePage m.ptr (other.ptr + i))

def AcpiFits (boot : Boot) (g : AcpiMaps) : AcpiCall → Prop
  | .map addr len => MapFits boot g.pmm addr len
  | .unmap m => UnmapFits boot g m

def DirectMapping (boot : Boot) (m : AcpiMapping) : Prop :=
  m.ptr = boot.virt m.addr ∧ ∀ i < m.len, upperHalf (m.ptr + i)

def IdentityMapping (boot : Boot) (s : Pmm) (m : AcpiMapping) : Prop :=
  m.ptr = m.addr ∧ lowerHalf m.ptr ∧ (∀ i < m.len, lowerHalf (m.ptr + i)) ∧
    ∃ pt, walk (child s.mem) boot.kernelPml4 (pathOf m.ptr) = some pt

structure AcpiInv (boot : Boot) (procs : List U64) (g : AcpiMaps) : Prop where
  spaces : ∃ free, Spaces boot g.pmm free procs
  half : KernelHalf boot procs g.pmm
  valid : MappingsValid boot g
  kind : ∀ m ∈ g.outstanding, DirectMapping boot m ∨ IdentityMapping boot g.pmm m

variable {boot : Boot} {procs free rest : List U64} {s next : Pmm} {g after : AcpiMaps} {m : AcpiMapping}
variable {addr len ptr page v p : U64}

theorem offset_back (addr page : U64) : page + (addr - page) = addr := by
  rw [BitVec.add_comm]
  exact BitVec.sub_add_cancel addr page

theorem virt_offset (boot : Boot) (addr page : U64) : boot.virt page + (addr - page) = boot.virt addr := by
  unfold Boot.virt
  rw [BitVec.add_assoc,BitVec.add_comm boot.hhdm,← BitVec.add_assoc,offset_back]

theorem uacpiKernelMap_cases (returns : uacpiKernelMap boot addr len s = .ok (ptr,next)) :
    (¬NotDirect boot s (alignDown addr) ∧ ptr = boot.virt addr ∧ next = s) ∨
      NotDirect boot s (alignDown addr) ∧ ptr = addr ∧ len ≤ 4096#64 ∧
        vmmMap boot boot.kernelPml4 (alignDown addr) (alignDown addr) pageMmio s = .ok next := by
  unfold uacpiKernelMap at returns
  dsimp only at returns
  rw [offset_back,virt_offset] at returns
  by_cases direct : NotDirect boot s (alignDown addr)
  · unfold NotDirect at direct
    rw [if_pos direct] at returns
    by_cases long : 4096#64 < len
    · rw [if_pos long] at returns
      cases returns
    · rw [if_neg long] at returns
      obtain ⟨mapped,maps,returns⟩ := ok_of_bind returns
      obtain ⟨rfl,rfl⟩ := ok_pair returns
      exact .inr ⟨direct,rfl,BitVec.not_lt.mp long,maps⟩
  · have found := direct
    unfold NotDirect at direct
    rw [if_neg direct] at returns
    obtain ⟨rfl,rfl⟩ := ok_pair returns
    exact .inl ⟨found,rfl,rfl⟩

theorem alignDown_page (addr : U64) : SamePage (alignDown addr) addr := by
  unfold SamePage
  rw [toNat_alignDown]
  omega

theorem lowerHalf_page (page : SamePage v p) (lower : lowerHalf v) : lowerHalf p := by
  unfold SamePage at page
  unfold lowerHalf at lower ⊢
  omega

theorem alignDown_frame (lower : lowerHalf addr) : FrameOk (alignDown addr) := by
  unfold lowerHalf at lower
  unfold FrameOk Aligned
  rw [toNat_alignDown]
  omega

/-- An identity mapping translates every address on its page to itself. -/
theorem identity_translates (cpu : CpuOk boot) (frame : FrameOk page) (lower : lowerHalf page)
    (reach : ¬boot.cpuPageMask < page) (small : SmallOn next.mem boot.kernelPml4 v) (same : SamePage page v)
    (new : leafAt next.mem boot.kernelPml4 (pathOf page) (ptIndex page) = some (leafEntry boot page pageMmio)) :
    mmuTranslate next.mem boot.kernelPml4 v = some v := by
  obtain ⟨path,slot⟩ := (same_page_canonical (.inl lower) (.inl (lowerHalf_page same lower))).mpr same
  rw [mmuTranslate_leafAt small,path,slot,new,Option.map_some]
  congr 1
  apply BitVec.eq_of_toNat_eq
  rw [toNat_physical,leafEntry_frame cpu reach frame (by decide)]
  unfold SamePage at same
  obtain ⟨aligned,_⟩ := frame
  unfold Aligned at aligned
  omega

theorem kernel_adm (v : U64) : Adm boot procs boot.kernelPml4 (pathOf v) := adm_pathOf v (.inl rfl)

/-- Setting the entry of `page` leaves every other page as it is. -/
theorem Updated.translates (half : KernelHalf boot procs s)
    (update : Updated boot procs s free boot.kernelPml4 (pathOf page) (ptIndex page) w next rest)
    (canonical : Canonical page) (found : TranslatesTo boot s v p) (apart : ¬SamePage page v) : TranslatesTo boot next v p := by
  refine ⟨found.1,?_⟩
  rw [update.toEvolves.translate_kernel half]
  · exact found.2
  · rintro ⟨_,path,slot⟩
    exact apart ((same_page_canonical canonical found.1).mp ⟨path,slot⟩)

theorem Updated.identityMapping
    (update : Updated boot procs s free boot.kernelPml4 (pathOf page) (ptIndex page) w next rest)
    (mapping : IdentityMapping boot s m) : IdentityMapping boot next m := by
  obtain ⟨same,lower,bytes,pt,found⟩ := mapping
  exact ⟨same,lower,bytes,pt,update.mono (kernel_adm m.ptr) found⟩

/-- Nothing mapped by uACPI moves when a page is mapped to itself. -/
theorem AcpiInv.mapped (ok : BootOk boot) (cpu : CpuOk boot) (inv : AcpiInv boot procs g)
    (lower : lowerHalf addr) (small : SmallOn g.pmm.mem boot.kernelPml4 (alignDown addr))
    (covers : ∀ i < len, SamePage addr (addr + i) ∨
      lowerHalf (addr + i) ∧ mmuTranslate g.pmm.mem boot.kernelPml4 (addr + i) = some (addr + i))
    (maps : vmmMap boot boot.kernelPml4 (alignDown addr) (alignDown addr) pageMmio g.pmm = .ok next) :
    AcpiInv boot procs ⟨next,⟨addr,addr,len⟩ :: g.outstanding⟩ := by
  obtain ⟨free,spaces⟩ := inv.spaces
  have selected : Adm boot procs boot.kernelPml4 (pathOf (alignDown addr)) := kernel_adm _
  obtain ⟨rest,update⟩ := vmmMap_spec ok spaces selected small maps
  have here := alignDown_page addr
  have lowPage : lowerHalf (alignDown addr) := lowerHalf_page here.symm lower
  have onPage : ∀ v, SamePage (alignDown addr) v → TranslatesTo boot next v v := by
    intro v same
    have path := ((same_page_canonical (.inl lowPage) (.inl (lowerHalf_page same lowPage))).mpr same).1
    refine ⟨.inl (lowerHalf_page same lowPage),?_⟩
    refine identity_translates cpu (alignDown_frame lower) lowPage (vmmMap_reach maps) ?_ same ?_
    · have grown := update.smallOn selected small
      unfold SmallOn at grown ⊢
      rwa [path]
    · rw [update.new,if_pos (leafEntry_present _ _ _)]
  have elsewhere : ∀ v p, TranslatesTo boot g.pmm v p → ¬SamePage (alignDown addr) v → TranslatesTo boot next v p :=
    fun v p found apart => update.translates inv.half (.inl lowPage) found apart
  have toSelf : ∀ v, TranslatesTo boot g.pmm v v → TranslatesTo boot next v v := by
    intro v found
    by_cases same : SamePage (alignDown addr) v
    · exact onPage v same
    · exact elsewhere v v found same
  refine ⟨⟨rest,update.spaces⟩,inv.half.evolves update.toEvolves,?_,?_⟩
  · refine List.forall_mem_cons.mpr ⟨fun i inside => ?_,fun m listed i inside => ?_⟩
    · rcases covers i inside with same | ⟨low,found⟩
      · exact onPage _ (here.trans same)
      · exact toSelf _ ⟨.inl low,found⟩
    · have found := inv.valid m listed i inside
      rcases inv.kind m listed with ⟨_,upper⟩ | ⟨same,_⟩
      · refine elsewhere _ _ found fun same => ?_
        have low := lowerHalf_page same lowPage
        have high := upper i inside
        unfold lowerHalf at low
        unfold upperHalf at high
        omega
      · rw [same] at found ⊢
        exact toSelf _ found
  · refine List.forall_mem_cons.mpr ⟨.inr ⟨rfl,lower,fun i inside => ?_,?_⟩,fun m listed => ?_⟩
    · rcases covers i inside with same | ⟨low,_⟩
      · exact lowerHalf_page same lower
      · exact low
    · have path := ((same_page_canonical (.inl lowPage) (.inl lower)).mpr here).1
      have leaf : leafAt next.mem boot.kernelPml4 (pathOf (alignDown addr)) (ptIndex (alignDown addr)) = some _ :=
        update.new.trans (if_pos (leafEntry_present _ _ _))
      obtain ⟨pt,found,_⟩ := Option.bind_eq_some_iff.mp leaf
      exact ⟨pt,by rw [path]; exact found⟩
    · exact (inv.kind m listed).imp_right update.identityMapping

/-- Unmapping a page leaves the mappings with no byte on it. -/
theorem AcpiInv.unmapped (ok : BootOk boot) (inv : AcpiInv boot procs g) (listed : m ∈ g.outstanding)
    (fits : UnmapFits boot g m) :
    AcpiInv boot procs ⟨uacpiKernelUnmap boot m.ptr g.pmm,g.outstanding.erase m⟩ := by
  obtain ⟨recognised,alone⟩ := fits
  unfold uacpiKernelUnmap
  by_cases direct : m.ptr = boot.virt (kernelPhys boot g.pmm m.ptr)
  · rw [if_pos direct]
    exact ⟨inv.spaces,inv.half,fun other left => inv.valid other (List.mem_of_mem_erase left),
      fun other left => inv.kind other (List.mem_of_mem_erase left)⟩
  · rw [if_neg direct]
    obtain ⟨free,spaces⟩ := inv.spaces
    obtain ⟨_,lower,_,pt,found⟩ := (inv.kind m listed).resolve_left fun here => direct (recognised here.1)
    have update := vmmUnmap_spec ok spaces (kernel_adm m.ptr) found
    refine ⟨⟨free,update.spaces⟩,inv.half.evolves update.toEvolves,?_,?_⟩
    · intro other left i inside
      have translated := inv.valid other (List.mem_of_mem_erase left) i inside
      exact update.translates inv.half (.inl lower) translated (alone direct other left i inside)
    · exact fun other left => (inv.kind other (List.mem_of_mem_erase left)).imp_right update.identityMapping

theorem AcpiInv.step (ok : BootOk boot) (cpu : CpuOk boot) (inv : AcpiInv boot procs g) (fits : AcpiFits boot g call)
    (moves : AcpiStep boot g call after) : AcpiInv boot procs after := by
  cases call with
  | map addr len =>
    obtain ⟨ptr,s,returns,rfl⟩ := moves
    have fits : MapFits boot g.pmm addr len := fits
    unfold MapFits at fits
    rcases uacpiKernelMap_cases returns with ⟨direct,rfl,rfl⟩ | ⟨missing,rfl,_,maps⟩
    · rw [if_neg direct] at fits
      refine ⟨inv.spaces,inv.half,?_,?_⟩
      · refine List.forall_mem_cons.mpr ⟨fun i inside => ?_,inv.valid⟩
        obtain ⟨upper,found⟩ := fits i inside
        exact ⟨.inr upper,found⟩
      · refine List.forall_mem_cons.mpr ⟨.inl ⟨rfl,fun i inside => (fits i inside).1⟩,inv.kind⟩
    · rw [if_pos missing] at fits
      obtain ⟨lower,small,covers⟩ := fits
      exact inv.mapped ok cpu lower small covers maps
  | unmap m =>
    obtain ⟨listed,rfl⟩ := moves
    exact inv.unmapped ok listed fits

/-- As long as every call fits, all bytes of all mappings that are not yet unmapped are where they
should be. -/
theorem uacpi_mappings_valid (ok : BootOk boot) (cpu : CpuOk boot)
    (run : Run (AcpiStart boot procs) (AcpiStep boot) (AcpiFits boot) calls g) : MappingsValid boot g := by
  have inv : AcpiInv boot procs g := by
    refine run.invariant (fun _ g => AcpiInv boot procs g) ?_ fun _ _ _ _ inv fits moves => inv.step ok cpu fits moves
    rintro g ⟨spaces,half,none⟩
    refine ⟨spaces,half,?_,?_⟩ <;> simp [MappingsValid,none]
  exact inv.valid

theorem covers_page (fits : addr.toNat % 4096 + len.toNat ≤ 4096) : ∀ i < len, SamePage addr (addr + i) := by
  intro i inside
  have less := BitVec.lt_def.mp inside
  have := addr.isLt
  unfold SamePage
  rw [BitVec.toNat_add]
  omega

/-- A direct map of 4 KiB pages is recognised. -/
theorem recognised_small (small : SmallOn s.mem boot.kernelPml4 m.ptr) (direct : m.ptr = boot.virt m.addr)
    (bytes : MapsBytes boot s m) (some : 0#64 < m.len) : m.ptr = boot.virt (kernelPhys boot s m.ptr) := by
  have first := (bytes 0#64 some).2
  rw [BitVec.add_zero,BitVec.add_zero,mmuTranslate_leafAt small] at first
  obtain ⟨e,leaf,same⟩ := Option.map_eq_some_iff.mp first
  unfold kernelPhys
  rw [vmmVirtToPhysAs_leaf leaf,same,BitVec.ofInt_natCast,BitVec.ofNat_toNat,BitVec.setWidth_eq]
  exact direct

theorem fbStart_maps : AcpiStart fbBoot [] ⟨fbStart.pmm,[]⟩ := by
  obtain ⟨free,spaces,_⟩ := fbStart_ok
  exact ⟨⟨free,spaces⟩,fbStart_half,rfl⟩

/-- A range of eight bytes that starts four bytes in front of a page: the second half is not mapped. -/
theorem uacpi_map_straddles : ∃ calls g, Run (AcpiStart fbBoot []) (AcpiStep fbBoot) Transitions.free calls g ∧ ¬MappingsValid fbBoot g := by
  have evaluated : (uacpiKernelMap fbBoot 0x200FFC#64 8#64 fbStart.pmm).toOption.map
      (fun r => (r.1,mmuTranslate r.2.mem fbBoot.kernelPml4 0x201000#64)) = some (0x200FFC#64,none) := by decide +kernel
  cases returns : uacpiKernelMap fbBoot 0x200FFC#64 8#64 fbStart.pmm with
  | error stop =>
    rw [returns] at evaluated
    cases evaluated
  | ok result =>
    obtain ⟨ptr,s⟩ := result
    rw [returns] at evaluated
    simp only [Except.toOption,Option.map_some,Option.some.injEq,Prod.mk.injEq] at evaluated
    obtain ⟨rfl,missing⟩ := evaluated
    have moves : AcpiStep fbBoot ⟨fbStart.pmm,[]⟩ (.map 0x200FFC#64 8#64) ⟨s,[⟨0x200FFC#64,0x200FFC#64,8#64⟩]⟩ :=
      ⟨_,s,returns,rfl⟩
    have start : Run (AcpiStart fbBoot []) (AcpiStep fbBoot) Transitions.free [] ⟨fbStart.pmm,[]⟩ := .start fbStart_maps
    refine ⟨_,_,start.step trivial moves,fun valid => ?_⟩
    have byte := (valid _ List.mem_cons_self 4#64 (by decide)).2
    rw [show (0x200FFC#64 + 4#64 : U64) = 0x201000#64 from rfl] at byte
    rw [show mmuTranslate s.mem fbBoot.kernelPml4 0x201000#64 = none from missing] at byte
    cases byte

/-- Eight bytes in the middle of a page, and of another that is unmapped again. -/
theorem uacpi_mappings_valid_page : ∃ calls g, Run (AcpiStart fbBoot []) (AcpiStep fbBoot) (AcpiFits fbBoot) calls g ∧
    calls = [.map 0x200010#64 8#64,.map 0x400010#64 8#64,.unmap ⟨0x400010#64,0x400010#64,8#64⟩] ∧
    g.outstanding = [⟨0x200010#64,0x200010#64,8#64⟩] ∧ MappingsValid fbBoot g := by
  have evaluated : (uacpiKernelMap fbBoot 0x200010#64 8#64 fbStart.pmm).toOption.map
      (fun r => (r.1,decide (NotDirect fbBoot r.2 0x400000#64),inLargePage r.2.mem fbBoot.kernelPml4 0x400000#64,
        (uacpiKernelMap fbBoot 0x400010#64 8#64 r.2).toOption.map Prod.fst)) =
      some (0x200010#64,true,false,some 0x400010#64) := by decide +kernel
  cases returns : uacpiKernelMap fbBoot 0x200010#64 8#64 fbStart.pmm with
  | error stop =>
    rw [returns] at evaluated
    cases evaluated
  | ok result =>
    obtain ⟨ptr,s⟩ := result
    rw [returns] at evaluated
    simp only [Except.toOption,Option.map_some,Option.some.injEq,Prod.mk.injEq] at evaluated
    obtain ⟨rfl,missing',small,second⟩ := evaluated
    obtain ⟨t,returns'⟩ := returns_of_fst second
    have fits : AcpiFits fbBoot ⟨fbStart.pmm,[]⟩ (.map 0x200010#64 8#64) := by
      have missing : NotDirect fbBoot fbStart.pmm (alignDown 0x200010#64) := by decide +kernel
      obtain ⟨free,tree⟩ := emptyTree fbBoot_ok (by simp [FrameOk,Aligned,fbBoot]) (by rw [fbBoot_frames]; simp [fbBoot])
      unfold AcpiFits MapFits
      dsimp only
      rw [if_pos missing]
      exact ⟨by decide,tree.smallOn _,fun i inside => .inl (covers_page (by decide) i inside)⟩
    have fits' : AcpiFits fbBoot ⟨s,[⟨0x200010#64,0x200010#64,8#64⟩]⟩ (.map 0x400010#64 8#64) := by
      have missing : NotDirect fbBoot s (alignDown 0x400010#64) := of_decide_eq_true missing'
      unfold AcpiFits MapFits
      dsimp only
      rw [if_pos missing]
      exact ⟨by decide,smallOn_of_not_inLargePage small,fun i inside => .inl (covers_page (by decide) i inside)⟩
    have apart : AcpiFits fbBoot ⟨t,[⟨0x400010#64,0x400010#64,8#64⟩,⟨0x200010#64,0x200010#64,8#64⟩]⟩
        (.unmap ⟨0x400010#64,0x400010#64,8#64⟩) := by
      refine ⟨fun direct => absurd direct (by decide),fun _ other listed i inside page => ?_⟩
      obtain rfl : other = ⟨0x200010#64,0x200010#64,8#64⟩ := List.mem_singleton.mp listed
      have here : SamePage 0x200010#64 (0x200010#64 + i) := covers_page (by decide) i inside
      exact absurd (here.trans page.symm) (by decide)
    have moves : AcpiStep fbBoot ⟨fbStart.pmm,[]⟩ (.map 0x200010#64 8#64) ⟨s,[⟨0x200010#64,0x200010#64,8#64⟩]⟩ :=
      ⟨_,s,returns,rfl⟩
    have moves' : AcpiStep fbBoot ⟨s,[⟨0x200010#64,0x200010#64,8#64⟩]⟩ (.map 0x400010#64 8#64)
        ⟨t,[⟨0x400010#64,0x400010#64,8#64⟩,⟨0x200010#64,0x200010#64,8#64⟩]⟩ := ⟨_,t,returns',rfl⟩
    have unmaps : AcpiStep fbBoot ⟨t,[⟨0x400010#64,0x400010#64,8#64⟩,⟨0x200010#64,0x200010#64,8#64⟩]⟩
        (.unmap ⟨0x400010#64,0x400010#64,8#64⟩)
        ⟨uacpiKernelUnmap fbBoot 0x400010#64 t,[⟨0x200010#64,0x200010#64,8#64⟩]⟩ := ⟨List.mem_cons_self,rfl⟩
    have run : Run (AcpiStart fbBoot []) (AcpiStep fbBoot) (AcpiFits fbBoot) _ _ :=
      .step (.step (.step (.start fbStart_maps) fits moves) fits' moves') apart unmaps
    exact ⟨_,_,run,rfl,rfl,uacpi_mappings_valid fbBoot_ok fbBoot_cpu run⟩

end Reddyos
