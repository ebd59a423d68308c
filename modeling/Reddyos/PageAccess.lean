import Reddyos.AddressSpaces

/-! What the processor lets user code do with a page: the rights collected on the way to its
frame are those of the last `vmm_map` of the page, whatever mapping created the tables. -/
namespace Reddyos

open ByteMemory RadixForest

structure Access where
  user : Bool
  writable : Bool
  nx : Bool
  deriving DecidableEq, Repr

def entryAccess (e : U64) : Access := ⟨e &&& pageUser != 0#64,e &&& pageWritable != 0#64,e &&& pageNx != 0#64⟩

/-- `USER` and `WRITABLE` need both entries, `NX` needs one. -/
def Access.meet (a b : Access) : Access := ⟨a.user && b.user,a.writable && b.writable,a.nx || b.nx⟩

/-- The rights of a 4 KiB page: all four entries have a say. -/
def mmuAccess (m : Mem) (pml4 virt : U64) : Access :=
  let pml4e := entry m pml4 (pml4Index virt)
  let pdpte := entry m (pml4e &&& pageMask) (pdptIndex virt)
  let pde := entry m (pdpte &&& pageMask) (pdIndex virt)
  let pte := entry m (pde &&& pageMask) (ptIndex virt)
  (((entryAccess pml4e).meet (entryAccess pdpte)).meet (entryAccess pde)).meet (entryAccess pte)

def Open (e : U64) : Prop := entryAccess e = ⟨true,true,false⟩

def accessBits : U64 := pageUser ||| pageWritable ||| pageNx

/-- `phys` sets no right that `flags` does not set: `vmm_map` keeps its low bits. -/
def AddsNothing (phys flags : U64) : Prop := phys &&& accessBits &&& ~~~flags = 0#64

def lastMap (pml4 : U64) : List SpaceEvent → Nat → Option (U64 × U64)
  | [], _ => none
  | .map target virt phys flags :: earlier, page =>
    if pml4 = target ∧ page = virt.toNat / 4096 then some (phys,flags) else lastMap pml4 earlier page
  | .unmap _ _ :: earlier, page => lastMap pml4 earlier page
  | .alloc :: earlier, page => lastMap pml4 earlier page
  | .write :: earlier, page => lastMap pml4 earlier page
  | .create :: earlier, page => lastMap pml4 earlier page

/-- A `vmm_map` in a lower half is for user code. -/
def SpaceEvent.forUser : SpaceEvent → Prop
  | .map _ virt _ flags => lowerHalf virt → flags &&& pageUser ≠ 0#64
  | .unmap _ _ => True
  | .alloc => True
  | .write => True
  | .create => True

theorem flag_iff (bit : flag = BitVec.twoPow 64 i) (inside : i < 64) (e : U64) :
    (e &&& flag != 0#64) = e.getLsbD i := by
  rw [bit,BitVec.and_twoPow]
  cases e.getLsbD i with
  | false => simp
  | true =>
    rw [if_pos rfl,bne_iff_ne]
    intro zero
    have same := congrArg (·.getLsbD i) zero
    simp [inside] at same

theorem user_bit (e : U64) : (e &&& pageUser != 0#64) = e.getLsbD 2 := flag_iff (by decide) (by decide) e
theorem writable_bit (e : U64) : (e &&& pageWritable != 0#64) = e.getLsbD 1 := flag_iff (by decide) (by decide) e
theorem nx_bit (e : U64) : (e &&& pageNx != 0#64) = e.getLsbD 63 := flag_iff (by decide) (by decide) e

theorem entryAccess_bits (e : U64) : entryAccess e = ⟨e.getLsbD 2,e.getLsbD 1,e.getLsbD 63⟩ := by
  rw [entryAccess,user_bit,writable_bit,nx_bit]

theorem Access.meet_open (a : Access) : Access.meet ⟨true,true,false⟩ a = a := by
  simp [Access.meet]

theorem frame_bit_high (frame : FrameOk f) : f.getLsbD 63 = false := by
  rw [← frame.masked,BitVec.getLsbD_and,show pageMask.getLsbD 63 = false by decide,Bool.and_false]

/-- A table linked for user code is open to it, and to the kernel. -/
theorem Linked.opens (linked : Linked flags e) (user : flags &&& pageUser ≠ 0#64) : Open e := by
  obtain ⟨page,given,frame,same,rfl⟩ := linked
  have bit : given.getLsbD 2 = true := by
    rw [← user_bit,same]
    exact bne_iff_ne.mpr user
  have high : page[63] = false := frame_bit_high frame
  rw [Open,entryAccess_bits,tableEntry]
  simp [bit,high,pagePresent,pageWritable,pageUser,pageWthru,pageNocache]

theorem accessBits_getLsbD (i : Nat) : accessBits.getLsbD i = true ↔ i = 1 ∨ i = 2 ∨ i = 63 := by
  by_cases inside : i < 64
  · have table : ∀ j < 64, accessBits.getLsbD j = true ↔ j = 1 ∨ j = 2 ∨ j = 63 := by decide
    exact table i inside
  · rw [BitVec.getLsbD_of_ge _ _ (Nat.not_lt.mp inside)]
    simp only [Bool.false_eq_true,false_iff]
    omega

theorem addsNothing_bits : AddsNothing phys flags ↔ ∀ i, i = 1 ∨ i = 2 ∨ i = 63 →
    phys.getLsbD i = true → flags.getLsbD i = true := by
  constructor
  · intro plain i access set
    have clear := congrArg (·.getLsbD i) plain
    have inside : i < 64 := BitVec.lt_of_getLsbD set
    rw [BitVec.getLsbD_and,BitVec.getLsbD_and,BitVec.getLsbD_not,set,(accessBits_getLsbD i).mpr access,
      BitVec.getLsbD_zero] at clear
    simpa [inside] using clear
  · intro within
    refine BitVec.eq_of_getLsbD_eq fun i inside => ?_
    rw [BitVec.getLsbD_and,BitVec.getLsbD_and,BitVec.getLsbD_not,BitVec.getLsbD_zero]
    cases set : phys.getLsbD i with
    | false => simp
    | true =>
      cases access : accessBits.getLsbD i with
      | false => simp
      | true => simp [within i ((accessBits_getLsbD i).mp access) set]

/-- `vmm_map` takes the rights of an entry from both arguments. -/
theorem entryAccess_leafEntry (boot : Boot) (phys flags : U64) :
    entryAccess (leafEntry boot phys flags) = entryAccess ((phys &&& boot.cpuPageMask) ||| flags) := by
  have bit : ∀ i, 0 < i → (leafEntry boot phys flags).getLsbD i =
      ((phys &&& boot.cpuPageMask) ||| flags).getLsbD i := by
    intro i positive
    have low : pagePresent.getLsbD i = false := by
      simp [pagePresent]
      omega
    rw [leafEntry,BitVec.getLsbD_or,BitVec.getLsbD_or,BitVec.getLsbD_or,low,Bool.or_false]
  rw [entryAccess_bits,entryAccess_bits,bit 2 (by decide),bit 1 (by decide),bit 63 (by decide)]

theorem entryAccess_or_iff (phys flags : U64) :
    entryAccess (phys ||| flags) = entryAccess flags ↔ AddsNothing phys flags := by
  have bit : ∀ i, (phys ||| flags).getLsbD i = flags.getLsbD i ↔ (phys.getLsbD i = true → flags.getLsbD i = true) := by
    intro i
    rw [BitVec.getLsbD_or]
    cases phys.getLsbD i <;> cases flags.getLsbD i <;> decide
  rw [entryAccess_bits,entryAccess_bits,Access.mk.injEq,bit,bit,bit,addsNothing_bits]
  constructor
  · rintro ⟨user,writable,nx⟩ i (rfl | rfl | rfl)
    · exact writable
    · exact user
    · exact nx
  · intro within
    exact ⟨within 2 (by decide),within 1 (by decide),within 63 (by decide)⟩

theorem AddsNothing.masked (plain : AddsNothing phys flags) (mask : U64) : AddsNothing (phys &&& mask) flags := by
  rw [addsNothing_bits] at plain ⊢
  intro i access set
  rw [BitVec.getLsbD_and,Bool.and_eq_true] at set
  exact plain i access set.1

theorem entryAccess_leaf (boot : Boot) (plain : AddsNothing phys flags) :
    entryAccess (leafEntry boot phys flags) = entryAccess flags := by
  rw [entryAccess_leafEntry]
  exact (entryAccess_or_iff _ _).mpr (plain.masked _)

def OpenTables (boot : Boot) (procs : List U64) (m : Mem) : Prop :=
  ∀ root path i f, root ∈ procs → Adm boot procs root (path ++ [i]) → walk (child m) root path = some f →
    Present (entry m f i) → Open (entry m f i)

variable {boot : Boot} {procs held free : List U64} {m : Mem} {s next : Pmm} {events : List SpaceEvent}
variable {spaces : List Space} {changed : Slots}

theorem OpenTables.links (opened : OpenTables boot procs s.mem) (links : InnerLinks boot procs root flags s.mem next.mem)
    (user : root ∈ procs → flags &&& pageUser ≠ 0#64) : OpenTables boot procs next.mem := by
  intro root' path i f member selected found present
  rcases links root' path i f selected found present with ⟨old,same⟩ | ⟨rfl,linked⟩
  · rw [same] at present ⊢
    exact opened root' path i f member selected old present
  · exact linked.opens (user member)

/-- A fresh address space has no tables in its lower half. -/
theorem OpenTables.create (opened : OpenTables boot procs s.mem) (created : Created boot s free procs pml4 next rest) :
    OpenTables boot (pml4 :: procs) next.mem := by
  intro root path i f member selected found present
  by_cases same : root = pml4
  · subst root
    have small := created.spaces.small member selected found present
    have linked : walk (child next.mem) pml4 (path ++ [i]) = some (entry next.mem f i &&& pageMask) := by
      rw [walk_concat,found]
      exact if_pos ⟨present,small⟩
    rw [created.empty selected (by simp)] at linked
    cases linked
  · have old : Adm boot procs root (path ++ [i]) := selected.older same
    rw [created.same.walk (adm_closed old)] at found
    rw [created.same root path f i (adm_closed old) found (adm_index old)] at present ⊢
    exact opened root path i f ((List.mem_cons.mp member).resolve_left same) old found present

/-- The entries on the way to a mapped page. -/
structure LeafWay (m : Mem) (root v e : U64) : Prop where
  top : Present (pml4Entry m root v)
  pdpt : walk (child m) root [pml4Index v] = some (pml4Entry m root v &&& pageMask)
  second : Present (pdptEntry m root v)
  pd : walk (child m) root [pml4Index v,pdptIndex v] = some (pdptEntry m root v &&& pageMask)
  third : Present (pdEntry m root v)
  pt : walk (child m) root (pathOf v) = some (pdEntry m root v &&& pageMask)
  leaf : ptEntry m root v = e

theorem leafWay (leaf : leafAt m root (pathOf v) (ptIndex v) = some e) : LeafWay m root v e := by
  obtain ⟨pt,found,last⟩ := Option.bind_eq_some_iff.mp leaf
  have whole := found
  unfold pathOf at found
  simp only [walk_cons,walk_nil] at found
  obtain ⟨pdpt,first,found⟩ := Option.bind_eq_some_iff.mp found
  obtain ⟨pd,second,found⟩ := Option.bind_eq_some_iff.mp found
  obtain ⟨pt',third,found⟩ := Option.bind_eq_some_iff.mp found
  obtain rfl := Option.some.inj found
  obtain ⟨present₁,rfl⟩ := child_some first
  obtain ⟨present₂,rfl⟩ := child_some second
  obtain ⟨present₃,rfl⟩ := child_some third
  refine ⟨present₁,?_,present₂,?_,present₃,whole,?_⟩
  · rw [walk_cons,first]
    rfl
  · rw [walk_cons,first,Option.bind_some,walk_cons,second]
    rfl
  · split at last
    · exact Option.some.inj last
    · cases last

theorem mmuAccess_entries (m : Mem) (root v : U64) : mmuAccess m root v =
    (((entryAccess (pml4Entry m root v)).meet (entryAccess (pdptEntry m root v))).meet
      (entryAccess (pdEntry m root v))).meet (entryAccess (ptEntry m root v)) := rfl

/-- The rights of a page are those of its last-level entry. -/
theorem OpenTables.access (opened : OpenTables boot procs m) (member : root ∈ procs)
    (selected : Adm boot procs root (pathOf v)) (leaf : leafAt m root (pathOf v) (ptIndex v) = some e) :
    mmuAccess m root v = entryAccess e := by
  have way := leafWay leaf
  have top : Open (pml4Entry m root v) :=
    opened root [] _ _ member (adm_stem selected ⟨_,rfl⟩) (walk_nil _ root) way.top
  have second : Open (pdptEntry m root v) :=
    opened root [pml4Index v] _ _ member (adm_stem selected ⟨_,rfl⟩) way.pdpt way.second
  have third : Open (pdEntry m root v) :=
    opened root [pml4Index v,pdptIndex v] _ _ member (adm_stem selected ⟨_,rfl⟩) way.pd way.third
  rw [mmuAccess_entries,top,second,third,way.leaf,Access.meet_open,Access.meet_open,Access.meet_open]

/-- The rights of a page depend on the entries on its way. -/
theorem LeafWay.access_same (way : LeafWay m root v e)
    (same : ∀ stem i f, stem ++ [i] <+: pathOf v → walk (child m) root stem = some f → Present (entry m f i) →
      entry m' f i = entry m f i)
    (last : entry m' (pdEntry m root v &&& pageMask) (ptIndex v) = e) : mmuAccess m' root v = mmuAccess m root v := by
  have top : pml4Entry m' root v = pml4Entry m root v := same [] _ _ ⟨_,rfl⟩ (walk_nil _ root) way.top
  have second : pdptEntry m' root v = pdptEntry m root v := by
    rw [pdptEntry,top]
    exact same [pml4Index v] _ _ ⟨_,rfl⟩ way.pdpt way.second
  have third : pdEntry m' root v = pdEntry m root v := by
    rw [pdEntry,second]
    exact same [pml4Index v,pdptIndex v] _ _ ⟨_,rfl⟩ way.pd way.third
  have fourth : ptEntry m' root v = e := by
    rw [ptEntry,third]
    exact last
  rw [mmuAccess_entries,mmuAccess_entries,top,second,third,fourth,way.leaf]

/-- A page that stays mapped as it was keeps its rights. -/
theorem Evolves.access (evolves : Evolves boot procs changed s free next rest) (selected : Adm boot procs root (pathOf v))
    (leaf : leafAt s.mem root (pathOf v) (ptIndex v) = some e)
    (kept : leafAt next.mem root (pathOf v) (ptIndex v) = some e) : mmuAccess next.mem root v = mmuAccess s.mem root v := by
  have way := leafWay leaf
  refine way.access_same (fun stem i f short found present => evolves.keeps (adm_stem selected short) found present) ?_
  rw [leafAt,evolves.mono selected way.pt,Option.bind_some] at kept
  split at kept
  · exact Option.some.inj kept
  · cases kept

theorem TablesSame.access {m' : Mem} (same : TablesSame boot procs m m') (selected : Adm boot procs root (pathOf v))
    (leaf : Reddyos.leafAt m root (pathOf v) (ptIndex v) = some e) : mmuAccess m' root v = mmuAccess m root v := by
  have way := leafWay leaf
  refine way.access_same (fun stem i f short found _ => ?_) ?_
  · have here := adm_stem selected short
    exact same root stem f i (adm_closed here) found (adm_index here)
  · rw [same root _ _ _ selected way.pt (index_lt v).2.2.2]
    exact way.leaf

theorem lastMap_of_ownEntry (own : ownEntry boot pml4 events page = some e) :
    ∃ phys flags, lastMap pml4 events page = some (phys,flags) ∧ e = leafEntry boot phys flags := by
  induction events with
  | nil => cases own
  | cons event earlier ih =>
    cases event with
    | map target virt phys flags =>
      rw [ownEntry] at own
      rw [lastMap]
      split at own
      · rename_i here
        exact ⟨phys,flags,if_pos here,(Option.some.inj own).symm⟩
      · rename_i other
        rw [if_neg other]
        exact ih own
    | unmap target virt =>
      rw [ownEntry] at own
      split at own
      · cases own
      · exact ih own
    | alloc => exact ih own
    | write => exact ih own
    | create => exact ih own

/-- One event keeps the tables of user space open. -/
theorem SpacesInv.opened (inv : SpacesInv boot m events s spaces held free)
    (opened : OpenTables boot (spaces.map Space.pml4) s.mem) (target : Target boot spaces pml4 virt)
    (links : InnerLinks boot (spaces.map Space.pml4) pml4 flags s.mem next.mem)
    (user : lowerHalf virt → flags &&& pageUser ≠ 0#64) : OpenTables boot (spaces.map Space.pml4) next.mem := by
  refine opened.links links fun member => ?_
  rcases target with ⟨kernel,_⟩ | ⟨_,lower⟩
  · exact absurd (kernel ▸ member) inv.forest.kernel
  · exact user lower

theorem SpacesRun.opened (ok : BootOk boot) (tables : BootTables boot m) (run : SpacesRun boot m events s spaces held)
    (small : ∀ event ∈ events, event.small boot m = true) (user : ∀ event ∈ events, event.forUser) :
    OpenTables boot (spaces.map Space.pml4) s.mem := by
  induction run with
  | init =>
    intro root path i f member
    cases member
  | alloc before returns ih =>
    obtain ⟨small,_⟩ := List.forall_mem_cons.mp small |>.symm
    obtain ⟨free,inv⟩ := before.inv ok tables small
    obtain ⟨rest,allocated⟩ := inv.forest.alloc ok returns
    exact (ih small (List.forall_mem_cons.mp user).2).links (allocated.same.links 0#64 pageUser) fun _ => by decide
  | write before outside ih =>
    obtain ⟨small,_⟩ := List.forall_mem_cons.mp small |>.symm
    obtain ⟨free,inv⟩ := before.inv ok tables small
    obtain ⟨_,same⟩ := inv.forest.write ok (fun f member => inv.data member) outside
    intro root path i f member selected found present
    rw [same.walk (adm_closed selected)] at found
    rw [same root path f i (adm_closed selected) found (adm_index selected)] at present ⊢
    exact ih small (List.forall_mem_cons.mp user).2 root path i f member selected found present
  | create before returns ih =>
    obtain ⟨small,_⟩ := List.forall_mem_cons.mp small |>.symm
    obtain ⟨free,inv⟩ := before.inv ok tables small
    obtain ⟨rest,created⟩ := pagingCreateAddressSpace_spec ok inv.forest returns
    exact (ih small (List.forall_mem_cons.mp user).2).create created
  | map before target returns ih =>
    obtain ⟨now,small⟩ := List.forall_mem_cons.mp small
    obtain ⟨user,earlier⟩ := List.forall_mem_cons.mp user
    obtain ⟨free,inv⟩ := before.inv ok tables small
    have flat := inv.smallOn target fun kernel => by simpa [SpaceEvent.small,kernel] using now
    exact inv.opened (ih small earlier) target (vmmMap_links ok inv.forest (target_adm target) flat returns) user
  | unmap before target mapped ih =>
    obtain ⟨now,small⟩ := List.forall_mem_cons.mp small
    obtain ⟨free,inv⟩ := before.inv ok tables small
    have flat := inv.smallOn target fun kernel => by simpa [SpaceEvent.small,kernel] using now
    obtain ⟨pt,found⟩ := leafTable_of_mapped flat mapped
    have links := vmmUnmap_links ok inv.forest (target_adm target) found pageUser
    exact inv.opened (ih small (List.forall_mem_cons.mp user).2) target links fun _ => by decide

/-- A mapped page of a process has the rights that the arguments of its last `vmm_map` set, whatever its
neighbours were mapped with: those of the flags, exactly if the physical address has no other right in its bits. -/
theorem effective_rights (ok : BootOk boot) (tables : BootTables boot m) (run : SpacesRun boot m events s spaces held)
    (small : ∀ event ∈ events, event.small boot m = true) (user : ∀ event ∈ events, event.forUser)
    (member : space ∈ spaces) (lower : lowerHalf v) (mapped : (mmuTranslate s.mem space.pml4 v).isSome) :
    ∃ phys flags, lastMap space.pml4 events (v.toNat / 4096) = some (phys,flags) ∧
      mmuAccess s.mem space.pml4 v = entryAccess ((phys &&& boot.cpuPageMask) ||| flags) ∧
      (mmuAccess s.mem space.pml4 v = entryAccess flags ↔ AddsNothing (phys &&& boot.cpuPageMask) flags) := by
  obtain ⟨free,inv⟩ := run.inv ok tables small
  have selected : Adm boot (spaces.map Space.pml4) space.pml4 (pathOf v) := adm_pathOf v (.inr ⟨mem_roots member,lower⟩)
  rw [inv.forest.translate (mem_roots member) selected,Option.isSome_map] at mapped
  obtain ⟨e,leaf⟩ := Option.isSome_iff_exists.mp mapped
  have own := inv.own member lower
  rw [leaf] at own
  obtain ⟨phys,flags,last,rfl⟩ := lastMap_of_ownEntry own.symm
  have access := (run.opened ok tables small user).access (mem_roots member) selected leaf
  rw [entryAccess_leafEntry] at access
  exact ⟨phys,flags,last,access,by rw [access,entryAccess_or_iff]⟩

def mapTwo : Except Stop ((U64 × U64 × U64) × Pmm) := do
  let (first,s) ← pmmAllocPage hhdmBoot (pmmInit hhdmBoot ⟨hhdmMem,0#64,0,0#64⟩)
  let (second,s) ← pmmAllocPage hhdmBoot s
  let (pml4,s) ← pagingCreateAddressSpace hhdmBoot s
  let s ← vmmMap hhdmBoot pml4 0x400000#64 first (pageUser ||| pageNx) s
  let s ← vmmMap hhdmBoot pml4 0x401000#64 second (pageUser ||| pageWritable) s
  return ((first,second,pml4),s)

def mapTwoEvents : List SpaceEvent :=
  [.map 0x203000#64 0x401000#64 0x204000#64 (pageUser ||| pageWritable),
    .map 0x203000#64 0x400000#64 0x205000#64 (pageUser ||| pageNx),.create,.alloc,.alloc]

theorem mapTwo_run (returns : mapTwo = .ok ((0x205000#64,0x204000#64,0x203000#64),s)) : ∃ shared,
    SpacesRun hhdmBoot hhdmMem mapTwoEvents s [⟨0x203000#64,shared⟩] [0x204000#64,0x205000#64] := by
  unfold mapTwo at returns
  obtain ⟨⟨first,s₁⟩,one,returns⟩ := ok_of_bind returns
  obtain ⟨⟨second,s₂⟩,two,returns⟩ := ok_of_bind returns
  obtain ⟨⟨pml4,s₃⟩,three,returns⟩ := ok_of_bind returns
  obtain ⟨s₄,four,returns⟩ := ok_of_bind returns
  obtain ⟨s₅,five,returns⟩ := ok_of_bind returns
  simp only [pure,Except.pure,Except.ok.injEq,Prod.mk.injEq] at returns
  obtain ⟨⟨rfl,rfl,rfl⟩,rfl⟩ := returns
  have created := ((SpacesRun.init.alloc one).alloc two).create three
  exact ⟨_,(created.map (.inr ⟨by simp,by decide⟩) four).map (.inr ⟨by simp,by decide⟩) five⟩

theorem effective_rights_two : ∃ events s shared held,
    SpacesRun hhdmBoot hhdmMem events s [⟨0x203000#64,shared⟩] held ∧
      mmuAccess s.mem 0x203000#64 0x400000#64 = ⟨true,false,true⟩ ∧
      mmuAccess s.mem 0x203000#64 0x401000#64 = ⟨true,true,false⟩ := by
  have evaluated : mapTwo.toOption.map (fun r => (r.1,(mmuTranslate r.2.mem 0x203000#64 0x400000#64).isSome,
      (mmuTranslate r.2.mem 0x203000#64 0x401000#64).isSome)) =
      some ((0x205000#64,0x204000#64,0x203000#64),true,true) := by decide +kernel
  cases result : mapTwo with
  | error stop => rw [result] at evaluated; cases evaluated
  | ok r =>
    rw [result] at evaluated
    simp only [Except.toOption,Option.map_some,Option.some.injEq,Prod.mk.injEq] at evaluated
    obtain ⟨values,mapped,mapped'⟩ := evaluated
    obtain ⟨shared,run⟩ := mapTwo_run (result.trans (by rw [← values]))
    have user : ∀ event ∈ mapTwoEvents, event.forUser := List.forall_mem_cons.mpr ⟨fun _ => by decide,
      List.forall_mem_cons.mpr ⟨fun _ => by decide,by simp [SpaceEvent.forUser]⟩⟩
    have rights := fun v => effective_rights (v := v) hhdmBoot_ok hhdmMem_tables run (by decide +kernel) user
      List.mem_cons_self
    refine ⟨_,_,_,_,run,?_,?_⟩
    · obtain ⟨phys,flags,last,access,_⟩ := rights 0x400000#64 (by decide) mapped
      have values : (0x205000#64,pageUser ||| pageNx) = (phys,flags) := Option.some.inj last
      obtain ⟨rfl,rfl⟩ := Prod.mk.inj values
      exact access.trans (by decide)
    · obtain ⟨phys,flags,last,access,_⟩ := rights 0x401000#64 (by decide) mapped'
      have values : (0x204000#64,pageUser ||| pageWritable) = (phys,flags) := Option.some.inj last
      obtain ⟨rfl,rfl⟩ := Prod.mk.inj values
      exact access.trans (by decide)

def mapInside : Except Stop (U64 × Pmm) := do
  let (pml4,s) ← pagingCreateAddressSpace hhdmBoot (pmmInit hhdmBoot ⟨hhdmMem,0#64,0,0#64⟩)
  let s ← vmmMap hhdmBoot pml4 0x400000#64 0x1002#64 pageUser s
  return (pml4,s)

/-- `vmm_map` keeps the low bits of the physical address: the page is writable, though its only mapping
did not ask for it. -/
theorem effective_rights_inside : ∃ events s space,
    SpacesRun hhdmBoot hhdmMem events s [space] [] ∧ (∀ event ∈ events, event.small hhdmBoot hhdmMem = true) ∧
      (∀ event ∈ events, event.forUser) ∧ lowerHalf 0x400000#64 ∧
      (mmuTranslate s.mem space.pml4 0x400000#64).isSome ∧
      lastMap space.pml4 events 0x400 = some (0x1002#64,pageUser) ∧
      mmuAccess s.mem space.pml4 0x400000#64 ≠ entryAccess pageUser := by
  have evaluated : mapInside.toOption.map (fun r => (r.1,(mmuTranslate r.2.mem r.1 0x400000#64).isSome,
      mmuAccess r.2.mem r.1 0x400000#64)) = some (0x205000#64,true,⟨true,true,false⟩) := by decide +kernel
  cases result : mapInside with
  | error stop => rw [result] at evaluated; cases evaluated
  | ok r =>
    rw [result] at evaluated
    simp only [Except.toOption,Option.map_some,Option.some.injEq,Prod.mk.injEq] at evaluated
    obtain ⟨pml4,mapped,access⟩ := evaluated
    unfold mapInside at result
    obtain ⟨⟨root,s₁⟩,one,result⟩ := ok_of_bind result
    obtain ⟨s₂,two,result⟩ := ok_of_bind result
    simp only [pure,Except.pure,Except.ok.injEq] at result
    subst result
    obtain rfl : root = 0x205000#64 := pml4
    have run := (SpacesRun.init.create one).map (.inr ⟨by simp,by decide⟩) two
    have user : ∀ event ∈ [SpaceEvent.map 0x205000#64 0x400000#64 0x1002#64 pageUser,.create], event.forUser :=
      List.forall_mem_cons.mpr ⟨fun _ => by decide,by simp [SpaceEvent.forUser]⟩
    refine ⟨_,_,_,run,by decide +kernel,user,by decide,mapped,by decide,?_⟩
    rw [access]
    decide

end Reddyos
