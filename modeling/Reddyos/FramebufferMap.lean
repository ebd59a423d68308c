import Reddyos.KernelRun

/-! A mapping of the framebuffer beside its back buffer: whole frames are mapped, but the buffer starts
behind the header of its block. -/
namespace Reddyos

open ByteMemory RadixForest Transitions

variable {boot : Boot} {limit : Nat} {x y : KernelState} {free rest : List U64} {mem : Mem} {v : U64}

/-- Pages of the kernel heap that are mapped are pages of a block. -/
theorem KernelInv.inside (inv : KernelInv boot limit x free) (above : aboveHeap v) (below : v.toNat < limit)
    (found : mmuTranslate x.kernel.pmm.mem boot.kernelPml4 v = some phys) :
    insideBlocks x.kernel.heap.blocks (v.toNat / 4096) := by
  by_contra outside
  have none := inv.mapped.heapOk.translate_none above (inv.mapped.window.unmapped v above below outside)
  rw [none] at found
  cases found

theorem BlocksOk.next_page (blocksOk : BlocksOk cursor blocks) (inside : insideBlocks blocks n) :
    4096 * (n + 1) + 4096 ≤ cursor.toNat := by
  obtain ⟨b,member,_,high⟩ := inside
  have := blocksOk.stop b member
  omega

/-- A `memset` that returns has met mapped pages only. -/
theorem KernelInv.memset (ok : BootOk boot) (inv : KernelInv boot limit x free) (above : aboveHeap v)
    (below : v.toNat < limit) (enough : n = 0 ∨ v.toNat % 4096 + n ≤ 4096 * fuel)
    (returns : kernelMemset boot c fuel v n x.kernel.pmm.mem = .ok mem) :
    KernelInv boot limit (x.withMem mem) free ∧
      ∀ i < n, insideBlocks x.kernel.heap.blocks ((v.toNat + i) / 4096) := by
  induction fuel generalizing v n x with
  | zero =>
    obtain rfl := Except.ok.inj returns
    exact ⟨inv,fun i small => by omega⟩
  | succ fuel ih =>
    unfold kernelMemset at returns
    split at returns
    · rename_i none
      obtain rfl := Except.ok.inj returns
      exact ⟨inv,fun i small => by omega⟩
    rename_i some
    split at returns
    · cases returns
    rename_i phys found
    dsimp only at returns
    have inside := inv.inside above below found
    obtain ⟨f,frame,held⟩ := inv.mapped.window.backed v above inside
    obtain ⟨phys',found',value⟩ := inv.mapped.heapOk.translate above frame
    rw [found,Option.some.injEq] at found'
    subst found'
    have room := inv.room
    have next := inv.blocksOk.next_page inside
    have top := inv.top
    generalize size : min n (4096 - v.toNat % 4096) = chunk at returns
    have bound : x.kernel.heap.cursor.toNat ≤ limit := by
      unfold HeapRoom at room
      omega
    have moved : (v + BitVec.ofNat 64 chunk).toNat = v.toNat + chunk := by
      rw [BitVec.toNat_add,BitVec.toNat_ofNat]
      omega
    have written : KernelInv boot limit (x.withMem (fill x.kernel.pmm.mem phys.toNat c chunk)) free := by
      have owned : ∀ g, g = f → Held boot x.procs x.kernel.pmm free g := fun g same => same ▸ held
      refine inv.writes ok owned fun b clear => fill_outside ?_
      have := clear f rfl
      unfold Clear at this
      omega
    obtain ⟨kept,pages⟩ := ih written (v := v + BitVec.ofNat 64 chunk) (n := n - chunk) (by
      unfold aboveHeap at above ⊢
      omega) (by omega) (by omega) returns
    refine ⟨kept,fun i small => ?_⟩
    by_cases here : i < chunk
    · have page : (v.toNat + i) / 4096 = v.toNat / 4096 := by omega
      rw [page]
      exact inside
    · have page := pages (i - chunk) (by omega)
      rwa [moved,show v.toNat + chunk + (i - chunk) = v.toNat + i by omega] at page

/-- The back buffer lies behind the header of a block, on pages of the heap. -/
structure BackOk (fb : Framebuffer) (x : KernelState) : Prop where
  header : fb.back.toNat % 4096 = 32
  above : aboveHeap fb.back
  pages : ∀ i < fb.size.toNat, insideBlocks x.kernel.heap.blocks ((fb.back.toNat + i) / 4096)

theorem KernelInv.payload (inv : KernelInv boot limit x free) (member : b ∈ x.kernel.heap.blocks) :
    (b.base + blockHeader).toNat % 4096 = 32 ∧ aboveHeap (b.base + blockHeader) ∧
      (b.base + blockHeader).toNat < limit := by
  have value := inv.blocksOk.ptr_toNat member
  obtain ⟨start,aligned⟩ := inv.blocksOk.start b member
  have stop := (inv.blocksOk.stop b member).2
  have room := inv.room
  unfold Aligned at aligned
  unfold aboveHeap at start ⊢
  unfold HeapRoom at room
  unfold Block.limit at stop
  omega

/-- A request for no pages returns the byte behind a header that is not mapped. -/
theorem KernelInv.kmalloc_none (inv : KernelInv boot limit x free)
    (missing : takeBlock (roundSize size) x.kernel.heap.blocks = none) (empty : (blockPages size).toNat = 0)
    (returns : Reddyos.kmalloc boot size x.kernel = .ok (ptr,k)) :
    k.pmm = x.kernel.pmm ∧ mmuTranslate x.kernel.pmm.mem boot.kernelPml4 ptr = none := by
  have heapOk := inv.mapped.heapOk
  have low : aboveHeap x.kernel.heap.cursor := heapOk.low
  have aligned : Aligned x.kernel.heap.cursor := heapOk.aligned.cursor
  have room := inv.room
  have top := inv.top
  unfold HeapRoom at room
  have value : (x.kernel.heap.cursor + blockHeader).toNat = x.kernel.heap.cursor.toNat + 32 := by
    rw [BitVec.toNat_add,show blockHeader.toNat = 32 from rfl]
    omega
  have above : aboveHeap (x.kernel.heap.cursor + blockHeader) := by
    unfold aboveHeap at low ⊢
    omega
  have unmapped : mmuTranslate x.kernel.pmm.mem boot.kernelPml4 (x.kernel.heap.cursor + blockHeader) = none := by
    refine heapOk.translate_none above (inv.mapped.window.unmapped _ above (by omega) ?_)
    rintro ⟨b,member,_,high⟩
    have := inv.blocksOk.stop b member
    unfold Aligned at aligned
    omega
  unfold Reddyos.kmalloc at returns
  dsimp only at returns
  rw [show (size + 15#64) &&& ~~~15#64 = roundSize size from rfl,missing] at returns
  change (requestPages boot (blockPages size) x.kernel >>= _) = _ at returns
  unfold requestPages at returns
  rw [empty] at returns
  change (if x.kernel.heap.cursor = 0#64 then _ else _) = _ at returns
  rw [if_neg (nonNull_of_above low)] at returns
  obtain ⟨rfl,rfl⟩ := ok_pair returns
  exact ⟨rfl,unmapped⟩

theorem fbInit_kept (ok : BootOk boot) (cpu : CpuOk boot) (inv : KernelInv boot limit x free)
    (init : fbInit boot limine x.kernel = .ok (fb,k)) :
    (∃ rest, KernelInv boot limit { x with kernel := k } rest) ∧ BackOk fb { x with kernel := k } := by
  unfold fbInit at init
  split at init
  · cases init
  obtain ⟨⟨ptr,k₁⟩,first,init⟩ := ok_of_bind init
  dsimp only at init
  split at init
  · cases init
  obtain ⟨⟨back,k₂⟩,second,init⟩ := ok_of_bind init
  dsimp only at init
  split at init
  · cases init
  obtain ⟨mem,zeroed,init⟩ := ok_of_bind init
  obtain ⟨rfl,rfl⟩ := ok_pair init
  obtain ⟨⟨⟨rest,inv₁⟩,_⟩,_⟩ := inv.kmalloc ok cpu (fun _ => by decide) first
  generalize limine.pitch * limine.height = size at second zeroed ⊢
  by_cases pages : takeBlock (roundSize size) k₁.heap.blocks = none → 0 < (blockPages size).toNat
  · obtain ⟨⟨⟨left,inv₂⟩,_⟩,b,member,rfl⟩ := inv₁.kmalloc ok cpu pages second
    obtain ⟨header,above,below⟩ := inv₂.payload member
    have enough : (b.base + blockHeader).toNat % 4096 + size.toNat ≤ 4096 * (size.toNat / 4096 + 2) := by omega
    obtain ⟨inv₃,inside⟩ := inv₂.memset ok above below (.inr enough) zeroed
    exact ⟨⟨left,inv₃⟩,header,above,inside⟩
  · obtain ⟨missing,empty⟩ := Classical.not_imp.mp pages
    obtain ⟨same,none⟩ := inv₁.kmalloc_none missing (by omega) second
    have some : size.toNat ≠ 0 := by
      intro zero
      rw [BitVec.eq_of_toNat_eq (y := 0#64) zero] at empty
      exact empty (by decide)
    rw [same,kernelMemset,if_neg some] at zeroed
    change mmuTranslate k₁.pmm.mem boot.kernelPml4 back = Option.none at none
    rw [none] at zeroed
    cases zeroed

/-- The user's byte at `start + k` is stored where `back[pgoff + k]` is, for every `k` of
the page that lies inside the buffer. -/
def MmapIsBack (boot : Boot) (fb : Framebuffer) (pml4 start pgoff page : U64) (m : Mem) : Prop :=
  ∀ k : Nat, pgoff.toNat + k < fb.size.toNat → (start.toNat + k) / 4096 = page.toNat / 4096 →
    ∃ phys, mmuTranslate m pml4 (start + BitVec.ofNat 64 k) = some phys ∧
      mmuTranslate m boot.kernelPml4 (fb.back + (pgoff + BitVec.ofNat 64 k)) = some phys

def ShowsBack (fb : Framebuffer) (start pgoff page : U64) : Prop :=
  start.toNat < page.toNat + 4096 ∧ pgoff.toNat + (page.toNat - start.toNat) < fb.size.toNat

instance (fb : Framebuffer) (start pgoff page : U64) : Decidable (ShowsBack fb start pgoff page) :=
  inferInstanceAs (Decidable (_ ∧ _))

theorem fbVmaFault_maps (served : fbVmaFault boot (some fb) pml4 start pgoff page s = .ok (true,next)) :
    (page - start + pgoff).toNat < fb.size.toNat ∧
      vmmMap boot pml4 page ((vmmLookup s.mem boot.kernelPml4 (fb.back + (page - start + pgoff))).getD 0#64)
        (pageUser ||| pageWritable) s = .ok next := by
  unfold fbVmaFault at served
  dsimp only at served
  split at served
  · cases served
  · rename_i inside
    obtain ⟨s',maps,served⟩ := ok_of_bind served
    obtain ⟨_,rfl⟩ := ok_pair served
    exact ⟨BitVec.not_le.mp inside,maps⟩

/-- A frame looked up at the first byte of a page. -/
theorem vmmLookup_frame (aligned : Aligned v) (leaf : leafAt m root (pathOf v) (ptIndex v) = some e) :
    (vmmLookup m root v).getD 0#64 = e &&& pageMask := by
  have value := toNat_physical v e
  unfold Aligned at aligned
  rw [aligned,Nat.add_zero] at value
  have same : physical v e = e &&& pageMask := BitVec.eq_of_toNat_eq value
  by_cases zero : (physical v e).toNat = 0
  · have none : vmmLookup m root v = none := by
      unfold vmmLookup
      rw [vmmVirtToPhysAs_leaf leaf,zero]
      rfl
    rw [none,← same]
    exact (BitVec.eq_of_toNat_eq (y := 0#64) zero).symm
  · rw [vmmLookup_leaf leaf (by omega),same]
    rfl

/-- When the frame begins where a page of the buffer does, the page shows the buffer. -/
theorem KernelInv.shows (ok : BootOk boot) (cpu : CpuOk boot) (inv : KernelInv boot limit y free)
    (back : BackOk fb y) (member : pml4 ∈ y.procs) (lower : lowerHalf page) (aligned : Aligned page)
    (served : fbVmaFault boot (some fb) pml4 start pgoff page y.kernel.pmm = .ok (true,next))
    (whole : (page - start + pgoff + 32#64).toNat % 4096 = 0) : MmapIsBack boot fb pml4 start pgoff page next.mem := by
  obtain ⟨offset,maps⟩ := fbVmaFault_maps served
  have header := back.header
  have start_above := back.above
  have inside := back.pages _ offset
  have room := inv.room
  have top := inv.top
  have before := inv.blocksOk.next_page inside
  unfold HeapRoom at room
  unfold aboveHeap at start_above
  rw [heapStart_toNat] at start_above
  have value : (fb.back + (page - start + pgoff)).toNat = fb.back.toNat + (page - start + pgoff).toNat := by
    rw [BitVec.toNat_add]
    omega
  generalize first : fb.back + (page - start + pgoff) = b at *
  have page_b : Aligned b := by
    have shift : (32#64).toNat = 32 := rfl
    rw [BitVec.toNat_add,shift] at whole
    unfold Aligned
    omega
  have above : aboveHeap b := by
    unfold aboveHeap
    rw [heapStart_toNat]
    omega
  obtain ⟨f,frame,held⟩ := inv.mapped.window.backed b above (value ▸ inside)
  obtain ⟨e,leaf,masked⟩ := Option.map_eq_some_iff.mp frame
  rw [vmmLookup_frame page_b leaf,masked] at maps
  have spaces := inv.mapped.spaces
  have selected : Adm boot y.procs pml4 (pathOf page) := adm_pathOf page (.inr ⟨member,lower⟩)
  obtain ⟨rest,update⟩ := vmmMap_spec ok spaces selected (spaces.smallOn member selected) maps
  have kept := inv.updated (.inr ⟨member,lower⟩) update
  intro k small here
  unfold Aligned at aligned page_b
  unfold lowerHalf at lower
  have user : (start + BitVec.ofNat 64 k).toNat = start.toNat + k := by
    rw [BitVec.toNat_add,BitVec.toNat_ofNat]
    omega
  have distance : (start + BitVec.ofNat 64 k - page).toNat = (start.toNat + k) % 4096 := by
    rw [BitVec.toNat_sub,user]
    omega
  have same : fb.back + (pgoff + BitVec.ofNat 64 k) = b + (start + BitVec.ofNat 64 k - page) := by
    rw [← first]
    bv_omega
  have kernel : (fb.back + (pgoff + BitVec.ofNat 64 k)).toNat = b.toNat + (start.toNat + k) % 4096 := by
    rw [same,BitVec.toNat_add,distance]
    omega
  generalize fb.back + (pgoff + BitVec.ofNat 64 k) = u at *
  generalize start + BitVec.ofNat 64 k = w at *
  have above_u : aboveHeap u := by
    unfold aboveHeap at above ⊢
    omega
  have lower_w : lowerHalf w := by
    unfold lowerHalf
    omega
  have shown : heapFrame boot next u = some f := by
    have other := update.toEvolves.heapFrame (v := b) (PageOf.other (.inr ⟨member,lower⟩) spaces above)
    rw [heapFrame_page above_u above (by omega),other]
    exact frame
  obtain ⟨phys,translated,physical_u⟩ := kept.mapped.heapOk.translate above_u shown
  refine ⟨phys,?_,translated⟩
  have entry : leafAt next.mem pml4 (pathOf w) (ptIndex w) = some (leafEntry boot f (pageUser ||| pageWritable)) := by
    obtain ⟨path,index⟩ := (same_page lower_w lower).mpr (by omega)
    rw [path,index,update.new,if_pos (leafEntry_present _ _ _)]
  have sp := update.toEvolves.spaces
  rw [sp.translate member (adm_pathOf w (.inr ⟨member,lower_w⟩)),entry,Option.map_some,Option.some.injEq]
  apply BitVec.eq_of_toNat_eq
  rw [toNat_physical,leafEntry_frame cpu (vmmMap_reach maps) held.1 (by decide),physical_u]
  omega

/-- The page shows the buffer just when a frame of the buffer begins where the page does. -/
theorem fb_mmap_back_iff (ok : BootOk boot) (cpu : CpuOk boot)
    (before : Run (KernelStart boot limit) (KernelStep boot) (KernelGuard boot) earlier x)
    (init : fbInit boot limine x.kernel = .ok (fb,k))
    (after : Run (fun s => s = { x with kernel := k }) (KernelStep boot) (KernelGuard boot) later y)
    (member : pml4 ∈ y.procs) (lower : lowerHalf page) (aligned : Aligned page)
    (served : fbVmaFault boot (some fb) pml4 start pgoff page y.kernel.pmm = .ok (true,next)) :
    MmapIsBack boot fb pml4 start pgoff page next.mem ↔
      (ShowsBack fb start pgoff page → (page - start + pgoff + 32#64).toNat % 4096 = 0) := by
  obtain ⟨free,inv⟩ := kernelRun_inv ok cpu before
  obtain ⟨⟨free,inv⟩,back⟩ := fbInit_kept ok cpu inv init
  obtain ⟨⟨free,inv⟩,more⟩ := inv.run ok cpu after
  replace back : BackOk fb y := ⟨back.header,back.above,fun i small => more _ (back.pages i small)⟩
  unfold Aligned at aligned
  constructor
  · rintro same ⟨near,small⟩
    obtain ⟨phys,user,kernel⟩ := same (page.toNat - start.toNat) small (by omega)
    have userOffset := mmuTranslate_offset user
    have backOffset := mmuTranslate_offset kernel
    have header := back.header
    have shift : (32#64).toNat = 32 := rfl
    simp only [BitVec.toNat_add,BitVec.toNat_sub,BitVec.toNat_ofNat,shift] at userOffset backOffset ⊢
    omega
  · intro whole k small here
    have shows : ShowsBack fb start pgoff page := by
      unfold ShowsBack
      omega
    exact inv.shows ok cpu back member lower aligned served (whole shows) k small here

def fbTouch (height start page : U64) : Except Stop ((Bool × U64 × Framebuffer) × Kernel × Pmm × Pmm) := do
  let (fb,k) ← fbInit fbBoot ⟨0xFFFF8000E0000000#64,4#64,height,16#64,32#16⟩ fbStart
  let (pml4,s) ← pagingCreateAddressSpace fbBoot k.pmm
  let (served,next) ← fbVmaFault fbBoot (some fb) pml4 start 0#64 page s
  return ((served,pml4,fb),k,s,next)

theorem fbTouch_calls (returns : fbTouch height start page = .ok ((served,pml4,fb),k,s,next)) :
    fbInit fbBoot ⟨0xFFFF8000E0000000#64,4#64,height,16#64,32#16⟩ fbStart = .ok (fb,k) ∧
    pagingCreateAddressSpace fbBoot k.pmm = .ok (pml4,s) ∧
    fbVmaFault fbBoot (some fb) pml4 start 0#64 page s = .ok (served,next) := by
  unfold fbTouch at returns
  obtain ⟨⟨fb',k'⟩,init,returns⟩ := ok_of_bind returns
  obtain ⟨⟨pml4',s'⟩,creates,returns⟩ := ok_of_bind returns
  obtain ⟨⟨served',next'⟩,fault,returns⟩ := ok_of_bind returns
  simp only [pure,Except.pure,Except.ok.injEq,Prod.mk.injEq] at returns
  obtain ⟨⟨rfl,rfl,rfl⟩,rfl,rfl,rfl⟩ := returns
  exact ⟨init,creates,fault⟩

theorem fbStart_kernel : KernelStart fbBoot (2^64 - 4096) ⟨fbStart,[],[]⟩ := by
  have unmapped : ∀ v, aboveHeap v → v.toNat < 2^64 - 4096 →
      leafAt (fun _ => 0#8) fbBoot.kernelPml4 (pathOf v) (ptIndex v) = none := fun v _ _ => leafAt_zero _ _ _
  obtain ⟨free,mapped,fewer⟩ := boot_mapped fbBoot_ok fbBoot_tables (fun v _ => smallOn_zero _ v) unmapped (by
    rw [fbBoot_frames]
    decide)
  refine ⟨rfl,rfl,rfl,by decide,free,mapped,?_⟩
  rw [fbBoot_frames] at fewer
  change (avail fbBoot fbStart.pmm free).length ≤ 16 at fewer
  change HeapRoom _ _ (avail fbBoot fbStart.pmm free).length 0
  unfold HeapRoom
  rw [heapStart_toNat]
  omega

theorem fbCreated (creates : pagingCreateAddressSpace fbBoot k.pmm = .ok (pml4,s)) :
    Run (fun x => x = ⟨k,[],[]⟩) (KernelStep fbBoot) (KernelGuard fbBoot) [.create] ⟨{ k with pmm := s },[pml4],[]⟩ := by
  have begun : Run (fun x => x = ⟨k,[],[]⟩) (KernelStep fbBoot) (KernelGuard fbBoot) [] ⟨k,[],[]⟩ := .start rfl
  have met : KernelGuard fbBoot ⟨k,[],[]⟩ .create := trivial
  exact .step begun met (.create creates)

/-- The process's first byte is the first byte of the frame; the buffer's is byte 32 of it. -/
theorem fb_mmap_first_byte : ∃ fb k pml4 s next,
    fbInit fbBoot ⟨0xFFFF8000E0000000#64,4#64,4#64,16#64,32#16⟩ fbStart = .ok (fb,k) ∧
    fbVmaFault fbBoot (some fb) pml4 0x10000000#64 0#64 0x10000000#64 s = .ok (true,next) ∧
    mmuTranslate next.mem pml4 0x10000000#64 = some 0x10B000#64 ∧
    mmuTranslate next.mem fbBoot.kernelPml4 fb.back = some 0x10B020#64 ∧
    ¬MmapIsBack fbBoot fb pml4 0x10000000#64 0#64 0x10000000#64 next.mem := by
  have evaluated : (fbTouch 4#64 0x10000000#64 0x10000000#64).toOption.map (fun r => (r.1.1,r.1.2.2.size,
      mmuTranslate r.2.2.2.mem r.1.2.1 0x10000000#64,
      mmuTranslate r.2.2.2.mem fbBoot.kernelPml4 r.1.2.2.back)) =
      some (true,64#64,some 0x10B000#64,some 0x10B020#64) := by decide +kernel
  match result : fbTouch 4#64 0x10000000#64 0x10000000#64 with
  | .error stop => rw [result] at evaluated; cases evaluated
  | .ok ((served,pml4,fb),k,s,next) =>
    rw [result] at evaluated
    simp only [Except.toOption,Option.map_some,Option.some.injEq,Prod.mk.injEq] at evaluated
    obtain ⟨rfl,size,user,back⟩ := evaluated
    obtain ⟨init,_,fault⟩ := fbTouch_calls result
    refine ⟨fb,k,pml4,s,next,init,fault,user,back,fun same => ?_⟩
    obtain ⟨phys,user',back'⟩ := same 0 (by rw [size]; decide) (by decide)
    rw [BitVec.add_zero,user] at user'
    rw [BitVec.add_zero,BitVec.add_zero,back,← user'] at back'
    exact absurd back' (by decide)

/-- A process that maps the framebuffer behind the first 32 bytes of a page sees it from the next page
on; one that maps it at a page does not. -/
theorem fb_mmap_back_iff_shifted : ∃ fb pml4 pml4' next next',
    fbTouch 256#64 0x10000020#64 0x10001000#64 = .ok ((true,pml4,fb),next) ∧
    MmapIsBack fbBoot fb pml4 0x10000020#64 0#64 0x10001000#64 next.2.2.mem ∧
    fbTouch 256#64 0x10000000#64 0x10000000#64 = .ok ((true,pml4',fb),next') ∧
    ¬MmapIsBack fbBoot fb pml4' 0x10000000#64 0#64 0x10000000#64 next'.2.2.mem := by
  let fb : Framebuffer := ⟨0xFFFF8000E0000000#64,0xFFFFC00000002020#64,4#64,256#64,16#64,32#16,4096#64⟩
  have shifted : (fbTouch 256#64 0x10000020#64 0x10001000#64).toOption.map (fun r => (r.1.1,r.1.2.2)) =
      some (true,fb) := by decide +kernel
  have aligned : (fbTouch 256#64 0x10000000#64 0x10000000#64).toOption.map (fun r => (r.1.1,r.1.2.2)) =
      some (true,fb) := by decide +kernel
  obtain ⟨⟨⟨served,pml4,fb⟩,k,s,next⟩,first,shifted⟩ := ok_of_evaluated shifted
  obtain ⟨⟨⟨served',pml4',fb'⟩,k',s',next'⟩,second,aligned⟩ := ok_of_evaluated aligned
  obtain ⟨rfl,rfl⟩ := Prod.mk.inj shifted
  obtain ⟨rfl,rfl⟩ := Prod.mk.inj aligned
  obtain ⟨init,creates,fault⟩ := fbTouch_calls first
  obtain ⟨init',creates',fault'⟩ := fbTouch_calls second
  have begun : Run (KernelStart fbBoot (2^64 - 4096)) (KernelStep fbBoot) (KernelGuard fbBoot) [] _ :=
    .start fbStart_kernel
  have page : Aligned 0x10001000#64 := by simp [Aligned]
  have page' : Aligned 0x10000000#64 := by simp [Aligned]
  refine ⟨_,pml4,pml4',_,_,first,?_,second,fun same => ?_⟩
  · exact (fb_mmap_back_iff fbBoot_ok fbBoot_cpu begun init (fbCreated creates) (by simp)
      (by decide) page fault).mpr fun _ => by decide
  · have whole := (fb_mmap_back_iff fbBoot_ok fbBoot_cpu begun init' (fbCreated creates')
      (by simp) (by decide) page' fault').mp same (by decide)
    exact absurd whole (by decide)

end Reddyos
