import Reddyos.AddressSpaces
import Reddyos.HeapRun
import Reddyos.Transitions

/-! Runs of a kernel whose heap, data frames and address spaces share one allocator: the
pages of the heap keep frames of their own. -/
namespace Reddyos

open ByteMemory RadixForest Transitions

structure KernelState where
  kernel : Kernel
  procs : List U64
  held : List U64

inductive KernelCall where
  | alloc
  | free (page : U64)
  | write
  | create
  | map (pml4 virt phys flags : U64)
  | unmap (pml4 virt : U64)
  | kmalloc (size : U64)
  | kfree (ptr : U64)

def KernelState.withPmm (x : KernelState) (s : Pmm) : KernelState := { x with kernel := { x.kernel with pmm := s } }

def KernelState.withMem (x : KernelState) (mem : Mem) : KernelState := x.withPmm { x.kernel.pmm with mem := mem }

def PageOf (boot : Boot) (procs : List U64) (pml4 virt : U64) : Prop :=
  pml4 = boot.kernelPml4 ∧ (lowerHalf virt ∨ upperHalf virt ∧ ¬aboveHeap virt) ∨ pml4 ∈ procs ∧ lowerHalf virt

/-- A byte of a data frame, or one behind the header of a block. -/
def Writable (boot : Boot) (x : KernelState) (b : Nat) : Prop :=
  (∃ f ∈ x.held, f.toNat ≤ b ∧ b < f.toNat + 4096) ∨
    ∃ c ∈ x.kernel.heap.blocks, ∃ v phys : U64, c.base.toNat + 32 ≤ v.toNat ∧ v.toNat < c.limit ∧
      mmuTranslate x.kernel.pmm.mem boot.kernelPml4 v = some phys ∧ phys.toNat = b

inductive KernelStep (boot : Boot) (x : KernelState) : KernelCall → KernelState → Prop where
  | alloc : pmmAllocPage boot x.kernel.pmm = .ok (page,s) →
      KernelStep boot x .alloc ⟨{ x.kernel with pmm := s },x.procs,page :: x.held⟩
  | free : page ∈ x.held →
      KernelStep boot x (.free page)
        ⟨{ x.kernel with pmm := pmmFreePage boot page x.kernel.pmm },x.procs,x.held.erase page⟩
  | write : (∀ b, ¬Writable boot x b → mem b = x.kernel.pmm.mem b) → KernelStep boot x .write (x.withMem mem)
  | create : pagingCreateAddressSpace boot x.kernel.pmm = .ok (pml4,s) →
      KernelStep boot x .create ⟨{ x.kernel with pmm := s },pml4 :: x.procs,x.held⟩
  | map : PageOf boot x.procs pml4 virt → vmmMap boot pml4 virt phys flags x.kernel.pmm = .ok s →
      KernelStep boot x (.map pml4 virt phys flags) (x.withPmm s)
  | unmap : PageOf boot x.procs pml4 virt → (mmuTranslate x.kernel.pmm.mem pml4 virt).isSome →
      KernelStep boot x (.unmap pml4 virt) (x.withPmm (vmmUnmap pml4 virt x.kernel.pmm))
  | kmalloc : Reddyos.kmalloc boot size x.kernel = .ok (ptr,k) →
      KernelStep boot x (.kmalloc size) { x with kernel := k }
  | kfree : KernelStep boot x (.kfree ptr) { x with kernel := Reddyos.kfree ptr x.kernel }

/-- Off the boot loader's large pages. The header of a block without a page faults. -/
def KernelGuard (boot : Boot) (x : KernelState) : KernelCall → Prop
  | .map pml4 virt _ _ => pml4 = boot.kernelPml4 → inLargePage x.kernel.pmm.mem pml4 virt = false
  | .unmap pml4 virt => pml4 = boot.kernelPml4 → inLargePage x.kernel.pmm.mem pml4 virt = false
  | .kmalloc size => 0 < (blockPages size).toNat
  | .alloc => True
  | .free _ => True
  | .write => True
  | .create => True
  | .kfree _ => True

/-- Room for every frame that is available or that a client may give back, with two pages to
spare. -/
def HeapRoom (limit : Nat) (cursor : U64) (avail held : Nat) : Prop :=
  cursor.toNat + 8192 * avail + 8192 * (held + 1) ≤ limit

/-- An empty heap with nothing mapped from `HEAP_START` up to `limit`, where there is room for
every frame of the machine. -/
def KernelStart (boot : Boot) (limit : Nat) (x : KernelState) : Prop :=
  x.procs = [] ∧ x.held = [] ∧ x.kernel.heap = heapInit ∧ limit ≤ 2^64 ∧
    ∃ free, Mapped boot [] limit (fun _ => False) x.kernel.pmm free heapInit ∧
      HeapRoom limit heapStart (avail boot x.kernel.pmm free).length 0

structure KernelInv (boot : Boot) (limit : Nat) (x : KernelState) (free : List U64) : Prop where
  mapped : Mapped boot x.procs limit (insideBlocks x.kernel.heap.blocks) x.kernel.pmm free x.kernel.heap
  blocksOk : BlocksOk x.kernel.heap.cursor x.kernel.heap.blocks
  room : HeapRoom limit x.kernel.heap.cursor (avail boot x.kernel.pmm free).length x.held.length
  top : limit ≤ 2^64
  data : ∀ f ∈ x.held, f ∈ frames boot ∧ Held boot x.procs x.kernel.pmm free f
  once : x.held.Nodup
  apart : ∀ v f, aboveHeap v → insideBlocks x.kernel.heap.blocks (v.toNat / 4096) →
    heapFrame boot x.kernel.pmm v = some f → f ∉ x.held

def KernelKept (boot : Boot) (limit : Nat) (x y : KernelState) : Prop :=
  (∃ rest, KernelInv boot limit y rest) ∧
    ∀ n, insideBlocks x.kernel.heap.blocks n → insideBlocks y.kernel.heap.blocks n

variable {boot : Boot} {limit : Nat} {x y : KernelState} {free rest : List U64} {s next : Pmm} {changed : Slots}
variable {mem : Mem} {v : U64}

theorem HeapRoom.less (room : HeapRoom limit cursor n k) (less : n' + k' ≤ n + k) : HeapRoom limit cursor n' k' := by
  unfold HeapRoom at room ⊢
  rw [Nat.add_assoc,← Nat.mul_add] at room ⊢
  exact Nat.le_trans (Nat.add_le_add_left (Nat.mul_le_mul_left 8192 (Nat.add_le_add_right less 1)) _) room

theorem HeapRoom.window (room : HeapRoom limit cursor n k) (top : limit ≤ 2^64) : cursor.toNat + 8192 * n < 2^64 := by
  unfold HeapRoom at room
  omega

theorem KernelStart.inv (start : KernelStart boot limit x) : ∃ free, KernelInv boot limit x free := by
  obtain ⟨⟨s,heap⟩,procs,held⟩ := x
  obtain ⟨rfl,rfl,rfl,top,free,mapped,room⟩ := start
  have none : ∀ n, False ↔ insideBlocks heapInit.blocks n := fun n => ⟨False.elim,fun ⟨_,member,_⟩ => by cases member⟩
  have cursor : heapInit.cursor = heapStart := rfl
  refine ⟨free,⟨mapped.spaces,mapped.heapOk,mapped.window.congr none⟩,⟨?_,?_,.nil⟩,?_,top,?_,.nil,?_⟩
  · exact fun b member => by cases member
  · exact fun b member => by cases member
  · exact room
  · exact fun f member => by cases member
  · exact fun v f _ _ _ member => by cases member

/-- Calls that leave the kernel's pages from `HEAP_START` on alone. -/
theorem KernelInv.evolves (inv : KernelInv boot limit x free)
    (evolves : Evolves boot x.procs changed x.kernel.pmm free s rest)
    (other : ∀ v, aboveHeap v → ¬changed boot.kernelPml4 (pathOf v) (ptIndex v)) :
    KernelInv boot limit (x.withPmm s) rest where
  mapped := ⟨evolves.spaces,inv.mapped.heapOk.evolves evolves,inv.mapped.window.evolves evolves other⟩
  blocksOk := inv.blocksOk
  room := inv.room.less (Nat.add_le_add_right evolves.length _)
  top := inv.top
  data := fun f member => (inv.data f member).imp_right evolves.held
  once := inv.once
  apart := fun v f above inside found => inv.apart v f above inside ((evolves.heapFrame (other v above)).symm.trans found)

theorem KernelInv.alloc (ok : BootOk boot) (inv : KernelInv boot limit x free)
    (returns : pmmAllocPage boot x.kernel.pmm = .ok (page,s)) :
    ∃ rest, KernelInv boot limit ⟨{ x.kernel with pmm := s },x.procs,page :: x.held⟩ rest := by
  obtain ⟨rest,allocated⟩ := inv.mapped.spaces.alloc ok returns
  have kept := inv.evolves (allocated.evolves nowhere) fun _ _ => id
  refine ⟨rest,kept.mapped,kept.blocksOk,inv.room.less ?_,inv.top,?_,?_,?_⟩
  · have fewer := allocated.length
    rw [List.length_cons,Nat.add_comm x.held.length,← Nat.add_assoc]
    exact Nat.add_le_add_right fewer _
  · intro f member
    rcases List.mem_cons.mp member with rfl | old
    · exact ⟨avail_frame inv.mapped.spaces.pmm allocated.source,allocated.held⟩
    · exact kept.data f old
  · exact List.nodup_cons.mpr ⟨fun member => (inv.data page member).2.2.1 allocated.source,inv.once⟩
  · intro v f above inside found member
    rcases List.mem_cons.mp member with rfl | old
    -- the frames of the heap were not available
    · obtain ⟨g,found',held⟩ := inv.mapped.window.backed v above inside
      rw [(allocated.evolves nowhere).heapFrame id,found',Option.some.injEq] at found
      exact held.2.1 (found ▸ allocated.source)
    · exact kept.apart v f above inside found old

theorem Spaces.release (ok : BootOk boot) (sp : Spaces boot s free procs) (framed : page ∈ frames boot)
    (held : Held boot procs s free page) : Spaces boot (pmmFreePage boot page s) (page :: free) procs ∧
      TablesSame boot procs s.mem (pmmFreePage boot page s).mem := by
  obtain ⟨frame,apart,unreached⟩ := held
  have same : TablesSame boot procs s.mem (pmmFreePage boot page s).mem := by
    intro root path f i selected found bound
    refine entry_congr bound fun b low high => store64_outside ?_
    have := frames_apart (sp.table_ok selected found).1 frame.1 fun same => unreached root path selected (same ▸ found)
    omega
  refine ⟨⟨pmmFreePage_spec ok sp.pmm framed apart,sp.forest.congr same.child,?_,sp.roots,?_,sp.kernel⟩,same⟩
  · intro root path f selected found member
    rw [same.walk selected] at found
    rcases List.mem_cons.mp member with rfl | old
    · exact unreached root path selected found
    · exact sp.apart selected found old
  · intro root path i f member selected found
    rw [same.walk (adm_closed selected)] at found
    rw [same root path f i (adm_closed selected) found (adm_index selected)]
    exact sp.small member selected found

/-- The frame goes back to the allocator; nothing of the heap lies in it. -/
theorem KernelInv.release (ok : BootOk boot) (inv : KernelInv boot limit x free) (member : page ∈ x.held) :
    KernelInv boot limit ⟨{ x.kernel with pmm := pmmFreePage boot page x.kernel.pmm },x.procs,x.held.erase page⟩
      (page :: free) := by
  obtain ⟨framed,held⟩ := inv.data page member
  obtain ⟨spaces,same⟩ := inv.mapped.spaces.release ok framed held
  have avail_cons : avail boot (pmmFreePage boot page x.kernel.pmm) (page :: free) =
      page :: avail boot x.kernel.pmm free := rfl
  have frames : ∀ v, heapFrame boot (pmmFreePage boot page x.kernel.pmm) v = heapFrame boot x.kernel.pmm v :=
    same.heapFrame
  have keep : ∀ f, f ≠ page → Held boot x.procs x.kernel.pmm free f →
      Held boot x.procs (pmmFreePage boot page x.kernel.pmm) (page :: free) f := by
    intro f other owned
    refine ⟨owned.1,?_,(same.held owned).2.2⟩
    rw [avail_cons,List.mem_cons,not_or]
    exact ⟨other,owned.2.1⟩
  have fewer : (x.held.erase page).length + 1 = x.held.length := List.length_erase_add_one member
  have room : HeapRoom limit x.kernel.heap.cursor (avail boot (pmmFreePage boot page x.kernel.pmm) (page :: free)).length
      (x.held.erase page).length := by
    refine inv.room.less ?_
    rw [avail_cons,List.length_cons]
    omega
  have heapOk := inv.mapped.heapOk
  refine ⟨⟨spaces,⟨?_,heapOk.low,room.window inv.top,heapOk.aligned⟩,⟨?_,?_,?_⟩⟩,inv.blocksOk,room,inv.top,?_,
    inv.once.erase page,?_⟩
  · exact fun v above => same.smallOn (adm_pathOf v (.inl rfl)) (heapOk.small v above)
  · intro v above inside
    obtain ⟨f,found,owned⟩ := inv.mapped.window.backed v above inside
    exact ⟨f,(frames v).trans found,keep f (fun same => inv.apart v f above inside found (same ▸ member)) owned⟩
  · intro v w f above above' inside inside' found found'
    rw [frames] at found found'
    exact inv.mapped.window.own v w f above above' inside inside' found found'
  · intro v above below outside
    rw [frames]
    exact inv.mapped.window.unmapped v above below outside
  · intro f listed
    have old := (inv.once.mem_erase_iff.mp listed)
    exact (inv.data f old.2).imp_right (keep f old.1)
  · intro v f above inside found listed
    rw [frames] at found
    exact inv.apart v f above inside found (List.mem_of_mem_erase listed)

/-- Writes into frames that are no tables and are not available. -/
theorem KernelInv.writes {owned : U64 → Prop} (ok : BootOk boot) (inv : KernelInv boot limit x free)
    (held : ∀ f, owned f → Held boot x.procs x.kernel.pmm free f)
    (outside : ∀ b, (∀ f, owned f → Clear f b) → mem b = x.kernel.pmm.mem b) :
    KernelInv boot limit (x.withMem mem) free := by
  obtain ⟨spaces,same⟩ := inv.mapped.spaces.writes ok held outside
  refine ⟨⟨spaces,?_,inv.mapped.window.write same⟩,inv.blocksOk,inv.room,inv.top,?_,inv.once,?_⟩
  · exact inv.mapped.heapOk.quiet same spaces.pmm.nodup fun _ member => member
  · exact fun f member => (inv.data f member).imp_right same.held
  · exact fun v f above inside found => inv.apart v f above inside ((same.heapFrame v).symm.trans found)

def HeapFrame (boot : Boot) (x : KernelState) (f : U64) : Prop :=
  ∃ v, aboveHeap v ∧ insideBlocks x.kernel.heap.blocks (v.toNat / 4096) ∧ heapFrame boot x.kernel.pmm v = some f

theorem KernelInv.heapHeld (inv : KernelInv boot limit x free) (frame : HeapFrame boot x f) :
    Held boot x.procs x.kernel.pmm free f := by
  obtain ⟨v,above,inside,found⟩ := frame
  obtain ⟨g,found',held⟩ := inv.mapped.window.backed v above inside
  rw [found',Option.some.injEq] at found
  exact found ▸ held

theorem KernelInv.write (ok : BootOk boot) (inv : KernelInv boot limit x free)
    (only : ∀ b, ¬Writable boot x b → mem b = x.kernel.pmm.mem b) : KernelInv boot limit (x.withMem mem) free := by
  have held : ∀ f, f ∈ x.held ∨ HeapFrame boot x f → Held boot x.procs x.kernel.pmm free f := by
    rintro f (listed | frame)
    · exact (inv.data f listed).2
    · exact inv.heapHeld frame
  refine inv.writes ok held fun b clear => only b ?_
  · rintro (⟨f,listed,low,high⟩ | ⟨c,listed,v,phys,low,high,found,rfl⟩)
    · have := clear f (.inl listed)
      unfold Clear at this
      omega
    · obtain ⟨start,aligned⟩ := inv.blocksOk.start c listed
      have above : aboveHeap v := by
        unfold aboveHeap at start ⊢
        omega
      have inside : insideBlocks x.kernel.heap.blocks (v.toNat / 4096) := by
        unfold Aligned at aligned
        exact ⟨c,listed,by omega,by omega⟩
      obtain ⟨f,frame,_⟩ := inv.mapped.window.backed v above inside
      obtain ⟨phys',found',value⟩ := inv.mapped.heapOk.translate above frame
      rw [found,Option.some.injEq] at found'
      subst found'
      have := clear f (.inr ⟨v,above,inside,frame⟩)
      unfold Clear at this
      omega

theorem KernelInv.create (ok : BootOk boot) (inv : KernelInv boot limit x free)
    (returns : pagingCreateAddressSpace boot x.kernel.pmm = .ok (pml4,s)) :
    ∃ rest, KernelInv boot limit ⟨{ x.kernel with pmm := s },pml4 :: x.procs,x.held⟩ rest := by
  obtain ⟨rest,created⟩ := pagingCreateAddressSpace_spec ok inv.mapped.spaces returns
  have frames : ∀ v, heapFrame boot s v = heapFrame boot x.kernel.pmm v := created.same.heapFrame
  have shorter := (List.subperm_of_subset created.spaces.pmm.nodup created.less).length_le
  have window := inv.mapped.window
  refine ⟨rest,⟨created.spaces,created.heapOk inv.mapped.heapOk,?_,?_,?_⟩,inv.blocksOk,
    inv.room.less (Nat.add_le_add_right shorter _),inv.top,?_,inv.once,?_⟩
  · intro v above inside
    obtain ⟨f,found,held⟩ := window.backed v above inside
    exact ⟨f,(frames v).trans found,created.held held⟩
  · intro v w f above above' inside inside' found found'
    rw [frames] at found found'
    exact window.own v w f above above' inside inside' found found'
  · intro v above below outside
    rw [frames]
    exact window.unmapped v above below outside
  · exact fun f member => (inv.data f member).imp_right created.held
  · exact fun v f above inside found => inv.apart v f above inside ((frames v).symm.trans found)

theorem PageOf.adm (page : PageOf boot procs pml4 virt) : Adm boot procs pml4 (pathOf virt) :=
  adm_pathOf virt (page.imp And.left id)

/-- No call on such a page reaches an entry of the heap. -/
theorem PageOf.other (page : PageOf boot procs pml4 virt) (sp : Spaces boot s free procs) (above : aboveHeap v) :
    ¬(boot.kernelPml4 = pml4 ∧ pathOf v = pathOf virt ∧ ptIndex v = ptIndex virt) := by
  rintro ⟨rfl,path,index⟩
  have upper := aboveHeap_upper above
  rcases page with ⟨_,lower | ⟨upper',below⟩⟩ | ⟨member,_⟩
  · have low := lower_index lower
    have high := upper_index upper
    simp only [pathOf,List.cons.injEq] at path
    omega
  · have number := (same_upper_page upper upper').mp ⟨path,index⟩
    unfold aboveHeap at above below
    rw [heapStart_toNat] at above below
    omega
  · exact sp.kernel member

theorem KernelInv.smallOn (inv : KernelInv boot limit x free) (page : PageOf boot x.procs pml4 virt)
    (small : pml4 = boot.kernelPml4 → inLargePage x.kernel.pmm.mem pml4 virt = false) :
    SmallOn x.kernel.pmm.mem pml4 virt := by
  rcases page with ⟨kernel,_⟩ | ⟨member,lower⟩
  · exact smallOn_of_not_inLargePage (small kernel)
  · exact inv.mapped.spaces.smallOn member (adm_pathOf virt (.inr ⟨member,lower⟩))

theorem KernelInv.updated (inv : KernelInv boot limit x free) (page : PageOf boot x.procs pml4 virt)
    (update : Updated boot x.procs x.kernel.pmm free pml4 (pathOf virt) (ptIndex virt) w s rest) :
    KernelInv boot limit (x.withPmm s) rest :=
  inv.evolves update.toEvolves fun _ above => page.other inv.mapped.spaces above

theorem KernelInv.map (ok : BootOk boot) (inv : KernelInv boot limit x free) (page : PageOf boot x.procs pml4 virt)
    (small : pml4 = boot.kernelPml4 → inLargePage x.kernel.pmm.mem pml4 virt = false)
    (returns : vmmMap boot pml4 virt phys flags x.kernel.pmm = .ok s) :
    ∃ rest, KernelInv boot limit (x.withPmm s) rest := by
  obtain ⟨rest,update⟩ := vmmMap_spec ok inv.mapped.spaces page.adm (inv.smallOn page small) returns
  exact ⟨rest,inv.updated page update⟩

theorem KernelInv.unmap (ok : BootOk boot) (inv : KernelInv boot limit x free) (page : PageOf boot x.procs pml4 virt)
    (small : pml4 = boot.kernelPml4 → inLargePage x.kernel.pmm.mem pml4 virt = false)
    (mapped : (mmuTranslate x.kernel.pmm.mem pml4 virt).isSome) :
    KernelInv boot limit (x.withPmm (vmmUnmap pml4 virt x.kernel.pmm)) free := by
  obtain ⟨pt,found⟩ := leafTable_of_mapped (inv.smallOn page small) mapped
  exact inv.updated page (vmmUnmap_spec ok inv.mapped.spaces page.adm found)

/-- New pages of the heap get frames that were available. -/
theorem requestLoop_source (ok : BootOk boot) (cpu : CpuOk boot) {k after : Kernel} {procs : List U64}
    (sp : Spaces boot k.pmm free procs) (heapOk : HeapOk boot k.pmm free k.heap)
    (returns : requestLoop boot pages k = .ok (served,after)) (above : aboveHeap v)
    (low : k.heap.cursor.toNat / 4096 ≤ v.toNat / 4096) (high : v.toNat / 4096 < k.heap.cursor.toNat / 4096 + pages)
    (found : heapFrame boot after.pmm v = some f) : f ∈ avail boot k.pmm free := by
  induction pages generalizing k free with
  | zero => omega
  | succ pages ih =>
    obtain ⟨⟨phys,pmm⟩,taken,returns⟩ := ok_of_bind returns
    obtain ⟨left,allocated⟩ := sp.alloc ok taken
    dsimp only at returns
    rw [if_neg (allocated.nonNull ok sp)] at returns
    obtain ⟨mapped,maps,returns⟩ := ok_of_bind returns
    have grown := allocated.evolves nowhere
    have selected : Adm boot procs boot.kernelPml4 (pathOf k.heap.cursor) := adm_pathOf _ (.inl rfl)
    obtain ⟨rest,update⟩ := vmmMap_spec ok grown.spaces selected
      (grown.smallOn selected (heapOk.small _ heapOk.low)) maps
    obtain ⟨step,heapOk',moved,_⟩ := heapOk.page allocated update
    by_cases here : v.toNat / 4096 = k.heap.cursor.toNat / 4096
    · obtain ⟨_,_,later⟩ := requestLoop_spec ok (k := ⟨mapped,{ k.heap with cursor := k.heap.cursor + 4096#64 }⟩)
        step.spaces heapOk' returns
      rw [later.evolves.heapFrame ?_,heapFrame_page above heapOk.low here] at found
      · have new := update.new
        rw [if_pos (leafEntry_present _ _ _)] at new
        have frame : heapFrame boot mapped k.heap.cursor = some phys := by
          unfold heapFrame leafOf
          rw [new,Option.map_some,leafEntry_frame cpu (vmmMap_reach maps) allocated.fresh.frame (by decide)]
        rw [frame,Option.some.injEq] at found
        exact found ▸ allocated.source
      · intro slot
        have := heapSlots_above (windowSlots_heap slot) heapOk'.low above
        dsimp only at this
        omega
    · refine step.less f (ih step.spaces heapOk' returns ?_ ?_)
      · dsimp only
        omega
      · dsimp only
        omega

def KernelState.withBlocks (x : KernelState) (blocks : List Block) : KernelState :=
  { x with kernel := { x.kernel with heap := { x.kernel.heap with blocks := blocks } } }

theorem KernelInv.setFree (inv : KernelInv boot limit x free) (base : U64) (flag : Bool) :
    KernelInv boot limit (x.withBlocks (Reddyos.setFree base flag x.kernel.heap.blocks)) free := by
  have blocksOk := inv.blocksOk.map (setFree_shape base flag)
  have same : ∀ n, insideBlocks x.kernel.heap.blocks n ↔ insideBlocks (Reddyos.setFree base flag x.kernel.heap.blocks) n :=
    fun n => (insideBlocks_map (setFree_shape base flag) n).symm
  have heapOk := inv.mapped.heapOk
  refine ⟨⟨inv.mapped.spaces,⟨heapOk.small,heapOk.low,heapOk.room,heapOk.aligned.cursor,?_⟩,
    inv.mapped.window.congr same⟩,blocksOk,inv.room,inv.top,inv.data,inv.once,?_⟩
  · exact fun b member => (blocksOk.start b member).2
  · exact fun v f above inside => inv.apart v f above ((same _).mpr inside)

theorem KernelInv.reuse (inv : KernelInv boot limit x free)
    (taken : takeBlock size x.kernel.heap.blocks = some (base,blocks)) :
    KernelInv boot limit (x.withBlocks blocks) free ∧ (∃ b ∈ blocks, b.base = base) ∧
      ∀ n, insideBlocks blocks n ↔ insideBlocks x.kernel.heap.blocks n := by
  obtain ⟨b,member,here⟩ := (takeBlock_base taken).1
  obtain rfl := takeBlock_setFree inv.blocksOk taken
  refine ⟨inv.setFree base false,⟨_,List.mem_map.mpr ⟨b,member,if_pos here⟩,here⟩,fun n => ?_⟩
  exact insideBlocks_map (setFree_shape base false) n

theorem KernelInv.extend (ok : BootOk boot) (cpu : CpuOk boot) (inv : KernelInv boot limit x free)
    (positive : 0 < pages.toNat) (returns : requestPages boot pages x.kernel = .ok (base,k)) :
    base = x.kernel.heap.cursor ∧ base ≠ 0#64 ∧ k.heap.blocks = x.kernel.heap.blocks ∧
      ∃ rest, KernelInv boot limit ({ x with kernel := k }.withBlocks (newBlock base pages :: k.heap.blocks)) rest := by
  obtain ⟨⟨served,k'⟩,looped,returns⟩ := ok_of_bind returns
  have heapOk := inv.mapped.heapOk
  obtain ⟨rfl,blocks,bytes,_,rest,evolves,mapped,blocksOk,room⟩ :=
    Mapped.grow ok cpu inv.mapped heapOk inv.room inv.blocksOk positive looped
  obtain ⟨rfl,rfl⟩ := ok_pair returns
  have others : ∀ v f, aboveHeap v → insideBlocks x.kernel.heap.blocks (v.toNat / 4096) →
      heapFrame boot k'.pmm v = some f → f ∉ x.held := by
    intro v f above inside found
    refine inv.apart v f above inside ((evolves.heapFrame fun slot => ?_).symm.trans found)
    obtain ⟨b,listed,low,high⟩ := inside
    have := heapSlots_above slot heapOk.low above
    have := inv.blocksOk.stop b listed
    omega
  refine ⟨rfl,nonNull_of_above heapOk.low,blocks,rest,?_⟩
  have listed : ({ x with kernel := ⟨k'.pmm,{ k'.heap with cursor := k'.heap.cursor + 4096#64 }⟩ } : KernelState).withBlocks
      (newBlock x.kernel.heap.cursor pages :: k'.heap.blocks) =
      ⟨⟨k'.pmm,⟨newBlock x.kernel.heap.cursor pages :: x.kernel.heap.blocks,k'.heap.cursor + 4096#64⟩⟩,x.procs,x.held⟩ := by
    rw [← blocks]
    rfl
  rw [listed]
  refine ⟨mapped,blocksOk,room,inv.top,fun f member => (inv.data f member).imp_right evolves.held,inv.once,?_⟩
  intro v f above inside found member
  by_cases old : insideBlocks x.kernel.heap.blocks (v.toNat / 4096)
  · exact others v f above old found member
  -- a new page has a frame that was available
  · obtain ⟨b,here,low,high⟩ := inside
    rcases List.mem_cons.mp here with rfl | here
    · refine (inv.data f member).2.2.1 ?_
      have base : (newBlock x.kernel.heap.cursor pages).base = x.kernel.heap.cursor := rfl
      have aligned : Aligned x.kernel.heap.cursor := heapOk.aligned.cursor
      unfold Aligned at aligned
      rw [Block.limit,base] at high
      rw [base] at low
      refine requestLoop_source ok cpu inv.mapped.spaces heapOk looped above ?_ ?_ found
      · omega
      · omega
    · exact old ⟨b,here,low,high⟩

theorem KernelInv.kmalloc (ok : BootOk boot) (cpu : CpuOk boot) (inv : KernelInv boot limit x free)
    (positive : takeBlock (roundSize size) x.kernel.heap.blocks = none → 0 < (blockPages size).toNat)
    (returns : Reddyos.kmalloc boot size x.kernel = .ok (ptr,k)) :
    KernelKept boot limit x { x with kernel := k } ∧ ∃ b ∈ k.heap.blocks, ptr = b.base + blockHeader := by
  unfold Reddyos.kmalloc at returns
  dsimp only at returns
  split at returns
  · rename_i base blocks taken
    obtain ⟨rfl,rfl⟩ := ok_pair returns
    obtain ⟨kept,⟨b,member,rfl⟩,same⟩ := inv.reuse taken
    exact ⟨⟨⟨free,kept⟩,fun n => (same n).mpr⟩,b,member,rfl⟩
  · rename_i missing
    change (requestPages boot (blockPages size) x.kernel >>= _) = _ at returns
    obtain ⟨⟨base,k'⟩,requested,returns⟩ := ok_of_bind returns
    obtain ⟨rfl,live,blocks,rest,kept⟩ := inv.extend ok cpu (positive missing) requested
    dsimp only at returns
    rw [if_neg live] at returns
    obtain ⟨rfl,rfl⟩ := ok_pair returns
    refine ⟨⟨⟨rest,kept⟩,fun n inside => ?_⟩,_,List.mem_cons_self,rfl⟩
    obtain ⟨b,member,bounds⟩ := inside
    exact ⟨b,List.mem_cons_of_mem _ (blocks ▸ member),bounds⟩

theorem KernelInv.kfree (inv : KernelInv boot limit x free) (ptr : U64) :
    KernelKept boot limit x { x with kernel := Reddyos.kfree ptr x.kernel } := by
  unfold Reddyos.kfree
  split
  · exact ⟨⟨free,inv⟩,fun _ => id⟩
  · refine ⟨⟨free,inv.setFree (ptr - blockHeader) true⟩,fun n inside => ?_⟩
    exact (insideBlocks_map (setFree_shape (ptr - blockHeader) true) n).mpr inside

theorem KernelInv.step (ok : BootOk boot) (cpu : CpuOk boot) (inv : KernelInv boot limit x free)
    (met : KernelGuard boot x e) (moves : KernelStep boot x e y) : KernelKept boot limit x y := by
  cases moves with
  | alloc returns => exact ⟨inv.alloc ok returns,fun _ => id⟩
  | free member => exact ⟨⟨_,inv.release ok member⟩,fun _ => id⟩
  | write only => exact ⟨⟨_,inv.write ok only⟩,fun _ => id⟩
  | create returns => exact ⟨inv.create ok returns,fun _ => id⟩
  | map page returns => exact ⟨inv.map ok page met returns,fun _ => id⟩
  | unmap page mapped => exact ⟨⟨_,inv.unmap ok page met mapped⟩,fun _ => id⟩
  | kmalloc returns => exact (inv.kmalloc ok cpu (fun _ => met) returns).1
  | kfree => exact inv.kfree _

theorem KernelKept.trans (first : ∀ n, insideBlocks x.kernel.heap.blocks n → insideBlocks y.kernel.heap.blocks n)
    (second : KernelKept boot limit y z) : KernelKept boot limit x z :=
  ⟨second.1,fun n inside => second.2 n (first n inside)⟩

theorem KernelInv.run (ok : BootOk boot) (cpu : CpuOk boot) (inv : KernelInv boot limit x free)
    (run : Run (fun s => s = x) (KernelStep boot) (KernelGuard boot) calls y) : KernelKept boot limit x y := by
  refine run.invariant (fun _ y => KernelKept boot limit x y) ?_ ?_
  · rintro y rfl
    exact ⟨⟨free,inv⟩,fun _ => id⟩
  · rintro calls y e z ⟨⟨rest,kept⟩,inside⟩ met moves
    exact .trans inside (kept.step ok cpu met moves)

theorem kernelRun_inv (ok : BootOk boot) (cpu : CpuOk boot)
    (run : Run (KernelStart boot limit) (KernelStep boot) (KernelGuard boot) calls x) :
    ∃ free, KernelInv boot limit x free := by
  refine run.invariant (fun _ x => ∃ free, KernelInv boot limit x free) (fun _ start => start.inv) ?_
  rintro calls x e y ⟨free,inv⟩ met moves
  exact (inv.step ok cpu met moves).1

end Reddyos
