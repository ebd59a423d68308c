import Reddyos.HeapBytes
import Mathlib.Data.List.Pairwise

/-! What every call of `kmalloc` and `kfree` keeps: the blocks lie behind each other with an
unmapped page between them, and the list in memory names all of them. -/
namespace Reddyos

open ByteMemory RadixForest LinkedChain

def Block.limit (b : Block) : Nat := b.base.toNat + 32 + b.size.toNat

def insideBlocks (blocks : List Block) (n : Nat) : Prop :=
  ∃ b ∈ blocks, b.base.toNat ≤ 4096 * n ∧ 4096 * n < b.limit

/-- Newest block first, each with a page to spare behind it. -/
structure BlocksOk (cursor : U64) (blocks : List Block) : Prop where
  start : ∀ b ∈ blocks, aboveHeap b.base ∧ Aligned b.base
  stop : ∀ b ∈ blocks, b.limit % 4096 = 0 ∧ b.limit + 4096 ≤ cursor.toNat
  apart : blocks.Pairwise fun b c => c.limit + 4096 ≤ b.base.toNat

structure Mapped (boot : Boot) (procs : List U64) (limit : Nat) (inside : Nat → Prop) (s : Pmm)
    (free : List U64) (heap : Heap) : Prop where
  spaces : Spaces boot s free procs
  heapOk : HeapOk boot s free heap
  window : Window boot procs s free limit inside

structure HeapInv (boot : Boot) (procs : List U64) (limit : Nat) (s : HeapBytes) (free : List U64)
    (blocks : List Block) : Prop where
  mapped : Mapped boot procs limit (insideBlocks blocks) s.pmm free ⟨blocks,s.cursor⟩
  room : s.cursor.toNat + 8192 * (avail boot s.pmm free).length ≤ limit
  blocksOk : BlocksOk s.cursor blocks
  list : BlockList boot s.pmm.mem s.head blocks

variable {boot : Boot} {procs : List U64} {limit : Nat} {inside : Nat → Prop} {s next : Pmm} {heap heap' : Heap}
variable {free rest : List U64} {blocks : List Block} {mem : Mem}

structure PageAt (boot : Boot) (procs : List U64) (s : Pmm) (free : List U64) (base f : U64) : Prop where
  aligned : Aligned base
  above : aboveHeap base
  found : heapFrame boot s base = some f
  held : Held boot procs s free f

theorem Mapped.page (mapped : Mapped boot procs limit inside s free heap) (aligned : Aligned base)
    (above : aboveHeap base) (here : inside (base.toNat / 4096)) : ∃ f, PageAt boot procs s free base f := by
  obtain ⟨f,found,held⟩ := mapped.window.backed base above here
  exact ⟨f,aligned,above,found,held⟩

theorem Mapped.write (ok : BootOk boot) (mapped : Mapped boot procs limit inside s free heap)
    (held : Held boot procs s free f) (outside : ∀ b, Clear f b → mem b = s.mem b) :
    Mapped boot procs limit inside { s with mem := mem } free heap ∧
      (∀ v, heapFrame boot { s with mem := mem } v = heapFrame boot s v) ∧
      ∀ g, Held boot procs s free g → Held boot procs { s with mem := mem } free g := by
  have owned : ∀ g ∈ [f], Held boot procs s free g := by simpa using held
  obtain ⟨spaces,same⟩ := mapped.spaces.write ok owned (fun b apart => outside b (apart f (by simp)))
  refine ⟨⟨spaces,?_,mapped.window.write same⟩,same.heapFrame,fun _ => same.held⟩
  exact mapped.heapOk.quiet same spaces.pmm.nodup (fun _ member => member)

theorem PageAt.write (page : PageAt boot procs s free base f)
    (frames : ∀ v, heapFrame boot { s with mem := mem } v = heapFrame boot s v)
    (holds : ∀ g, Held boot procs s free g → Held boot procs { s with mem := mem } free g) :
    PageAt boot procs { s with mem := mem } free base f :=
  ⟨page.aligned,page.above,(frames base).trans page.found,holds f page.held⟩

theorem PageAt.addr (page : PageAt boot procs s free base f) (heapOk : HeapOk boot s free heap)
    (offset : off.toNat < 4096) : kernelAddr boot s.mem (base + off) = .ok (f.toNat + off.toNat) :=
  heapOk.kernelAddr page.aligned page.above page.found offset

def HeaderKept (boot : Boot) (s next : Pmm) (base : U64) : Prop :=
  ∃ f, heapFrame boot s base = some f ∧ heapFrame boot next base = some f ∧
    ∀ b, f.toNat ≤ b → b < f.toNat + 32 → next.mem b = s.mem b

section

variable {base off : U64} {f : U64}

theorem load64_kept (heapOk : HeapOk boot s free heap) (heapOk' : HeapOk boot next rest heap')
    (aligned : Aligned base) (above : aboveHeap base) (found : heapFrame boot s base = some f)
    (found' : heapFrame boot next base = some f) (offset : off.toNat < 4096)
    (bytes : ∀ i < 8, next.mem (f.toNat + off.toNat + i) = s.mem (f.toNat + off.toNat + i)) :
    kernelLoad64 boot next.mem (base + off) = kernelLoad64 boot s.mem (base + off) := by
  unfold kernelLoad64
  rw [heapOk.kernelAddr aligned above found offset,heapOk'.kernelAddr aligned above found' offset]
  exact congrArg Except.ok (load64_congr bytes)

theorem load32_kept (heapOk : HeapOk boot s free heap) (heapOk' : HeapOk boot next rest heap')
    (aligned : Aligned base) (above : aboveHeap base) (found : heapFrame boot s base = some f)
    (found' : heapFrame boot next base = some f) (offset : off.toNat < 4096)
    (bytes : ∀ i < 4, next.mem (f.toNat + off.toNat + i) = s.mem (f.toNat + off.toNat + i)) :
    kernelLoad32 boot next.mem (base + off) = kernelLoad32 boot s.mem (base + off) := by
  unfold kernelLoad32
  rw [heapOk.kernelAddr aligned above found offset,heapOk'.kernelAddr aligned above found' offset]
  exact congrArg Except.ok (load32_congr bytes)

theorem magicAt_eq (base : U64) : magicAt base = base + 0#64 := (BitVec.add_zero base).symm

theorem HeaderKept.header (kept : HeaderKept boot s next b.base) (heapOk : HeapOk boot s free heap)
    (heapOk' : HeapOk boot next rest heap') (aligned : Aligned b.base) (above : aboveHeap b.base)
    (header : Header boot s.mem b) :
    Header boot next.mem b ∧ blockLink boot next.mem b = blockLink boot s.mem b := by
  obtain ⟨f,found,found',bytes⟩ := kept
  have word : ∀ off : U64, off.toNat + 8 ≤ 32 →
      kernelLoad64 boot next.mem (b.base + off) = kernelLoad64 boot s.mem (b.base + off) := by
    intro off inside
    exact load64_kept heapOk heapOk' aligned above found found' (by omega)
      (fun i bound => bytes _ (by omega) (by omega))
  have flag : kernelLoad32 boot next.mem (freeAt b.base) = kernelLoad32 boot s.mem (freeAt b.base) := by
    refine load32_kept heapOk heapOk' aligned above found found' (by decide) (fun i bound => bytes _ ?_ ?_)
    · omega
    · have : (16#64).toNat = 16 := rfl
      omega
  refine ⟨⟨?_,(word 8#64 (by decide)).trans header.size,flag.trans header.free⟩,word 24#64 (by decide)⟩
  rw [magicAt_eq,word 0#64 (by decide),← magicAt_eq]
  exact header.magic

end

theorem BlockList.map {g : Block → Block} (list : BlockList boot m head blocks)
    (same : ∀ b ∈ blocks, (g b).base = b.base ∧ Header boot m' (g b) ∧
      blockLink boot m' b = blockLink boot m b) : BlockList boot m' head (blocks.map g) where
  chain := by
    refine list.chain.map fun b member => ?_
    obtain ⟨base,_,link⟩ := same b member
    unfold blockPointer
    rw [base]
    refine ⟨rfl,?_⟩
    rw [← link]
    unfold blockLink
    rw [base]
  headers := by
    intro b member
    obtain ⟨old,listed,rfl⟩ := List.mem_map.mp member
    exact (same old listed).2.1

theorem BlockList.keep (list : BlockList boot s.mem head blocks) (heapOk : HeapOk boot s free heap)
    (heapOk' : HeapOk boot next rest heap') (start : ∀ b ∈ blocks, aboveHeap b.base ∧ Aligned b.base)
    (kept : ∀ b ∈ blocks, HeaderKept boot s next b.base) : BlockList boot next.mem head blocks := by
  have mapped : BlockList boot next.mem head (blocks.map id) := by
    refine list.map fun b member => ⟨rfl,?_⟩
    exact (kept b member).header heapOk heapOk' (start b member).2 (start b member).1 (list.headers b member)
  rwa [List.map_id] at mapped

def setFree (base : U64) (flag : Bool) (blocks : List Block) : List Block :=
  blocks.map fun b => if b.base = base then { b with free := flag } else b

theorem insideBlocks_map {g : Block → Block} (same : ∀ b, (g b).base = b.base ∧ (g b).limit = b.limit) (n : Nat) :
    insideBlocks (blocks.map g) n ↔ insideBlocks blocks n := by
  constructor
  · rintro ⟨b,member,low,high⟩
    obtain ⟨old,listed,rfl⟩ := List.mem_map.mp member
    rw [(same old).1] at low
    rw [(same old).2] at high
    exact ⟨old,listed,low,high⟩
  · rintro ⟨b,member,low,high⟩
    exact ⟨g b,List.mem_map_of_mem member,by rwa [(same b).1],by rwa [(same b).2]⟩

theorem BlocksOk.map {g : Block → Block} (blocksOk : BlocksOk cursor blocks)
    (same : ∀ b, (g b).base = b.base ∧ (g b).limit = b.limit) : BlocksOk cursor (blocks.map g) := by
  refine ⟨?_,?_,?_⟩
  · intro b member
    obtain ⟨old,listed,rfl⟩ := List.mem_map.mp member
    rw [(same old).1]
    exact blocksOk.start old listed
  · intro b member
    obtain ⟨old,listed,rfl⟩ := List.mem_map.mp member
    rw [(same old).2]
    exact blocksOk.stop old listed
  · refine List.pairwise_map.mpr (blocksOk.apart.imp fun {b c} apart => ?_)
    rw [(same b).1,(same c).2]
    exact apart

theorem setFree_shape (base : U64) (flag : Bool) (b : Block) :
    (if b.base = base then { b with free := flag } else b).base = b.base ∧
      (if b.base = base then { b with free := flag } else b).limit = b.limit := by
  split
  · exact ⟨rfl,rfl⟩
  · exact ⟨rfl,rfl⟩

variable {b c : Block} {t : HeapBytes}

theorem BlocksOk.first_page (blocksOk : BlocksOk cursor blocks) (member : b ∈ blocks) :
    insideBlocks blocks (b.base.toNat / 4096) := by
  have aligned := (blocksOk.start b member).2
  unfold Aligned at aligned
  exact ⟨b,member,by omega,by unfold Block.limit; omega⟩

theorem HeapInv.page (inv : HeapInv boot procs limit t free blocks) (member : b ∈ blocks) :
    ∃ f, PageAt boot procs t.pmm free b.base f := by
  obtain ⟨above,aligned⟩ := inv.blocksOk.start b member
  exact inv.mapped.page aligned above (inv.blocksOk.first_page member)

/-- Bytes outside the page of `v` are outside every header on another page. -/
theorem HeapInv.kept (inv : HeapInv boot procs limit t free blocks) (member : c ∈ blocks)
    (above : aboveHeap v) (inside : insideBlocks blocks (v.toNat / 4096))
    (found : heapFrame boot t.pmm v = some f) (frame : FrameOk f) (other : v.toNat / 4096 ≠ c.base.toNat / 4096)
    (same : ∀ w, heapFrame boot { t.pmm with mem := mem } w = heapFrame boot t.pmm w)
    (outside : ∀ b, Clear f b → mem b = t.pmm.mem b) :
    HeaderKept boot t.pmm { t.pmm with mem := mem } c.base := by
  obtain ⟨g,page⟩ := inv.page member
  refine ⟨g,page.found,(same c.base).trans page.found,fun b low high => outside b ?_⟩
  have different : g ≠ f := by
    rintro rfl
    exact other (inv.mapped.window.own v c.base g above page.above inside (inv.blocksOk.first_page member)
      found page.found)
  have := frames_apart page.held.1.1 frame.1 different
  unfold Clear
  omega

/-- Writing the flag of a header leaves the rest of it. -/
theorem Header.setFlag (header : Header boot s.mem c) (heapOk : HeapOk boot s free heap)
    (heapOk' : HeapOk boot { s with mem := mem } rest heap') (page : PageAt boot procs s free c.base f)
    (page' : PageAt boot procs { s with mem := mem } rest c.base f)
    (stored : mem = store32 s.mem (f.toNat + 16) (flagWord flag)) :
    Header boot mem { c with free := flag } ∧ blockLink boot mem c = blockLink boot s.mem c := by
  have words : ∀ off : U64, off.toNat + 8 ≤ 16 ∨ 20 ≤ off.toNat → off.toNat < 4096 →
      kernelLoad64 boot mem (c.base + off) = kernelLoad64 boot s.mem (c.base + off) := by
    intro off apart bound
    have bytes : ∀ i < 8, mem (f.toNat + off.toNat + i) = s.mem (f.toNat + off.toNat + i) := by
      intro i small
      rw [stored]
      exact store32_outside (by omega)
    have same := load64_kept heapOk heapOk' page.aligned page.above page.found page'.found bound bytes
    exact same
  refine ⟨⟨?_,(words 8#64 (by decide) (by decide)).trans header.size,?_⟩,words 24#64 (by decide) (by decide)⟩
  · have first := words 0#64 (by decide) (by decide)
    rw [← magicAt_eq] at first
    exact first.trans header.magic
  · have read : kernelAddr boot mem (c.base + 16#64) = .ok (f.toNat + 16) := page'.addr heapOk' (by decide)
    unfold kernelLoad32 freeAt
    rw [read,stored]
    exact congrArg Except.ok load32_store32_same

theorem HeapInv.setFree (ok : BootOk boot) (inv : HeapInv boot procs limit t free blocks) (member : b ∈ blocks)
    (flag : Bool) :
    ∃ mem, kernelStore32 boot (freeAt b.base) (flagWord flag) t.pmm.mem = .ok mem ∧
      HeapInv boot procs limit { t with pmm := { t.pmm with mem := mem } } free
        (Reddyos.setFree b.base flag blocks) := by
  obtain ⟨f,page⟩ := inv.page member
  have heapOk := inv.mapped.heapOk
  have outside : ∀ b, Clear f b → store32 t.pmm.mem (f.toNat + 16) (flagWord flag) b = t.pmm.mem b := by
    intro b apart
    unfold Clear at apart
    exact store32_outside (by omega)
  obtain ⟨mapped,frames,holds⟩ := inv.mapped.write ok page.held outside
  have page' := page.write frames holds
  refine ⟨store32 t.pmm.mem (f.toNat + 16) (flagWord flag),?_,⟨⟨mapped.spaces,?_,?_⟩,inv.room,?_,?_⟩⟩
  · unfold kernelStore32 freeAt
    rw [page.addr heapOk (by decide)]
    rfl
  · refine ⟨mapped.heapOk.small,mapped.heapOk.low,mapped.heapOk.room,mapped.heapOk.aligned.cursor,?_⟩
    exact fun c listed => ((inv.blocksOk.map (setFree_shape b.base flag)).start c listed).2
  · exact mapped.window.congr fun n => (insideBlocks_map (setFree_shape b.base flag) n).symm
  · exact inv.blocksOk.map (setFree_shape b.base flag)
  · refine inv.list.map fun c listed => ⟨(setFree_shape b.base flag c).1,?_⟩
    obtain ⟨above,aligned⟩ := inv.blocksOk.start c listed
    have header := inv.list.headers c listed
    by_cases here : c.base = b.base
    · rw [if_pos here]
      exact header.setFlag heapOk mapped.heapOk (here ▸ page) (here ▸ page') rfl
    · rw [if_neg here]
      refine (inv.kept listed page.above (inv.blocksOk.first_page member) page.found page.held.1 ?_ frames
        outside).header heapOk mapped.heapOk aligned above header
      intro same
      have first := page.aligned
      unfold Aligned at first aligned
      exact here (BitVec.eq_of_toNat_eq (by omega))

theorem BlocksOk.disjoint (blocksOk : BlocksOk cursor blocks) (first : b ∈ blocks) (second : c ∈ blocks)
    (different : b ≠ c) : c.limit + 4096 ≤ b.base.toNat ∨ b.limit + 4096 ≤ c.base.toNat := by
  let apart : Block → Block → Prop := fun b c => c.limit + 4096 ≤ b.base.toNat ∨ b.limit + 4096 ≤ c.base.toNat
  have symmetric : Std.Symm apart := ⟨fun _ _ => Or.symm⟩
  have pairwise : blocks.Pairwise apart := blocksOk.apart.imp .inl
  exact pairwise.forall first second different

/-- A page of one block is the first page of no other. -/
theorem BlocksOk.same_base (blocksOk : BlocksOk cursor blocks) (first : b ∈ blocks) (second : c ∈ blocks)
    (low : b.base.toNat ≤ x) (high : x < b.limit) (page : x / 4096 = c.base.toNat / 4096) : c = b := by
  by_contra different
  have aligned := (blocksOk.start b first).2
  have aligned' := (blocksOk.start c second).2
  have stop := (blocksOk.stop b first).1
  unfold Aligned at aligned aligned'
  rcases blocksOk.disjoint second first different with before | after
  · omega
  · unfold Block.limit at after
    omega

theorem HeapInv.store (ok : BootOk boot) (inv : HeapInv boot procs limit t free blocks) (member : b ∈ blocks)
    (low : b.base.toNat + 32 ≤ v.toNat) (high : v.toNat < b.limit) :
    ∃ mem, t.store boot v byte = .ok { t with pmm := { t.pmm with mem := mem } } ∧
      HeapInv boot procs limit { t with pmm := { t.pmm with mem := mem } } free blocks := by
  obtain ⟨start,aligned⟩ := inv.blocksOk.start b member
  have heapOk := inv.mapped.heapOk
  have above : aboveHeap v := by
    unfold aboveHeap at start ⊢
    omega
  have inside : insideBlocks blocks (v.toNat / 4096) := by
    unfold Aligned at aligned
    exact ⟨b,member,by omega,by omega⟩
  obtain ⟨f,found,held⟩ := inv.mapped.window.backed v above inside
  obtain ⟨phys,translated,value⟩ := heapOk.translate above found
  have outside : ∀ b, Clear f b → fill t.pmm.mem phys.toNat byte 1 b = t.pmm.mem b := by
    intro b apart
    unfold Clear at apart
    exact fill_outside (by omega)
  obtain ⟨mapped,frames,holds⟩ := inv.mapped.write ok held outside
  refine ⟨fill t.pmm.mem phys.toNat byte 1,?_,⟨mapped,inv.room,inv.blocksOk,?_⟩⟩
  · unfold HeapBytes.store kernelAddr
    rw [translated]
    rfl
  · refine inv.list.keep heapOk mapped.heapOk inv.blocksOk.start fun c listed => ?_
    by_cases page : v.toNat / 4096 = c.base.toNat / 4096
    -- on the first page of its own block the byte is behind the header
    · obtain rfl := inv.blocksOk.same_base member listed (by omega) high page
      have same : heapFrame boot t.pmm c.base = some f :=
        (heapFrame_page above start page).symm.trans found
      refine ⟨f,same,(frames c.base).trans same,fun x first last => fill_outside ?_⟩
      unfold Aligned at aligned
      omega
    · exact inv.kept listed above inside found held.1 page frames outside

structure Stored (boot : Boot) (procs : List U64) (limit : Nat) (inside : Nat → Prop) (s : Pmm)
    (free : List U64) (heap : Heap) (base f : U64) (mem : Mem) : Prop where
  mapped : Mapped boot procs limit inside { s with mem := mem } free heap
  page : PageAt boot procs { s with mem := mem } free base f
  frames : ∀ v, heapFrame boot { s with mem := mem } v = heapFrame boot s v
  outside : ∀ b, Clear f b → mem b = s.mem b

section

variable {base f off : U64}

theorem PageAt.stored (ok : BootOk boot) (mapped : Mapped boot procs limit inside s free heap)
    (page : PageAt boot procs s free base f) (outside : ∀ b, Clear f b → mem b = s.mem b) :
    Stored boot procs limit inside s free heap base f mem := by
  obtain ⟨mapped',frames,holds⟩ := mapped.write ok page.held outside
  exact ⟨mapped',page.write frames holds,frames,outside⟩

theorem Stored.trans (first : Stored boot procs limit inside s free heap base f mem)
    (second : Stored boot procs limit inside { s with mem := mem } free heap base f mem') :
    Stored boot procs limit inside s free heap base f mem' where
  mapped := second.mapped
  page := second.page
  frames := fun v => (second.frames v).trans (first.frames v)
  outside := fun b apart => (second.outside b apart).trans (first.outside b apart)

theorem Mapped.store64 (ok : BootOk boot) (mapped : Mapped boot procs limit inside s free heap)
    (page : PageAt boot procs s free base f) (offset : off.toNat + 8 ≤ 4096) (w : U64) :
    ∃ mem, kernelStore64 boot (base + off) w s.mem = .ok mem ∧
      mem = ByteMemory.store64 s.mem (f.toNat + off.toNat) w ∧
      Stored boot procs limit inside s free heap base f mem := by
  refine ⟨_,?_,rfl,page.stored ok mapped fun b apart => ?_⟩
  · unfold kernelStore64
    rw [page.addr mapped.heapOk (by omega)]
    rfl
  · unfold Clear at apart
    exact store64_outside (by omega)

theorem Mapped.store32 (ok : BootOk boot) (mapped : Mapped boot procs limit inside s free heap)
    (page : PageAt boot procs s free base f) (offset : off.toNat + 4 ≤ 4096) (w : BitVec 32) :
    ∃ mem, kernelStore32 boot (base + off) w s.mem = .ok mem ∧
      mem = ByteMemory.store32 s.mem (f.toNat + off.toNat) w ∧
      Stored boot procs limit inside s free heap base f mem := by
  refine ⟨_,?_,rfl,page.stored ok mapped fun b apart => ?_⟩
  · unfold kernelStore32
    rw [page.addr mapped.heapOk (by omega)]
    rfl
  · unfold Clear at apart
    exact store32_outside (by omega)

theorem writeHeader_spec (ok : BootOk boot) (mapped : Mapped boot procs limit inside s free heap)
    (page : PageAt boot procs s free base f) (size head : U64) :
    ∃ mem, writeHeader boot base size head s.mem = .ok mem ∧
      Stored boot procs limit inside s free heap base f mem ∧ Header boot mem ⟨base,size,false⟩ ∧
      kernelLoad64 boot mem (nextAt base) = .ok head := by
  obtain ⟨m₁,first,same₁,stored₁⟩ := mapped.store64 ok page (show (0#64).toNat + 8 ≤ 4096 by decide) blockMagic
  obtain ⟨m₂,second,same₂,stored₂⟩ := stored₁.mapped.store64 ok stored₁.page (show (8#64).toNat + 8 ≤ 4096 by decide) size
  obtain ⟨m₃,third,same₃,stored₃⟩ := stored₂.mapped.store32 ok stored₂.page (show (16#64).toNat + 4 ≤ 4096 by decide) 0#32
  obtain ⟨m₄,fourth,same₄,stored₄⟩ := stored₃.mapped.store64 ok stored₃.page (show (24#64).toNat + 8 ≤ 4096 by decide) head
  have stored := ((stored₁.trans stored₂).trans stored₃).trans stored₄
  have word : ∀ off : U64, off.toNat < 4096 →
      kernelLoad64 boot m₄ (base + off) = .ok (load64 m₄ (f.toNat + off.toNat)) := by
    intro off bound
    have addr := stored.page.addr stored.mapped.heapOk bound
    dsimp only at addr
    unfold kernelLoad64
    rw [addr]
    rfl
  change m₁ = ByteMemory.store64 s.mem (f.toNat + 0) blockMagic at same₁
  change m₂ = ByteMemory.store64 m₁ (f.toNat + 8) size at same₂
  change m₃ = ByteMemory.store32 m₂ (f.toNat + 16) 0#32 at same₃
  change m₄ = ByteMemory.store64 m₃ (f.toNat + 24) head at same₄
  -- each word is apart from those stored after it
  have last : load64 m₄ (f.toNat + 24) = head := by rw [same₄]; exact load64_store64_same
  have late : ∀ a, a + 8 ≤ f.toNat + 16 → load64 m₄ a = load64 m₂ a := by
    intro a below
    refine load64_congr fun i bound => ?_
    rw [same₄,store64_outside (by omega),same₃,store32_outside (by omega)]
  have magic : load64 m₄ (f.toNat + 0) = blockMagic := by
    rw [late _ (by omega),same₂,load64_store64_apart (by omega),same₁]
    exact load64_store64_same
  have sized : load64 m₄ (f.toNat + 8) = size := by
    rw [late _ (by omega),same₂]
    exact load64_store64_same
  have flag : load32 m₄ (f.toNat + 16) = 0#32 := by
    have same : load32 m₄ (f.toNat + 16) = load32 m₃ (f.toNat + 16) := by
      refine load32_congr fun i bound => ?_
      rw [same₄,store64_outside (by omega)]
    rw [same,same₃]
    exact load32_store32_same
  refine ⟨m₄,?_,stored,⟨?_,?_,?_⟩,?_⟩
  · unfold writeHeader
    rw [magicAt_eq,first]
    change (kernelStore64 boot (sizeAt base) size m₁ >>= _) = _
    unfold sizeAt
    rw [second]
    change (kernelStore32 boot (freeAt base) 0#32 m₂ >>= _) = _
    unfold freeAt
    rw [third]
    exact fourth
  · dsimp only
    rw [magicAt_eq,word 0#64 (by decide)]
    exact congrArg Except.ok magic
  · exact (word 8#64 (by decide)).trans (congrArg Except.ok sized)
  · have addr : kernelAddr boot m₄ (base + 16#64) = .ok (f.toNat + 16) :=
      stored.page.addr stored.mapped.heapOk (by decide)
    unfold kernelLoad32 freeAt
    rw [addr]
    exact congrArg Except.ok flag
  · exact (word 24#64 (by decide)).trans (congrArg Except.ok last)

end

theorem heapSlots_above {cursor v : U64} (slot : heapSlots boot cursor root (pathOf v) (ptIndex v))
    (low : aboveHeap cursor) (above : aboveHeap v) : cursor.toNat / 4096 ≤ v.toNat / 4096 := by
  obtain ⟨_,w,above_cursor,path,index⟩ := slot
  unfold aboveHeap at low
  have page := (same_heap_page above (show aboveHeap w by unfold aboveHeap; omega)).mp ⟨path,index⟩
  omega

theorem insideBlocks_cons (aligned : Aligned b.base) (whole : b.limit = b.base.toNat + 4096 * pages) (n : Nat) :
    insideBlocks blocks n ∨ b.base.toNat / 4096 ≤ n ∧ n < b.base.toNat / 4096 + pages ↔
      insideBlocks (b :: blocks) n := by
  unfold insideBlocks Aligned at *
  constructor
  · rintro (⟨c,member,inside⟩ | range)
    · exact ⟨c,by simp [member],inside⟩
    · exact ⟨b,by simp,by omega,by omega⟩
  · rintro ⟨c,member,inside⟩
    rcases List.mem_cons.mp member with rfl | old
    · exact .inr (by omega)
    · exact .inl ⟨c,old,inside⟩

def newBlock (base pages : U64) : Block := ⟨base,pages * 4096#64 - blockHeader,false⟩

theorem newBlock_size (fits : 4096 * pages.toNat < 2^64) (positive : 0 < pages.toNat) :
    (newBlock base pages).size.toNat + 32 = 4096 * pages.toNat := by
  have product : (pages * 4096#64).toNat = 4096 * pages.toNat := by
    rw [BitVec.toNat_mul,show (4096#64).toNat = 4096 from rfl,Nat.mul_comm]
    exact Nat.mod_eq_of_lt fits
  unfold newBlock blockHeader
  dsimp only
  bv_omega

/-- The pages behind the cursor and a page to spare, before anything is written. -/
theorem Mapped.grow {k k' : Kernel} (ok : BootOk boot) (cpu : CpuOk boot)
    (mapped : Mapped boot procs limit (insideBlocks blocks) k.pmm free ⟨blocks,k.heap.cursor⟩)
    (heapOk : HeapOk boot k.pmm free k.heap)
    (fits : k.heap.cursor.toNat + 8192 * (avail boot k.pmm free).length + spare ≤ limit)
    (old : BlocksOk k.heap.cursor blocks) (positive : 0 < pages.toNat)
    (looped : requestLoop boot pages.toNat k = .ok (served,k')) :
    served = true ∧ k'.heap.blocks = k.heap.blocks ∧ (newBlock k.heap.cursor pages).size.toNat + 32 = 4096 * pages.toNat ∧
      (k'.heap.cursor + 4096#64).toNat = k.heap.cursor.toNat + 4096 * pages.toNat + 4096 ∧
      ∃ rest, Evolves boot procs (heapSlots boot k.heap.cursor) k.pmm free k'.pmm rest ∧
        Mapped boot procs limit (insideBlocks (newBlock k.heap.cursor pages :: blocks)) k'.pmm rest
          ⟨newBlock k.heap.cursor pages :: blocks,k'.heap.cursor + 4096#64⟩ ∧
        BlocksOk (k'.heap.cursor + 4096#64) (newBlock k.heap.cursor pages :: blocks) ∧
        (k'.heap.cursor + 4096#64).toNat + 8192 * (avail boot k'.pmm rest).length + spare ≤ limit := by
  obtain ⟨served,rest,⟨evolves,cursor,taken⟩,heapOk',same,window⟩ :=
    requestLoop_window ok cpu mapped.spaces heapOk mapped.window looped
  replace evolves := evolves.weaken fun _ _ _ => windowSlots_heap
  have low : aboveHeap k.heap.cursor := heapOk.low
  have aligned : Aligned k.heap.cursor := heapOk.aligned.cursor
  have room : k.heap.cursor.toNat + 8192 * (avail boot k.pmm free).length < 2^64 := heapOk.room
  have moved : (k'.heap.cursor + 4096#64).toNat = k.heap.cursor.toNat + 4096 * pages.toNat + 4096 := by
    rw [toNat_add_page (by omega),cursor]
  have bytes : (newBlock k.heap.cursor pages).size.toNat + 32 = 4096 * pages.toNat :=
    newBlock_size (by omega) positive
  have whole : (newBlock k.heap.cursor pages).limit = k.heap.cursor.toNat + 4096 * pages.toNat := by
    have base : (newBlock k.heap.cursor pages).base = k.heap.cursor := rfl
    rw [Block.limit,base]
    omega
  have blocksOk : BlocksOk (k'.heap.cursor + 4096#64) (newBlock k.heap.cursor pages :: blocks) := by
    refine ⟨?_,?_,List.pairwise_cons.mpr ⟨fun c listed => (old.stop c listed).2,old.apart⟩⟩
    · intro b member
      rcases List.mem_cons.mp member with rfl | listed
      · exact ⟨low,aligned⟩
      · exact old.start b listed
    · intro b member
      rw [moved]
      rcases List.mem_cons.mp member with rfl | listed
      · rw [whole]
        unfold Aligned at aligned
        omega
      · have := old.stop b listed
        omega
  refine ⟨served,same,bytes,moved,rest,evolves,⟨evolves.spaces,?_,?_⟩,blocksOk,by omega⟩
  · refine ⟨heapOk'.small,?_,?_,aligned_add heapOk'.aligned.cursor,fun b member => (blocksOk.start b member).2⟩
    · unfold aboveHeap at low
      dsimp only
      omega
    · dsimp only
      omega
  · exact window.congr (insideBlocks_cons aligned whole)

theorem HeapInv.grow (ok : BootOk boot) (cpu : CpuOk boot) (inv : HeapInv boot procs limit t free blocks)
    (positive : 0 < pages.toNat)
    (looped : requestLoop boot pages.toNat ⟨t.pmm,⟨[],t.cursor⟩⟩ = .ok (served,k)) :
    served = true ∧ (newBlock t.cursor pages).size.toNat + 32 = 4096 * pages.toNat ∧
      (k.heap.cursor + 4096#64).toNat = t.cursor.toNat + 4096 * pages.toNat + 4096 ∧
      ∃ rest, Evolves boot procs (heapSlots boot t.cursor) t.pmm free k.pmm rest ∧
        Mapped boot procs limit (insideBlocks (newBlock t.cursor pages :: blocks)) k.pmm rest
          ⟨newBlock t.cursor pages :: blocks,k.heap.cursor + 4096#64⟩ ∧
        BlocksOk (k.heap.cursor + 4096#64) (newBlock t.cursor pages :: blocks) ∧
        (k.heap.cursor + 4096#64).toNat + 8192 * (avail boot k.pmm rest).length ≤ limit := by
  have heapOk := inv.mapped.heapOk
  have bare : HeapOk boot t.pmm free ⟨[],t.cursor⟩ :=
    ⟨heapOk.small,heapOk.low,heapOk.room,heapOk.aligned.cursor,nofun⟩
  have fits : t.cursor.toNat + 8192 * (avail boot t.pmm free).length + 0 ≤ limit := inv.room
  obtain ⟨served,_,bytes,moved,rest,evolves,mapped,blocksOk,room⟩ :=
    Mapped.grow (k := ⟨t.pmm,⟨[],t.cursor⟩⟩) ok cpu inv.mapped bare fits inv.blocksOk positive looped
  exact ⟨served,bytes,moved,rest,evolves,mapped,blocksOk,by omega⟩

/-- Growing the heap and writing the new header leaves the other headers alone. -/
theorem HeapInv.grow_kept (ok : BootOk boot) (inv : HeapInv boot procs limit t free blocks)
    (evolves : Evolves boot procs (heapSlots boot t.cursor) t.pmm free next rest)
    (mapped : Mapped boot procs limit (insideBlocks (b :: blocks)) next rest heap)
    (blocksOk : BlocksOk cursor (b :: blocks)) (new : b.base = t.cursor)
    (page : PageAt boot procs next rest b.base f)
    (stored : Stored boot procs limit (insideBlocks (b :: blocks)) next rest heap b.base f mem)
    (old : c ∈ blocks) : HeaderKept boot t.pmm { next with mem := mem } c.base := by
  obtain ⟨g,pageC⟩ := inv.page old
  have before := (inv.blocksOk.stop c old).2
  unfold Block.limit at before
  have later : heapFrame boot next c.base = heapFrame boot t.pmm c.base := by
    refine evolves.heapFrame fun slot => ?_
    have := heapSlots_above slot inv.mapped.heapOk.low pageC.above
    omega
  have different : g ≠ f := by
    rintro rfl
    have same := mapped.window.own c.base b.base g pageC.above page.above
      (blocksOk.first_page (List.mem_cons_of_mem _ old)) (blocksOk.first_page List.mem_cons_self)
      (later.trans pageC.found) page.found
    rw [new] at same
    omega
  have apart := frames_apart pageC.held.1.1 page.held.1.1 different
  refine ⟨g,pageC.found,(stored.frames c.base).trans (later.trans pageC.found),fun x first last => ?_⟩
  dsimp only
  rw [stored.outside x (by unfold Clear; omega)]
  exact evolves.bytes ok inv.mapped.spaces pageC.held first (by omega)

/-- `request_pages` and the new header in front of the list. -/
theorem HeapInv.request (ok : BootOk boot) (cpu : CpuOk boot) (inv : HeapInv boot procs limit t free blocks)
    (positive : 0 < pages.toNat) (returns : requestPages boot pages ⟨t.pmm,⟨[],t.cursor⟩⟩ = .ok (base,k)) :
    base = t.cursor ∧ base ≠ 0#64 ∧ t.cursor.toNat < k.heap.cursor.toNat ∧
      (newBlock base pages).size.toNat + 32 = 4096 * pages.toNat ∧
      ∃ rest mem, writeHeader boot base (newBlock base pages).size t.head k.pmm.mem = .ok mem ∧
        HeapInv boot procs limit ⟨{ k.pmm with mem := mem },base,k.heap.cursor⟩ rest
          (newBlock base pages :: blocks) := by
  obtain ⟨⟨served,k'⟩,looped,returns⟩ := ok_of_bind returns
  obtain ⟨rfl,bytes,moved,rest,evolves,mapped,blocksOk,room⟩ := inv.grow ok cpu positive looped
  obtain ⟨rfl,rfl⟩ := ok_pair returns
  dsimp only
  obtain ⟨low,aligned⟩ := blocksOk.start _ List.mem_cons_self
  obtain ⟨f,page⟩ := mapped.page aligned low (blocksOk.first_page List.mem_cons_self)
  obtain ⟨mem,written,stored,header,linked⟩ :=
    writeHeader_spec ok mapped page (newBlock t.cursor pages).size t.head
  have nonNull : t.cursor ≠ 0#64 := nonNull_of_above low
  have old := inv.list.keep inv.mapped.heapOk stored.mapped.heapOk inv.blocksOk.start
    fun c => inv.grow_kept ok evolves mapped blocksOk rfl page stored
  refine ⟨rfl,nonNull,by omega,bytes,rest,mem,written,⟨stored.mapped,room,blocksOk,⟨?_,?_⟩⟩⟩
  · refine ⟨rfl,fun zero => nonNull (Except.ok.inj zero),?_⟩
    change Chain _ _ _ (kernelLoad64 boot mem (nextAt t.cursor)) _
    change kernelLoad64 boot mem (nextAt t.cursor) = _ at linked
    rw [linked]
    exact old.chain
  · intro b member
    rcases List.mem_cons.mp member with rfl | listed
    · exact header
    · exact old.headers b listed

end Reddyos
