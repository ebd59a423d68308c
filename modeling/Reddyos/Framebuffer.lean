import Reddyos.HeapPages

/-! The framebuffer device of `framebuffer/fb.c`: its back buffer lives on the kernel heap
and is also handed to processes page by page. -/
namespace Reddyos

open ByteMemory

/-- `struct limine_framebuffer`, the part `fb_init` reads. -/
structure LimineFramebuffer where
  address : U64
  width : U64
  height : U64
  pitch : U64
  bpp : BitVec 16

structure Framebuffer where
  front : U64
  back : U64
  width : U64
  height : U64
  pitch : U64
  bpp : BitVec 16
  size : U64
  deriving DecidableEq, Repr

def framebufferBytes : U64 := 64#64

/-- `memset` on addresses of the kernel, one page after the other; `fuel` is enough for all pages. -/
def kernelMemset (boot : Boot) (c : BitVec 8) : Nat → U64 → Nat → Mem → Except Stop Mem
  | 0, _, _, m => return m
  | fuel + 1, v, n, m =>
    if n = 0 then return m
    else
      match mmuTranslate m boot.kernelPml4 v with
      | none => throw (.panic "Page Fault (14)")
      | some phys =>
        let chunk := min n (4096 - v.toNat % 4096)
        kernelMemset boot c fuel (v + BitVec.ofNat 64 chunk) (n - chunk) (fill m phys.toNat c chunk)

/-- The first framebuffer of the boot loader. -/
def fbInit (boot : Boot) (limine : LimineFramebuffer) (k : Kernel) :
    Except Stop (Framebuffer × Kernel) := do
  if limine.address = 0#64 then
    throw (.panic "No framebuffer address provided by bootloader")
  let (fb,k) ← kmalloc boot framebufferBytes k
  if fb = 0#64 then
    throw (.panic "Failed to allocate memory for framebuffer")
  let size := limine.pitch * limine.height
  let (back,k) ← kmalloc boot size k
  if back = 0#64 then throw (.panic "BAD MEMSET")
  let mem ← kernelMemset boot 0#8 (size.toNat / 4096 + 2) back size.toNat k.pmm.mem
  return (⟨limine.address,back,limine.width,limine.height,limine.pitch,limine.bpp,size⟩,
    { k with pmm := { k.pmm with mem := mem } })

/-- A byte as the kernel sees it, when its page is mapped. -/
def kernelByte (boot : Boot) (m : Mem) (v : U64) : Option (BitVec 8) :=
  (mmuTranslate m boot.kernelPml4 v).map fun p => m p.toNat

/-- `fb` is null for a vnode without a device. -/
def fbVmaFault (boot : Boot) (fb : Option Framebuffer) (pml4 start pgoff page : U64) (s : Pmm) :
    Except Stop (Bool × Pmm) :=
  match fb with
  | none => return (false,s)
  | some fb => do
    let offset := (page - start) + pgoff
    if fb.size ≤ offset then return (false,s)
    let phys := (vmmLookup s.mem boot.kernelPml4 (fb.back + offset)).getD 0#64
    let s ← vmmMap boot pml4 page phys (pageUser ||| pageWritable) s
    return (true,s)

/-- The processor never changes the offset within a page. -/
theorem mmuTranslate_offset (found : mmuTranslate m root v = some phys) :
    phys.toNat % 4096 = v.toNat % 4096 := by
  have low : phys &&& 0xFFF#64 = v &&& 0xFFF#64 := by
    have keep : ∀ e mask fill : U64, mask &&& 0xFFF#64 = 0#64 → fill &&& 0xFFF#64 = 0xFFF#64 →
        ((e &&& mask) ||| (v &&& fill)) &&& 0xFFF#64 = v &&& 0xFFF#64 := by
      intro e mask fill clear full
      rw [BitVec.and_or_distrib_right,BitVec.and_assoc,BitVec.and_assoc,clear,full]
      simp
    unfold mmuTranslate at found
    dsimp only at found
    split at found
    · cases found
    split at found
    · cases found
    split at found
    · rw [← Option.some.inj found]; exact keep _ _ _ (by decide) (by decide)
    split at found
    · cases found
    split at found
    · rw [← Option.some.inj found]; exact keep _ _ _ (by decide) (by decide)
    split at found
    · cases found
    · rw [← Option.some.inj found]; exact keep _ _ _ (by decide) (by decide)
  have user := Words.toNat_and_low phys 12 (by decide)
  have virt := Words.toNat_and_low v 12 (by decide)
  rw [show BitVec.ofNat 64 (2^12 - 1) = 0xFFF#64 from rfl] at user virt
  rw [low,virt] at user
  exact user.symm

def fbBoot : Boot := ⟨[⟨0x100000#64,0x10000#64,0#64⟩],0xFFFF800000000000#64,0xFFFFFFFFFF#64,0x9000#64⟩

def fbStart : Kernel := ⟨pmmInit fbBoot ⟨fun _ => 0#8,0#64,0,0#64⟩,heapInit⟩

theorem fbBoot_frames : frames fbBoot =
    [0x100000#64,0x101000#64,0x102000#64,0x103000#64,0x104000#64,0x105000#64,0x106000#64,0x107000#64,
      0x108000#64,0x109000#64,0x10A000#64,0x10B000#64,0x10C000#64,0x10D000#64,0x10E000#64,0x10F000#64] := by
  decide +kernel

theorem fbBoot_ok : BootOk fbBoot where
  fits := by simp [fbBoot,Usable,limineMemmapUsable,MemmapEntry.limit]
  disjoint := by simp [fbBoot]
  nonNull := by rw [fbBoot_frames]; simp [Boot.virt,fbBoot]

theorem fbBoot_cpu : CpuOk fbBoot := ⟨40,by decide,rfl⟩

theorem fbBoot_tables : BootTables fbBoot (fun _ => 0#8) :=
  zero_tables (by simp [FrameOk,Aligned,fbBoot]) (by rw [fbBoot_frames]; simp [fbBoot])

theorem fbStart_ok : ∃ free, Spaces fbBoot fbStart.pmm free [] ∧ HeapOk fbBoot fbStart.pmm free fbStart.heap := by
  have few : heapStart.toNat + 8192 * (frames fbBoot).length < 2^64 := by
    rw [fbBoot_frames]
    decide
  have booted := boot_heap fbBoot_ok fbBoot_tables (fun v _ => smallOn_zero _ v) few
  unfold fbStart
  exact booted

end Reddyos
