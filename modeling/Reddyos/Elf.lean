import Reddyos.HeapPages

/-! The ELF loader of `kernel_common/elf.c` over files of the tar file system. File bytes
are read through the file's own offset; memory is written through the direct map, at the
physical address `vmm_lookup_ap` finds. -/
namespace Reddyos

open ByteMemory

/-- A file of the archive; its bytes lie behind its header in physical memory. -/
structure Vnode where
  size : U64
  data : Nat → BitVec 8
  fits : size.toNat ≤ 2^52

structure File where
  vnode : Vnode
  offset : U64

def tarRead (vnode : Vnode) (offset : U64) (buffer : Nat) (size : U64) (m : Mem) : Int × Mem :=
  if vnode.size ≤ offset then (0,m)
  else
    let size := if vnode.size < offset + size then vnode.size - offset else size
    ((size.setWidth 32).toInt,copy m buffer (fun i => vnode.data (offset.toNat + i)) size.toNat)

def File.advance (file : File) (read : Int) : File :=
  if 0 < read then { file with offset := file.offset + BitVec.ofInt 64 read } else file

def vfsRead (file : File) (buffer : Nat) (size : U64) (m : Mem) : Int × File × Mem :=
  let (read,m) := tarRead file.vnode file.offset buffer size m
  (read,file.advance read,m)

/-- The loop of `read_exact`; `fuel` is the size, as every round reads something. -/
def readLoop : Nat → File → Nat → U64 → Mem → Bool × File × Mem
  | 0, file, _, _, m => (true,file,m)
  | fuel + 1, file, out, size, m =>
    if size = 0#64 then (true,file,m)
    else
      let (read,file,m) := vfsRead file out size m
      if read ≤ 0 then (false,file,m)
      else readLoop fuel file (out + read.toNat) (size - BitVec.ofInt 64 read) m

/-- `none` is a null buffer. -/
def readExact (file : File) (buffer : Option Nat) (size : U64) (m : Mem) : Bool × File × Mem :=
  match buffer with
  | none => (false,file,m)
  | some out => readLoop size.toNat file out size m

structure ElfHeader where
  magic : List (BitVec 8)
  class' : BitVec 8
  data : BitVec 8
  version : BitVec 8
  machine : BitVec 16
  version2 : BitVec 32
  entry : U64
  phoff : U64
  phentsize : BitVec 16
  phnum : BitVec 16
  deriving DecidableEq, Repr

structure ElfPhdr where
  type : BitVec 32
  flags : BitVec 32
  offset : U64
  vaddr : U64
  filesz : U64
  memsz : U64
  deriving DecidableEq, Repr

def elfHeaderBytes : U64 := 64#64
def elfPhdrBytes : U64 := 56#64

def parseHeader (m : Mem) : ElfHeader :=
  ⟨[m 0,m 1,m 2,m 3],m 4,m 5,m 6,load16 m 18,load32 m 20,load64 m 24,load64 m 32,load16 m 54,load16 m 56⟩

def parsePhdr (m : Mem) : ElfPhdr :=
  ⟨load32 m 0,load32 m 4,load64 m 8,load64 m 16,load64 m 32,load64 m 40⟩

def readElfHeader (vnode : Vnode) : Option ElfHeader :=
  let (read,_,m) := readExact ⟨vnode,0#64⟩ (some 0) elfHeaderBytes (fun _ => 0#8)
  let header := parseHeader m
  if !read then none
  else if header.magic ≠ [0x7F#8,0x45#8,0x4C#8,0x46#8] then none
  else if header.class' ≠ 2#8 ∨ header.data ≠ 1#8 ∨ header.version ≠ 1#8 ∨ header.version2 ≠ 1#32 ∨
      header.machine ≠ 62#16 then none
  else if header.phentsize ≠ elfPhdrBytes.setWidth 16 then none
  else some header

def readPhdr (vnode : Vnode) (header : ElfHeader) (i : Nat) : Option ElfPhdr :=
  let offset := header.phoff + BitVec.ofNat 64 i * header.phentsize.setWidth 64
  let (read,_,m) := readExact ⟨vnode,offset⟩ (some 0) elfPhdrBytes (fun _ => 0#8)
  if read then some (parsePhdr m) else none

def ptLoad : BitVec 32 := 1#32
def pfX : BitVec 32 := 1#32
def pfW : BitVec 32 := 2#32

def segmentFlags (elfFlags : BitVec 32) : U64 :=
  let flags := pageUser ||| pagePresent
  let flags := if elfFlags &&& pfW ≠ 0#32 then flags ||| pageWritable else flags
  if elfFlags &&& pfX = 0#32 then flags ||| pageNx else flags

structure ElfInfo where
  entry : U64
  base : U64
  phdr : U64
  phnum : BitVec 16
  phentsize : BitVec 16
  deriving DecidableEq, Repr

/-- Where the program headers lie in the image: the loop of `elf_read_info` from header
`i` on, `none` when a header cannot be read. -/
def findPhdr (vnode : Vnode) (header : ElfHeader) : List Nat → Option U64
  | [] => some 0#64
  | i :: rest =>
    match readPhdr vnode header i with
    | none => none
    | some ph =>
      if ph.type ≠ ptLoad then findPhdr vnode header rest
      else if ph.offset ≤ header.phoff ∧ header.phoff < ph.offset + ph.filesz then
        some (ph.vaddr + (header.phoff - ph.offset))
      else if ph.offset = 0#64 then some (ph.vaddr + header.phoff)
      else findPhdr vnode header rest

def elfReadInfo (vnode : Vnode) : Option ElfInfo := do
  let header ← readElfHeader vnode
  let phdr ← findPhdr vnode header (List.range header.phnum.toNat)
  return ⟨header.entry,0#64,phdr,header.phnum,header.phentsize⟩

/-- `while (offset < total)` in steps of at most a page; `fuel` exceeds the number of pages.
The body gets the offset and the size of its chunk and says whether to go on. -/
def forChunks (body : U64 → U64 → σ → Except Stop (Bool × σ)) (total : U64) :
    Nat → U64 → σ → Except Stop (Bool × σ)
  | 0, _, st => return (true,st)
  | fuel + 1, offset, st =>
    if offset < total then do
      let chunk := if 4096#64 < total - offset then 4096#64 else total - offset
      let (goOn,st) ← body offset chunk st
      if goOn then forChunks body total fuel (offset + chunk) st else return (false,st)
    else return (true,st)

/-- One round of the loop that reads the segment from the file. -/
def copyChunk (pml4 vaddr : U64) (offset chunk : U64) (st : File × Pmm) : Except Stop (Bool × File × Pmm) :=
  let (file,s) := st
  let buffer := (vmmLookup s.mem pml4 (vaddr + offset)).map BitVec.toNat
  let (read,file,m) := readExact file buffer chunk s.mem
  return (read,file,{ s with mem := m })

/-- One round of the loop that clears the rest; `memset` refuses a null pointer. -/
def zeroChunk (pml4 vaddr : U64) (offset chunk : U64) (s : Pmm) : Except Stop (Bool × Pmm) :=
  match vmmLookup s.mem pml4 (vaddr + offset) with
  | none => throw (.panic "BAD MEMSET")
  | some phys => return (true,{ s with mem := fill s.mem phys.toNat 0#8 chunk.toNat })

/-- The pages of a segment, first page first; `none` when the allocator gives a null page,
and those taken so far are returned. -/
def allocPages (boot : Boot) : Nat → List U64 → Pmm → Except Stop (Option (List U64) × Pmm)
  | 0, pages, s => return (some pages,s)
  | count + 1, pages, s => do
    let (page,s) ← pmmAllocPage boot s
    if page = 0#64 then return (none,pages.foldl (fun s page => pmmFreePage boot page s) s)
    allocPages boot count (pages ++ [page]) s

def mapPages (boot : Boot) (pml4 mapStart flags : U64) : Nat → List U64 → Pmm → Except Stop (Bool × Pmm)
  | _, [], s => return (true,s)
  | page, phys :: rest, s => do
    if phys = 0#64 then return (false,s)
    let s ← vmmMap boot pml4 (mapStart + (BitVec.ofNat 64 page <<< 12)) phys flags s
    mapPages boot pml4 mapStart flags (page + 1) rest s

def pageCount (ph : ElfPhdr) : U64 := (alignUp (ph.vaddr + ph.memsz) - alignDown ph.vaddr) >>> 12

def fillSegment (pml4 : U64) (vnode : Vnode) (ph : ElfPhdr) (s : Pmm) : Except Stop (Bool × Pmm) := do
  let (read,_,s) ← forChunks (copyChunk pml4 ph.vaddr) ph.filesz (ph.filesz.toNat / 4096 + 1) 0#64
    (⟨vnode,ph.offset⟩,s)
  if !read then return (false,s)
  let extra := ph.memsz - ph.filesz
  forChunks (zeroChunk pml4 (ph.vaddr + ph.filesz)) extra (extra.toNat / 4096 + 1) 0#64 s

/-- One program header. The array of pages is never freed again once all are there. -/
def loadSegment (boot : Boot) (pml4 : U64) (vnode : Vnode) (ph : ElfPhdr) (k : Kernel) :
    Except Stop (Bool × Kernel) := do
  if ph.type ≠ ptLoad then return (true,k)
  if ph.memsz < ph.filesz then return (false,k)
  if pageCount ph = 0#64 then return (true,k)
  let (physPages,k) ← kmalloc boot (8#64 * pageCount ph) k
  if physPages = 0#64 then throw .undefined
  match ← allocPages boot (pageCount ph).toNat [] k.pmm with
  | (none,s) => return (false,kfree physPages { k with pmm := s })
  | (some pages,s) =>
    let (mapped,s) ← mapPages boot pml4 (alignDown ph.vaddr) (segmentFlags ph.flags) 0 pages s
    if !mapped then return (false,{ k with pmm := s })
    let (filled,s) ← fillSegment pml4 vnode ph s
    return (filled,{ k with pmm := s })

def loadSegments (boot : Boot) (pml4 : U64) (vnode : Vnode) (header : ElfHeader) :
    List Nat → Kernel → Except Stop (Bool × Kernel)
  | [], k => return (true,k)
  | i :: rest, k =>
    match readPhdr vnode header i with
    | none => return (false,k)
    | some ph => do
      let (loaded,k) ← loadSegment boot pml4 vnode ph k
      if loaded then loadSegments boot pml4 vnode header rest k else return (false,k)

/-- True stands for the result 0, false for -1. -/
def elfLoadIntoAddressSpace (boot : Boot) (pml4 : U64) (vnode : Vnode) (info : ElfInfo) (k : Kernel) :
    Except Stop (Bool × Kernel) :=
  match readElfHeader vnode with
  | none => return (false,k)
  | some header =>
    if info.entry ≠ header.entry then return (false,k)
    else loadSegments boot pml4 vnode header (List.range header.phnum.toNat) k

end Reddyos
