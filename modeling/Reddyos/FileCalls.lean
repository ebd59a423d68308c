import Reddyos.ByteRange
import Reddyos.FdRun
import Reddyos.Vfs
import Reddyos.Vma

/-! The calls on open files: `filesystem/vfs/vfs.c`, `syscalls/fs/fs.c` and the operations of the
archive, the framebuffer and the console. Memory is addressed as the kernel sees it; the buffer of
a process is known by the bytes that are copied to it or from it. -/
namespace Reddyos

open ByteRange ByteMemory

/-- The number of a vnode in `OpenFile`. -/
def NodeId.number : NodeId → Nat
  | .tarRoot => 0
  | .devRoot => 1
  | .tar i => 2 * i + 2
  | .dev i => 2 * i + 3

def nodeOf (n : Nat) : NodeId :=
  if n = 0 then .tarRoot
  else if n = 1 then .devRoot
  else if n % 2 = 0 then .tar (n / 2 - 1)
  else .dev (n / 2 - 1)

@[simp]
theorem nodeOf_number (id : NodeId) : nodeOf id.number = id := by
  cases id with
  | tarRoot => rfl
  | devRoot => rfl
  | tar i =>
    simp [NodeId.number,nodeOf]
  | dev i =>
    have half : (2 * i + 3) / 2 - 1 = i := by omega
    simp [NodeId.number,nodeOf,half]

/-- Ways a call on a file ends other than by returning: `ops` is NULL and is read through, or a
function in it is NULL and is called. -/
inductive CallStop where
  | nullOps
  | nullCall
  | stop (reason : Stop)
  deriving DecidableEq, Repr

def liftStop : Except Stop α → Except CallStop α
  | .ok value => .ok value
  | .error reason => .error (.stop reason)

/-- What a call returns to the process; the error numbers are negative. -/
inductive Answer where
  | ebadf
  | errno (e : Errno)
  | value (v : U64)
  deriving DecidableEq, Repr

/-- `archive` is the boot module of the tar file system and `fb` the structure behind `fb0`; `reach` are the addresses
that are mapped for the kernel. -/
structure Files where
  fds : FdState
  fs : Vfs
  archive : U64 → BitVec 8
  fb : Framebuffer
  memory : U64 → BitVec 8
  console : List (BitVec 8)
  reach : U64 → Bool
  backed : ∀ b, Within fb.back fb.size.toNat b → reach b = true

def Files.tarRead (s : Files) (node : VfsNode) (offset size : U64) : Except CallStop (Int32 × List (BitVec 8)) :=
  match node.internal with
  | .data address =>
    let count := clamped node.size offset size
    return (count.setWidth 32,cells s.archive (address + offset) count.toNat)
  | _ => throw (.stop .undefined)

def Files.framebuffer (s : Files) (node : VfsNode) : Option Framebuffer :=
  match node.internal with
  | .data _ => some s.fb
  | _ => none

def Files.fbRead (s : Files) (node : VfsNode) (offset size : U64) : Except CallStop (Int32 × List (BitVec 8)) :=
  match s.framebuffer node with
  | none => throw (.stop .undefined)
  | some fb =>
    let count := clamped fb.size offset size
    return (count.setWidth 32,cells s.memory (fb.back + offset) count.toNat)

/-- The offset counts words of four bytes here, so that the copy may run into a page that is not there. -/
def Files.fbWrite (s : Files) (node : VfsNode) (offset : U64) (data : Nat → BitVec 8) (size : U64) :
    Except CallStop (Int32 × List (BitVec 8) × Files) :=
  match s.framebuffer node with
  | none => throw (.stop .undefined)
  | some fb =>
    let count := clamped fb.size offset size
    let start := fb.back + 4#64 * offset
    if (List.range count.toNat).all fun i => s.reach (start + BitVec.ofNat 64 i) then
      return (count.setWidth 32,(List.range count.toNat).map data,{ s with memory := stored s.memory start data count })
    else throw (.stop (.panic "Page Fault (14)"))

def fbIoctlFlip : U64 := 0x46420001#64
def fbIoctlClear : U64 := 0x46420002#64
def fbIoctlGetInfo : U64 := 0x46420003#64

/-- `fb_info_t` as it lies in memory. -/
def fbInfo (fb : Framebuffer) (m : U64 → BitVec 8) (info : U64) : U64 → BitVec 8 :=
  let m := stored m info (byteOf fb.width) 8#64
  let m := stored m (info + 8#64) (byteOf fb.height) 8#64
  let m := stored m (info + 16#64) (byteOf fb.pitch) 8#64
  let m := stored m (info + 24#64) (byteOf (fb.bpp.setWidth 64)) 2#64
  stored m (info + 32#64) (byteOf fb.size) 8#64

def fbFlip (fb : Framebuffer) (m : U64 → BitVec 8) : U64 → BitVec 8 :=
  stored m fb.front (fun i => m (fb.back + BitVec.ofNat 64 i)) fb.size

def fbClear (fb : Framebuffer) (color : U64) (m : U64 → BitVec 8) : U64 → BitVec 8 :=
  stored m fb.back (fun i => byteOf color (i % 4)) (fb.size / 4#64 * 4#64)

def Files.fbIoctl (s : Files) (node : VfsNode) (cmd arg : U64) : Int32 × Files :=
  match s.framebuffer node with
  | none => if cmd = fbIoctlFlip ∨ cmd = fbIoctlClear then (0#32,s) else (-1#32,s)
  | some fb =>
    if cmd = fbIoctlFlip then (0#32,{ s with memory := fbFlip fb s.memory })
    else if cmd = fbIoctlClear then (0#32,{ s with memory := fbClear fb arg s.memory })
    else if cmd = fbIoctlGetInfo then
      if arg = 0#64 then (-1#32,s) else (0#32,{ s with memory := fbInfo fb s.memory arg })
    else (-1#32,s)

def terminalWriteU64 (value : U64) : List (BitVec 8) :=
  (Nat.toDigits 10 value.toNat).map fun digit => BitVec.ofNat 8 digit.toNat

def hexDigit (value : BitVec 8) : BitVec 8 :=
  if value < 10#8 then 0x30#8 + value else 0x61#8 + (value - 10#8)

def terminalWriteHexU8 (value : BitVec 8) : List (BitVec 8) :=
  [0x30#8,0x78#8,hexDigit (value >>> 4),hexDigit (value &&& 0xF#8)]

/-- `char` is signed. -/
def stdByte (c : BitVec 8) : List (BitVec 8) :=
  if 32 ≤ c.toInt ∧ c.toInt ≤ 126 then [c] else terminalWriteHexU8 c

/-- The whole buffer is printed, and 0 is returned. -/
def Files.stdWrite (s : Files) (_ : VfsNode) (offset : U64) (data : Nat → BitVec 8) (size : U64) :
    Except CallStop (Int32 × List (BitVec 8) × Files) :=
  let bytes := (List.range size.toNat).map data
  return (0#32,bytes,{ s with console := s.console ++ terminalWriteU64 offset ++ terminalWriteU64 (offset + size) ++
    [0x3A#8,0x20#8] ++ bytes.flatMap stdByte })

/-- `vnode_ops_t`; of `vma_fault` only whether it is there. Reads and writes also say which bytes
they copied. -/
structure OpsTable where
  read : Option (Files → VfsNode → U64 → U64 → Except CallStop (Int32 × List (BitVec 8)))
  write : Option (Files → VfsNode → U64 → (Nat → BitVec 8) → U64 → Except CallStop (Int32 × List (BitVec 8) × Files))
  ioctl : Option (Files → VfsNode → U64 → U64 → Int32 × Files)
  vmaFault : Bool

def stdinOps : VnodeOps := .driver 0
def stdoutOps : VnodeOps := .driver 1
def stderrOps : VnodeOps := .driver 2
def fbOps : VnodeOps := .driver 3

def opsTable : VnodeOps → OpsTable
  | .tarOps => ⟨some Files.tarRead,none,none,false⟩
  | .driver 0 => ⟨none,none,none,false⟩
  | .driver 1 => ⟨none,some Files.stdWrite,none,false⟩
  | .driver 2 => ⟨none,some Files.stdWrite,none,false⟩
  | .driver 3 => ⟨some Files.fbRead,some Files.fbWrite,some Files.fbIoctl,true⟩
  | .driver _ => ⟨none,none,none,false⟩

def Files.file (s : Files) (ptr : U64) : Except CallStop OpenFile :=
  match s.fds.files ptr with
  | none => throw (.stop .undefined)
  | some file => return file

def Files.node (s : Files) (file : OpenFile) : VfsNode := s.fs.node (nodeOf file.vnode)

theorem Files.node_eq {file : OpenFile} {found : NodeId} (s : Files) (vnode : file.vnode = found.number) :
    s.node file = s.fs.node found := by
  rw [Files.node,vnode,nodeOf_number]

def Files.ops (s : Files) (file : OpenFile) : Except CallStop OpsTable :=
  match (s.node file).ops with
  | none => throw .nullOps
  | some ops => return opsTable ops

def Files.unpack (s : Files) (pid : Nat) (fd : Int32) : Except CallStop (Option U64) :=
  liftStop (processUnpackFd pid fd s.fds)

def Files.moveTo (s : Files) (ptr : U64) (file : OpenFile) (offset : U64) : Files :=
  { s with fds := s.fds.setFile ptr (some { file with offset := offset }) }

/-- A positive count is added to the offset. -/
def Files.advance (s : Files) (ptr : U64) (file : OpenFile) (count : Int32) : Files :=
  if 0 < count.toInt then s.moveTo ptr file (file.offset + count.signExtend 64) else s

def Files.vfsRead (s : Files) (ptr size : U64) : Except CallStop (Int32 × List (BitVec 8) × Files) := do
  let file ← s.file ptr
  match (← s.ops file).read with
  | none => throw .nullCall
  | some read =>
    let (count,bytes) ← read s (s.node file) file.offset size
    return (count,bytes,s.advance ptr file count)

def Files.vfsWrite (s : Files) (ptr : U64) (data : Nat → BitVec 8) (size : U64) :
    Except CallStop (Int32 × List (BitVec 8) × Files) := do
  let file ← s.file ptr
  match (← s.ops file).write with
  | none => throw .nullCall
  | some write =>
    let (count,bytes,s) ← write s (s.node file) file.offset data size
    return (count,bytes,s.advance ptr file count)

/-- `vfs_ioctl` looks at the table before it reads it. -/
def Files.vfsIoctl (s : Files) (ptr cmd arg : U64) : Except CallStop (Int32 × Files) := do
  let file ← s.file ptr
  match (s.node file).ops with
  | none => return (-1#32,s)
  | some ops =>
    match (opsTable ops).ioctl with
    | none => return (-1#32,s)
    | some ioctl => return ioctl s (s.node file) cmd arg

inductive Whence where
  | set
  | cur
  | end
  | other
  deriving DecidableEq, Repr

def seekTarget (file : OpenFile) (size offset : U64) : Whence → Except CallStop U64
  | .set => return offset
  | .cur => return file.offset + offset
  | .end => return size + offset
  | .other => throw (.stop (.panic "Invalid whence value in vfs_lseek"))

def seekClamp (size offset : U64) : U64 :=
  let offset := if offset.toInt < 0 then 0#64 else offset
  if size.toInt < offset.toInt then size else offset

def Files.vfsLseek (s : Files) (ptr offset : U64) (whence : Whence) : Except CallStop (U64 × Files) := do
  let file ← s.file ptr
  let size := (s.node file).size
  let target ← seekTarget file size offset whence
  return (seekClamp size target,s.moveTo ptr file (seekClamp size target))

def oTrunc : Int32 := 0x10#32

/-- `vfs_open`: the number of the vnode that it finds. -/
def Files.vfsOpen (s : Files) (path : CString) (flags : Int32) : Except CallStop (Option Nat × Vfs) :=
  match vfsFindVnode s.fs path with
  | .error _ => throw (.stop .undefined)
  | .ok none => return (none,s.fs)
  | .ok (some id) =>
    if flags &&& oTrunc ≠ 0#32 then
      return (some id.number,s.fs.setNode id { s.fs.node id with size := 0#64 })
    else return (some id.number,s.fs)

/-- `of_open` allocates the file before it looks for the vnode. -/
def Files.openVnode (s : Files) (path : CString) (flags : Int32) (allocs : FdAllocs) :
    Except CallStop (Option Nat × Vfs) :=
  if allocs.file = none then return (none,s.fs) else s.vfsOpen path flags

def Files.doSysOpen (s : Files) (pid : Nat) (path : CString) (flags : Int32) (allocs : FdAllocs) :
    Except CallStop (Int32 × Files) := do
  let (vnode,fs) ← s.openVnode path flags allocs
  let (fd,fds) ← liftStop (processFdOpen pid vnode flags allocs s.fds)
  return (fd,{ s with fds := fds, fs := fs })

def Files.doSysClose (s : Files) (pid : Nat) (fd : Int32) : Except CallStop (Int32 × Files) := do
  let (result,fds) ← liftStop (processFdClose pid fd s.fds)
  return (result,{ s with fds := fds })

/-- `int` results are widened with their sign. -/
def Files.doSysRead (s : Files) (pid : Nat) (fd : Int32) (buffer size : U64) :
    Except CallStop (Answer × List (BitVec 8) × Files) :=
  if buffer = 0#64 ∨ size = 0#64 then return (.errno .einval,[],s)
  else do
    match ← s.unpack pid fd with
    | none => return (.ebadf,[],s)
    | some ptr =>
      let (count,bytes,s) ← s.vfsRead ptr size
      return (.value (count.signExtend 64),bytes,s)

def Files.doSysWrite (s : Files) (pid : Nat) (fd : Int32) (buffer : Option (Nat → BitVec 8)) (size : U64) :
    Except CallStop (Answer × List (BitVec 8) × Files) :=
  match buffer with
  | none => return (.errno .einval,[],s)
  | some data =>
    if size = 0#64 then return (.errno .einval,[],s)
    else do
      match ← s.unpack pid fd with
      | none => return (.ebadf,[],s)
      | some ptr =>
        let (count,bytes,s) ← s.vfsWrite ptr data size
        return (.value (count.signExtend 64),bytes,s)

def Files.doSysIoctl (s : Files) (pid : Nat) (fd : Int32) (cmd arg : U64) : Except CallStop (Answer × Files) := do
  match ← s.unpack pid fd with
  | none => return (.ebadf,s)
  | some ptr =>
    let (result,s) ← s.vfsIoctl ptr cmd arg
    return (.value (result.signExtend 64),s)

def Files.doSysLseek (s : Files) (pid : Nat) (fd : Int32) (offset : U64) (whence : Whence) :
    Except CallStop (Answer × Files) := do
  match ← s.unpack pid fd with
  | none => return (.ebadf,s)
  | some ptr =>
    let (position,s) ← s.vfsLseek ptr offset whence
    return (.value position,s)

inductive FileCall where
  | open (pid : Nat) (path : CString) (flags : Int32) (allocs : FdAllocs)
  | close (pid : Nat) (fd : Int32)
  | read (pid : Nat) (fd : Int32) (buffer size : U64)
  | write (pid : Nat) (fd : Int32) (buffer : Option (Nat → BitVec 8)) (size : U64)
  | ioctl (pid : Nat) (fd : Int32) (cmd arg : U64)
  | lseek (pid : Nat) (fd : Int32) (offset : U64) (whence : Whence)

/-- The answer of a call, the bytes it copied, and the state it leaves. -/
def runFile : FileCall → Files → Except CallStop (Answer × List (BitVec 8) × Files)
  | .open pid path flags allocs, s => do
    let (fd,s) ← s.doSysOpen pid path flags allocs
    return (.value (fd.signExtend 64),[],s)
  | .close pid fd, s => do
    let (result,s) ← s.doSysClose pid fd
    return (.value (result.signExtend 64),[],s)
  | .read pid fd buffer size, s => s.doSysRead pid fd buffer size
  | .write pid fd buffer size, s => s.doSysWrite pid fd buffer size
  | .ioctl pid fd cmd arg, s => do
    let (answer,s) ← s.doSysIoctl pid fd cmd arg
    return (answer,[],s)
  | .lseek pid fd offset whence, s => do
    let (answer,s) ← s.doSysLseek pid fd offset whence
    return (answer,[],s)

end Reddyos
