import Reddyos.BootTree
import Reddyos.PageFault

/-! Which calls on a descriptor reach an operation that its vnode does not have. `vfs_ioctl` looks at
the table and at the slot, `mmap_region` at the slot alone, `vfs_read` and `vfs_write` at neither. -/
namespace Reddyos

open ByteRange Transitions

structure Session where
  files : Files
  machine : Machine

/-- What `mmap_region` reads of the file. -/
def Files.vmaFile (s : Files) : Option U64 → Except CallStop (Option VmaFile)
  | none => return none
  | some ptr => do
    let file ← s.file ptr
    let table ← s.ops file
    return some ⟨true,table.vmaFault,if table.vmaFault then s.framebuffer (s.node file) else none⟩

/-- `do_sys_mmap`; the file is read behind the allocation of the area. -/
def Session.doSysMmap (boot : Boot) (ft : Ftrees) (s : Session) (pid : Nat) (fd : Int32) (length offset : U64) :
    Except CallStop (Answer × Session) :=
  let len := alignUp length
  if len = 0#64 then return (.errno .einval,s)
  else do
    let found ← s.files.unpack pid fd
    let addr := vmaFindFreeRegion ft s.machine.process.areas length
    if addr = 0#64 then return (.errno .enomem,s)
    else do
      let (block,m) ← liftStop (allocRecord boot (vmAreaBytes ft) s.machine)
      let file ← s.files.vmaFile found
      match mmapRegion ft file addr len 0#64 offset block m.process.areas with
      | (.ok start,areas) => return (.value start,{ s with machine := m.setAreas areas })
      | (.error e,_) => return (.errno e,{ s with machine := { m with kernel := kfree block m.kernel } })

inductive SessionCall where
  | file (call : FileCall)
  | mmap (pid : Nat) (fd : Int32) (length offset : U64)

def runSession (boot : Boot) (ft : Ftrees) : SessionCall → Session → Except CallStop (Answer × Session)
  | .file call, s => do
    let (answer,_,files) ← runFile call s.files
    return (answer,{ s with files := files })
  | .mmap pid fd length offset, s => s.doSysMmap boot ft pid fd length offset

def VfsNode.CanRead (node : VfsNode) : Prop := node.ops = some .tarOps ∨ node.ops = some fbOps
def VfsNode.CanWrite (node : VfsNode) : Prop :=
  node.ops = some stdoutOps ∨ node.ops = some stderrOps ∨ node.ops = some fbOps
def VfsNode.CanControl (node : VfsNode) : Prop := node.ops = some fbOps

def OpenOn (s : Files) (pid : Nat) (fd : Int32) (property : VfsNode → Prop) : Prop :=
  ∃ ptr file, processUnpackFd pid fd s.fds = .ok (some ptr) ∧ s.fds.files ptr = some file ∧ property (s.node file)

/-- `mmap_region` has its record when it comes to the file. -/
def MmapReaches (boot : Boot) (ft : Ftrees) (s : Session) (length : U64) : Prop :=
  alignUp length ≠ 0#64 ∧ vmaFindFreeRegion ft s.machine.process.areas length ≠ 0#64 ∧
    ∃ block m, allocRecord boot (vmAreaBytes ft) s.machine = .ok (block,m)

/-- Reads are of archive members and the framebuffer, writes of the framebuffer and the output
devices, and no directory is mapped; calls that are refused before do not matter. -/
def KindFits (boot : Boot) (ft : Ftrees) (s : Session) : SessionCall → Prop
  | .file (.read pid fd buffer size) => buffer = 0#64 ∨ size = 0#64 ∨ ¬OpenOn s.files pid fd fun node => ¬node.CanRead
  | .file (.write pid fd buffer size) => buffer = none ∨ size = 0#64 ∨ ¬OpenOn s.files pid fd fun node => ¬node.CanWrite
  | .mmap pid fd length _ => MmapReaches boot ft s length → ¬OpenOn s.files pid fd fun node => node.ops = none
  | _ => True

def Unsupported (s : Files) : SessionCall → Prop
  | .file (.read pid fd _ _) => OpenOn s pid fd fun node => ¬node.CanRead
  | .file (.write pid fd _ _) => OpenOn s pid fd fun node => ¬node.CanWrite
  | .file (.ioctl pid fd _ _) => OpenOn s pid fd fun node => ¬node.CanControl
  | .mmap pid fd _ _ => OpenOn s pid fd fun node => ¬node.CanControl
  | _ => False

def Answer.IsError : Answer → Prop
  | .value v => v.toInt < 0
  | _ => True

/-- Nothing is read or called through NULL, and what the vnode does not support is an error that moves no file. -/
structure CallSafe (boot : Boot) (ft : Ftrees) (s : Session) (call : SessionCall) : Prop where
  table : runSession boot ft call s ≠ .error .nullOps
  slot : runSession boot ft call s ≠ .error .nullCall
  refused : Unsupported s.files call → ∀ answer next, runSession boot ft call s = .ok (answer,next) →
    answer.IsError ∧ next.files.fds = s.files.fds

def Dispatched (returned : Except CallStop α) : Prop := returned ≠ .error .nullOps ∧ returned ≠ .error .nullCall

variable {boot : Boot} {ft : Ftrees} {s next : Session} {f : Files} {pid : Nat} {fd : Int32} {ptr : U64} {file : OpenFile}

theorem dispatched_ok (value : α) : Dispatched (.ok value) := ⟨nofun,nofun⟩

theorem dispatched_stop (reason : Stop) : Dispatched (.error (.stop reason) : Except CallStop α) := ⟨nofun,nofun⟩

theorem dispatched_lift (returned : Except Stop α) : Dispatched (liftStop returned) := by
  cases returned with
  | ok value => exact dispatched_ok value
  | error reason => exact dispatched_stop _

theorem dispatched_bind {first : Except CallStop α} {rest : α → Except CallStop β} (head : Dispatched first)
    (tail : ∀ value, first = .ok value → Dispatched (rest value)) : Dispatched (first >>= rest) := by
  cases first with
  | ok value => exact tail value rfl
  | error reason => exact ⟨fun same => head.1 (congrArg Except.error (Except.error.inj same)),
      fun same => head.2 (congrArg Except.error (Except.error.inj same))⟩

theorem dispatched_file (f : Files) (ptr : U64) : Dispatched (f.file ptr) := by
  unfold Files.file
  split
  · exact dispatched_stop _
  · exact dispatched_ok _

theorem dispatched_tarRead (f : Files) (node : VfsNode) (offset size : U64) : Dispatched (f.tarRead node offset size) := by
  unfold Files.tarRead
  split
  · exact dispatched_ok _
  · exact dispatched_stop _

theorem dispatched_fbRead (f : Files) (node : VfsNode) (offset size : U64) : Dispatched (f.fbRead node offset size) := by
  unfold Files.fbRead
  split
  · exact dispatched_stop _
  · exact dispatched_ok _

theorem dispatched_fbWrite (f : Files) (node : VfsNode) (offset : U64) (data : Nat → BitVec 8) (size : U64) :
    Dispatched (f.fbWrite node offset data size) := by
  unfold Files.fbWrite
  split
  · exact dispatched_stop _
  dsimp only
  split
  · exact dispatched_ok _
  · exact dispatched_stop _

/-- A table offers a read exactly for the kinds that can be read, and the read itself is safe. -/
theorem opsTable_read (ops : VnodeOps) :
    (ops = .tarOps ∨ ops = fbOps) ∧ (∃ read, (opsTable ops).read = some read ∧
      ∀ f node offset size, Dispatched (read f node offset size)) ∨
    ¬(ops = .tarOps ∨ ops = fbOps) ∧ (opsTable ops).read = none := by
  unfold opsTable fbOps
  split
  · exact .inl ⟨.inl rfl,_,rfl,dispatched_tarRead⟩
  · exact .inr ⟨by decide,rfl⟩
  · exact .inr ⟨by decide,rfl⟩
  · exact .inr ⟨by decide,rfl⟩
  · exact .inl ⟨.inr rfl,_,rfl,dispatched_fbRead⟩
  · rename_i other
    exact .inr ⟨by rintro (impossible | same); cases impossible; exact other (VnodeOps.driver.inj same),rfl⟩

theorem opsTable_canWrite (ops : VnodeOps) :
    (ops = stdoutOps ∨ ops = stderrOps ∨ ops = fbOps) ∧ (∃ write, (opsTable ops).write = some write ∧
      ∀ f node offset data size, Dispatched (write f node offset data size)) ∨
    ¬(ops = stdoutOps ∨ ops = stderrOps ∨ ops = fbOps) ∧ (opsTable ops).write = none := by
  unfold opsTable stdoutOps stderrOps fbOps
  split
  · exact .inr ⟨by decide,rfl⟩
  · exact .inr ⟨by decide,rfl⟩
  · exact .inl ⟨.inl rfl,_,rfl,fun _ _ _ _ _ => dispatched_ok _⟩
  · exact .inl ⟨.inr (.inl rfl),_,rfl,fun _ _ _ _ _ => dispatched_ok _⟩
  · exact .inl ⟨.inr (.inr rfl),_,rfl,dispatched_fbWrite⟩
  · rename_i first second third
    refine .inr ⟨?_,rfl⟩
    rintro (same | same | same)
    · exact first (VnodeOps.driver.inj same)
    · exact second (VnodeOps.driver.inj same)
    · exact third (VnodeOps.driver.inj same)

theorem opsTable_canControl (ops : VnodeOps) :
    (∃ ioctl, (opsTable ops).ioctl = some ioctl) ∧ ops = fbOps ∧ (opsTable ops).vmaFault = true ∨
    (opsTable ops).ioctl = none ∧ ops ≠ fbOps ∧ (opsTable ops).vmaFault = false := by
  unfold opsTable fbOps
  split
  · exact .inr ⟨rfl,by decide,rfl⟩
  · exact .inr ⟨rfl,by decide,rfl⟩
  · exact .inr ⟨rfl,by decide,rfl⟩
  · exact .inr ⟨rfl,by decide,rfl⟩
  · exact .inl ⟨⟨_,rfl⟩,rfl,rfl⟩
  · rename_i other
    exact .inr ⟨rfl,fun same => other (VnodeOps.driver.inj same),rfl⟩

theorem dispatched_ok_bind (value : α) (rest : α → Except CallStop β) :
    Dispatched (.ok value >>= rest) ↔ Dispatched (rest value) := Iff.rfl

theorem ops_missing (named : (f.node file).ops = none) : f.ops file = .error .nullOps := by
  unfold Files.ops
  rw [named]
  rfl

theorem vfsRead_dispatch (open' : f.fds.files ptr = some file) (size : U64) :
    Dispatched (f.vfsRead ptr size) ↔ (f.node file).CanRead := by
  unfold Files.vfsRead VfsNode.CanRead
  rw [file_ok.mpr open',dispatched_ok_bind]
  cases named : (f.node file).ops with
  | none =>
    rw [ops_missing named]
    exact ⟨fun safe => absurd rfl safe.1,nofun⟩
  | some ops =>
    rw [ops_ok.mpr ⟨ops,named,rfl⟩,dispatched_ok_bind]
    simp only [Option.some.injEq]
    rcases opsTable_read ops with ⟨can,read,found,safe⟩ | ⟨cannot,missing⟩
    · rw [found]
      exact ⟨fun _ => can,fun _ => dispatched_bind (safe _ _ _ _) fun _ _ => dispatched_ok _⟩
    · rw [missing]
      exact ⟨fun safe => absurd rfl safe.2,fun can => absurd can cannot⟩

theorem vfsWrite_dispatch (open' : f.fds.files ptr = some file) (data : Nat → BitVec 8) (size : U64) :
    Dispatched (f.vfsWrite ptr data size) ↔ (f.node file).CanWrite := by
  unfold Files.vfsWrite VfsNode.CanWrite
  rw [file_ok.mpr open',dispatched_ok_bind]
  cases named : (f.node file).ops with
  | none =>
    rw [ops_missing named]
    exact ⟨fun safe => absurd rfl safe.1,nofun⟩
  | some ops =>
    rw [ops_ok.mpr ⟨ops,named,rfl⟩,dispatched_ok_bind]
    simp only [Option.some.injEq]
    rcases opsTable_canWrite ops with ⟨can,write,found,safe⟩ | ⟨cannot,missing⟩
    · rw [found]
      exact ⟨fun _ => can,fun _ => dispatched_bind (safe _ _ _ _ _) fun _ _ => dispatched_ok _⟩
    · rw [missing]
      exact ⟨fun safe => absurd rfl safe.2,fun can => absurd can cannot⟩

theorem vfsIoctl_dispatched (f : Files) (ptr cmd arg : U64) : Dispatched (f.vfsIoctl ptr cmd arg) := by
  refine dispatched_bind (dispatched_file f ptr) fun file _ => ?_
  split
  · exact dispatched_ok _
  split
  · exact dispatched_ok _
  · exact dispatched_ok _

theorem vmaFile_dispatch (open' : f.fds.files ptr = some file) :
    Dispatched (f.vmaFile (some ptr)) ↔ (f.node file).ops ≠ none := by
  unfold Files.vmaFile
  dsimp only
  rw [file_ok.mpr open',dispatched_ok_bind]
  cases named : (f.node file).ops with
  | none =>
    rw [ops_missing named]
    exact ⟨fun safe => absurd rfl safe.1,fun some' => absurd rfl some'⟩
  | some ops =>
    rw [ops_ok.mpr ⟨ops,named,rfl⟩,dispatched_ok_bind]
    exact ⟨fun _ => Option.some_ne_none ops,fun _ => dispatched_ok _⟩

theorem dispatched_bind_iff (first : Except CallStop α) {rest : α → Except CallStop β}
    (tail : ∀ value, Dispatched (rest value)) : Dispatched (first >>= rest) ↔ Dispatched first := by
  refine ⟨fun safe => ?_,fun safe => dispatched_bind safe fun value _ => tail value⟩
  cases first with
  | ok value => exact dispatched_ok value
  | error reason => exact ⟨fun same => safe.1 (congrArg Except.error (Except.error.inj same)),
      fun same => safe.2 (congrArg Except.error (Except.error.inj same))⟩

theorem openOn_iff {property : VfsNode → Prop} (unpacks : processUnpackFd pid fd f.fds = .ok (some ptr))
    (open' : f.fds.files ptr = some file) : OpenOn f pid fd property ↔ property (f.node file) := by
  refine ⟨?_,fun has => ⟨ptr,file,unpacks,open',has⟩⟩
  rintro ⟨ptr',file',unpacks',open'',has⟩
  obtain rfl := Option.some.inj (Except.ok.inj (unpacks.symm.trans unpacks'))
  obtain rfl := Option.some.inj (open'.symm.trans open'')
  exact has

/-- A call that goes through a descriptor is safe when what it does with the file is. -/
theorem dispatched_unpack {body : Option U64 → Except CallStop β} {property : VfsNode → Prop}
    (closed : Dispatched (body none)) (freed : ∀ ptr, f.fds.files ptr = none → Dispatched (body (some ptr)))
    (site : ∀ ptr file, f.fds.files ptr = some file → (Dispatched (body (some ptr)) ↔ ¬property (f.node file))) :
    Dispatched (f.unpack pid fd >>= body) ↔ ¬OpenOn f pid fd property := by
  unfold Files.unpack
  cases found : processUnpackFd pid fd f.fds with
  | error reason =>
    refine ⟨fun _ => ?_,fun _ => ⟨nofun,nofun⟩⟩
    rintro ⟨ptr,file,unpacks,_⟩
    rw [found] at unpacks
    cases unpacks
  | ok entry =>
    change Dispatched (body entry) ↔ _
    cases entry with
    | none =>
      refine ⟨fun _ => ?_,fun _ => closed⟩
      rintro ⟨ptr,file,unpacks,_⟩
      rw [found] at unpacks
      cases unpacks
    | some ptr =>
      cases open' : f.fds.files ptr with
      | none =>
        refine ⟨fun _ => ?_,fun _ => freed ptr open'⟩
        rintro ⟨ptr',file,unpacks,open'',_⟩
        rw [found] at unpacks
        obtain rfl := Option.some.inj (Except.ok.inj unpacks)
        rw [open'] at open''
        cases open''
      | some file => rw [site ptr file open',openOn_iff found open']

theorem dispatched_freed {α : Type} {body : OpenFile → Except CallStop α} (freed : f.fds.files ptr = none) :
    Dispatched (f.file ptr >>= body) := by
  unfold Files.file
  rw [freed]
  exact dispatched_stop _

theorem doSysRead_dispatch (buffer size : U64) : Dispatched (f.doSysRead pid fd buffer size) ↔
    buffer = 0#64 ∨ size = 0#64 ∨ ¬OpenOn f pid fd fun node => ¬node.CanRead := by
  rw [← or_assoc]
  unfold Files.doSysRead
  by_cases refused : buffer = 0#64 ∨ size = 0#64
  · rw [if_pos refused]
    exact ⟨fun _ => .inl refused,fun _ => dispatched_ok _⟩
  · rw [if_neg refused,or_iff_right refused]
    refine dispatched_unpack (dispatched_ok _) (fun ptr freed => ?_) fun ptr file open' => ?_
    · exact dispatched_bind (dispatched_freed freed) fun _ _ => dispatched_ok _
    · rw [not_not,← vfsRead_dispatch open' size]
      exact dispatched_bind_iff _ fun _ => dispatched_ok _

theorem doSysWrite_dispatch (buffer : Option (Nat → BitVec 8)) (size : U64) :
    Dispatched (f.doSysWrite pid fd buffer size) ↔
      buffer = none ∨ size = 0#64 ∨ ¬OpenOn f pid fd fun node => ¬node.CanWrite := by
  unfold Files.doSysWrite
  cases buffer with
  | none => exact ⟨fun _ => .inl rfl,fun _ => dispatched_ok _⟩
  | some data =>
    dsimp only
    rw [or_iff_right (Option.some_ne_none data)]
    by_cases refused : size = 0#64
    · rw [if_pos refused]
      exact ⟨fun _ => .inl refused,fun _ => dispatched_ok _⟩
    · rw [if_neg refused,or_iff_right refused]
      refine dispatched_unpack (dispatched_ok _) (fun ptr freed => ?_) fun ptr file open' => ?_
      · exact dispatched_bind (dispatched_freed freed) fun _ _ => dispatched_ok _
      · rw [not_not,← vfsWrite_dispatch open' data size]
        exact dispatched_bind_iff _ fun _ => dispatched_ok _

theorem doSysIoctl_dispatched (f : Files) (pid : Nat) (fd : Int32) (cmd arg : U64) :
    Dispatched (f.doSysIoctl pid fd cmd arg) := by
  refine dispatched_bind (dispatched_lift _) fun found _ => ?_
  cases found with
  | none => exact dispatched_ok _
  | some ptr => exact dispatched_bind (vfsIoctl_dispatched f ptr cmd arg) fun _ _ => dispatched_ok _

theorem doSysLseek_dispatched (f : Files) (pid : Nat) (fd : Int32) (offset : U64) (whence : Whence) :
    Dispatched (f.doSysLseek pid fd offset whence) := by
  refine dispatched_bind (dispatched_lift _) fun found _ => ?_
  cases found with
  | none => exact dispatched_ok _
  | some ptr =>
    refine dispatched_bind (dispatched_bind (dispatched_file f ptr) fun file _ => ?_) fun _ _ => dispatched_ok _
    refine dispatched_bind ?_ fun _ _ => dispatched_ok _
    cases whence with
    | other => exact dispatched_stop _
    | set => exact dispatched_ok _
    | cur => exact dispatched_ok _
    | «end» => exact dispatched_ok _

theorem doSysOpen_dispatched (f : Files) (pid : Nat) (path : CString) (flags : Int32) (allocs : FdAllocs) :
    Dispatched (f.doSysOpen pid path flags allocs) := by
  refine dispatched_bind ?_ fun _ _ => dispatched_bind (dispatched_lift _) fun _ _ => dispatched_ok _
  unfold Files.openVnode
  split
  · exact dispatched_ok _
  unfold Files.vfsOpen
  split
  · exact dispatched_stop _
  · exact dispatched_ok _
  split
  · exact dispatched_ok _
  · exact dispatched_ok _

/-- Mapping looks at the table of a file without asking whether there is one. -/
theorem doSysMmap_dispatch (fd : Int32) (length offset : U64) :
    Dispatched (s.doSysMmap boot ft pid fd length offset) ↔
      (MmapReaches boot ft s length → ¬OpenOn s.files pid fd fun node => node.ops = none) := by
  unfold Session.doSysMmap
  dsimp only
  by_cases empty : alignUp length = 0#64
  · rw [if_pos empty]
    exact ⟨fun _ reaches => absurd empty reaches.1,fun _ => dispatched_ok _⟩
  rw [if_neg empty]
  by_cases full : vmaFindFreeRegion ft s.machine.process.areas length = 0#64
  · refine ⟨fun _ reaches => absurd full reaches.2.1,fun _ => dispatched_bind (dispatched_lift _) fun found _ => ?_⟩
    rw [if_pos full]
    exact dispatched_ok _
  simp only [if_neg full]
  cases taken : allocRecord boot (vmAreaBytes ft) s.machine with
  | error reason =>
    refine ⟨fun _ reaches => ?_,fun _ => dispatched_bind (dispatched_lift _) fun found _ => ⟨nofun,nofun⟩⟩
    obtain ⟨_,_,_,_,takes⟩ := reaches
    rw [taken] at takes
    cases takes
  | ok record =>
    have reaches : MmapReaches boot ft s length := ⟨empty,full,record.1,record.2,taken⟩
    rw [forall_prop_of_true reaches]
    have ends (file : Option VmaFile) : Dispatched (match mmapRegion ft file
          (vmaFindFreeRegion ft s.machine.process.areas length) (alignUp length) 0#64 offset record.1
          record.2.process.areas with
        | (.ok start,areas) => .ok (Answer.value start,{ s with machine := record.2.setAreas areas })
        | (.error e,_) => .ok (.errno e,{ s with machine := { record.2 with kernel := kfree record.1 record.2.kernel } }) :
        Except CallStop (Answer × Session)) := by
      split
      · exact dispatched_ok _
      · exact dispatched_ok _
    refine dispatched_unpack (ends none) (fun ptr freed => ?_) fun ptr file open' => ?_
    · change Dispatched (s.files.vmaFile (some ptr) >>= _)
      exact dispatched_bind (dispatched_freed freed) fun file _ => ends file
    · rw [← ne_eq,← vmaFile_dispatch open']
      exact dispatched_bind_iff _ ends

theorem doSysIoctl_refused (cmd arg : U64) (behind : OpenOn f pid fd fun node => ¬node.CanControl) :
    f.doSysIoctl pid fd cmd arg = .ok (.value ((-1#32).signExtend 64),f) := by
  obtain ⟨ptr,file,unpacks,open',cannot⟩ := behind
  have answers : f.vfsIoctl ptr cmd arg = .ok (-1#32,f) := by
    unfold Files.vfsIoctl
    rw [file_ok.mpr open']
    simp only [bind,Except.bind]
    cases named : (f.node file).ops with
    | none => rfl
    | some ops =>
      rcases opsTable_canControl ops with ⟨_,rfl,_⟩ | ⟨missing,_⟩
      · exact absurd named cannot
      · dsimp only
        rw [missing]
        rfl
  unfold Files.doSysIoctl
  rw [unpack_ok.mpr unpacks]
  simp only [bind,Except.bind,answers]
  rfl

/-- A vnode with a table and no `vma_fault` is refused behind the allocation, and the files are
not touched. -/
theorem doSysMmap_refused (fits : MmapReaches boot ft s length → ¬OpenOn s.files pid fd fun node => node.ops = none)
    (behind : OpenOn s.files pid fd fun node => ¬node.CanControl)
    (returns : s.doSysMmap boot ft pid fd length offset = .ok (answer,next)) :
    answer.IsError ∧ next.files = s.files := by
  unfold Session.doSysMmap at returns
  dsimp only at returns
  split at returns
  · obtain ⟨rfl,rfl⟩ := ok_pair returns
    exact ⟨trivial,rfl⟩
  rename_i empty
  obtain ⟨ptr,file,unpacks,open',cannot⟩ := behind
  obtain ⟨found,unpacked,returns⟩ := ok_of_bind returns
  obtain rfl := Except.ok.inj (unpacks.symm.trans (unpack_ok.mp unpacked))
  split at returns
  · obtain ⟨rfl,rfl⟩ := ok_pair returns
    exact ⟨trivial,rfl⟩
  rename_i full
  obtain ⟨⟨block,m⟩,taken,returns⟩ := ok_of_bind returns
  have there := mt (openOn_iff unpacks open').mpr (fits ⟨empty,full,block,m,liftStop_ok.mp taken⟩)
  obtain ⟨ops,named⟩ := Option.ne_none_iff_exists'.mp there
  obtain ⟨found,looks,returns⟩ := ok_of_bind returns
  obtain ⟨file',open'',looks⟩ := ok_of_bind looks
  obtain rfl := Option.some.inj (open'.symm.trans (file_ok.mp open''))
  obtain ⟨table,has,looks⟩ := ok_of_bind looks
  obtain ⟨ops',named',rfl⟩ := ops_ok.mp has
  obtain rfl := Option.some.inj (named.symm.trans named')
  obtain rfl := Except.ok.inj looks
  rcases opsTable_canControl ops with ⟨_,rfl,_⟩ | ⟨_,_,missing⟩
  · exact absurd named cannot
  rw [missing] at returns
  obtain ⟨rfl,rfl⟩ := ok_pair returns
  exact ⟨trivial,rfl⟩

theorem runSession_dispatch (call : SessionCall) : Dispatched (runSession boot ft call s) ↔ KindFits boot ft s call := by
  cases call with
  | mmap pid fd length offset => exact doSysMmap_dispatch fd length offset
  | file call =>
    have lifted : Dispatched (runSession boot ft (.file call) s) ↔ Dispatched (runFile call s.files) :=
      dispatched_bind_iff _ fun _ => dispatched_ok _
    rw [lifted]
    cases call with
    | «open» pid path flags allocs =>
      exact iff_of_true ((dispatched_bind_iff _ fun _ => dispatched_ok _).mpr (doSysOpen_dispatched _ _ _ _ _)) trivial
    | close pid fd =>
      refine iff_of_true ((dispatched_bind_iff _ fun _ => dispatched_ok _).mpr ?_) trivial
      exact dispatched_bind (dispatched_lift _) fun _ _ => dispatched_ok _
    | read pid fd buffer size => exact doSysRead_dispatch buffer size
    | write pid fd buffer size => exact doSysWrite_dispatch buffer size
    | ioctl pid fd cmd arg =>
      exact iff_of_true ((dispatched_bind_iff _ fun _ => dispatched_ok _).mpr (doSysIoctl_dispatched _ _ _ _ _)) trivial
    | lseek pid fd offset whence =>
      exact iff_of_true ((dispatched_bind_iff _ fun _ => dispatched_ok _).mpr (doSysLseek_dispatched _ _ _ _ _)) trivial

theorem runSession_refused (fits : KindFits boot ft s call) (unsupported : Unsupported s.files call)
    (ran : runSession boot ft call s = .ok (answer,next)) : answer.IsError ∧ next.files.fds = s.files.fds := by
  cases call with
  | mmap pid fd length offset =>
    obtain ⟨error,files⟩ := doSysMmap_refused fits unsupported ran
    exact ⟨error,congrArg Files.fds files⟩
  | file call =>
    obtain ⟨⟨answer',bytes,files⟩,returns,ends⟩ := ok_of_bind ran
    obtain ⟨rfl,rfl⟩ := ok_pair ends
    cases call with
    | «open» pid path flags allocs => exact absurd unsupported id
    | close pid fd => exact absurd unsupported id
    | lseek pid fd offset whence => exact absurd unsupported id
    | read pid fd buffer size =>
      have refused : buffer = 0#64 ∨ size = 0#64 := by
        rcases fits with null | none | apart
        · exact .inl null
        · exact .inr none
        · exact absurd unsupported apart
      rw [runFile,Files.doSysRead,if_pos refused] at returns
      obtain ⟨rfl,_,rfl⟩ := ok_triple returns
      exact ⟨trivial,rfl⟩
    | write pid fd buffer size =>
      unfold runFile Files.doSysWrite at returns
      rcases fits with rfl | none | apart
      · obtain ⟨rfl,_,rfl⟩ := ok_triple returns
        exact ⟨trivial,rfl⟩
      · cases buffer with
        | none =>
          obtain ⟨rfl,_,rfl⟩ := ok_triple returns
          exact ⟨trivial,rfl⟩
        | some data =>
          dsimp only at returns
          rw [if_pos none] at returns
          obtain ⟨rfl,_,rfl⟩ := ok_triple returns
          exact ⟨trivial,rfl⟩
      · exact absurd unsupported apart
    | ioctl pid fd cmd arg =>
      obtain ⟨⟨answer,files'⟩,controls,returns⟩ := ok_of_bind returns
      rw [doSysIoctl_refused cmd arg unsupported] at controls
      obtain ⟨rfl,rfl⟩ := ok_pair controls
      obtain ⟨rfl,_,rfl⟩ := ok_triple returns
      exact ⟨show ((-1#32).signExtend 64).toInt < 0 by decide,rfl⟩

theorem callSafe_iff (call : SessionCall) : CallSafe boot ft s call ↔ KindFits boot ft s call := by
  have safe : Dispatched (runSession boot ft call s) ↔ KindFits boot ft s call := runSession_dispatch call
  refine ⟨fun whole => safe.mp ⟨whole.table,whole.slot⟩,fun fits => ⟨(safe.mpr fits).1,(safe.mpr fits).2,?_⟩⟩
  exact fun unsupported answer next ran => runSession_refused fits unsupported ran

def AllAlong (boot : Boot) (ft : Ftrees) (property : Session → SessionCall → Prop) : List SessionCall → Session → Prop
  | [], _ => True
  | call :: calls, s => property s call ∧
    ∀ answer next, runSession boot ft call s = .ok (answer,next) → AllAlong boot ft property calls next

end Reddyos
