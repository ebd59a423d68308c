import Reddyos.FileDispatch
import Reddyos.FileSequence
import Reddyos.VfsResolve

/-! `vfs_stat` and the two calls on it, at any point of any run of calls on files: what they report is
what the other calls find. -/
namespace Reddyos

open ByteRange SlotTable Transitions

/-- Bits of `st_mode` in `abi-bits/stat.h`. -/
def sIfdir : BitVec 32 := 0x4000#32
def sIfchr : BitVec 32 := 0x2000#32
def sIfreg : BitVec 32 := 0x8000#32
def sIrusr : BitVec 32 := 0x100#32
def sIwusr : BitVec 32 := 0x80#32
def sIxusr : BitVec 32 := 0x40#32
def sIrgrp : BitVec 32 := 0x20#32
def sIwgrp : BitVec 32 := 0x10#32
def sIxgrp : BitVec 32 := 0x8#32
def sIroth : BitVec 32 := 0x4#32
def sIwoth : BitVec 32 := 0x2#32
def sIxoth : BitVec 32 := 0x1#32

/-- `struct stat` without its times, which are zero. -/
structure Stat where
  stDev : U64
  stIno : U64
  stNlink : U64
  stMode : BitVec 32
  stUid : BitVec 32
  stGid : BitVec 32
  stRdev : U64
  stSize : U64
  stBlksize : U64
  stBlocks : U64
  deriving DecidableEq, Repr

/-- `off_t` is signed. -/
def blocksOf (size : U64) : U64 := (size + 511#64).sdiv 512#64

def VfsNode.canWrite (node : VfsNode) : Bool := (node.ops.bind fun ops => (opsTable ops).write).isSome

def VfsNode.canControl (node : VfsNode) : Bool := (node.ops.bind fun ops => (opsTable ops).ioctl).isSome

/-- `none` when it returns -1; `address` says where the vnodes lie. -/
def vfsStat (address : NodeId → U64) (fs : Vfs) (id : NodeId) (buffer : U64) : Except Misread (Option Stat) :=
  if buffer = 0#64 then return none
  else
    let node := fs.node id
    let stat : Stat := ⟨1#64,address id,0#64,0#32,0#32,0#32,0#64,0#64,512#64,0#64⟩
    if node.isDir then
      match node.internal with
      | .table t => do
        let count ← countTable (fs.table t)
        return some { stat with
          stMode := sIfdir ||| sIrusr ||| sIrgrp ||| sIroth ||| sIxusr ||| sIxgrp ||| sIxoth,
          stSize := BitVec.ofInt 64 count, stNlink := 2#64 }
      | _ => throw .notDirectory
    else if node.canControl then
      return some { stat with
        stMode := sIfchr ||| sIrusr ||| sIwusr ||| sIrgrp ||| sIwgrp ||| sIroth ||| sIwoth,
        stSize := node.size, stNlink := 1#64, stRdev := stat.stIno, stBlocks := blocksOf node.size }
    else
      let mode := sIfreg ||| sIrusr ||| sIrgrp ||| sIroth
      return some { stat with
        stMode := if node.canWrite then mode ||| sIwusr ||| sIwgrp ||| sIwoth else mode,
        stSize := node.size, stNlink := 1#64, stBlocks := blocksOf node.size }

inductive StatAnswer where
  | enoent
  | ebadf
  | failed
  | filled (stat : Stat)
  deriving DecidableEq, Repr

def statAnswer : Except Misread (Option Stat) → Except CallStop StatAnswer
  | .error _ => throw (.stop .undefined)
  | .ok none => return .failed
  | .ok (some stat) => return .filled stat

def Files.doSysStat (s : Files) (address : NodeId → U64) (filename : CString) (buffer : U64) : Except CallStop StatAnswer :=
  match vfsFindVnode s.fs filename with
  | .error _ => throw (.stop .undefined)
  | .ok none => return .enoent
  | .ok (some id) => statAnswer (vfsStat address s.fs id buffer)

def Files.doSysFstat (s : Files) (address : NodeId → U64) (pid : Nat) (fd : Int32) (buffer : U64) :
    Except CallStop StatAnswer := do
  match ← s.unpack pid fd with
  | none => return .ebadf
  | some ptr =>
    let file ← s.file ptr
    statAnswer (vfsStat address s.fs (nodeOf file.vnode) buffer)

variable {s next first : Files} {fs fs' : Vfs} {pid : Nat} {fd : Int32} {ptr : U64} {file : OpenFile} {id : NodeId}
variable {address : NodeId → U64} {buffer : U64} {stat : Stat} {events : List FileEvent} {path : CString}

structure Resized (fs fs' : Vfs) : Prop where
  name : ∀ id, (fs'.node id).name = (fs.node id).name
  ops : ∀ id, (fs'.node id).ops = (fs.node id).ops
  internal : ∀ id, (fs'.node id).internal = (fs.node id).internal
  table : fs'.table = fs.table
  root : fs'.root = fs.root

theorem Resized.refl (fs : Vfs) : Resized fs fs := ⟨fun _ => rfl,fun _ => rfl,fun _ => rfl,rfl,rfl⟩

theorem Resized.trans {fs'' : Vfs} (one : Resized fs fs') (two : Resized fs' fs'') : Resized fs fs'' :=
  ⟨fun id => (two.name id).trans (one.name id),fun id => (two.ops id).trans (one.ops id),
    fun id => (two.internal id).trans (one.internal id),two.table.trans one.table,two.root.trans one.root⟩

theorem resized_setNode (fs : Vfs) (id : NodeId) (size : U64) :
    Resized fs (fs.setNode id { fs.node id with size := size }) := by
  refine ⟨fun other => ?_,fun other => ?_,fun other => ?_,rfl,rfl⟩ <;>
    · unfold Vfs.setNode
      dsimp only
      split
      · rename_i here
        rw [here]
      · rfl

theorem Resized.searchTable (resized : Resized fs fs') (name : CString) (slots : List (Option NodeId)) :
    Reddyos.searchTable fs' name slots = Reddyos.searchTable fs name slots := by
  induction slots with
  | nil => rfl
  | cons slot rest ih =>
    cases slot with
    | none => rfl
    | some child =>
      unfold Reddyos.searchTable
      rw [resized.name,ih]

theorem Resized.searchChildren (resized : Resized fs fs') (node : NodeId) (name : CString) :
    Reddyos.searchChildren fs' node name = Reddyos.searchChildren fs node name := by
  unfold Reddyos.searchChildren
  rw [resized.internal,resized.table]
  split
  · rfl
  · rfl
  · exact resized.searchTable name _

theorem Resized.walkPath (resized : Resized fs fs') (fuel : Nat) (node : NodeId) (path : CString) :
    Reddyos.walkPath fs' fuel node path = Reddyos.walkPath fs fuel node path := by
  induction fuel generalizing node path with
  | zero => rfl
  | succ fuel ih =>
    unfold Reddyos.walkPath
    simp only [resized.searchChildren,ih]

theorem Resized.find (resized : Resized fs fs') (path : CString) : vfsFindVnode fs' path = vfsFindVnode fs path := by
  unfold vfsFindVnode
  simp only [resized.root,resized.searchChildren,resized.walkPath]

def truncates (fs : Vfs) (id : NodeId) : FileCall → Bool
  | .open _ path flags allocs =>
    allocs.file.isSome && flags &&& oTrunc ≠ 0#32 && (vfsFindVnode fs path).toOption = some (some id)
  | _ => false

def sizeAfter (fs : Vfs) (events : List FileEvent) (id : NodeId) : U64 :=
  if events.any fun e => truncates fs id e.call then 0#64 else (fs.node id).size

def OpenedOn (first : Files) (reading : Option Reading) (file : OpenFile) : Prop :=
  ∃ path got id, reading = some ⟨path,got⟩ ∧ vfsFindVnode first.fs path = .ok (some id) ∧ file.vnode = id.number

structure StatInv (first : Files) (events : List FileEvent) (s : Files) : Prop where
  fds : FdInv s.fds
  resized : Resized first.fs s.fs
  size : ∀ id, (s.fs.node id).size = sizeAfter first.fs events id
  opened : ∀ pid fd ptr file, processUnpackFd pid fd s.fds = .ok (some ptr) → s.fds.files ptr = some file →
    OpenedOn first (tracked pid fd events) file

theorem sizeAfter_snoc (fs : Vfs) (events : List FileEvent) (e : FileEvent) (id : NodeId) :
    sizeAfter fs (events ++ [e]) id = if truncates fs id e.call then 0#64 else sizeAfter fs events id := by
  unfold sizeAfter
  rw [List.any_append]
  cases events.any fun e => truncates fs id e.call <;> cases here : truncates fs id e.call <;> simp [here]

theorem vfsOpen_cases (opens : s.vfsOpen path flags = .ok (vnode,fs)) :
    vfsFindVnode s.fs path = .ok none ∧ vnode = none ∧ fs = s.fs ∨
      ∃ id, vfsFindVnode s.fs path = .ok (some id) ∧ vnode = some id.number ∧
        fs = if flags &&& oTrunc ≠ 0#32 then s.fs.setNode id { s.fs.node id with size := 0#64 } else s.fs := by
  unfold Files.vfsOpen at opens
  split at opens
  · cases opens
  · rename_i finds
    obtain ⟨rfl,rfl⟩ := ok_pair opens
    exact .inl ⟨finds,rfl,rfl⟩
  · rename_i id finds
    refine .inr ⟨id,finds,?_⟩
    split at opens <;> obtain ⟨rfl,rfl⟩ := ok_pair opens
    · rename_i cut
      exact ⟨rfl,(if_pos cut).symm⟩
    · rename_i whole
      exact ⟨rfl,(if_neg whole).symm⟩

/-- A descriptor behind an open is the new one, or was there before. -/
theorem tracked_open {pid' : Nat} {fd' : Int32} (inv : FdInv s.fds) (few : used s.fds.table < 2^31)
    (unused : ∀ p, allocs.file = some p → s.fds.files p = none) (fds : FdInv next.fds)
    (opens : processFdOpen pid vnode flags allocs s.fds = .ok (r,next.fds)) (known : Option Reading)
    (unpacks : processUnpackFd pid' fd' next.fds = .ok (some ptr)) (open' : next.fds.files ptr = some file) :
    track pid' fd' known ⟨.open pid path flags allocs,.value (r.signExtend 64),bytes⟩ = some ⟨path,[]⟩ ∧
        (∃ v, vnode = some v ∧ file = newFile v flags) ∨
      track pid' fd' known ⟨.open pid path flags allocs,.value (r.signExtend 64),bytes⟩ = known ∧
        processUnpackFd pid' fd' s.fds = .ok (some ptr) ∧ s.fds.files ptr = some file := by
  have number := unpack_small fds unpacks
  obtain ⟨r',next',opens',⟨rfl,same,_⟩ | ⟨k,i,p,v,_,found,rfl,least,opened⟩⟩ :=
    processFdOpen_outcome pid vnode flags few unused
  · obtain ⟨rfl,rfl⟩ := ok_pair (opens.symm.trans opens')
    have other : ¬(pid = pid' ∧ Answer.value ((-1#32).signExtend 64) = .value (fd'.signExtend 64)) := by
      rintro ⟨_,same⟩
      rw [← signExtend_inj (Answer.value.inj same)] at number
      exact absurd number (by decide)
    exact .inr ⟨if_neg other,unpack_same inv same unpacks,by rw [← same.files,open']⟩
  · obtain ⟨rfl,rfl⟩ := ok_pair (opens.symm.trans opens')
    obtain ⟨small,_⟩ := opened.added inv least
    rcases unpack_opened inv opened unpacks with ⟨rfl,rfl,rfl⟩ | ⟨other,old,apart⟩
    · rw [opened.files,if_pos rfl] at open'
      refine .inl ⟨if_pos ⟨rfl,?_⟩,v,found,(Option.some.inj open').symm⟩
      dsimp only
      rw [BitVec.ofNat_toNat,BitVec.setWidth_eq]
    · have other' : ¬(pid = pid' ∧ Answer.value ((BitVec.ofNat 32 i).signExtend 64) = .value (fd'.signExtend 64)) := by
        rintro ⟨rfl,same⟩
        rw [← signExtend_inj (Answer.value.inj same),toNat_index small] at other
        exact other ⟨rfl,rfl⟩
      exact .inr ⟨if_neg other',old,by rw [← open',opened.files,if_neg apart]⟩

theorem StatInv.opens (inv : StatInv first events s) (few : used s.fds.table < 2^31)
    (unused : ∀ p, allocs.file = some p → s.fds.files p = none) (fds : FdInv next.fds)
    (returns : s.doSysOpen pid path flags allocs = .ok (r,next)) :
    StatInv first (events ++ [⟨.open pid path flags allocs,.value (r.signExtend 64),bytes⟩]) next := by
  obtain ⟨vnode,opens,_,looks⟩ := doSysOpen_ok returns
  have leads := inv.resized.find path
  obtain ⟨resized,size,found⟩ : Resized s.fs next.fs ∧
      (∀ id, (next.fs.node id).size = if truncates first.fs id (.open pid path flags allocs) then 0#64
        else (s.fs.node id).size) ∧
      ∀ v, vnode = some v → ∃ id, vfsFindVnode first.fs path = .ok (some id) ∧ v = id.number := by
    rcases looks with ⟨missing,rfl,same⟩ | ⟨there,looks⟩
    · rw [same]
      refine ⟨.refl _,fun id => ?_,nofun⟩
      simp [truncates,missing]
    · rcases vfsOpen_cases looks with ⟨finds,rfl,same⟩ | ⟨id,finds,rfl,same⟩
      · rw [same]
        refine ⟨.refl _,fun id => ?_,nofun⟩
        simp [truncates,← leads,finds,Except.toOption]
      · refine ⟨?_,fun other => ?_,fun v named => ⟨id,leads ▸ finds,(Option.some.inj named).symm⟩⟩
        · rw [same]
          split
          · exact resized_setNode _ _ _
          · exact .refl _
        · have granted : allocs.file.isSome = true := Option.isSome_iff_ne_none.mpr there
          rw [same]
          simp only [truncates,granted,← leads,finds,Except.toOption,Bool.true_and,Option.some.injEq,Bool.and_eq_true,
            decide_eq_true_eq]
          by_cases cut : flags &&& oTrunc ≠ 0#32
          · rw [if_pos cut]
            unfold Vfs.setNode
            dsimp only
            by_cases here : other = id
            · rw [if_pos here,if_pos ⟨cut,here.symm⟩]
            · rw [if_neg here,if_neg fun both => here both.2.symm]
          · rw [if_neg cut,if_neg fun both => cut both.1]
  refine ⟨fds,inv.resized.trans resized,fun id => ?_,fun pid' fd' ptr file unpacks open' => ?_⟩
  · rw [sizeAfter_snoc,size,inv.size]
  · rw [tracked_snoc]
    rcases tracked_open inv.fds few unused fds opens (tracked pid' fd' events) unpacks open' with
      ⟨tracks,v,named,rfl⟩ | ⟨tracks,old,there⟩
    · obtain ⟨id,finds,rfl⟩ := found v named
      exact ⟨path,[],id,tracks,finds,rfl⟩
    · rw [tracks]
      exact inv.opened pid' fd' ptr file old there

theorem StatInv.closes (inv : StatInv first events s) (fds : FdInv next.fds)
    (returns : s.doSysClose pid fd = .ok (r,next)) : StatInv first (events ++ [⟨.close pid fd,answer,bytes⟩]) next := by
  obtain ⟨closes,fs,_⟩ := doSysClose_ok returns
  refine ⟨fds,?_,fun id => ?_,fun pid' fd' ptr file unpacks open' => ?_⟩
  · rw [fs]
    exact inv.resized
  · rw [fs,inv.size,sizeAfter_snoc]
    rfl
  rw [tracked_snoc]
  change OpenedOn first (tracked pid' fd' events) file
  obtain ⟨r',next',closes',outcome⟩ := processFdClose_spec inv.fds pid fd
  obtain ⟨rfl,rfl⟩ := ok_pair (closes.symm.trans closes')
  rcases outcome with same | ⟨_,idx,p,closed⟩
  · exact inv.opened pid' fd' ptr file (unpack_same inv.fds same unpacks) (by rw [← same.files,open'])
  · refine inv.opened pid' fd' ptr file (unpack_closed inv.fds closed unpacks) ?_
    rw [closed.files] at open'
    split at open'
    · cases open'
    · exact open'

/-- Reading adds to what was read, and leaves the path. -/
theorem OpenedOn.track (opened : OpenedOn first known file) (other : ∀ pid path flags allocs, e.call ≠ .open pid path flags allocs)
    (pid : Nat) (fd : Int32) : OpenedOn first (track pid fd known e) file := by
  obtain ⟨path,got,id,reading,finds,vnode⟩ := opened
  unfold Reddyos.track
  split
  · rename_i opens
    exact absurd opens (other _ _ _ _)
  · split
    · rw [reading]
      exact ⟨path,_,id,rfl,finds,vnode⟩
    · exact ⟨path,got,id,reading,finds,vnode⟩
  · exact ⟨path,got,id,reading,finds,vnode⟩

theorem StatInv.keeps (inv : StatInv first events s) (kept : Kept s next)
    (other : ∀ pid path flags allocs, e.call ≠ .open pid path flags allocs) : StatInv first (events ++ [e]) next := by
  refine ⟨inv.fds.kept kept,?_,fun id => ?_,fun pid fd ptr file unpacks open' => ?_⟩
  · rw [kept.fs]
    exact inv.resized
  · have whole : truncates first.fs id e.call = false := by
      unfold truncates
      split
      · rename_i opens
        exact absurd opens (other _ _ _ _)
      · rfl
    rw [kept.fs,inv.size,sizeAfter_snoc,whole]
    rfl
  rw [kept.unpack] at unpacks
  rw [tracked_snoc]
  rcases kept.files ptr with same | ⟨before,offset,there,moved⟩
  · exact (inv.opened pid fd ptr file unpacks (by rw [← same,open'])).track other pid fd
  · obtain rfl := Option.some.inj (open'.symm.trans moved)
    obtain ⟨path,got,id,reading,finds,vnode⟩ := inv.opened pid fd ptr before unpacks there
    exact OpenedOn.track ⟨path,got,id,reading,finds,vnode⟩ other pid fd

theorem StatInv.step (inv : StatInv first events s) (few : FewOpen s e.call) (step : FileStep s e next) :
    StatInv first (events ++ [e]) next := by
  have fds := FileStep.inv inv.fds few step
  obtain ⟨unused,returns⟩ := step
  obtain ⟨call,answer,bytes⟩ := e
  dsimp only at few unused returns
  rcases runFile_cases returns with ⟨pid,path,flags,allocs,r,rfl,rfl,opens⟩ | ⟨pid,fd,r,rfl,closes⟩ | ⟨kept,other,_⟩
  · exact inv.opens few unused fds opens
  · exact inv.closes fds closes
  · exact inv.keeps kept other

theorem statInv_run (run : Run (fun s => s = first ∧ FilesStart s) FileStep (fun s e => FewOpen s e.call) events s) :
    StatInv first events s := by
  refine run.invariant (StatInv first) ?_ fun _ _ _ _ inv few step => inv.step few step
  rintro s ⟨rfl,begins⟩
  have fds : FdInv s.fds := begins ▸ fdInit_inv
  refine ⟨fds,.refl _,fun _ => rfl,fun pid fd ptr file unpacks _ => ?_⟩
  obtain ⟨_,idx,entry,_⟩ := (unpack_iff fds).mp unpacks
  have empty : slot (s.fds.fds pid) fd.toNat = none := by
    rw [begins]
    exact slot_replicate 16 _
  rw [empty] at entry
  cases entry

def sIfmt : BitVec 32 := 0xF000#32

def Stat.isDirectory (stat : Stat) : Bool := stat.stMode &&& sIfmt = sIfdir

/-- The other calls find what the stat of the descriptor says. -/
structure StatTells (first : Files) (events : List FileEvent) (s : Files) (pid : Nat) (fd : Int32) (path : CString)
    (id : NodeId) (file : OpenFile) (stat : Stat) : Prop where
  kind : vfsIsDir s.fs path = .ok stat.isDirectory
  count : stat.isDirectory = true → ∃ n, vfsDirCount s.fs path = .ok n ∧ stat.stSize = BitVec.ofInt 64 n
  size : stat.isDirectory = false → stat.stSize = sizeAfter first.fs events id
  blocks : stat.isDirectory = false → stat.stSize.toNat < 2^62 →
    stat.stSize.toNat ≤ 512 * stat.stBlocks.toNat ∧ 512 * stat.stBlocks.toNat < stat.stSize.toNat + 512
  ends : stat.isDirectory = false → 0 ≤ stat.stSize.toInt →
    ∃ next, s.doSysLseek pid fd 0#64 .end = .ok (.value stat.stSize,next)
  reads : ∀ address buffer request, (s.fs.node id).ops = some .tarOps → (s.fs.node id).internal = .data address →
    buffer ≠ 0#64 → request ≠ 0#64 → stat.stSize.toNat < 2^31 → file.offset.toNat + request.toNat < 2^64 →
    ∃ next, s.doSysRead pid fd buffer request =
      .ok (.value (BitVec.ofNat 64 (min request.toNat (stat.stSize.toNat - file.offset.toNat))),
        cells s.archive (address + file.offset) (min request.toNat (stat.stSize.toNat - file.offset.toNat)),next)
  writes : ∀ data size, size ≠ 0#64 →
    (Dispatched (s.doSysWrite pid fd (some data) size) ↔ stat.stMode &&& sIwusr ≠ 0#32)

theorem canWrite_iff (node : VfsNode) : node.canWrite = true ↔ node.CanWrite := by
  unfold VfsNode.canWrite VfsNode.CanWrite
  cases node.ops with
  | none => simp
  | some ops =>
    simp only [Option.bind_some,Option.some.injEq]
    rcases opsTable_canWrite ops with ⟨kind,write,there,_⟩ | ⟨kind,missing⟩
    · rw [there]
      exact ⟨fun _ => kind,fun _ => rfl⟩
    · rw [missing]
      exact ⟨nofun,fun can => absurd can kind⟩

theorem canControl_write {node : VfsNode} (control : node.canControl = true) : node.CanWrite := by
  unfold VfsNode.canControl at control
  cases named : node.ops with
  | none =>
    rw [named] at control
    cases control
  | some ops =>
    rw [named] at control
    rcases opsTable_canControl ops with ⟨_,rfl,_⟩ | ⟨missing,_⟩
    · exact .inr (.inr named)
    · simp [missing] at control

theorem isDir_write {node : VfsNode} (isDir : node.isDir = true) : ¬node.CanWrite := by
  have none' : node.ops = none := by
    simp only [VfsNode.isDir,decide_eq_true_eq] at isDir
    exact isDir.1
  unfold VfsNode.CanWrite
  rw [none']
  rintro (same | same | same) <;> cases same

theorem blocksOf_bounds {size : U64} (small : size.toNat < 2^62) :
    size.toNat ≤ 512 * (blocksOf size).toNat ∧ 512 * (blocksOf size).toNat < size.toNat + 512 := by
  have sum : (size + 511#64).toNat = size.toNat + 511 := by
    rw [BitVec.toNat_add,BitVec.toNat_ofNat]
    omega
  have positive : (size + 511#64).msb = false := by
    rw [BitVec.msb_eq_false_iff_two_mul_lt,sum]
    omega
  have quotient : (blocksOf size).toNat = (size.toNat + 511) / 512 := by
    unfold blocksOf
    rw [BitVec.sdiv_eq,positive]
    change ((size + 511#64) / 512#64).toNat = _
    rw [BitVec.toNat_udiv,sum]
    rfl
  omega

/-- A filled stat is of a directory, or of something else. -/
theorem vfsStat_ok (typed : (fs.node id).Typed) (stats : vfsStat address fs id buffer = .ok (some stat)) :
    ((fs.node id).isDir = true ∧ stat.isDirectory = true ∧ stat.stMode &&& sIwusr = 0#32 ∧
        ∃ t n, (fs.node id).internal = .table t ∧ countTable (fs.table t) = .ok n ∧ stat.stSize = BitVec.ofInt 64 n) ∨
      (fs.node id).isDir = false ∧ stat.isDirectory = false ∧ stat.stSize = (fs.node id).size ∧
        stat.stBlocks = blocksOf (fs.node id).size ∧ (stat.stMode &&& sIwusr ≠ 0#32 ↔ (fs.node id).CanWrite) := by
  unfold vfsStat at stats
  split at stats
  · cases stats
  dsimp only at stats
  split at stats
  · rename_i isDir
    obtain ⟨t,inside⟩ := typed.isDir.mp isDir
    rw [inside] at stats
    obtain ⟨count,counts,stats⟩ := ok_of_bind stats
    obtain rfl := Option.some.inj (Except.ok.inj stats)
    have kind : (sIfdir ||| sIrusr ||| sIrgrp ||| sIroth ||| sIxusr ||| sIxgrp ||| sIxoth) &&& sIfmt = sIfdir := by decide
    exact .inl ⟨isDir,decide_eq_true kind,by dsimp only; decide,t,count,inside,counts,rfl⟩
  rename_i file
  rw [Bool.not_eq_true] at file
  split at stats
  · rename_i control
    obtain rfl := Option.some.inj (Except.ok.inj stats)
    have kind : (sIfchr ||| sIrusr ||| sIwusr ||| sIrgrp ||| sIwgrp ||| sIroth ||| sIwoth) &&& sIfmt ≠ sIfdir := by decide
    exact .inr ⟨file,decide_eq_false kind,rfl,rfl,iff_of_true (by dsimp only; decide) (canControl_write control)⟩
  · obtain rfl := Option.some.inj (Except.ok.inj stats)
    refine .inr ⟨file,?_,rfl,rfl,?_⟩
    · unfold Stat.isDirectory
      dsimp only
      split <;> decide
    · rw [← canWrite_iff]
      dsimp only
      split
      · rename_i can
        exact iff_of_true (by decide) can
      · rename_i cannot
        exact iff_of_false (by decide) cannot

/-- A stat that is not filled had no buffer, or it ran over the children of a directory. -/
theorem vfsStat_fails (typed : (fs.node id).Typed) (given : buffer ≠ 0#64)
    (fails : ∀ stat, vfsStat address fs id buffer ≠ .ok (some stat)) :
    ∃ t misread, (fs.node id).internal = .table t ∧ countTable (fs.table t) = .error misread ∧
      vfsStat address fs id buffer = .error misread := by
  unfold vfsStat at fails ⊢
  rw [if_neg given] at fails ⊢
  dsimp only at fails ⊢
  split at fails
  · rename_i isDir
    obtain ⟨t,inside⟩ := typed.isDir.mp isDir
    rw [if_pos isDir]
    rw [inside] at fails ⊢
    dsimp only at fails ⊢
    cases counted : countTable (fs.table t) with
    | ok count =>
      rw [counted] at fails
      exact absurd rfl (fails _)
    | error misread => exact ⟨t,misread,rfl,counted,rfl⟩
  · split at fails <;> exact absurd rfl (fails _)

theorem lseek_end (unpacks : processUnpackFd pid fd s.fds = .ok (some ptr)) (open' : s.fds.files ptr = some file)
    (whole : 0 ≤ (s.node file).size.toInt) :
    ∃ next, s.doSysLseek pid fd 0#64 .end = .ok (.value (s.node file).size,next) := by
  have clamps : seekClamp (s.node file).size ((s.node file).size + 0#64) = (s.node file).size := by
    unfold seekClamp
    dsimp only
    rw [BitVec.add_zero,if_neg (show ¬(s.node file).size.toInt < 0 by omega),if_neg (Int.lt_irrefl _)]
  have seeks : s.vfsLseek ptr 0#64 .end = .ok ((s.node file).size,s.moveTo ptr file (s.node file).size) := by
    unfold Files.vfsLseek
    rw [file_ok.mpr open']
    simp only [bind,Except.bind,seekTarget,pure,Except.pure,clamps]
  refine ⟨s.moveTo ptr file (s.node file).size,?_⟩
  unfold Files.doSysLseek
  rw [unpack_ok.mpr unpacks]
  simp only [bind,Except.bind,seeks]
  rfl

/-- A read of a member takes what is left of its size, from any offset. -/
theorem member_takes {request : U64} (unpacks : processUnpackFd pid fd s.fds = .ok (some ptr))
    (open' : s.fds.files ptr = some file) (ops : (s.node file).ops = some .tarOps)
    (inside : (s.node file).internal = .data start) (given : buffer ≠ 0#64) (some' : request ≠ 0#64)
    (small : (s.node file).size.toNat < 2^31) (fits : file.offset.toNat + request.toNat < 2^64) :
    ∃ next, s.doSysRead pid fd buffer request =
      .ok (.value (BitVec.ofNat 64 (min request.toNat ((s.node file).size.toNat - file.offset.toNat))),
        cells s.archive (start + file.offset) (min request.toNat ((s.node file).size.toNat - file.offset.toNat)),next) := by
  have reads := doSysRead_reads unpacks open' (Readable.tar start ops inside) given some'
  have count := toNat_clamped_iff.mpr (.inr fits : (s.node file).size ≤ file.offset ∨ _)
  have number : clamped (s.node file).size file.offset request =
      BitVec.ofNat 64 (min request.toNat ((s.node file).size.toNat - file.offset.toNat)) := by
    rw [← count,BitVec.ofNat_toNat,BitVec.setWidth_eq]
  rw [widen_narrow (by omega),count,number] at reads
  exact ⟨_,reads⟩

theorem StatInv.tells (inv : StatInv first events s) (typed : (s.fs.node id).Typed)
    (unpacks : processUnpackFd pid fd s.fds = .ok (some ptr)) (open' : s.fds.files ptr = some file)
    (finds : vfsFindVnode s.fs path = .ok (some id)) (vnode : file.vnode = id.number)
    (stats : vfsStat address s.fs id buffer = .ok (some stat)) : StatTells first events s pid fd path id file stat := by
  have node := s.node_eq vnode
  have writes (data : Nat → BitVec 8) (size : U64) (some' : size ≠ 0#64) :
      Dispatched (s.doSysWrite pid fd (some data) size) ↔ (s.fs.node id).CanWrite := by
    rw [doSysWrite_dispatch,or_iff_right (Option.some_ne_none _),or_iff_right some',openOn_iff unpacks open',not_not,node]
  have kind : vfsIsDir s.fs path = .ok (s.fs.node id).isDir := by
    unfold vfsIsDir
    rw [finds]
    rfl
  rcases vfsStat_ok typed stats with ⟨isDir,listed,none',t,n,inside,counts,size⟩ | ⟨file',plain,size,blocks,bit⟩
  · have other {p : Prop} (plain : stat.isDirectory = false) : p := by
      rw [listed] at plain
      cases plain
    refine ⟨by rw [kind,isDir,listed],fun _ => ⟨n,?_,size⟩,other,other,other,fun start _ _ ops => ?_,
      fun data size some' => ?_⟩
    · unfold vfsDirCount
      rw [finds]
      dsimp only [bind,Except.bind]
      rw [inside]
      exact counts
    · simp [VfsNode.isDir,ops] at isDir
    · rw [writes data size some',none']
      exact iff_of_false (isDir_write isDir) (not_not.mpr rfl)
  · have whole : stat.stSize = (s.node file).size := by rw [size,node]
    refine ⟨by rw [kind,file',plain],fun listed => ?_,fun _ => size.trans (inv.size id),fun _ small => ?_,
      fun _ positive => ?_,fun start buffer request ops inside given some' small fits => ?_,fun data size some' => ?_⟩
    · rw [plain] at listed
      cases listed
    · rw [blocks,← size]
      exact blocksOf_bounds small
    · rw [whole] at positive ⊢
      exact lseek_end unpacks open' positive
    · rw [whole] at small ⊢
      exact member_takes unpacks open' (by rw [node,ops]) (by rw [node,inside]) given some' small fits
    · rw [writes data size some',bit]

theorem doSysFstat_file (unpacks : processUnpackFd pid fd s.fds = .ok (some ptr)) (open' : s.fds.files ptr = some file)
    (vnode : file.vnode = id.number) :
    s.doSysFstat address pid fd buffer = statAnswer (vfsStat address s.fs id buffer) := by
  unfold Files.doSysFstat
  rw [unpack_ok.mpr unpacks]
  simp only [bind,Except.bind,file_ok.mpr open',vnode,nodeOf_number]

end Reddyos
