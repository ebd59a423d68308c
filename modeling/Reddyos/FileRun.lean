import Reddyos.FileCalls
import Reddyos.Transitions

/-! Runs of calls on files by any processes. Only an open or a close changes which descriptors
there are; every other call moves at most the offset of one file. -/
namespace Reddyos

open ByteRange SlotTable Transitions

structure FileEvent where
  call : FileCall
  answer : Answer
  bytes : List (BitVec 8)

def FileUnused (s : Files) : FileCall → Prop
  | .open _ _ _ allocs => ∀ p, allocs.file = some p → s.fds.files p = none
  | _ => True

def FileStep (s : Files) (e : FileEvent) (next : Files) : Prop :=
  FileUnused s e.call ∧ runFile e.call s = .ok (e.answer,e.bytes,next)

def FewOpen (s : Files) : FileCall → Prop
  | .open _ _ _ _ => used s.fds.table < 2^31
  | _ => True

variable {s next : Files} {pid : Nat} {fd : Int32} {ptr : U64} {file : OpenFile} {count : Int32}

@[simp]
theorem liftStop_ok {returned : Except Stop α} : liftStop returned = .ok value ↔ returned = .ok value := by
  cases returned <;> simp [liftStop]

theorem unpack_ok : s.unpack pid fd = .ok found ↔ processUnpackFd pid fd s.fds = .ok found := liftStop_ok

theorem file_ok : s.file ptr = .ok file ↔ s.fds.files ptr = some file := by
  unfold Files.file
  cases s.fds.files ptr with
  | none => exact ⟨nofun,nofun⟩
  | some other => exact ⟨fun same => congrArg some (Except.ok.inj same),fun same => congrArg Except.ok (Option.some.inj same)⟩

theorem ops_ok : s.ops file = .ok table ↔ ∃ ops, (s.node file).ops = some ops ∧ opsTable ops = table := by
  unfold Files.ops
  cases (s.node file).ops with
  | none => exact ⟨nofun,nofun⟩
  | some ops =>
    refine ⟨fun same => ⟨ops,rfl,Except.ok.inj same⟩,?_⟩
    rintro ⟨_,same,rfl⟩
    obtain rfl := Option.some.inj same
    rfl

/-- Nothing but the offsets of files, the memory and the console has changed. -/
structure Kept (s next : Files) : Prop where
  table : next.fds.table = s.fds.table
  fds : next.fds.fds = s.fds.fds
  files : ∀ p, next.fds.files p = s.fds.files p ∨
    ∃ file offset, s.fds.files p = some file ∧ next.fds.files p = some { file with offset := offset }
  fs : next.fs = s.fs
  archive : next.archive = s.archive

theorem Kept.refl (s : Files) : Kept s s := ⟨rfl,rfl,fun _ => .inl rfl,rfl,rfl⟩

theorem Kept.moveTo (open' : s.fds.files ptr = some file) (fds : next.fds = s.fds) (fs : next.fs = s.fs)
    (archive : next.archive = s.archive) (offset : U64) : Kept s (next.moveTo ptr file offset) := by
  have table : next.fds.table = s.fds.table := congrArg FdState.table fds
  have entries : next.fds.fds = s.fds.fds := congrArg FdState.fds fds
  refine ⟨table,entries,fun p => ?_,fs,archive⟩
  by_cases here : p = ptr
  · exact .inr ⟨file,offset,by rw [here,open'],if_pos here⟩
  · exact .inl ((if_neg here).trans (by rw [fds]))

theorem Kept.advance (open' : s.fds.files ptr = some file) (fds : next.fds = s.fds) (fs : next.fs = s.fs)
    (archive : next.archive = s.archive) (count : Int32) : Kept s (next.advance ptr file count) := by
  unfold Files.advance
  split
  · exact Kept.moveTo open' fds fs archive _
  · exact ⟨congrArg FdState.table fds,congrArg FdState.fds fds,fun p => .inl (by rw [fds]),fs,archive⟩

/-- A write of any device leaves descriptors, vnodes and the archive alone. -/
theorem opsTable_write (found : (opsTable ops).write = some write)
    (returns : write s node offset data size = .ok (count,bytes,next)) :
    next.fds = s.fds ∧ next.fs = s.fs ∧ next.archive = s.archive := by
  have console : Files.stdWrite s node offset data size = .ok (count,bytes,next) →
      next.fds = s.fds ∧ next.fs = s.fs ∧ next.archive = s.archive := by
    intro returns
    simp only [Files.stdWrite,pure,Except.pure,Except.ok.injEq,Prod.mk.injEq] at returns
    obtain ⟨_,_,rfl⟩ := returns
    exact ⟨rfl,rfl,rfl⟩
  unfold opsTable at found
  split at found
  · cases found
  · cases found
  · obtain rfl := Option.some.inj found
    exact console returns
  · obtain rfl := Option.some.inj found
    exact console returns
  · obtain rfl := Option.some.inj found
    unfold Files.fbWrite at returns
    split at returns
    · cases returns
    dsimp only at returns
    split at returns
    · obtain ⟨_,_,rfl⟩ := ok_triple returns
      exact ⟨rfl,rfl,rfl⟩
    · cases returns
  · cases found

theorem opsTable_ioctl (found : (opsTable ops).ioctl = some ioctl)
    (returns : ioctl s node cmd arg = (result,next)) :
    next.fds = s.fds ∧ next.fs = s.fs ∧ next.archive = s.archive := by
  unfold opsTable at found
  split at found
  · cases found
  · cases found
  · cases found
  · cases found
  · obtain rfl := Option.some.inj found
    unfold Files.fbIoctl at returns
    split at returns
    · split at returns <;> obtain ⟨_,rfl⟩ := Prod.mk.inj returns <;> exact ⟨rfl,rfl,rfl⟩
    split at returns
    · obtain ⟨_,rfl⟩ := Prod.mk.inj returns
      exact ⟨rfl,rfl,rfl⟩
    split at returns
    · obtain ⟨_,rfl⟩ := Prod.mk.inj returns
      exact ⟨rfl,rfl,rfl⟩
    split at returns
    · split at returns <;> obtain ⟨_,rfl⟩ := Prod.mk.inj returns <;> exact ⟨rfl,rfl,rfl⟩
    · obtain ⟨_,rfl⟩ := Prod.mk.inj returns
      exact ⟨rfl,rfl,rfl⟩
  · cases found

theorem vfsRead_ok (returns : s.vfsRead ptr size = .ok (count,bytes,next)) : ∃ file ops read,
    s.fds.files ptr = some file ∧ (s.node file).ops = some ops ∧ (opsTable ops).read = some read ∧
      read s (s.node file) file.offset size = .ok (count,bytes) ∧ next = s.advance ptr file count := by
  obtain ⟨file,open',returns⟩ := ok_of_bind returns
  obtain ⟨table,named,returns⟩ := ok_of_bind returns
  obtain ⟨ops,has,rfl⟩ := ops_ok.mp named
  dsimp only at returns
  split at returns
  · cases returns
  · rename_i read found
    obtain ⟨⟨count',bytes'⟩,reads,returns⟩ := ok_of_bind returns
    obtain ⟨rfl,rfl,rfl⟩ := ok_triple returns
    exact ⟨file,ops,read,file_ok.mp open',has,found,reads,rfl⟩

theorem vfsWrite_ok (returns : s.vfsWrite ptr data size = .ok (count,bytes,next)) : ∃ file ops write written,
    s.fds.files ptr = some file ∧ (s.node file).ops = some ops ∧ (opsTable ops).write = some write ∧
      write s (s.node file) file.offset data size = .ok (count,bytes,written) ∧
      next = written.advance ptr file count := by
  obtain ⟨file,open',returns⟩ := ok_of_bind returns
  obtain ⟨table,named,returns⟩ := ok_of_bind returns
  obtain ⟨ops,has,rfl⟩ := ops_ok.mp named
  dsimp only at returns
  split at returns
  · cases returns
  · rename_i write found
    obtain ⟨⟨count',bytes',written⟩,writes,returns⟩ := ok_of_bind returns
    obtain ⟨rfl,rfl,rfl⟩ := ok_triple returns
    exact ⟨file,ops,write,written,file_ok.mp open',has,found,writes,rfl⟩

/-- A read is refused, or it reads through the descriptor. -/
theorem doSysRead_ok (returns : s.doSysRead pid fd buffer size = .ok (answer,bytes,next)) :
    (next = s ∧ bytes = []) ∨ ∃ ptr count, processUnpackFd pid fd s.fds = .ok (some ptr) ∧
      s.vfsRead ptr size = .ok (count,bytes,next) ∧ answer = .value (count.signExtend 64) := by
  unfold Files.doSysRead at returns
  split at returns
  · obtain ⟨_,rfl,rfl⟩ := ok_triple returns
    exact .inl ⟨rfl,rfl⟩
  obtain ⟨found,unpacks,returns⟩ := ok_of_bind returns
  cases found with
  | none =>
    obtain ⟨_,rfl,rfl⟩ := ok_triple returns
    exact .inl ⟨rfl,rfl⟩
  | some ptr =>
    obtain ⟨⟨count,bytes',next'⟩,reads,returns⟩ := ok_of_bind returns
    obtain ⟨rfl,rfl,rfl⟩ := ok_triple returns
    exact .inr ⟨ptr,count,unpack_ok.mp unpacks,reads,rfl⟩

theorem doSysWrite_ok (returns : s.doSysWrite pid fd buffer size = .ok (answer,bytes,next)) :
    (next = s ∧ bytes = []) ∨ ∃ data ptr count, buffer = some data ∧ processUnpackFd pid fd s.fds = .ok (some ptr) ∧
      s.vfsWrite ptr data size = .ok (count,bytes,next) ∧ answer = .value (count.signExtend 64) := by
  unfold Files.doSysWrite at returns
  split at returns
  · obtain ⟨_,rfl,rfl⟩ := ok_triple returns
    exact .inl ⟨rfl,rfl⟩
  rename_i data
  split at returns
  · obtain ⟨_,rfl,rfl⟩ := ok_triple returns
    exact .inl ⟨rfl,rfl⟩
  obtain ⟨found,unpacks,returns⟩ := ok_of_bind returns
  cases found with
  | none =>
    obtain ⟨_,rfl,rfl⟩ := ok_triple returns
    exact .inl ⟨rfl,rfl⟩
  | some ptr =>
    obtain ⟨⟨count,bytes',next'⟩,writes,returns⟩ := ok_of_bind returns
    obtain ⟨rfl,rfl,rfl⟩ := ok_triple returns
    exact .inr ⟨data,ptr,count,rfl,unpack_ok.mp unpacks,writes,rfl⟩

theorem doSysIoctl_kept (returns : s.doSysIoctl pid fd cmd arg = .ok (answer,next)) : Kept s next := by
  obtain ⟨found,_,returns⟩ := ok_of_bind returns
  cases found with
  | none =>
    obtain ⟨_,rfl⟩ := ok_pair returns
    exact Kept.refl s
  | some ptr =>
    obtain ⟨⟨result,next'⟩,controls,returns⟩ := ok_of_bind returns
    obtain ⟨_,rfl⟩ := ok_pair returns
    obtain ⟨file,_,controls⟩ := ok_of_bind controls
    split at controls
    · obtain ⟨_,rfl⟩ := ok_pair controls
      exact Kept.refl s
    split at controls
    · obtain ⟨_,rfl⟩ := ok_pair controls
      exact Kept.refl s
    · rename_i ioctl found
      obtain ⟨fds,fs,archive⟩ := opsTable_ioctl found (Except.ok.inj controls)
      exact ⟨congrArg FdState.table fds,congrArg FdState.fds fds,fun p => .inl (by rw [fds]),fs,archive⟩

/-- A seek is refused, or it moves the file to the position it returns. -/
theorem doSysLseek_ok (returns : s.doSysLseek pid fd offset whence = .ok (answer,next)) :
    (next = s ∧ answer = .ebadf) ∨ ∃ ptr file target, processUnpackFd pid fd s.fds = .ok (some ptr) ∧
      s.fds.files ptr = some file ∧ seekTarget file (s.node file).size offset whence = .ok target ∧
      answer = .value (seekClamp (s.node file).size target) ∧
      next = s.moveTo ptr file (seekClamp (s.node file).size target) := by
  obtain ⟨found,unpacks,returns⟩ := ok_of_bind returns
  cases found with
  | none =>
    obtain ⟨rfl,rfl⟩ := ok_pair returns
    exact .inl ⟨rfl,rfl⟩
  | some ptr =>
    obtain ⟨⟨position,next'⟩,seeks,returns⟩ := ok_of_bind returns
    obtain ⟨rfl,rfl⟩ := ok_pair returns
    obtain ⟨file,open',seeks⟩ := ok_of_bind seeks
    obtain ⟨target,aims,seeks⟩ := ok_of_bind seeks
    obtain ⟨rfl,rfl⟩ := ok_pair seeks
    exact .inr ⟨ptr,file,target,unpack_ok.mp unpacks,file_ok.mp open',aims,rfl,rfl⟩

theorem doSysRead_kept (returns : s.doSysRead pid fd buffer size = .ok (answer,bytes,next)) : Kept s next := by
  rcases doSysRead_ok returns with ⟨rfl,_⟩ | ⟨ptr,count,_,reads,_⟩
  · exact Kept.refl _
  · obtain ⟨file,_,_,open',_,_,_,rfl⟩ := vfsRead_ok reads
    exact Kept.advance open' rfl rfl rfl count

theorem doSysWrite_kept (returns : s.doSysWrite pid fd buffer size = .ok (answer,bytes,next)) : Kept s next := by
  rcases doSysWrite_ok returns with ⟨rfl,_⟩ | ⟨_,ptr,count,_,_,writes,_⟩
  · exact Kept.refl _
  · obtain ⟨file,_,_,written,open',_,found,copies,rfl⟩ := vfsWrite_ok writes
    obtain ⟨fds,fs,archive⟩ := opsTable_write found copies
    exact Kept.advance open' fds fs archive count

theorem doSysLseek_kept (returns : s.doSysLseek pid fd offset whence = .ok (answer,next)) : Kept s next := by
  rcases doSysLseek_ok returns with ⟨rfl,_⟩ | ⟨ptr,file,target,_,open',_,_,rfl⟩
  · exact Kept.refl _
  · exact Kept.moveTo open' rfl rfl rfl _

/-- The vnode is looked up behind the allocation of the file. -/
theorem doSysOpen_ok (returns : s.doSysOpen pid path flags allocs = .ok (r,next)) : ∃ vnode,
    processFdOpen pid vnode flags allocs s.fds = .ok (r,next.fds) ∧ next.archive = s.archive ∧
      ((allocs.file = none ∧ vnode = none ∧ next.fs = s.fs) ∨
        allocs.file ≠ none ∧ s.vfsOpen path flags = .ok (vnode,next.fs)) := by
  obtain ⟨⟨vnode,fs⟩,looks,returns⟩ := ok_of_bind returns
  obtain ⟨⟨fd,fds⟩,opens,returns⟩ := ok_of_bind returns
  obtain ⟨rfl,rfl⟩ := ok_pair returns
  refine ⟨vnode,liftStop_ok.mp opens,rfl,?_⟩
  unfold Files.openVnode at looks
  split at looks
  · rename_i missing
    obtain ⟨rfl,rfl⟩ := ok_pair looks
    exact .inl ⟨missing,rfl,rfl⟩
  · rename_i there
    exact .inr ⟨there,looks⟩

theorem doSysClose_ok (returns : s.doSysClose pid fd = .ok (r,next)) :
    processFdClose pid fd s.fds = .ok (r,next.fds) ∧ next.fs = s.fs ∧ next.archive = s.archive := by
  obtain ⟨⟨result,fds⟩,closes,returns⟩ := ok_of_bind returns
  obtain ⟨rfl,rfl⟩ := ok_pair returns
  exact ⟨liftStop_ok.mp closes,rfl,rfl⟩

/-- Everything a call does: it opens, it closes, or it keeps the descriptors. -/
theorem runFile_cases (returns : runFile call s = .ok (answer,bytes,next)) :
    (∃ pid path flags allocs r, call = .open pid path flags allocs ∧ answer = .value (r.signExtend 64) ∧
      s.doSysOpen pid path flags allocs = .ok (r,next)) ∨
    (∃ pid fd r, call = .close pid fd ∧ s.doSysClose pid fd = .ok (r,next)) ∨
    Kept s next ∧ (∀ pid path flags allocs, call ≠ .open pid path flags allocs) ∧ ∀ pid fd, call ≠ .close pid fd := by
  cases call with
  | «open» pid path flags allocs =>
    obtain ⟨⟨r,next'⟩,opens,returns⟩ := ok_of_bind returns
    obtain ⟨rfl,_,rfl⟩ := ok_triple returns
    exact .inl ⟨pid,path,flags,allocs,r,rfl,rfl,opens⟩
  | close pid fd =>
    obtain ⟨⟨r,next'⟩,closes,returns⟩ := ok_of_bind returns
    obtain ⟨_,_,rfl⟩ := ok_triple returns
    exact .inr (.inl ⟨pid,fd,r,rfl,closes⟩)
  | read pid fd buffer size => exact .inr (.inr ⟨doSysRead_kept returns,nofun,nofun⟩)
  | write pid fd buffer size => exact .inr (.inr ⟨doSysWrite_kept returns,nofun,nofun⟩)
  | ioctl pid fd cmd arg =>
    obtain ⟨⟨answer',next'⟩,controls,returns⟩ := ok_of_bind returns
    obtain ⟨_,_,rfl⟩ := ok_triple returns
    exact .inr (.inr ⟨doSysIoctl_kept controls,nofun,nofun⟩)
  | lseek pid fd offset whence =>
    obtain ⟨⟨answer',next'⟩,seeks,returns⟩ := ok_of_bind returns
    obtain ⟨_,_,rfl⟩ := ok_triple returns
    exact .inr (.inr ⟨doSysLseek_kept seeks,nofun,nofun⟩)

theorem Kept.open' (kept : Kept s next) (found : s.fds.files ptr = some file) :
    ∃ offset, next.fds.files ptr = some { file with offset := offset } := by
  rcases kept.files ptr with same | ⟨file',offset,before,after⟩
  · exact ⟨file.offset,by rw [same,found]⟩
  · obtain rfl := Option.some.inj (found.symm.trans before)
    exact ⟨offset,after⟩

theorem FdInv.kept (inv : FdInv s.fds) (kept : Kept s next) : FdInv next.fds where
  entry := by
    intro pid i idx found
    rw [kept.fds] at found
    obtain ⟨index,p,file,there,live,once⟩ := inv.entry pid i idx found
    obtain ⟨offset,live⟩ := kept.open' live
    exact ⟨index,p,_,by rw [kept.table,there],live,once⟩
  unique := by
    rw [kept.fds]
    exact inv.unique
  owned := by
    rw [kept.fds,kept.table]
    exact inv.owned
  small := by
    rw [kept.table]
    exact inv.small
  apart := by
    rw [kept.table]
    exact inv.apart

theorem FileStep.inv (inv : FdInv s.fds) (few : FewOpen s e.call) (step : FileStep s e next) : FdInv next.fds := by
  obtain ⟨unused,returns⟩ := step
  rcases runFile_cases returns with ⟨pid,path,flags,allocs,r,call,_,opens⟩ | ⟨pid,fd,r,_,closes⟩ | ⟨kept,_⟩
  · rw [call] at unused few
    obtain ⟨vnode,opens,_⟩ := doSysOpen_ok opens
    have unused : Unused s.fds (.open pid vnode flags allocs) := unused
    exact runFd_inv inv unused few (by simp only [runFd,opens]; rfl)
  · have unused : Unused s.fds (.close pid fd) := trivial
    exact runFd_inv inv unused trivial (by simp only [runFd,(doSysClose_ok closes).1]; rfl)
  · exact inv.kept kept

def FilesStart (s : Files) : Prop := s.fds = fdInit

theorem files_inv (run : Run FilesStart FileStep (fun s e => FewOpen s e.call) events s) : FdInv s.fds :=
  run.invariant (fun _ s => FdInv s.fds) (fun _ begins => begins ▸ fdInit_inv)
    fun _ _ _ _ inv few step => FileStep.inv inv few step

theorem FdInv.unpack_apart (inv : FdInv s.fds) (first : processUnpackFd pid fd s.fds = .ok (some ptr))
    (second : processUnpackFd pid' fd' s.fds = .ok (some ptr)) : pid = pid' ∧ fd = fd' := by
  obtain ⟨_,idx,entry,file⟩ := (unpack_iff inv).mp first
  obtain ⟨_,idx',entry',file'⟩ := (unpack_iff inv).mp second
  obtain rfl := BitVec.eq_of_toNat_eq (inv.apart _ _ _ file file')
  obtain ⟨rfl,same⟩ := inv.unique _ _ _ _ _ entry entry'
  exact ⟨rfl,BitVec.eq_of_toNat_eq same⟩

theorem Kept.unpack (kept : Kept s next) (pid : Nat) (fd : Int32) :
    processUnpackFd pid fd next.fds = processUnpackFd pid fd s.fds := by
  unfold processUnpackFd
  rw [kept.fds,kept.table]

end Reddyos
