import Reddyos.FdRun
import Reddyos.VmaMembers

/-! Files mapped into a process. An area keeps the pointer that `process_unpack_fd` returned,
and the file behind it is freed when its descriptor is closed. -/
namespace Reddyos

open OrderedTree SlotTable

/-- The descriptors of all processes and one of them at work, process `pid`. `fileOf` is the
field `file` of each area. -/
structure FileMaps where
  fds : FdState
  machine : Machine
  pid : Nat
  fileOf : Nat → U64

def FileMaps.areas (s : FileMaps) : Areas := s.machine.process.areas

def FileMaps.setFileOf (s : FileMaps) (p : Nat) (ptr : U64) : FileMaps :=
  { s with fileOf := fun q => if q = p then ptr else s.fileOf q }

/-- `do_sys_mmap` with its descriptor; `vnodes` says what the operations of a vnode offer. -/
def sysMmap (boot : Boot) (ft : Ftrees) (vnodes : Nat → VmaFile) (fd : Int32) (length offset : U64)
    (s : FileMaps) : Except Stop FileMaps := do
  match ← processUnpackFd s.pid fd s.fds with
  | none =>
    let (_,m) ← doSysMmap boot ft none length offset s.machine
    return { s with machine := m }
  | some ptr =>
    match s.fds.files ptr with
    | none => throw .undefined
    | some file =>
      let (result,m) ← doSysMmap boot ft (some (vnodes file.vnode)) length offset s.machine
      match result with
      | .ok _ => return { s with machine := m }.setFileOf s.areas.fresh ptr
      | .error _ => return { s with machine := m }

/-- A tail that is split off gets the file of the area. -/
def sysMunmap (boot : Boot) (ft : Ftrees) (addr length : U64) (s : FileMaps) : Except Stop FileMaps := do
  let (_,m) ← doSysMunmap boot ft addr length s.machine
  match vmaFind ft s.areas addr with
  | some p => return { s with machine := m }.setFileOf s.areas.fresh (s.fileOf p)
  | none => return { s with machine := m }

/-- `page_fault_handler`; the handler of a file area reads the vnode from its file. -/
def sysFault (boot : Boot) (ft : Ftrees) (addr : U64) (s : FileMaps) : Except Stop FileMaps := do
  let (grown,m) ← stackFault boot addr s.machine
  if grown then return { s with machine := m }
  match vmaFind ft m.process.areas addr with
  | none => return { s with machine := m }
  | some p =>
    if (m.process.areas.area p).type = .file ∧ s.fds.files (s.fileOf p) = none then throw .undefined
    let (_,m) ← vmaFaultHandler boot p addr m
    return { s with machine := m }

inductive MapCall where
  | fd (call : FdCall)
  | mmap (fd : Int32) (length offset : U64)
  | munmap (addr length : U64)
  | fault (addr : U64)

def runMap (boot : Boot) (ft : Ftrees) (vnodes : Nat → VmaFile) : MapCall → FileMaps → Except Stop FileMaps
  | .fd call, s => return { s with fds := ← runFd call s.fds }
  | .mmap fd length offset, s => sysMmap boot ft vnodes fd length offset s
  | .munmap addr length, s => sysMunmap boot ft addr length s
  | .fault addr, s => sysFault boot ft addr s

def MapUnused (s : FileMaps) : MapCall → Prop
  | .fd call => Unused s.fds call
  | _ => True

/-- Calls in any order, each one admitted by `allowed`, from a process without areas. -/
inductive MapRun (boot : Boot) (ft : Ftrees) (vnodes : Nat → VmaFile) (allowed : FileMaps → MapCall → Prop) :
    FileMaps → Prop where
  | init : s.fds = fdInit → s.areas = areasInit → MapRun boot ft vnodes allowed s
  | step : MapRun boot ft vnodes allowed s → MapUnused s call → allowed s call →
      runMap boot ft vnodes call s = .ok next → MapRun boot ft vnodes allowed next

def FilesLive (s : FileMaps) : Prop :=
  ∀ p ∈ s.areas.list, (s.areas.area p).type = .file →
    ∃ k file, slot s.fds.table k = some (s.fileOf p) ∧ s.fds.files (s.fileOf p) = some file ∧
      file.refcount ≠ 0#32

/-- No descriptor is closed while its file is mapped, and not too many files are open. -/
def UnmappedFirst (s : FileMaps) : MapCall → Prop
  | .fd (.close pid fd) => ∀ ptr, processUnpackFd pid fd s.fds = .ok (some ptr) →
      ∀ p ∈ s.areas.list, (s.areas.area p).type = .file → s.fileOf p ≠ ptr
  | .fd (.open pid vnode flags allocs) => FewFiles s.fds (.open pid vnode flags allocs)
  | _ => True

variable {boot : Boot} {ft : Ftrees} {a a' : Areas} {m : Machine}

/-- Every area of `a'` is one of `a`, of the same type, or the new one with the type `kind`. -/
structure Kinds (a a' : Areas) (kind : VmaType) : Prop where
  numbered : Numbered a'
  types : ∀ q ∈ a'.list, (q ∈ a.list ∧ (a'.area q).type = (a.area q).type) ∨
    (q = a.fresh ∧ (a'.area q).type = kind)

theorem Kinds.same (numbered : Numbered a) (tree : a'.tree = a.tree) (fresh : a'.fresh = a.fresh)
    (types : ∀ q, (a'.area q).type = (a.area q).type) : Kinds a a' kind := by
  have list : a'.list = a.list := congrArg inorder tree
  refine ⟨fun q member => ?_,fun q member => .inl ⟨list ▸ member,types q⟩⟩
  rw [fresh]
  exact numbered q (list ▸ member)

theorem Members.kinds {keep : Nat → Area} {new : Area → Prop} (members : Members a a' keep new)
    (kept : ∀ q, (keep q).type = (a.area q).type) (joins : ∀ vma, new vma → vma.type = kind) :
    Kinds a a' kind := by
  refine ⟨members.numbered,fun q member => ?_⟩
  rcases members.members q member with ⟨listed,same⟩ | ⟨fresh,joined⟩
  · exact .inl ⟨listed,by rw [same,kept]⟩
  · exact .inr ⟨fresh,joins _ joined⟩

theorem trimArea_type (vma : Area) (addr len : U64) : (trimArea vma addr len).type = vma.type := by
  unfold trimArea
  split <;> rfl

theorem doSysMmap_kinds (conservative : Conservative ft.ops) (numbered : Numbered m.process.areas)
    (returns : doSysMmap boot ft file length offset m = .ok (result,next)) :
    (∃ e, result = .error e ∧ next.process.areas = m.process.areas) ∨
      ∃ start, result = .ok start ∧
        Kinds m.process.areas next.process.areas (if file.isSome then .file else .anon) := by
  rcases doSysMmap_members conservative numbered returns with
    ⟨⟨e,failed⟩,same⟩ | ⟨start,mapped,_,_,_,_,members⟩
  · exact .inl ⟨e,failed,by rw [same]⟩
  · exact .inr ⟨start,mapped,members.kinds (fun _ => rfl) fun _ new => new.type⟩

theorem doSysMunmap_kinds (conservative : Conservative ft.ops) (numbered : Numbered m.process.areas)
    (returns : doSysMunmap boot ft addr length m = .ok (result,next)) :
    next.process.areas = m.process.areas ∨ ∃ p, vmaFind ft m.process.areas addr = some p ∧
      Kinds m.process.areas next.process.areas (m.process.areas.area p).type := by
  rcases doSysMunmap_members conservative numbered returns with same | ⟨p,block,found,_,_,members⟩
  · exact .inl (by rw [same])
  · refine .inr ⟨p,found,members.kinds (fun q => ?_) fun _ tail => by rw [tail.2]; rfl⟩
    split
    · rename_i here
      rw [here,trimArea_type]
    · rfl

theorem vmaFaultHandler_types (returns : vmaFaultHandler boot p addr m = .ok (handled,next)) (q : Nat) :
    (next.process.areas.area q).type = (m.process.areas.area q).type := by
  cases vmaFaultHandler_cases returns with
  | given =>
    dsimp only
    by_cases here : q = p
    · subst q; rw [set_same]
    · rw [set_other _ _ here]
  | noPage => rfl
  | framebuffer => rfl

theorem stackFault_areas (returns : stackFault boot addr m = .ok (grown,next)) :
    next.process.areas = m.process.areas := by
  rw [stackFault_process returns]

variable {vnodes : Nat → VmaFile} {s next : FileMaps}

structure MapInv (s : FileMaps) : Prop where
  fds : FdInv s.fds
  numbered : Numbered s.areas
  live : FilesLive s

def FileLive (s : FdState) (ptr : U64) : Prop :=
  ∃ k file, slot s.table k = some ptr ∧ s.files ptr = some file ∧ file.refcount ≠ 0#32

/-- The area tree changes; a new file area has a file that is open. -/
theorem MapInv.kinds (inv : MapInv s) (kinds : Kinds s.areas next.areas kind) (fds : next.fds = s.fds)
    (old : ∀ q, q ≠ s.areas.fresh → next.fileOf q = s.fileOf q)
    (new : kind = .file → FileLive s.fds (next.fileOf s.areas.fresh)) : MapInv next := by
  refine ⟨by rw [fds]; exact inv.fds,kinds.numbered,?_⟩
  intro q member type
  rw [fds]
  rcases kinds.types q member with ⟨listed,same⟩ | ⟨rfl,same⟩
  · rw [old q (Nat.ne_of_lt (inv.numbered q listed))]
    exact inv.live q listed (same ▸ type)
  · exact new (same ▸ type)

theorem MapInv.sameAreas (inv : MapInv s) (areas : next.areas = s.areas) (fds : next.fds = s.fds)
    (old : ∀ q, q ≠ s.areas.fresh → next.fileOf q = s.fileOf q) : MapInv next := by
  have kinds : Kinds s.areas next.areas .anon := by
    rw [areas]
    exact Kinds.same inv.numbered rfl rfl fun _ => rfl
  exact inv.kinds kinds fds old nofun

theorem unpack_live (inv : FdInv fds) (unpacked : processUnpackFd pid fd fds = .ok (some ptr)) :
    FileLive fds ptr := by
  obtain ⟨_,idx,entry,there⟩ := (unpack_iff inv).mp unpacked
  obtain ⟨_,p,file,again,live,once⟩ := inv.entry pid fd.toNat idx entry
  obtain rfl := Option.some.inj (there.symm.trans again)
  exact ⟨idx.toNat,file,there,live,by rw [once]; decide⟩

theorem sysMmap_inv (conservative : Conservative ft.ops) (inv : MapInv s)
    (returns : sysMmap boot ft vnodes fd length offset s = .ok next) : MapInv next := by
  unfold sysMmap at returns
  obtain ⟨ptr,unpacked,returns⟩ := ok_of_bind returns
  cases ptr with
  | none =>
    obtain ⟨⟨result,m⟩,mapped,returns⟩ := ok_of_bind returns
    obtain rfl := Except.ok.inj returns
    rcases doSysMmap_kinds conservative inv.numbered mapped with ⟨e,_,same⟩ | ⟨start,_,kinds⟩
    · exact inv.sameAreas same rfl fun _ _ => rfl
    · exact inv.kinds kinds rfl (fun _ _ => rfl) nofun
  | some ptr =>
    dsimp only at returns
    split at returns
    · cases returns
    rename_i file found
    obtain ⟨⟨result,m⟩,mapped,returns⟩ := ok_of_bind returns
    rcases doSysMmap_kinds conservative inv.numbered mapped with ⟨e,rfl,same⟩ | ⟨start,rfl,kinds⟩
    · obtain rfl := Except.ok.inj returns
      exact inv.sameAreas same rfl fun _ _ => rfl
    · obtain rfl := Except.ok.inj returns
      refine inv.kinds kinds rfl (fun q other => if_neg other) fun _ => ?_
      simp only [FileMaps.setFileOf,if_true]
      exact unpack_live inv.fds unpacked

theorem sysMunmap_inv (conservative : Conservative ft.ops) (inv : MapInv s)
    (returns : sysMunmap boot ft addr length s = .ok next) : MapInv next := by
  obtain ⟨⟨result,m⟩,unmapped,returns⟩ := ok_of_bind returns
  rcases doSysMunmap_kinds conservative inv.numbered unmapped with same | ⟨p,found,kinds⟩
  · dsimp only at returns
    split at returns
    · obtain rfl := Except.ok.inj returns
      exact inv.sameAreas same rfl fun q other => if_neg other
    · obtain rfl := Except.ok.inj returns
      exact inv.sameAreas same rfl fun _ _ => rfl
  · change vmaFind ft s.areas addr = some p at found
    simp only [found] at returns
    obtain rfl := Except.ok.inj returns
    refine inv.kinds kinds rfl (fun q other => if_neg other) fun type => ?_
    simp only [FileMaps.setFileOf,if_true]
    exact inv.live p (vmaFind_mem conservative found).1 type

theorem sysFault_inv (inv : MapInv s) (returns : sysFault boot ft addr s = .ok next) : MapInv next := by
  obtain ⟨⟨grown,m⟩,stack,returns⟩ := ok_of_bind returns
  have same := stackFault_areas stack
  dsimp only at returns
  split at returns
  · obtain rfl := Except.ok.inj returns
    exact inv.sameAreas same rfl fun _ _ => rfl
  split at returns
  · obtain rfl := Except.ok.inj returns
    exact inv.sameAreas same rfl fun _ _ => rfl
  · split at returns
    · cases returns
    obtain ⟨⟨handled,m'⟩,fault,returns⟩ := ok_of_bind returns
    obtain rfl := Except.ok.inj returns
    have areas := vmaFaultHandler_areas fault
    have types := vmaFaultHandler_types fault
    rw [same] at areas types
    have kinds : Kinds s.areas m'.process.areas .anon := Kinds.same inv.numbered areas.tree areas.fresh types
    exact inv.kinds kinds rfl (fun _ _ => rfl) nofun

/-- A file that is not closed stays open. -/
theorem fileLive_fd (inv : FdInv fds) (unused : Unused fds call) (few : FewFiles fds call)
    (returns : runFd call fds = .ok fds') (live : FileLive fds ptr)
    (other : ∀ pid fd, call = .close pid fd → processUnpackFd pid fd fds ≠ .ok (some ptr)) :
    FileLive fds' ptr := by
  obtain ⟨k,file,there,found,counted⟩ := live
  obtain ⟨next',again,outcome⟩ := runFd_spec inv unused few
  obtain rfl := Except.ok.inj (again.symm.trans returns)
  rcases outcome with same | ⟨_,_,_,_,_,_,_,_,_,opened⟩ | ⟨pid,fd,idx,p,rfl,small,closed⟩
  · exact ⟨k,file,by rw [same.table,there],by rw [same.files,found],counted⟩
  · refine ⟨k,file,opened.keeps_file there,?_,counted⟩
    rw [opened.files,if_neg (opened.other found),found]
  · have different : ptr ≠ p := by
      rintro rfl
      exact other pid fd rfl ((unpack_iff inv).mpr ⟨small,idx,closed.entry,closed.file⟩)
    refine ⟨k,file,?_,by rw [closed.files,if_neg different,found],counted⟩
    rw [closed.table,if_neg]
    · exact there
    · rintro rfl
      exact different (Option.some.inj (there.symm.trans closed.file))

theorem runMap_inv (conservative : Conservative ft.ops) (inv : MapInv s) (unused : MapUnused s call)
    (allowed : UnmappedFirst s call) (returns : runMap boot ft vnodes call s = .ok next) : MapInv next := by
  cases call with
  | fd call =>
    obtain ⟨fds,called,returns⟩ := ok_of_bind returns
    obtain rfl := Except.ok.inj returns
    have few : FewFiles s.fds call := by
      cases call with
      | «open» pid vnode flags allocs => exact allowed
      | close pid fd => trivial
    refine ⟨runFd_inv inv.fds unused few called,inv.numbered,?_⟩
    intro p member type
    refine fileLive_fd inv.fds unused few called (inv.live p member type) ?_
    rintro pid fd rfl unpacked
    exact allowed _ unpacked p member type rfl
  | mmap fd length offset => exact sysMmap_inv conservative inv returns
  | munmap addr length => exact sysMunmap_inv conservative inv returns
  | fault addr => exact sysFault_inv inv returns

/-- As long as files are unmapped before they are closed, every file area has an open file,
and a page fault never finds a file that was freed. -/
theorem mapped_files_live (conservative : Conservative ft.ops)
    (run : MapRun boot ft vnodes UnmappedFirst s) : FilesLive s ∧
    ∀ addr p, vmaFind ft s.areas addr = some p → (s.areas.area p).type = .file →
      s.fds.files (s.fileOf p) ≠ none := by
  have inv : MapInv s := by
    induction run with
    | init fds areas =>
      have none : ∀ s : FileMaps, s.areas = areasInit → s.areas.list = [] := by
        intro s empty
        rw [empty]
        rfl
      refine ⟨by rw [fds]; exact fdInit_inv,fun p member => ?_,fun p member => ?_⟩ <;>
      · rw [none _ areas] at member
        cases member
    | step _ unused allowed returns ih => exact runMap_inv conservative ih unused allowed returns
  refine ⟨inv.live,fun addr p found type freed => ?_⟩
  obtain ⟨_,_,_,live,_⟩ := inv.live p (vmaFind_mem conservative found).1 type
  rw [freed] at live
  cases live

def fbVnodes : Nat → VmaFile := fun _ =>
  ⟨true,true,some ⟨0xFFFF8000E0000000#64,0xFFFFC00000000020#64,4#64,4#64,16#64,32#16,64#64⟩⟩

def mapStart : FileMaps := ⟨fdInit,vmaStart,0,fun _ => 0#64⟩

def openDevice : FdCall := .open 0 (some 0) 2#32 ⟨some 1#64,[],true,[]⟩

def openThenMap (last : MapCall) : Except Stop (FileMaps × FileMaps × FileMaps) := do
  let s₁ ← runMap fbBoot spineTrees fbVnodes (.fd openDevice) mapStart
  let s₂ ← runMap fbBoot spineTrees fbVnodes (.mmap 0#32 4096#64 0#64) s₁
  let s₃ ← runMap fbBoot spineTrees fbVnodes last s₂
  return (s₁,s₂,s₃)

theorem openThenMap_calls (returns : openThenMap last = .ok (s₁,s₂,s₃)) :
    runMap fbBoot spineTrees fbVnodes (.fd openDevice) mapStart = .ok s₁ ∧
      runMap fbBoot spineTrees fbVnodes (.mmap 0#32 4096#64 0#64) s₁ = .ok s₂ ∧
      runMap fbBoot spineTrees fbVnodes last s₂ = .ok s₃ := by
  unfold openThenMap at returns
  obtain ⟨s₁',first,returns⟩ := ok_of_bind returns
  obtain ⟨s₂',second,returns⟩ := ok_of_bind returns
  obtain ⟨s₃',third,returns⟩ := ok_of_bind returns
  obtain ⟨rfl,rfl,rfl⟩ := ok_triple returns
  exact ⟨first,second,third⟩

theorem openDevice_unused : MapUnused mapStart (.fd openDevice) := fun _ _ => rfl

/-- Closing the descriptor of a mapped file frees the file under the area. -/
theorem mapped_file_freed : Conservative spineTrees.ops ∧
    ∃ s, MapRun fbBoot spineTrees fbVnodes (fun _ _ => True) s ∧ ¬FilesLive s := by
  refine ⟨spineOps_conservative,?_⟩
  have evaluated : (openThenMap (.fd (.close 0 0#32))).toOption.map
      (fun r => (r.2.2.areas.list,(r.2.2.areas.area 0).type,r.2.2.fds.files (r.2.2.fileOf 0))) =
      some ([0],.file,none) := by decide +kernel
  match result : openThenMap (.fd (.close 0 0#32)) with
  | .error stop => rw [result] at evaluated; cases evaluated
  | .ok (s₁,s₂,s₃) =>
    rw [result] at evaluated
    simp only [Except.toOption,Option.map_some,Option.some.injEq,Prod.mk.injEq] at evaluated
    obtain ⟨list,type,freed⟩ := evaluated
    obtain ⟨first,second,third⟩ := openThenMap_calls result
    have opened : MapRun fbBoot spineTrees fbVnodes (fun _ _ => True) s₁ :=
      .step (.init rfl rfl) openDevice_unused trivial first
    have mapped : MapUnused s₁ (.mmap 0#32 4096#64 0#64) := trivial
    have closes : MapUnused s₂ (.fd (.close 0 0#32)) := trivial
    refine ⟨s₃,.step (.step opened mapped trivial second) closes trivial third,fun live => ?_⟩
    obtain ⟨_,_,_,found,_⟩ := live 0 (by simp [list]) type
    rw [freed] at found
    cases found

theorem mapped_files_live_opened : ∃ s, MapRun fbBoot spineTrees fbVnodes UnmappedFirst s ∧
    s.areas.list = [0] ∧ (s.areas.area 0).type = .file ∧ FilesLive s := by
  have evaluated : (openThenMap (.munmap 0x10001000#64 4096#64)).toOption.map
      (fun r => (r.2.2.areas.list,(r.2.2.areas.area 0).type)) = some ([0],.file) := by decide +kernel
  match result : openThenMap (.munmap 0x10001000#64 4096#64) with
  | .error stop => rw [result] at evaluated; cases evaluated
  | .ok (s₁,s₂,s₃) =>
    rw [result] at evaluated
    simp only [Except.toOption,Option.map_some,Option.some.injEq,Prod.mk.injEq] at evaluated
    obtain ⟨list,type⟩ := evaluated
    obtain ⟨first,second,third⟩ := openThenMap_calls result
    have few : UnmappedFirst mapStart (.fd openDevice) := show used fdInit.table < 2^31 by decide
    have opened : MapRun fbBoot spineTrees fbVnodes UnmappedFirst s₁ :=
      .step (.init rfl rfl) openDevice_unused few first
    have mapped : MapUnused s₁ (.mmap 0#32 4096#64 0#64) := trivial
    have unmapped : MapUnused s₂ (.munmap 0x10001000#64 4096#64) := trivial
    have run : MapRun fbBoot spineTrees fbVnodes UnmappedFirst s₃ :=
      .step (.step opened mapped trivial second) unmapped trivial third
    exact ⟨s₃,run,list,type,(mapped_files_live spineOps_conservative run).1⟩

end Reddyos
