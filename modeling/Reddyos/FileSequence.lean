import Reddyos.ElfChunks
import Reddyos.FileSeek
import Reddyos.OpenFailure

/-! Descriptors of archive members that any processes read in turn. Each one goes through its member
from the start, whatever happens to the others; `read_exact` does the same for the loader. -/
namespace Reddyos

open ByteMemory ByteRange SlotTable Transitions

variable {s next first : Files} {pid pid' : Nat} {fd fd' : Int32} {ptr : U64} {file : OpenFile} {t u : FdState}
variable {size address : U64} {events : List FileEvent}

/-- The path of the last open that returned the descriptor, and the bytes read since. -/
structure Reading where
  path : CString
  bytes : List (BitVec 8)

def track (pid : Nat) (fd : Int32) (known : Option Reading) (e : FileEvent) : Option Reading :=
  match e.call with
  | .open pid' path _ _ => if pid' = pid ∧ e.answer = .value (fd.signExtend 64) then some ⟨path,[]⟩ else known
  | .read pid' fd' _ _ =>
    if pid' = pid ∧ fd' = fd then known.map fun reading => { reading with bytes := reading.bytes ++ e.bytes } else known
  | _ => known

def tracked (pid : Nat) (fd : Int32) (events : List FileEvent) : Option Reading := events.foldl (track pid fd) none

def PlainCall : FileCall → Prop
  | .open _ _ flags _ => flags &&& oTrunc = 0#32
  | .close _ _ => True
  | .read _ _ _ size => 0 < size.toNat ∧ size.toNat < 2^31
  | _ => False

/-- The descriptor has delivered the front of a member, and the next read goes on from there. -/
structure ReadInOrder (s : Files) (pid : Nat) (fd : Int32) (archive : U64 → BitVec 8) (address size : U64)
    (got : List (BitVec 8)) : Prop where
  front : got <+: cells archive address size.toNat
  next : ∀ buffer request, buffer ≠ 0#64 → 0 < request.toNat → request.toNat < 2^31 → ∃ n bytes next,
    s.doSysRead pid fd buffer request = .ok (.value (BitVec.ofNat 64 n),bytes,next) ∧ n < 2^31 ∧ bytes.length = n ∧
      got ++ bytes <+: cells archive address size.toNat ∧ (got.length < size.toNat → 0 < n) ∧
      (got.length = size.toNat → n = 0)

/-- Every open descriptor goes through the vnode it was opened on, if that is a member below 2^31 bytes. -/
def ReadsPartition (first : Files) (events : List FileEvent) (s : Files) : Prop :=
  ∀ pid fd ptr, processUnpackFd pid fd s.fds = .ok (some ptr) → ∃ path got id,
    tracked pid fd events = some ⟨path,got⟩ ∧ vfsFindVnode first.fs path = .ok (some id) ∧
      ∀ address, (first.fs.node id).ops = some .tarOps → (first.fs.node id).internal = .data address →
        (first.fs.node id).size.toNat < 2^31 → ReadInOrder s pid fd first.archive address (first.fs.node id).size got

theorem tracked_snoc (pid : Nat) (fd : Int32) (events : List FileEvent) (e : FileEvent) :
    tracked pid fd (events ++ [e]) = track pid fd (tracked pid fd events) e := by
  simp [tracked]

/-- A request below 2^31 takes what it asks for, or what is left. -/
theorem MemberOpen.takes (opened : MemberOpen s pid fd ptr size address file) (small : size.toNat < 2^31)
    {buffer request : U64} (given : buffer ≠ 0#64) (live : 0 < request.toNat) (below : request.toNat < 2^31) :
    ∃ n next, n = min request.toNat (size.toNat - file.offset.toNat) ∧
      s.doSysRead pid fd buffer request = .ok (.value (BitVec.ofNat 64 n),cells s.archive (address + file.offset) n,next) ∧
      MemberOpen next pid fd ptr size address { file with offset := file.offset + BitVec.ofNat 64 n } := by
  have within := BitVec.le_def.mp opened.within
  have some' : request ≠ 0#64 := by
    rintro rfl
    exact absurd live (Nat.lt_irrefl 0)
  have reads := doSysRead_reads opened.unpacks opened.open' opened.readable given some'
  have count : (clamped size file.offset request).toNat = min request.toNat (size.toNat - file.offset.toNat) :=
    toNat_clamped (by omega)
  have number : clamped size file.offset request =
      BitVec.ofNat 64 (min request.toNat (size.toNat - file.offset.toNat)) := by
    rw [← count,BitVec.ofNat_toNat,BitVec.setWidth_eq]
  have kept := doSysRead_kept reads
  have moved := advance_file s opened.open' ((clamped size file.offset request).setWidth 32)
  rw [movedTo_small (by omega),number] at moved
  refine ⟨_,_,rfl,?_,opened.moved _ ?_ (kept.unpack pid fd) (number ▸ moved) kept.fs⟩
  · rw [reads,widen_narrow (by omega),count,number]
  · rw [BitVec.le_def,BitVec.toNat_add,BitVec.toNat_ofNat]
    omega

/-- What was delivered before and what is delivered now lie next to each other. -/
theorem cells_next (m : U64 → BitVec 8) (address offset : U64) (n : Nat) :
    cells m address offset.toNat ++ cells m (address + offset) n = cells m address (offset.toNat + n) := by
  rw [cells_append,BitVec.ofNat_toNat,BitVec.setWidth_eq]

theorem MemberOpen.readInOrder (opened : MemberOpen s pid fd ptr size address file) (small : size.toNat < 2^31) :
    ReadInOrder s pid fd s.archive address size (cells s.archive address file.offset.toNat) := by
  have within := BitVec.le_def.mp opened.within
  refine ⟨cells_front within,fun buffer request given live below => ?_⟩
  obtain ⟨n,next,number,reads,_⟩ := opened.takes small given live below
  refine ⟨n,_,next,reads,by omega,length_cells _ _ _,?_,?_,?_⟩
  · rw [cells_next]
    exact cells_front (by omega)
  · rw [length_cells]
    omega
  · rw [length_cells]
    omega

theorem unpack_same (inv : FdInv t) (same : SameFds t u) (unpacks : processUnpackFd pid fd u = .ok (some ptr)) :
    processUnpackFd pid fd t = .ok (some ptr) := by
  obtain ⟨small,idx,entry,there⟩ := (unpack_iff (inv.same same)).mp unpacks
  rw [same.fds] at entry
  rw [same.table] at there
  exact (unpack_iff inv).mpr ⟨small,idx,entry,there⟩

/-- After an open a descriptor is the new one, or it was there before. -/
theorem unpack_opened (inv : FdInv t) (opened : Opened t pid k i p new u)
    (unpacks : processUnpackFd pid' fd u = .ok (some ptr)) :
    (pid' = pid ∧ fd.toNat = i ∧ ptr = p) ∨
      ¬(pid' = pid ∧ fd.toNat = i) ∧ processUnpackFd pid' fd t = .ok (some ptr) ∧ ptr ≠ p := by
  obtain ⟨small,idx,entry,there⟩ := (unpack_iff (inv.opened opened)).mp unpacks
  by_cases own : pid' = pid ∧ fd.toNat = i
  · rw [opened.fds,if_pos own] at entry
    rw [← Option.some.inj entry,toNat_index opened.index,opened.table,if_pos rfl] at there
    exact .inl ⟨own.1,own.2,(Option.some.inj there).symm⟩
  · rw [opened.fds,if_neg own] at entry
    obtain ⟨_,p',f,old,live,_⟩ := inv.entry _ _ _ entry
    obtain rfl := Option.some.inj ((opened.keeps_file old).symm.trans there)
    exact .inr ⟨own,(unpack_iff inv).mpr ⟨small,idx,entry,old⟩,opened.other live⟩

theorem unpack_closed (inv : FdInv t) (closed : Closed t pid i idx p u)
    (unpacks : processUnpackFd pid' fd u = .ok (some ptr)) : processUnpackFd pid' fd t = .ok (some ptr) := by
  obtain ⟨small,idx',entry,there⟩ := (unpack_iff (inv.closed closed)).mp unpacks
  exact (unpack_iff inv).mpr ⟨small,idx',(closed.entry_left entry).2,(closed.file_left there).2⟩

theorem unpack_small (inv : FdInv t) (unpacks : processUnpackFd pid fd t = .ok (some ptr)) : fd.toNat < 2^31 :=
  ((unpack_iff inv).mp unpacks).1

theorem signExtend_inj {a b : Int32} (same : a.signExtend 64 = b.signExtend 64) : a = b := by
  have ints := congrArg BitVec.toInt same
  rw [BitVec.toInt_signExtend_of_le (by decide),BitVec.toInt_signExtend_of_le (by decide)] at ints
  exact BitVec.eq_of_toInt_eq ints

def Known (first : Files) (reading : Option Reading) (file : OpenFile) : Prop :=
  ∃ path got id, reading = some ⟨path,got⟩ ∧ vfsFindVnode first.fs path = .ok (some id) ∧ file.vnode = id.number ∧
    ∀ address, (first.fs.node id).ops = some .tarOps → (first.fs.node id).internal = .data address →
      (first.fs.node id).size.toNat < 2^31 →
        file.offset ≤ (first.fs.node id).size ∧ got = cells first.archive address file.offset.toNat

structure TrackInv (first : Files) (events : List FileEvent) (s : Files) : Prop where
  fds : FdInv s.fds
  fs : s.fs = first.fs
  archive : s.archive = first.archive
  known : ∀ pid fd ptr file, processUnpackFd pid fd s.fds = .ok (some ptr) → s.fds.files ptr = some file →
    Known first (tracked pid fd events) file

/-- An open without truncation leaves the file system alone. -/
theorem plain_open_fs (plain : flags &&& oTrunc = 0#32) (opens : s.vfsOpen path flags = .ok (vnode,fs)) :
    fs = s.fs ∧ ∀ v, vnode = some v → ∃ id, vfsFindVnode s.fs path = .ok (some id) ∧ v = id.number := by
  unfold Files.vfsOpen at opens
  split at opens
  · cases opens
  · obtain ⟨rfl,rfl⟩ := ok_pair opens
    exact ⟨rfl,nofun⟩
  rename_i id finds
  rw [if_neg (not_not.mpr plain)] at opens
  obtain ⟨rfl,rfl⟩ := ok_pair opens
  exact ⟨rfl,fun v same => ⟨id,finds,(Option.some.inj same).symm⟩⟩

theorem known_new {found : NodeId} (finds : vfsFindVnode first.fs path = .ok (some found)) :
    Known first (some ⟨path,[]⟩) (newFile found.number flags) :=
  ⟨path,[],found,rfl,finds,rfl,fun _ _ _ _ => ⟨BitVec.le_def.mpr (Nat.zero_le _),rfl⟩⟩

theorem TrackInv.opens (inv : TrackInv first events s) (plain : flags &&& oTrunc = 0#32)
    (few : used s.fds.table < 2^31) (unused : ∀ p, allocs.file = some p → s.fds.files p = none)
    (fds : FdInv next.fds) (returns : s.doSysOpen pid path flags allocs = .ok (r,next)) :
    TrackInv first (events ++ [⟨.open pid path flags allocs,.value (r.signExtend 64),bytes⟩]) next := by
  obtain ⟨vnode,opens,archive,looks⟩ := doSysOpen_ok returns
  have found : next.fs = s.fs ∧ ∀ v, vnode = some v → ∃ id, vfsFindVnode s.fs path = .ok (some id) ∧ v = id.number := by
    rcases looks with ⟨_,rfl,same⟩ | ⟨_,looks⟩
    · exact ⟨same,nofun⟩
    · exact plain_open_fs plain looks
  refine ⟨fds,found.1.trans inv.fs,archive.trans inv.archive,fun pid' fd' ptr file unpacks open' => ?_⟩
  have number := unpack_small fds unpacks
  rw [tracked_snoc]
  obtain ⟨r',next',opens',⟨rfl,same,_⟩ | ⟨k,i,p,v,_,found',rfl,least,opened⟩⟩ :=
    processFdOpen_outcome pid vnode flags few unused
  · obtain ⟨rfl,rfl⟩ := ok_pair (opens.symm.trans opens')
    have other : ¬(pid = pid' ∧ Answer.value ((-1#32).signExtend 64) = .value (fd'.signExtend 64)) := by
      rintro ⟨_,same⟩
      rw [← signExtend_inj (Answer.value.inj same)] at number
      exact absurd number (by decide)
    simp only [track,if_neg other]
    exact inv.known pid' fd' ptr file (unpack_same inv.fds same unpacks) (by rw [← same.files,open'])
  · obtain ⟨rfl,rfl⟩ := ok_pair (opens.symm.trans opens')
    obtain ⟨small,_⟩ := opened.added inv.fds least
    rcases unpack_opened inv.fds opened unpacks with ⟨rfl,rfl,rfl⟩ | ⟨other,old,apart⟩
    · rw [BitVec.ofNat_toNat,BitVec.setWidth_eq]
      simp only [track,and_self,if_true]
      rw [opened.files,if_pos rfl] at open'
      obtain rfl := Option.some.inj open'
      obtain ⟨id,finds,rfl⟩ := found.2 v found'
      exact known_new (inv.fs ▸ finds)
    · have other' : ¬(pid = pid' ∧ Answer.value ((BitVec.ofNat 32 i).signExtend 64) = .value (fd'.signExtend 64)) := by
        rintro ⟨rfl,same⟩
        rw [← signExtend_inj (Answer.value.inj same),toNat_index small] at other
        exact other ⟨rfl,rfl⟩
      simp only [track,if_neg other']
      exact inv.known pid' fd' ptr file old (by rw [← open',opened.files,if_neg apart])

theorem TrackInv.closes (inv : TrackInv first events s) (fds : FdInv next.fds)
    (returns : s.doSysClose pid fd = .ok (r,next)) :
    TrackInv first (events ++ [⟨.close pid fd,answer,bytes⟩]) next := by
  obtain ⟨closes,fs,archive⟩ := doSysClose_ok returns
  refine ⟨fds,fs.trans inv.fs,archive.trans inv.archive,fun pid' fd' ptr file unpacks open' => ?_⟩
  rw [tracked_snoc]
  change Known first (tracked pid' fd' events) file
  obtain ⟨r',next',closes',outcome⟩ := processFdClose_spec inv.fds pid fd
  obtain ⟨rfl,rfl⟩ := ok_pair (closes.symm.trans closes')
  rcases outcome with same | ⟨_,idx,p,closed⟩
  · exact inv.known pid' fd' ptr file (unpack_same inv.fds same unpacks) (by rw [← same.files,open'])
  · refine inv.known pid' fd' ptr file (unpack_closed inv.fds closed unpacks) ?_
    rw [closed.files] at open'
    split at open'
    · cases open'
    · exact open'

theorem advance_other (s : Files) (file : OpenFile) (count : Int32) (other : p ≠ ptr) :
    (s.advance ptr file count).fds.files p = s.fds.files p := by
  unfold Files.advance
  split
  · exact if_neg other
  · rfl

/-- A read moves one file at most: the one of its descriptor. -/
theorem doSysRead_other (inv : FdInv s.fds) (returns : s.doSysRead pid fd buffer size = .ok (answer,bytes,next))
    (other : ¬(pid = pid' ∧ fd = fd')) (unpacks : processUnpackFd pid' fd' s.fds = .ok (some ptr)) :
    next.fds.files ptr = s.fds.files ptr := by
  rcases doSysRead_ok returns with ⟨rfl,_⟩ | ⟨moved,count,unpacks',reads,_⟩
  · rfl
  · obtain ⟨file,_,_,_,_,_,_,rfl⟩ := vfsRead_ok reads
    refine advance_other s file count ?_
    rintro rfl
    exact other (inv.unpack_apart unpacks' unpacks)

/-- A descriptor whose file is on a member has that member open. -/
theorem TrackInv.member {found : NodeId} (inv : TrackInv first events s)
    (unpacks : processUnpackFd pid fd s.fds = .ok (some ptr)) (open' : s.fds.files ptr = some file)
    (vnode : file.vnode = found.number) (ops : (first.fs.node found).ops = some .tarOps)
    (inside : (first.fs.node found).internal = .data address) (within : file.offset ≤ (first.fs.node found).size) :
    MemberOpen s pid fd ptr (first.fs.node found).size address file := by
  have node := s.node_eq vnode
  rw [inv.fs] at node
  exact ⟨unpacks,open',by rw [node],by rw [node,ops],by rw [node,inside],within⟩

/-- A read that is refused, or that is not of a member, changes nothing that is known. -/
theorem Known.reads (known : Known first (tracked pid fd events) file) (inv : TrackInv first events s)
    (unpacks : processUnpackFd pid fd s.fds = .ok (some ptr)) (open' : s.fds.files ptr = some file)
    (live : 0 < size.toNat) (below : size.toNat < 2^31)
    (returns : s.doSysRead pid fd buffer size = .ok (answer,bytes,next)) (there : next.fds.files ptr = some after) :
    Known first ((tracked pid fd events).map fun reading => { reading with bytes := reading.bytes ++ bytes }) after := by
  obtain ⟨path,got,id,tracks,finds,vnode,known⟩ := known
  rw [tracks]
  have same : after.vnode = file.vnode := by
    obtain ⟨offset,moved⟩ := (doSysRead_kept returns).open' open'
    rw [there] at moved
    rw [Option.some.inj moved]
  refine ⟨path,got ++ bytes,id,rfl,finds,same.trans vnode,fun address ops inside small => ?_⟩
  obtain ⟨within,got'⟩ := known address ops inside small
  rcases doSysRead_ok returns with ⟨rfl,rfl⟩ | _
  · obtain rfl := Option.some.inj (open'.symm.trans there)
    rw [List.append_nil]
    exact ⟨within,got'⟩
  by_cases given : buffer = 0#64
  · rw [Files.doSysRead,if_pos (.inl given)] at returns
    obtain ⟨_,rfl,rfl⟩ := ok_triple returns
    obtain rfl := Option.some.inj (open'.symm.trans there)
    rw [List.append_nil]
    exact ⟨within,got'⟩
  have opened := inv.member unpacks open' vnode ops inside within
  obtain ⟨n,next',number,reads,moved⟩ := opened.takes small given live below
  obtain ⟨_,rfl,rfl⟩ := ok_triple (returns.symm.trans reads)
  obtain rfl := Option.some.inj (there.symm.trans moved.open')
  refine ⟨moved.within,?_⟩
  have stands : (file.offset + BitVec.ofNat 64 n).toNat = file.offset.toNat + n := by
    have := BitVec.le_def.mp within
    rw [BitVec.toNat_add,BitVec.toNat_ofNat]
    omega
  rw [stands,got',inv.archive,cells_next]

theorem TrackInv.reads (inv : TrackInv first events s) (fds : FdInv next.fds) (live : 0 < size.toNat)
    (below : size.toNat < 2^31) (returns : s.doSysRead pid fd buffer size = .ok (answer,bytes,next)) :
    TrackInv first (events ++ [⟨.read pid fd buffer size,answer,bytes⟩]) next := by
  have kept := doSysRead_kept returns
  refine ⟨fds,kept.fs.trans inv.fs,kept.archive.trans inv.archive,fun pid' fd' ptr file unpacks there => ?_⟩
  rw [kept.unpack] at unpacks
  rw [tracked_snoc]
  simp only [track]
  by_cases own : pid = pid' ∧ fd = fd'
  · rw [if_pos own]
    obtain ⟨rfl,rfl⟩ := own
    obtain ⟨before,open'⟩ : ∃ before, s.fds.files ptr = some before := by
      rcases kept.files ptr with same | ⟨before,_,open',_⟩
      · exact ⟨file,by rw [← same,there]⟩
      · exact ⟨before,open'⟩
    exact (inv.known pid fd ptr before unpacks open').reads inv unpacks open' live below returns there
  · rw [if_neg own]
    exact inv.known pid' fd' ptr file unpacks (by rw [← doSysRead_other inv.fds returns own unpacks,there])

theorem TrackInv.step (inv : TrackInv first events s) (plain : PlainCall e.call) (few : FewOpen s e.call)
    (step : FileStep s e next) : TrackInv first (events ++ [e]) next := by
  have fds := FileStep.inv inv.fds few step
  obtain ⟨unused,returns⟩ := step
  obtain ⟨call,answer,bytes⟩ := e
  dsimp only at plain few unused returns
  cases call with
  | «open» pid path flags allocs =>
    obtain ⟨⟨r,next'⟩,opens,returns⟩ := ok_of_bind returns
    obtain ⟨rfl,rfl,rfl⟩ := ok_triple returns
    exact inv.opens plain few unused fds opens
  | close pid fd =>
    obtain ⟨⟨r,next'⟩,closes,returns⟩ := ok_of_bind returns
    obtain ⟨_,_,rfl⟩ := ok_triple returns
    exact inv.closes fds closes
  | read pid fd buffer size => exact inv.reads fds plain.1 plain.2 returns
  | write pid fd buffer size => exact absurd plain id
  | ioctl pid fd cmd arg => exact absurd plain id
  | lseek pid fd offset whence => exact absurd plain id

theorem TrackInv.partition (inv : TrackInv first events s) : ReadsPartition first events s := by
  intro pid fd ptr unpacks
  obtain ⟨_,idx,entry,there⟩ := (unpack_iff inv.fds).mp unpacks
  obtain ⟨file,open'⟩ := inv.fds.live there
  obtain ⟨path,got,id,tracks,finds,vnode,known⟩ := inv.known pid fd ptr file unpacks open'
  refine ⟨path,got,id,tracks,finds,fun address ops inside small => ?_⟩
  obtain ⟨within,rfl⟩ := known address ops inside small
  have order := (inv.member unpacks open' vnode ops inside within).readInOrder small
  rwa [inv.archive] at order

structure ExactRead (file : File) (out : Nat) (n : U64) (m : Mem) : Prop where
  succeeds : (readExact file (some out) n m).1 = true ↔ n.toNat ≤ file.vnode.size.toNat - file.offset.toNat
  delivers : (readExact file (some out) n m).1 = true → (readExact file (some out) n m).2 =
    ({ file with offset := file.offset + n },copy m out (fun i => file.vnode.data (file.offset.toNat + i)) n.toNat)

theorem readLoop_fails (some' : size ≠ 0#64) {file : File} (stops : (tarRead file.vnode file.offset out size m).1 ≤ 0) :
    (readLoop (fuel + 1) file out size m).1 = false := by
  unfold readLoop
  rw [if_neg some']
  change (if (vfsRead file out size m).1 ≤ 0 then _ else _ : Bool × File × Mem).1 = false
  rw [if_pos (show (vfsRead file out size m).1 ≤ 0 from stops)]

theorem exactRead_failed {file : File} {n : U64} {m : Mem} (fails : (readExact file (some out) n m).1 = false)
    (short : ¬n.toNat ≤ file.vnode.size.toNat - file.offset.toNat) : ExactRead file out n m := by
  constructor
  · rw [fails]
    exact iff_of_false Bool.false_ne_true short
  · rw [fails]
    exact fun done => absurd done Bool.false_ne_true

/-- In a member below 2^31 bytes a sum that wraps makes a negative count. -/
theorem exactRead (file : File) (small : file.vnode.size.toNat < 2^31) (out : Nat) (n : U64) (m : Mem) :
    ExactRead file out n m := by
  by_cases none : n = 0#64
  · subst n
    have done : readExact file (some out) 0#64 m = (true,file,m) := rfl
    have unchanged : copy m out (fun i => file.vnode.data (file.offset.toNat + i)) 0 = m := by
      funext b
      exact copy_outside (by omega)
    refine ⟨?_,fun _ => ?_⟩
    · rw [done]
      exact iff_of_true rfl (Nat.zero_le _)
    · rw [done,BitVec.add_zero]
      exact Prod.ext rfl unchanged.symm
  have live : 0 < n.toNat := Nat.pos_of_ne_zero fun zero => none (BitVec.eq_of_toNat_eq zero)
  obtain ⟨fuel,positive⟩ : ∃ fuel, n.toNat = fuel + 1 := ⟨n.toNat - 1,by omega⟩
  by_cases beyond : file.vnode.size ≤ file.offset
  · have behind := BitVec.le_def.mp beyond
    refine exactRead_failed ?_ (by omega)
    rw [readExact,positive,readLoop_end none beyond]
  have inside := BitVec.lt_def.mp (BitVec.not_le.mp beyond)
  by_cases fits : file.offset.toNat + n.toNat < 2^64
  · obtain ⟨count,number,reads⟩ := tarRead_left file.vnode file.offset out m (.inr fits) (by omega)
    have step : readExact file (some out) n m = readLoop fuel { file with offset := file.offset + count }
        (out + count.toNat) (n - count) (copy m out (fun i => file.vnode.data (file.offset.toNat + i)) count.toNat) := by
      rw [readExact,positive,readLoop_step none (by omega) (by omega) reads]
    by_cases enough : n.toNat ≤ file.vnode.size.toNat - file.offset.toNat
    · obtain rfl : count = n := BitVec.eq_of_toNat_eq (by omega)
      rw [BitVec.sub_self,readLoop_done] at step
      refine ⟨?_,fun _ => ?_⟩
      · rw [step]
        exact iff_of_true rfl enough
      · rw [step]
    · -- the second round finds the end of the file
      obtain ⟨fuel',rfl⟩ : ∃ fuel', fuel = fuel' + 1 := ⟨fuel - 1,by omega⟩
      refine exactRead_failed ?_ enough
      rw [step,readLoop_end (by bv_omega) (by dsimp only; bv_omega)]
  · refine exactRead_failed ?_ (by omega)
    rw [readExact,positive]
    refine readLoop_fails none ?_
    have bound := n.isLt
    rw [tarRead_eq,clamped_wraps (BitVec.not_le.mp beyond) (by omega),toInt_narrow]
    split <;> omega

/-- In every run that opens files only while fewer than 2^31 are open, reads go through the members
in order; `read_exact` reads what is there. -/
theorem reads_partition (begins : FilesStart first)
    (run : Run (fun s => s = first) FileStep (fun s e => PlainCall e.call ∧ FewOpen s e.call) events s) :
    ReadsPartition first events s ∧
      ∀ file out n m, file.vnode.size.toNat < 2^31 → ExactRead file out n m := by
  refine ⟨TrackInv.partition ?_,fun file out n m small => exactRead file small out n m⟩
  refine run.invariant (TrackInv first) ?_ fun _ _ _ _ inv met step => inv.step met.1 met.2 step
  rintro s rfl
  have fds : FdInv s.fds := begins ▸ fdInit_inv
  refine ⟨fds,rfl,rfl,fun pid fd ptr file unpacks _ => ?_⟩
  obtain ⟨_,idx,entry,_⟩ := (unpack_iff fds).mp unpacks
  have empty : slot (s.fds.fds pid) fd.toNat = none := by
    rw [begins]
    exact slot_replicate 16 _
  rw [empty] at entry
  cases entry

/-- After the first open and a read of the first byte of two. -/
theorem reads_partition_member : ∃ s, processUnpackFd 0 0#32 s.fds = .ok (some 1#64) ∧
    ReadsPartition (oneMember 2#64)
      [⟨openFirst aPath,.value 0#64,[]⟩,⟨.read 0 0#32 1#64 1#64,.value 1#64,[0x61#8]⟩] s := by
  obtain ⟨s,opens,unpacks,open',fs,archive⟩ := member_opens 2#64
  have opened : MemberOpen s 0 0#32 1#64 2#64 512#64 (newFile (NodeId.tar 0).number 0#32) :=
    member_on unpacks open' (member_node fs rfl) (by decide)
  obtain ⟨n,next,number,reads,moved⟩ := opened.takes (by decide) (show 1#64 ≠ 0#64 by decide)
    (show 0 < (1#64).toNat by decide) (by decide)
  obtain rfl : n = 1 := number
  rw [archive] at reads
  have begins : FilesStart (oneMember 2#64) := rfl
  have plain : PlainCall (openFirst aPath) := show 0#32 &&& oTrunc = 0#32 by decide
  have few : FewOpen (oneMember 2#64) (openFirst aPath) := show used fdInit.table < 2^31 by decide
  have plain' : PlainCall (.read 0 0#32 1#64 1#64) := ⟨by decide,by decide⟩
  have first : FileStep s ⟨.read 0 0#32 1#64 1#64,.value 1#64,[0x61#8]⟩ next := ⟨trivial,reads⟩
  have few' : FewOpen s (.read 0 0#32 1#64 1#64) := trivial
  exact ⟨next,moved.unpacks,(reads_partition begins (.step (.step (.start rfl) ⟨plain,few⟩ opens) ⟨plain',few'⟩ first)).1⟩

structure FirstFile (t : FdState) : Prop where
  table : slot t.table 0 = some 1#64
  file : t.files 1#64 = some (newFile (NodeId.tar 0).number 0#32)
  entry : slot (t.fds 0) 0 = some 0#32

theorem FirstFile.beyond (holds : FirstFile t) (beyond : Beyond n t u) (later : 0 < n) : FirstFile u :=
  ⟨(beyond.table 0 later).trans holds.table,(beyond.files 1#64 later).trans holds.file,by rw [beyond.fds 0 later,holds.entry]⟩

/-- Reads leave the tables and the blocks in use as they are. -/
theorem ManyFiles.kept (many : ManyFiles n s.fds) (kept : Kept s next) : ManyFiles n next.fds where
  full := by
    rw [kept.table]
    exact many.full
  free := by
    rw [kept.table]
    exact many.free
  length := by
    rw [kept.table]
    exact many.length
  files := by
    intro p above
    rcases kept.files p with same | ⟨file,_,open',_⟩
    · rw [same,many.files p above]
    · rw [many.files p above] at open'
      cases open'
  fds := by
    rw [kept.fds]
    exact many.fds

/-- `n` processes have opened `a`, one after another; from 2^31 on they were refused. -/
theorem crowd_run (some' : 0 < n) (bound : n ≤ 2^32) : ∃ events s,
    Run (fun s => s = oneMember 2#64) FileStep (fun _ e => PlainCall e.call) events s ∧ ManyFiles n s.fds ∧
      FirstFile s.fds ∧ s.fs = (oneMember 2#64).fs ∧ s.archive = (oneMember 2#64).archive := by
  have plain (pid : Nat) (allocs : FdAllocs) : PlainCall (.open pid aPath 0#32 allocs) :=
    show 0#32 &&& oTrunc = 0#32 by decide
  have finds : vfsFindVnode (oneMember 2#64).fs aPath = .ok (some (.tar 0)) := rfl
  induction n with
  | zero => exact absurd some' (Nat.lt_irrefl 0)
  | succ n ih =>
    by_cases again : 0 < n
    · obtain ⟨events,s,run,many,holds,fs,archive⟩ := ih again (by omega)
      have unused := many.unused (show n ≤ 2^32 by omega) 0
      have opens : ∃ r next, processFdOpen n (some (NodeId.tar 0).number) 0#32 (freshAllocs n) s.fds = .ok (r,next) ∧
          ManyFiles (n + 1) next ∧ Beyond n s.fds next := by
        by_cases positive : (BitVec.ofNat 32 n).toInt < 0
        · obtain ⟨next,opens,more,beyond,_⟩ := many.leaks (by omega) positive _
          exact ⟨_,next,opens,more,beyond⟩
        · obtain ⟨next,opens,more,beyond,_⟩ := many.enters (by omega) positive _
          exact ⟨_,next,opens,more,beyond⟩
      obtain ⟨r,next,opens,more,beyond⟩ := opens
      have found : vfsFindVnode s.fs aPath = .ok (some (.tar 0)) := fs ▸ finds
      have step := open_step found (Option.some_ne_none _) unused opens
      exact ⟨_,_,.step run (plain _ _) step,more,holds.beyond beyond again,fs,archive⟩
    · obtain rfl : n = 0 := by omega
      obtain ⟨next,opens,more,_,entry⟩ := manyFiles_start.enters (by decide) (by decide) (NodeId.tar 0).number
      obtain ⟨next',again',table,file⟩ : ∃ next', processFdOpen 0 (some (NodeId.tar 0).number) 0#32 (freshAllocs 0) fdInit =
          .ok (0#32,next') ∧ slot next'.table 0 = some 1#64 ∧
          next'.files 1#64 = some (newFile (NodeId.tar 0).number 0#32) := ⟨_,rfl,rfl,rfl⟩
      obtain ⟨_,rfl⟩ := ok_pair (opens.symm.trans again')
      have step : FileStep (oneMember 2#64) ⟨.open 0 aPath 0#32 (freshAllocs 0),_,[]⟩ _ :=
        open_step finds (Option.some_ne_none _) (fun _ _ => rfl) opens
      exact ⟨_,_,.step (.start rfl) (plain _ _) step,more,⟨table,file,entry⟩,rfl,rfl⟩

/-- Process 0 reads its two bytes; process 2^32 opens `a` and gets the index of that file. -/
theorem alias_run : ∃ events s, Run (fun s => s = oneMember 2#64) FileStep (fun _ e => PlainCall e.call) events s ∧
    tracked (2^32) 0#32 events = some ⟨aPath,[]⟩ ∧ MemberOpen s (2^32) 0#32 1#64 2#64 512#64
      { newFile (NodeId.tar 0).number 0#32 with offset := 2#64 } := by
  obtain ⟨events,s,run,many,holds,fs,_⟩ := crowd_run (n := 2^32) (by decide) (Nat.le_refl _)
  have opened : MemberOpen s 0 0#32 1#64 2#64 512#64 (newFile (NodeId.tar 0).number 0#32) :=
    member_on (unpack_slots (by decide) holds.entry (by decide) holds.table) holds.file (member_node fs rfl) (by decide)
  obtain ⟨n,middle,number,reads,moved⟩ := opened.takes (by decide) (show 1#64 ≠ 0#64 by decide)
    (show 0 < (2#64).toNat by decide) (by decide)
  obtain rfl : n = 2 := number
  have kept := doSysRead_kept reads
  have first : FileStep s ⟨.read 0 0#32 1#64 2#64,_,_⟩ middle := ⟨trivial,reads⟩
  obtain ⟨next,opens,_,beyond,entry⟩ := (many.kept kept).enters (Nat.le_refl _) (by decide) (NodeId.tar 0).number
  rw [show BitVec.ofNat 32 (2^32) = 0#32 by decide] at entry
  have finds : vfsFindVnode middle.fs aPath = .ok (some (.tar 0)) := by
    rw [kept.fs,fs]
    rfl
  have second := open_step finds (Option.some_ne_none _) ((many.kept kept).unused (Nat.le_refl _) 0) opens
  have plain : PlainCall (.open (2^32) aPath 0#32 (freshAllocs (2^32))) := show 0#32 &&& oTrunc = 0#32 by decide
  have plain' : PlainCall (.read 0 0#32 1#64 2#64) := ⟨by decide,by decide⟩
  have whole := Run.step (.step run plain' first) plain second
  generalize state : { middle with fds := next } = last at whole
  have table : slot last.fds.table 0 = some 1#64 := by
    rw [← state,beyond.table 0 (by decide),kept.table,holds.table]
  have unpacks : processUnpackFd (2^32) 0#32 last.fds = .ok (some 1#64) := by
    rw [← state] at table ⊢
    exact unpack_slots (by decide) entry (by decide) table
  have same : last.fs = (oneMember 2#64).fs := by rw [← state,kept.fs,fs]
  refine ⟨_,last,whole,by rw [tracked_snoc]; rfl,member_on unpacks ?_ (member_node same rfl) (by decide)⟩
  rw [← state,beyond.files 1#64 (by decide)]
  exact moved.open'

/-- The new descriptor is at the end of the file before it has read anything. -/
theorem reads_alias : ∃ events s, FilesStart (oneMember 2#64) ∧
    Run (fun s => s = oneMember 2#64) FileStep (fun _ e => PlainCall e.call) events s ∧
    processUnpackFd (2^32) 0#32 s.fds = .ok (some 1#64) ∧
    (∃ next, s.doSysRead (2^32) 0#32 1#64 1#64 = .ok (.value 0#64,[],next)) ∧
    ¬ReadsPartition (oneMember 2#64) events s := by
  obtain ⟨events,s,run,opens,ended⟩ := alias_run
  obtain ⟨k,after,none,ends,_⟩ := ended.takes (by decide) (show 1#64 ≠ 0#64 by decide)
    (show 0 < (1#64).toNat by decide) (by decide)
  obtain rfl : k = 0 := none
  refine ⟨events,s,rfl,run,ended.unpacks,⟨after,ends⟩,fun whole => ?_⟩
  obtain ⟨path,got,id,tracks,found,order⟩ := whole _ _ _ ended.unpacks
  obtain ⟨rfl,rfl⟩ := Reading.mk.inj (Option.some.inj (opens.symm.trans tracks))
  have finds : vfsFindVnode (oneMember 2#64).fs aPath = .ok (some (.tar 0)) := rfl
  obtain rfl := Option.some.inj (Except.ok.inj (found.symm.trans finds))
  obtain ⟨j,_,_,again,small,_,_,some',_⟩ := (order 512#64 rfl rfl (by decide)).next 1#64 1#64 (by decide) (by decide) (by decide)
  obtain ⟨value,_⟩ := ok_pair (again.symm.trans ends)
  have zero := congrArg BitVec.toNat (Answer.value.inj value)
  rw [BitVec.toNat_ofNat,Nat.mod_eq_of_lt (by omega)] at zero
  exact absurd (some' (by decide)) (by rw [zero]; decide)

end Reddyos
