import Reddyos.FileRun

/-! Reads of archive members and of the framebuffer. The count passes through an `int` on its way
to the offset of the file and to the process. -/
namespace Reddyos

open ByteRange Transitions

variable {s next : Files} {pid : Nat} {fd : Int32} {ptr : U64} {file : OpenFile} {node : VfsNode}
variable {count limit offset size base : U64} {n : Int} {bytes : U64 → BitVec 8}

theorem toInt_narrow (count : U64) : (count.setWidth 32).toInt =
    if count.toNat % 2^32 < 2^31 then (count.toNat % 2^32 : Int) else (count.toNat % 2^32 : Int) - 2^32 := by
  rw [BitVec.toInt_eq_toNat_cond,BitVec.toNat_setWidth]
  split <;> split <;> omega

theorem widen_narrow (small : count.toNat < 2^31) : (count.setWidth 32).signExtend 64 = count := by
  apply BitVec.eq_of_toInt_eq
  rw [BitVec.toInt_signExtend_of_le (by decide),toInt_narrow,BitVec.toInt_eq_toNat_cond]
  split <;> split <;> omega

/-- Where a file stands after a call that returned `count`. -/
def movedTo (offset : U64) (count : Int32) : U64 :=
  if 0 < count.toInt then offset + count.signExtend 64 else offset

theorem movedTo_small (small : count.toNat < 2^31) : movedTo offset (count.setWidth 32) = offset + count := by
  have sign := toInt_narrow count
  rw [if_pos (by omega)] at sign
  unfold movedTo
  rw [widen_narrow small]
  split
  · rfl
  · have zero : count = 0#64 := BitVec.eq_of_toNat_eq (by rw [BitVec.toNat_zero]; omega)
    rw [zero,BitVec.add_zero]

/-- A count that does not fit moves the file by another amount, or not at all. -/
theorem movedTo_iff : movedTo offset (count.setWidth 32) = offset + count ↔ count.toNat < 2^31 := by
  refine ⟨fun same => ?_,movedTo_small⟩
  have bound := count.isLt
  have sign := toInt_narrow count
  unfold movedTo at same
  split at same
  · rename_i positive
    have wide := congrArg BitVec.toInt ((BitVec.add_right_inj offset).mp same)
    rw [BitVec.toInt_signExtend_of_le (by decide),BitVec.toInt_eq_toNat_cond (x := count)] at wide
    split at wide <;> split at sign <;> omega
  · have zero : count = 0#64 := (BitVec.add_right_inj offset).mp (same.symm.trans (BitVec.add_zero offset).symm)
    rw [zero]
    decide

theorem advance_file (s : Files) (open' : s.fds.files ptr = some file) (count : Int32) :
    (s.advance ptr file count).fds.files ptr = some { file with offset := movedTo file.offset count } := by
  unfold Files.advance movedTo
  split
  · exact if_pos rfl
  · exact open'

/-- A vnode that can be read: the operation, the memory its bytes are in and where, the limit
that the operation takes for the size, and the size. -/
inductive Readable (s : Files) (node : VfsNode) :
    (Files → VfsNode → U64 → U64 → Except CallStop (Int32 × List (BitVec 8))) →
      (U64 → BitVec 8) → U64 → U64 → Int → Prop where
  | tar (address : U64) : node.ops = some .tarOps → node.internal = .data address →
      Readable s node Files.tarRead s.archive address node.size node.size.toInt
  | fb (address : U64) : node.ops = some fbOps → node.internal = .data address →
      Readable s node Files.fbRead s.memory s.fb.back s.fb.size s.fb.size.toNat

/-- `min(size, max(0, n - offset))`. -/
def leftOf (n : Int) (offset size : U64) : Nat := min size.toNat (n - offset.toNat).toNat

variable {read : Files → VfsNode → U64 → U64 → Except CallStop (Int32 × List (BitVec 8))}

theorem Readable.reads (readable : Readable s node read bytes base limit n) (offset size : U64) :
    read s node offset size = .ok ((clamped limit offset size).setWidth 32,
      cells bytes (base + offset) (clamped limit offset size).toNat) := by
  cases readable with
  | tar address ops inside =>
    unfold Files.tarRead
    rw [inside]
    rfl
  | fb address ops inside =>
    unfold Files.fbRead Files.framebuffer
    rw [inside]
    rfl

theorem Readable.dispatch (readable : Readable s node read bytes base limit n) :
    ∃ ops, node.ops = some ops ∧ (opsTable ops).read = some read := by
  cases readable with
  | tar address ops inside => exact ⟨_,ops,rfl⟩
  | fb address ops inside => exact ⟨_,ops,rfl⟩

theorem Readable.limit_eq (readable : Readable s node read bytes base limit n) :
    n = limit.toNat ∨ n < 0 := by
  cases readable with
  | tar address ops inside =>
    rw [BitVec.toInt_eq_toNat_cond]
    have bound := node.size.isLt
    split <;> omega
  | fb address ops inside => exact .inl rfl

/-- A read of an open descriptor returns what its operation copies. -/
theorem doSysRead_reads (unpacks : processUnpackFd pid fd s.fds = .ok (some ptr))
    (open' : s.fds.files ptr = some file) (readable : Readable s (s.node file) read bytes base limit n)
    (given : buffer ≠ 0#64) (some' : size ≠ 0#64) :
    s.doSysRead pid fd buffer size =
      .ok (.value (((clamped limit file.offset size).setWidth 32).signExtend 64),
        cells bytes (base + file.offset) (clamped limit file.offset size).toNat,
        s.advance ptr file ((clamped limit file.offset size).setWidth 32)) := by
  obtain ⟨ops,named,found⟩ := readable.dispatch
  have table := ops_ok.mpr ⟨ops,named,rfl⟩
  have reads : s.vfsRead ptr size = .ok ((clamped limit file.offset size).setWidth 32,
      cells bytes (base + file.offset) (clamped limit file.offset size).toNat,
      s.advance ptr file ((clamped limit file.offset size).setWidth 32)) := by
    unfold Files.vfsRead
    rw [file_ok.mpr open']
    simp only [bind,Except.bind,table,found,readable.reads]
    rfl
  unfold Files.doSysRead
  rw [if_neg (by simp [given,some']),unpack_ok.mpr unpacks]
  simp only [bind,Except.bind,reads]
  rfl

structure ReadsExactly (s : Files) (pid : Nat) (fd : Int32) (ptr : U64) (file : OpenFile)
    (read : Files → VfsNode → U64 → U64 → Except CallStop (Int32 × List (BitVec 8)))
    (bytes : U64 → BitVec 8) (base : U64) (n : Int) (buffer size : U64) : Prop where
  copied : ∃ count, read s (s.node file) file.offset size =
    .ok (count,cells bytes (base + file.offset) (leftOf n file.offset size))
  returned : size ≠ 0#64 → ∃ delivered next, s.doSysRead pid fd buffer size =
      .ok (.value (BitVec.ofNat 64 (leftOf n file.offset size)),delivered,next) ∧
    next.fds.files ptr = some { file with offset := file.offset + BitVec.ofNat 64 (leftOf n file.offset size) }

/-- The end of the read does not wrap and the count fits an `int`, or there is nothing to do. -/
def ReadFits (limit : U64) (n : Int) (offset size : U64) : Prop :=
  limit ≤ offset ∨ size = 0#64 ∨ 0 ≤ n ∧ offset.toNat + size.toNat < 2^64 ∧ leftOf n offset size < 2^31

instance (limit : U64) (n : Int) (offset size : U64) : Decidable (ReadFits limit n offset size) :=
  inferInstanceAs (Decidable (_ ∨ _ ∨ _))

/-- Without wrapping, the clamp finds what is left. -/
theorem leftOf_clamped (whole : n = limit.toNat) (fits : limit ≤ offset ∨ offset.toNat + size.toNat < 2^64) :
    (clamped limit offset size).toNat = leftOf n offset size := by
  rw [toNat_clamped_iff.mpr fits,leftOf,whole]
  omega

theorem leftOf_behind (behind : limit ≤ offset) (below : n ≤ limit.toNat) : leftOf n offset size = 0 := by
  rw [BitVec.le_def] at behind
  unfold leftOf
  omega

/-- Inside the limit, with something asked for, the clamp finds what is left only so. -/
theorem clamped_leftOf (sizes : n = limit.toNat ∨ n < 0) (ahead : ¬limit ≤ offset) (some' : size ≠ 0#64) :
    (clamped limit offset size).toNat = leftOf n offset size ↔ 0 ≤ n ∧ offset.toNat + size.toNat < 2^64 := by
  have inside := BitVec.lt_def.mp (BitVec.not_le.mp ahead)
  constructor
  · intro count
    rcases sizes with whole | negative
    · have right := toNat_clamped_iff.mp (count.trans (by rw [leftOf,whole]; omega))
      exact ⟨by omega,right.resolve_left ahead⟩
    · -- a negative size leaves nothing to read, but the limit is far behind the offset
      have zero : leftOf n offset size = 0 := by unfold leftOf; omega
      have live : 0 < size.toNat := Nat.pos_of_ne_zero fun zero => some' (BitVec.eq_of_toNat_eq zero)
      rw [zero] at count
      by_cases fits : offset.toNat + size.toNat < 2^64
      · rw [toNat_clamped fits] at count
        omega
      · rw [clamped_wraps (BitVec.not_le.mp ahead) (by omega)] at count
        omega
  · rintro ⟨positive,fits⟩
    exact leftOf_clamped (by omega) (.inr fits)

theorem read_exact_iff (unpacks : processUnpackFd pid fd s.fds = .ok (some ptr))
    (open' : s.fds.files ptr = some file) (readable : Readable s (s.node file) read bytes base limit n)
    (given : buffer ≠ 0#64) :
    ReadsExactly s pid fd ptr file read bytes base n buffer size ↔ ReadFits limit n file.offset size := by
  have sizes := readable.limit_eq
  have below : n ≤ limit.toNat := by omega
  have length : ReadsExactly s pid fd ptr file read bytes base n buffer size →
      (clamped limit file.offset size).toNat = leftOf n file.offset size := by
    intro exact'
    obtain ⟨count,copied⟩ := exact'.copied
    rw [readable.reads] at copied
    have same := congrArg List.length (ok_pair copied).2
    simpa only [length_cells] using same
  constructor
  · intro exact'
    by_cases behind : limit ≤ file.offset
    · exact .inl behind
    by_cases none : size = 0#64
    · exact .inr (.inl none)
    have count := length exact'
    obtain ⟨positive,fits⟩ := (clamped_leftOf sizes behind none).mp count
    obtain ⟨delivered,next,returns,moved⟩ := exact'.returned none
    rw [doSysRead_reads unpacks open' readable given none] at returns
    obtain ⟨_,_,rfl⟩ := ok_triple returns
    rw [advance_file s open',← count,BitVec.ofNat_toNat,BitVec.setWidth_eq] at moved
    have stands := congrArg OpenFile.offset (Option.some.inj moved)
    exact .inr (.inr ⟨positive,fits,count ▸ movedTo_iff.mp stands⟩)
  · intro fits
    have count : (clamped limit file.offset size).toNat = leftOf n file.offset size := by
      rcases fits with behind | rfl | ⟨positive,fits,_⟩
      · rw [clamped_behind behind,leftOf_behind behind below]
        rfl
      · rw [toNat_clamped (by have := file.offset.isLt; simp; omega)]
        simp [leftOf]
      · exact leftOf_clamped (by omega) (.inr fits)
    refine ⟨⟨_,by rw [readable.reads,count]⟩,fun some' => ?_⟩
    have small : (clamped limit file.offset size).toNat < 2^31 := by
      rw [count]
      rcases fits with behind | none | ⟨_,_,small⟩
      · rw [leftOf_behind behind below]
        decide
      · exact absurd none some'
      · exact small
    have number : BitVec.ofNat 64 (leftOf n file.offset size) = clamped limit file.offset size := by
      rw [← count,BitVec.ofNat_toNat,BitVec.setWidth_eq]
    refine ⟨_,_,by rw [doSysRead_reads unpacks open' readable given some',widen_narrow small,number],?_⟩
    rw [advance_file s open',movedTo_small small,number]

def aPath : CString := [slash,0x61#8]

def smallFb : Framebuffer := ⟨0xFFFF8000E0000000#64,0xFFFFC00000000020#64,4#64,4#64,16#64,32#16,64#64⟩

def smallReach (b : U64) : Bool := b.toNat / 4096 = 0xFFFFC00000000

theorem smallFb_backed (b : U64) (inside : Within smallFb.back smallFb.size.toNat b) : smallReach b = true := by
  have inside : (b - 0xFFFFC00000000020#64).toNat < 64 := inside
  rw [smallReach,decide_eq_true_iff]
  bv_omega

def oneMember (size : U64) : Files where
  fds := fdInit
  fs := tarfsMount [⟨[0x61#8],size,512#64⟩] .zero
  archive := fun _ => 0x61#8
  fb := smallFb
  memory := fun _ => 0#8
  console := []
  reach := smallReach
  backed := smallFb_backed

def openFirst (path : CString) : FileCall := .open 0 path 0#32 ⟨some 1#64,[],true,[]⟩

theorem open_step {found : NodeId} (finds : vfsFindVnode s.fs path = .ok (some found)) (granted : allocs.file ≠ none)
    (unused : ∀ p, allocs.file = some p → s.fds.files p = none)
    (opens : processFdOpen pid (some found.number) 0#32 allocs s.fds = .ok (r,fds)) :
    FileStep s ⟨.open pid path 0#32 allocs,.value (r.signExtend 64),[]⟩ { s with fds := fds } := by
  have looks : s.vfsOpen path 0#32 = .ok (some found.number,s.fs) := by
    unfold Files.vfsOpen
    rw [finds]
    rfl
  refine ⟨unused,?_⟩
  simp only [runFile,Files.doSysOpen,Files.openVnode,if_neg granted,looks,bind,Except.bind,opens]
  rfl

theorem first_opens {found : NodeId} (begins : FilesStart s) (finds : vfsFindVnode s.fs path = .ok (some found)) :
    ∃ fds, FileStep s ⟨openFirst path,.value 0#64,[]⟩ { s with fds := fds } ∧
      processUnpackFd 0 0#32 fds = .ok (some 1#64) ∧ fds.files 1#64 = some (newFile found.number 0#32) := by
  obtain ⟨fds,opens,unpacks,open'⟩ : ∃ fds, processFdOpen 0 (some found.number) 0#32 ⟨some 1#64,[],true,[]⟩ fdInit =
      .ok (0#32,fds) ∧ processUnpackFd 0 0#32 fds = .ok (some 1#64) ∧
      fds.files 1#64 = some (newFile found.number 0#32) := ⟨_,rfl,rfl,rfl⟩
  have empty : s.fds = fdInit := begins
  rw [← empty] at opens
  refine ⟨fds,open_step finds (Option.some_ne_none _) (fun p _ => ?_) opens,unpacks,open'⟩
  rw [empty]
  rfl

theorem member_opens (size : U64) : ∃ s, FileStep (oneMember size) ⟨openFirst aPath,.value 0#64,[]⟩ s ∧
    processUnpackFd 0 0#32 s.fds = .ok (some 1#64) ∧ s.fds.files 1#64 = some (newFile (NodeId.tar 0).number 0#32) ∧
    s.fs = (oneMember size).fs ∧ s.archive = (oneMember size).archive := by
  have begins : FilesStart (oneMember size) := rfl
  obtain ⟨fds,opens,unpacks,open'⟩ := first_opens begins (show vfsFindVnode _ aPath = .ok (some (.tar 0)) from rfl)
  exact ⟨_,opens,unpacks,open',rfl,rfl⟩

theorem member_node (fs : s.fs = (oneMember size).fs) (member : file.vnode = (NodeId.tar 0).number) :
    s.node file = ⟨[0x61#8],size,some .tarOps,.data 512#64⟩ := by
  rw [s.node_eq member,fs]
  rfl

theorem member_readable (file : OpenFile) (fs : s.fs = (oneMember size).fs) (member : file.vnode = (NodeId.tar 0).number) :
    Readable s (s.node file) Files.tarRead s.archive 512#64 size size.toInt := by
  rw [member_node fs member]
  exact Readable.tar 512#64 rfl rfl

/-- After a first read, the file stands behind what was read. -/
theorem member_at (size k : U64) (inside : k ≤ size) (small : k.toNat < 2^31) (some' : k ≠ 0#64) :
    ∃ events s, Run FilesStart FileStep (fun _ _ => True) events s ∧ processUnpackFd 0 0#32 s.fds = .ok (some 1#64) ∧
      s.fds.files 1#64 = some { newFile (NodeId.tar 0).number 0#32 with offset := k } ∧
      s.fs = (oneMember size).fs ∧ s.archive = (oneMember size).archive := by
  obtain ⟨s,opens,unpacks,open',fs,archive⟩ := member_opens size
  have readable := member_readable (newFile (NodeId.tar 0).number 0#32) fs rfl
  have count : clamped size (newFile (NodeId.tar 0).number 0#32).offset k = k := by
    apply BitVec.eq_of_toNat_eq
    rw [BitVec.le_def] at inside
    rw [toNat_clamped] <;> simp only [newFile,BitVec.toNat_ofNat] <;> omega
  have reads := doSysRead_reads unpacks open' readable (show 1#64 ≠ 0#64 by decide) some'
  rw [count] at reads
  have moved : FileStep s ⟨.read 0 0#32 1#64 k,_,_⟩ _ := ⟨trivial,reads⟩
  have begins : FilesStart (oneMember size) := rfl
  have kept := doSysRead_kept reads
  refine ⟨_,_,Run.step (Run.step (Run.start begins) trivial opens) trivial moved,(kept.unpack 0 0#32).trans unpacks,?_,
    kept.fs.trans fs,kept.archive.trans archive⟩
  rw [advance_file s open',movedTo_small small,newFile,BitVec.zero_add]

theorem read_exact_iff_member : ∃ s file, processUnpackFd 0 0#32 s.fds = .ok (some 1#64) ∧
    ReadsExactly s 0 0#32 1#64 file Files.tarRead s.archive 512#64 2 1#64 5#64 ∧ leftOf 2 file.offset 5#64 = 1 := by
  obtain ⟨_,s,_,unpacks,open',fs,_⟩ := member_at 2#64 1#64 (by decide) (by decide) (by decide)
  have readable := member_readable { newFile (NodeId.tar 0).number 0#32 with offset := 1#64 } fs rfl
  exact ⟨s,_,unpacks,(read_exact_iff unpacks open' readable (by decide)).mpr (by decide),by decide⟩

/-- From offset 1 of a file of two bytes, a request of 2^64 - 1 bytes is not clamped: the sum
wraps to 0. -/
theorem read_past_end : ∃ events s file, Run FilesStart FileStep (fun _ _ => True) events s ∧
    processUnpackFd 0 0#32 s.fds = .ok (some 1#64) ∧ s.fds.files 1#64 = some file ∧ file.offset = 1#64 ∧
    Readable s (s.node file) Files.tarRead s.archive 512#64 2#64 2 ∧
    (∃ count, Files.tarRead s (s.node file) file.offset 0xFFFFFFFFFFFFFFFF#64 =
      .ok (count,cells s.archive (512#64 + file.offset) (2^64 - 1))) ∧
    ¬ReadsExactly s 0 0#32 1#64 file Files.tarRead s.archive 512#64 2 1#64 0xFFFFFFFFFFFFFFFF#64 := by
  obtain ⟨events,s,run,unpacks,open',fs,_⟩ := member_at 2#64 1#64 (by decide) (by decide) (by decide)
  generalize moved : { newFile (NodeId.tar 0).number 0#32 with offset := 1#64 } = file at open'
  have readable := member_readable file fs (by rw [← moved]; rfl)
  have stands : file.offset = 1#64 := by rw [← moved]
  have reads := readable.reads file.offset 0xFFFFFFFFFFFFFFFF#64
  rw [stands,show (clamped 2#64 1#64 0xFFFFFFFFFFFFFFFF#64).toNat = 2^64 - 1 by decide] at reads
  refine ⟨events,s,file,run,unpacks,open',stands,readable,⟨_,by rw [stands]; exact reads⟩,fun exact' => ?_⟩
  obtain ⟨count,copied⟩ := exact'.copied
  rw [stands,reads] at copied
  have same := congrArg List.length (ok_pair copied).2
  rw [length_cells,length_cells] at same
  exact absurd same (by decide)

end Reddyos
