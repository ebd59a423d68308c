import Reddyos.FileReads

/-! Seeking in an archive member. The sum of base and offset is a signed word and wraps before it
is clamped. -/
namespace Reddyos

open ByteRange Transitions

variable {s next : Files} {pid : Nat} {fd : Int32} {ptr : U64} {file : OpenFile} {size offset address : U64}
variable {whence : Whence}

def seekBase (file : OpenFile) (size : U64) : Whence → Int
  | .set => 0
  | .cur => file.offset.toNat
  | .end => size.toNat
  | .other => 0

def clampTo (n : Int) (x : Int) : Int := max 0 (min x n)

/-- The position is the clamp of the sum as a number, for the process and in the file. -/
def SeekExact (s : Files) (pid : Nat) (fd : Int32) (ptr : U64) (file : OpenFile) (size offset : U64)
    (whence : Whence) : Prop :=
  ∃ position next, s.doSysLseek pid fd offset whence = .ok (.value position,next) ∧
    position.toInt = clampTo size.toInt (seekBase file size whence + offset.toInt) ∧
    next.fds.files ptr = some { file with offset := position }

structure MemberOpen (s : Files) (pid : Nat) (fd : Int32) (ptr size address : U64) (file : OpenFile) : Prop where
  unpacks : processUnpackFd pid fd s.fds = .ok (some ptr)
  open' : s.fds.files ptr = some file
  length : (s.node file).size = size
  ops : (s.node file).ops = some .tarOps
  inside : (s.node file).internal = .data address
  within : file.offset ≤ size

theorem member_on (unpacks : processUnpackFd pid fd s.fds = .ok (some ptr)) (open' : s.fds.files ptr = some file)
    (node : s.node file = ⟨name,size,some .tarOps,.data address⟩) (within : file.offset ≤ size) :
    MemberOpen s pid fd ptr size address file :=
  ⟨unpacks,open',by rw [node],by rw [node],by rw [node],within⟩

/-- Reads of the descriptor, and seeks with a whence of `lseek`. -/
inductive SeekCall (pid : Nat) (fd : Int32) : FileCall → Prop where
  | read (buffer size : U64) : SeekCall pid fd (.read pid fd buffer size)
  | lseek (offset : U64) (whence : Whence) : whence ≠ .other → SeekCall pid fd (.lseek pid fd offset whence)

def SeekFits (file : OpenFile) (size : U64) : FileCall → Prop
  | .lseek _ _ offset whence => size = 0#64 ∨ seekBase file size whence + offset.toInt < 2^63
  | .read _ _ _ request => size ≤ file.offset ∨ file.offset.toNat + request.toNat < 2^64
  | _ => True

theorem whole_toInt (whole : 0 ≤ size.toInt) : size.toInt = size.toNat ∧ size.toNat < 2^63 := by
  have bound := size.isLt
  rw [BitVec.toInt_eq_toNat_cond] at whole ⊢
  split at whole <;> split <;> omega

theorem seekClamp_toInt (whole : 0 ≤ size.toInt) (target : U64) :
    (seekClamp size target).toInt = clampTo size.toInt target.toInt := by
  unfold seekClamp clampTo
  have zero : (0#64).toInt = 0 := rfl
  dsimp only
  by_cases negative : target.toInt < 0
  · rw [if_pos negative,zero,if_neg (by omega),zero]
    omega
  · rw [if_neg negative]
    split <;> omega

/-- A sum of a position and an offset wraps by one turn at most. -/
theorem toInt_sum (position offset : U64) (small : position.toNat < 2^63) :
    (position + offset).toInt = position.toNat + offset.toInt ∧ position.toNat + offset.toInt < 2^63 ∨
      (position + offset).toInt = position.toNat + offset.toInt - 2^64 ∧ 2^63 ≤ position.toNat + offset.toInt := by
  have bound := offset.isLt
  rw [BitVec.toInt_eq_toNat_cond (x := position + offset),BitVec.toInt_eq_toNat_cond (x := offset),BitVec.toNat_add]
  split <;> split <;> omega

/-- What a seek aims at: the sum, or the sum less 2^64. -/
theorem seekTarget_cases (offset : U64) (whole : 0 ≤ size.toInt) (within : file.offset ≤ size) (valid : whence ≠ .other) :
    ∃ target, seekTarget file size offset whence = .ok target ∧
      (target.toInt = seekBase file size whence + offset.toInt ∧ seekBase file size whence + offset.toInt < 2^63 ∨
        target.toInt = seekBase file size whence + offset.toInt - 2^64 ∧
          2^63 ≤ seekBase file size whence + offset.toInt) := by
  obtain ⟨_,small⟩ := whole_toInt whole
  rw [BitVec.le_def] at within
  cases whence with
  | set =>
    refine ⟨offset,rfl,.inl ⟨(Int.zero_add _).symm,?_⟩⟩
    have below := BitVec.toInt_lt (x := offset)
    simp only [seekBase]
    omega
  | cur => exact ⟨_,rfl,toInt_sum file.offset offset (by omega)⟩
  | «end» => exact ⟨_,rfl,toInt_sum size offset small⟩
  | other => exact absurd rfl valid

theorem doSysLseek_moves (offset : U64) (whence : Whence) (opened : MemberOpen s pid fd ptr size address file)
    (aims : seekTarget file size offset whence = .ok target) :
    s.doSysLseek pid fd offset whence = .ok (.value (seekClamp size target),s.moveTo ptr file (seekClamp size target)) := by
  have seeks : s.vfsLseek ptr offset whence = .ok (seekClamp size target,s.moveTo ptr file (seekClamp size target)) := by
    unfold Files.vfsLseek
    rw [file_ok.mpr opened.open']
    simp only [bind,Except.bind,opened.length,aims]
    rfl
  unfold Files.doSysLseek
  rw [unpack_ok.mpr opened.unpacks]
  simp only [bind,Except.bind,seeks]
  rfl

/-- A seek is exact unless its sum overflows in a file that is not empty. -/
theorem seekExact_iff (whole : 0 ≤ size.toInt) (opened : MemberOpen s pid fd ptr size address file)
    (valid : whence ≠ .other) : SeekExact s pid fd ptr file size offset whence ↔
      size = 0#64 ∨ seekBase file size whence + offset.toInt < 2^63 := by
  obtain ⟨target,aims,sum⟩ := seekTarget_cases offset whole opened.within valid
  have moves := doSysLseek_moves _ _ opened aims
  have position := seekClamp_toInt whole target
  obtain ⟨number,small⟩ := whole_toInt whole
  have exact' : SeekExact s pid fd ptr file size offset whence ↔
      clampTo size.toInt target.toInt = clampTo size.toInt (seekBase file size whence + offset.toInt) := by
    constructor
    · rintro ⟨position',next,returns,right,_⟩
      rw [moves] at returns
      obtain ⟨value,_⟩ := ok_pair returns
      rw [← position,Answer.value.inj value,right]
    · intro same
      exact ⟨_,_,moves,position.trans same,if_pos rfl⟩
  have empty : size = 0#64 ↔ size.toInt = 0 := by
    rw [number]
    refine ⟨fun zero => by rw [zero]; rfl,fun zero => BitVec.eq_of_toNat_eq (by rw [BitVec.toNat_zero]; omega)⟩
  rw [exact',empty]
  unfold clampTo
  rcases sum with ⟨same,fits⟩ | ⟨wrapped,overflows⟩
  · rw [same]
    exact ⟨fun _ => .inr fits,fun _ => rfl⟩
  · rw [wrapped]
    have below := BitVec.toInt_lt (x := offset)
    have base : seekBase file size whence < 2^63 := by
      have inside := BitVec.le_def.mp opened.within
      cases whence with
      | set => simp [seekBase]
      | cur => simp only [seekBase]; omega
      | «end» => simp only [seekBase]; omega
      | other => simp [seekBase]
    omega

theorem movedTo_le (position count : U64) : (movedTo position (count.setWidth 32)).toNat ≤
    position.toNat + count.toNat := by
  unfold movedTo
  split
  · rename_i positive
    have sign := toInt_narrow count
    rw [if_pos (by by_contra large; rw [if_neg large] at sign; omega)] at sign
    have wide : ((count.setWidth 32).signExtend 64).toNat = count.toNat % 2^32 := by
      have same := BitVec.toInt_signExtend_of_le (x := count.setWidth 32) (show 32 ≤ 64 by decide)
      rw [sign,BitVec.toInt_eq_toNat_cond] at same
      split at same <;> omega
    rw [BitVec.toNat_add,wide]
    omega
  · omega

theorem MemberOpen.readable (opened : MemberOpen s pid fd ptr size address file) :
    Readable s (s.node file) Files.tarRead s.archive address size size.toInt := by
  have readable := Readable.tar (s := s) address opened.ops opened.inside
  rwa [opened.length] at readable

theorem MemberOpen.moved (opened : MemberOpen s pid fd ptr size address file) (position : U64) (within : position ≤ size)
    (unpack : processUnpackFd pid fd next.fds = processUnpackFd pid fd s.fds)
    (there : next.fds.files ptr = some { file with offset := position }) (fs : next.fs = s.fs) :
    MemberOpen next pid fd ptr size address { file with offset := position } := by
  have node : next.node { file with offset := position } = s.node file := by
    unfold Files.node
    rw [fs]
  exact ⟨unpack.trans opened.unpacks,there,node ▸ opened.length,node ▸ opened.ops,node ▸ opened.inside,within⟩

theorem MemberOpen.read (opened : MemberOpen s pid fd ptr size address file)
    (fits : size ≤ file.offset ∨ file.offset.toNat + request.toNat < 2^64)
    (returns : s.doSysRead pid fd buffer request = .ok (answer,bytes,next)) :
    ∃ file, MemberOpen next pid fd ptr size address file := by
  by_cases given : buffer = 0#64 ∨ request = 0#64
  · unfold Files.doSysRead at returns
    rw [if_pos given] at returns
    obtain ⟨_,_,rfl⟩ := ok_triple returns
    exact ⟨file,opened⟩
  rw [not_or] at given
  have kept := doSysRead_kept returns
  rw [doSysRead_reads opened.unpacks opened.open' opened.readable given.1 given.2] at returns
  obtain ⟨_,_,rfl⟩ := ok_triple returns
  have count := toNat_clamped_iff.mpr fits
  have within := BitVec.le_def.mp opened.within
  have bound := size.isLt
  have below := movedTo_le file.offset (clamped size file.offset request)
  refine ⟨_,opened.moved _ ?_ (kept.unpack pid fd) (advance_file s opened.open' _) kept.fs⟩
  rw [BitVec.le_def]
  omega

theorem MemberOpen.seek (whole : 0 ≤ size.toInt) (opened : MemberOpen s pid fd ptr size address file)
    (valid : whence ≠ .other) (returns : s.doSysLseek pid fd offset whence = .ok (answer,next)) :
    ∃ file, MemberOpen next pid fd ptr size address file := by
  obtain ⟨target,aims,_⟩ := seekTarget_cases offset whole opened.within valid
  have kept := doSysLseek_kept returns
  rw [doSysLseek_moves _ _ opened aims] at returns
  obtain ⟨_,rfl⟩ := ok_pair returns
  refine ⟨_,opened.moved _ ?_ (kept.unpack pid fd) (if_pos rfl) kept.fs⟩
  have position := seekClamp_toInt whole target
  obtain ⟨number,small⟩ := whole_toInt whole
  unfold clampTo at position
  rw [BitVec.le_def]
  rw [BitVec.toInt_eq_toNat_cond] at position
  split at position <;> omega

def SeekGuard (pid : Nat) (fd : Int32) (ptr : U64) (s : Files) (e : FileEvent) : Prop :=
  SeekCall pid fd e.call ∧ ∀ file, s.fds.files ptr = some file → SeekFits file (s.node file).size e.call

/-- In a run without overflow the file stays inside `[0,n]`, and there a seek is exact unless its
own sum overflows. -/
theorem seeks_exact (whole : 0 ≤ size.toInt) (opened : MemberOpen start pid fd ptr size address first)
    (run : Run (fun s => s = start) FileStep (SeekGuard pid fd ptr) events s) :
    ∃ file, MemberOpen s pid fd ptr size address file ∧ ∀ offset whence, whence ≠ .other →
      (SeekExact s pid fd ptr file size offset whence ↔
        size = 0#64 ∨ seekBase file size whence + offset.toInt < 2^63) := by
  have within := run.invariant (fun _ s => ∃ file, MemberOpen s pid fd ptr size address file)
    (fun s begins => begins ▸ ⟨first,opened⟩) (by
      rintro _ s e next ⟨file,opened⟩ ⟨call,fits⟩ ⟨_,returns⟩
      have fits := fits file opened.open'
      rw [opened.length] at fits
      obtain ⟨call',answer,bytes⟩ := e
      dsimp only at call fits returns
      cases call with
      | read buffer request => exact opened.read fits returns
      | lseek offset whence valid =>
        obtain ⟨⟨answer',next'⟩,seeks,returns⟩ := ok_of_bind returns
        obtain ⟨_,_,rfl⟩ := ok_triple returns
        exact opened.seek whole valid seeks)
  obtain ⟨file,opened⟩ := within
  exact ⟨file,opened,fun offset whence valid => seekExact_iff whole opened valid⟩

theorem member_open (size k : U64) (inside : k ≤ size) (small : k.toNat < 2^31) (some' : k ≠ 0#64) :
    ∃ events s file, Run FilesStart FileStep (fun _ _ => True) events s ∧ MemberOpen s 0 0#32 1#64 size 512#64 file ∧
      file.offset = k := by
  obtain ⟨events,s,run,unpacks,open',fs,_⟩ := member_at size k inside small some'
  exact ⟨events,s,_,run,member_on unpacks open' (member_node fs rfl) inside,rfl⟩

/-- One byte into a file of two bytes, a seek by 2^63 - 1 goes back to the start. -/
theorem seek_overflows : ∃ events s file next, Run FilesStart FileStep (fun _ _ => True) events s ∧
    MemberOpen s 0 0#32 1#64 2#64 512#64 file ∧ file.offset = 1#64 ∧
    s.doSysLseek 0 0#32 0x7FFFFFFFFFFFFFFF#64 .cur = .ok (.value 0#64,next) ∧
    ¬SeekExact s 0 0#32 1#64 file 2#64 0x7FFFFFFFFFFFFFFF#64 .cur := by
  obtain ⟨events,s,file,run,opened,stands⟩ := member_open 2#64 1#64 (by decide) (by decide) (by decide)
  have moves := doSysLseek_moves 0x7FFFFFFFFFFFFFFF#64 .cur opened rfl
  rw [stands] at moves
  refine ⟨events,s,file,_,run,opened,stands,moves,fun exact' => ?_⟩
  have fits := (seekExact_iff (by decide) opened (by decide)).mp exact'
  simp only [seekBase,stands] at fits
  exact absurd fits (by decide)

theorem seeks_exact_end : ∃ s file, MemberOpen s 0 0#32 1#64 2#64 512#64 file ∧
    SeekExact s 0 0#32 1#64 file 2#64 (-1#64) .end := by
  obtain ⟨_,s,_,_,opened,_⟩ := member_open 2#64 1#64 (by decide) (by decide) (by decide)
  obtain ⟨file,opened,seeks⟩ := seeks_exact (by decide) opened (Run.start rfl)
  exact ⟨s,file,opened,(seeks _ _ (by decide)).mpr (.inr (show (2 : Int) + -1 < 2^63 by decide))⟩

end Reddyos
