import Reddyos.BootTree

/-! Writes to the framebuffer and to the console: where the bytes go, and which count the process
is told. -/
namespace Reddyos

open ByteRange Transitions

variable {s next : Files} {pid : Nat} {fd : Int32} {ptr : U64} {file : OpenFile} {node : VfsNode}
variable {offset size address : U64} {data : Nat → BitVec 8} {fb : Framebuffer}

/-- A write that changes the `n` bytes from the offset on and no others, and that is read back. -/
structure RoundTrip (s : Files) (node : VfsNode) (offset size : U64) (data : Nat → BitVec 8) (n : Nat) : Prop where
  writes : ∃ count next, s.fbWrite node offset data size = .ok (count,(List.range n).map data,next) ∧
    (∀ b, ¬Within (s.fb.back + offset) n b → next.memory b = s.memory b) ∧
    (∀ b, ¬Within s.fb.back s.fb.size.toNat b → next.memory b = s.memory b) ∧
    ∃ count, next.fbRead node offset size = .ok (count,(List.range n).map data)

/-- The pages of `n` bytes behind the fourfold offset are there. -/
def Files.Reaches (s : Files) (offset : U64) (n : Nat) : Prop :=
  ∀ b, Within (s.fb.back + 4#64 * offset) n b → s.reach b = true

theorem reaches_iff (size : U64) : s.Reaches offset size.toNat ↔
    ((List.range size.toNat).all fun i => s.reach (s.fb.back + 4#64 * offset + BitVec.ofNat 64 i)) = true := by
  rw [List.all_eq_true]
  exact (forall_within (Nat.le_of_lt size.isLt)).symm.trans (forall_congr' fun _ => imp_congr_left List.mem_range.symm)

theorem fbWrite_eq (s : Files) (node : VfsNode) (inside : node.internal = .data address) (offset size : U64)
    (data : Nat → BitVec 8) (reaches : s.Reaches offset (clamped s.fb.size offset size).toNat) :
    s.fbWrite node offset data size = .ok ((clamped s.fb.size offset size).setWidth 32,
      (List.range (clamped s.fb.size offset size).toNat).map data,
      { s with memory := stored s.memory (s.fb.back + 4#64 * offset) data (clamped s.fb.size offset size) }) := by
  unfold Files.fbWrite Files.framebuffer
  rw [inside]
  exact if_pos ((reaches_iff _).mp reaches)

theorem fbWrite_fault (inside : node.internal = .data address)
    (fault : ¬s.Reaches offset (clamped s.fb.size offset size).toNat) :
    s.fbWrite node offset data size = .error (.stop (.panic "Page Fault (14)")) := by
  unfold Files.fbWrite Files.framebuffer
  rw [inside]
  exact if_neg (mt (reaches_iff _).mpr fault)

theorem fbRead_eq (s : Files) (inside : node.internal = .data address) (offset size : U64) :
    s.fbRead node offset size = .ok ((clamped s.fb.size offset size).setWidth 32,
      cells s.memory (s.fb.back + offset) (clamped s.fb.size offset size).toNat) := by
  unfold Files.fbRead Files.framebuffer
  rw [inside]
  rfl

theorem within_buffer (fits : offset.toNat + n ≤ size.toNat) (base b : U64) (inside : Within (base + offset) n b) :
    Within base size.toNat b := by
  unfold Within at *
  have split : b - base = (b - (base + offset)) + offset := by
    rw [BitVec.sub_eq_add_neg,BitVec.sub_eq_add_neg,BitVec.neg_add,BitVec.sub_eq_add_neg,BitVec.add_assoc,BitVec.add_assoc,
      BitVec.add_left_neg,BitVec.add_zero]
  have small := size.isLt
  rw [split,BitVec.toNat_add,Nat.mod_eq_of_lt (by omega)]
  omega

/-- Three is odd: a fourfold offset that wraps is not the offset. -/
theorem fb_offset_zero (base : U64) (same : base + 4#64 * offset = base + offset) : offset = 0#64 := by
  have fourth := congrArg BitVec.toNat ((BitVec.add_right_inj base).mp same)
  have small := offset.isLt
  rw [BitVec.toNat_mul,show (4#64).toNat = 4 from rfl] at fourth
  apply BitVec.eq_of_toNat_eq
  rw [BitVec.toNat_zero]
  generalize offset.toNat = n at fourth small
  have split := Nat.div_add_mod (4 * n) (2^64)
  rw [fourth] at split
  clear fourth
  have turns : 4 * n / 2^64 < 4 := Nat.div_lt_of_lt_mul (by clear split; omega)
  generalize 4 * n / 2^64 = k at split turns
  have cases : k = 0 ∨ k = 1 ∨ k = 2 ∨ k = 3 := by clear split; omega
  rcases cases with rfl | rfl | rfl | rfl
  all_goals omega

/-- The write counts the offset in words, so that it is right at offset 0 alone. -/
theorem fb_round_trip_iff (fb : Framebuffer) (node : VfsNode) (inside : node.internal = .data address)
    (fits : offset.toNat + size.toNat < 2^64) (small : size.toNat < 2^31) :
    (∀ s data, s.fb = fb → RoundTrip s node offset size data (min size.toNat (fb.size.toNat - offset.toNat))) ↔
      offset = 0#64 ∨ size = 0#64 ∨ fb.size ≤ offset := by
  have count : (clamped fb.size offset size).toNat = min size.toNat (fb.size.toNat - offset.toNat) := toNat_clamped fits
  constructor
  · intro right
    by_contra other
    rw [not_or,not_or,BitVec.not_le,BitVec.lt_def] at other
    obtain ⟨moved,live,before⟩ := other
    have positive : 0 < size.toNat := Nat.pos_of_ne_zero fun zero => live (BitVec.eq_of_toNat_eq zero)
    -- an empty memory and a buffer of ones show where the bytes went
    obtain ⟨⟨_,next,writes,outside,_⟩⟩ := right
      ⟨fdInit,.zero,fun _ => 0#8,fb,fun _ => 0#8,[],fun _ => true,fun _ _ => rfl⟩ (fun _ => 1#8) rfl
    rw [fbWrite_eq _ _ inside _ _ _ fun _ _ => rfl] at writes
    obtain ⟨_,_,rfl⟩ := ok_triple writes
    refine moved (fb_offset_zero fb.back (range_unique (show 0 < (clamped fb.size offset size).toNat by omega)
      (by omega) fun b written => ?_))
    by_contra apart
    have kept : stored (fun _ => 0#8) (fb.back + 4#64 * offset) (fun _ => 1#8) (clamped fb.size offset size) b = 0#8 :=
      outside b (count ▸ apart)
    rw [stored_inside written] at kept
    cases kept
  · rintro condition s data rfl
    have start : s.fb.back + 4#64 * offset = s.fb.back + offset ∨ clamped s.fb.size offset size = 0#64 := by
      rcases condition with rfl | rfl | behind
      · exact .inl (by rw [BitVec.mul_zero])
      · exact .inr (BitVec.eq_of_toNat_eq (by rw [count]; exact Nat.zero_min _))
      · exact .inr (clamped_behind behind)
    have stores : ∀ b, ¬Within (s.fb.back + offset) (clamped s.fb.size offset size).toNat b →
        stored s.memory (s.fb.back + 4#64 * offset) data (clamped s.fb.size offset size) b = s.memory b := by
      intro b outside
      rcases start with same | none
      · rw [same]
        exact stored_outside outside
      · refine stored_outside ?_
        rw [none]
        exact Nat.not_lt_zero _
    have reaches : s.Reaches offset (clamped s.fb.size offset size).toNat := by
      intro b written
      rcases condition with rfl | rfl | behind
      · rw [BitVec.mul_zero,count,BitVec.toNat_zero,Nat.sub_zero] at written
        refine s.backed b (within_buffer ?_ _ _ written)
        rw [BitVec.toNat_zero]
        omega
      · rw [count,BitVec.toNat_zero,Nat.zero_min] at written
        exact absurd written (Nat.not_lt_zero _)
      · rw [clamped_behind behind] at written
        exact absurd written (Nat.not_lt_zero _)
    refine ⟨⟨_,_,by rw [fbWrite_eq s _ inside _ _ _ reaches,count],by rw [← count]; exact stores,?_,?_⟩⟩
    · intro b outside
      by_cases behind : s.fb.size ≤ offset
      · exact stored_outside (by rw [clamped_behind behind]; exact Nat.not_lt_zero _)
      · rw [BitVec.not_le,BitVec.lt_def] at behind
        exact stores b (mt (within_buffer (by omega) _ _) outside)
    · refine ⟨_,(fbRead_eq _ inside offset size).trans (congrArg Except.ok (Prod.ext rfl ?_))⟩
      dsimp only
      rw [← count]
      rcases start with same | none
      · rw [same,cells_stored]
      · rw [none]
        rfl

theorem fb_round_trip_whole : RoundTrip (oneMember 0#64) ⟨[],64#64,some fbOps,.data 0#64⟩ 0#64 80#64 (fun _ => 1#8) 64 :=
  (fb_round_trip_iff smallFb ⟨[],64#64,some fbOps,.data 0#64⟩ rfl (by decide) (by decide)).mpr (.inl rfl)
    (oneMember 0#64) (fun _ => 1#8) rfl

/-- One byte for offset 1 goes to offset 4. -/
theorem fb_write_scaled : ∃ count next, (oneMember 0#64).fbWrite ⟨[],64#64,some fbOps,.data 0#64⟩ 1#64 (fun _ => 1#8) 1#64 =
      .ok (count,[1#8],next) ∧
    next.memory ((oneMember 0#64).fb.back + 4#64) = 1#8 ∧ next.memory ((oneMember 0#64).fb.back + 1#64) = 0#8 ∧
    ¬RoundTrip (oneMember 0#64) ⟨[],64#64,some fbOps,.data 0#64⟩ 1#64 1#64 (fun _ => 1#8) 1 := by
  have writes := fbWrite_eq (oneMember 0#64) ⟨[],64#64,some fbOps,.data 0#64⟩ rfl 1#64 1#64 (fun _ => 1#8)
    ((reaches_iff _).mpr (by decide))
  refine ⟨_,_,writes,by decide,by decide,fun trip => ?_⟩
  obtain ⟨_,next,again,outside,_⟩ := trip.writes
  rw [writes] at again
  obtain ⟨_,_,rfl⟩ := ok_triple again
  exact absurd (outside ((oneMember 0#64).fb.back + 4#64) (by unfold Within; decide)) (by decide)

/-- The devices with a write operation. -/
inductive WriteDevice (node : VfsNode) : Prop where
  | console : node.ops = some stdoutOps ∨ node.ops = some stderrOps → WriteDevice node
  | framebuffer (address : U64) : node.ops = some fbOps → node.internal = .data address → WriteDevice node

/-- A caller that writes its buffer in a loop, with the number of bytes it takes for written and the
bytes the device took. -/
def writeAll (pid : Nat) (fd : Int32) (data : Nat → BitVec 8) (size : Nat) :
    Nat → Nat → Files → Except CallStop (Nat × List (BitVec 8) × Files)
  | 0, done, s => return (done,[],s)
  | rounds + 1, done, s =>
    if size ≤ done then return (done,[],s)
    else do
      let (answer,bytes,s) ← s.doSysWrite pid fd (some fun i => data (done + i)) (BitVec.ofNat 64 (size - done))
      match answer with
      | .value count =>
        if count.toInt < 0 then return (done,bytes,s)
        else do
          let (done,later,s) ← writeAll pid fd data size rounds (done + count.toNat) s
          return (done,bytes ++ later,s)
      | _ => return (done,bytes,s)

/-- The returned value is the number of bytes the device took, and so is the move of the file; a caller that writes
in a loop gets its whole buffer out, once and in order. -/
structure HonestWrite (s : Files) (pid : Nat) (fd : Int32) (ptr : U64) (file : OpenFile)
    (data : Nat → BitVec 8) (size : U64) : Prop where
  returned : ∃ n next, s.doSysWrite pid fd (some data) size =
      .ok (.value (BitVec.ofNat 64 n),(List.range n).map data,next) ∧ n < 2^64 ∧
    next.fds.files ptr = some { file with offset := file.offset + BitVec.ofNat 64 n }
  once : ∃ enough, ∀ rounds, enough ≤ rounds → ∃ next,
    writeAll pid fd data size.toNat rounds 0 s = .ok (size.toNat,(List.range size.toNat).map data,next)

/-- The request ends in the buffer, by a sum that may wrap, and the bytes behind the fourfold offset are mapped. -/
structure FbFits (s : Files) (file : OpenFile) (size : U64) : Prop where
  inside : file.offset < s.fb.size
  fits : file.offset + size ≤ s.fb.size
  mapped : s.Reaches file.offset size.toNat

/-- A write of an open descriptor returns what its operation says. -/
theorem doSysWrite_writes (data : Nat → BitVec 8) (unpacks : processUnpackFd pid fd s.fds = .ok (some ptr))
    (open' : s.fds.files ptr = some file) (named : (s.node file).ops = some ops)
    (found : (opsTable ops).write = some write)
    (writes : write s (s.node file) file.offset data size = .ok (count,bytes,next)) (some' : size ≠ 0#64) :
    s.doSysWrite pid fd (some data) size =
      .ok (.value (count.signExtend 64),bytes,next.advance ptr file count) := by
  have table := ops_ok.mpr ⟨ops,named,rfl⟩
  have copies : s.vfsWrite ptr data size = .ok (count,bytes,next.advance ptr file count) := by
    unfold Files.vfsWrite
    rw [file_ok.mpr open']
    simp only [bind,Except.bind,table,found,writes]
    rfl
  unfold Files.doSysWrite
  dsimp only
  rw [if_neg some',unpack_ok.mpr unpacks]
  simp only [bind,Except.bind,copies]
  rfl

theorem doSysWrite_fails (unpacks : processUnpackFd pid fd s.fds = .ok (some ptr))
    (open' : s.fds.files ptr = some file) (named : (s.node file).ops = some ops)
    (found : (opsTable ops).write = some write) (fails : write s (s.node file) file.offset data size = .error stop)
    (some' : size ≠ 0#64) : s.doSysWrite pid fd (some data) size = .error stop := by
  have table := ops_ok.mpr ⟨ops,named,rfl⟩
  have copies : s.vfsWrite ptr data size = .error stop := by
    unfold Files.vfsWrite
    rw [file_ok.mpr open']
    simp only [bind,Except.bind,table,found,fails]
  unfold Files.doSysWrite
  dsimp only
  rw [if_neg some',unpack_ok.mpr unpacks]
  simp only [bind,Except.bind,copies]

/-- What one write of the framebuffer does. -/
theorem fb_write_count (data : Nat → BitVec 8) (unpacks : processUnpackFd pid fd s.fds = .ok (some ptr))
    (open' : s.fds.files ptr = some file) (named : (s.node file).ops = some fbOps)
    (inside : (s.node file).internal = .data address) (some' : size ≠ 0#64) (small : size.toNat < 2^31)
    (count : (clamped s.fb.size file.offset size).toNat = n) (reaches : s.Reaches file.offset n) :
    ∃ next, n < 2^31 ∧ s.doSysWrite pid fd (some data) size =
        .ok (.value (BitVec.ofNat 64 n),(List.range n).map data,next) ∧
      next.fds.files ptr = some { file with offset := file.offset + BitVec.ofNat 64 n } ∧ next.fb = s.fb ∧ Kept s next := by
  subst count
  have writes := doSysWrite_writes data unpacks open' named rfl (fbWrite_eq s _ inside file.offset size data reaches) some'
  have below : (clamped s.fb.size file.offset size).toNat ≤ size.toNat := clamped_le
  have kept := doSysWrite_kept writes
  rw [widen_narrow (by omega)] at writes
  refine ⟨_,by omega,?_,?_,?_,kept⟩
  · rw [writes,BitVec.ofNat_toNat,BitVec.setWidth_eq]
  · have moved := advance_file
      { s with memory := stored s.memory (s.fb.back + 4#64 * file.offset) data (clamped s.fb.size file.offset size) }
      open' ((clamped s.fb.size file.offset size).setWidth 32)
    rw [movedTo_small (by omega)] at moved
    rw [moved,BitVec.ofNat_toNat,BitVec.setWidth_eq]
  · unfold Files.advance
    split <;> rfl

theorem toInt_small (small : n < 2^31) : ¬(BitVec.ofNat 64 n).toInt < 0 ∧ (BitVec.ofNat 64 n).toNat = n := by
  have number : (BitVec.ofNat 64 n).toNat = n := by
    rw [BitVec.toNat_ofNat]
    omega
  rw [BitVec.toInt_eq_toNat_cond,number]
  refine ⟨?_,rfl⟩
  split <;> omega

theorem writeAll_done {size : Nat} (all : size ≤ done) (rounds : Nat) (s : Files) :
    writeAll pid fd data size rounds done s = .ok (done,[],s) := by
  cases rounds with
  | zero => rfl
  | succ rounds => exact if_pos all

theorem writeAll_round {size : Nat} (more : before < size)
    (writes : s.doSysWrite pid fd (some fun i => data (before + i)) (BitVec.ofNat 64 (size - before)) =
      .ok (.value (BitVec.ofNat 64 n),bytes,middle)) (small : n < 2^31) (rounds : Nat) :
    writeAll pid fd data size (rounds + 1) before s = do
      let (done,later,s) ← writeAll pid fd data size rounds (before + n) middle
      return (done,bytes ++ later,s) := by
  obtain ⟨positive,number⟩ := toInt_small small
  rw [writeAll,if_neg (Nat.not_le.mpr more),writes]
  change (if (BitVec.ofNat 64 n).toInt < 0 then _ else _) = _
  rw [if_neg positive,number]

/-- Behind the end of the buffer the loop gets nowhere. -/
theorem writeAll_behind {size : Nat} (small : size < 2^31) (unpacks : processUnpackFd pid fd s.fds = .ok (some ptr))
    (open' : s.fds.files ptr = some file) (named : (s.node file).ops = some fbOps)
    (inside : (s.node file).internal = .data address) (behind : s.fb.size ≤ file.offset)
    (returns : writeAll pid fd data size rounds before s = .ok (done,bytes,next)) (more : before < size) :
    done = before := by
  induction rounds generalizing s file bytes next with
  | zero => exact (ok_triple returns).1.symm
  | succ rounds ih =>
    have request : (BitVec.ofNat 64 (size - before)).toNat = size - before := by
      rw [BitVec.toNat_ofNat]
      omega
    have live : BitVec.ofNat 64 (size - before) ≠ 0#64 := fun zero => by
      rw [zero,BitVec.toNat_zero] at request
      omega
    obtain ⟨middle,_,writes,moved,same,kept⟩ := fb_write_count (fun i => data (before + i)) unpacks open' named inside
      live (by omega) (n := 0) (by rw [clamped_behind behind]; rfl) (fun b written => absurd written (Nat.not_lt_zero _))
    rw [writeAll_round more writes (by decide)] at returns
    obtain ⟨⟨done',later,last⟩,rest,returns⟩ := ok_of_bind returns
    obtain ⟨rfl,_,_⟩ := ok_triple returns
    have node : middle.node { file with offset := file.offset + BitVec.ofNat 64 0 } = s.node file := by
      unfold Files.node
      rw [kept.fs]
    refine ih ((kept.unpack pid fd).trans unpacks) moved (by rw [node]; exact named) (by rw [node]; exact inside) ?_ rest
    dsimp only
    rw [same,BitVec.add_zero]
    exact behind

/-- A short write leaves the file at the end of the buffer, or behind it. -/
theorem short_behind {limit : U64} (short : clamped limit offset size ≠ size) :
    limit ≤ offset + clamped limit offset size := by
  unfold clamped at short ⊢
  split at short
  · rename_i behind
    rw [if_pos behind,BitVec.add_zero]
    exact behind
  split at short
  · rename_i before crossed
    rw [if_neg before,if_pos crossed,BitVec.add_comm,BitVec.sub_add_cancel]
    exact BitVec.le_refl _
  · exact absurd rfl short

theorem clamped_whole {limit : U64} (some' : size ≠ 0#64) :
    clamped limit offset size = size ↔ offset < limit ∧ offset + size ≤ limit := by
  unfold clamped
  constructor
  · intro whole
    split at whole
    · exact absurd whole.symm some'
    rename_i before
    split at whole
    · rename_i crossed
      rw [← whole,BitVec.add_comm,BitVec.sub_add_cancel] at crossed
      exact absurd crossed (BitVec.lt_irrefl _)
    · rename_i fits
      exact ⟨BitVec.not_le.mp before,BitVec.not_lt.mp fits⟩
  · rintro ⟨before,fits⟩
    rw [if_neg (BitVec.not_le.mpr before),if_neg (BitVec.not_lt.mpr fits)]

/-- The console takes everything and reports nothing. -/
theorem console_dishonest (unpacks : processUnpackFd pid fd s.fds = .ok (some ptr))
    (open' : s.fds.files ptr = some file) (named : (s.node file).ops = some ops)
    (found : (opsTable ops).write = some Files.stdWrite) (some' : size ≠ 0#64) :
    ¬HonestWrite s pid fd ptr file data size := by
  rintro ⟨⟨n,next,returns,fits,_⟩,_⟩
  rw [doSysWrite_writes data unpacks open' named found rfl some'] at returns
  obtain ⟨value,taken,_⟩ := ok_triple returns
  have length := congrArg List.length taken
  simp only [List.length_map,List.length_range] at length
  have zero := congrArg BitVec.toNat (Answer.value.inj value)
  rw [BitVec.toNat_ofNat,Nat.mod_eq_of_lt fits,← length] at zero
  exact some' (BitVec.eq_of_toNat_eq zero.symm)

/-- The framebuffer is honest exactly where the whole request fits. -/
theorem fb_honest_iff (unpacks : processUnpackFd pid fd s.fds = .ok (some ptr))
    (open' : s.fds.files ptr = some file) (named : (s.node file).ops = some fbOps)
    (inside : (s.node file).internal = .data address) (some' : size ≠ 0#64) (small : size.toNat < 2^31) :
    HonestWrite s pid fd ptr file data size ↔ FbFits s file size := by
  have request : BitVec.ofNat 64 (size.toNat - 0) = size := by rw [Nat.sub_zero,BitVec.ofNat_toNat,BitVec.setWidth_eq]
  have shifted : (fun i => data (0 + i)) = data := funext fun i => by rw [Nat.zero_add]
  have positive : 0 < size.toNat := Nat.pos_of_ne_zero fun zero => some' (BitVec.eq_of_toNat_eq zero)
  constructor
  · rintro ⟨⟨n,next,returned,_⟩,enough,once⟩
    have reaches : s.Reaches file.offset (clamped s.fb.size file.offset size).toNat := by
      by_contra fault
      rw [doSysWrite_fails unpacks open' named rfl (fbWrite_fault inside fault) some'] at returned
      cases returned
    obtain ⟨middle,fits,writes,moved,same,kept⟩ := fb_write_count data unpacks open' named inside some' small rfl reaches
    have whole : clamped s.fb.size file.offset size = size := by
      by_contra short
      obtain ⟨last,all⟩ := once (enough + 1) (Nat.le_succ _)
      rw [writeAll_round positive (by rw [request,shifted]; exact writes) fits] at all
      obtain ⟨⟨done,later,final⟩,rest,all⟩ := ok_of_bind all
      obtain ⟨rfl,_,_⟩ := ok_triple all
      have node : middle.node { file with
          offset := file.offset + BitVec.ofNat 64 (clamped s.fb.size file.offset size).toNat } = s.node file := by
        unfold Files.node
        rw [kept.fs]
      have below : (clamped s.fb.size file.offset size).toNat ≤ size.toNat := clamped_le
      have apart : (clamped s.fb.size file.offset size).toNat ≠ size.toNat := mt BitVec.eq_of_toNat_eq short
      refine apart ?_
      have stuck := writeAll_behind small ((kept.unpack pid fd).trans unpacks) moved (by rw [node]; exact named)
        (by rw [node]; exact inside) ?_ rest (by omega)
      · omega
      · dsimp only
        rw [same,BitVec.ofNat_toNat,BitVec.setWidth_eq]
        exact short_behind short
    obtain ⟨before,ends⟩ := (clamped_whole some').mp whole
    exact ⟨before,ends,whole ▸ reaches⟩
  · rintro ⟨before,ends,reaches⟩
    have whole := (clamped_whole some').mpr ⟨before,ends⟩
    obtain ⟨next,fits,writes,moved,_⟩ := fb_write_count data unpacks open' named inside some' small
      (congrArg BitVec.toNat whole) reaches
    refine ⟨⟨_,next,writes,by omega,moved⟩,1,fun rounds one => ⟨next,?_⟩⟩
    obtain ⟨rounds,rfl⟩ := Nat.exists_eq_add_of_le' one
    rw [writeAll_round positive (by rw [request,shifted]; exact writes) fits,Nat.zero_add,writeAll_done (Nat.le_refl _)]
    exact congrArg Except.ok (Prod.ext rfl (Prod.ext (List.append_nil _) rfl))

end Reddyos
