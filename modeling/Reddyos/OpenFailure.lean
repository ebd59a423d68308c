import Reddyos.FileReads
import Mathlib.Data.Finset.Range

/-! What an open leaves behind. An open that is refused gives back the file and the descriptor, but
`vfs_open` has cut the vnode by then. -/
namespace Reddyos

open SlotTable Transitions

variable {s : Files} {pid : Nat} {path : CString} {flags : Int32} {allocs : FdAllocs} {t next : FdState}

/-- `r` was the smallest free descriptor and is open at the start of a file; nothing else has changed. -/
structure Added (t : FdState) (pid : Nat) (r : Int32) (next : FdState) : Prop where
  number : 0 ≤ r.toInt
  free : slot (t.fds pid) r.toNat = none
  least : ∀ j < r.toNat, slot (t.fds pid) j ≠ none
  opened : ∃ k p file, Opened t pid k r.toNat p file next ∧ file.offset = 0#64

/-- A descriptor adds itself and no more, a refusal leaves everything as it was. -/
structure OpenHonest (s : Files) (pid : Nat) (path : CString) (flags : Int32) (allocs : FdAllocs) : Prop where
  success : ∀ r next, s.doSysOpen pid path flags allocs = .ok (r,next) → r ≠ -1#32 → Added s.fds pid r next.fds
  refusal : ∀ next, s.doSysOpen pid path flags allocs = .ok (-1#32,next) → SameFds s.fds next.fds ∧ next.fs = s.fs

structure Seated (t : FdState) (pid : Nat) (allocs : FdAllocs) : Prop where
  table : Room tableLimit allocs.table t.table
  fd : allocs.fd = true
  fds : Room tableLimit allocs.fds (t.fds pid)

/-- `vfs_open` is reached and cuts a vnode that is not empty. -/
structure Cuts (s : Files) (path : CString) (flags : Int32) (allocs : FdAllocs) : Prop where
  file : allocs.file ≠ none
  flag : flags &&& oTrunc ≠ 0#32
  vnode : ∃ id, vfsFindVnode s.fs path = .ok (some id) ∧ (s.fs.node id).size ≠ 0#64

/-- Descriptors have different indices below 2^31, so that their numbers are below 2^31 as well. -/
theorem FdInv.small_fd (inv : FdInv t) (pid : Nat) (taken : ∀ j ≤ i, slot (t.fds pid) j ≠ none) : i < 2^31 := by
  have index (j : Nat) : ∃ idx : Int32, j ≤ i → slot (t.fds pid) j = some idx := by
    by_cases below : j ≤ i
    · obtain ⟨idx,entry⟩ := Option.ne_none_iff_exists'.mp (taken j below)
      exact ⟨idx,fun _ => entry⟩
    · exact ⟨0#32,fun within => absurd within below⟩
  choose idx entry using index
  have many : (Finset.range (i + 1)).card ≤ (Finset.range (2^31)).card := by
    apply Finset.card_le_card_of_injOn fun j => (idx j).toNat
    · intro j member
      have below := Finset.mem_range.mp (Finset.mem_coe.mp member)
      exact Finset.mem_coe.mpr (Finset.mem_range.mpr (inv.entry pid j _ (entry j (by omega))).1)
    · intro j first j' second same
      have below := Finset.mem_range.mp (Finset.mem_coe.mp first)
      have below' := Finset.mem_range.mp (Finset.mem_coe.mp second)
      have there := entry j (by omega)
      rw [BitVec.eq_of_toNat_eq same] at there
      exact (inv.unique _ _ _ _ _ there (entry j' (by omega))).2
  rw [Finset.card_range,Finset.card_range] at many
  omega

/-- The number of a new descriptor fits an `int`. -/
theorem Opened.added (inv : FdInv t) (opened : Opened t pid k i p (newFile v flags) next)
    (least : ∀ j < i, slot (t.fds pid) j ≠ none) :
    i < 2^31 ∧ Added t pid (BitVec.ofNat 32 i) next := by
  have small : i < 2^31 := by
    refine (inv.opened opened).small_fd pid fun j below => ?_
    rw [opened.fds]
    split
    · exact Option.some_ne_none _
    · exact least j (by omega)
  have number := toNat_index small
  refine ⟨small,?_⟩
  refine ⟨?_,?_,?_,k,p,newFile v flags,?_,rfl⟩
  · have sign := toInt_neg_iff (BitVec.ofNat 32 i)
    omega
  · rw [number]
    exact opened.freeFd
  · rw [number]
    exact least
  · rw [number]
    exact opened

theorem setNode_empty (fs : Vfs) (id : NodeId) (empty : (fs.node id).size = 0#64) :
    fs.setNode id { fs.node id with size := 0#64 } = fs := by
  have same : { fs.node id with size := 0#64 } = fs.node id := by
    rw [← empty]
  have nodes : (fun other => if other = id then fs.node id else fs.node other) = fs.node := by
    funext other
    split
    · rename_i here
      rw [here]
    · rfl
  unfold Vfs.setNode
  rw [same,nodes]

/-- Opening the file system changes it only where it cuts. -/
theorem vfsOpen_same (opens : s.vfsOpen path flags = .ok (vnode,fs)) (granted : allocs.file ≠ none)
    (whole : ¬Cuts s path flags allocs) : fs = s.fs := by
  unfold Files.vfsOpen at opens
  split at opens
  · cases opens
  · obtain ⟨_,rfl⟩ := ok_pair opens
    rfl
  rename_i id finds
  split at opens
  · rename_i flag
    obtain ⟨_,rfl⟩ := ok_pair opens
    by_cases empty : (s.fs.node id).size = 0#64
    · exact setNode_empty s.fs id empty
    · exact absurd ⟨granted,flag,id,finds,empty⟩ whole
  · obtain ⟨_,rfl⟩ := ok_pair opens
    rfl

theorem Cuts.opens (cuts : Cuts s path flags allocs) : ∃ id, (s.fs.node id).size ≠ 0#64 ∧
    s.openVnode path flags allocs =
      .ok (some id.number,s.fs.setNode id { s.fs.node id with size := 0#64 }) := by
  obtain ⟨id,finds,size⟩ := cuts.vnode
  refine ⟨id,size,?_⟩
  unfold Files.openVnode
  rw [if_neg cuts.file]
  unfold Files.vfsOpen
  rw [finds]
  exact if_pos cuts.flag

/-- In every state of a run with fewer than 2^31 open files, an open is honest unless it cuts a
vnode and is refused after that. -/
theorem open_honest_iff (run : Run FilesStart FileStep (fun s e => FewOpen s e.call) events s)
    (few : used s.fds.table < 2^31) (unused : ∀ p, allocs.file = some p → s.fds.files p = none) :
    OpenHonest s pid path flags allocs ↔ ¬(Cuts s path flags allocs ∧ ¬Seated s.fds pid allocs) := by
  have inv := files_inv run
  constructor
  · rintro honest ⟨cuts,refused⟩
    obtain ⟨id,size,looks⟩ := cuts.opens
    obtain ⟨r,next,opens,⟨rfl,_⟩ | ⟨_,_,_,_,granted,_⟩⟩ := processFdOpen_outcome pid (some id.number) flags few unused
    · have returns : s.doSysOpen pid path flags allocs =
          .ok (-1#32,{ s with fds := next, fs := s.fs.setNode id { s.fs.node id with size := 0#64 } }) := by
        unfold Files.doSysOpen
        simp only [looks,bind,Except.bind,opens]
        rfl
      have same := congrArg (fun fs => (Vfs.node fs id).size) (honest.refusal _ returns).2
      simp only [Vfs.setNode,if_true] at same
      exact size same.symm
    · exact refused ⟨granted.table,granted.fd,granted.fds⟩
  · intro honest
    have outcome (r : Int32) (next : Files) (returns : s.doSysOpen pid path flags allocs = .ok (r,next)) :
        (r = -1#32 ∧ SameFds s.fds next.fds ∧ next.fs = s.fs) ∨ r ≠ -1#32 ∧ Added s.fds pid r next.fds := by
      obtain ⟨vnode,opens,_,looks⟩ := doSysOpen_ok returns
      obtain ⟨r',fds,opens',refused | ⟨k,i,p,v,_,_,rfl,least,opened⟩⟩ := processFdOpen_outcome pid vnode flags few unused
      · obtain ⟨rfl,rfl⟩ := ok_pair (opens.symm.trans opens')
        refine .inl ⟨refused.1,refused.2.1,?_⟩
        rcases looks with ⟨_,_,same⟩ | ⟨granted,looks⟩
        · exact same
        refine vfsOpen_same looks granted fun cuts => honest ⟨cuts,fun seated => refused.2.2 ?_⟩
        obtain ⟨id,_,finds⟩ := cuts.opens
        unfold Files.openVnode at finds
        rw [if_neg granted,looks] at finds
        obtain ⟨rfl,_⟩ := ok_pair finds
        exact ⟨granted,Option.some_ne_none _,seated.table,seated.fd,seated.fds⟩
      · obtain ⟨rfl,rfl⟩ := ok_pair (opens.symm.trans opens')
        obtain ⟨small,added⟩ := opened.added inv least
        refine .inr ⟨fun minus => ?_,added⟩
        have number := congrArg BitVec.toNat minus
        rw [toNat_index small,show (-1#32).toNat = 2^32 - 1 from rfl] at number
        omega
    constructor
    · intro r next returns positive
      rcases outcome r next returns with ⟨minus,_⟩ | ⟨_,added⟩
      · exact absurd minus positive
      · exact added
    · intro next returns
      rcases outcome _ next returns with ⟨_,same⟩ | ⟨positive,_⟩
      · exact same
      · exact absurd rfl positive

theorem open_honest_second : ∃ s next,
    Run FilesStart FileStep (fun s e => FewOpen s e.call) [⟨openFirst aPath,.value 0#64,[]⟩] s ∧
    s.doSysOpen 0 aPath 0#32 ⟨some 2#64,[],true,[]⟩ = .ok (1#32,next) ∧
    OpenHonest s 0 aPath 0#32 ⟨some 2#64,[],true,[]⟩ := by
  obtain ⟨s,next,first,second,few,unused⟩ : ∃ s next,
      runFile (openFirst aPath) (oneMember 2#64) = .ok (.value 0#64,[],s) ∧
      s.doSysOpen 0 aPath 0#32 ⟨some 2#64,[],true,[]⟩ = .ok (1#32,next) ∧ used s.fds.table < 2^31 ∧
      s.fds.files 2#64 = none := ⟨_,_,rfl,rfl,by decide,rfl⟩
  have begins : FilesStart (oneMember 2#64) := rfl
  have opens : FileStep (oneMember 2#64) ⟨openFirst aPath,.value 0#64,[]⟩ s := ⟨fun _ _ => rfl,first⟩
  have begun : FewOpen (oneMember 2#64) (openFirst aPath) := show used fdInit.table < 2^31 by decide
  have run : Run FilesStart FileStep (fun s e => FewOpen s e.call) [⟨openFirst aPath,.value 0#64,[]⟩] s :=
    .step (.start begins) begun opens
  have free : ∀ p, (⟨some 2#64,[],true,[]⟩ : FdAllocs).file = some p → s.fds.files p = none := by
    rintro _ ⟨⟩
    exact unused
  refine ⟨s,next,run,second,(open_honest_iff run few free).mpr ?_⟩
  rintro ⟨cuts,_⟩
  exact cuts.flag (by decide)

/-- No memory for the descriptor: the open is refused, and the file of two bytes is empty. -/
theorem refused_open_cuts : ∃ next,
    (oneMember 2#64).doSysOpen 0 aPath oTrunc ⟨some 1#64,[],false,[]⟩ = .ok (-1#32,next) ∧
    ((oneMember 2#64).fs.node (.tar 0)).size = 2#64 ∧ (next.fs.node (.tar 0)).size = 0#64 ∧
    ¬OpenHonest (oneMember 2#64) 0 aPath oTrunc ⟨some 1#64,[],false,[]⟩ := by
  obtain ⟨next,returns,before,after⟩ : ∃ next,
      (oneMember 2#64).doSysOpen 0 aPath oTrunc ⟨some 1#64,[],false,[]⟩ = .ok (-1#32,next) ∧
      ((oneMember 2#64).fs.node (.tar 0)).size = 2#64 ∧ (next.fs.node (.tar 0)).size = 0#64 := ⟨_,rfl,rfl,rfl⟩
  refine ⟨next,returns,before,after,fun honest => ?_⟩
  rw [(honest.refusal next returns).2,before] at after
  cases after

end Reddyos
