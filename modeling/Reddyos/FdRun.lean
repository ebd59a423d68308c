import Reddyos.FdTable

/-! Descriptors over whole runs: as long as fewer than 2^31 files are open, every file has
one descriptor and every descriptor keeps its file until it is closed. -/
namespace Reddyos

open SlotTable

variable {s next : FdState} {pid : Nat} {fd : Int32}

theorem FdInv.same (inv : FdInv s) (same : SameFds s next) : FdInv next where
  entry := by
    intro pid i idx found
    rw [same.fds] at found
    obtain ⟨index,p,file,there,live,once⟩ := inv.entry pid i idx found
    exact ⟨index,p,file,by rw [same.table,there],by rw [same.files,live],once⟩
  unique := by
    intro pid i pid' i' idx first second
    rw [same.fds] at first second
    exact inv.unique pid i pid' i' idx first second
  owned := by
    intro k p found
    rw [same.table] at found
    obtain ⟨pid,i,entry⟩ := inv.owned k p found
    exact ⟨pid,i,by rw [same.fds,entry]⟩
  small := by
    intro k p found
    rw [same.table] at found
    exact inv.small k p found
  apart := by
    intro k k' p first second
    rw [same.table] at first second
    exact inv.apart k k' p first second

/-- An entry after an open is the new one or an old one. -/
theorem Opened.entry_cases (opened : Opened s pid k i p file next) (found : slot (next.fds q) j = some idx) :
    (q = pid ∧ j = i ∧ idx = BitVec.ofNat 32 k) ∨ slot (s.fds q) j = some idx := by
  rw [opened.fds] at found
  split at found
  · rename_i own
    exact .inl ⟨own.1,own.2,(Option.some.inj found).symm⟩
  · exact .inr found

theorem Opened.file_cases (opened : Opened s pid k i p file next) (found : slot next.table j = some q) :
    (j = k ∧ q = p) ∨ slot s.table j = some q := by
  rw [opened.table] at found
  split at found
  · rename_i own
    exact .inl ⟨own,(Option.some.inj found).symm⟩
  · exact .inr found

/-- A block that was in use is not the new one. -/
theorem Opened.other (opened : Opened s pid k i p file next) (live : s.files q = some f) : q ≠ p := by
  rintro rfl
  rw [opened.unused] at live
  cases live

theorem Opened.keeps_file (opened : Opened s pid k i p file next) (found : slot s.table j = some q) :
    slot next.table j = some q := by
  rw [opened.table,if_neg]
  · exact found
  · rintro rfl
    rw [opened.freeSlot] at found
    cases found

theorem Opened.keeps_entry (opened : Opened s pid k i p file next) (found : slot (s.fds q) j = some idx) :
    slot (next.fds q) j = some idx := by
  rw [opened.fds,if_neg]
  · exact found
  · rintro ⟨rfl,rfl⟩
    rw [opened.freeFd] at found
    cases found

theorem FdInv.live (inv : FdInv s) (found : slot s.table k = some p) : ∃ f, s.files p = some f := by
  obtain ⟨pid,i,entry⟩ := inv.owned k p found
  obtain ⟨_,p',f,there,live,_⟩ := inv.entry pid i _ entry
  rw [toNat_index (inv.small k p found),found] at there
  obtain rfl := Option.some.inj there
  exact ⟨f,live⟩

theorem FdInv.opened (inv : FdInv s) (opened : Opened s pid k i p file next) : FdInv next where
  entry := by
    intro q j idx found
    rcases opened.entry_cases found with ⟨_,_,rfl⟩ | old
    · rw [toNat_index opened.index]
      exact ⟨opened.index,p,file,by rw [opened.table,if_pos rfl],by rw [opened.files,if_pos rfl],
        opened.refcount⟩
    · obtain ⟨index,p',f,there,live,once⟩ := inv.entry q j idx old
      refine ⟨index,p',f,opened.keeps_file there,?_,once⟩
      rw [opened.files,if_neg (opened.other live),live]
  unique := by
    intro q j q' j' idx first second
    -- an old entry cannot have the index of the new file, whose slot was free
    have new : ∀ {q j}, slot (s.fds q) j ≠ some (BitVec.ofNat 32 k) := by
      intro q j found
      obtain ⟨_,_,_,there,_⟩ := inv.entry q j _ found
      rw [toNat_index opened.index,opened.freeSlot] at there
      cases there
    rcases opened.entry_cases first with ⟨rfl,rfl,rfl⟩ | old
    · rcases opened.entry_cases second with ⟨rfl,rfl,_⟩ | old
      · exact ⟨rfl,rfl⟩
      · exact absurd old new
    · rcases opened.entry_cases second with ⟨rfl,rfl,rfl⟩ | old'
      · exact absurd old new
      · exact inv.unique q j q' j' idx old old'
  owned := by
    intro j q found
    rcases opened.file_cases found with ⟨rfl,rfl⟩ | old
    · exact ⟨pid,i,by rw [opened.fds,if_pos ⟨rfl,rfl⟩]⟩
    · obtain ⟨q',j',entry⟩ := inv.owned j q old
      exact ⟨q',j',opened.keeps_entry entry⟩
  small := by
    intro j q found
    rcases opened.file_cases found with ⟨rfl,rfl⟩ | old
    · exact opened.index
    · exact inv.small j q old
  apart := by
    intro j j' q first second
    rcases opened.file_cases first with ⟨rfl,rfl⟩ | old
    · rcases opened.file_cases second with ⟨rfl,_⟩ | old'
      · rfl
      · obtain ⟨f,live⟩ := inv.live old'
        exact absurd rfl (opened.other live)
    · rcases opened.file_cases second with ⟨rfl,rfl⟩ | old'
      · obtain ⟨f,live⟩ := inv.live old
        exact absurd rfl (opened.other live)
      · exact inv.apart j j' q old old'

/-- What is left after a close was there before, and is not what was closed. -/
theorem Closed.entry_left (closed : Closed s pid i idx p next) (found : slot (next.fds q) j = some idx') :
    ¬(q = pid ∧ j = i) ∧ slot (s.fds q) j = some idx' := by
  rw [closed.fds] at found
  split at found
  · cases found
  · rename_i other
    exact ⟨other,found⟩

theorem Closed.file_left (closed : Closed s pid i idx p next) (found : slot next.table j = some q) :
    j ≠ idx.toNat ∧ slot s.table j = some q := by
  rw [closed.table] at found
  split at found
  · cases found
  · rename_i other
    exact ⟨other,found⟩

/-- Another descriptor has another index, and its file is another file. -/
theorem Closed.keeps (inv : FdInv s) (closed : Closed s pid i idx p next) (other : ¬(q = pid ∧ j = i))
    (found : slot (s.fds q) j = some idx') (file : slot s.table idx'.toNat = some p') :
    slot (next.fds q) j = some idx' ∧ slot next.table idx'.toNat = some p' ∧ p' ≠ p := by
  have different : idx'.toNat ≠ idx.toNat := by
    intro same
    obtain rfl := BitVec.eq_of_toNat_eq same
    obtain ⟨rfl,rfl⟩ := inv.unique q j pid i idx' found closed.entry
    exact other ⟨rfl,rfl⟩
  refine ⟨by rw [closed.fds,if_neg other,found],by rw [closed.table,if_neg different,file],?_⟩
  rintro rfl
  exact different (inv.apart _ _ _ file closed.file)

theorem FdInv.closed (inv : FdInv s) (closed : Closed s pid i idx p next) : FdInv next where
  entry := by
    intro q j idx' found
    obtain ⟨other,old⟩ := closed.entry_left found
    obtain ⟨index,p',f,there,live,once⟩ := inv.entry q j idx' old
    obtain ⟨_,kept,apart⟩ := closed.keeps inv other old there
    exact ⟨index,p',f,kept,by rw [closed.files,if_neg apart,live],once⟩
  unique := by
    intro q j q' j' idx' first second
    exact inv.unique q j q' j' idx' (closed.entry_left first).2 (closed.entry_left second).2
  owned := by
    intro k q found
    obtain ⟨different,old⟩ := closed.file_left found
    obtain ⟨q',j',entry⟩ := inv.owned k q old
    refine ⟨q',j',?_⟩
    rw [closed.fds,if_neg]
    · exact entry
    · rintro ⟨rfl,rfl⟩
      rw [closed.entry] at entry
      rw [Option.some.inj entry,toNat_index (inv.small k q old)] at different
      exact different rfl
  small := fun k q found => inv.small k q (closed.file_left found).2
  apart := fun k k' q first second =>
    inv.apart k k' q (closed.file_left first).2 (closed.file_left second).2

theorem fdInit_inv : FdInv fdInit := by
  have noEntry : ∀ pid i idx, slot (fdInit.fds pid) i ≠ some idx := by
    intro pid i idx
    rw [show fdInit.fds pid = List.replicate 16 none from rfl,slot_replicate]
    exact nofun
  have noFile : ∀ k p, slot fdInit.table k ≠ some p := by
    intro k p
    rw [show fdInit.table = List.replicate 32 none from rfl,slot_replicate]
    exact nofun
  exact ⟨fun pid i idx found => absurd found (noEntry pid i idx),
    fun pid i _ _ idx found => absurd found (noEntry pid i idx),
    fun k p found => absurd found (noFile k p),fun k p found => absurd found (noFile k p),
    fun k _ p found => absurd found (noFile k p)⟩

def FewFiles (s : FdState) : FdCall → Prop
  | .open _ _ _ _ => used s.table < 2^31
  | .close _ _ => True

theorem runFd_spec (inv : FdInv s) (unused : Unused s call) (few : FewFiles s call) :
    ∃ next, runFd call s = .ok next ∧ (SameFds s next ∨
      (∃ pid vnode flags allocs k i p file, call = .open pid vnode flags allocs ∧ Opened s pid k i p file next) ∨
      ∃ pid fd idx p, call = .close pid fd ∧ fd.toNat < 2^31 ∧ Closed s pid fd.toNat idx p next) := by
  cases call with
  | «open» pid vnode flags allocs =>
    obtain ⟨r,next,opens,same | ⟨k,i,p,file,opened⟩⟩ := processFdOpen_spec pid vnode flags few unused
    · exact ⟨next,by simp only [runFd,opens]; rfl,.inl same⟩
    · exact ⟨next,by simp only [runFd,opens]; rfl,
        .inr (.inl ⟨pid,vnode,flags,allocs,k,i,p,file,rfl,opened⟩)⟩
  | close pid fd =>
    obtain ⟨r,next,closes,same | ⟨small,idx,p,closed⟩⟩ := processFdClose_spec inv pid fd
    · exact ⟨next,by simp only [runFd,closes]; rfl,.inl same⟩
    · exact ⟨next,by simp only [runFd,closes]; rfl,.inr (.inr ⟨pid,fd,idx,p,rfl,small,closed⟩)⟩

theorem runFd_inv (inv : FdInv s) (unused : Unused s call) (few : FewFiles s call)
    (returns : runFd call s = .ok next) : FdInv next := by
  obtain ⟨next',again,outcome⟩ := runFd_spec inv unused few
  obtain rfl := Except.ok.inj (again.symm.trans returns)
  rcases outcome with same | ⟨_,_,_,_,_,_,_,_,_,opened⟩ | ⟨_,_,_,_,_,_,closed⟩
  · exact inv.same same
  · exact inv.opened opened
  · exact inv.closed closed

theorem FdRun.inv (run : FdRun allowed s next) (inv : FdInv s) (few : ∀ s call, allowed s call → FewFiles s call) :
    FdInv next := by
  induction run with
  | refl => exact inv
  | step _ unused allows returns ih => exact runFd_inv ih unused (few _ _ allows) returns

theorem unpack_slots (small : fd.toNat < 2^31) (entry : slot (s.fds pid) fd.toNat = some idx) (index : idx.toNat < 2^31)
    (file : slot s.table idx.toNat = some p) : processUnpackFd pid fd s = .ok (some p) := by
  have sign := toInt_neg_iff fd
  have inside := slot_inside entry
  have inside' := slot_inside file
  unfold processUnpackFd
  rw [if_neg (by omega)]
  simp only [entry]
  rw [if_neg (by rw [toInt_neg_iff]; omega),file]
  rfl

theorem unpack_iff (inv : FdInv s) : processUnpackFd pid fd s = .ok (some p) ↔
    fd.toNat < 2^31 ∧ ∃ idx, slot (s.fds pid) fd.toNat = some idx ∧ slot s.table idx.toNat = some p := by
  constructor
  · intro returns
    have sign := toInt_neg_iff fd
    unfold processUnpackFd at returns
    split at returns
    · cases returns
    rename_i valid
    split at returns
    · cases returns
    · rename_i idx entry
      split at returns
      · cases returns
      · exact ⟨by omega,idx,entry,Except.ok.inj returns⟩
  · rintro ⟨small,idx,entry,file⟩
    exact unpack_slots small entry (inv.entry pid fd.toNat idx entry).1 file

/-- An open descriptor keeps its file until it is closed. -/
theorem runFd_unpack (inv : FdInv s) (unused : Unused s call) (few : FewFiles s call)
    (other : call ≠ .close pid fd) (returns : runFd call s = .ok next)
    (unpacked : processUnpackFd pid fd s = .ok (some p)) : processUnpackFd pid fd next = .ok (some p) := by
  rw [unpack_iff (runFd_inv inv unused few returns)]
  obtain ⟨small,idx,entry,file⟩ := (unpack_iff inv).mp unpacked
  obtain ⟨next',again,outcome⟩ := runFd_spec inv unused few
  obtain rfl := Except.ok.inj (again.symm.trans returns)
  rcases outcome with same | ⟨_,_,_,_,_,_,_,_,_,opened⟩ | ⟨pid',fd',_,_,rfl,_,closed⟩
  · exact ⟨small,idx,by rw [same.fds,entry],by rw [same.table,file]⟩
  · exact ⟨small,idx,opened.keeps_entry entry,opened.keeps_file file⟩
  · have apart : ¬(pid = pid' ∧ fd.toNat = fd'.toNat) := by
      rintro ⟨rfl,same⟩
      rw [BitVec.eq_of_toNat_eq same] at other
      exact other rfl
    obtain ⟨kept,there,_⟩ := closed.keeps inv apart entry file
    exact ⟨small,idx,kept,there⟩

structure DescriptorsOk (s : FdState) : Prop where
  entry : ∀ pid i idx, slot (s.fds pid) i = some idx → 0 ≤ idx.toInt ∧ idx.toNat < s.table.length ∧
    ∃ p file, slot s.table idx.toNat = some p ∧ s.files p = some file ∧ file.refcount = 1#32
  unique : ∀ pid i pid' i' idx, slot (s.fds pid) i = some idx → slot (s.fds pid') i' = some idx →
    pid = pid' ∧ i = i'
  owned : ∀ k p, slot s.table k = some p → ∃ pid i idx, slot (s.fds pid) i = some idx ∧ idx.toNat = k

theorem FdInv.descriptors (inv : FdInv s) : DescriptorsOk s where
  entry := by
    intro pid i idx found
    obtain ⟨index,p,file,there,rest⟩ := inv.entry pid i idx found
    have := toInt_neg_iff idx
    exact ⟨by omega,slot_inside there,p,file,there,rest⟩
  unique := inv.unique
  owned := by
    intro k p found
    obtain ⟨pid,i,entry⟩ := inv.owned k p found
    exact ⟨pid,i,_,entry,toNat_index (inv.small k p found)⟩

def EntriesKept (s next : FdState) : Prop :=
  (∀ pid i idx, slot (s.fds pid) i = some idx → slot (next.fds pid) i = some idx) ∧
    ∀ k p, slot s.table k = some p → slot next.table k = some p

/-- In every run that opens files only while fewer than 2^31 are open, descriptors and
open files stay in one-to-one correspondence, no call runs into undefined behaviour, an
open keeps all entries, and a descriptor keeps its file until it is closed. -/
theorem descriptors_ok (run : FdRun FewFiles fdInit s) : DescriptorsOk s ∧
    (∀ call, Unused s call → FewFiles s call → ∃ next, runFd call s = .ok next) ∧
    (∀ pid vnode flags allocs next, Unused s (.open pid vnode flags allocs) →
      FewFiles s (.open pid vnode flags allocs) → runFd (.open pid vnode flags allocs) s = .ok next →
      EntriesKept s next) ∧
    ∀ pid fd p next, processUnpackFd pid fd s = .ok (some p) →
      FdRun (fun s call => FewFiles s call ∧ call ≠ .close pid fd) s next →
      processUnpackFd pid fd next = .ok (some p) := by
  have inv := run.inv fdInit_inv fun _ _ few => few
  refine ⟨inv.descriptors,?_,?_,?_⟩
  · intro call unused few
    obtain ⟨next,returns,_⟩ := runFd_spec inv unused few
    exact ⟨next,returns⟩
  · intro pid vnode flags allocs next unused few returns
    obtain ⟨next',again,outcome⟩ := runFd_spec inv unused few
    obtain rfl := Except.ok.inj (again.symm.trans returns)
    rcases outcome with same | ⟨_,_,_,_,_,_,_,_,_,opened⟩ | ⟨_,_,_,_,impossible,_⟩
    · exact ⟨fun _ _ _ entry => by rw [same.fds,entry],fun _ _ file => by rw [same.table,file]⟩
    · exact ⟨fun _ _ _ => opened.keeps_entry,fun _ _ => opened.keeps_file⟩
    · cases impossible
  · intro pid fd p next unpacked later
    induction later with
    | refl => exact unpacked
    | step before unused allows returns ih =>
      have inv' := before.inv inv fun _ _ allows => allows.1
      exact runFd_unpack inv' unused allows.1 allows.2 returns ih

/-- Two processes open a file, the first closes its own and opens one again. -/
theorem descriptors_ok_turns : ∃ s, FdRun FewFiles fdInit s ∧ processUnpackFd 0 0#32 s = .ok (some 3#64) ∧
    processUnpackFd 1 0#32 s = .ok (some 2#64) ∧ DescriptorsOk s := by
  let opens (pid : Nat) (p : U64) : FdCall := .open pid (some 7) 0#32 ⟨some p,[],true,[]⟩
  obtain ⟨s₁,s₂,s₃,s₄,first,second,third,fourth,free₁,free₃,few₁,few₃,here,there⟩ : ∃ s₁ s₂ s₃ s₄,
      runFd (opens 0 1#64) fdInit = .ok s₁ ∧ runFd (opens 1 2#64) s₁ = .ok s₂ ∧ runFd (.close 0 0#32) s₂ = .ok s₃ ∧
      runFd (opens 0 3#64) s₃ = .ok s₄ ∧ s₁.files 2#64 = none ∧ s₃.files 3#64 = none ∧
      used s₁.table < 2^31 ∧ used s₃.table < 2^31 ∧
      processUnpackFd 0 0#32 s₄ = .ok (some 3#64) ∧ processUnpackFd 1 0#32 s₄ = .ok (some 2#64) :=
    ⟨_,_,_,_,rfl,rfl,rfl,rfl,rfl,rfl,by decide,by decide,rfl,rfl⟩
  have unused : Unused fdInit (opens 0 1#64) := fun _ _ => rfl
  have unused₁ : Unused s₁ (opens 1 2#64) := by
    rintro _ ⟨⟩
    exact free₁
  have unused₂ : Unused s₂ (.close 0 0#32) := trivial
  have unused₃ : Unused s₃ (opens 0 3#64) := by
    rintro _ ⟨⟩
    exact free₃
  have few : FewFiles fdInit (opens 0 1#64) := show used fdInit.table < 2^31 by decide
  have few₂ : FewFiles s₂ (.close 0 0#32) := trivial
  have run : FdRun FewFiles fdInit s₄ :=
    .step (.step (.step (.step .refl unused few first) unused₁ few₁ second) unused₂ few₂ third) unused₃ few₃ fourth
  exact ⟨s₄,run,here,there,(descriptors_ok run).1⟩

/-- `n` files are open, each in a process of its own. -/
structure ManyFiles (n : Nat) (s : FdState) : Prop where
  full : ∀ k < n, slot s.table k ≠ none
  free : ∀ k, n ≤ k → slot s.table k = none
  length : 32 ≤ s.table.length ∧ s.table.length ≤ 2 * n + 32
  files : ∀ p : U64, n < p.toNat → s.files p = none
  fds : ∀ pid, n ≤ pid → s.fds pid = List.replicate 16 none

def freshAllocs (n : Nat) : FdAllocs := ⟨some (BitVec.ofNat 64 (n + 1)),[true],true,[]⟩

theorem toNat_fresh (bound : n ≤ 2^32) : (BitVec.ofNat 64 (n + 1)).toNat = n + 1 := by
  rw [BitVec.toNat_ofNat]
  omega

theorem ManyFiles.place (many : ManyFiles n s) (bound : n ≤ 2^32) (p : U64) :
    ∃ table, SlotTable.place tableLimit p [true] s.table = (some n,table) ∧
      32 ≤ table.length ∧ table.length ≤ 2 * (n + 1) + 32 := by
  obtain ⟨short,long⟩ := many.length
  have limit : tableLimit = 2305843009213693951 := rfl
  unfold SlotTable.place
  by_cases room : n < s.table.length
  · rw [firstFree_eq many.full (many.free n (Nat.le_refl _)) room]
    exact ⟨_,rfl,by simpa using short,by simp; omega⟩
  · have full : s.table.length = n := by
      by_contra other
      exact many.full s.table.length (by omega) (slot_of_le (Nat.le_refl _))
    have again : firstFree (doubled s.table) = some n :=
      firstFree_eq (by simpa using many.full) (by simpa using many.free n (Nat.le_refl _)) (by simp; omega)
    rw [firstFree_full fun k inside => many.full k (by omega)]
    dsimp only
    rw [if_pos ⟨rfl,by omega⟩,SlotTable.place,again]
    exact ⟨_,rfl,by simp; omega,by simp; omega⟩

/-- What the first `n` processes have is not touched. -/
structure Beyond (n : Nat) (s next : FdState) : Prop where
  table : ∀ k < n, slot next.table k = slot s.table k
  files : ∀ p : U64, p.toNat ≤ n → next.files p = s.files p
  fds : ∀ pid < n, next.fds pid = s.fds pid

/-- A new file in the first free slot, whatever becomes of the descriptor. -/
theorem ManyFiles.opened (many : ManyFiles n s) (bound : n ≤ 2^32) (v : Nat) (fds : List (Option Int32)) {table : List (Option U64)}
    (placed : SlotTable.place tableLimit (BitVec.ofNat 64 (n + 1)) [true] s.table = (some n,table))
    (short : 32 ≤ table.length) (long : table.length ≤ 2 * (n + 1) + 32) :
    let next := ({ s with table := table }.setFile (BitVec.ofNat 64 (n + 1)) (some (newFile v 0#32))).setFds n fds
    ManyFiles (n + 1) next ∧ Beyond n s next := by
  have fresh := toNat_fresh bound
  have slots : ∀ j, slot table j = if j = n then some (BitVec.ofNat 64 (n + 1)) else slot s.table j := by
    rcases place_spec placed with ⟨impossible,_⟩ | ⟨k,same,spec⟩
    · cases impossible
    · obtain rfl := Option.some.inj same
      exact spec.slots
  refine ⟨⟨?_,?_,⟨short,long⟩,?_,?_⟩,⟨?_,?_,?_⟩⟩
  · intro k inside
    change slot table k ≠ none
    rw [slots]
    split
    · simp
    · exact many.full k (by omega)
  · intro k outside
    change slot table k = none
    rw [slots,if_neg (by omega)]
    exact many.free k (by omega)
  · intro p above
    change (if p = BitVec.ofNat 64 (n + 1) then _ else s.files p) = none
    rw [if_neg (by rintro rfl; omega)]
    exact many.files p (by omega)
  · intro pid later
    change (if pid = n then _ else s.fds pid) = _
    rw [if_neg (by omega)]
    exact many.fds pid (by omega)
  · intro k inside
    change slot table k = _
    rw [slots,if_neg (by omega)]
  · intro p below
    exact if_neg (by rintro rfl; omega)
  · intro pid before
    exact if_neg (by omega)

theorem setFds_self (s : FdState) (pid : Nat) : s.setFds pid (s.fds pid) = s := by
  have entries : (fun q => if q = pid then s.fds pid else s.fds q) = s.fds := by
    funext q
    split
    · rename_i own
      rw [own]
    · rfl
  unfold FdState.setFds
  rw [entries]

/-- One more process opens a file, and the index is not negative as an `int`. -/
theorem ManyFiles.enters (many : ManyFiles n s) (bound : n ≤ 2^32) (positive : ¬(BitVec.ofNat 32 n).toInt < 0) (v : Nat) :
    ∃ next, processFdOpen n (some v) 0#32 (freshAllocs n) s = .ok (0#32,next) ∧ ManyFiles (n + 1) next ∧
      Beyond n s next ∧ slot (next.fds n) 0 = some (BitVec.ofNat 32 n) := by
  obtain ⟨table,placed,short,long⟩ := many.place bound (BitVec.ofNat 64 (n + 1))
  have entered : SlotTable.place tableLimit (BitVec.ofNat 32 n) [] (s.fds n) =
      (some 0,(List.replicate 16 none).set 0 (some (BitVec.ofNat 32 n))) := by
    rw [many.fds n (Nat.le_refl _)]
    rfl
  obtain ⟨more,beyond⟩ := many.opened bound v ((List.replicate 16 none).set 0 (some (BitVec.ofNat 32 n))) placed short long
  refine ⟨_,?_,more,beyond,?_⟩
  · simp only [processFdOpen,ofOpen,freshAllocs,placed,if_neg positive,FdState.setFile,entered]
    rfl
  · change slot (if n = n then _ else s.fds n) 0 = _
    rw [if_pos rfl]
    rfl

/-- One more process opens a file, and the index is negative: the file stays in the table. -/
theorem ManyFiles.leaks (many : ManyFiles n s) (bound : n ≤ 2^32) (negative : (BitVec.ofNat 32 n).toInt < 0) (v : Nat) :
    ∃ next, processFdOpen n (some v) 0#32 (freshAllocs n) s = .ok (-1#32,next) ∧ ManyFiles (n + 1) next ∧
      Beyond n s next ∧ next.fds = s.fds := by
  obtain ⟨table,placed,short,long⟩ := many.place bound (BitVec.ofNat 64 (n + 1))
  let leaked := FdState.setFile { s with table := table } (BitVec.ofNat 64 (n + 1)) (some (newFile v 0#32))
  have more : ManyFiles (n + 1) leaked ∧ Beyond n s leaked := by
    rw [← setFds_self leaked n]
    exact many.opened bound v (s.fds n) placed short long
  refine ⟨leaked,?_,more.1,more.2,rfl⟩
  simp only [processFdOpen,ofOpen,freshAllocs,placed,if_pos negative]
  rfl

theorem index_negative (bound : n < 2^32) : (BitVec.ofNat 32 n).toInt < 0 ↔ 2^31 ≤ n := by
  rw [toInt_neg_iff,BitVec.toNat_ofNat]
  omega

/-- The block of one more process is not in use. -/
theorem ManyFiles.unused (many : ManyFiles n s) (bound : n ≤ 2^32) (v : Nat) : Unused s (.open n (some v) 0#32 (freshAllocs n)) := by
  intro p answer
  obtain rfl := Option.some.inj answer
  exact many.files _ (by rw [toNat_fresh bound]; omega)

theorem manyFiles_start : ManyFiles 0 fdInit where
  full := by simp
  free := fun k _ => slot_replicate 32 k
  length := by decide
  files := fun _ _ => rfl
  fds := fun _ _ => rfl

theorem manyFiles_run (bound : n ≤ 2^31) : ∃ s, FdRun FewFiles fdInit s ∧ ManyFiles n s := by
  induction n with
  | zero => exact ⟨fdInit,.refl,manyFiles_start⟩
  | succ n ih =>
    obtain ⟨s,run,many⟩ := ih (by omega)
    obtain ⟨next,opens,more,_⟩ := many.enters (by omega) (by rw [index_negative (by omega)]; omega) 0
    have few : FewFiles s (.open n (some 0) 0#32 (freshAllocs n)) := by
      have := used_le many.free
      change used s.table < 2^31
      omega
    exact ⟨next,.step run (many.unused (by omega) 0) few (by simp only [runFd,opens]; rfl),more⟩

theorem FdRun.mono {wider : FdState → FdCall → Prop} (run : FdRun allowed s next)
    (more : ∀ s call, allowed s call → wider s call) : FdRun wider s next := by
  induction run with
  | refl => exact .refl
  | step _ unused allows returns ih => exact .step ih unused (more _ _ allows) returns

/-- With 2^31 files open, the index of the next one is negative as an `int`: the open fails
and its file stays in the table for good. -/
theorem descriptors_leak : ∃ s, FdRun (fun _ _ => True) fdInit s ∧ ¬DescriptorsOk s := by
  obtain ⟨s,run,many⟩ := manyFiles_run (n := 2^31) (Nat.le_refl _)
  have inv := run.inv fdInit_inv fun _ _ few => few
  obtain ⟨next,opens,more,_,fds⟩ := many.leaks (by decide) (by decide) 0
  have leaks : runFd (.open (2^31) (some 0) 0#32 (freshAllocs (2^31))) s = .ok next := by
    simp only [runFd,opens]
    rfl
  refine ⟨next,.step (run.mono fun _ _ _ => trivial) (many.unused (by decide) 0) trivial leaks,fun ok => ?_⟩
  obtain ⟨p,there⟩ := Option.ne_none_iff_exists'.mp (more.full (2^31) (by omega))
  obtain ⟨pid,i,idx,entry,index⟩ := ok.owned (2^31) p there
  rw [fds] at entry
  have := (inv.entry pid i idx entry).1
  omega

end Reddyos
