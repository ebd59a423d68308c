import Reddyos.SlotTable
import Reddyos.Pmm

/-! Open files and descriptors: `filesystem/fd/fd.c`. `kmalloc` and `kcalloc` answer every
call as they like, except that a block in use is not given out again. -/
namespace Reddyos

open SlotTable

abbrev Int32 := BitVec 32

/-- `file_t`; the vnode is known by a number. -/
structure OpenFile where
  vnode : Nat
  offset : U64
  refcount : BitVec 32
  flags : Int32
  deriving DecidableEq, Repr

/-- The blocks that are a `file_t`, `global_file_table`, and the `fds` of every process. An
`fd_t` is its `of_idx`. -/
structure FdState where
  files : U64 → Option OpenFile
  table : List (Option U64)
  fds : Nat → List (Option Int32)

/-- After `fd_init` and the `process_fd_init` of every process. -/
def fdInit : FdState := ⟨fun _ => none,List.replicate 32 none,fun _ => List.replicate 16 none⟩

/-- What the allocator answers during one `process_fd_open`. -/
structure FdAllocs where
  file : Option U64
  table : List Bool
  fd : Bool
  fds : List Bool

def tableLimit : Nat := (2^64 - 1) / 8

def FdState.setFile (s : FdState) (p : U64) (file : Option OpenFile) : FdState :=
  { s with files := fun q => if q = p then file else s.files q }

def FdState.setFds (s : FdState) (pid : Nat) (fds : List (Option Int32)) : FdState :=
  { s with fds := fun q => if q = pid then fds else s.fds q }

/-- `vnode` is what `vfs_open` finds. The index is cut to an `int`. -/
def ofOpen (vnode : Option Nat) (flags : Int32) (allocs : FdAllocs) (s : FdState) : Int32 × FdState :=
  match allocs.file, vnode with
  | some p, some v =>
    match place tableLimit p allocs.table s.table with
    | (some i,table) =>
      (BitVec.ofNat 32 i,{ s with table := table }.setFile p (some ⟨v,0#64,0#32 + 1#32,flags⟩))
    | (none,table) => (-1#32,{ s with table := table })
  | _, _ => (-1#32,s)

def ofClose (idx : Int32) (s : FdState) : Except Stop (Int32 × FdState) :=
  if idx.toInt < 0 ∨ s.table.length ≤ idx.toNat then throw .undefined
  else
    match slot s.table idx.toNat with
    | none => return (-1#32,s)
    | some p =>
      match s.files p with
      | none => throw .undefined
      | some file =>
        if file.refcount - 1#32 = 0#32 then
          return (0#32,{ s with table := s.table.set idx.toNat none }.setFile p none)
        else return (0#32,s.setFile p (some { file with refcount := file.refcount - 1#32 }))

def processFdOpen (pid : Nat) (vnode : Option Nat) (flags : Int32) (allocs : FdAllocs) (s : FdState) :
    Except Stop (Int32 × FdState) :=
  let (idx,s) := ofOpen vnode flags allocs s
  if idx.toInt < 0 then return (-1#32,s)
  else if !allocs.fd then return (-1#32,(← ofClose idx s).2)
  else
    match place tableLimit idx allocs.fds (s.fds pid) with
    | (some i,fds) => return (BitVec.ofNat 32 i,s.setFds pid fds)
    | (none,fds) => return (-1#32,(← ofClose idx (s.setFds pid fds)).2)

def processFdClose (pid : Nat) (fd : Int32) (s : FdState) : Except Stop (Int32 × FdState) :=
  if fd.toInt < 0 ∨ (s.fds pid).length ≤ fd.toNat then return (-1#32,s)
  else
    match slot (s.fds pid) fd.toNat with
    | none => return (-1#32,s)
    | some idx => do
      let (_,s) ← ofClose idx s
      return (0#32,s.setFds pid ((s.fds pid).set fd.toNat none))

def processUnpackFd (pid : Nat) (fd : Int32) (s : FdState) : Except Stop (Option U64) :=
  if fd.toInt < 0 ∨ (s.fds pid).length ≤ fd.toNat then return none
  else
    match slot (s.fds pid) fd.toNat with
    | none => return none
    | some idx =>
      if idx.toInt < 0 ∨ s.table.length ≤ idx.toNat then throw .undefined
      else return slot s.table idx.toNat

inductive FdCall where
  | open (pid : Nat) (vnode : Option Nat) (flags : Int32) (allocs : FdAllocs)
  | close (pid : Nat) (fd : Int32)

def runFd : FdCall → FdState → Except Stop FdState
  | .open pid vnode flags allocs, s => return (← processFdOpen pid vnode flags allocs s).2
  | .close pid fd, s => return (← processFdClose pid fd s).2

def Unused (s : FdState) : FdCall → Prop
  | .open _ _ _ allocs => ∀ p, allocs.file = some p → s.files p = none
  | .close _ _ => True

/-- Calls of any processes in any order, each one admitted by `allowed`. -/
inductive FdRun (allowed : FdState → FdCall → Prop) : FdState → FdState → Prop where
  | refl : FdRun allowed s s
  | step : FdRun allowed s middle → Unused middle call → allowed middle call →
      runFd call middle = .ok next → FdRun allowed s next

variable {s next : FdState}

theorem toInt_neg_iff (x : Int32) : x.toInt < 0 ↔ 2^31 ≤ x.toNat := by
  have small := x.isLt
  rw [BitVec.toInt_eq_toNat_cond]
  split <;> omega

theorem toNat_index (small : k < 2^31) : (BitVec.ofNat 32 k).toNat = k := by
  rw [BitVec.toNat_ofNat]
  omega

/-- No descriptor and no file has changed; the tables may be longer. -/
structure SameFds (s next : FdState) : Prop where
  table : ∀ k, slot next.table k = slot s.table k
  fds : ∀ pid i, slot (next.fds pid) i = slot (s.fds pid) i
  files : ∀ p, next.files p = s.files p

structure Opened (s : FdState) (pid k i : Nat) (p : U64) (file : OpenFile) (next : FdState) : Prop where
  index : k < 2^31
  freeSlot : slot s.table k = none
  freeFd : slot (s.fds pid) i = none
  unused : s.files p = none
  refcount : file.refcount = 1#32
  table : ∀ j, slot next.table j = if j = k then some p else slot s.table j
  fds : ∀ q j, slot (next.fds q) j = if q = pid ∧ j = i then some (BitVec.ofNat 32 k) else slot (s.fds q) j
  files : ∀ q, next.files q = if q = p then some file else s.files q

structure Closed (s : FdState) (pid i : Nat) (idx : Int32) (p : U64) (next : FdState) : Prop where
  entry : slot (s.fds pid) i = some idx
  file : slot s.table idx.toNat = some p
  table : ∀ j, slot next.table j = if j = idx.toNat then none else slot s.table j
  fds : ∀ q j, slot (next.fds q) j = if q = pid ∧ j = i then none else slot (s.fds q) j
  files : ∀ q, next.files q = if q = p then none else s.files q

/-- Every open file belongs to exactly one descriptor and is counted once. -/
structure FdInv (s : FdState) : Prop where
  entry : ∀ pid i idx, slot (s.fds pid) i = some idx → idx.toNat < 2^31 ∧
    ∃ p file, slot s.table idx.toNat = some p ∧ s.files p = some file ∧ file.refcount = 1#32
  unique : ∀ pid i pid' i' idx, slot (s.fds pid) i = some idx → slot (s.fds pid') i' = some idx →
    pid = pid' ∧ i = i'
  owned : ∀ k p, slot s.table k = some p → ∃ pid i, slot (s.fds pid) i = some (BitVec.ofNat 32 k)
  small : ∀ k p, slot s.table k = some p → k < 2^31
  apart : ∀ k k' p, slot s.table k = some p → slot s.table k' = some p → k = k'

/-- The last reference goes away: the block is freed and the slot is free. -/
theorem ofClose_last (index : idx.toNat < 2^31) (found : slot s.table idx.toNat = some p)
    (file : s.files p = some f) (once : f.refcount = 1#32) :
    ofClose idx s = .ok (0#32,{ s with table := s.table.set idx.toNat none }.setFile p none) := by
  have inside := slot_inside found
  unfold ofClose
  rw [if_neg (by rw [toInt_neg_iff]; omega)]
  simp only [found,file,once]
  rfl

def newFile (vnode : Nat) (flags : Int32) : OpenFile := ⟨vnode,0#64,1#32,flags⟩

structure Granted (pid : Nat) (vnode : Option Nat) (allocs : FdAllocs) (s : FdState) : Prop where
  file : allocs.file ≠ none
  vnode : vnode ≠ none
  table : Room tableLimit allocs.table s.table
  fd : allocs.fd = true
  fds : Room tableLimit allocs.fds (s.fds pid)

theorem ofOpen_cases (few : used s.table < 2^31) (unused : ∀ p, allocs.file = some p → s.files p = none)
    (opens : ofOpen vnode flags allocs s = (idx,middle)) :
    (idx = -1#32 ∧ SameFds s middle ∧ ∀ pid, ¬Granted pid vnode allocs s) ∨
    ∃ k p v, allocs.file = some p ∧ vnode = some v ∧ Room tableLimit allocs.table s.table ∧ idx = BitVec.ofNat 32 k ∧
      k < 2^31 ∧ s.files p = none ∧ Placed s.table p k middle.table ∧ middle.fds = s.fds ∧
      ∀ q, middle.files q = if q = p then some (newFile v flags) else s.files q := by
  unfold ofOpen at opens
  split at opens
  · rename_i _ _ p v answer
    have room := place_isSome tableLimit p allocs.table s.table
    split at opens
    · rename_i k table placed
      obtain ⟨rfl,rfl⟩ := Prod.mk.inj opens
      rw [placed] at room
      rcases place_spec placed with ⟨impossible,_⟩ | ⟨k',same,spec⟩
      · cases impossible
      obtain rfl := Option.some.inj same
      have bound := le_used spec.full
      exact .inr ⟨k,p,v,answer,rfl,room.mp rfl,rfl,by omega,unused p answer,spec,rfl,fun _ => rfl⟩
    · rename_i table placed
      obtain ⟨rfl,rfl⟩ := Prod.mk.inj opens
      rw [placed] at room
      rcases place_spec placed with ⟨_,same⟩ | ⟨_,impossible,_⟩
      · refine .inl ⟨rfl,⟨same,fun _ _ => rfl,fun _ => rfl⟩,fun pid granted => ?_⟩
        exact Bool.noConfusion (room.mpr granted.table)
      · cases impossible
  · rename_i missing
    obtain ⟨rfl,rfl⟩ := Prod.mk.inj opens
    refine .inl ⟨rfl,⟨fun _ => rfl,fun _ _ => rfl,fun _ => rfl⟩,fun pid granted => ?_⟩
    obtain ⟨p,file⟩ := Option.ne_none_iff_exists'.mp granted.file
    obtain ⟨v,found⟩ := Option.ne_none_iff_exists'.mp granted.vnode
    exact missing p v file found

/-- Closing the file that was just opened undoes the open. -/
theorem ofClose_undo (index : k < 2^31) (unused : s.files p = none) (placed : Placed s.table p k middle.table)
    (files : ∀ q, middle.files q = if q = p then some file else s.files q) (once : file.refcount = 1#32)
    (fds : ∀ q j, slot (middle.fds q) j = slot (s.fds q) j) :
    ∃ r next, ofClose (BitVec.ofNat 32 k) middle = .ok (r,next) ∧ SameFds s next := by
  have number := toNat_index index
  have found : slot middle.table (BitVec.ofNat 32 k).toNat = some p := by
    rw [number,placed.slots,if_pos rfl]
  have closes := ofClose_last (by rw [number]; exact index) found (by rw [files,if_pos rfl]) once
  refine ⟨_,_,closes,?_,fds,?_⟩
  · intro j
    change slot (middle.table.set (BitVec.ofNat 32 k).toNat none) j = _
    rw [number,slot_set placed.inside,placed.slots]
    split
    · rename_i here
      rw [here,placed.free]
    · rfl
  · intro q
    change (if q = p then none else middle.files q) = _
    rw [files]
    split
    · rename_i here
      rw [here,unused]
    · rfl

/-- An open is refused and leaves everything as it was, or it takes the first free descriptor. -/
theorem processFdOpen_outcome (pid : Nat) (vnode : Option Nat) (flags : Int32) (few : used s.table < 2^31)
    (unused : ∀ p, allocs.file = some p → s.files p = none) :
    ∃ r next, processFdOpen pid vnode flags allocs s = .ok (r,next) ∧
      ((r = -1#32 ∧ SameFds s next ∧ ¬Granted pid vnode allocs s) ∨
        ∃ k i p v, Granted pid vnode allocs s ∧ vnode = some v ∧ r = BitVec.ofNat 32 i ∧
          (∀ j < i, slot (s.fds pid) j ≠ none) ∧ Opened s pid k i p (newFile v flags) next) := by
  unfold processFdOpen
  match opens : ofOpen vnode flags allocs s with
  | (idx,middle) =>
  dsimp only
  rcases ofOpen_cases few unused opens with
    ⟨rfl,same,refused⟩ | ⟨k,p,v,file,found,room,rfl,index,fresh,placed,fds,files⟩
  · rw [if_pos (by decide)]
    exact ⟨_,_,rfl,.inl ⟨rfl,same,refused pid⟩⟩
  rw [if_neg (by rw [toInt_neg_iff,toNat_index index]; omega)]
  have once : (newFile v flags).refcount = 1#32 := rfl
  have filled := place_isSome tableLimit (BitVec.ofNat 32 k) allocs.fds (s.fds pid)
  split
  · rename_i denied
    obtain ⟨r,next,closes,same⟩ := ofClose_undo index fresh placed files once (by simp [fds])
    rw [closes]
    exact ⟨_,_,rfl,.inl ⟨rfl,same,fun granted => by rw [granted.fd] at denied; cases denied⟩⟩
  rename_i allowed
  rw [Bool.not_eq_true,Bool.not_eq_false'] at allowed
  split
  · rename_i i table entered
    rw [fds] at entered
    rw [entered] at filled
    rcases place_spec entered with ⟨impossible,_⟩ | ⟨i',same,spec⟩
    · cases impossible
    obtain rfl := Option.some.inj same
    have granted : Granted pid vnode allocs s :=
      ⟨by rw [file]; exact Option.some_ne_none p,by rw [found]; exact Option.some_ne_none v,room,allowed,filled.mp rfl⟩
    refine ⟨_,_,rfl,.inr ⟨k,i,p,v,granted,found,rfl,spec.full,
      index,placed.free,spec.free,fresh,once,placed.slots,?_,files⟩⟩
    intro q j
    simp only [FdState.setFds]
    by_cases own : q = pid
    · subst q
      simp [spec.slots]
    · simp [own,fds]
  · rename_i table entered
    rw [fds] at entered
    rw [entered] at filled
    rcases place_spec entered with ⟨_,same⟩ | ⟨_,impossible,_⟩
    · have kept : ∀ q j, slot ((middle.setFds pid table).fds q) j = slot (s.fds q) j := by
        intro q j
        simp only [FdState.setFds]
        by_cases own : q = pid
        · subst q
          rw [if_pos rfl,same]
        · rw [if_neg own,fds]
      have placed : Placed s.table p k (middle.setFds pid table).table := placed
      obtain ⟨r,next,closes,same⟩ := ofClose_undo index fresh placed files once kept
      rw [closes]
      exact ⟨_,_,rfl,.inl ⟨rfl,same,fun granted => Bool.noConfusion (filled.mpr granted.fds)⟩⟩
    · cases impossible

theorem processFdOpen_spec (pid : Nat) (vnode : Option Nat) (flags : Int32) (few : used s.table < 2^31)
    (unused : ∀ p, allocs.file = some p → s.files p = none) :
    ∃ r next, processFdOpen pid vnode flags allocs s = .ok (r,next) ∧
      (SameFds s next ∨ ∃ k i p file, Opened s pid k i p file next) := by
  obtain ⟨r,next,opens,⟨_,same,_⟩ | ⟨k,i,p,v,_,_,_,_,opened⟩⟩ := processFdOpen_outcome pid vnode flags few unused
  · exact ⟨r,next,opens,.inl same⟩
  · exact ⟨r,next,opens,.inr ⟨k,i,p,_,opened⟩⟩

theorem processFdClose_spec (inv : FdInv s) (pid : Nat) (fd : Int32) :
    ∃ r next, processFdClose pid fd s = .ok (r,next) ∧
      (SameFds s next ∨ fd.toNat < 2^31 ∧ ∃ idx p, Closed s pid fd.toNat idx p next) := by
  have same : SameFds s s := ⟨fun _ => rfl,fun _ _ => rfl,fun _ => rfl⟩
  unfold processFdClose
  split
  · exact ⟨_,_,rfl,.inl same⟩
  rename_i valid
  rw [toInt_neg_iff] at valid
  cases entry : slot (s.fds pid) fd.toNat with
  | none => exact ⟨_,_,rfl,.inl same⟩
  | some idx =>
    obtain ⟨index,p,file,found,live,once⟩ := inv.entry pid fd.toNat idx entry
    dsimp only
    rw [ofClose_last index found live once]
    refine ⟨_,_,rfl,.inr ⟨by omega,idx,p,entry,found,?_,?_,fun _ => rfl⟩⟩
    · exact fun j => slot_set (slot_inside found) none j
    · intro q j
      simp only [FdState.setFds,FdState.setFile]
      by_cases own : q = pid
      · subst q
        rw [if_pos rfl,slot_set (slot_inside entry)]
        simp
      · simp [own]

end Reddyos
