import Reddyos.TarArchive
import Reddyos.Transitions

/-! The two arrays of children under calls of `mount_fs` and `devfs_register`. Every loop over
such an array runs up to its first NULL. -/
namespace Reddyos

open SlotTable Transitions

/-- Calls that change an array of children. -/
inductive DirCall where
  | mount (path : Option CString) (new : Option NodeId)
  | register (name : CString) (ops : Option VnodeOps) (driver : Internal)

def DirStep (fs : Vfs) : DirCall → Vfs → Prop
  | .mount path new, next => mountFs path new fs = .ok (0,next)
  | .register name ops driver, next => ∃ node, devfsRegister name ops driver fs = (some node,next)

def DirStart (fs : Vfs) : Prop :=
  ∃ nodes : List TarNode, nodes.length ≤ 63 ∧ fs = devfsInit (tarfsMount nodes .zero)

/-- A NULL within the 64 slots, and no NULL in front of it. -/
def Terminated (slots : List (Option NodeId)) : Prop :=
  slots.length = 64 ∧ ∃ k < 64, slots[k]? = some none ∧ ∀ j < k, ∃ child, slots[j]? = some (some child)

/-- The loops of `vfs_find_vnode`, of `vfs_dir_count` and `vfs_stat`, and of `mount_fs`. -/
structure LoopsStop (fs : Vfs) (slots : List (Option NodeId)) : Prop where
  search : ∀ name, searchTable fs name slots ≠ .error .overrun
  count : countTable slots ≠ .error .overrun
  replace : ∀ name new, replaceChild fs name new slots ≠ .error .overrun

structure ArraysOk (fs : Vfs) : Prop where
  terminated : ∀ t, Terminated (fs.table t)
  stop : ∀ t, LoopsStop fs (fs.table t)

def NoNewTwins (before after : List (Option NodeId)) : Prop :=
  ∀ (i j : Nat) (node : NodeId), i ≠ j → after[i]? = some (some node) → after[j]? = some (some node) →
    before[i]? = some (some node) ∧ before[j]? = some (some node)

def CallKeeps (fs : Vfs) (call : DirCall) (next : Vfs) : Prop :=
  ArraysOk next ∧ match call with
    | .mount _ _ => True
    | .register _ _ _ => NoNewTwins (fs.table .devChildren) (next.table .devChildren)

/-- A path below the root, without a child of that name in the root's array `t`. -/
def Appends (fs : Vfs) (path : Option CString) (t : TableId) : Prop :=
  ∃ root below, fs.root = some root ∧ path = some below ∧ below ≠ [slash] ∧ (fs.node root).internal = .table t ∧
    ∀ child ∈ entries (fs.table t), (fs.node child).name ≠ stripLeading below

def FirstUnnamed (fs : Vfs) (idx : Nat) : Prop :=
  (List.range 64).find? (fun i => (fs.node (.dev i)).name = []) = some idx

def FewEntries (fs : Vfs) : DirCall → Prop
  | .mount path _ => ∀ t, Appends fs path t → (entries (fs.table t)).length < 63
  | .register _ _ _ => (entries (fs.table .devChildren)).length < 63

/-- The node of a new device is not an entry yet. -/
def FreshNode (fs : Vfs) : DirCall → Prop
  | .mount _ _ => True
  | .register _ _ _ => ∀ idx, FirstUnnamed fs idx → .dev idx ∉ entries (fs.table .devChildren)

def DirRoom (fs : Vfs) (call : DirCall) : Prop := FewEntries fs call ∧ FreshNode fs call

def Named (fs : Vfs) : DirCall → Prop
  | .mount _ new => ∀ node, new = some node → (fs.node node).name ≠ []
  | .register name _ _ => name ≠ []

/-- A successful `mount_fs` of `new`: the root is another one, or one of its children, or it has
one more child. -/
inductive MountEffect (fs : Vfs) (path : Option CString) (new : NodeId) : Vfs → Prop where
  | root : (∀ t, ¬Appends fs path t) → MountEffect fs path new { fs with root := some new }
  | replace : (∀ t, ¬Appends fs path t) → others.length = (entries (fs.table t)).length →
      (∀ child ∈ others, child = new ∨ child ∈ entries (fs.table t)) →
      MountEffect fs path new (fs.setTable t (packed 64 others))
  | append : (∀ other, Appends fs path other ↔ other = t) →
      MountEffect fs path new (fs.setTable t (packed 64 (entries (fs.table t) ++ [new])))

variable {size : Nat} {new : NodeId} {fs next : Vfs} {slots : List (Option NodeId)} {children : List NodeId} {t : TableId} {name : CString}

theorem entries_packed (size : Nat) (children : List NodeId) : entries (packed size children) = children := by
  unfold packed
  induction children generalizing size with
  | nil =>
    cases size with
    | zero => rfl
    | succ n => rfl
  | cons first children ih =>
    rw [List.map_cons,List.cons_append,entries]
    have later := ih (size - 1)
    rw [Nat.sub_sub,Nat.add_comm] at later
    exact congrArg _ later

/-- At most 63 children and NULL behind them. -/
def FrontFilled (slots : List (Option NodeId)) : Prop :=
  (entries slots).length < 64 ∧ slots = packed 64 (entries slots)

theorem filled_packed (room : children.length < 64) : FrontFilled (packed 64 children) := by
  unfold FrontFilled
  rw [entries_packed]
  exact ⟨room,rfl⟩

theorem FrontFilled.terminated (filled : FrontFilled slots) : Terminated slots := by
  obtain ⟨room,whole⟩ := filled
  rw [whole]
  refine ⟨length_packed (Nat.le_of_lt room),_,room,getElem?_packed_none (Nat.le_refl _) room,?_⟩
  intro j before
  rw [getElem?_packed before,List.getElem?_eq_getElem before]
  exact ⟨_,rfl⟩

theorem Terminated.null (terminated : Terminated slots) : none ∈ slots := by
  obtain ⟨_,k,_,stop,_⟩ := terminated
  exact List.mem_of_getElem? stop

theorem countTable_stops (stop : none ∈ slots) : countTable slots ≠ .error .overrun := by
  induction slots with
  | nil => cases stop
  | cons slot rest ih =>
    cases slot with
    | none =>
      intro overruns
      cases overruns
    | some child =>
      have later := ih ((List.mem_cons.mp stop).resolve_left (Option.some_ne_none child).symm)
      unfold countTable
      cases counted : countTable rest with
      | ok count =>
        intro overruns
        cases overruns
      | error misread =>
        rw [counted] at later
        exact later

theorem replaceChild_stops (stop : none ∈ slots) (new : NodeId) : replaceChild fs name new slots ≠ .error .overrun := by
  induction slots with
  | nil => cases stop
  | cons slot rest ih =>
    cases slot with
    | none =>
      intro overruns
      cases overruns
    | some child =>
      have later := ih ((List.mem_cons.mp stop).resolve_left (Option.some_ne_none child).symm)
      unfold replaceChild
      split
      · intro overruns
        cases overruns
      · cases replaced : replaceChild fs name new rest with
        | ok found =>
          intro overruns
          cases overruns
        | error misread =>
          rw [replaced] at later
          exact later

theorem Terminated.loopsStop (terminated : Terminated slots) : LoopsStop fs slots where
  search := by
    intro name
    rw [searchTable_ok (.inl terminated.null)]
    nofun
  count := countTable_stops terminated.null
  replace := fun _ new => replaceChild_stops terminated.null new

theorem arraysOk_iff : ArraysOk fs ↔ ∀ t, Terminated (fs.table t) :=
  ⟨ArraysOk.terminated,fun terminated => ⟨terminated,fun t => (terminated t).loopsStop⟩⟩

theorem packed_full (full : children.length = 64) : ¬Terminated (packed 64 children) := by
  rintro ⟨_,k,inside,stop,_⟩
  rw [getElem?_packed (by omega),List.getElem?_eq_getElem (by omega)] at stop
  cases stop

theorem terminated_append (new : NodeId) (room : children.length < 64) :
    Terminated (packed 64 (children ++ [new])) ↔ children.length < 63 := by
  constructor
  · intro terminated
    by_contra last
    refine packed_full ?_ terminated
    rw [List.length_append,List.length_singleton]
    omega
  · intro more
    refine (filled_packed ?_).terminated
    rw [List.length_append,List.length_singleton]
    omega

/-- The first child of that name is replaced, when there is one. -/
theorem replaceChild_packed (fs : Vfs) (room : children.length < size) (name : CString) (new : NodeId) :
    (replaceChild fs name new (packed size children) = .ok none ∧ ∀ child ∈ children, (fs.node child).name ≠ name) ∨
    ∃ others, replaceChild fs name new (packed size children) = .ok (some (packed size others)) ∧
      others.length = children.length ∧ (∃ child ∈ children, (fs.node child).name = name) ∧
      ∀ child ∈ others, child = new ∨ child ∈ children := by
  induction children generalizing size with
  | nil =>
    left
    rw [packed_none room]
    exact ⟨rfl,nofun⟩
  | cons first children ih =>
    obtain ⟨size,rfl⟩ : ∃ n, size = n + 1 := ⟨size - 1,by omega⟩
    rw [List.length_cons] at room
    rw [packed_cons]
    unfold replaceChild
    by_cases here : (fs.node first).name = name
    · right
      refine ⟨new :: children,?_,rfl,⟨first,List.mem_cons_self,here⟩,?_⟩
      · rw [if_pos here,packed_cons]
      · intro child listed
        rcases List.mem_cons.mp listed with rfl | later
        · exact .inl rfl
        · exact .inr (List.mem_cons_of_mem _ later)
    · rw [if_neg here]
      rcases ih (Nat.lt_of_succ_lt_succ room) with ⟨absent,others⟩ | ⟨others,replaced,length,⟨child,listed,same⟩,from_⟩
      · left
        rw [absent]
        exact ⟨rfl,List.forall_mem_cons.mpr ⟨here,others⟩⟩
      · right
        rw [replaced]
        refine ⟨first :: others,?_,congrArg Nat.succ length,⟨child,List.mem_cons_of_mem _ listed,same⟩,?_⟩
        · rw [packed_cons]
          rfl
        · intro child listed
          rcases List.mem_cons.mp listed with rfl | later
          · exact .inr List.mem_cons_self
          · exact (from_ child later).imp_right (List.mem_cons_of_mem _)

@[simp]
theorem setTable_same (fs : Vfs) (t : TableId) : (fs.setTable t slots).table t = slots := if_pos rfl

theorem setTable_other {other : TableId} (different : other ≠ t) : (fs.setTable t slots).table other = fs.table other :=
  if_neg different

theorem mountChild_effect (filled : ∀ t, FrontFilled (fs.table t)) (mounted : fs.root = some root)
    (below : path ≠ [slash]) (returns : mountChild root (stripLeading path) new fs = .ok (0,next)) :
    MountEffect fs (some path) new next := by
  unfold mountChild at returns
  cases inside : (fs.node root).internal with
  | null =>
    rw [inside] at returns
    exact absurd (ok_pair returns).1 (by decide)
  | data address =>
    rw [inside] at returns
    cases returns
  | table t =>
    rw [inside] at returns
    obtain ⟨room,whole⟩ := filled t
    obtain ⟨replaced,search,returns⟩ := ok_of_bind returns
    rw [whole] at search
    rcases replaceChild_packed fs room (stripLeading path) new with ⟨absent,unnamed⟩ | ⟨others,found,length,named,from_⟩
    · rw [absent] at search
      obtain rfl := Except.ok.inj search
      have free := firstFree_packed room
      rw [← whole] at free
      rw [free] at returns
      obtain ⟨_,rfl⟩ := ok_pair returns
      have put : (fs.table t).set (entries (fs.table t)).length (some new) = packed 64 (entries (fs.table t) ++ [new]) := by
        rw [← packed_set room,← whole]
      rw [put]
      refine .append fun other => ?_
      constructor
      · rintro ⟨top,_,here,_,_,inside',_⟩
        rw [mounted] at here
        obtain rfl := Option.some.inj here
        rw [inside] at inside'
        exact (Internal.table.inj inside').symm
      · rintro rfl
        exact ⟨root,path,mounted,rfl,below,inside,unnamed⟩
    · rw [found] at search
      obtain rfl := Except.ok.inj search
      obtain ⟨_,rfl⟩ := ok_pair returns
      refine .replace ?_ length from_
      rintro other ⟨top,_,here,same,_,inside',unnamed⟩
      rw [mounted] at here
      obtain rfl := Option.some.inj here
      rw [inside] at inside'
      obtain rfl := Internal.table.inj inside'
      obtain rfl := Option.some.inj same
      obtain ⟨child,listed,same⟩ := named
      exact unnamed child listed same

theorem mountFs_effect (filled : ∀ t, FrontFilled (fs.table t)) (returns : mountFs path mounting fs = .ok (0,next)) :
    ∃ node, mounting = some node ∧ MountEffect fs path node next := by
  unfold mountFs at returns
  split at returns
  · exact absurd (ok_pair returns).1 (by decide)
  · rename_i node unmounted
    split at returns
    · obtain ⟨_,rfl⟩ := ok_pair returns
      refine ⟨node,rfl,.root ?_⟩
      rintro t ⟨root,_,mounted,_⟩
      rw [unmounted] at mounted
      cases mounted
    · exact absurd (ok_pair returns).1 (by decide)
  · obtain ⟨_,rfl⟩ := ok_pair returns
    refine ⟨_,rfl,.root ?_⟩
    rintro t ⟨_,_,_,same,_⟩
    cases same
  · rename_i node root path mounted
    split at returns
    · rename_i top
      obtain ⟨_,rfl⟩ := ok_pair returns
      refine ⟨node,rfl,.root ?_⟩
      rintro t ⟨_,_,_,same,other,_⟩
      exact other ((Option.some.inj same).symm.trans top)
    split at returns
    · exact absurd (ok_pair returns).1 (by decide)
    · rename_i below _
      exact ⟨node,rfl,mountChild_effect filled mounted below returns⟩

@[simp]
theorem setNode_table (fs : Vfs) (id : NodeId) (node : VfsNode) : (fs.setNode id node).table = fs.table := rfl

/-- A successful `devfs_register` gives its name to the first unnamed node and appends that. -/
theorem devfsRegister_effect (filled : FrontFilled (fs.table .devChildren))
    (returns : devfsRegister name ops driver fs = (some node,next)) :
    ∃ idx, FirstUnnamed fs idx ∧
      next.table .devChildren = packed 64 (entries (fs.table .devChildren) ++ [.dev idx]) ∧
      next.table .children = fs.table .children ∧
      ∀ id, (next.node id).name = if id = .dev idx then name.take 63 else (fs.node id).name := by
  obtain ⟨room,whole⟩ := filled
  have free := firstFree_packed room
  rw [← whole] at free
  have put : ∀ idx, (fs.table .devChildren).set (entries (fs.table .devChildren)).length (some (.dev idx)) =
      packed 64 (entries (fs.table .devChildren) ++ [.dev idx]) := by
    intro idx
    rw [← packed_set room,← whole]
  unfold devfsRegister at returns
  split at returns
  · cases returns
  · rename_i idx first
    dsimp only at returns
    rw [free] at returns
    dsimp only at returns
    rw [put] at returns
    obtain ⟨_,rfl⟩ := Prod.mk.inj returns
    refine ⟨idx,first,?_,?_,?_⟩
    · rw [setNode_table,setTable_same]
    · rw [setNode_table,setTable_other (by decide),setNode_table]
    intro id
    simp only [Vfs.setNode,Vfs.setTable]
    by_cases root : id = .devRoot
    · subst root
      rfl
    · rw [if_neg root]
      split <;> rfl

theorem noNewTwins_append (new : NodeId) (room : children.length < 64) :
    NoNewTwins (packed 64 children) (packed 64 (children ++ [new])) ↔ new ∉ children := by
  have longer : (children ++ [new]).length = children.length + 1 := by rw [List.length_append,List.length_singleton]
  constructor
  · intro none listed
    obtain ⟨i,inside,here⟩ := List.getElem_of_mem listed
    have first : (packed 64 (children ++ [new]))[i]? = some (some new) := by
      rw [getElem?_packed (by omega),List.getElem?_append_left inside,List.getElem?_eq_getElem inside,here]
      rfl
    have last : (packed 64 (children ++ [new]))[children.length]? = some (some new) := by
      rw [getElem?_packed (by omega),List.getElem?_concat_length]
      rfl
    have old := (none i children.length new (by omega) first last).2
    rw [getElem?_packed_none (Nat.le_refl _) room] at old
    cases old
  · intro unlisted i j node different atI atJ
    have inside : ∀ k l : Nat, k ≠ l → (children ++ [new])[k]? = some node → (children ++ [new])[l]? = some node →
        k < children.length := by
      intro k l other atK atL
      have kBound := (List.getElem?_eq_some_iff.mp atK).1
      have lBound := (List.getElem?_eq_some_iff.mp atL).1
      by_contra behind
      obtain rfl : k = children.length := by omega
      rw [List.getElem?_concat_length] at atK
      obtain rfl := Option.some.inj atK
      rw [List.getElem?_append_left (by omega)] at atL
      exact unlisted (List.mem_of_getElem? atL)
    have iBound := inside i j different (packed_some atI) (packed_some atJ)
    have jBound := inside j i different.symm (packed_some atJ) (packed_some atI)
    have old : ∀ k : Nat, k < children.length → (packed 64 (children ++ [new]))[k]? = some (some node) →
        (packed 64 children)[k]? = some (some node) := by
      intro k inside after
      have here := packed_some after
      rw [List.getElem?_append_left inside] at here
      rw [getElem?_packed inside,here]
      rfl
    exact ⟨old i iBound atI,old j jBound atJ⟩

theorem filled_setTable (filled : ∀ t, FrontFilled (fs.table t)) (room : children.length < 64) (t other : TableId) :
    FrontFilled ((fs.setTable t (packed 64 children)).table other) := by
  by_cases here : other = t
  · rw [here,setTable_same]
    exact filled_packed room
  · rw [setTable_other here]
    exact filled other

theorem mount_keeps (filled : ∀ t, FrontFilled (fs.table t)) (moves : DirStep fs (.mount path mounting) next) :
    ((∀ t, Terminated (next.table t)) ↔ DirRoom fs (.mount path mounting)) ∧
      (FewEntries fs (.mount path mounting) → ∀ t, FrontFilled (next.table t)) := by
  obtain ⟨node,_,effect⟩ := mountFs_effect filled moves
  cases effect with
  | root none =>
    have room : DirRoom fs (.mount path mounting) := ⟨fun t appends => absurd appends (none t),trivial⟩
    exact ⟨iff_of_true (fun t => (filled t).terminated) room,fun _ => filled⟩
  | @replace t others none length _ =>
    have after := filled_setTable filled (show others.length < 64 by rw [length]; exact (filled t).1) t
    have room : DirRoom fs (.mount path mounting) := ⟨fun other appends => absurd appends (none other),trivial⟩
    exact ⟨iff_of_true (fun other => (after other).terminated) room,fun _ => after⟩
  | @append t appends =>
    have last := terminated_append node (filled t).1
    have few : DirRoom fs (.mount path mounting) ↔ (entries (fs.table t)).length < 63 := by
      constructor
      · exact fun room => room.1 t ((appends t).mpr rfl)
      · intro room
        refine ⟨fun other here => ?_,trivial⟩
        rw [(appends other).mp here]
        exact room
    have after : (entries (fs.table t)).length < 63 →
        ∀ other, FrontFilled ((fs.setTable t (packed 64 (entries (fs.table t) ++ [node]))).table other) := by
      intro room
      refine filled_setTable filled ?_ t
      rw [List.length_append,List.length_singleton]
      omega
    refine ⟨?_,fun room => after (few.mp ⟨room,trivial⟩)⟩
    rw [few]
    constructor
    · intro terminated
      have here := terminated t
      rw [setTable_same] at here
      exact last.mp here
    · exact fun room other => (after room other).terminated

theorem register_keeps (filled : ∀ t, FrontFilled (fs.table t)) (moves : DirStep fs (.register name ops driver) next) :
    (((∀ t, Terminated (next.table t)) ∧ NoNewTwins (fs.table .devChildren) (next.table .devChildren)) ↔
      DirRoom fs (.register name ops driver)) ∧
      (FewEntries fs (.register name ops driver) → ∀ t, FrontFilled (next.table t)) := by
  obtain ⟨node,returns⟩ := moves
  obtain ⟨idx,first,devices,members,_⟩ := devfsRegister_effect (filled _) returns
  have room := (filled .devChildren).1
  have twins := noNewTwins_append (.dev idx) room
  rw [← (filled .devChildren).2,← devices] at twins
  have last := terminated_append (.dev idx) room
  rw [← devices] at last
  constructor
  · constructor
    · rintro ⟨terminated,none⟩
      refine ⟨last.mp (terminated _),fun other here => ?_⟩
      rw [show other = idx from Option.some.inj (here.symm.trans first)]
      exact twins.mp none
    · rintro ⟨few,fresh⟩
      refine ⟨fun t => ?_,twins.mpr (fresh idx first)⟩
      cases t with
      | children =>
        rw [members]
        exact (filled _).terminated
      | devChildren => exact last.mpr few
  · intro few t
    cases t with
    | children =>
      rw [members]
      exact filled _
    | devChildren =>
      have few : (entries (fs.table .devChildren)).length < 63 := few
      rw [devices]
      refine filled_packed ?_
      rw [List.length_append,List.length_singleton]
      omega

theorem dirStart_filled (begins : DirStart fs) : ∀ t, FrontFilled (fs.table t) := by
  obtain ⟨nodes,few,rfl⟩ := begins
  intro t
  cases t with
  | children =>
    have whole : (devfsInit (tarfsMount nodes .zero)).table .children = packed 64 ((List.range nodes.length).map .tar) := by
      rw [packed_none (by rw [List.length_map,List.length_range]; omega),List.map_map,List.length_map,List.length_range]
      change _ ++ none :: (List.replicate 64 none).drop (nodes.length + 1) = _
      rw [List.drop_replicate,Nat.sub_sub]
      rfl
    rw [whole]
    refine filled_packed ?_
    rw [List.length_map,List.length_range]
    omega
  | devChildren => exact show FrontFilled (packed 64 []) from filled_packed (by decide)

theorem dirRun_filled (run : Run DirStart DirStep DirRoom calls fs) : ∀ t, FrontFilled (fs.table t) := by
  refine run.invariant (fun _ fs => ∀ t, FrontFilled (fs.table t)) (fun _ => dirStart_filled) ?_
  intro calls fs call next filled room moves
  cases call with
  | mount path mounting => exact (mount_keeps filled moves).2 room.1
  | register name ops driver => exact (register_keeps filled moves).2 room.1

theorem callKeeps_iff (filled : ∀ t, FrontFilled (fs.table t)) (moves : DirStep fs call next) :
    CallKeeps fs call next ↔ DirRoom fs call := by
  unfold CallKeeps
  rw [arraysOk_iff]
  cases call with
  | mount path mounting =>
    rw [and_true]
    exact (mount_keeps filled moves).1
  | register name ops driver => exact (register_keeps filled moves).1

/-- As long as no call takes a last free slot or the node of an entry, both arrays end inside their
slots; and the call that does ends that. -/
theorem dir_arrays_terminated (run : Run DirStart DirStep DirRoom calls fs) :
    ArraysOk fs ∧ ∀ call next, DirStep fs call next → (CallKeeps fs call next ↔ DirRoom fs call) := by
  have filled := dirRun_filled run
  exact ⟨arraysOk_iff.mpr fun t => (filled t).terminated,fun _ _ moves => callKeeps_iff filled moves⟩

def devPath : CString := [slash,0x64#8,0x65#8,0x76#8]

/-- An archive of 63 members is full; `/dev` still is mounted in it. -/
theorem mount_fills_array : ∃ calls fs, Run DirStart DirStep free calls fs ∧ ¬ArraysOk fs := by
  let nodes : List TarNode := List.replicate 63 ⟨[0x61#8],0#64,512#64⟩
  have begins : DirStart (devfsInit (tarfsMount nodes .zero)) := ⟨nodes,by simp [nodes],rfl⟩
  have start : Run DirStart DirStep free [] _ := .start begins
  obtain ⟨next,moves⟩ : ∃ next, DirStep (devfsInit (tarfsMount nodes .zero)) (.mount (some devPath) (some .devRoot)) next :=
    ⟨_,rfl⟩
  refine ⟨_,next,start.step trivial moves,fun arrays => ?_⟩
  have room := (mount_keeps (dirStart_filled begins) moves).1.mp arrays.terminated
  have members : entries ((devfsInit (tarfsMount nodes .zero)).table .children) = (List.range nodes.length).map .tar :=
    tarfsMount_entries nodes .zero
  have few := room.1 .children ⟨.tarRoot,devPath,rfl,rfl,by decide,rfl,?_⟩
  · rw [members,List.length_map,List.length_range,List.length_replicate] at few
    exact absurd few (by decide)
  · rw [members]
    intro child listed
    obtain ⟨i,inside,rfl⟩ := List.mem_map.mp listed
    have named : ((devfsInit (tarfsMount nodes .zero)).node (.tar i)).name = [0x61#8] := by
      have here : nodes[i]? = some ⟨[0x61#8],0#64,512#64⟩ := by
        rw [List.getElem?_replicate,if_pos (by simpa [nodes] using inside)]
      change ((nodes[i]?.map TarNode.vnode).getD _).name = _
      rw [here]
      rfl
    rw [named]
    decide

def NamedEntries (fs : Vfs) : Prop := ∀ t i, .dev i ∈ entries (fs.table t) → (fs.node (.dev i)).name ≠ []

theorem NamedEntries.fresh (named : NamedEntries fs) (call : DirCall) : FreshNode fs call := by
  cases call with
  | mount path mounting => trivial
  | register name ops driver =>
    intro idx first listed
    unfold FirstUnnamed at first
    exact named _ idx listed (by simpa using List.find?_some first)

theorem NamedEntries.mount (filled : ∀ t, FrontFilled (fs.table t)) (named : NamedEntries fs)
    (meets : Named fs (.mount path mounting)) (moves : DirStep fs (.mount path mounting) next)
    (after : ∀ t, FrontFilled (next.table t)) : NamedEntries next := by
  have same : next.node = fs.node := mountFs_node moves
  obtain ⟨node,rfl,effect⟩ := mountFs_effect filled moves
  have kept : ∀ t children, (∀ child ∈ children, child = node ∨ child ∈ entries (fs.table t)) →
      next = fs.setTable t (packed 64 children) → NamedEntries next := by
    intro t children from_ whole other i listed
    rw [same]
    by_cases here : other = t
    · subst other
      have room := (after t).1
      rw [whole,setTable_same] at room listed
      rw [entries_packed] at listed
      rcases from_ _ listed with mounted | old
      · rw [mounted]
        exact meets node rfl
      · exact named t i old
    · rw [whole,setTable_other here] at listed
      exact named other i listed
  cases effect with
  | root none => exact named
  | @replace t others none length from_ => exact kept t others from_ rfl
  | @append t appends =>
    refine kept t _ (fun child listed => ?_) rfl
    rcases List.mem_append.mp listed with old | new
    · exact .inr old
    · exact .inl (List.mem_singleton.mp new)

theorem NamedEntries.register (filled : ∀ t, FrontFilled (fs.table t)) (named : NamedEntries fs)
    (meets : Named fs (.register name ops driver)) (moves : DirStep fs (.register name ops driver) next) :
    NamedEntries next := by
  obtain ⟨node,returns⟩ := moves
  obtain ⟨idx,_,devices,members,names⟩ := devfsRegister_effect (filled _) returns
  intro t i listed
  rw [names]
  split
  · intro empty
    rcases List.take_eq_nil_iff.mp empty with impossible | none
    · cases impossible
    · exact meets none
  · rename_i other
    cases t with
    | children =>
      rw [members] at listed
      exact named _ i listed
    | devChildren =>
      rw [devices,entries_packed] at listed
      rcases List.mem_append.mp listed with old | new
      · exact named _ i old
      · exact absurd (List.mem_singleton.mp new) other

/-- With names everywhere only the number of entries counts. -/
theorem named_run (run : Run DirStart DirStep (fun fs call => Named fs call ∧ FewEntries fs call) calls fs) :
    Run DirStart DirStep DirRoom calls fs ∧ NamedEntries fs := by
  induction run with
  | start begins =>
    refine ⟨.start begins,?_⟩
    obtain ⟨nodes,few,rfl⟩ := begins
    intro t i listed
    cases t with
    | children =>
      change _ ∈ entries ((tarfsMount nodes .zero).table .children) at listed
      rw [tarfsMount_entries] at listed
      obtain ⟨_,_,impossible⟩ := List.mem_map.mp listed
      cases impossible
    | devChildren => cases listed
  | @step calls fs call next _ meets moves ih =>
    obtain ⟨run,named⟩ := ih
    have filled := dirRun_filled run
    have longer : Run DirStart DirStep DirRoom (calls ++ [call]) next := .step run ⟨meets.2,named.fresh call⟩ moves
    refine ⟨longer,?_⟩
    cases call with
    | mount path mounting => exact named.mount filled meets.1 moves (dirRun_filled longer)
    | register name ops driver => exact named.register filled meets.1 moves

/-- With names everywhere a call goes wrong only when it takes a last free slot. -/
theorem named_keeps (run : Run DirStart DirStep (fun fs call => Named fs call ∧ FewEntries fs call) calls fs)
    (moves : DirStep fs call next) : CallKeeps fs call next ↔ FewEntries fs call := by
  obtain ⟨run,named⟩ := named_run run
  rw [callKeeps_iff (dirRun_filled run) moves]
  exact and_iff_left (named.fresh call)

/-- `/dev` is mounted beside a member, and two devices are registered. -/
theorem dir_arrays_terminated_devices : ∃ calls fs, Run DirStart DirStep DirRoom calls fs ∧ calls.length = 3 ∧
    entries (fs.table .devChildren) = [.dev 0,.dev 1] ∧ ArraysOk fs := by
  let first : Vfs := devfsInit (tarfsMount [⟨[0x61#8],0#64,512#64⟩] .zero)
  let fb : DirCall := .register [0x66#8,0x62#8] (some (.driver 0)) .null
  let tty : DirCall := .register [0x74#8,0x74#8,0x79#8] (some (.driver 0)) .null
  have begins : DirStart first := ⟨_,by decide,rfl⟩
  obtain ⟨fs₁,fs₂,fs₃,mounts,registers,registers',few₁,few₂,devices⟩ : ∃ fs₁ fs₂ fs₃,
      DirStep first (.mount (some devPath) (some .devRoot)) fs₁ ∧ DirStep fs₁ fb fs₂ ∧ DirStep fs₂ tty fs₃ ∧
      (entries (fs₁.table .devChildren)).length < 63 ∧ (entries (fs₂.table .devChildren)).length < 63 ∧
      entries (fs₃.table .devChildren) = [.dev 0,.dev 1] :=
    ⟨_,_,_,rfl,⟨_,rfl⟩,⟨_,rfl⟩,by decide,by decide,rfl⟩
  have named : Named first (.mount (some devPath) (some .devRoot)) := by
    rintro _ ⟨⟩
    decide
  have few : FewEntries first (.mount (some devPath) (some .devRoot)) := by
    intro t _
    cases t <;> decide
  have named₁ : Named fs₁ fb := List.cons_ne_nil _ _
  have named₂ : Named fs₂ tty := List.cons_ne_nil _ _
  have run : Run DirStart DirStep (fun fs call => Named fs call ∧ FewEntries fs call) _ fs₃ :=
    .step (.step (.step (.start begins) ⟨named,few⟩ mounts) ⟨named₁,few₁⟩ registers) ⟨named₂,few₂⟩ registers'
  exact ⟨_,fs₃,(named_run run).1,rfl,devices,(dir_arrays_terminated (named_run run).1).1⟩

end Reddyos
