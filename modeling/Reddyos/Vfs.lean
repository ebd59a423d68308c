import Reddyos.SlotTable
import Reddyos.Tarfs

/-! Vnodes, mounts and path lookup: `filesystem/vfs/vfs.c`, `filesystem/vfs/mount.c` and
`filesystem/fs/devfs/devfs.c`. A string is the list of its bytes, without the terminator. -/
namespace Reddyos

open SlotTable

abbrev CString := List (BitVec 8)

def slash : BitVec 8 := 0x2F#8

/-- The vnodes of `tarfs.c` and `devfs.c`: two roots and two arrays. -/
inductive NodeId where
  | tarRoot
  | tar (i : Nat)
  | devRoot
  | dev (i : Nat)
  deriving DecidableEq, Repr

/-- `children` of `tarfs.c` and `dev_children`. -/
inductive TableId where
  | children
  | devChildren
  deriving DecidableEq, Repr

/-- What the `internal` of a vnode points to. -/
inductive Internal where
  | null
  | table (t : TableId)
  | data (address : U64)
  deriving DecidableEq, Repr

inductive VnodeOps where
  | tarOps
  | driver (n : Nat)
  deriving DecidableEq, Repr

structure VfsNode where
  name : CString
  size : U64
  ops : Option VnodeOps
  internal : Internal
  deriving DecidableEq, Repr

/-- `root` is the root of `root_mount`, when there is one. -/
structure Vfs where
  node : NodeId → VfsNode
  table : TableId → List (Option NodeId)
  root : Option NodeId

/-- Reads that are not the read of a child. -/
inductive Misread where
  | notDirectory
  | overrun
  deriving DecidableEq, Repr

def VfsNode.zero : VfsNode := ⟨[],0#64,none,.null⟩

def Vfs.zero : Vfs := ⟨fun _ => .zero,fun _ => List.replicate 64 none,none⟩

def Vfs.setNode (fs : Vfs) (id : NodeId) (node : VfsNode) : Vfs :=
  { fs with node := fun other => if other = id then node else fs.node other }

def Vfs.setTable (fs : Vfs) (t : TableId) (slots : List (Option NodeId)) : Vfs :=
  { fs with table := fun other => if other = t then slots else fs.table other }

/-- The children in front of the first NULL. -/
def entries : List (Option NodeId) → List NodeId
  | some child :: rest => child :: entries rest
  | _ => []

def TarNode.vnode (node : TarNode) : VfsNode := ⟨node.name,node.size,some .tarOps,.data node.internal⟩

/-- What `tarfs_init` stores after it has read `nodes`; old entries behind the NULL stay. -/
def tarfsMount (nodes : List TarNode) (fs : Vfs) : Vfs where
  node
    | .tarRoot => ⟨[slash],0#64,none,.table .children⟩
    | .tar i => (nodes[i]?.map TarNode.vnode).getD (fs.node (.tar i))
    | other => fs.node other
  table
    | .children => (List.range nodes.length).map (fun i => some (.tar i)) ++
        none :: (fs.table .children).drop (nodes.length + 1)
    | .devChildren => fs.table .devChildren
  root := some .tarRoot

def devfsInit (fs : Vfs) : Vfs where
  node
    | .dev _ => .zero
    | .devRoot => ⟨[0x64#8,0x65#8,0x76#8],0#64,none,.table .devChildren⟩
    | other => fs.node other
  table
    | .devChildren => List.replicate 64 none
    | .children => fs.table .children
  root := fs.root

def devfsRegister (name : CString) (ops : Option VnodeOps) (driver : Internal) (fs : Vfs) : Option NodeId × Vfs :=
  match (List.range 64).find? fun i => (fs.node (.dev i)).name = [] with
  | none => (none,fs)
  | some idx =>
    let slots := fs.table .devChildren
    let slots := match firstFree slots with
      | some i => slots.set i (some (.dev idx))
      | none => slots
    let fs := (fs.setNode (.dev idx) ⟨name.take 63,0#64,ops,driver⟩).setTable .devChildren slots
    (some (.dev idx),
      fs.setNode .devRoot { fs.node .devRoot with size := BitVec.ofNat 64 (entries slots).length })

def stripLeading : CString → CString
  | [] => []
  | c :: rest => if c = slash then rest else c :: rest

def replaceChild (fs : Vfs) (name : CString) (new : NodeId) :
    List (Option NodeId) → Except Misread (Option (List (Option NodeId)))
  | [] => .error .overrun
  | none :: _ => .ok none
  | some child :: rest =>
    if (fs.node child).name = name then .ok (some (some new :: rest))
    else (replaceChild fs name new rest).map (·.map (some child :: ·))

def mountChild (root : NodeId) (name : CString) (new : NodeId) (fs : Vfs) : Except Misread (Int × Vfs) :=
  match (fs.node root).internal with
  | .null => return (-1,fs)
  | .data _ => throw .notDirectory
  | .table t => do
    match ← replaceChild fs name new (fs.table t) with
    | some slots => return (0,fs.setTable t slots)
    | none => match firstFree (fs.table t) with
      | some i => return (0,fs.setTable t ((fs.table t).set i (some new)))
      | none => return (-1,fs)

def mountFs (path : Option CString) (new : Option NodeId) (fs : Vfs) : Except Misread (Int × Vfs) :=
  match new, fs.root, path with
  | none, _, _ => return (-1,fs)
  | some new, none, path => if path = some [slash] then return (0,{ fs with root := some new }) else return (-1,fs)
  | some new, some _, none => return (0,{ fs with root := some new })
  | some new, some root, some path =>
    if path = [slash] then return (0,{ fs with root := some new })
    else if slash ∈ stripLeading path then return (-1,fs)
    else mountChild root (stripLeading path) new fs

def stripTrailing (path : CString) : CString := if path.getLast? = some slash then path.dropLast else path

def searchTable (fs : Vfs) (name : CString) : List (Option NodeId) → Except Misread (Option NodeId)
  | [] => .error .overrun
  | none :: _ => .ok none
  | some child :: rest => if (fs.node child).name = name then .ok (some child) else searchTable fs name rest

/-- `internal` is taken for an array of children unless it is NULL. -/
def searchChildren (fs : Vfs) (node : NodeId) (name : CString) : Except Misread (Option NodeId) :=
  match (fs.node node).internal with
  | .null => .ok none
  | .data _ => .error .notDirectory
  | .table t => searchTable fs name (fs.table t)

/-- The component loop of `vfs_find_vnode`; every round takes at least one of `fuel` bytes. -/
def walkPath (fs : Vfs) : Nat → NodeId → CString → Except Misread (Option NodeId)
  | 0, node, _ => .ok (some node)
  | fuel + 1, node, path =>
    if path = [] then .ok (some node)
    else
      let component := path.takeWhile (· != slash)
      if component.length = 0 ∨ 64 ≤ component.length then .ok none
      else do
        match ← searchChildren fs node component with
        | none => return none
        | some found =>
          match path.dropWhile (· != slash) with
          | [] => return some found
          | _ :: rest => walkPath fs fuel found rest

def vfsFindVnode (fs : Vfs) (path : CString) : Except Misread (Option NodeId) :=
  match fs.root with
  | none => .ok none
  | some root =>
    let path := stripLeading path
    if path = [] then .ok (some root)
    else if 128 ≤ path.length then .ok none
    else do
      let tmp := stripTrailing path
      match ← searchChildren fs root tmp with
      | some child => return some child
      | none => walkPath fs tmp.length root tmp

def VfsNode.isDir (node : VfsNode) : Bool := node.ops = none ∧ node.internal ≠ .null

def vfsIsDir (fs : Vfs) (path : CString) : Except Misread Bool := do
  match ← vfsFindVnode fs path with
  | none => return false
  | some node => return (fs.node node).isDir

def countTable : List (Option NodeId) → Except Misread Int
  | [] => .error .overrun
  | none :: _ => .ok 0
  | some _ :: rest => (countTable rest).map (· + 1)

def vfsDirCount (fs : Vfs) (path : CString) : Except Misread Int := do
  match ← vfsFindVnode fs path with
  | none => return -1
  | some node =>
    match (fs.node node).internal with
    | .null => return -1
    | .data _ => .error .notDirectory
    | .table t => countTable (fs.table t)

/-- A directory has no operations and children in `internal`; anything else has operations and
the state of its driver there. -/
def VfsNode.Typed (node : VfsNode) : Prop :=
  match node.ops, node.internal with
  | none, .data _ => False
  | some _, .table _ => False
  | _, _ => True

/-- The trees that calls make, in any order. -/
inductive VfsBuilt : Vfs → Prop where
  | zero : VfsBuilt .zero
  | tar : VfsBuilt fs → tarfsInit image = .ok nodes → VfsBuilt (tarfsMount nodes fs)
  | devInit : VfsBuilt fs → VfsBuilt (devfsInit fs)
  | register : VfsBuilt fs → VfsNode.Typed ⟨name.take 63,0#64,ops,driver⟩ →
      VfsBuilt (devfsRegister name ops driver fs).2
  | mount : VfsBuilt fs → mountFs path new fs = .ok (result,next) → VfsBuilt next

structure NodeOk (node : VfsNode) : Prop where
  typed : node.Typed
  short : node.name.length ≤ 63

def VfsOk (fs : Vfs) : Prop := ∀ id, NodeOk (fs.node id)

variable {fs next : Vfs} {node child : NodeId} {nodes : List TarNode} {name : CString}

theorem tarLoop_short (returns : tarLoop image slots ptr = .ok nodes) :
    ∀ node ∈ nodes, node.name.length ≤ 63 := by
  induction slots generalizing ptr nodes with
  | zero => cases returns
  | succ slots ih =>
    obtain ⟨found,member,later⟩ := ok_of_bind returns
    rcases tarMember_cases member with ⟨_,_,rfl⟩ | ⟨_,_,_,_,_,_,_,short,_,rfl⟩
    · obtain rfl := Except.ok.inj later
      exact nofun
    · obtain ⟨others,next,later⟩ := ok_of_bind later
      obtain rfl := Except.ok.inj later
      exact List.forall_mem_cons.mpr ⟨short,ih next⟩

theorem VfsOk.tar (ok : VfsOk fs) (short : ∀ node ∈ nodes, node.name.length ≤ 63) :
    VfsOk (tarfsMount nodes fs) := by
  intro id
  cases id with
  | tarRoot => exact ⟨trivial,show 1 ≤ 63 by decide⟩
  | tar i =>
    cases found : nodes[i]? with
    | none =>
      have same : (tarfsMount nodes fs).node (.tar i) = fs.node (.tar i) := by simp [tarfsMount,found]
      rw [same]
      exact ok _
    | some node =>
      have same : (tarfsMount nodes fs).node (.tar i) = node.vnode := by simp [tarfsMount,found]
      rw [same]
      exact ⟨trivial,short node (List.mem_of_getElem? found)⟩
  | devRoot => exact ok _
  | dev i => exact ok _

theorem VfsOk.devInit (ok : VfsOk fs) : VfsOk (devfsInit fs) := by
  intro id
  cases id with
  | tarRoot => exact ok _
  | tar i => exact ok _
  | devRoot => exact ⟨trivial,show 3 ≤ 63 by decide⟩
  | dev i => exact ⟨trivial,Nat.zero_le _⟩

theorem vfsOk_zero : VfsOk .zero := fun _ => ⟨trivial,Nat.zero_le _⟩

theorem VfsOk.setNode (ok : VfsOk fs) (new : NodeOk value) : VfsOk (fs.setNode node value) := by
  intro id
  unfold Vfs.setNode
  dsimp only
  split
  · exact new
  · exact ok id

theorem VfsOk.register (ok : VfsOk fs) (typed : VfsNode.Typed ⟨name.take 63,0#64,ops,driver⟩) :
    VfsOk (devfsRegister name ops driver fs).2 := by
  unfold devfsRegister
  cases (List.range 64).find? fun i => (fs.node (.dev i)).name = [] with
  | none => exact ok
  | some idx =>
    have added : VfsOk (fs.setNode (.dev idx) ⟨name.take 63,0#64,ops,driver⟩) :=
      ok.setNode ⟨typed,List.length_take_le _ _⟩
    have root := added .devRoot
    exact VfsOk.setNode added ⟨root.typed,root.short⟩

/-- A mount below the root leaves every vnode and the root as they are. -/
theorem mountChild_same (returns : mountChild root name new fs = .ok (result,next)) :
    next.node = fs.node ∧ next.root = fs.root := by
  unfold mountChild at returns
  cases inside : (fs.node root).internal with
  | null =>
    rw [inside] at returns
    obtain ⟨_,rfl⟩ := ok_pair returns
    exact ⟨rfl,rfl⟩
  | data address =>
    rw [inside] at returns
    cases returns
  | table t =>
    rw [inside] at returns
    obtain ⟨replaced,_,returns⟩ := ok_of_bind returns
    cases replaced with
    | some slots =>
      obtain ⟨_,rfl⟩ := ok_pair returns
      exact ⟨rfl,rfl⟩
    | none =>
      dsimp only at returns
      split at returns <;> obtain ⟨_,rfl⟩ := ok_pair returns <;> exact ⟨rfl,rfl⟩

theorem mountFs_node (returns : mountFs path new fs = .ok (result,next)) : next.node = fs.node := by
  unfold mountFs at returns
  split at returns
  · obtain ⟨_,rfl⟩ := ok_pair returns
    rfl
  · split at returns <;> obtain ⟨_,rfl⟩ := ok_pair returns <;> rfl
  · obtain ⟨_,rfl⟩ := ok_pair returns
    rfl
  · split at returns
    · obtain ⟨_,rfl⟩ := ok_pair returns
      rfl
    split at returns
    · obtain ⟨_,rfl⟩ := ok_pair returns
      rfl
    · exact (mountChild_same returns).1

/-- Whatever calls built the tree, its vnodes are directories or not. -/
theorem VfsBuilt.ok (built : VfsBuilt fs) : VfsOk fs := by
  induction built with
  | zero => exact vfsOk_zero
  | tar _ read ih => exact ih.tar (tarLoop_short read)
  | devInit _ ih => exact ih.devInit
  | register _ typed ih => exact ih.register typed
  | mount _ returns ih =>
    intro id
    rw [mountFs_node returns]
    exact ih id

end Reddyos
