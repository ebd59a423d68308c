import Reddyos.DirArrays
import Mathlib.Data.List.TakeWhile

/-! What `vfs_find_vnode` finds after `mount_fs` has put a vnode below the root of the tar
archive. -/
namespace Reddyos

open SlotTable Transitions

/-- The archive is the root, its members are short of 64, and its array is that of no other vnode. -/
structure TarRooted (fs : Vfs) : Prop where
  root : fs.root = some .tarRoot
  array : (fs.node .tarRoot).internal = .table .children
  name : (fs.node .tarRoot).name = [slash]
  filled : FrontFilled (fs.table .children)
  nodes : VfsOk fs
  own : ∀ id, (fs.node id).internal = .table .children → id = .tarRoot

def SingleComponent (path : CString) : Prop := stripLeading path ≠ [] ∧ slash ∉ stripLeading path

def BelowMount (point path : CString) : Prop :=
  (stripTrailing (stripLeading path)).takeWhile (· != slash) = stripLeading point

structure MountedAs (fs next : Vfs) (name : CString) (new : NodeId) : Prop where
  node : next.node = fs.node
  root : next.root = fs.root
  others : ∀ t, t ≠ .children → next.table t = fs.table t
  search : ∀ other, (entries (next.table .children)).find? (fun child => (fs.node child).name = other) =
    if other = name then some new else (entries (fs.table .children)).find? fun child => (fs.node child).name = other

variable {fs next : Vfs} {new node child : NodeId} {name path point : CString} {slots after : List (Option NodeId)}
variable {children : List NodeId} {fuel : Nat}

theorem replaceChild_find (named : (fs.node new).name = name)
    (replaced : replaceChild fs name new slots = .ok (some after)) (other : CString) :
    (entries after).find? (fun child => (fs.node child).name = other) =
      if other = name then some new else (entries slots).find? fun child => (fs.node child).name = other := by
  induction slots generalizing after with
  | nil => cases replaced
  | cons slot rest ih =>
    cases slot with
    | none => cases replaced
    | some child =>
      unfold replaceChild at replaced
      by_cases here : (fs.node child).name = name
      · rw [if_pos here] at replaced
        obtain rfl := Option.some.inj (Except.ok.inj replaced)
        unfold entries
        by_cases same : other = name
        · rw [if_pos same,List.find?_cons_of_pos (by simpa [same] using named)]
        · rw [if_neg same,List.find?_cons_of_neg (by simpa [named] using Ne.symm same),
            List.find?_cons_of_neg (by simpa [here] using Ne.symm same)]
      · rw [if_neg here] at replaced
        cases later : replaceChild fs name new rest with
        | error misread =>
          rw [later] at replaced
          cases replaced
        | ok result =>
          cases result with
          | none =>
            rw [later] at replaced
            cases replaced
          | some found =>
            rw [later] at replaced
            obtain rfl := Option.some.inj (Except.ok.inj replaced)
            unfold entries
            by_cases first : (fs.node child).name = other
            · have different : other ≠ name := fun same => here (first.trans same)
              rw [if_neg different,List.find?_cons_of_pos (by simpa using first),
                List.find?_cons_of_pos (by simpa using first)]
            · rw [List.find?_cons_of_neg (by simpa using first),List.find?_cons_of_neg (by simpa using first)]
              exact ih later

theorem append_find (named : (fs.node new).name = name) (absent : ∀ child ∈ children, (fs.node child).name ≠ name)
    (other : CString) :
    (children ++ [new]).find? (fun child => (fs.node child).name = other) =
      if other = name then some new else children.find? fun child => (fs.node child).name = other := by
  rw [List.find?_append]
  by_cases same : other = name
  · have nowhere : children.find? (fun child => (fs.node child).name = other) = none := by
      rw [List.find?_eq_none]
      intro child listed
      simpa [same] using absent child listed
    rw [if_pos same,nowhere,Option.none_or,List.find?_cons_of_pos (by simpa [same] using named)]
  · rw [if_neg same,List.find?_cons_of_neg (by simpa [named] using Ne.symm same),List.find?_nil,Option.or_none]

/-- A vnode that is mounted under its own name. -/
theorem TarRooted.mounted (rooted : TarRooted fs) (single : SingleComponent path)
    (named : (fs.node new).name = stripLeading path) (mounts : mountFs (some path) (some new) fs = .ok (0,next)) :
    MountedAs fs next (stripLeading path) new := by
  have below : path ≠ [slash] := by
    rintro rfl
    exact single.1 rfl
  unfold mountFs at mounts
  rw [rooted.root] at mounts
  dsimp only at mounts
  rw [if_neg below,if_neg single.2] at mounts
  unfold mountChild at mounts
  rw [rooted.array] at mounts
  obtain ⟨room,whole⟩ := rooted.filled
  obtain ⟨replaced,search,mounts⟩ := ok_of_bind mounts
  cases replaced with
  | some after =>
    obtain ⟨_,rfl⟩ := ok_pair mounts
    refine ⟨rfl,rfl,fun t other => setTable_other other,fun other => ?_⟩
    rw [setTable_same]
    exact replaceChild_find named search other
  | none =>
    have absent : ∀ child ∈ entries (fs.table .children), (fs.node child).name ≠ stripLeading path := by
      rw [whole] at search
      rcases replaceChild_packed fs room (stripLeading path) new with ⟨_,absent⟩ | ⟨_,found,_⟩
      · exact absent
      · rw [found] at search
        cases search
    have free := firstFree_packed room
    rw [← whole] at free
    rw [free] at mounts
    obtain ⟨_,rfl⟩ := ok_pair mounts
    refine ⟨rfl,rfl,fun t other => setTable_other other,fun other => ?_⟩
    have put : (fs.table .children).set (entries (fs.table .children)).length (some new) =
        packed 64 (entries (fs.table .children) ++ [new]) := by
      rw [← packed_set room,← whole]
    rw [setTable_same,put,entries_packed]
    exact append_find named absent other

theorem searchTable_congr (same : next.node = fs.node) (slots : List (Option NodeId)) :
    searchTable next name slots = searchTable fs name slots := by
  induction slots with
  | nil => rfl
  | cons slot rest ih =>
    cases slot with
    | none => rfl
    | some child =>
      unfold searchTable
      rw [same,ih]

theorem searchTable_name (found : searchTable fs name slots = .ok (some child)) : (fs.node child).name = name := by
  induction slots with
  | nil => cases found
  | cons slot rest ih =>
    cases slot with
    | none => cases found
    | some first =>
      unfold searchTable at found
      split at found
      · rename_i here
        obtain rfl := Option.some.inj (Except.ok.inj found)
        exact here
      · exact ih found

theorem searchChildren_name (found : searchChildren fs node name = .ok (some child)) : (fs.node child).name = name := by
  unfold searchChildren at found
  cases inside : (fs.node node).internal with
  | null =>
    rw [inside] at found
    cases found
  | data address =>
    rw [inside] at found
    cases found
  | table t =>
    rw [inside] at found
    exact searchTable_name found

/-- No path leads back to the root of the archive. -/
theorem TarRooted.below (rooted : TarRooted fs) (plain : slash ∉ name)
    (found : searchChildren fs node name = .ok (some child)) : child ≠ .tarRoot := by
  rintro rfl
  have same := searchChildren_name found
  rw [rooted.name] at same
  rw [← same] at plain
  exact plain List.mem_cons_self

theorem TarRooted.childOf (rooted : TarRooted fs) (name : CString) :
    childOf fs .tarRoot name = (entries (fs.table .children)).find? fun child => (fs.node child).name = name :=
  childOf_table (rooted.nodes .tarRoot).typed rooted.array

theorem TarRooted.search (rooted : TarRooted fs) (name : CString) :
    searchChildren fs .tarRoot name = .ok (Reddyos.childOf fs .tarRoot name) := by
  refine searchChildren_ok (rooted.nodes .tarRoot).typed ?_
  unfold Searchable
  rw [rooted.array]
  exact .inl rooted.filled.terminated.null

theorem MountedAs.search_root (rooted : TarRooted fs) (mounted : MountedAs fs next point new)
    (ends : Terminated (next.table .children)) (name : CString) :
    searchChildren next .tarRoot name = .ok (if name = point then some new else childOf fs .tarRoot name) := by
  unfold searchChildren
  rw [mounted.node,rooted.array]
  dsimp only
  rw [searchTable_ok (.inl ends.null),mounted.node,mounted.search,rooted.childOf]

theorem MountedAs.search_other (rooted : TarRooted fs) (mounted : MountedAs fs next point new)
    (other : node ≠ .tarRoot) (name : CString) : searchChildren next node name = searchChildren fs node name := by
  unfold searchChildren
  rw [mounted.node]
  cases inside : (fs.node node).internal with
  | null => rfl
  | data address => rfl
  | table t =>
    have apart : t ≠ .children := by
      rintro rfl
      exact other (rooted.own node inside)
    change searchTable next name (next.table t) = searchTable fs name (fs.table t)
    rw [mounted.others t apart]
    exact searchTable_congr mounted.node _

theorem slash_takeWhile (path : CString) : slash ∉ path.takeWhile (· != slash) := by
  intro listed
  simpa using List.mem_takeWhile_imp listed

theorem MountedAs.walk_other (rooted : TarRooted fs) (mounted : MountedAs fs next point new)
    (other : node ≠ .tarRoot) : walkPath next fuel node path = walkPath fs fuel node path := by
  induction fuel generalizing node path with
  | zero => rfl
  | succ fuel ih =>
    unfold walkPath
    dsimp only
    rw [mounted.search_other rooted other]
    cases search : searchChildren fs node (path.takeWhile (· != slash)) with
    | error misread => rfl
    | ok result =>
      cases result with
      | none => rfl
      | some found =>
        have deeper : ∀ rest, walkPath next fuel found rest = walkPath fs fuel found rest :=
          fun rest => ih (rooted.below (slash_takeWhile path) search)
        cases left : path.dropWhile (· != slash) with
        | nil => rfl
        | cons c rest =>
          dsimp only [bind,Except.bind]
          rw [deeper rest]

theorem MountedAs.walk_root (rooted : TarRooted fs) (mounted : MountedAs fs next point new)
    (ends : Terminated (next.table .children)) (apart : path.takeWhile (· != slash) ≠ point) :
    walkPath next fuel .tarRoot path = walkPath fs fuel .tarRoot path := by
  cases fuel with
  | zero => rfl
  | succ fuel =>
    unfold walkPath
    dsimp only
    rw [mounted.search_root rooted ends,if_neg apart,rooted.search]
    cases search : childOf fs .tarRoot (path.takeWhile (· != slash)) with
    | none => rfl
    | some found =>
      have deeper : found ≠ .tarRoot := by
        have finds := rooted.search (path.takeWhile (· != slash))
        rw [search] at finds
        exact rooted.below (slash_takeWhile path) finds
      cases left : path.dropWhile (· != slash) with
      | nil => rfl
      | cons c rest =>
        dsimp only [bind,Except.bind]
        rw [mounted.walk_other rooted deeper]

theorem takeWhile_plain (plain : slash ∉ name) (rest : CString) :
    (name ++ slash :: rest).takeWhile (· != slash) = name ∧ (name ++ slash :: rest).dropWhile (· != slash) = slash :: rest := by
  have all : ∀ c ∈ name, (c != slash) = true := by
    intro c listed
    simpa using ne_of_mem_of_not_mem listed plain
  rw [List.takeWhile_append_of_pos all,List.dropWhile_append_of_pos all]
  exact ⟨by simp,by simp⟩

theorem takeWhile_whole (plain : slash ∉ name) :
    name.takeWhile (· != slash) = name ∧ name.dropWhile (· != slash) = [] := by
  have all : ∀ c ∈ name, (c != slash) = true := by
    intro c listed
    simpa using ne_of_mem_of_not_mem listed plain
  exact ⟨List.takeWhile_eq_self_iff.mpr all,List.dropWhile_eq_nil_iff.mpr all⟩

theorem stripTrailing_plain (given : name ≠ []) (plain : slash ∉ name) (front : CString) :
    stripTrailing (front ++ name) = front ++ name := by
  unfold stripTrailing
  rw [if_neg]
  intro last
  rw [List.getLast?_append_of_ne_nil _ given] at last
  exact plain (List.mem_of_getLast? last)

theorem stripLeading_append (given : path ≠ []) (rest : CString) : stripLeading (path ++ rest) = stripLeading path ++ rest := by
  cases path with
  | nil => exact absurd rfl given
  | cons c path =>
    rw [List.cons_append]
    unfold stripLeading
    dsimp only
    split <;> rfl

theorem walk_last (rooted : TarRooted fs) (mounted : MountedAs fs next point new) (other : node ≠ .tarRoot)
    (given : name ≠ []) (plain : slash ∉ name) (found : childOf fs node name = some child) (bytes : name.length ≤ fuel) :
    walkPath next fuel node name = .ok (some child) := by
  have short := (rooted.nodes child).short
  rw [childOf_name found] at short
  have long : 0 < name.length := List.length_pos_iff.mpr given
  obtain ⟨fuel,rfl⟩ : ∃ n, fuel = n + 1 := ⟨fuel - 1,by omega⟩
  obtain ⟨first,left⟩ := takeWhile_whole plain
  have searchable : Searchable fs node name := by
    unfold Searchable
    cases inside : (fs.node node).internal with
    | null => trivial
    | data address =>
      rw [childOf_other (fun t => by rw [inside]; nofun)] at found
      cases found
    | table t =>
      rw [childOf_table (rooted.nodes node).typed inside] at found
      exact .inr ⟨child,List.mem_of_find?_eq_some found,by simpa using List.find?_some found⟩
  unfold walkPath
  dsimp only
  rw [if_neg given,first,left,if_neg (by omega),mounted.search_other rooted other,
    searchChildren_ok (rooted.nodes node).typed searchable,found]
  rfl

def TarStart (fs : Vfs) : Prop := ∃ nodes : List TarNode, nodes.length ≤ 63 ∧ (∀ node ∈ nodes, node.name.length ≤ 63) ∧
  fs = devfsInit (tarfsMount nodes .zero)

def KeepsRoot : DirCall → Prop
  | .mount path _ => ∃ below, path = some below ∧ below ≠ [slash]
  | .register name ops driver => VfsNode.Typed ⟨name.take 63,0#64,ops,driver⟩ ∧ driver ≠ .table .children

theorem tarRooted_start (begins : TarStart fs) : TarRooted fs ∧ ∀ t, FrontFilled (fs.table t) := by
  obtain ⟨nodes,few,short,rfl⟩ := begins
  have filled := dirStart_filled ⟨nodes,few,rfl⟩
  refine ⟨⟨rfl,rfl,rfl,filled _,(vfsOk_zero.tar short).devInit,?_⟩,filled⟩
  intro id inside
  cases id with
  | tarRoot => rfl
  | tar i =>
    change ((nodes[i]?.map TarNode.vnode).getD VfsNode.zero).internal = _ at inside
    cases found : nodes[i]? with
    | none =>
      rw [found] at inside
      cases inside
    | some node =>
      rw [found] at inside
      cases inside
  | devRoot => cases inside
  | dev i => cases inside

theorem TarRooted.register (rooted : TarRooted fs) (filled : ∀ t, FrontFilled (next.table t))
    (keeps : KeepsRoot (.register name ops driver)) (moves : DirStep fs (.register name ops driver) next) : TarRooted next := by
  obtain ⟨_,returns⟩ := moves
  have nodes : VfsOk next := by
    have kept := rooted.nodes.register keeps.1
    rwa [returns] at kept
  unfold devfsRegister at returns
  split at returns
  · cases returns
  · rename_i idx _
    obtain ⟨_,rfl⟩ := Prod.mk.inj returns
    refine ⟨rooted.root,rooted.array,rooted.name,filled _,nodes,fun id inside => ?_⟩
    simp only [Vfs.setNode,Vfs.setTable] at inside
    split at inside
    · exact absurd (rooted.own .devRoot inside) (by decide)
    split at inside
    · exact absurd inside keeps.2
    · exact rooted.own id inside

theorem TarRooted.mount (rooted : TarRooted fs) (filled : ∀ t, FrontFilled (next.table t)) (below : path ≠ [slash])
    (moves : DirStep fs (.mount (some path) mounting) next) : TarRooted next := by
  have same : next.node = fs.node ∧ next.root = fs.root := by
    cases mounting with
    | none => exact absurd (ok_pair moves).1 (by decide)
    | some new =>
      unfold DirStep mountFs at moves
      rw [rooted.root] at moves
      dsimp only at moves
      rw [if_neg below] at moves
      split at moves
      · exact absurd (ok_pair moves).1 (by decide)
      · exact mountChild_same moves
  obtain ⟨node,root⟩ := same
  refine ⟨root.trans rooted.root,?_,?_,filled _,fun id => ?_,fun id => ?_⟩ <;> rw [node]
  · exact rooted.array
  · exact rooted.name
  · exact rooted.nodes id
  · exact rooted.own id

theorem rooted_run (run : Run TarStart DirStep (fun fs call => KeepsRoot call ∧ FewEntries fs call) calls fs) : TarRooted fs := by
  refine (run.invariant (fun _ fs => TarRooted fs ∧ ∀ t, FrontFilled (fs.table t)) (fun _ => tarRooted_start) ?_).1
  rintro calls fs call next ⟨rooted,filled⟩ ⟨keeps,few⟩ moves
  cases call with
  | mount path mounting =>
    have after := (mount_keeps filled moves).2 few
    obtain ⟨below,rfl,under⟩ := keeps
    exact ⟨rooted.mount after under moves,after⟩
  | register name ops driver =>
    have after := (register_keeps filled moves).2 few
    exact ⟨rooted.register after keeps moves,after⟩

/-- What is mounted is found under its own name. -/
theorem MountedAs.find (rooted : TarRooted fs) (mounted : MountedAs fs next (stripLeading point) new)
    (single : SingleComponent point) (named : (fs.node new).name = stripLeading point)
    (ends : Terminated (next.table .children)) : vfsFindVnode next point = .ok (some new) := by
  have root : next.root = some .tarRoot := mounted.root.trans rooted.root
  have short := (rooted.nodes new).short
  rw [named] at short
  have whole := stripTrailing_plain single.1 single.2 []
  rw [List.nil_append] at whole
  rw [vfsFindVnode_short root single.1 (by omega),whole,mounted.search_root rooted ends,if_pos rfl]
  rfl

/-- Its children are found below it, behind a member of the archive of the whole name. -/
theorem MountedAs.find_child (rooted : TarRooted fs) (mounted : MountedAs fs next (stripLeading point) new)
    (single : SingleComponent point) (named : (fs.node new).name = stripLeading point)
    (ends : Terminated (next.table .children)) (given : name ≠ []) (plain : slash ∉ name) (found : childOf fs new name = some child) :
    vfsFindVnode next (point ++ slash :: name) =
      .ok (some ((childOf fs .tarRoot (stripLeading point ++ slash :: name)).getD child)) := by
  have root : next.root = some .tarRoot := mounted.root.trans rooted.root
  have short := (rooted.nodes new).short
  rw [named] at short
  have childShort := (rooted.nodes child).short
  rw [childOf_name found] at childShort
  have start : point ≠ [] := by
    rintro rfl
    exact single.1 rfl
  have path : stripLeading (point ++ slash :: name) = stripLeading point ++ slash :: name := stripLeading_append start _
  have whole : stripTrailing (stripLeading point ++ slash :: name) = stripLeading point ++ slash :: name := by
    have last := stripTrailing_plain given plain (stripLeading point ++ [slash])
    rwa [List.append_assoc] at last
  have length : (stripLeading point ++ slash :: name).length = (stripLeading point).length + name.length + 1 := by
    rw [List.length_append,List.length_cons]
    omega
  have different : stripLeading point ++ slash :: name ≠ stripLeading point := by
    intro same
    have := congrArg List.length same
    omega
  have live : stripLeading point ++ slash :: name ≠ [] := by simp
  rw [vfsFindVnode_short root (by rw [path]; exact live) (by rw [path]; omega),path,whole,
    mounted.search_root rooted ends,if_neg different]
  cases childOf fs .tarRoot (stripLeading point ++ slash :: name) with
  | some member => rfl
  | none =>
    obtain ⟨first,left⟩ := takeWhile_plain single.2 name
    have other : new ≠ .tarRoot := by
      rintro rfl
      rw [rooted.name] at named
      exact single.2 (named ▸ List.mem_cons_self)
    have positive : 0 < (stripLeading point).length := List.length_pos_iff.mpr single.1
    change walkPath next (stripLeading point ++ slash :: name).length .tarRoot _ = _
    rw [length]
    unfold walkPath
    dsimp only
    rw [if_neg live,first,left,if_neg (by omega),mounted.search_root rooted ends,if_pos rfl]
    exact walk_last rooted mounted other given plain found (by omega)

/-- Paths that lead elsewhere lead where they led. -/
theorem MountedAs.find_other (rooted : TarRooted fs) (mounted : MountedAs fs next (stripLeading point) new)
    (single : SingleComponent point) (ends : Terminated (next.table .children)) (apart : ¬BelowMount point path) :
    vfsFindVnode next path = vfsFindVnode fs path := by
  have root : next.root = some .tarRoot := mounted.root.trans rooted.root
  by_cases empty : stripLeading path = []
  · unfold vfsFindVnode
    rw [root,rooted.root]
    dsimp only
    rw [if_pos empty,if_pos empty]
  by_cases long : 128 ≤ (stripLeading path).length
  · unfold vfsFindVnode
    rw [root,rooted.root]
    dsimp only
    rw [if_neg empty,if_pos long,if_neg empty,if_pos long]
  have other : stripTrailing (stripLeading path) ≠ stripLeading point := by
    intro same
    refine apart ?_
    unfold BelowMount
    rw [same]
    exact (takeWhile_whole single.2).1
  rw [vfsFindVnode_short root empty (by omega),vfsFindVnode_short rooted.root empty (by omega),
    mounted.search_root rooted ends,if_neg other,rooted.search,mounted.walk_root rooted ends apart]

/-- A vnode mounted under its own name is found there, and its children below it unless the archive has
a member of that whole name; everything else is found as before. -/
theorem mount_then_lookup (rooted : TarRooted fs) (single : SingleComponent point)
    (named : (fs.node new).name = stripLeading point) (mounts : mountFs (some point) (some new) fs = .ok (0,next))
    (ends : Terminated (next.table .children)) :
    vfsFindVnode next point = .ok (some new) ∧
    (∀ name child, name ≠ [] → slash ∉ name → childOf fs new name = some child →
      vfsFindVnode next (point ++ slash :: name) =
        .ok (some ((childOf fs .tarRoot (stripLeading point ++ slash :: name)).getD child))) ∧
    ∀ path, ¬BelowMount point path → vfsFindVnode next path = vfsFindVnode fs path := by
  have mounted := rooted.mounted single named mounts
  refine ⟨mounted.find rooted single named ends,fun name child given plain found => ?_,fun path apart => ?_⟩
  · exact mounted.find_child rooted single named ends given plain found
  · exact mounted.find_other rooted single ends apart

def memberTree (name : CString) : Vfs := devfsInit (tarfsMount [⟨name,0#64,512#64⟩] .zero)

def withDevice (fs : Vfs) : Vfs := (devfsRegister [0x78#8] (some (.driver 0)) .null fs).2

theorem withDevice_rooted (short : name.length ≤ 63) :
    TarRooted (withDevice (memberTree name)) ∧ ∀ t, FrontFilled ((withDevice (memberTree name)).table t) := by
  obtain ⟨rooted,filled⟩ : TarRooted (memberTree name) ∧ ∀ t, FrontFilled ((memberTree name).table t) :=
    tarRooted_start ⟨[⟨name,0#64,512#64⟩],show 1 ≤ 63 by decide,by simpa using short,rfl⟩
  have moves : DirStep (memberTree name) (.register [0x78#8] (some (.driver 0)) .null) (withDevice (memberTree name)) := ⟨.dev 0,rfl⟩
  have few : FewEntries (memberTree name) (.register [0x78#8] (some (.driver 0)) .null) := show 0 < 63 by decide
  have after := (register_keeps filled moves).2 few
  have keeps : KeepsRoot (.register [0x78#8] (some (.driver 0)) .null) := ⟨trivial,by decide⟩
  exact ⟨rooted.register after keeps moves,after⟩

theorem withDevice_terminated (short : name.length ≤ 63)
    (mounts : mountFs (some devPath) (some .devRoot) (withDevice (memberTree name)) = .ok (0,next)) :
    Terminated (next.table .children) := by
  refine ((mount_keeps (withDevice_rooted short).2 mounts).2 ?_ .children).terminated
  intro t _
  cases t with
  | children => exact show 1 < 63 by decide
  | devChildren => exact show 1 < 63 by decide

/-- A member stored as `dev/x` hides the device `x`. -/
theorem mount_hides_child : ¬∀ fs point new next, TarRooted fs → SingleComponent point → (fs.node new).isDir = true →
    (fs.node new).name = stripLeading point → mountFs (some point) (some new) fs = .ok (0,next) →
    Terminated (next.table .children) →
    ∀ name child, name ≠ [] → slash ∉ name → childOf fs new name = some child →
      vfsFindVnode next (point ++ slash :: name) = .ok (some child) := by
  intro always
  let member : CString := [0x64#8,0x65#8,0x76#8,slash,0x78#8]
  obtain ⟨next,mounts,finds⟩ : ∃ next, mountFs (some devPath) (some .devRoot) (withDevice (memberTree member)) = .ok (0,next) ∧
      vfsFindVnode next (devPath ++ [slash,0x78#8]) = .ok (some (.tar 0)) := ⟨_,rfl,rfl⟩
  have short : member.length ≤ 63 := by decide
  have hidden := always (withDevice (memberTree member)) devPath .devRoot next (withDevice_rooted short).1
    ⟨by decide,by decide⟩ rfl rfl mounts (withDevice_terminated short mounts) [0x78#8] (.dev 0) (by decide) (by decide) rfl
  rw [show vfsFindVnode next (devPath ++ slash :: [0x78#8]) = _ from finds] at hidden
  cases hidden

/-- The device `x` below `/dev`. -/
theorem mount_then_lookup_device : ∃ next,
    mountFs (some devPath) (some .devRoot) (withDevice (memberTree [0x61#8])) = .ok (0,next) ∧
    vfsFindVnode next (devPath ++ [slash,0x78#8]) = .ok (some (.dev 0)) := by
  obtain ⟨next,mounts⟩ : ∃ next, mountFs (some devPath) (some .devRoot) (withDevice (memberTree [0x61#8])) = .ok (0,next) :=
    ⟨_,rfl⟩
  have short : ([0x61#8] : CString).length ≤ 63 := by decide
  obtain ⟨_,below,_⟩ := mount_then_lookup (withDevice_rooted short).1 ⟨by decide,by decide⟩ rfl mounts
    (withDevice_terminated short mounts)
  exact ⟨next,mounts,below [0x78#8] (.dev 0) (by decide) (by decide) rfl⟩

end Reddyos
