import Reddyos.Vfs

/-! A reference for path lookup in which only directories have children, and the trees and
paths on which `vfs_find_vnode` agrees with it. -/
namespace Reddyos

def childOf (fs : Vfs) (node : NodeId) (name : CString) : Option NodeId :=
  if (fs.node node).isDir then
    match (fs.node node).internal with
    | .table t => (entries (fs.table t)).find? fun child => (fs.node child).name = name
    | _ => none
  else none

/-- A slash ends the component in front of it. -/
def components : CString → List CString
  | [] => []
  | c :: rest =>
    if c = slash then [] :: components rest
    else match components rest with
      | [] => [[c]]
      | first :: others => (c :: first) :: others

def descend (fs : Vfs) : NodeId → List CString → Option NodeId
  | node, [] => some node
  | node, name :: rest => if name = [] then none else (childOf fs node name).bind fun child => descend fs child rest

def resolve (fs : Vfs) (path : CString) : Option NodeId :=
  fs.root.bind fun root =>
    let path := stripTrailing (stripLeading path)
    if path = [] then some root
    else match childOf fs root path with
      | some child => some child
      | none => descend fs root (components path)

/-- A search for the name ends inside an array of children: the vnode is not a file or a
device, and the name or a NULL is in its array. -/
def Searchable (fs : Vfs) (node : NodeId) (name : CString) : Prop :=
  match (fs.node node).internal with
  | .null => True
  | .data _ => False
  | .table t => none ∈ fs.table t ∨ ∃ child ∈ entries (fs.table t), (fs.node child).name = name

/-- Every vnode on the way down can be searched for the next component. -/
def DescendOk (fs : Vfs) : NodeId → List CString → Prop
  | _, [] => True
  | node, name :: rest => name = [] ∨ 64 ≤ name.length ∨
      Searchable fs node name ∧ ∀ child, childOf fs node name = some child → DescendOk fs child rest

/-- For a path behind its leading slash. -/
structure FindOk (fs : Vfs) (root : NodeId) (path : CString) : Prop where
  search : Searchable fs root (stripTrailing path)
  only : stripTrailing path = [] → ∀ child, childOf fs root [] = some child → child = root
  below : childOf fs root (stripTrailing path) = none → DescendOk fs root (components (stripTrailing path))

/-- The tree can be searched along the path, and what is found has children or no `internal`. -/
structure PathOk (fs : Vfs) (path : CString) : Prop where
  long : 128 ≤ (stripLeading path).length → resolve fs path = none
  find : ∀ root, fs.root = some root → stripLeading path ≠ [] → (stripLeading path).length < 128 →
    FindOk fs root (stripLeading path)
  count : ∀ node, resolve fs path = some node → ∀ address, (fs.node node).internal ≠ .data address

variable {fs : Vfs} {node root child : NodeId} {name path : CString} {slots : List (Option NodeId)}

theorem VfsNode.Typed.isDir {node : VfsNode} (typed : node.Typed) : node.isDir = true ↔ ∃ t, node.internal = .table t := by
  obtain ⟨name,size,ops,internal⟩ := node
  cases ops <;> cases internal <;> simp_all [VfsNode.isDir,VfsNode.Typed]

theorem childOf_table (typed : (fs.node node).Typed) (inside : (fs.node node).internal = .table t) :
    childOf fs node name = (entries (fs.table t)).find? fun child => (fs.node child).name = name := by
  unfold childOf
  rw [if_pos (typed.isDir.mpr ⟨t,inside⟩),inside]

theorem childOf_other (other : ∀ t, (fs.node node).internal ≠ .table t) : childOf fs node name = none := by
  unfold childOf
  split
  · split
    · rename_i t inside
      exact absurd inside (other t)
    · rfl
  · rfl

theorem childOf_name (found : childOf fs node name = some child) : (fs.node child).name = name := by
  unfold childOf at found
  split at found
  · split at found
    · simpa using List.find?_some found
    · cases found
  · cases found

/-- The loop over an array that has the name or a NULL finds what the reference finds. -/
theorem searchTable_ok (ends : none ∈ slots ∨ ∃ child ∈ entries slots, (fs.node child).name = name) :
    searchTable fs name slots = .ok ((entries slots).find? fun child => (fs.node child).name = name) := by
  induction slots with
  | nil => rcases ends with impossible | ⟨_,impossible,_⟩ <;> cases impossible
  | cons slot rest ih =>
    cases slot with
    | none => rfl
    | some child =>
      unfold searchTable entries
      by_cases here : (fs.node child).name = name
      · rw [if_pos here,List.find?_cons_of_pos (by simpa using here)]
      · rw [if_neg here,List.find?_cons_of_neg (by simpa using here)]
        apply ih
        rcases ends with stop | ⟨other,listed,same⟩
        · exact .inl ((List.mem_cons.mp stop).resolve_left nofun)
        · rcases List.mem_cons.mp listed with rfl | later
          · exact absurd same here
          · exact .inr ⟨other,later,same⟩

theorem searchTable_overrun (ends : ¬(none ∈ slots ∨ ∃ child ∈ entries slots, (fs.node child).name = name)) :
    searchTable fs name slots = .error .overrun := by
  induction slots with
  | nil => rfl
  | cons slot rest ih =>
    cases slot with
    | none => exact absurd (.inl List.mem_cons_self) ends
    | some child =>
      unfold searchTable
      have other : (fs.node child).name ≠ name := fun same => ends (.inr ⟨child,List.mem_cons_self,same⟩)
      rw [if_neg other]
      apply ih
      rintro (stop | ⟨found,listed,same⟩)
      · exact ends (.inl (List.mem_cons_of_mem _ stop))
      · exact ends (.inr ⟨found,List.mem_cons_of_mem _ listed,same⟩)

theorem searchChildren_ok (typed : (fs.node node).Typed) (ok : Searchable fs node name) :
    searchChildren fs node name = .ok (childOf fs node name) := by
  unfold searchChildren
  unfold Searchable at ok
  cases inside : (fs.node node).internal with
  | null => rw [childOf_other fun t => by rw [inside]; nofun]
  | data address =>
    rw [inside] at ok
    exact ok.elim
  | table t =>
    rw [inside] at ok
    rw [childOf_table typed inside]
    exact searchTable_ok ok

theorem searchChildren_misread (bad : ¬Searchable fs node name) : ∃ misread, searchChildren fs node name = .error misread := by
  unfold searchChildren
  unfold Searchable at bad
  cases inside : (fs.node node).internal with
  | null =>
    rw [inside] at bad
    exact absurd trivial bad
  | data address => exact ⟨_,rfl⟩
  | table t =>
    rw [inside] at bad
    exact ⟨_,searchTable_overrun bad⟩

/-- The first component and what is left behind its slash. -/
theorem components_cons (some : path ≠ []) :
    components path = path.takeWhile (· != slash) ::
      match path.dropWhile (· != slash) with
      | [] => []
      | _ :: rest => components rest := by
  induction path with
  | nil => exact absurd rfl some
  | cons c rest ih =>
    rw [components]
    by_cases here : c = slash
    · rw [if_pos here,List.takeWhile_cons_of_neg (by simpa using here),List.dropWhile_cons_of_neg (by simpa using here)]
    · rw [if_neg here,List.takeWhile_cons_of_pos (by simpa using here),List.dropWhile_cons_of_pos (by simpa using here)]
      cases rest with
      | nil => rfl
      | cons d rest => rw [ih nofun]

theorem dropWhile_length (left : path.dropWhile (· != slash) = c :: rest) : rest.length < path.length := by
  have less := (List.dropWhile_suffix (l := path) (· != slash)).length_le
  rw [left,List.length_cons] at less
  exact less

theorem VfsOk.childOf_long (ok : VfsOk fs) (long : 64 ≤ name.length) : childOf fs node name = none := by
  cases found : childOf fs node name with
  | none => rfl
  | some child =>
    have short := (ok child).short
    rw [childOf_name found] at short
    omega

/-- One round of the component loop, as the reference goes down. -/
theorem walkPath_ok (ok : VfsOk fs) (bytes : path.length ≤ fuel) (clear : DescendOk fs node (components path)) :
    walkPath fs fuel node path = .ok (descend fs node (components path)) := by
  induction fuel generalizing node path with
  | zero =>
    obtain rfl := List.eq_nil_of_length_eq_zero (by omega : path.length = 0)
    rfl
  | succ fuel ih =>
    unfold walkPath
    by_cases empty : path = []
    · subst path
      rfl
    rw [if_neg empty]
    rw [components_cons empty] at clear ⊢
    unfold DescendOk at clear
    unfold descend
    dsimp only
    by_cases stop : (path.takeWhile (· != slash)).length = 0 ∨ 64 ≤ (path.takeWhile (· != slash)).length
    · rw [if_pos stop]
      split
      · rfl
      · rename_i named
        have long := stop.resolve_left fun none => named (List.eq_nil_of_length_eq_zero none)
        rw [ok.childOf_long long]
        rfl
    · obtain ⟨named,short⟩ := not_or.mp stop
      have named : path.takeWhile (· != slash) ≠ [] := fun none => named (by rw [none]; rfl)
      obtain ⟨searchable,below⟩ := (clear.resolve_left named).resolve_left short
      rw [if_neg stop,if_neg named,searchChildren_ok (ok node).typed searchable]
      cases found : childOf fs node (path.takeWhile (· != slash)) with
      | none => rfl
      | some child =>
        have below := below child found
        cases left : path.dropWhile (· != slash) with
        | nil => rfl
        | cons c rest =>
          rw [left] at below
          have less := dropWhile_length left
          exact ih (by omega) below

theorem walkPath_misread (ok : VfsOk fs) (bytes : path.length ≤ fuel) (blocked : ¬DescendOk fs node (components path)) :
    ∃ misread, walkPath fs fuel node path = .error misread := by
  induction fuel generalizing node path with
  | zero =>
    obtain rfl := List.eq_nil_of_length_eq_zero (by omega : path.length = 0)
    exact absurd trivial blocked
  | succ fuel ih =>
    unfold walkPath
    by_cases empty : path = []
    · subst path
      exact absurd trivial blocked
    rw [if_neg empty]
    rw [components_cons empty] at blocked
    unfold DescendOk at blocked
    obtain ⟨named,blocked⟩ := not_or.mp blocked
    obtain ⟨short,blocked⟩ := not_or.mp blocked
    have go : ¬((path.takeWhile (· != slash)).length = 0 ∨ 64 ≤ (path.takeWhile (· != slash)).length) :=
      not_or.mpr ⟨fun none => named (List.eq_nil_of_length_eq_zero none),short⟩
    dsimp only
    rw [if_neg go]
    by_cases searchable : Searchable fs node (path.takeWhile (· != slash))
    · rw [searchChildren_ok (ok node).typed searchable]
      obtain ⟨child,blocked⟩ := not_forall.mp fun below => blocked ⟨searchable,below⟩
      obtain ⟨found,blocked⟩ := Classical.not_imp.mp blocked
      rw [found]
      cases left : path.dropWhile (· != slash) with
      | nil =>
        rw [left] at blocked
        exact absurd trivial blocked
      | cons c rest =>
        rw [left] at blocked
        have less := dropWhile_length left
        exact ih (by omega) blocked
    · obtain ⟨misread,stops⟩ := searchChildren_misread searchable
      exact ⟨misread,by rw [stops]; rfl⟩

theorem vfsFindVnode_short (mounted : fs.root = some root) (named : stripLeading path ≠ [])
    (short : (stripLeading path).length < 128) :
    vfsFindVnode fs path = searchChildren fs root (stripTrailing (stripLeading path)) >>= fun
      | some child => return some child
      | none => walkPath fs (stripTrailing (stripLeading path)).length root (stripTrailing (stripLeading path)) := by
  unfold vfsFindVnode
  rw [mounted]
  exact (if_neg named).trans (if_neg (by omega))

theorem resolve_root (mounted : fs.root = some root) (trimmed : stripTrailing (stripLeading path) = []) :
    resolve fs path = some root := by
  unfold resolve
  rw [mounted,Option.bind_some]
  dsimp only
  rw [if_pos trimmed]

theorem resolve_below (mounted : fs.root = some root) (trimmed : stripTrailing (stripLeading path) ≠ []) :
    resolve fs path = match childOf fs root (stripTrailing (stripLeading path)) with
      | some child => some child
      | none => descend fs root (components (stripTrailing (stripLeading path))) := by
  unfold resolve
  rw [mounted,Option.bind_some]
  dsimp only
  rw [if_neg trimmed]

theorem find_short (ok : VfsOk fs) (mounted : fs.root = some root) (named : stripLeading path ≠ [])
    (short : (stripLeading path).length < 128) :
    vfsFindVnode fs path = .ok (resolve fs path) ↔ FindOk fs root (stripLeading path) := by
  rw [vfsFindVnode_short mounted named short]
  generalize trimmed : stripTrailing (stripLeading path) = tmp
  constructor
  · intro agrees
    have searchable : Searchable fs root tmp := by
      by_contra bad
      obtain ⟨misread,stops⟩ := searchChildren_misread bad
      rw [stops] at agrees
      cases agrees
    rw [searchChildren_ok (ok root).typed searchable] at agrees
    refine ⟨by rw [trimmed]; exact searchable,?_,?_⟩
    · rw [trimmed]
      rintro rfl child found
      rw [found,resolve_root mounted trimmed] at agrees
      exact Option.some.inj (Except.ok.inj agrees)
    · rw [trimmed]
      intro absent
      by_contra blocked
      obtain ⟨misread,stops⟩ := walkPath_misread ok (Nat.le_refl _) blocked
      rw [absent] at agrees
      change walkPath fs tmp.length root tmp = _ at agrees
      rw [stops] at agrees
      cases agrees
  · rintro ⟨searchable,only,below⟩
    rw [trimmed] at searchable only below
    rw [searchChildren_ok (ok root).typed searchable]
    by_cases empty : tmp = []
    · subst tmp
      rw [empty,resolve_root mounted empty]
      cases found : childOf fs root [] with
      | none => rfl
      | some child =>
        obtain rfl := only empty child found
        rfl
    · rw [resolve_below mounted (by rwa [trimmed]),trimmed]
      cases found : childOf fs root tmp with
      | none => exact walkPath_ok ok (Nat.le_refl _) (below found)
      | some child => rfl

theorem find_iff (ok : VfsOk fs) (path : CString) :
    vfsFindVnode fs path = .ok (resolve fs path) ↔
      (128 ≤ (stripLeading path).length → resolve fs path = none) ∧
      ∀ root, fs.root = some root → stripLeading path ≠ [] → (stripLeading path).length < 128 →
        FindOk fs root (stripLeading path) := by
  cases mounted : fs.root with
  | none =>
    have nowhere : resolve fs path = none := by rw [resolve,mounted]; rfl
    have finds : vfsFindVnode fs path = .ok none := by rw [vfsFindVnode,mounted]
    rw [nowhere,finds]
    exact ⟨fun _ => ⟨fun _ => rfl,nofun⟩,fun _ => rfl⟩
  | some root =>
    by_cases empty : stripLeading path = []
    · have finds : vfsFindVnode fs path = .ok (some root) := by
        rw [vfsFindVnode,mounted]
        exact if_pos empty
      rw [finds,resolve_root mounted (by rw [empty]; rfl),empty]
      exact ⟨fun _ => ⟨nofun,fun _ _ named => absurd rfl named⟩,fun _ => rfl⟩
    by_cases long : 128 ≤ (stripLeading path).length
    · have finds : vfsFindVnode fs path = .ok none := by
        rw [vfsFindVnode,mounted]
        dsimp only
        rw [if_neg empty,if_pos long]
      rw [finds]
      constructor
      · exact fun agrees => ⟨fun _ => (Except.ok.inj agrees).symm,fun _ _ _ short => absurd long (by omega)⟩
      · rintro ⟨nowhere,_⟩
        rw [nowhere long]
    · rw [find_short ok mounted empty (by omega)]
      constructor
      · rintro clear
        refine ⟨fun impossible => absurd impossible long,?_⟩
        rintro _ ⟨⟩ _ _
        exact clear
      · rintro ⟨_,clear⟩
        exact clear root rfl empty (by omega)

theorem countTable_directory (slots : List (Option NodeId)) : countTable slots ≠ .error .notDirectory := by
  induction slots with
  | nil => nofun
  | cons slot rest ih =>
    cases slot with
    | none => nofun
    | some child =>
      unfold countTable
      cases counted : countTable rest with
      | ok count => nofun
      | error misread =>
        rw [counted] at ih
        exact ih

theorem vfsDirCount_iff (finds : vfsFindVnode fs path = .ok found) :
    vfsDirCount fs path ≠ .error .notDirectory ↔
      ∀ node, found = some node → ∀ address, (fs.node node).internal ≠ .data address := by
  unfold vfsDirCount
  rw [finds]
  cases found with
  | none => exact ⟨nofun,nofun⟩
  | some node =>
    dsimp only [bind,Except.bind]
    cases inside : (fs.node node).internal with
    | null =>
      refine ⟨?_,nofun⟩
      rintro _ _ ⟨⟩
      rw [inside]
      nofun
    | table t =>
      refine ⟨?_,fun _ => countTable_directory _⟩
      rintro _ _ ⟨⟩
      rw [inside]
      nofun
    | data address =>
      refine ⟨fun other => absurd rfl other,fun other => ?_⟩
      exact absurd inside (other node rfl address)

/-- On every tree that calls have built, the lookup is the reference and no `internal` of a
file or device is read as children, exactly when the path stays clear of them. -/
theorem vfs_lookup_iff (built : VfsBuilt fs) (path : CString) :
    (vfsFindVnode fs path = .ok (resolve fs path) ∧ vfsDirCount fs path ≠ .error .notDirectory) ↔
      PathOk fs path := by
  constructor
  · rintro ⟨finds,counts⟩
    obtain ⟨long,find⟩ := (find_iff built.ok path).mp finds
    exact ⟨long,find,(vfsDirCount_iff finds).mp counts⟩
  · rintro ⟨long,find,count⟩
    have finds := (find_iff built.ok path).mpr ⟨long,find⟩
    exact ⟨finds,(vfsDirCount_iff finds).mpr count⟩

def fileImage : TarImage where
  bytes := 0x61#8 :: List.replicate 123 0#8 ++ List.replicate 11 0x30#8 ++ List.replicate 889 0#8
  fits := by
    rw [List.length_append,List.length_append,List.length_cons,List.length_replicate,List.length_replicate,
      List.length_replicate]
    omega

def bootTree : Vfs :=
  let fs := devfsInit (tarfsMount [⟨[0x61#8],0#64,512#64⟩] .zero)
  let fs := fs.setTable .children ((fs.table .children).set 1 (some .devRoot))
  (devfsRegister [0x74#8,0x74#8,0x79#8] (some (.driver 0)) .null fs).2

theorem fileImage_read : tarfsInit fileImage = .ok [⟨[0x61#8],0#64,512#64⟩] := by
  have read : (tarfsInit fileImage).toOption = some [⟨[0x61#8],0#64,512#64⟩] := by decide +kernel
  cases found : tarfsInit fileImage with
  | error stop =>
    rw [found] at read
    cases read
  | ok nodes =>
    rw [found] at read
    rw [Option.some.inj read]

theorem bootTree_built : VfsBuilt bootTree := by
  have files : VfsBuilt (devfsInit (tarfsMount [⟨[0x61#8],0#64,512#64⟩] .zero)) := .devInit (.tar .zero fileImage_read)
  have returns : ∃ fs, mountFs (some [slash,0x64#8,0x65#8,0x76#8]) (some .devRoot)
      (devfsInit (tarfsMount [⟨[0x61#8],0#64,512#64⟩] .zero)) = .ok (0,fs) ∧
      bootTree = (devfsRegister [0x74#8,0x74#8,0x79#8] (some (.driver 0)) .null fs).2 := ⟨_,rfl,rfl⟩
  obtain ⟨fs,mounts,built⟩ := returns
  rw [built]
  exact (files.mount mounts).register trivial

/-- `/dev/tty` is found. -/
theorem vfs_lookup_device : vfsFindVnode bootTree [slash,0x64#8,0x65#8,0x76#8,slash,0x74#8,0x74#8,0x79#8] = .ok (some (.dev 0)) ∧
    PathOk bootTree [slash,0x64#8,0x65#8,0x76#8,slash,0x74#8,0x74#8,0x79#8] := by
  refine ⟨by rfl,?_⟩
  exact (vfs_lookup_iff bootTree_built _).mp ⟨by rfl,by nofun⟩

/-- The path `/a/b` reads the bytes of the file `a` as vnodes. -/
theorem vfs_lookup_file : VfsBuilt bootTree ∧
    ¬(vfsFindVnode bootTree [slash,0x61#8,slash,0x62#8] = .ok (resolve bootTree [slash,0x61#8,slash,0x62#8]) ∧
      vfsDirCount bootTree [slash,0x61#8,slash,0x62#8] ≠ .error .notDirectory) := by
  have stops : vfsFindVnode bootTree [slash,0x61#8,slash,0x62#8] = .error .notDirectory := by rfl
  refine ⟨bootTree_built,?_⟩
  rintro ⟨finds,_⟩
  rw [stops] at finds
  cases finds

end Reddyos
