import Reddyos.ElfChunks
import Reddyos.VfsResolve

/-! Archives of regular files as `tar` writes them, and what `tarfs_init`, `vfs_find_vnode`
and `tar_read` make of them. -/
namespace Reddyos

open ByteMemory

/-- A regular file; `dotted` when it is stored with `./` in front of its name. -/
structure TarFile where
  name : CString
  content : List (BitVec 8)
  dotted : Bool
  named : name ≠ []
  short : name.length ≤ 63
  text : 0#8 ∉ name
  closed : name.getLast? ≠ some slash
  plain : ¬[0x2E#8,slash] <+: name
  small : content.length < 8^11

def TarFile.stored (file : TarFile) : CString := if file.dotted then 0x2E#8 :: slash :: file.name else file.name

/-- The last `digits` octal digits, the first one in front. -/
def octal : Nat → Nat → CString
  | 0, _ => []
  | digits + 1, n => octal digits (n / 8) ++ [BitVec.ofNat 8 (48 + n % 8)]

/-- The other fields of the header may hold anything. -/
structure HeaderOf (file : TarFile) (header : List (BitVec 8)) : Prop where
  length : header.length = 512
  name : (file.stored ++ [0#8]) <+: header
  size : (octal 11 file.content.length ++ [0#8]) <+: header.drop 124

def padded (n : Nat) : Nat := (n + 511) / 512 * 512

/-- A header and the padded data of every file, and a zero block. -/
inductive ArchiveOf : List TarFile → List (BitVec 8) → Prop where
  | close : ArchiveOf [] (List.replicate 512 0#8 ++ rest)
  | member : HeaderOf file header → (file.content ++ padding).length = padded file.content.length →
      ArchiveOf files rest → ArchiveOf (file :: files) (header ++ (file.content ++ padding) ++ rest)

def TarFile.header (file : TarFile) : List (BitVec 8) :=
  file.stored ++ List.replicate (124 - file.stored.length) 0#8 ++ octal 11 file.content.length ++ List.replicate 377 0#8

def tarWrite : List TarFile → List (BitVec 8)
  | [] => List.replicate 1024 0#8
  | file :: files =>
    file.header ++ (file.content ++ List.replicate (padded file.content.length - file.content.length) 0#8) ++ tarWrite files

variable {file : TarFile} {files : List TarFile} {header bytes : List (BitVec 8)} {image : TarImage} {ptr : U64}

@[simp]
theorem length_octal (digits n : Nat) : (octal digits n).length = digits := by
  induction digits generalizing n with
  | zero => rfl
  | succ digits ih => rw [octal,List.length_append,ih]; rfl

theorem TarFile.stored_length (file : TarFile) : file.stored.length ≤ 65 := by
  have short := file.short
  unfold TarFile.stored
  split
  · rw [List.length_cons,List.length_cons]
    omega
  · omega

theorem TarFile.header_of (file : TarFile) : HeaderOf file file.header := by
  have stored := file.stored_length
  have front : (file.stored ++ List.replicate (124 - file.stored.length) 0#8).length = 124 := by
    rw [List.length_append,List.length_replicate]
    omega
  refine ⟨?_,?_,?_⟩
  · unfold TarFile.header
    rw [List.length_append,List.length_append,front,length_octal,List.length_replicate]
  · obtain ⟨more,count⟩ : ∃ more, 124 - file.stored.length = more + 1 := ⟨123 - file.stored.length,by omega⟩
    unfold TarFile.header
    rw [count,List.replicate_succ]
    refine ⟨List.replicate more 0#8 ++ octal 11 file.content.length ++ List.replicate 377 0#8,?_⟩
    simp only [List.append_assoc,List.cons_append,List.nil_append]
  · unfold TarFile.header
    rw [List.append_assoc,List.drop_left' front,show 377 = 376 + 1 from rfl,List.replicate_succ]
    refine ⟨List.replicate 376 0#8,?_⟩
    rw [List.append_assoc,List.singleton_append]

theorem tarWrite_archive (files : List TarFile) : ArchiveOf files (tarWrite files) := by
  induction files with
  | nil =>
    have closes : ArchiveOf [] (List.replicate 512 0#8 ++ List.replicate 512 0#8) := .close
    rwa [List.replicate_append_replicate] at closes
  | cons file files ih =>
    refine .member file.header_of ?_ ih
    rw [List.length_append,List.length_replicate]
    unfold padded
    omega

theorem cString_text (text : 0#8 ∉ name) (rest : List (BitVec 8)) : cString (name ++ 0#8 :: rest) = some name := by
  induction name with
  | nil => rfl
  | cons c name ih =>
    rw [List.mem_cons,not_or] at text
    rw [List.cons_append,cString,if_neg (Ne.symm text.1),ih text.2]
    rfl

theorem tarName_plain (plain : ∀ rest, header ≠ 0x2E#8 :: 0x2F#8 :: rest) : tarName header = cString header := by
  unfold tarName
  split
  · exact absurd rfl (plain _)
  · rfl

/-- One `./` is taken away, and only one that was put there. -/
theorem TarFile.tarName_stored (file : TarFile) (rest : List (BitVec 8)) :
    tarName (file.stored ++ 0#8 :: rest) = some file.name := by
  unfold TarFile.stored
  split
  · exact cString_text file.text rest
  · rw [tarName_plain,cString_text file.text]
    intro tail same
    cases name : file.name with
    | nil => exact file.named name
    | cons c others =>
      rw [name,List.cons_append,List.cons.injEq] at same
      cases others with
      | nil => exact absurd (List.cons.inj same.2).1 (by decide)
      | cons d others =>
        rw [List.cons_append,List.cons.injEq] at same
        apply file.plain
        rw [name,same.1,same.2.1]
        exact ⟨others,rfl⟩

theorem digit_value (digit : Fin 8) : BitVec.ofNat 8 (48 + digit.val) ≠ 0#8 ∧
    (BitVec.ofNat 8 (48 + digit.val)).signExtend 64 - 48#64 = BitVec.ofNat 64 digit.val := by
  revert digit
  decide

theorem oct2bin_octal (digits : Nat) (small : n < 8^digits) (rest : List (BitVec 8)) :
    oct2bin 0#64 (octal digits n ++ rest) = oct2bin (BitVec.ofNat 64 n) rest := by
  induction digits generalizing n rest with
  | zero =>
    obtain rfl : n = 0 := by omega
    rfl
  | succ digits ih =>
    obtain ⟨live,value⟩ := digit_value ⟨n % 8,Nat.mod_lt _ (by decide)⟩
    rw [octal,List.append_assoc,ih (by rw [Nat.pow_succ] at small; omega)]
    rw [List.singleton_append,oct2bin,if_neg live,value]
    congr 1
    rw [← BitVec.ofNat_mul,← BitVec.ofNat_add]
    congr 1
    dsimp only
    omega

theorem TarFile.stored_first (file : TarFile) (rest : List (BitVec 8)) :
    ∃ c, (file.stored ++ 0#8 :: rest).head? = some c ∧ c ≠ 0#8 := by
  unfold TarFile.stored
  split
  · exact ⟨0x2E#8,rfl,by decide⟩
  · cases name : file.name with
    | nil => exact absurd name file.named
    | cons c others =>
      refine ⟨c,rfl,?_⟩
      rintro rfl
      apply file.text
      rw [name]
      exact List.mem_cons_self

theorem HeaderOf.tarMember (header_of : HeaderOf file header) (rest : List (BitVec 8)) (ptr : U64) :
    Reddyos.tarMember (header ++ rest) ptr =
      .ok (some ⟨file.name,BitVec.ofNat 64 file.content.length,ptr + 512#64⟩) := by
  obtain ⟨behindName,name⟩ := header_of.name
  obtain ⟨behindSize,size⟩ := header_of.size
  have front : header ++ rest = file.stored ++ 0#8 :: (behindName ++ rest) := by
    rw [← name,List.append_assoc,List.append_assoc,List.singleton_append]
  have back : (header ++ rest).drop 124 = octal 11 file.content.length ++ 0#8 :: (behindSize ++ rest) := by
    rw [List.drop_append_of_le_length (by rw [header_of.length]; decide),← size,List.append_assoc,List.append_assoc,
      List.singleton_append]
  obtain ⟨c,first,live⟩ := file.stored_first (behindName ++ rest)
  refine tarMember_member (by rw [front]; exact first) live ?_ file.short ?_
  · rw [front]
    exact file.tarName_stored _
  · rw [back,oct2bin_octal 11 file.small]
    rfl

structure TarNode.Holds (image : TarImage) (file : TarFile) (node : TarNode) : Prop where
  name : node.name = file.name
  size : node.size.toNat = file.content.length
  data : file.content <+: image.bytes.drop node.internal.toNat

theorem TarFile.toNat_size (file : TarFile) : (BitVec.ofNat 64 file.content.length).toNat = file.content.length := by
  have small := file.small
  rw [BitVec.toNat_ofNat]
  exact Nat.mod_eq_of_lt (by omega)

theorem ArchiveOf.tarLoop (archive : ArchiveOf files bytes) (here : image.bytes.drop ptr.toNat = bytes)
    (room : files.length < slots) :
    ∃ nodes, Reddyos.tarLoop image slots ptr = .ok nodes ∧ List.Forall₂ (TarNode.Holds image) files nodes := by
  induction archive generalizing ptr slots with
  | @close rest =>
    obtain ⟨slots,rfl⟩ : ∃ n, slots = n + 1 := ⟨slots - 1,by omega⟩
    refine ⟨[],?_,.nil⟩
    unfold Reddyos.tarLoop
    rw [here]
    rfl
  | @member file header padding files rest header_of block _ ih =>
    rw [List.length_cons] at room
    obtain ⟨slots,rfl⟩ : ∃ n, slots = n + 1 := ⟨slots - 1,by omega⟩
    have fits := image.fits
    have length := congrArg List.length here
    rw [List.length_drop,List.length_append,List.length_append,header_of.length,block] at length
    unfold padded at block length
    have size := file.toNat_size
    have start : (ptr + 512#64).toNat = ptr.toNat + 512 := by
      rw [BitVec.toNat_add]
      exact Nat.mod_eq_of_lt (by have : (512#64).toNat = 512 := rfl; omega)
    have next : image.bytes.drop (ptr + (512#64 + (BitVec.ofNat 64 file.content.length + 511#64) / 512#64 * 512#64)).toNat =
        rest := by
      rw [toNat_next (by omega),← List.drop_drop,here,size]
      apply List.drop_left'
      rw [List.length_append,header_of.length,block]
    have room : files.length < slots := by omega
    obtain ⟨nodes,returns,holds⟩ := ih next room
    refine ⟨⟨file.name,BitVec.ofNat 64 file.content.length,ptr + 512#64⟩ :: nodes,?_,.cons ⟨rfl,size,?_⟩ holds⟩
    · unfold Reddyos.tarLoop
      rw [here,List.append_assoc,header_of.tarMember]
      change (Reddyos.tarLoop image slots _ >>= _) = _
      rw [returns]
      rfl
    · dsimp only
      rw [start,← List.drop_drop,here,List.append_assoc,List.drop_left' header_of.length,List.append_assoc]
      exact List.prefix_append _ _

def Vfs.rootChildren (fs : Vfs) : List NodeId :=
  match fs.root with
  | none => []
  | some root => match (fs.node root).internal with
    | .table t => entries (fs.table t)
    | _ => []

theorem entries_some (ids : List NodeId) (rest : List (Option NodeId)) : entries (ids.map some ++ none :: rest) = ids := by
  induction ids with
  | nil => rfl
  | cons id ids ih => rw [List.map_cons,List.cons_append,entries,ih]

theorem tarfsMount_entries (nodes : List TarNode) (fs : Vfs) :
    entries ((tarfsMount nodes fs).table .children) = (List.range nodes.length).map .tar := by
  have ids := entries_some ((List.range nodes.length).map NodeId.tar) ((fs.table .children).drop (nodes.length + 1))
  rwa [List.map_map] at ids

theorem tarfsMount_node (found : nodes[i]? = some node) : (tarfsMount nodes fs).node (.tar i) = node.vnode := by
  simp [tarfsMount,found]

/-- With distinct names every node is the first of its name. -/
theorem tarfsMount_first (distinct : (nodes.map TarNode.name).Nodup) (found : nodes[i]? = some node) :
    ((List.range nodes.length).map NodeId.tar).find?
      (fun child => ((tarfsMount nodes fs).node child).name = node.name) = some (.tar i) := by
  obtain ⟨inside,_⟩ := List.getElem?_eq_some_iff.mp found
  have name : ∀ j < nodes.length, (nodes.map TarNode.name)[j]? = some ((tarfsMount nodes fs).node (.tar j)).name := by
    intro j bound
    rw [tarfsMount_node (List.getElem?_eq_getElem bound),List.getElem?_map,List.getElem?_eq_getElem bound]
    rfl
  have here : (nodes.map TarNode.name)[i]? = some node.name := by rw [List.getElem?_map,found]; rfl
  have index : (List.range nodes.length).find?
      ((fun child => decide (((tarfsMount nodes fs).node child).name = node.name)) ∘ NodeId.tar) = some i := by
    rw [List.find?_range_eq_some]
    refine ⟨?_,List.mem_range.mpr inside,?_⟩
    · have same := (name i inside).symm.trans here
      exact decide_eq_true (Option.some.inj same)
    · intro j before
      have other : ((tarfsMount nodes fs).node (.tar j)).name ≠ node.name := by
        intro same
        have twice : (nodes.map TarNode.name)[j]? = (nodes.map TarNode.name)[i]? := by
          rw [name j (by omega),here,same]
        have := (List.getElem?_inj (by rw [List.length_map]; omega) distinct).mp twice
        omega
      simpa using other
  rw [List.find?_map,index]
  rfl

theorem tarfsMount_find (distinct : (nodes.map TarNode.name).Nodup) (found : nodes[i]? = some node)
    (named : node.name ≠ []) (short : node.name.length ≤ 63) (closed : node.name.getLast? ≠ some slash) :
    vfsFindVnode (tarfsMount nodes fs) (slash :: node.name) = .ok (some (.tar i)) := by
  have lead : stripLeading (slash :: node.name) = node.name := by rw [stripLeading,if_pos rfl]
  have trail : stripTrailing node.name = node.name := if_neg closed
  have ends : none ∈ (tarfsMount nodes fs).table .children := List.mem_append_right _ List.mem_cons_self
  have searched : searchChildren (tarfsMount nodes fs) .tarRoot node.name = .ok (some (.tar i)) := by
    change searchTable _ _ ((tarfsMount nodes fs).table .children) = _
    rw [searchTable_ok (.inl ends),tarfsMount_entries,tarfsMount_first distinct found]
  rw [vfsFindVnode_short rfl (by rwa [lead]) (by rw [lead]; omega),lead,trail,searched]
  rfl

structure Backs (image : TarImage) (node : VfsNode) (vnode : Vnode) : Prop where
  size : vnode.size = node.size
  data : ∃ address, node.internal = .data address ∧ ∀ j, vnode.data j = image.bytes.getD (address.toNat + j) 0#8

/-- `tar_read` hands out the bytes of that range of the content, and nothing else. -/
def Yields (vnode : Vnode) (content : List (BitVec 8)) (offset size : U64) : Prop :=
  ∀ buffer m, tarRead vnode offset buffer size m =
    ((((content.drop offset.toNat).take size.toNat).length : Int),
      copy m buffer (fun j => ((content.drop offset.toNat).take size.toNat).getD j 0#8)
        ((content.drop offset.toNat).take size.toNat).length)

theorem copy_congr (same : ∀ j < n, data j = data' j) : copy m out data n = copy m out data' n := by
  funext b
  by_cases inside : out ≤ b ∧ b < out + n
  · rw [copy_inside inside.1 inside.2,copy_inside inside.1 inside.2,same _ (by omega)]
  · rw [copy_outside (by omega),copy_outside (by omega)]

theorem yields_of_holds (holds : TarNode.Holds image file node) (backs : Backs image node.vnode vnode)
    (small : size.toNat < 2^31) : Yields vnode file.content offset size := by
  intro buffer m
  obtain ⟨count,bytes,reads⟩ := tarRead_count vnode offset buffer m small
  obtain ⟨address,here,data⟩ := backs.data
  obtain rfl : node.internal = address := Internal.data.inj here
  obtain ⟨rest,content⟩ := holds.data
  have length : ((file.content.drop offset.toNat).take size.toNat).length = count.toNat := by
    rw [List.length_take,List.length_drop,bytes,backs.size,← holds.size]
    rfl
  rw [reads,length]
  congr 1
  apply copy_congr
  intro j less
  rw [← length,List.length_take,List.length_drop] at less
  have byte : image.bytes[node.internal.toNat + (offset.toNat + j)]? = file.content[offset.toNat + j]? := by
    rw [← List.getElem?_drop,← content,List.getElem?_append_left (by omega)]
  rw [data,List.getD_eq_getElem?_getD,List.getD_eq_getElem?_getD,byte,List.getElem?_take_of_lt (by omega),
    List.getElem?_drop]

theorem backs_vnode (image : TarImage) (node : TarNode) (fits : node.size.toNat ≤ 2^52) :
    Backs image node.vnode ⟨node.size,fun j => image.bytes.getD (node.internal.toNat + j) 0#8,fits⟩ :=
  ⟨rfl,node.internal,rfl,fun _ => rfl⟩

theorem names_of_holds (holds : List.Forall₂ (TarNode.Holds image) files nodes) :
    nodes.map TarNode.name = files.map TarFile.name := by
  induction holds with
  | nil => rfl
  | cons first _ ih => rw [List.map_cons,List.map_cons,first.name,ih]

/-- Every archive of up to 63 files comes back as it was written. -/
theorem tarfs_decodes (archive : ArchiveOf files image.bytes) (few : files.length ≤ 63)
    (distinct : (files.map TarFile.name).Nodup) (fs : Vfs) :
    ∃ nodes, tarfsInit image = .ok nodes ∧
      (tarfsMount nodes fs).rootChildren = (List.range files.length).map .tar ∧
      ∀ i file, files[i]? = some file →
        ((tarfsMount nodes fs).node (.tar i)).name = file.name ∧
        vfsFindVnode (tarfsMount nodes fs) (slash :: file.name) = .ok (some (.tar i)) ∧
        ((tarfsMount nodes fs).node (.tar i)).size.toNat = file.content.length ∧
        ∃ vnode, Backs image ((tarfsMount nodes fs).node (.tar i)) vnode ∧
          ∀ offset size, size.toNat < 2^31 → Yields vnode file.content offset size := by
  have loop : ∃ nodes, tarLoop image 64 0#64 = .ok nodes ∧ List.Forall₂ (TarNode.Holds image) files nodes :=
    archive.tarLoop rfl (by omega)
  obtain ⟨nodes,returns,holds⟩ := loop
  refine ⟨nodes,returns,?_,?_⟩
  · change entries ((tarfsMount nodes fs).table .children) = _
    rw [tarfsMount_entries,holds.length_eq]
  · intro i file listed
    obtain ⟨inside,here⟩ := List.getElem?_eq_some_iff.mp listed
    have bound : i < nodes.length := holds.length_eq ▸ inside
    have held := (List.forall₂_iff_get.mp holds).2 i inside bound
    have found : nodes[i]? = some (nodes.get ⟨i,bound⟩) := List.getElem?_eq_getElem bound
    rw [List.get_eq_getElem,here] at held
    generalize nodes.get ⟨i,bound⟩ = node at held found
    have small := file.small
    have path : vfsFindVnode (tarfsMount nodes fs) (slash :: node.name) = .ok (some (.tar i)) := by
      apply tarfsMount_find _ found
      · rw [held.name]
        exact file.named
      · rw [held.name]
        exact file.short
      · rw [held.name]
        exact file.closed
      · rw [names_of_holds holds]
        exact distinct
    rw [held.name] at path
    rw [tarfsMount_node found]
    refine ⟨held.name,path,held.size,_,backs_vnode image node (by rw [held.size]; omega),?_⟩
    exact fun offset size less => yields_of_holds held (backs_vnode image node _) less

def dottedFile : TarFile where
  name := [0x61#8]
  content := [1#8,2#8,3#8]
  dotted := true
  named := nofun
  short := by decide
  text := by decide
  closed := by decide
  plain := by decide
  small := by decide

def nestedFile : TarFile where
  name := [0x62#8,slash,0x63#8]
  content := List.replicate 600 7#8
  dotted := false
  named := nofun
  short := by decide
  text := by decide
  closed := by decide
  plain := by decide
  small := by rw [List.length_replicate]; decide

def twoImage : TarImage := ⟨tarWrite [dottedFile,nestedFile],by decide +kernel⟩

theorem tarfs_decodes_two : ∃ nodes, tarfsInit twoImage = .ok nodes ∧
    (tarfsMount nodes .zero).rootChildren = [.tar 0,.tar 1] ∧
    vfsFindVnode (tarfsMount nodes .zero) [slash,0x61#8] = .ok (some (.tar 0)) ∧
    vfsFindVnode (tarfsMount nodes .zero) [slash,0x62#8,slash,0x63#8] = .ok (some (.tar 1)) ∧
    ((tarfsMount nodes .zero).node (.tar 1)).size.toNat = 600 := by
  have archive : ArchiveOf [dottedFile,nestedFile] twoImage.bytes := tarWrite_archive _
  obtain ⟨nodes,returns,children,members⟩ := tarfs_decodes archive (by decide) (by decide) .zero
  obtain ⟨_,path,_⟩ := members 0 dottedFile rfl
  obtain ⟨_,path',size,_⟩ := members 1 nestedFile rfl
  exact ⟨nodes,returns,children,path,path',size.trans (List.length_replicate ..)⟩

end Reddyos
