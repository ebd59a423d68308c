import Reddyos.Pmm

/-! The tar file system of `filesystem/fs/tarfs/tarfs.c` on an arbitrary image. An access
outside the image or outside one of the tables stops the model. -/
namespace Reddyos

/-- The bytes of a boot module, which lies in the upper half of the address space. -/
structure TarImage where
  bytes : List (BitVec 8)
  fits : bytes.length ≤ 2^47

/-- A `vnode_t` of the archive; `internal` is counted from the start of the image. -/
structure TarNode where
  name : List (BitVec 8)
  size : U64
  internal : U64
  deriving DecidableEq, Repr

/-- The string in front of a list of bytes, when it is terminated there. -/
def cString : List (BitVec 8) → Option (List (BitVec 8))
  | [] => none
  | c :: rest => if c = 0#8 then some [] else (cString rest).map (c :: ·)

/-- `char` is signed, so a digit outside `0..7` may also count down. -/
def oct2bin (value : U64) : List (BitVec 8) → Option U64
  | [] => none
  | c :: rest => if c = 0#8 then some value else oct2bin (value * 8#64 + (c.signExtend 64 - 48#64)) rest

/-- The name of a header, without one `./` in front. -/
def tarName : List (BitVec 8) → Option (List (BitVec 8))
  | 0x2E#8 :: 0x2F#8 :: rest => cString rest
  | header => cString header

/-- One round of `tarfs_init` at the bytes behind `ptr`: none when the archive ends there. -/
def tarMember (header : List (BitVec 8)) (ptr : U64) : Except Stop (Option TarNode) :=
  match header with
  | [] => throw .undefined
  | c :: _ =>
    if c = 0#8 then return none
    else match oct2bin 0#64 (header.drop 124),tarName header with
      | some size,some name =>
        if name.length < 64 then return some ⟨name,size,ptr + 512#64⟩
        else throw .undefined
      | _,_ => throw .undefined

/-- The loop of `tarfs_init` with the slots left in `nodes` and `children`. A full table has
no room for the NULL that ends it. -/
def tarLoop (image : TarImage) : Nat → U64 → Except Stop (List TarNode)
  | 0, _ => throw .undefined
  | slots + 1, ptr => do
    match ← tarMember (image.bytes.drop ptr.toNat) ptr with
    | none => return []
    | some node =>
      let full := (node.size + 511#64) / 512#64 * 512#64
      let rest ← tarLoop image slots (ptr + (512#64 + full))
      return node :: rest

/-- The children of the root, in order. -/
def tarfsInit (image : TarImage) : Except Stop (List TarNode) := tarLoop image 64 0#64

/-- At most `n` members and then a NUL byte. A member has a name of at most 63 bytes, a size
that is terminated, and all its data inside the image. -/
inductive TarFormat : Nat → List (BitVec 8) → Prop where
  | stop : TarFormat n (0#8 :: rest)
  | member {bytes : List (BitVec 8)} : bytes.head? = some c → c ≠ 0#8 → tarName bytes = some name → name.length ≤ 63 →
      oct2bin 0#64 (bytes.drop 124) = some size → 512 + size.toNat ≤ bytes.length →
      TarFormat n (bytes.drop (512 + (size.toNat + 511) / 512 * 512)) → TarFormat (n + 1) bytes

/-- The data of a node lie inside the image. -/
def TarNode.Inside (image : TarImage) (node : TarNode) : Prop :=
  node.internal.toNat + node.size.toNat ≤ image.bytes.length

instance (image : TarImage) (node : TarNode) : Decidable (node.Inside image) :=
  inferInstanceAs (Decidable (_ ≤ _))

variable {image : TarImage} {ptr size : U64} {node : TarNode} {nodes : List TarNode} {slots : Nat}
variable {header bytes : List (BitVec 8)}

theorem tarMember_cases (returns : tarMember header ptr = .ok found) :
    (∃ rest, header = 0#8 :: rest ∧ found = none) ∨
      ∃ c rest name size, header = c :: rest ∧ c ≠ 0#8 ∧ tarName header = some name ∧ name.length ≤ 63 ∧
        oct2bin 0#64 (header.drop 124) = some size ∧ found = some ⟨name,size,ptr + 512#64⟩ := by
  unfold tarMember at returns
  cases header with
  | nil => cases returns
  | cons c rest =>
    dsimp only at returns
    split at returns
    · rename_i stop
      exact .inl ⟨rest,by rw [stop],(Except.ok.inj returns).symm⟩
    · rename_i live
      split at returns
      · rename_i size name octal named
        split at returns
        · rename_i short
          exact .inr ⟨c,rest,name,size,rfl,live,named,by omega,octal,(Except.ok.inj returns).symm⟩
        · cases returns
      · cases returns

theorem tarMember_member (first : header.head? = some c) (live : c ≠ 0#8) (named : tarName header = some name)
    (short : name.length ≤ 63) (octal : oct2bin 0#64 (header.drop 124) = some size) :
    tarMember header ptr = .ok (some ⟨name,size,ptr + 512#64⟩) := by
  cases header with
  | nil => cases first
  | cons d rest =>
    obtain rfl := Option.some.inj first
    unfold tarMember
    dsimp only
    rw [if_neg live,octal,named]
    dsimp only
    rw [if_pos (by omega)]
    rfl

/-- Data inside the image put the next header behind them, without wrapping. -/
theorem toNat_next (fits : ptr.toNat + 512 + size.toNat ≤ 2^47) :
    (ptr + (512#64 + (size + 511#64) / 512#64 * 512#64)).toNat =
      ptr.toNat + (512 + (size.toNat + 511) / 512 * 512) := by
  have number : (512#64).toNat = 512 := rfl
  have sum : (size + 511#64).toNat = size.toNat + 511 := by
    rw [BitVec.toNat_add]
    exact Nat.mod_eq_of_lt (by have : (511#64).toNat = 511 := rfl; omega)
  have full : ((size + 511#64) / 512#64 * 512#64).toNat = (size.toNat + 511) / 512 * 512 := by
    rw [BitVec.toNat_mul,BitVec.toNat_udiv,sum,number]
    exact Nat.mod_eq_of_lt (by omega)
  rw [BitVec.toNat_add,BitVec.toNat_add,full,number]
  omega

/-- A loop that returns with all data inside has read an archive. -/
theorem tarLoop_format (returns : tarLoop image slots ptr = .ok nodes)
    (inside : ∀ node ∈ nodes, node.Inside image) :
    ∃ n, slots = n + 1 ∧ TarFormat n (image.bytes.drop ptr.toNat) := by
  induction slots generalizing ptr nodes with
  | zero => cases returns
  | succ slots ih =>
    refine ⟨slots,rfl,?_⟩
    obtain ⟨found,member,later⟩ := ok_of_bind returns
    rcases tarMember_cases member with ⟨rest,here,rfl⟩ | ⟨c,rest,name,size,here,live,named,short,octal,rfl⟩
    · rw [here]
      exact .stop
    · obtain ⟨others,next,later⟩ := ok_of_bind later
      obtain rfl := Except.ok.inj later
      have length := image.fits
      have occupied : ptr.toNat < image.bytes.length := by
        have size := congrArg List.length here
        rw [List.length_drop,List.length_cons] at size
        omega
      have data := inside _ List.mem_cons_self
      unfold TarNode.Inside at data
      dsimp only at data
      have moved : (ptr + 512#64).toNat = ptr.toNat + 512 := by
        rw [BitVec.toNat_add]
        exact Nat.mod_eq_of_lt (by have : (512#64).toNat = 512 := rfl; omega)
      obtain ⟨n,rfl,format⟩ := ih next fun node listed => inside node (List.mem_cons_of_mem _ listed)
      dsimp only at format
      rw [toNat_next (by omega),← List.drop_drop] at format
      exact .member (by rw [here]; rfl) live named short octal (by rw [List.length_drop]; omega) format

/-- On an archive the loop returns, with all data inside. -/
theorem TarFormat.tarLoop {n : Nat} (format : TarFormat n bytes) (here : image.bytes.drop ptr.toNat = bytes) :
    ∃ nodes, Reddyos.tarLoop image (n + 1) ptr = .ok nodes ∧ ∀ node ∈ nodes, node.Inside image := by
  induction format generalizing ptr with
  | stop =>
    refine ⟨[],?_,nofun⟩
    unfold Reddyos.tarLoop
    rw [here]
    rfl
  | @member c name size n bytes first live named short octal data _ ih =>
    have length := image.fits
    have total := congrArg List.length here
    rw [List.length_drop] at total
    have behind : image.bytes.drop (ptr + (512#64 + (size + 511#64) / 512#64 * 512#64)).toNat =
        bytes.drop (512 + (size.toNat + 511) / 512 * 512) := by
      rw [toNat_next (by omega),← here,List.drop_drop]
    obtain ⟨rest,returns,inside⟩ := ih behind
    refine ⟨⟨name,size,ptr + 512#64⟩ :: rest,?_,?_⟩
    · unfold Reddyos.tarLoop
      rw [here,tarMember_member first live named short octal]
      change (Reddyos.tarLoop image (n + 1) _ >>= _) = _
      rw [returns]
      rfl
    · intro node listed
      rcases List.mem_cons.mp listed with rfl | old
      · have moved : (ptr + 512#64).toNat = ptr.toNat + 512 := by
          rw [BitVec.toNat_add]
          exact Nat.mod_eq_of_lt (by have : (512#64).toNat = 512 := rfl; omega)
        unfold TarNode.Inside
        dsimp only
        omega
      · exact inside node old

/-- `tarfs_init` stays inside the image and its tables exactly on archives of at most 63
members. -/
theorem tarfs_safe_iff (image : TarImage) :
    (∃ nodes, tarfsInit image = .ok nodes ∧ ∀ node ∈ nodes, node.Inside image) ↔ TarFormat 63 image.bytes := by
  constructor
  · rintro ⟨nodes,returns,inside⟩
    obtain ⟨n,count,format⟩ := tarLoop_format returns inside
    obtain rfl : n = 63 := by omega
    exact format
  · exact fun format => format.tarLoop rfl

def longNameImage : TarImage where
  bytes := List.replicate 64 0x61#8 ++ List.replicate 60 0#8 ++ List.replicate 11 0x30#8 ++
    List.replicate 377 0#8 ++ List.replicate 512 0#8
  fits := by
    rw [List.length_append,List.length_append,List.length_append,List.length_append,List.length_replicate,
      List.length_replicate,List.length_replicate,List.length_replicate,List.length_replicate]
    omega

/-- The terminator of its name is written behind the name of the vnode. -/
theorem tarfs_long_name :
    ¬∃ nodes, tarfsInit longNameImage = .ok nodes ∧ ∀ node ∈ nodes, node.Inside longNameImage := by
  have stops : (tarfsInit longNameImage).toOption = none := by decide +kernel
  rintro ⟨nodes,returns,_⟩
  rw [returns] at stops
  cases stops

end Reddyos
