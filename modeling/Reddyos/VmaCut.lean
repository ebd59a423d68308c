import Reddyos.VmaLookup

/-! What inserting an area does to the tree, and what `munmap` leaves of an area. -/
namespace Reddyos

open OrderedTree

theorem set_same (a : Areas) (p : Nat) (vma : Area) : (a.set p vma).area p = vma := by simp [Areas.set]

theorem set_other (a : Areas) (vma : Area) (different : q ≠ p) : (a.set p vma).area q = a.area q := by
  simp [Areas.set,different]

def Areas.push (a : Areas) (vma : Area) : Areas := { a.set a.fresh vma with fresh := a.fresh + 1 }

theorem Numbered.push (numbered : Numbered a) (vma : Area) :
    ∀ p ∈ a.list, (a.push vma).area p = a.area p :=
  fun p member => set_other a vma (Nat.ne_of_lt (numbered p member))

theorem InOrder.push (inOrder : InOrder a) (numbered : Numbered a) (vma : Area) : InOrder (a.push vma) := by
  have same := numbered.push vma
  refine ⟨?_,?_⟩
  · intro p member
    rw [same p member]
    exact inOrder.nonempty p member
  · refine List.Pairwise.imp_of_mem ?_ inOrder.apart
    intro p q first second before
    rw [same p first,same q second]
    exact before

theorem VmaInv.push (inv : VmaInv a) (vma : Area) :
    VmaInv (a.push vma) ∧ (a.push vma).area a.fresh = vma ∧
      ∀ p ∈ a.list, (a.push vma).area p = a.area p := by
  have numbered : Numbered a := inv.fresh
  have same := numbered.push vma
  refine ⟨⟨?_,(inv.inOrder.push numbered vma).apart,?_⟩,set_same a _ vma,same⟩
  · intro p member
    rw [same p member]
    exact inv.ok p member
  · exact fun p member => Nat.lt_succ_of_lt (inv.fresh p member)

/-- An area that overlaps none joins the tree. -/
theorem VmaInv.insert {ft : Ftrees} (lawful : Lawful ft.ops) (inv : VmaInv a) (new : AreaOk vma)
    (free : ∀ p ∈ a.list, vma.stop.toNat ≤ (a.area p).start.toNat ∨ (a.area p).stop.toNat ≤ vma.start.toNat) :
    VmaInv (vmaInsert ft a.fresh (a.push vma)) ∧
      ∀ p, p ∈ (vmaInsert ft a.fresh (a.push vma)).list ↔ p = a.fresh ∨ p ∈ a.list := by
  obtain ⟨pushed,newest,same⟩ := inv.push vma
  have nonempty := new.nonempty
  have keyNew : (a.push vma).key a.fresh = vma.start.toNat := by simp only [Areas.key,newest]
  have key : ∀ p ∈ a.list, (a.push vma).key p = (a.area p).start.toNat :=
    fun p member => by simp only [Areas.key,same p member]
  have different : ∀ p ∈ inorder (a.push vma).tree, (a.push vma).key p ≠ (a.push vma).key a.fresh := by
    intro p member
    rw [keyNew,key p member]
    have := (inv.ok p member).nonempty
    rcases free p member with above | below <;> omega
  have mem : ∀ p, p ∈ (vmaInsert ft a.fresh (a.push vma)).list ↔ p = a.fresh ∨ p ∈ a.list :=
    fun _ => lawful.mem_insert pushed.sorted different
  refine ⟨⟨?_,?_,?_⟩,mem⟩
  · intro p member
    rcases (mem p).mp member with rfl | old
    · change AreaOk ((a.push vma).area a.fresh)
      rw [newest]
      exact new
    · exact pushed.ok p old
  · change List.Pairwise (fun p q => ((a.push vma).area p).stop.toNat ≤ ((a.push vma).area q).start.toNat) _
    refine lawful.pairwise_insert pushed.sorted different pushed.apart ?_ ?_ ?_
    · intro p member below
      rw [keyNew,key p member] at below
      rw [newest,same p member]
      rcases free p member with later | earlier <;> omega
    · intro p member above
      rw [keyNew,key p member] at above
      rw [newest,same p member]
      have := (inv.ok p member).nonempty
      rcases free p member with later | earlier <;> omega
    · intro p _ q _ before behind
      rw [newest] at before behind
      omega
  · intro p member
    rcases (mem p).mp member with rfl | old
    · exact Nat.lt_succ_self _
    · exact pushed.fresh p old

structure NewArea (file : Option VmaFile) (addr len : U64) (vma : Area) : Prop where
  start : vma.start = addr
  stop : vma.stop = addr + len
  physPages : vma.physPages = []
  type : vma.type = if file.isSome then .file else .anon

theorem mmapRegion_cases {ft : Ftrees}
    (mapped : mmapRegion ft file addr len vmFlags pgoff block a = (result,a')) :
    (∃ f, file = some f ∧ f.vmaFault = false ∧ result = .error .enodev ∧ a' = a) ∨
      (∀ f, file = some f → f.vmaFault = true) ∧ result = .ok addr ∧
        ∃ vma, NewArea file addr len vma ∧ a' = vmaInsert ft a.fresh (a.push vma) := by
  unfold mmapRegion at mapped
  dsimp only at mapped
  split at mapped
  · rename_i f
    split at mapped
    · rename_i missing
      obtain ⟨rfl,rfl⟩ := Prod.mk.inj mapped
      exact .inl ⟨f,rfl,by simpa using missing,rfl,rfl⟩
    · rename_i device
      obtain ⟨rfl,rfl⟩ := Prod.mk.inj mapped
      refine .inr ⟨?_,rfl,_,⟨rfl,rfl,rfl,rfl⟩,rfl⟩
      rintro _ ⟨⟩
      simpa using device
  · obtain ⟨rfl,rfl⟩ := Prod.mk.inj mapped
    exact .inr ⟨nofun,rfl,_,⟨rfl,rfl,rfl,rfl⟩,rfl⟩

/-- How an area that loses `[addr,addr + len)` goes on: destroyed, shortened, or split. -/
inductive Cut (a : Areas) (p : Nat) (addr len block : U64) (before after : List Nat) :
    Bool → Areas → Prop where
  | whole : addr = (a.area p).start → addr.toNat + len.toNat = (a.area p).stop.toNat →
      a'.list = before ++ after → a'.fresh = a.fresh →
      a'.area = (a.set p (trimArea (a.area p) addr len)).area → Cut a p addr len block before after true a'
  | head : addr = (a.area p).start → addr.toNat + len.toNat < (a.area p).stop.toNat →
      a'.list = before ++ p :: after → a'.fresh = a.fresh →
      a'.area = (a.set p (trimArea (a.area p) addr len)).area → Cut a p addr len block before after false a'
  | tail : (a.area p).start.toNat < addr.toNat → addr.toNat + len.toNat = (a.area p).stop.toNat →
      a'.list = before ++ p :: after → a'.fresh = a.fresh →
      a'.area = (a.set p (trimArea (a.area p) addr len)).area → Cut a p addr len block before after false a'
  | middle : (a.area p).start.toNat < addr.toNat → addr.toNat + len.toNat < (a.area p).stop.toNat →
      a'.list = before ++ p :: a.fresh :: after → a'.fresh = a.fresh + 1 →
      a'.area = ((a.push (tailArea (a.area p) addr len block)).set p (trimArea (a.area p) addr len)).area →
      Cut a p addr len block before after false a'

theorem trimArea_head (vma : Area) (len : U64) : (trimArea vma vma.start len).start = vma.start + len ∧
    (trimArea vma vma.start len).stop = vma.stop := by simp [trimArea]

theorem trimArea_tail {vma : Area} (len : U64) (different : addr ≠ vma.start) :
    trimArea vma addr len = { vma with stop := addr } := by simp [trimArea,different]

theorem trimArea_above (len : U64) (above : vma.start.toNat < addr.toNat) :
    trimArea vma addr len = { vma with stop := addr } :=
  trimArea_tail len fun same => absurd (congrArg BitVec.toNat same) (by omega)

theorem munmapAreas_found (returns : munmapAreas ft addr len block a = some (p,removed,a')) :
    vmaFind ft a addr = some p := by
  unfold munmapAreas at returns
  split at returns
  · cases returns
  · rename_i q found
    dsimp only at returns
    split at returns
    · cases returns
    · have named : ∀ (c : Prop) [Decidable c] (x y : Areas),
          (if c then some (q,true,x) else some (q,false,y)) = some (p,removed,a') → q = p := by
        intro c _ x y chosen
        split at chosen <;> exact (Prod.mk.inj (Option.some.inj chosen)).1
      rw [found,named _ _ _ returns]

theorem Cut.inside (cut : Cut a p addr len block before after removed a') :
    addr.toNat + len.toNat ≤ (a.area p).stop.toNat := by
  cases cut <;> omega

theorem Cut.low (cut : Cut a p addr len block before after removed a') :
    (a.area p).start.toNat ≤ addr.toNat := by
  cases cut with
  | whole first => exact (congrArg BitVec.toNat first).ge
  | head first => exact (congrArg BitVec.toNat first).ge
  | tail above => exact above.le
  | middle above => exact above.le

theorem InOrder.member (inOrder : InOrder a) (split : a.list = before ++ p :: after) :
    (∀ q ∈ before, q ≠ p ∧ (a.area q).stop.toNat ≤ (a.area p).start.toNat) ∧
      ∀ q ∈ after, q ≠ p ∧ (a.area p).stop.toNat ≤ (a.area q).start.toNat := by
  have apart := inOrder.apart
  have nodup := inOrder.nodup
  rw [split] at apart nodup
  obtain ⟨_,tail,across⟩ := List.pairwise_append.mp apart
  obtain ⟨_,unique,separate⟩ := List.nodup_append.mp nodup
  refine ⟨?_,?_⟩
  · exact fun q early => ⟨separate q early p (by simp),across q early p (by simp)⟩
  · intro q late
    refine ⟨?_,(List.pairwise_cons.mp tail).1 q late⟩
    rintro rfl
    exact (List.nodup_cons.mp unique).1 late

/-- An area that starts inside `p` joins the tree right behind it. -/
theorem InOrder.insert_behind {ft : Ftrees} (lawful : Lawful ft.ops) (inOrder : InOrder a) (numbered : Numbered a)
    (split : a.list = before ++ p :: after) (above : (a.area p).start.toNat < vma.start.toNat)
    (below : vma.start.toNat < (a.area p).stop.toNat) :
    (vmaInsert ft a.fresh (a.push vma)).list = before ++ p :: a.fresh :: after := by
  have keyNew : (a.push vma).key a.fresh = vma.start.toNat := by
    rw [Areas.key,show (a.push vma).area a.fresh = vma from set_same a _ _]
  have keyOld : ∀ r ∈ a.list, (a.push vma).key r = (a.area r).start.toNat :=
    fun r member => by simp only [Areas.key,numbered.push vma r member]
  refine lawful.insert_after split (inOrder.push numbered vma).sorted ?_ ?_
  · rw [keyNew,keyOld p (by simp [split])]
    exact above
  · intro r later
    have behind := ((inOrder.member split).2 r later).2
    rw [keyNew,keyOld r (by simp [split,later])]
    omega

/-- Everything `munmap_region` can do to the areas when the sum does not wrap. -/
theorem munmapAreas_cases {ft : Ftrees} (lawful : Lawful ft.ops) (inOrder : InOrder a) (numbered : Numbered a)
    (sum : (addr + len).toNat = addr.toNat + len.toNat)
    (returns : munmapAreas ft addr len block a = some (p,removed,a')) :
    ∃ before after, a.list = before ++ p :: after ∧ Cut a p addr len block before after removed a' := by
  unfold munmapAreas at returns
  split at returns
  · cases returns
  rename_i q found
  obtain ⟨before,after,split,low,high⟩ := vmaFind_some lawful.lookup inOrder found
  have member : q ∈ a.list := by simp [split]
  dsimp only at returns
  split at returns
  · cases returns
  rename_i inside
  rw [not_or,BitVec.not_lt,BitVec.not_lt,BitVec.le_def,BitVec.le_def,sum] at inside
  obtain ⟨_,fits⟩ := inside
  by_cases first : addr = (a.area q).start
  -- the head goes, perhaps with all the rest
  · have notMiddle : ¬((a.area q).start < addr ∧ addr + len < (a.area q).stop) := by
      rintro ⟨less,_⟩
      rw [first] at less
      exact absurd less (by simp)
    have edges := trimArea_head (a.area q) len
    rw [← first] at edges
    rw [if_neg notMiddle,set_same,edges.1,edges.2] at returns
    split at returns
    · rename_i empty
      rw [BitVec.le_def,sum] at empty
      simp only [Option.some.injEq,Prod.mk.injEq] at returns
      obtain ⟨rfl,rfl,rfl⟩ := returns
      refine ⟨before,after,split,.whole first (by omega) ?_ rfl rfl⟩
      exact lawful.remove_at split inOrder.nodup
    · rename_i rest
      rw [BitVec.le_def,sum,Nat.not_le] at rest
      simp only [Option.some.injEq,Prod.mk.injEq] at returns
      obtain ⟨rfl,rfl,rfl⟩ := returns
      exact ⟨before,after,split,.head first rest split rfl rfl⟩
  · have above : (a.area q).start.toNat < addr.toNat := by
      have : addr.toNat ≠ (a.area q).start.toNat := fun same => first (BitVec.eq_of_toNat_eq same)
      omega
    have kept : ¬((trimArea (a.area q) addr len).stop ≤ (trimArea (a.area q) addr len).start) := by
      rw [trimArea_above len above,BitVec.le_def]
      exact Nat.not_le.mpr above
    rw [set_same,if_neg kept] at returns
    simp only [Option.some.injEq,Prod.mk.injEq] at returns
    obtain ⟨rfl,rfl,rfl⟩ := returns
    refine ⟨before,after,split,?_⟩
    by_cases short : addr.toNat + len.toNat < (a.area q).stop.toNat
    · have middle : (a.area q).start < addr ∧ addr + len < (a.area q).stop :=
        ⟨BitVec.lt_def.mpr above,by rw [BitVec.lt_def,sum]; exact short⟩
      rw [if_pos middle]
      have list : (vmaInsert ft a.fresh (a.push (tailArea (a.area q) addr len block))).list = _ :=
        inOrder.insert_behind lawful numbered split (show _ < (addr + len).toNat by omega)
          (show (addr + len).toNat < _ by omega)
      exact .middle above short list rfl rfl
    · have notMiddle : ¬((a.area q).start < addr ∧ addr + len < (a.area q).stop) := by
        rintro ⟨_,less⟩
        rw [BitVec.lt_def,sum] at less
        omega
      rw [if_neg notMiddle]
      exact .tail above (by omega) split rfl rfl

section

variable {a a' : Areas} {addr len block : U64} {before after : List Nat} {p : Nat}

structure SameSource (vma piece : Area) : Prop where
  type : piece.type = vma.type
  vmFlags : piece.vmFlags = vma.vmFlags
  file : vma.type = .file → piece.file = vma.file
  offset : vma.type = .file → ∀ v : U64, (v - piece.start) + piece.pgoff = (v - vma.start) + vma.pgoff

structure Piece (vma : Area) (addr len : U64) (piece : Area) : Prop where
  bounds : piece.start = vma.start ∧ piece.stop = addr ∧ vma.start.toNat < addr.toNat ∨
    piece.start = addr + len ∧ piece.stop = vma.stop ∧ addr.toNat + len.toNat < vma.stop.toNat
  source : SameSource vma piece

theorem trimArea_front (vma : Area) (above : vma.start.toNat < addr.toNat) :
    Piece vma addr len (trimArea vma addr len) := by
  rw [trimArea_above len above]
  exact ⟨.inl ⟨rfl,rfl,above⟩,rfl,rfl,fun _ => rfl,fun _ _ => rfl⟩

theorem trimArea_back (vma : Area) (short : vma.start.toNat + len.toNat < vma.stop.toNat) :
    Piece vma vma.start len (trimArea vma vma.start len) := by
  have trimmed : trimArea vma vma.start len = { vma with
      start := vma.start + len
      pgoff := if vma.type = .file then vma.pgoff + len else vma.pgoff } := by simp [trimArea]
  rw [trimmed]
  refine ⟨.inr ⟨rfl,rfl,short⟩,rfl,rfl,fun _ => rfl,fun file v => ?_⟩
  dsimp only
  rw [if_pos file]
  bv_omega

theorem tailArea_back (vma : Area) (block : U64) (short : addr.toNat + len.toNat < vma.stop.toNat) :
    Piece vma addr len (tailArea vma addr len block) := by
  refine ⟨.inr ⟨rfl,rfl,short⟩,rfl,rfl,fun file => if_pos file,fun file v => ?_⟩
  simp only [tailArea,if_pos file]
  bv_omega

theorem Cut.own (cut : Cut a p addr len block before after removed a') :
    a'.area p = trimArea (a.area p) addr len := by
  cases cut with
  | whole _ _ _ _ area => rw [area,set_same]
  | head _ _ _ _ area => rw [area,set_same]
  | tail _ _ _ _ area => rw [area,set_same]
  | middle _ _ _ _ area => rw [area,set_same]

theorem Cut.untouched (inOrder : InOrder a) (numbered : Numbered a) (split : a.list = before ++ p :: after)
    (cut : Cut a p addr len block before after removed a') :
    ∀ q ∈ before ++ after, q ∈ a.list ∧ q ≠ p ∧ a'.area q = a.area q := by
  obtain ⟨early,late⟩ := inOrder.member split
  intro q member
  have different : q ≠ p := (List.mem_append.mp member).elim (fun h => (early q h).1) fun h => (late q h).1
  have listed : q ∈ a.list := by
    rw [split]
    exact List.perm_middle.mem_iff.mpr (List.mem_cons_of_mem p member)
  refine ⟨listed,different,?_⟩
  cases cut with
  | whole _ _ _ _ area => rw [area,set_other _ _ different]
  | head _ _ _ _ area => rw [area,set_other _ _ different]
  | tail _ _ _ _ area => rw [area,set_other _ _ different]
  | middle _ _ _ _ area =>
    rw [area,set_other _ _ different]
    exact set_other a _ (Nat.ne_of_lt (numbered q listed))

theorem newest_tail {area : Nat → Area} (mine : p < a.fresh)
    (split' : area = ((a.push (tailArea (a.area p) addr len block)).set p (trimArea (a.area p) addr len)).area) :
    area a.fresh = tailArea (a.area p) addr len block := by
  rw [split',set_other _ _ (Nat.ne_of_gt mine)]
  exact set_same a _ _

/-- Every area after a cut is an old one in its place or a piece of `p`; no piece is missing. -/
theorem Cut.pieces (inOrder : InOrder a) (numbered : Numbered a) (split : a.list = before ++ p :: after)
    (cut : Cut a p addr len block before after removed a') :
    ∃ pieces, a'.list = before ++ (pieces ++ after) ∧ (∀ q ∈ before ++ after, a'.area q = a.area q) ∧
      (∀ q ∈ pieces, Piece (a.area p) addr len (a'.area q)) ∧
      pieces.Pairwise (fun q r => (a'.area q).stop = addr ∧ (a'.area r).start = addr + len) ∧
      ((a.area p).start.toNat < addr.toNat → ∃ q ∈ pieces, (a'.area q).start = (a.area p).start ∧
        (a'.area q).stop = addr) ∧
      (addr.toNat + len.toNat < (a.area p).stop.toNat → ∃ q ∈ pieces, (a'.area q).start = addr + len ∧
        (a'.area q).stop = (a.area p).stop) ∧ a.fresh ≤ a'.fresh ∧ ∀ q ∈ pieces, q < a'.fresh := by
  have same : ∀ q ∈ before ++ after, a'.area q = a.area q :=
    fun q member => (cut.untouched inOrder numbered split q member).2.2
  have mine : p < a.fresh := numbered p (by simp [split])
  have here := cut.own
  cases cut with
  | whole first all list fresh area =>
    refine ⟨[],list,same,nofun,.nil,fun above => ?_,fun short => by omega,fresh.ge,nofun⟩
    rw [first] at above
    omega
  | head first rest list fresh area =>
    subst first
    refine ⟨[p],list,same,?_,List.pairwise_singleton _ _,fun above => by omega,fun _ => ?_,fresh.ge,?_⟩
    · rw [List.forall_mem_singleton,here]
      exact trimArea_back (a.area p) rest
    · obtain ⟨start,stop⟩ := trimArea_head (a.area p) len
      exact ⟨p,by simp,by rw [here,start],by rw [here,stop]⟩
    · rw [List.forall_mem_singleton,fresh]
      exact mine
  | tail above all list fresh area =>
    refine ⟨[p],list,same,?_,List.pairwise_singleton _ _,fun _ => ?_,fun short => by omega,fresh.ge,?_⟩
    · rw [List.forall_mem_singleton,here]
      exact trimArea_front (a.area p) above
    · have trimmed := trimArea_above len above
      exact ⟨p,by simp,by rw [here,trimmed],by rw [here,trimmed]⟩
    · rw [List.forall_mem_singleton,fresh]
      exact mine
  | middle above rest list fresh area =>
    have new := newest_tail mine area
    have trimmed := trimArea_above len above
    refine ⟨[p,a.fresh],list,same,?_,?_,fun _ => ?_,fun _ => ?_,by omega,?_⟩
    · rw [List.forall_mem_cons,List.forall_mem_singleton,here,new]
      exact ⟨trimArea_front _ above,tailArea_back _ block rest⟩
    · refine List.pairwise_pair.mpr ⟨by rw [here,trimmed],?_⟩
      rw [new]
      rfl
    · exact ⟨p,by simp,by rw [here,trimmed],by rw [here,trimmed]⟩
    · exact ⟨a.fresh,by simp,by rw [new]; rfl,by rw [new]; rfl⟩
    · rw [List.forall_mem_cons,List.forall_mem_singleton]
      omega

theorem Cut.keeps (inOrder : InOrder a) (numbered : Numbered a) (split : a.list = before ++ p :: after)
    (cut : Cut a p addr len block before after removed a') (member : q ∈ a.list) (different : q ≠ p) :
    q ∈ a'.list ∧ a'.area q = a.area q := by
  obtain ⟨pieces,list,same,_⟩ := cut.pieces inOrder numbered split
  have old : q ∈ before ++ after := by
    rw [split] at member
    exact (List.mem_cons.mp (List.perm_middle.mem_iff.mp member)).resolve_left different
  refine ⟨?_,same q old⟩
  rw [list,List.mem_append,List.mem_append]
  exact (List.mem_append.mp old).imp_right .inr

/-- Addresses outside the range that goes keep an area. -/
theorem Cut.covers (inOrder : InOrder a) (numbered : Numbered a) (split : a.list = before ++ p :: after)
    (sum : (addr + len).toNat = addr.toNat + len.toNat)
    (cut : Cut a p addr len block before after removed a') (member : q ∈ a.list) (inArea : InArea a q v)
    (beside : ¬(addr.toNat ≤ v.toNat ∧ v.toNat < addr.toNat + len.toNat)) :
    ∃ r ∈ a'.list, InArea a' r v := by
  by_cases different : q ≠ p
  · obtain ⟨kept,area⟩ := cut.keeps inOrder numbered split member different
    exact ⟨q,kept,by simpa [InArea,area] using inArea⟩
  obtain rfl : q = p := by simpa using different
  obtain ⟨pieces,list,_,_,_,front,back,_⟩ := cut.pieces inOrder numbered split
  obtain ⟨low,high⟩ := inArea
  -- in front of the hole or behind it
  by_cases first : v.toNat < addr.toNat
  · obtain ⟨r,piece,start,stop⟩ := front (by omega)
    refine ⟨r,by simp [list,piece],?_⟩
    unfold InArea
    rw [start,stop]
    omega
  · obtain ⟨r,piece,start,stop⟩ := back (by omega)
    refine ⟨r,by simp [list,piece],?_⟩
    unfold InArea
    rw [start,stop,sum]
    omega

theorem InOrder.cut (inOrder : InOrder a) (numbered : Numbered a) (split : a.list = before ++ p :: after)
    (sum : (addr + len).toNat = addr.toNat + len.toNat)
    (cut : Cut a p addr len block before after removed a') : InOrder a' ∧ Numbered a' := by
  have low := cut.low
  obtain ⟨pieces,list,same,each,apart,_,_,fresh,given⟩ := cut.pieces inOrder numbered split
  obtain ⟨early,late⟩ := inOrder.member split
  have inside := cut.inside
  have listed : ∀ q ∈ before ++ after, q ∈ a.list :=
    fun q member => (cut.untouched inOrder numbered split q member).1
  have within : ∀ q ∈ pieces, (a.area p).start.toNat ≤ (a'.area q).start.toNat ∧
      (a'.area q).start.toNat < (a'.area q).stop.toNat ∧ (a'.area q).stop.toNat ≤ (a.area p).stop.toNat := by
    intro q member
    rcases (each q member).bounds with ⟨start,stop,above⟩ | ⟨start,stop,short⟩
    · rw [start,stop]
      omega
    · rw [start,stop,sum]
      omega
  have cases' : ∀ q ∈ a'.list, q ∈ before ++ after ∨ q ∈ pieces := by
    intro q member
    rw [list,List.mem_append,List.mem_append] at member
    rcases member with early | piece | late
    · exact .inl (List.mem_append_left _ early)
    · exact .inr piece
    · exact .inl (List.mem_append_right _ late)
  have order := inOrder.apart
  rw [split] at order
  obtain ⟨first,tail,across⟩ := List.pairwise_append.mp order
  obtain ⟨_,last⟩ := List.pairwise_cons.mp tail
  refine ⟨⟨fun q member => ?_,?_⟩,fun q member => ?_⟩
  · rcases cases' q member with old | piece
    · rw [same q old]
      exact inOrder.nonempty q (listed q old)
    · exact (within q piece).2.1
  · have kept : ∀ {l : List Nat}, (∀ q ∈ l, q ∈ before ++ after) →
        l.Pairwise (fun q r => (a.area q).stop.toNat ≤ (a.area r).start.toNat) →
        l.Pairwise fun q r => (a'.area q).stop.toNat ≤ (a'.area r).start.toNat := by
      intro l old order
      refine List.Pairwise.imp_of_mem ?_ order
      intro q r left right before
      rwa [same q (old q left),same r (old r right)]
    rw [list]
    refine List.pairwise_append.mpr ⟨kept (fun q h => by simp [h]) first,
      List.pairwise_append.mpr ⟨?_,kept (fun q h => by simp [h]) last,?_⟩,?_⟩
    · refine apart.imp fun {q r} bounds => ?_
      rw [bounds.1,bounds.2,sum]
      omega
    · intro q piece r later
      rw [same r (by simp [later])]
      have := (within q piece).2.2
      have := (late r later).2
      omega
    · intro q left r right
      rw [same q (by simp [left])]
      rcases List.mem_append.mp right with piece | later
      · have := (within r piece).1
        have := (early q left).2
        omega
      · rw [same r (by simp [later])]
        exact across q left r (by simp [later])
  · rcases cases' q member with old | piece
    · exact Nat.lt_of_lt_of_le (numbered q (listed q old)) fresh
    · exact given q piece

theorem VmaInv.cut (inv : VmaInv a) (split : a.list = before ++ p :: after)
    (aligned : Aligned addr) (pages : Aligned len) (sum : (addr + len).toNat = addr.toNat + len.toNat)
    (cut : Cut a p addr len block before after removed a') : VmaInv a' := by
  obtain ⟨pieces,list,same,each,_⟩ := cut.pieces inv.inOrder inv.fresh split
  obtain ⟨inOrder,numbered⟩ := inv.inOrder.cut inv.fresh split sum cut
  have ok := inv.ok p (by simp [split])
  have low := cut.low
  have endsAt : Aligned (addr + len) := by
    unfold Aligned at *
    omega
  refine ⟨fun q member => ?_,inOrder.apart,numbered⟩
  have nonempty := inOrder.nonempty q member
  rw [list] at member
  simp only [List.mem_append] at member
  rcases member with old | piece | old
  · rw [same q (by simp [old])]
    exact inv.ok q (by simp [split,old])
  · have base := ok.low
    rcases (each q piece).bounds with ⟨start,stop,above⟩ | ⟨start,stop,short⟩
    · exact ⟨by rw [start]; exact base,nonempty,by rw [start]; exact ok.start,by rw [stop]; exact aligned⟩
    · exact ⟨by rw [start,sum]; omega,nonempty,by rw [start]; exact endsAt,by rw [stop]; exact ok.stop⟩
  · rw [same q (by simp [old])]
    exact inv.ok q (by simp [split,old])

/-- The areas after a cut: untouched ones, what is left of `p`, and its tail. -/
theorem Cut.listed (inOrder : InOrder a) (numbered : Numbered a) (split : a.list = before ++ p :: after)
    (cut : Cut a p addr len block before after removed a') :
    ∀ q ∈ a'.list, (q ∈ a.list ∧ q ≠ p ∧ a'.area q = a.area q) ∨
      (q = p ∧ removed = false ∧ a'.area q = trimArea (a.area p) addr len) ∨
      (q = a.fresh ∧ (a.area p).start.toNat < addr.toNat ∧
        addr.toNat + len.toNat < (a.area p).stop.toNat ∧
        a'.area q = tailArea (a.area p) addr len block ∧ removed = false) := by
  have rest := cut.untouched inOrder numbered split
  have here := cut.own
  intro q member
  cases cut with
  | whole _ _ list _ area =>
    rw [list] at member
    exact .inl (rest q member)
  | head _ _ list _ area =>
    rw [list,List.mem_append,List.mem_cons] at member
    rcases member with h | rfl | h
    · exact .inl (rest q (by simp [h]))
    · exact .inr (.inl ⟨rfl,rfl,here⟩)
    · exact .inl (rest q (by simp [h]))
  | tail _ _ list _ area =>
    rw [list,List.mem_append,List.mem_cons] at member
    rcases member with h | rfl | h
    · exact .inl (rest q (by simp [h]))
    · exact .inr (.inl ⟨rfl,rfl,here⟩)
    · exact .inl (rest q (by simp [h]))
  | middle above short list _ area =>
    have new := newest_tail (numbered p (by simp [split])) area
    rw [list,List.mem_append,List.mem_cons,List.mem_cons] at member
    rcases member with h | rfl | rfl | h
    · exact .inl (rest q (by simp [h]))
    · exact .inr (.inl ⟨rfl,rfl,here⟩)
    · exact .inr (.inr ⟨rfl,above,short,new,rfl⟩)
    · exact .inl (rest q (by simp [h]))

/-- What is left of the area lies beside `[addr,addr + len)`. -/
theorem Cut.trimmed (sum : (addr + len).toNat = addr.toNat + len.toNat)
    (cut : Cut a p addr len block before after false a') :
    ((trimArea (a.area p) addr len).start.toNat = addr.toNat + len.toNat ∧
        (a.area p).start = addr ∧ (trimArea (a.area p) addr len).stop = (a.area p).stop) ∨
      ((a.area p).start.toNat < addr.toNat ∧
        (trimArea (a.area p) addr len).start = (a.area p).start ∧
        (trimArea (a.area p) addr len).stop = addr) := by
  have back : (a.area p).start.toNat < addr.toNat →
      (trimArea (a.area p) addr len).start = (a.area p).start ∧
        (trimArea (a.area p) addr len).stop = addr := by
    intro above
    rw [trimArea_above len above]
    exact ⟨rfl,rfl⟩
  cases cut with
  | head first _ _ _ _ =>
    subst first
    obtain ⟨start,stop⟩ := trimArea_head (a.area p) len
    exact .inl ⟨by rw [start,sum],rfl,stop⟩
  | tail above _ _ _ _ => exact .inr ⟨above,back above⟩
  | middle above _ _ _ _ => exact .inr ⟨above,back above⟩

theorem trimArea_within (sum : (addr + len).toNat = addr.toNat + len.toNat)
    (inside : vma.start.toNat ≤ addr.toNat ∧ addr.toNat + len.toNat ≤ vma.stop.toNat) :
    vma.start.toNat ≤ (trimArea vma addr len).start.toNat ∧
      (trimArea vma addr len).start.toNat ≤ (trimArea vma addr len).stop.toNat ∧
      (trimArea vma addr len).stop.toNat ≤ vma.stop.toNat := by
  unfold trimArea
  split
  · rename_i here
    dsimp only
    rw [← here,sum]
    omega
  · dsimp only
    omega

theorem trimArea_physPages (vma : Area) (addr len : U64) :
    (trimArea vma addr len).physPages = vma.physPages := by
  unfold trimArea
  split <;> rfl

end

end Reddyos
