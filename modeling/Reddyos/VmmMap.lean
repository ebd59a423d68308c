import Reddyos.VmmForest

/-! `vmm_map` and `vmm_unmap` are point updates of the last-level entries of all
address spaces. -/
namespace Reddyos

open ByteMemory RadixForest

/-- Last-level entries, named by their address space, path and index. -/
abbrev Slots := U64 → List Nat → Nat → Prop

def anywhere : Slots := fun _ _ _ => True

def nowhere : Slots := fun _ _ _ => False

variable {boot : Boot} {changed : Slots} {s next last : Pmm} {free rest left procs : List U64}

def Clear (f : U64) (b : Nat) : Prop := b < f.toNat ∨ f.toNat + 4096 ≤ b

structure Evolves (boot : Boot) (procs : List U64) (changed : Slots) (s : Pmm) (free : List U64)
    (next : Pmm) (rest : List U64) : Prop where
  spaces : Spaces boot next rest procs
  less : ∀ f ∈ avail boot next rest, f ∈ avail boot s free
  mono : Adm boot procs root path → walk (child s.mem) root path = some f →
    walk (child next.mem) root path = some f
  tables : Adm boot procs root path → walk (child next.mem) root path = some f →
    walk (child s.mem) root path = some f ∨ f ∈ avail boot s free
  leaves : Adm boot procs root path → path.length = 3 → i < 512 → ¬changed root path i →
    leafAt next.mem root path i = leafAt s.mem root path i
  keeps : Adm boot procs root (path ++ [i]) → walk (child s.mem) root path = some f →
    Present (entry s.mem f i) → entry next.mem f i = entry s.mem f i
  small : Adm boot procs root (path ++ [i]) → walk (child next.mem) root path = some f →
    Present (entry next.mem f i) → Large (entry next.mem f i) →
    walk (child s.mem) root path = some f ∧ Present (entry s.mem f i) ∧ Large (entry s.mem f i)
  upper : root ∈ procs → 256 ≤ i → i < 512 → entry next.mem root i = entry s.mem root i
  frame : Outside (avail boot s free) b →
    (∀ root path f, Adm boot procs root path →
      walk (child next.mem) root path = some f → Clear f b) → next.mem b = s.mem b

theorem adm_nil (member : root = boot.kernelPml4 ∨ root ∈ procs) : Adm boot procs root [] :=
  ⟨by simp,by simp,member.imp_right fun h => ⟨h,by simp⟩⟩

theorem Evolves.refl (changed : Slots) (sp : Spaces boot s free procs) : Evolves boot procs changed s free s free where
  spaces := sp
  less := fun _ h => h
  mono := fun _ h => h
  tables := fun _ h => .inl h
  leaves := fun _ _ _ _ => rfl
  keeps := fun _ _ _ => rfl
  small := fun _ found present large => ⟨found,present,large⟩
  upper := fun _ _ _ => rfl
  frame := fun _ _ => rfl

theorem Evolves.trans (first : Evolves boot procs changed s free next rest)
    (second : Evolves boot procs changed next rest last left) :
    Evolves boot procs changed s free last left where
  spaces := second.spaces
  less := fun f h => first.less f (second.less f h)
  mono := fun selected found => second.mono selected (first.mono selected found)
  tables := by
    intro root path f selected found
    rcases second.tables selected found with found | new
    · exact first.tables selected found
    · exact .inr (first.less f new)
  leaves := fun selected full bound same =>
    (second.leaves selected full bound same).trans (first.leaves selected full bound same)
  keeps := by
    intro root path i f selected found present
    have same := first.keeps selected found present
    rw [second.keeps selected (first.mono (adm_closed selected) found) (same ▸ present),same]
  small := by
    intro root path i f selected found present large
    obtain ⟨found,present,large⟩ := second.small selected found present large
    exact first.small selected found present large
  upper := fun member low high => (second.upper member low high).trans (first.upper member low high)
  frame := by
    intro b apart tables
    rw [second.frame (fun f h => apart f (first.less f h)) tables]
    refine first.frame apart ?_
    intro root path f selected found
    exact tables root path f selected (second.mono selected found)

theorem Evolves.weaken {wider : Slots} (evolves : Evolves boot procs changed s free next rest)
    (more : ∀ root path i, changed root path i → wider root path i) :
    Evolves boot procs wider s free next rest :=
  { evolves with
    leaves := fun selected full bound same =>
      evolves.leaves selected full bound (fun h => same (more _ _ _ h)) }

theorem Allocated.evolves (changed : Slots) (allocated : Allocated boot s free procs page next rest) :
    Evolves boot procs changed s free next rest where
  spaces := allocated.spaces
  less := allocated.less
  mono := fun selected found => (allocated.same.walk selected).trans found
  tables := fun selected found => .inl ((allocated.same.walk selected).symm.trans found)
  leaves := fun selected _ bound _ => allocated.same.leafAt selected bound
  keeps := fun selected found _ =>
    allocated.same _ _ _ _ (adm_closed selected) found (adm_index selected)
  small := by
    intro root path i f selected found present large
    rw [allocated.same.walk (adm_closed selected)] at found
    rw [allocated.same root path f i (adm_closed selected) found (adm_index selected)] at present large
    exact ⟨found,present,large⟩
  upper := fun member _ bound => allocated.same _ _ _ _ (adm_nil (.inr member)) rfl bound
  frame := fun apart _ => allocated.frame _ apart

theorem not_present_zero : ¬Present 0#64 := by decide

theorem Fresh.entry (fresh : Fresh boot s free procs page) (bound : i < 512) :
    Reddyos.entry s.mem page i = 0#64 := by
  rw [Reddyos.entry,← fill_of_zero fresh.zero]
  exact load64_fill_zero (by simp only [entryAddr]; omega) (by simp only [entryAddr]; omega)

/-- A new page is still empty when it is linked. -/
theorem Fresh.entry_linked (fresh : Fresh boot s free procs page) (sp : Spaces boot s free procs)
    (above : Adm boot procs root stem) (found : walk (child s.mem) root stem = some table) (index : i < 512)
    (bound : j < 512) : Reddyos.entry (s.setEntry table i w).mem page j = 0#64 := by
  rw [setEntry_other s (sp.table_ok above found).1 fresh.frame.1 index bound
    (fun same => fresh.unreached above (same.1 ▸ found)),fresh.entry bound]

/-- Linking a fresh page behind an entry that is not present. -/
theorem Fresh.attach (flags : U64) (sp : Spaces boot s free procs)
    (fresh : Fresh boot s free procs page)
    (found : walk (child s.mem) root stem = some table) (selected : Adm boot procs root (stem ++ [i]))
    (absent : ¬Present (Reddyos.entry s.mem table i)) :
    Attach (child s.mem) (child (s.setEntry table i (tableEntry page flags)).mem) (Adm boot procs)
      root stem i table page := by
  have aligned := (sp.table_ok (adm_closed selected) found).1
  have index := adm_index selected
  refine ⟨found,selected,by simp [child,absent],?_,fresh.unreached,?_,?_⟩
  · simp [child,tableEntry_present,tableEntry_small fresh.frame,tableEntry_frame fresh.frame]
  · intro j below
    rw [child,fresh.entry_linked sp (adm_closed selected) found index (adm_index below)]
    simp [not_present_zero]
  · intro root' path j f here found' different
    exact child_congr (setEntry_other s aligned (sp.table_ok (adm_closed here) found').1 index
      (adm_index here) different)

/-- A write into a frame that is not available keeps the allocator's invariant. -/
theorem Spaces.pmm_setEntry (ok : BootOk boot) (sp : Spaces boot s free procs) (frame : FrameOk table)
    (apart : table ∉ avail boot s free) (index : i < 512) :
    PmmInv boot (s.setEntry table i w) free := by
  apply sp.pmm.write
  intro f member b low high
  apply setEntry_outside s index
  have aligned := frame_aligned ok (sp.pmm.subset f member)
  have := frames_apart aligned frame.1 (fun same => apart (by simp [avail,← same,member]))
  omega

theorem Fresh.linked (ok : BootOk boot) (sp : Spaces boot s free procs)
    (fresh : Fresh boot s free procs page) (found : walk (child s.mem) root stem = some table)
    (selected : Adm boot procs root (stem ++ [i])) (absent : ¬Present (Reddyos.entry s.mem table i)) :
    Spaces boot (s.setEntry table i (tableEntry page flags)) free procs := by
  have attach := fresh.attach flags sp found selected absent
  have frame := sp.table_ok (adm_closed selected) found
  have index := adm_index selected
  refine ⟨sp.pmm_setEntry ok frame (sp.apart (adm_closed selected) found) index,
    sp.forest.grow attach,?_,sp.roots,?_,sp.kernel⟩
  · intro root' path f here found'
    rcases walk_attach_cases sp.forest attach here found' with ⟨rfl,_⟩ | ⟨_,found'⟩
    · exact fresh.unavailable
    · exact sp.apart here found'
  · intro root' path j f member here found' present
    have bound := adm_index here
    rcases walk_attach_cases sp.forest attach (adm_closed here) found' with ⟨rfl,_⟩ | ⟨_,found'⟩
    · rw [fresh.entry_linked sp (adm_closed selected) found index bound] at present
      exact absurd present not_present_zero
    · by_cases same : f = table ∧ j = i
      · obtain ⟨rfl,rfl⟩ := same
        rw [setEntry_same]
        exact tableEntry_small fresh.frame
      · have fa := (sp.table_ok (adm_closed here) found').1
        rw [setEntry_other s frame.1 fa index bound same] at present ⊢
        exact sp.small member here found' present

/-- An entry of a table that was reached stays, unless it is the one that links the page. -/
theorem Allocated.entry_other (allocated : Allocated boot s free procs page next rest) (sp : Spaces boot s free procs)
    (above : Adm boot procs root stem) (found : walk (child s.mem) root stem = some table) (index : i < 512)
    (here : Adm boot procs root' path) (old : walk (child s.mem) root' path = some f) (bound : j < 512)
    (different : ¬(f = table ∧ j = i)) :
    Reddyos.entry (next.setEntry table i w).mem f j = Reddyos.entry s.mem f j := by
  rw [setEntry_other next (sp.table_ok above found).1 (sp.table_ok here old).1 index bound different,
    allocated.same root' path f j here old bound]

/-- What is mapped stays: the new table is empty, and the table that changed is not a last-level one. -/
theorem Allocated.leaf_linked (allocated : Allocated boot s free procs page next rest) (sp : Spaces boot s free procs)
    (attach : Attach (child next.mem) (child (next.setEntry table i (tableEntry page flags)).mem) (Adm boot procs) root stem i
      table page)
    (found : walk (child s.mem) root stem = some table) (selected : Adm boot procs root (stem ++ [i]))
    (absent : ¬Present (Reddyos.entry s.mem table i)) (here : Adm boot procs root' path) (full : path.length = 3)
    (bound : j < 512) :
    leafAt (next.setEntry table i (tableEntry page flags)).mem root' path j = leafAt s.mem root' path j := by
  have above := adm_closed selected
  have index := adm_index selected
  have forest := allocated.spaces.forest
  have found' : walk (child next.mem) root stem = some table := (allocated.same.walk above).trans found
  unfold leafAt
  by_cases new : root' = root ∧ path = stem ++ [i]
  · obtain ⟨rfl,rfl⟩ := new
    rw [walk_attach_new forest attach,walk_concat,found]
    simp [child,absent,allocated.fresh.entry_linked allocated.spaces above found' index bound,not_present_zero]
  · rw [walk_attach_other forest attach here new,allocated.same.walk here]
    cases old : walk (child s.mem) root' path with
    | none => rfl
    | some pt =>
      have different : ¬(pt = table ∧ j = i) := by
        rintro ⟨rfl,_⟩
        obtain ⟨_,rfl⟩ := sp.forest.unique here above old found
        have := selected.1
        simp [full] at this
      simp only [Option.bind_some,allocated.entry_other sp above found index here old bound different]

theorem Allocated.attached (ok : BootOk boot) (sp : Spaces boot s free procs)
    (allocated : Allocated boot s free procs page next rest)
    (found : walk (child s.mem) root stem = some table) (selected : Adm boot procs root (stem ++ [i]))
    (absent : ¬Present (Reddyos.entry s.mem table i)) :
    Evolves boot procs nowhere s free (next.setEntry table i (tableEntry page flags)) rest ∧
      walk (child (next.setEntry table i (tableEntry page flags)).mem) root (stem ++ [i]) =
        some page := by
  have above := adm_closed selected
  have index := adm_index selected
  have same := allocated.same
  have fresh := allocated.fresh
  have found' : walk (child next.mem) root stem = some table := (same.walk above).trans found
  have absent' : ¬Present (Reddyos.entry next.mem table i) := by
    rwa [same root stem table i above found index]
  have frame := sp.table_ok above found
  have attach := fresh.attach flags allocated.spaces found' selected absent'
  have forest := allocated.spaces.forest
  have zero : ∀ j < 512, Reddyos.entry (next.setEntry table i (tableEntry page flags)).mem page j = 0#64 :=
    fun j bound => fresh.entry_linked allocated.spaces above found' index bound
  refine ⟨⟨fresh.linked ok allocated.spaces found' selected absent',allocated.less,?_,?_,?_,?_,?_,?_,?_⟩,
    walk_attach_new forest attach⟩
  · intro root' path f here old
    by_cases new : root' = root ∧ path = stem ++ [i]
    · obtain ⟨rfl,rfl⟩ := new
      rw [walk_concat,found] at old
      simp [child,absent] at old
    · rw [walk_attach_other forest attach here new,same.walk here,old]
  · intro root' path f here old
    rcases walk_attach_cases forest attach here old with ⟨rfl,_⟩ | ⟨_,old⟩
    · exact .inr allocated.source
    · exact .inl ((same.walk here).symm.trans old)
  · exact fun here full bound _ => allocated.leaf_linked sp attach found selected absent here full bound
  · intro root' path j f here old present
    refine allocated.entry_other sp above found index (adm_closed here) old (adm_index here) ?_
    rintro ⟨rfl,rfl⟩
    exact absent present
  · intro root' path j f here old present large
    rcases walk_attach_cases forest attach (adm_closed here) old with ⟨rfl,_⟩ | ⟨_,old⟩
    · rw [zero j (adm_index here)] at present
      exact absurd present not_present_zero
    · rw [same.walk (adm_closed here)] at old
      by_cases linked : f = table ∧ j = i
      · obtain ⟨rfl,rfl⟩ := linked
        rw [setEntry_same] at large
        exact absurd large (tableEntry_small fresh.frame)
      · rw [allocated.entry_other sp above found index (adm_closed here) old (adm_index here) linked] at present large
        exact ⟨old,present,large⟩
  · intro root' j member low bound
    refine allocated.entry_other sp above found index (adm_nil (.inr member)) rfl bound ?_
    rintro ⟨rfl,rfl⟩
    obtain ⟨rfl,rfl⟩ := sp.forest.unique (adm_nil (.inr member)) above rfl found
    rcases selected.2.2 with kernel | ⟨_,lower⟩
    · exact sp.kernel (kernel ▸ member)
    · have := lower j (by simp)
      omega
  · intro b apart tables
    have kept : Clear table b := by
      refine tables root stem table above ?_
      rw [walk_attach_other forest attach above (by simp),found']
    rw [setEntry_outside next index kept,allocated.frame b apart]

def Linked (flags e : U64) : Prop :=
  ∃ page given, FrameOk page ∧ given &&& pageUser = flags &&& pageUser ∧ e = tableEntry page given

/-- Present entries above the last level are old, or link a table in the tree of `root`. -/
def InnerLinks (boot : Boot) (procs : List U64) (root flags : U64) (m m' : Mem) : Prop :=
  ∀ root' path j f, Adm boot procs root' (path ++ [j]) → walk (child m') root' path = some f →
    Present (entry m' f j) →
    walk (child m) root' path = some f ∧ entry m' f j = entry m f j ∨ root' = root ∧ Linked flags (entry m' f j)

theorem TablesSame.links (same : TablesSame boot procs m m') (root flags : U64) :
    InnerLinks boot procs root flags m m' := by
  intro root' path j f selected found _
  rw [same.walk (adm_closed selected)] at found
  exact .inl ⟨found,same root' path f j (adm_closed selected) found (adm_index selected)⟩

theorem InnerLinks.refl (root flags : U64) (m : Mem) : InnerLinks boot procs root flags m m :=
  fun _ _ _ _ _ found _ => .inl ⟨found,rfl⟩

theorem InnerLinks.trans (first : InnerLinks boot procs root flags m m') (second : InnerLinks boot procs root flags m' m'') :
    InnerLinks boot procs root flags m m'' := by
  intro root' path j f selected found present
  rcases second root' path j f selected found present with ⟨here,same⟩ | linked
  · rw [same] at present ⊢
    exact first root' path j f selected here present
  · exact .inr linked

theorem InnerLinks.weaken (links : InnerLinks boot procs root given m m')
    (user : given &&& pageUser = flags &&& pageUser) : InnerLinks boot procs root flags m m' := by
  intro root' path j f selected found present
  refine (links root' path j f selected found present).imp_right fun ⟨same,page,other,frame,kept,e⟩ => ?_
  exact ⟨same,page,other,frame,kept.trans user,e⟩

theorem Allocated.links (allocated : Allocated boot s free procs page next rest)
    (found : walk (child s.mem) root stem = some table) (selected : Adm boot procs root (stem ++ [i]))
    (absent : ¬Present (Reddyos.entry s.mem table i)) :
    InnerLinks boot procs root flags s.mem (next.setEntry table i (tableEntry page flags)).mem := by
  have above := adm_closed selected
  have same := allocated.same
  have fresh := allocated.fresh
  have sp := allocated.spaces
  have found' : walk (child next.mem) root stem = some table := (same.walk above).trans found
  have absent' : ¬Present (Reddyos.entry next.mem table i) := by
    rwa [same root stem table i above found (adm_index selected)]
  have frame := sp.table_ok above found'
  have attach := fresh.attach flags sp found' selected absent'
  intro root' path j f here now present
  rcases walk_attach_cases sp.forest attach (adm_closed here) now with ⟨rfl,_⟩ | ⟨_,old⟩
  · rw [setEntry_other next frame.1 fresh.frame.1 (adm_index selected) (adm_index here)
      (fun h => fresh.unreached above (h.1 ▸ found')),fresh.entry (adm_index here)] at present
    exact absurd present not_present_zero
  · by_cases slot : f = table ∧ j = i
    · obtain ⟨rfl,rfl⟩ := slot
      refine .inr ⟨(sp.forest.unique (adm_closed here) above old found').1,page,flags,fresh.frame,rfl,?_⟩
      exact setEntry_same next
    · rw [setEntry_other next frame.1 (sp.table_ok (adm_closed here) old).1 (adm_index selected) (adm_index here) slot]
      rw [same.walk (adm_closed here)] at old
      exact .inl ⟨old,same root' path f j (adm_closed here) old (adm_index here)⟩

/-- `get_next` finds the table behind an entry or adds an empty one there. -/
theorem getNext_spec (ok : BootOk boot) (sp : Spaces boot s free procs)
    (found : walk (child s.mem) root stem = some table) (selected : Adm boot procs root (stem ++ [i]))
    (small : Present (entry s.mem table i) → ¬Large (entry s.mem table i))
    (returns : getNext boot table i flags s = .ok (deeper,next)) :
    ∃ rest, Evolves boot procs nowhere s free next rest ∧
      walk (child next.mem) root (stem ++ [i]) = some deeper ∧ InnerLinks boot procs root flags s.mem next.mem := by
  unfold getNext at returns
  split at returns
  · rename_i absent
    obtain ⟨⟨page,middle⟩,taken,returns⟩ := ok_of_bind returns
    obtain ⟨rfl,rfl⟩ := ok_pair returns
    obtain ⟨rest,allocated⟩ := sp.allocTable ok taken
    refine ⟨rest,?_⟩
    rw [setEntry_same,tableEntry_frame allocated.fresh.frame]
    have missing : ¬Present (entry s.mem table i) := by simp [Present,absent]
    obtain ⟨grown,linked⟩ := allocated.attached ok sp found selected missing
    exact ⟨grown,linked,allocated.links found selected missing⟩
  · rename_i present
    obtain ⟨rfl,rfl⟩ := ok_pair returns
    refine ⟨free,.refl nowhere sp,?_,.refl root flags s.mem⟩
    rw [walk_concat,found]
    exact if_pos ⟨present,small present⟩

def pathOf (v : U64) : List Nat := [pml4Index v,pdptIndex v,pdIndex v]

def SmallOn (m : Mem) (root v : U64) : Prop :=
  ∀ stem i f, stem ++ [i] <+: pathOf v → walk (child m) root stem = some f →
    Present (entry m f i) → ¬Large (entry m f i)

theorem adm_stem (selected : Adm boot procs root path) (short : stem <+: path) :
    Adm boot procs root stem := by
  obtain ⟨tail,rfl⟩ := short
  induction tail using List.reverseRecOn with
  | nil => simpa using selected
  | append_singleton tail i ih =>
    rw [← List.append_assoc] at selected
    exact ih (adm_closed selected)

theorem Evolves.smallOn (grown : Evolves boot procs changed s free next rest)
    (selected : Adm boot procs root (pathOf v))
    (small : SmallOn s.mem root v) : SmallOn next.mem root v := by
  intro stem i f short found present large
  have here := adm_stem selected short
  obtain ⟨found,present,large⟩ := grown.small here found present large
  exact small stem i f short found present large

theorem Spaces.smallOn (sp : Spaces boot s free procs) (member : root ∈ procs)
    (selected : Adm boot procs root (pathOf v)) : SmallOn s.mem root v :=
  fun _ _ _ short found present => sp.small member (adm_stem selected short) found present

theorem sanitizeFlags_user (flags : U64) (level : Nat) (inner : level ≠ 0) :
    sanitizeFlags flags level &&& pageUser = flags &&& pageUser := by
  unfold sanitizeFlags
  split
  · contradiction
  · rw [BitVec.and_assoc]
    rfl
  · rw [BitVec.and_assoc]
    rfl
  · rfl

/-- `vmm_map` grows the tables down to the last level and sets one entry there. -/
theorem vmmMap_grown (ok : BootOk boot) (sp : Spaces boot s free procs)
    (selected : Adm boot procs root (pathOf v)) (small : SmallOn s.mem root v)
    (returns : vmmMap boot root v phys flags s = .ok next) :
    ∃ middle rest pt, Evolves boot procs nowhere s free middle rest ∧
      walk (child middle.mem) root (pathOf v) = some pt ∧ InnerLinks boot procs root flags s.mem middle.mem ∧
      next = middle.setEntry pt (ptIndex v) (leafEntry boot phys flags) := by
  unfold vmmMap at returns
  split at returns
  · cases returns
  obtain ⟨⟨pdpt,s₁⟩,first,returns⟩ := ok_of_bind returns
  obtain ⟨⟨pd,s₂⟩,second,returns⟩ := ok_of_bind returns
  obtain ⟨⟨pt,s₃⟩,third,returns⟩ := ok_of_bind returns
  obtain rfl := Except.ok.inj returns
  have here : ∀ stem, stem <+: pathOf v → Adm boot procs root stem :=
    fun stem short => adm_stem selected short
  obtain ⟨free₁,grown₁,found₁,links₁⟩ := getNext_spec ok sp (walk_nil _ root)
    (here [pml4Index v] ⟨_,rfl⟩) (small [] _ _ ⟨_,rfl⟩ rfl) first
  have small₁ := grown₁.smallOn selected small
  obtain ⟨free₂,grown₂,found₂,links₂⟩ := getNext_spec ok grown₁.spaces found₁
    (here [pml4Index v,pdptIndex v] ⟨_,rfl⟩) (small₁ _ _ _ ⟨_,rfl⟩ found₁) second
  have small₂ := grown₂.smallOn selected small₁
  obtain ⟨free₃,grown₃,found₃,links₃⟩ := getNext_spec ok grown₂.spaces found₂
    (here [pml4Index v,pdptIndex v,pdIndex v] ⟨_,rfl⟩) (small₂ _ _ _ ⟨_,rfl⟩ found₂) third
  have links := ((links₁.weaken (sanitizeFlags_user flags 1 (by decide))).trans
    (links₂.weaken (sanitizeFlags_user flags 2 (by decide)))).trans
    (links₃.weaken (sanitizeFlags_user flags 3 (by decide)))
  exact ⟨s₃,free₃,pt,(grown₁.trans grown₂).trans grown₃,found₃,links,rfl⟩

structure Updated (boot : Boot) (procs : List U64) (s : Pmm) (free : List U64) (root : U64)
    (path : List Nat) (i : Nat) (w : U64) (next : Pmm) (rest : List U64) : Prop extends
    Evolves boot procs (fun root' path' j => root' = root ∧ path' = path ∧ j = i) s free next rest where
  new : leafAt next.mem root path i = if Present w then some w else none

theorem Updated.leaf (update : Updated boot procs s free root path i w next rest)
    (here : Adm boot procs root' path') (full : path'.length = 3) (bound : j < 512) :
    leafAt next.mem root' path' j =
      if root' = root ∧ path' = path ∧ j = i then if Present w then some w else none
      else leafAt s.mem root' path' j := by
  split
  · rename_i same
    obtain ⟨rfl,rfl,rfl⟩ := same
    exact update.new
  · exact update.leaves here full bound ‹_›

/-- The tables above the last level do not see an entry set in it. -/
theorem Spaces.inner_same (sp : Spaces boot s free procs) (selected : Adm boot procs root path)
    (full : path.length = 3) (found : walk (child s.mem) root path = some pt) (index : i < 512)
    (here : Adm boot procs root' (path' ++ [j])) (found' : walk (child s.mem) root' path' = some f) :
    entry (s.setEntry pt i w).mem f j = entry s.mem f j := by
  refine setEntry_other s (sp.table_ok selected found).1 (sp.table_ok (adm_closed here) found').1 index
    (adm_index here) ?_
  rintro ⟨rfl,_⟩
  obtain ⟨_,rfl⟩ := sp.forest.unique (adm_closed here) selected found' found
  have := here.1
  simp [full] at this

theorem Spaces.setLeaf (ok : BootOk boot) (sp : Spaces boot s free procs)
    (selected : Adm boot procs root path) (full : path.length = 3)
    (found : walk (child s.mem) root path = some pt) (index : i < 512) :
    Spaces boot (s.setEntry pt i w) free procs ∧
      ∀ root' path', Adm boot procs root' path' →
        walk (child (s.setEntry pt i w).mem) root' path' = walk (child s.mem) root' path' := by
  have frame := sp.table_ok selected found
  have inner : ∀ root' path' j f, Adm boot procs root' (path' ++ [j]) →
      walk (child s.mem) root' path' = some f →
      child (s.setEntry pt i w).mem f j = child s.mem f j :=
    fun root' path' j f here found' => child_congr (sp.inner_same selected full found index here found')
  have walks : ∀ root' path', Adm boot procs root' path' →
      walk (child (s.setEntry pt i w).mem) root' path' = walk (child s.mem) root' path' :=
    fun root' path' here => walk_congr adm_closed inner here
  refine ⟨⟨sp.pmm_setEntry ok frame (sp.apart selected found) index,sp.forest.congr inner,?_,sp.roots,?_,
    sp.kernel⟩,walks⟩
  · intro root' path' f here found'
    rw [walks root' path' here] at found'
    exact sp.apart here found'
  · intro root' path' j f member here found'
    rw [walks root' path' (adm_closed here)] at found'
    rw [sp.inner_same selected full found index here found']
    exact sp.small member here found'

theorem Evolves.setLeaf (ok : BootOk boot) (grown : Evolves boot procs nowhere s free next rest)
    (selected : Adm boot procs root path) (full : path.length = 3)
    (found : walk (child next.mem) root path = some pt) (index : i < 512) :
    Updated boot procs s free root path i w (next.setEntry pt i w) rest := by
  have sp := grown.spaces
  have frame := sp.table_ok selected found
  obtain ⟨spaces,walks⟩ := sp.setLeaf (w := w) ok selected full found index
  refine ⟨⟨spaces,grown.less,?_,?_,?_,?_,?_,?_,?_⟩,?_⟩
  · intro root' path' f here old
    rw [walks root' path' here,grown.mono here old]
  · intro root' path' f here old
    rw [walks root' path' here] at old
    exact grown.tables here old
  · intro root' path' j here full' bound different
    rw [← grown.leaves here full' bound id]
    unfold leafAt
    rw [walks root' path' here]
    cases old : walk (child next.mem) root' path' with
    | none => rfl
    | some f =>
      have other : ¬(f = pt ∧ j = i) := by
        rintro ⟨rfl,rfl⟩
        obtain ⟨rfl,rfl⟩ := sp.forest.unique here selected old found
        exact different ⟨rfl,rfl,rfl⟩
      simp only [Option.bind_some,
        setEntry_other next frame.1 (sp.table_ok here old).1 index bound other]
  · intro root' path' j f here old present
    rw [sp.inner_same selected full found index here (grown.mono (adm_closed here) old),
      grown.keeps here old present]
  · intro root' path' j f here old present large
    rw [walks root' path' (adm_closed here)] at old
    rw [sp.inner_same selected full found index here old] at present large
    exact grown.small here old present large
  · intro root' j member low bound
    rw [← grown.upper member low bound]
    refine setEntry_other next frame.1 (sp.roots (.inr member)).1 index bound ?_
    rintro ⟨rfl,_⟩
    obtain ⟨_,rfl⟩ := sp.forest.unique (adm_nil (.inr member)) selected rfl found
    simp at full
  · intro b apart tables
    rw [setEntry_outside next index (tables root path pt selected (by rw [walks root path selected,found]))]
    refine grown.frame apart ?_
    intro root' path' f here old
    exact tables root' path' f here (by rw [walks root' path' here,old])
  · unfold leafAt
    rw [walks root path selected,found,Option.bind_some,setEntry_same]

theorem vmmMap_spec (ok : BootOk boot) (sp : Spaces boot s free procs)
    (selected : Adm boot procs root (pathOf v)) (small : SmallOn s.mem root v)
    (returns : vmmMap boot root v phys flags s = .ok next) :
    ∃ rest, Updated boot procs s free root (pathOf v) (ptIndex v) (leafEntry boot phys flags) next rest := by
  obtain ⟨middle,rest,pt,grown,found,_,rfl⟩ := vmmMap_grown ok sp selected small returns
  exact ⟨rest,grown.setLeaf ok selected rfl found (index_lt v).2.2.2⟩

/-- Setting a last-level entry links no table. -/
theorem Spaces.setLeaf_links (ok : BootOk boot) (sp : Spaces boot s free procs) (selected : Adm boot procs root path)
    (full : path.length = 3) (found : walk (child s.mem) root path = some pt) (index : i < 512) (flags : U64) :
    InnerLinks boot procs root flags s.mem (s.setEntry pt i w).mem := by
  intro root' path' j f here old _
  rw [(sp.setLeaf ok selected full found index).2 root' path' (adm_closed here)] at old
  exact .inl ⟨old,sp.inner_same selected full found index here old⟩

theorem vmmMap_links (ok : BootOk boot) (sp : Spaces boot s free procs)
    (selected : Adm boot procs root (pathOf v)) (small : SmallOn s.mem root v)
    (returns : vmmMap boot root v phys flags s = .ok next) : InnerLinks boot procs root flags s.mem next.mem := by
  obtain ⟨middle,rest,pt,grown,found,links,rfl⟩ := vmmMap_grown ok sp selected small returns
  exact links.trans (grown.spaces.setLeaf_links ok selected rfl found (index_lt v).2.2.2 flags)

theorem walk_pathOf (found : walk (child m) root (pathOf v) = some pt) :
    entry m (entry m (entry m root (pml4Index v) &&& pageMask) (pdptIndex v) &&& pageMask) (pdIndex v)
      &&& pageMask = pt := by
  simp only [pathOf,walk_cons,walk_nil,child] at found
  split at found
  · rw [Option.bind_some] at found
    split at found
    · rw [Option.bind_some] at found
      split at found
      · rw [Option.bind_some] at found
        exact Option.some.inj found
      · cases found
    · cases found
  · cases found

/-- Unmapping a page whose last-level table exists. -/
theorem vmmUnmap_spec (ok : BootOk boot) (sp : Spaces boot s free procs)
    (selected : Adm boot procs root (pathOf v)) (found : walk (child s.mem) root (pathOf v) = some pt) :
    Updated boot procs s free root (pathOf v) (ptIndex v) 0#64 (vmmUnmap root v s) free := by
  simp only [vmmUnmap,walk_pathOf found]
  exact (Evolves.refl nowhere sp).setLeaf ok selected rfl found (index_lt v).2.2.2

theorem vmmUnmap_links (ok : BootOk boot) (sp : Spaces boot s free procs)
    (selected : Adm boot procs root (pathOf v)) (found : walk (child s.mem) root (pathOf v) = some pt) (flags : U64) :
    InnerLinks boot procs root flags s.mem (vmmUnmap root v s).mem := by
  simp only [vmmUnmap,walk_pathOf found]
  exact sp.setLeaf_links ok selected rfl found (index_lt v).2.2.2 flags

end Reddyos
