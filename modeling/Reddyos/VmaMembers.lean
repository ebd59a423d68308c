import Reddyos.VmaTree

/-! Which areas `mmap` and `munmap` leave in the tree, for any tree: the areas may be out of
order or overlap. -/
namespace Reddyos

open OrderedTree

variable {boot : Boot} {ft : Ftrees} {a a' b : Areas} {m next : Machine}

/-- Every area of `a'` is one of `a`, as `keep` says, or the `new` one. -/
structure Members (a a' : Areas) (keep : Nat → Area) (new : Area → Prop) : Prop where
  numbered : Numbered a'
  members : ∀ q ∈ a'.list, (q ∈ a.list ∧ a'.area q = keep q) ∨ (q = a.fresh ∧ new (a'.area q))

theorem mem_vmaInsert (conservative : Conservative ft.ops) (member : q ∈ (vmaInsert ft p a).list) :
    q = p ∨ q ∈ a.list := conservative.insert _ _ _ _ member

theorem vmaFind_mem (conservative : Conservative ft.ops) (found : vmaFind ft a addr = some p) :
    p ∈ a.list ∧ (a.area p).start ≤ addr ∧ addr < (a.area p).stop := by
  unfold vmaFind at found
  split at found
  · cases found
  · rename_i q search
    split at found
    · rename_i inside
      obtain rfl := Option.some.inj found
      exact ⟨conservative.searchLe _ _ _ _ search,inside⟩
    · cases found

theorem Members.refl (numbered : Numbered a) : Members a a a.area new :=
  ⟨numbered,fun _ member => .inl ⟨member,rfl⟩⟩

theorem Members.imp {new new' : Area → Prop} (members : Members a b keep new)
    (weaker : ∀ vma, new vma → new' vma) : Members a b keep new' :=
  ⟨members.numbered,fun q member => (members.members q member).imp_right fun ⟨fresh,h⟩ => ⟨fresh,weaker _ h⟩⟩

theorem Members.insert (conservative : Conservative ft.ops) (numbered : Numbered a) (vma : Area) :
    Members a (vmaInsert ft a.fresh (a.push vma)) a.area (· = vma) := by
  refine ⟨fun q member => ?_,fun q member => ?_⟩
  · change q < a.fresh + 1
    rcases mem_vmaInsert conservative member with rfl | old
    · exact Nat.lt_succ_self _
    · exact Nat.lt_succ_of_lt (numbered q old)
  · rcases mem_vmaInsert conservative member with rfl | old
    · exact .inr ⟨rfl,set_same a a.fresh vma⟩
    · exact .inl ⟨old,set_other a vma (Nat.ne_of_lt (numbered q old))⟩

theorem Members.set (members : Members a b a.area new) (old : p < a.fresh) (vma : Area) :
    Members a (b.set p vma) (fun q => if q = p then vma else a.area q) new := by
  refine ⟨members.numbered,fun q member => ?_⟩
  rcases members.members q member with ⟨listed,same⟩ | ⟨rfl,fresh⟩
  · refine .inl ⟨listed,?_⟩
    by_cases here : q = p
    · subst q
      rw [set_same,if_pos rfl]
    · rw [set_other b vma here,if_neg here,same]
  · rw [set_other b vma (Nat.ne_of_gt old)]
    exact .inr ⟨rfl,fresh⟩

theorem Members.remove (conservative : Conservative ft.ops) (members : Members a b keep new) (p : Nat) :
    Members a (vmaRemove ft p b) keep new :=
  ⟨fun q member => members.numbered q (conservative.remove _ _ _ member),
    fun q member => members.members q (conservative.remove _ _ _ member)⟩

theorem doSysMmap_members (conservative : Conservative ft.ops) (numbered : Numbered m.process.areas)
    (returns : doSysMmap boot ft file length offset m = .ok (result,next)) :
    ((∃ e, result = .error e) ∧ next.process = m.process) ∨
      ∃ start, result = .ok start ∧ alignUp length ≠ 0#64 ∧ start ≠ 0#64 ∧
        start = vmaFindFreeRegion ft m.process.areas length ∧
        next.process = { m.process with areas := next.process.areas } ∧
        Members m.process.areas next.process.areas m.process.areas.area (NewArea file start (alignUp length)) := by
  rcases doSysMmap_cases returns with
    ⟨failed,rfl⟩ | ⟨block,k,_,nonzero,found,⟨rfl,_,rfl⟩ | ⟨vma,new,_,rfl,rfl⟩⟩
  · exact .inl ⟨failed,rfl⟩
  · exact .inl ⟨⟨_,rfl⟩,rfl⟩
  · refine .inr ⟨_,rfl,nonzero,found,rfl,rfl,(Members.insert conservative numbered vma).imp ?_⟩
    rintro _ rfl
    exact new

def Tail (vma : Area) (addr len block : U64) (tail : Area) : Prop :=
  (vma.start < addr ∧ addr + len < vma.stop) ∧ tail = tailArea vma addr len block

theorem munmapAreas_members (conservative : Conservative ft.ops) (numbered : Numbered a)
    (returns : munmapAreas ft addr len block a = some (p,removed,a')) :
    vmaFind ft a addr = some p ∧ ¬(a.area p).stop < addr + len ∧
      Members a a' (fun q => if q = p then trimArea (a.area p) addr len else a.area q)
        (Tail (a.area p) addr len block) := by
  have found := munmapAreas_found returns
  have below := numbered p (vmaFind_mem conservative found).1
  unfold munmapAreas at returns
  simp only [found] at returns
  split at returns
  · cases returns
  rename_i inside
  refine ⟨found,fun less => inside (.inr less),?_⟩
  -- whatever the areas were before the trim
  have finish : ∀ b, Members a b a.area (Tail (a.area p) addr len block) → ∀ (c : Prop) [Decidable c],
      (if c then some (p,true,vmaRemove ft p (b.set p (trimArea (a.area p) addr len)))
        else some (p,false,b.set p (trimArea (a.area p) addr len))) = some (p,removed,a') →
      Members a a' (fun q => if q = p then trimArea (a.area p) addr len else a.area q)
        (Tail (a.area p) addr len block) := by
    intro b members c _ returns
    have trimmed := members.set below (trimArea (a.area p) addr len)
    split at returns
    · obtain ⟨_,_,rfl⟩ := Option.some.inj returns
      exact trimmed.remove conservative p
    · obtain ⟨_,_,rfl⟩ := Option.some.inj returns
      exact trimmed
  split at returns
  · rename_i middle
    have members := Members.insert conservative numbered (tailArea (a.area p) addr len block)
    exact finish _ (members.imp fun _ same => ⟨middle,same⟩) _ returns
  · exact finish _ (Members.refl numbered) _ returns

theorem doSysMunmap_members (conservative : Conservative ft.ops) (numbered : Numbered m.process.areas)
    (returns : doSysMunmap boot ft addr length m = .ok (result,next)) :
    next.process = m.process ∨ ∃ p block, vmaFind ft m.process.areas addr = some p ∧
      ¬(m.process.areas.area p).stop < addr + alignUp length ∧
      next.process = { m.process with areas := next.process.areas } ∧
      Members m.process.areas next.process.areas
        (fun q => if q = p then trimArea (m.process.areas.area p) addr (alignUp length)
          else m.process.areas.area q)
        (Tail (m.process.areas.area p) addr (alignUp length) block) := by
  unfold doSysMunmap at returns
  dsimp only at returns
  split at returns
  · obtain ⟨_,rfl⟩ := ok_pair returns
    exact .inl rfl
  obtain ⟨block,k,_,⟨_,_,rfl⟩ | ⟨p,a,cutOff,_,rfl⟩ | ⟨p,a,cutOff,_,_,rfl⟩⟩ := munmapRegion_cases returns
  · exact .inl rfl
  · obtain ⟨found,inside,members⟩ := munmapAreas_members conservative numbered cutOff
    exact .inr ⟨p,block,found,inside,rfl,members⟩
  · obtain ⟨found,inside,members⟩ := munmapAreas_members conservative numbered cutOff
    exact .inr ⟨p,block,found,inside,rfl,members⟩

end Reddyos
