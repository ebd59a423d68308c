import Reddyos.VmmTables

/-! The invariant of all address spaces together, and what hanging in one page table
or setting one last-level entry does to it. -/
namespace Reddyos

open ByteMemory RadixForest

/-- Walks that count: the kernel's whole tree and the lower half of every process. -/
def Adm (boot : Boot) (procs : List U64) (root : U64) (path : List Nat) : Prop :=
  path.length ≤ 3 ∧ (∀ i ∈ path, i < 512) ∧
    (root = boot.kernelPml4 ∨ root ∈ procs ∧ ∀ i ∈ path.head?, i < 256)

/-- Frames the allocator may still hand out. -/
def avail (boot : Boot) (s : Pmm) (free : List U64) : List U64 := free ++ untaken boot s

structure Spaces (boot : Boot) (s : Pmm) (free procs : List U64) : Prop where
  pmm : PmmInv boot s free
  forest : Forest (child s.mem) (Adm boot procs)
  apart : Adm boot procs root path → walk (child s.mem) root path = some f →
    f ∉ avail boot s free
  roots : root = boot.kernelPml4 ∨ root ∈ procs → FrameOk root
  small : root ∈ procs → Adm boot procs root (path ++ [i]) →
    walk (child s.mem) root path = some f → Present (entry s.mem f i) → ¬Large (entry s.mem f i)
  kernel : boot.kernelPml4 ∉ procs

/-- The last-level entry behind a full path, when it is present. -/
def leafAt (m : Mem) (root : U64) (path : List Nat) (i : Nat) : Option U64 :=
  (walk (child m) root path).bind fun pt =>
    if Present (entry m pt i) then some (entry m pt i) else none

theorem adm_closed (selected : Adm boot procs root (path ++ [i])) : Adm boot procs root path := by
  obtain ⟨length,bound,half⟩ := selected
  refine ⟨by simp at length; omega,fun j member => bound j (by simp [member]),?_⟩
  rcases half with kernel | ⟨member,lower⟩
  · exact .inl kernel
  · refine .inr ⟨member,?_⟩
    cases path with
    | nil => simp
    | cons j rest => simpa using lower

theorem adm_kernel (selected : Adm boot [] boot.kernelPml4 path) (procs : List U64) :
    Adm boot procs boot.kernelPml4 path :=
  ⟨selected.1,selected.2.1,.inl rfl⟩

/-- What was in reach before a space was added still is. -/
theorem Adm.older (selected : Adm boot (pml4 :: procs) root path) (other : root ≠ pml4) : Adm boot procs root path := by
  obtain ⟨length,bound,half⟩ := selected
  exact ⟨length,bound,half.imp_right fun ⟨listed,lower⟩ => ⟨(List.mem_cons.mp listed).resolve_left other,lower⟩⟩

theorem adm_root (selected : Adm boot procs root path) : root = boot.kernelPml4 ∨ root ∈ procs :=
  selected.2.2.imp_right And.left

theorem adm_index (selected : Adm boot procs root (path ++ [i])) : i < 512 :=
  selected.2.1 i (by simp)

theorem child_some (found : child m table i = some f) : Present (entry m table i) ∧ entry m table i &&& pageMask = f := by
  unfold child at found
  split at found
  · rename_i live
    exact ⟨live.1,Option.some.inj found⟩
  · cases found

theorem child_frame (found : child m table i = some f) : FrameOk f := by
  unfold child at found
  split at found
  · rw [← Option.some.inj found]; exact and_pageMask_ok _
  · cases found

theorem child_congr (same : entry m' table i = entry m table i) :
    child m' table i = child m table i := by
  simp only [child,same]

variable {boot : Boot} {s : Pmm} {free procs : List U64}

theorem avail_frame (inv : PmmInv boot s free) (member : f ∈ avail boot s free) :
    f ∈ frames boot := by
  rcases List.mem_append.mp member with h | h
  · exact inv.subset f h
  · exact inv.untaken_subset h

theorem avail_ok (ok : BootOk boot) (inv : PmmInv boot s free) (member : f ∈ avail boot s free) :
    FrameOk f :=
  ⟨frame_aligned ok (avail_frame inv member),(frame_bounds ok (avail_frame inv member)).2⟩

theorem Spaces.table_ok (sp : Spaces boot s free procs) (selected : Adm boot procs root path)
    (found : walk (child s.mem) root path = some f) : FrameOk f := by
  rcases path.eq_nil_or_concat with rfl | ⟨stem,i,rfl⟩
  · rw [← Option.some.inj found]; exact sp.roots (adm_root selected)
  · rw [List.concat_eq_append,walk_concat] at found
    obtain ⟨g,_,last⟩ := Option.bind_eq_some_iff.mp found
    exact child_frame last

def TablesSame (boot : Boot) (procs : List U64) (m m' : Mem) : Prop :=
  ∀ root path f i, Adm boot procs root path → walk (child m) root path = some f → i < 512 →
    entry m' f i = entry m f i

theorem TablesSame.child (same : TablesSame boot procs m m') :
    ∀ root path i f, Adm boot procs root (path ++ [i]) → walk (child m) root path = some f →
      Reddyos.child m' f i = Reddyos.child m f i :=
  fun root path i f selected found =>
    child_congr (same root path f i (adm_closed selected) found (adm_index selected))

theorem TablesSame.walk (same : TablesSame boot procs m m') (selected : Adm boot procs root path) :
    RadixForest.walk (Reddyos.child m') root path = RadixForest.walk (Reddyos.child m) root path :=
  walk_congr adm_closed same.child selected

theorem TablesSame.leafAt (same : TablesSame boot procs m m') (selected : Adm boot procs root path)
    (bound : i < 512) : leafAt m' root path i = leafAt m root path i := by
  unfold Reddyos.leafAt
  rw [same.walk selected]
  cases found : RadixForest.walk (Reddyos.child m) root path with
  | none => rfl
  | some pt => simp only [Option.bind_some,same root path pt i selected found bound]

/-- A state whose tables hold the same entries and whose allocator has no new frames. -/
theorem Spaces.quiet (sp : Spaces boot s free procs) (inv : PmmInv boot next rest)
    (same : TablesSame boot procs s.mem next.mem)
    (less : ∀ f ∈ avail boot next rest, f ∈ avail boot s free) :
    Spaces boot next rest procs where
  pmm := inv
  forest := sp.forest.congr same.child
  apart := by
    intro root path f selected found member
    rw [same.walk selected] at found
    exact sp.apart selected found (less f member)
  roots := sp.roots
  small := by
    intro root path i f member selected found
    rw [same.walk (adm_closed selected)] at found
    rw [same root path f i (adm_closed selected) found (adm_index selected)]
    exact sp.small member selected found
  kernel := sp.kernel

/-- Tables are not touched by writes to available frames. -/
theorem Spaces.tables_same (ok : BootOk boot) (sp : Spaces boot s free procs)
    (frame : ∀ b, Outside (avail boot s free) b → m' b = s.mem b) :
    TablesSame boot procs s.mem m' := by
  intro root path f i selected found bound
  apply entry_congr bound
  intro b low high
  apply frame
  exact outside_of_not_mem (fun g member => (avail_ok ok sp.pmm member).1)
    (sp.table_ok selected found).1 (sp.apart selected found) low high

/-- A page just taken from the allocator: zeroed and known to nobody. -/
structure Fresh (boot : Boot) (s : Pmm) (free procs : List U64) (page : U64) : Prop where
  frame : FrameOk page
  unavailable : page ∉ avail boot s free
  unreached : Adm boot procs root path → walk (child s.mem) root path ≠ some page
  zero : ∀ b, page.toNat ≤ b → b < page.toNat + 4096 → s.mem b = 0#8

structure Allocated (boot : Boot) (s : Pmm) (free procs : List U64) (page : U64) (next : Pmm)
    (rest : List U64) : Prop where
  spaces : Spaces boot next rest procs
  fresh : Fresh boot next rest procs page
  same : TablesSame boot procs s.mem next.mem
  source : page ∈ avail boot s free
  less : ∀ f ∈ avail boot next rest, f ∈ avail boot s free
  frame : ∀ b, Outside (avail boot s free) b → next.mem b = s.mem b

theorem Spaces.alloc (ok : BootOk boot) (sp : Spaces boot s free procs)
    (returns : pmmAllocPage boot s = .ok (page,next)) :
    ∃ rest, Allocated boot s free procs page next rest := by
  rcases pmmAllocPage_spec ok sp.pmm with ⟨_,panics⟩ | ⟨page',next',rest,returns',taken⟩
  · rw [panics] at returns; cases returns
  rw [returns'] at returns
  obtain ⟨rfl,rfl⟩ := ok_pair returns
  obtain ⟨n,left,moved⟩ := taken.moved
  have perm : (page' :: avail boot next' rest).Perm (avail boot s free) := by
    have h := moved.append_right (untaken boot next')
    rw [left,List.append_assoc,List.take_append_drop] at h
    rwa [avail,left]
  have less : ∀ f ∈ avail boot next' rest, f ∈ avail boot s free :=
    fun f member => perm.mem_iff.mp (by simp [member])
  have source : page' ∈ avail boot s free := perm.mem_iff.mp (by simp)
  have same := sp.tables_same ok taken.frame
  refine ⟨rest,sp.quiet taken.inv same less,⟨avail_ok ok sp.pmm source,?_,?_,taken.zero⟩,same,source,
    less,taken.frame⟩
  · exact (List.nodup_cons.mp (perm.nodup_iff.mpr sp.pmm.nodup)).1
  · intro root path selected found
    rw [same.walk selected] at found
    exact sp.apart selected found source

/-- Zeroing a zeroed page again changes nothing. -/
theorem allocTable_eq (returns : allocTable boot s = .ok (page,next)) :
    ∃ middle, pmmAllocPage boot s = .ok (page,middle) ∧
      next = { middle with mem := fill middle.mem page.toNat 0#8 4096 } := by
  obtain ⟨⟨page',middle⟩,taken,returns⟩ := ok_of_bind returns
  obtain ⟨rfl,rfl⟩ := ok_pair returns
  exact ⟨middle,taken,rfl⟩

theorem fill_of_zero {page : U64} (zero : ∀ b, page.toNat ≤ b → b < page.toNat + 4096 → m b = 0#8) :
    fill m page.toNat 0#8 4096 = m := by
  funext b
  by_cases inside : page.toNat ≤ b ∧ b < page.toNat + 4096
  · rw [fill_inside inside.1 inside.2,zero b inside.1 inside.2]
  · exact fill_outside (by omega)

theorem Spaces.allocTable (ok : BootOk boot) (sp : Spaces boot s free procs)
    (returns : Reddyos.allocTable boot s = .ok (page,next)) :
    ∃ rest, Allocated boot s free procs page next rest := by
  obtain ⟨middle,taken,rfl⟩ := allocTable_eq returns
  obtain ⟨rest,allocated⟩ := sp.alloc ok taken
  rw [fill_of_zero allocated.fresh.zero]
  exact ⟨rest,allocated⟩

end Reddyos
