import Reddyos.ElfChunks

/-! One program header: fresh pages are taken, mapped behind each other and filled. The
bytes come out right when no chunk of the two loops crosses a page. -/
namespace Reddyos

open ByteMemory RadixForest

variable {boot : Boot} {procs : List U64} {pml4 : U64} {s s₀ next : Pmm} {free free₀ pages : List U64}
variable {changed : Slots} {first : Nat}

def rangeSlots (pml4 : U64) (first count : Nat) : Slots := fun root path i =>
  root = pml4 ∧ ∃ v : U64, lowerHalf v ∧ (first ≤ v.toNat / 4096 ∧ v.toNat / 4096 < first + count) ∧
    path = pathOf v ∧ i = ptIndex v

theorem rangeSlots_page (lower : lowerHalf v) (slot : rangeSlots pml4 first count root (pathOf v) (ptIndex v)) :
    first ≤ v.toNat / 4096 ∧ v.toNat / 4096 < first + count := by
  obtain ⟨_,w,lower',range,path,index⟩ := slot
  rw [(same_page lower lower').mp ⟨path,index⟩]
  exact range

structure PagesTaken (boot : Boot) (procs : List U64) (s : Pmm) (free : List U64) (pages : List U64)
    (next : Pmm) (rest : List U64) : Prop where
  evolves : Evolves boot procs nowhere s free next rest
  nodup : pages.Nodup
  held : ∀ f ∈ pages, Held boot procs next rest f ∧ f ≠ 0#64
  source : ∀ f ∈ pages, f ∈ avail boot s free

theorem PagesTaken.snoc (ok : BootOk boot) (taken : PagesTaken boot procs s free pages middle left)
    (allocated : Allocated boot middle left procs page next rest) :
    PagesTaken boot procs s free (pages ++ [page]) next rest where
  evolves := taken.evolves.trans (allocated.evolves nowhere)
  nodup := by
    refine List.nodup_append.mpr ⟨taken.nodup,by simp,?_⟩
    intro f member g last same
    rw [List.mem_singleton.mp last] at same
    subst same
    exact (taken.held f member).1.2.1 allocated.source
  held := by
    intro f member
    rcases List.mem_append.mp member with old | new
    · exact ⟨(allocated.evolves nowhere).held (taken.held f old).1,(taken.held f old).2⟩
    · rw [List.mem_singleton.mp new]
      exact ⟨allocated.held,allocated.nonNull ok taken.evolves.spaces⟩
  source := by
    intro f member
    rcases List.mem_append.mp member with old | new
    · exact taken.source f old
    · rw [List.mem_singleton.mp new]
      exact taken.evolves.less _ allocated.source

theorem allocPages_spec (ok : BootOk boot) (taken : PagesTaken boot procs s free pages middle left)
    (returns : allocPages boot count pages middle = .ok (result,next)) :
    ∃ all rest, result = some all ∧ all.length = pages.length + count ∧
      PagesTaken boot procs s free all next rest := by
  induction count generalizing pages middle left with
  | zero =>
    obtain ⟨rfl,rfl⟩ := ok_pair returns
    exact ⟨pages,left,rfl,rfl,taken⟩
  | succ count ih =>
    obtain ⟨⟨page,s'⟩,one,returns⟩ := ok_of_bind returns
    obtain ⟨rest,allocated⟩ := taken.evolves.spaces.alloc ok one
    dsimp only at returns
    rw [if_neg (allocated.nonNull ok taken.evolves.spaces)] at returns
    obtain ⟨all,rest',whole,length,more⟩ := ih (taken.snoc ok allocated) returns
    exact ⟨all,rest',whole,by simp at length; omega,more⟩

theorem toNat_pageAddr {mapStart : U64} (starts : mapStart.toNat = 4096 * first)
    (room : 4096 * (first + page) < 2^64) :
    (mapStart + (BitVec.ofNat 64 page <<< 12)).toNat = 4096 * (first + page) := by
  have shifted : (BitVec.ofNat 64 page <<< 12).toNat = 4096 * page := by
    rw [BitVec.toNat_shiftLeft,BitVec.toNat_ofNat,Nat.shiftLeft_eq,Nat.mod_eq_of_lt (by omega),
      Nat.mod_eq_of_lt (by omega)]
    omega
  rw [BitVec.toNat_add,shifted,starts,Nat.mod_eq_of_lt (by omega)]
  omega

/-- Mapping one more page behind those that are backed already. -/
theorem Backed.map (ok : BootOk boot) (cpu : CpuOk boot) (backed : Backed boot procs pml4 s free first done)
    (sp : Spaces boot s free procs) (member : pml4 ∈ procs) (new : f ∉ done)
    (held : Held boot procs s free f ∧ f ≠ 0#64) (plain : flags &&& pageMask = 0#64)
    (lower : lowerHalf v) (number : v.toNat / 4096 = first + done.length)
    (maps : vmmMap boot pml4 v f flags s = .ok next) :
    ∃ rest, Evolves boot procs (rangeSlots pml4 first (done.length + 1)) s free next rest ∧
      Backed boot procs pml4 next rest first (done ++ [f]) := by
  have selected : Adm boot procs pml4 (pathOf v) := adm_pathOf v (.inr ⟨member,lower⟩)
  obtain ⟨rest,update⟩ := vmmMap_spec ok sp selected (sp.smallOn member selected) maps
  have entry := update.new
  rw [if_pos (leafEntry_present boot f flags)] at entry
  refine ⟨rest,update.toEvolves.weaken ?_,?_,?_,?_⟩
  · rintro root path i ⟨rfl,rfl,rfl⟩
    exact ⟨rfl,v,lower,by omega,rfl,rfl⟩
  · refine List.nodup_append.mpr ⟨backed.nodup,by simp,?_⟩
    intro g old h last same
    rw [List.mem_singleton.mp last] at same
    exact new (same ▸ old)
  · intro g here
    rcases List.mem_append.mp here with old | last
    · exact ⟨update.toEvolves.held (backed.held g old).1,(backed.held g old).2⟩
    · rw [List.mem_singleton.mp last]
      exact ⟨update.toEvolves.held held.1,held.2⟩
  · intro w below g above page
    by_cases same : w.toNat / 4096 = v.toNat / 4096
    · obtain ⟨path,index⟩ := (same_page below lower).mpr same
      rw [same,number,Nat.add_sub_cancel_left,List.getElem?_concat_length] at page
      obtain rfl := Option.some.inj page
      refine ⟨_,by rw [leafOf,path,index]; exact entry,?_⟩
      exact leafEntry_frame cpu (vmmMap_reach maps) held.1.1 plain
    · have short : w.toNat / 4096 - first < done.length := by
        have := (List.getElem?_eq_some_iff.mp page).1
        simp at this
        omega
      rw [List.getElem?_append_left short] at page
      obtain ⟨e,leaf,frame⟩ := backed.leaf w below g above page
      refine ⟨e,?_,frame⟩
      refine (update.leaves (adm_pathOf w (.inr ⟨member,below⟩)) rfl (index_lt w).2.2.2 ?_).trans leaf
      rintro ⟨_,path,index⟩
      exact same ((same_page below lower).mp ⟨path,index⟩)

theorem mapPages_spec (ok : BootOk boot) (cpu : CpuOk boot) (member : pml4 ∈ procs)
    (plain : flags &&& pageMask = 0#64) (starts : mapStart.toNat = 4096 * first)
    (room : 4096 * (first + (done ++ todo).length) ≤ 2^47)
    (backed : Backed boot procs pml4 s free first done) (sp : Spaces boot s free procs)
    (distinct : (done ++ todo).Nodup) (held : ∀ f ∈ todo, Held boot procs s free f ∧ f ≠ 0#64)
    (returns : mapPages boot pml4 mapStart flags done.length todo s = .ok (mapped,next)) :
    mapped = true ∧ ∃ rest, Backed boot procs pml4 next rest first (done ++ todo) ∧
      Evolves boot procs (rangeSlots pml4 first (done ++ todo).length) s free next rest := by
  induction todo generalizing done s free with
  | nil =>
    obtain ⟨rfl,rfl⟩ := ok_pair returns
    exact ⟨rfl,free,by simpa using backed,.refl _ sp⟩
  | cons f todo ih =>
    have here := held f (by simp)
    unfold mapPages at returns
    rw [if_neg here.2] at returns
    obtain ⟨s',maps,returns⟩ := ok_of_bind returns
    simp only [List.length_append,List.length_cons] at room
    have address : (mapStart + (BitVec.ofNat 64 done.length <<< 12)).toNat = 4096 * (first + done.length) :=
      toNat_pageAddr starts (by omega)
    have new : f ∉ done := fun old => (List.nodup_append.mp distinct).2.2 f old f (by simp) rfl
    obtain ⟨rest,evolves,backed'⟩ := backed.map ok cpu sp member new here plain
      (by unfold lowerHalf; omega) (by omega) maps
    have again : done ++ f :: todo = (done ++ [f]) ++ todo := by simp
    rw [again] at distinct ⊢
    obtain ⟨rfl,rest',all,later⟩ := @ih _ _ (done ++ [f]) (by simp; omega) backed' evolves.spaces distinct
      (fun g last => ⟨evolves.held (held g (by simp [last])).1,(held g (by simp [last])).2⟩)
      (by simpa using returns)
    refine ⟨rfl,rest',all,(evolves.weaken ?_).trans later⟩
    rintro root path i ⟨rfl,v,lower,range,path,index⟩
    exact ⟨rfl,v,lower,by simp; omega,path,index⟩

/-- A segment being filled: its frames were taken since `s₀`. -/
structure Filling (boot : Boot) (procs : List U64) (changed : Slots) (pml4 : U64) (s₀ : Pmm)
    (free₀ : List U64) (first : Nat) (pages : List U64) (s : Pmm) (free : List U64) : Prop where
  evolves : Evolves boot procs changed s₀ free₀ s free
  backed : Backed boot procs pml4 s free first pages
  source : ∀ f ∈ pages, f ∈ avail boot s₀ free₀

def InPages (first : Nat) (pages : List U64) (a : Nat) : Prop :=
  4096 * first ≤ a ∧ a < 4096 * (first + pages.length)

theorem Filling.write {v : U64} (data : Nat → BitVec 8) (ok : BootOk boot) (member : pml4 ∈ procs)
    (filling : Filling boot procs changed pml4 s₀ free₀ first pages s free)
    (inside : InPages first pages v.toNat) (fits : v.toNat % 4096 + n ≤ 4096) (lower : lowerHalf v) :
    ∃ phys, vmmLookup s.mem pml4 v = some phys ∧
      Filling boot procs changed pml4 s₀ free₀ first pages { s with mem := copy s.mem phys.toNat data n } free ∧
      ∀ w b, lowerHalf w → InPages first pages w.toNat →
        (v.toNat ≤ w.toNat → w.toNat < v.toNat + n → b = data (w.toNat - v.toNat)) →
        (¬(v.toNat ≤ w.toNat ∧ w.toNat < v.toNat + n) → Sees boot procs pml4 s free w b) →
        Sees boot procs pml4 { s with mem := copy s.mem phys.toNat data n } free w b := by
  unfold InPages at inside
  have low : first ≤ v.toNat / 4096 := by omega
  obtain ⟨f,page⟩ : ∃ f, pages[v.toNat / 4096 - first]? = some f :=
    ⟨_,List.getElem?_eq_getElem (by omega)⟩
  have listed := List.mem_of_getElem? page
  obtain ⟨phys,found,address⟩ := filling.backed.lookup lower low page
  obtain ⟨backed,seen⟩ := filling.backed.write ok filling.evolves.spaces member low page fits
  have held : ∀ g ∈ [f], Held boot procs s free g := by simpa using (filling.backed.held f listed).1
  refine ⟨phys,found,⟨filling.evolves.write ok held ?_ ?_,?_,filling.source⟩,?_⟩
  · simpa using filling.source f listed
  · intro b apart
    have := apart f (by simp)
    exact copy_outside (by omega)
  · rw [address]
    exact backed
  · rw [address]
    intro w b below range
    unfold InPages at range
    exact seen w b below (by omega) (by omega)

def WholeChunks (start size : Nat) : Prop := start % 4096 = 0 ∨ start % 4096 + size ≤ 4096

theorem WholeChunks.fits (whole : WholeChunks start size) (aligned : o % 4096 = 0) (small : n ≤ 4096)
    (within : o + n ≤ size) (some' : 0 < n) : (start + o) % 4096 + n ≤ 4096 := by
  unfold WholeChunks at whole
  omega

/-- Addresses `[start,start + size)` of the process show the bytes of `data`. -/
def Shows (boot : Boot) (procs : List U64) (pml4 : U64) (s : Pmm) (free : List U64) (start size : Nat)
    (data : Nat → BitVec 8) : Prop :=
  ∀ w : U64, start ≤ w.toNat → w.toNat < start + size → Sees boot procs pml4 s free w (data (w.toNat - start))

theorem toNat_chunkAddr {v o : U64} (fits : v.toNat + o.toNat < 2^64) : (v + o).toNat = v.toNat + o.toNat := by
  rw [BitVec.toNat_add]
  exact Nat.mod_eq_of_lt fits

theorem copyLoop_spec {read : Bool} (ok : BootOk boot) (member : pml4 ∈ procs)
    (filling : Filling boot procs changed pml4 s₀ free₀ first pages s free)
    (whole : WholeChunks vaddr.toNat size.toNat) (below : vaddr.toNat + size.toNat ≤ 2^47)
    (inside : ∀ a, vaddr.toNat ≤ a → a < vaddr.toNat + size.toNat → InPages first pages a)
    (returns : forChunks (copyChunk pml4 vaddr) size (size.toNat / 4096 + 1) 0#64 (⟨vnode,offset⟩,s) =
      .ok (read,file,next)) :
    Filling boot procs changed pml4 s₀ free₀ first pages next free ∧
      (read = true →
        Shows boot procs pml4 next free vaddr.toNat size.toNat fun i => vnode.data (offset.toNat + i)) := by
  have result := forChunks_spec
    (fun o (st : File × Pmm) => Filling boot procs changed pml4 s₀ free₀ first pages st.2 free ∧
      st.1.vnode = vnode ∧ st.1.offset.toNat = offset.toNat + o ∧
      Shows boot procs pml4 st.2 free vaddr.toNat o fun i => vnode.data (offset.toNat + i))
    (fun st => Filling boot procs changed pml4 s₀ free₀ first pages st.2 free) ?_ (.inl rfl) (by simp)
    (by simp; omega) ⟨filling,rfl,rfl,fun w low high => by have : (0#64).toNat = 0 := rfl; omega⟩ returns
  · cases read with
    | true => exact ⟨result.1,fun _ => result.2.2.2⟩
    | false => exact ⟨result,by simp⟩
  · -- one round: the buffer is found, and the file fills it or ends
    rintro o chunk ⟨file,t⟩ goOn ⟨file',t'⟩ aligned some' small within ⟨filled,rfl,position,shows⟩ round
    have address : (vaddr + o).toNat = vaddr.toNat + o.toNat := toNat_chunkAddr (by omega)
    have lower : lowerHalf (vaddr + o) := by unfold lowerHalf; omega
    have fits := whole.fits aligned small within some'
    rw [← address] at fits
    have range := inside (vaddr + o).toNat (by omega) (by omega)
    simp only [copyChunk,pure,Except.pure,Except.ok.injEq,Prod.mk.injEq] at round
    obtain ⟨phys,found,_,_⟩ := filled.write (n := chunk.toNat) (fun _ => 0#8) ok member range fits lower
    rw [found] at round
    match outcome : readExact file (some phys.toNat) chunk t.mem with
    | (read',file'',m') =>
      rw [Option.map_some,outcome] at round
      obtain ⟨rfl,rfl,rfl⟩ := round
      obtain ⟨count,le,rfl,complete⟩ := readExact_spec small (by bv_omega) outcome
      obtain ⟨phys',found',later,seen⟩ := filled.write (n := count)
        (fun i => file.vnode.data (file.offset.toNat + i)) ok member range (by omega) lower
      rw [found] at found'
      obtain rfl := Option.some.inj found'
      cases read' with
      | false => exact later
      | true =>
        obtain ⟨rfl,start,rfl⟩ := complete rfl
        have fit := file.vnode.fits
        rw [BitVec.lt_def] at start
        refine ⟨later,rfl,?_,?_⟩
        · dsimp only
          rw [toNat_chunkAddr (by omega),position]
          omega
        · intro w low high
          refine seen w _ (by unfold lowerHalf; omega) (inside _ low (by omega)) ?_ ?_
          · intro first' last'
            rw [position]
            exact congrArg file.vnode.data (by omega)
          · intro other
            exact shows w low (by omega)

theorem zeroLoop_spec {cleared : Bool} (ok : BootOk boot) (member : pml4 ∈ procs)
    (filling : Filling boot procs changed pml4 s₀ free₀ first pages s free)
    (whole : WholeChunks vaddr.toNat size.toNat) (below : vaddr.toNat + size.toNat ≤ 2^47)
    (inside : ∀ a, vaddr.toNat ≤ a → a < vaddr.toNat + size.toNat → InPages first pages a)
    (returns : forChunks (zeroChunk pml4 vaddr) size (size.toNat / 4096 + 1) 0#64 s = .ok (cleared,next)) :
    cleared = true ∧ Filling boot procs changed pml4 s₀ free₀ first pages next free ∧
      Shows boot procs pml4 next free vaddr.toNat size.toNat (fun _ => 0#8) ∧
      ∀ w b, lowerHalf w → InPages first pages w.toNat → w.toNat < vaddr.toNat →
        Sees boot procs pml4 s free w b → Sees boot procs pml4 next free w b := by
  have result := forChunks_spec
    (fun o (t : Pmm) => Filling boot procs changed pml4 s₀ free₀ first pages t free ∧
      Shows boot procs pml4 t free vaddr.toNat o (fun _ => 0#8) ∧
      ∀ w b, lowerHalf w → InPages first pages w.toNat → w.toNat < vaddr.toNat →
        Sees boot procs pml4 s free w b → Sees boot procs pml4 t free w b)
    (fun _ => False) ?_ (.inl rfl) (by simp) (by simp; omega)
    ⟨filling,fun w low high => by have : (0#64).toNat = 0 := rfl; omega,fun _ _ _ _ _ => id⟩ returns
  · cases cleared with
    | true => exact ⟨rfl,result⟩
    | false => exact result.elim
  · rintro o chunk t goOn t' aligned some' small within ⟨filled,shows,kept⟩ round
    have address : (vaddr + o).toNat = vaddr.toNat + o.toNat := toNat_chunkAddr (by omega)
    have lower : lowerHalf (vaddr + o) := by unfold lowerHalf; omega
    have fits := whole.fits aligned small within some'
    rw [← address] at fits
    have range := inside (vaddr + o).toNat (by omega) (by omega)
    obtain ⟨phys,found,later,seen⟩ := filled.write (n := chunk.toNat) (fun _ => 0#8) ok member range
      fits lower
    simp only [zeroChunk,found] at round
    obtain ⟨rfl,rfl⟩ := ok_pair round
    refine ⟨later,?_,?_⟩
    · intro w low high
      refine seen w _ (by unfold lowerHalf; omega) (inside _ low (by omega)) (fun _ _ => rfl) ?_
      intro other
      exact shows w low (by omega)
    · intro w b below' range' low before
      refine seen w b below' range' (by omega) ?_
      intro _
      exact kept w b below' range' low before

/-- A segment of the lower half whose chunks do not cross a page. -/
structure SegmentOk (ph : ElfPhdr) : Prop where
  lower : ph.vaddr.toNat + ph.memsz.toNat ≤ 2^47
  copies : WholeChunks ph.vaddr.toNat ph.filesz.toNat
  clears : ph.filesz.toNat < ph.memsz.toNat →
    WholeChunks (ph.vaddr.toNat + ph.filesz.toNat) (ph.memsz.toNat - ph.filesz.toNat)

def firstPage (ph : ElfPhdr) : Nat := ph.vaddr.toNat / 4096

def endPage (ph : ElfPhdr) : Nat := (ph.vaddr.toNat + ph.memsz.toNat + 4095) / 4096

def segmentByte (vnode : Vnode) (ph : ElfPhdr) (i : Nat) : BitVec 8 :=
  if i < ph.filesz.toNat then vnode.data (ph.offset.toNat + i) else 0#8

/-- The entries a segment may change: its own pages, and new pages of the heap. -/
def segmentSlots (boot : Boot) (low high pml4 : U64) (ph : ElfPhdr) : Slots := fun root path i =>
  windowSlots boot low high root path i ∨
    ph.type = ptLoad ∧ rangeSlots pml4 (firstPage ph) (endPage ph - firstPage ph) root path i

theorem toNat_pageCount (lower : ph.vaddr.toNat + ph.memsz.toNat ≤ 2^47) :
    (pageCount ph).toNat = endPage ph - firstPage ph := by
  have sum : (ph.vaddr + ph.memsz).toNat = ph.vaddr.toNat + ph.memsz.toNat := toNat_chunkAddr (by omega)
  have up := toNat_alignUp (ph.vaddr + ph.memsz) (by omega)
  have down := toNat_alignDown ph.vaddr
  rw [sum] at up
  unfold pageCount endPage firstPage
  rw [BitVec.toNat_ushiftRight,Nat.shiftRight_eq_div_pow]
  generalize alignUp (ph.vaddr + ph.memsz) = high at *
  generalize alignDown ph.vaddr = low at *
  have difference : (high - low).toNat = high.toNat - low.toNat := by bv_omega
  rw [difference]
  omega

theorem segmentFlags_plain (flags : BitVec 32) : segmentFlags flags &&& pageMask = 0#64 := by
  unfold segmentFlags
  dsimp only
  split <;> split <;> decide

theorem fillSegment_spec {filled : Bool} (ok : BootOk boot) (member : pml4 ∈ procs)
    (filling : Filling boot procs changed pml4 s₀ free₀ (firstPage ph) pages s free)
    (length : pages.length = endPage ph - firstPage ph) (order : ph.filesz.toNat ≤ ph.memsz.toNat)
    (segment : SegmentOk ph) (returns : fillSegment pml4 vnode ph s = .ok (filled,next)) :
    Filling boot procs changed pml4 s₀ free₀ (firstPage ph) pages next free ∧ (filled = true →
      Shows boot procs pml4 next free ph.vaddr.toNat ph.memsz.toNat (segmentByte vnode ph)) := by
  have below := segment.lower
  have range : ∀ a, ph.vaddr.toNat ≤ a → a < ph.vaddr.toNat + ph.memsz.toNat →
      InPages (firstPage ph) pages a := by
    intro a low high
    unfold InPages
    rw [length]
    unfold firstPage endPage
    omega
  unfold fillSegment at returns
  obtain ⟨⟨read,file,s₁⟩,copied,returns⟩ := ok_of_bind returns
  obtain ⟨filling,complete⟩ := copyLoop_spec ok member filling segment.copies (by omega)
    (fun a low high => range a low (by omega)) copied
  cases read with
  | false =>
    obtain ⟨rfl,rfl⟩ := ok_pair returns
    exact ⟨filling,by simp⟩
  | true =>
    have shows := complete rfl
    have start : (ph.vaddr + ph.filesz).toNat = ph.vaddr.toNat + ph.filesz.toNat := toNat_chunkAddr (by omega)
    have extra : (ph.memsz - ph.filesz).toNat = ph.memsz.toNat - ph.filesz.toNat := by bv_omega
    have clears : WholeChunks (ph.vaddr + ph.filesz).toNat (ph.memsz - ph.filesz).toNat := by
      rw [start,extra]
      by_cases some' : ph.filesz.toNat < ph.memsz.toNat
      · exact segment.clears some'
      · unfold WholeChunks
        omega
    obtain ⟨rfl,done,zero,kept⟩ := zeroLoop_spec ok member filling clears (by omega)
      (fun a low high => range a (by omega) (by omega)) returns
    refine ⟨done,fun _ w low high => ?_⟩
    unfold segmentByte
    split
    · rename_i file
      exact kept w _ (by unfold lowerHalf; omega) (range _ low high) (by omega)
        (shows w low (by omega))
    · rename_i rest
      exact zero w (by omega) (by omega)

/-- Every entry of the lower half is an old one or maps a frame taken since. -/
def LeavesFrom (boot : Boot) (procs : List U64) (pml4 : U64) (s : Pmm) (free : List U64) (next : Pmm)
    (rest : List U64) : Prop :=
  ∀ v e, lowerHalf v → leafOf next pml4 v = some e →
    leafOf s pml4 v = some e ∨ e &&& pageMask ∈ avail boot s free ∧ Held boot procs next rest (e &&& pageMask)

theorem LeavesFrom.refl (boot : Boot) (procs : List U64) (pml4 : U64) (s : Pmm) (free : List U64) :
    LeavesFrom boot procs pml4 s free s free :=
  fun _ _ _ leaf => .inl leaf

theorem LeavesFrom.trans {middle : Pmm} {left rest : List U64} (first : LeavesFrom boot procs pml4 s free middle left)
    (second : LeavesFrom boot procs pml4 middle left next rest) (less : ∀ f ∈ avail boot middle left, f ∈ avail boot s free)
    (evolves : Evolves boot procs changed middle left next rest) : LeavesFrom boot procs pml4 s free next rest := by
  intro v e lower leaf
  rcases second v e lower leaf with old | ⟨taken,held⟩
  · rcases first v e lower old with older | ⟨taken,held⟩
    · exact .inl older
    · exact .inr ⟨taken,evolves.held held⟩
  · exact .inr ⟨less _ taken,held⟩

/-- A segment that is mapped holds the only new entries. -/
theorem Filling.leaves {count : Nat} (member : pml4 ∈ procs)
    (filling : Filling boot procs (rangeSlots pml4 first count) pml4 s₀ free₀ first pages s free)
    (length : pages.length = count) : LeavesFrom boot procs pml4 s₀ free₀ s free := by
  intro v e lower leaf
  by_cases range : first ≤ v.toNat / 4096 ∧ v.toNat / 4096 < first + count
  · obtain ⟨f,page⟩ : ∃ f, pages[v.toNat / 4096 - first]? = some f := ⟨_,List.getElem?_eq_getElem (by omega)⟩
    obtain ⟨e',found,frame⟩ := filling.backed.leaf v lower f range.1 page
    have listed := List.mem_of_getElem? page
    obtain rfl : e = e' := Option.some.inj (leaf.symm.trans found)
    rw [frame]
    exact .inr ⟨filling.source f listed,(filling.backed.held f listed).1⟩
  · refine .inl ((filling.evolves.leaves (adm_pathOf v (.inr ⟨member,lower⟩)) rfl (index_lt v).2.2.2 ?_).symm.trans leaf)
    exact fun slot => range (rangeSlots_page lower slot)

/-- The array for the frames of a segment takes 8 bytes a page. -/
theorem toNat_pageArray (lower : ph.vaddr.toNat + ph.memsz.toNat ≤ 2^47) : (8#64 * pageCount ph).toNat ≤ 2^63 := by
  have count := toNat_pageCount lower
  have eight : (8#64).toNat = 8 := rfl
  unfold endPage firstPage at count
  rw [BitVec.toNat_mul,eight,Nat.mod_eq_of_lt (by omega)]
  omega

/-- The pages of a segment are new frames, and mapping them does not fail. -/
theorem pages_mapped (ok : BootOk boot) (cpu : CpuOk boot) (member : pml4 ∈ procs) (sp : Spaces boot s₀ free₀ procs)
    (lower : ph.vaddr.toNat + ph.memsz.toNat ≤ 2^47)
    (allocates : allocPages boot (pageCount ph).toNat [] s₀ = .ok (result,s)) :
    ∃ pages, result = some pages ∧ pages.length = endPage ph - firstPage ph ∧ ∀ mapped next,
      mapPages boot pml4 (alignDown ph.vaddr) (segmentFlags ph.flags) 0 pages s = .ok (mapped,next) →
      mapped = true ∧ ∃ free, Filling boot procs (rangeSlots pml4 (firstPage ph) (endPage ph - firstPage ph)) pml4
        s₀ free₀ (firstPage ph) pages next free := by
  have none : PagesTaken boot procs s₀ free₀ [] s₀ free₀ := ⟨.refl _ sp,by simp,by simp,by simp⟩
  obtain ⟨pages,left,rfl,length,taken⟩ := allocPages_spec ok none allocates
  rw [List.length_nil,Nat.zero_add,toNat_pageCount lower] at length
  refine ⟨pages,rfl,length,fun mapped next maps => ?_⟩
  have starts : (alignDown ph.vaddr).toNat = 4096 * firstPage ph := by
    rw [toNat_alignDown,firstPage]
    omega
  have room : 4096 * (firstPage ph + ([] ++ pages).length) ≤ 2^47 := by
    rw [List.nil_append,length]
    unfold firstPage endPage
    omega
  have base : Backed boot procs pml4 s left (firstPage ph) [] := ⟨by simp,by simp,by simp⟩
  obtain ⟨rfl,free,backed,mapping⟩ := mapPages_spec ok cpu member (segmentFlags_plain ph.flags) starts room base
    taken.evolves.spaces (by simpa using taken.nodup) taken.held maps
  rw [List.nil_append] at backed
  rw [List.nil_append,length] at mapping
  exact ⟨rfl,free,(taken.evolves.weaken fun _ _ _ never => never.elim).trans mapping,backed,taken.source⟩

/-- What loading one program header does, whether it succeeds or not. -/
theorem loadSegment_spec {loaded : Bool} (ok : BootOk boot) (cpu : CpuOk boot) (member : pml4 ∈ procs)
    {k after : Kernel} (sp : Spaces boot k.pmm free procs) (heapOk : HeapOk boot k.pmm free k.heap)
    (segment : ph.type = ptLoad → ph.filesz.toNat ≤ ph.memsz.toNat → SegmentOk ph)
    (returns : loadSegment boot pml4 vnode ph k = .ok (loaded,after)) :
    ∃ rest, Evolves boot procs (segmentSlots boot k.heap.cursor after.heap.cursor pml4 ph) k.pmm free after.pmm rest ∧
      LeavesFrom boot procs pml4 k.pmm free after.pmm rest ∧
      HeapOk boot after.pmm rest after.heap ∧ k.heap.cursor.toNat ≤ after.heap.cursor.toNat ∧
      (loaded = true → ph.type = ptLoad → ph.filesz.toNat ≤ ph.memsz.toNat ∧
        Shows boot procs pml4 after.pmm rest ph.vaddr.toNat ph.memsz.toNat (segmentByte vnode ph)) := by
  unfold loadSegment at returns
  split at returns
  · rename_i other
    obtain ⟨rfl,rfl⟩ := ok_pair returns
    exact ⟨free,.refl _ sp,.refl _ _ _ _ _,heapOk,Nat.le_refl _,fun _ load => absurd load other⟩
  rename_i load
  rw [not_not] at load
  split at returns
  · obtain ⟨rfl,rfl⟩ := ok_pair returns
    exact ⟨free,.refl _ sp,.refl _ _ _ _ _,heapOk,Nat.le_refl _,by simp⟩
  rename_i order
  rw [BitVec.lt_def,Nat.not_lt] at order
  have segment := segment load order
  have count := toNat_pageCount segment.lower
  have below := segment.lower
  split at returns
  · -- no page at all, so no byte either
    rename_i none
    rw [none] at count
    obtain ⟨rfl,rfl⟩ := ok_pair returns
    refine ⟨free,.refl _ sp,.refl _ _ _ _ _,heapOk,Nat.le_refl _,fun _ _ => ⟨order,fun w low high => ?_⟩⟩
    have : (0#64).toNat = 0 := rfl
    unfold endPage firstPage at count
    omega
  obtain ⟨⟨ptr,k₁⟩,array,returns⟩ := ok_of_bind returns
  obtain ⟨free₁,grown,heapOk₁,live,above⟩ := kmalloc_window ok sp heapOk (toNat_pageArray below) array
  dsimp only at returns
  rw [if_neg live] at returns
  obtain ⟨⟨result,s₂⟩,allocates,returns⟩ := ok_of_bind returns
  obtain ⟨pages,rfl,length,mapping⟩ := pages_mapped ok cpu member grown.spaces below allocates
  obtain ⟨⟨mapped,s₃⟩,maps,returns⟩ := ok_of_bind returns
  obtain ⟨rfl,free₃,filling⟩ := mapping _ _ maps
  dsimp only at returns
  rw [if_neg (by decide)] at returns
  obtain ⟨⟨filled,s₄⟩,fills,returns⟩ := ok_of_bind returns
  obtain ⟨rfl,rfl⟩ := ok_pair returns
  obtain ⟨filled,shows⟩ := fillSegment_spec ok member filling length order segment fills
  have old : LeavesFrom boot procs pml4 k.pmm free k₁.pmm free₁ := by
    intro v e lower leaf
    refine .inl ((grown.leaves (adm_pathOf v (.inr ⟨member,lower⟩)) rfl (index_lt v).2.2.2 ?_).symm.trans leaf)
    exact fun slot => sp.kernel (slot.1 ▸ member)
  have leaves := old.trans (filled.leaves member length) grown.less filled.evolves
  exact ⟨free₃,(grown.weaken fun _ _ _ => .inl).trans (filled.evolves.weaken fun _ _ _ page => .inr ⟨load,page⟩),leaves,
    heapOk₁.evolves filled.evolves,above,fun done _ => ⟨order,shows done⟩⟩

end Reddyos
