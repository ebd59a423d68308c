import Reddyos.VmmSpaces

/-! Sequences of paging and allocator calls: what any of them leaves alone, with the
last-level entries they may change as a parameter. -/
namespace Reddyos

open ByteMemory RadixForest

variable {boot : Boot} {procs : List U64} {changed : Slots} {s next : Pmm} {free rest : List U64}

def leafOf (s : Pmm) (pml4 v : U64) : Option U64 := leafAt s.mem pml4 (pathOf v) (ptIndex v)

def Held (boot : Boot) (procs : List U64) (s : Pmm) (free : List U64) (f : U64) : Prop :=
  FrameOk f ∧ f ∉ avail boot s free ∧
    ∀ root path, Adm boot procs root path → walk (child s.mem) root path ≠ some f

theorem Evolves.held (evolves : Evolves boot procs changed s free next rest)
    (held : Held boot procs s free f) : Held boot procs next rest f := by
  obtain ⟨frame,apart,unreached⟩ := held
  refine ⟨frame,fun here => apart (evolves.less f here),fun root path selected found => ?_⟩
  rcases evolves.tables selected found with old | new
  · exact unreached root path selected old
  · exact apart new

theorem Created.held (created : Created boot s free procs pml4 next rest) (held : Held boot procs s free f) :
    Held boot (pml4 :: procs) next rest f := by
  obtain ⟨frame,apart,unreached⟩ := held
  refine ⟨frame,fun here => apart (created.less f here),fun root path selected found => ?_⟩
  by_cases same : root = pml4
  · subst root
    by_cases nonempty : path = []
    · subst path
      rw [← Option.some.inj found] at apart
      exact apart created.source
    · rw [created.empty selected nonempty] at found
      cases found
  · have old : Adm boot procs root path := selected.older same
    rw [created.same.walk old] at found
    exact unreached root path old found

theorem Evolves.bytes (ok : BootOk boot) (sp : Spaces boot s free procs)
    (evolves : Evolves boot procs changed s free next rest)
    (owned : Held boot procs s free f) (low : f.toNat ≤ b) (high : b < f.toNat + 4096) :
    next.mem b = s.mem b := by
  obtain ⟨_,_,unreached⟩ := evolves.held owned
  obtain ⟨frame,apart,_⟩ := owned
  refine evolves.frame ?_ ?_
  · exact outside_of_not_mem (fun g member => (avail_ok ok sp.pmm member).1) frame.1 apart low high
  · intro root path g selected found
    have different : g ≠ f := fun same => unreached root path selected (same ▸ found)
    have := frames_apart (evolves.spaces.table_ok selected found).1 frame.1 different
    unfold Clear
    omega

theorem Spaces.writes {owned : U64 → Prop} (ok : BootOk boot) (sp : Spaces boot s free procs)
    (held : ∀ f, owned f → Held boot procs s free f)
    (outside : ∀ b, (∀ f, owned f → Clear f b) → mem b = s.mem b) :
    Spaces boot { s with mem := mem } free procs ∧ TablesSame boot procs s.mem mem := by
  have apart : ∀ f, Aligned f → ¬owned f → ∀ b, f.toNat ≤ b → b < f.toNat + 4096 → mem b = s.mem b := by
    intro f aligned other b low high
    refine outside b fun g own => ?_
    have := frames_apart aligned (held g own).1.1 (fun same => other (same ▸ own))
    unfold Clear
    omega
  have same : TablesSame boot procs s.mem mem := by
    intro root path f i selected found bound
    refine entry_congr bound (apart f (sp.table_ok selected found).1 ?_)
    exact fun own => (held f own).2.2 root path selected found
  refine ⟨sp.quiet (sp.pmm.write ?_) same (fun _ h => h),same⟩
  intro f member
  have inAvail : f ∈ avail boot s free := by simp [avail,member]
  exact apart f (avail_ok ok sp.pmm inAvail).1 (fun own => (held f own).2.1 inAvail)

theorem Spaces.write (ok : BootOk boot) (sp : Spaces boot s free procs)
    (held : ∀ f ∈ pages, Held boot procs s free f)
    (outside : ∀ b, Outside pages b → mem b = s.mem b) :
    Spaces boot { s with mem := mem } free procs ∧ TablesSame boot procs s.mem mem :=
  sp.writes ok held outside

theorem TablesSame.held (same : TablesSame boot procs s.mem mem) (held : Held boot procs s free f) :
    Held boot procs { s with mem := mem } free f := by
  obtain ⟨frame,apart,unreached⟩ := held
  refine ⟨frame,apart,fun root path selected found => ?_⟩
  exact unreached root path selected ((same.walk selected).symm.trans found)

/-- Writes into frames that were taken on the way. -/
theorem Evolves.write (ok : BootOk boot) (evolves : Evolves boot procs changed s free next rest)
    (held : ∀ f ∈ pages, Held boot procs next rest f) (source : ∀ f ∈ pages, f ∈ avail boot s free)
    (outside : ∀ b, Outside pages b → mem b = next.mem b) :
    Evolves boot procs changed s free { next with mem := mem } rest := by
  obtain ⟨spaces,same⟩ := evolves.spaces.write ok held outside
  refine ⟨spaces,evolves.less,?_,?_,?_,?_,?_,?_,?_⟩
  · exact fun selected found => (same.walk selected).trans (evolves.mono selected found)
  · exact fun selected found => evolves.tables selected ((same.walk selected).symm.trans found)
  · exact fun selected full bound other =>
      (same.leafAt selected bound).trans (evolves.leaves selected full bound other)
  · intro root path i f selected found present
    rw [same root path f i (adm_closed selected) (evolves.mono (adm_closed selected) found) (adm_index selected)]
    exact evolves.keeps selected found present
  · intro root path i f selected found
    rw [same.walk (adm_closed selected)] at found
    rw [same root path f i (adm_closed selected) found (adm_index selected)]
    exact evolves.small selected found
  · intro root i member low high
    rw [same root [] root i (adm_nil (.inr member)) rfl high]
    exact evolves.upper member low high
  · intro b apart tables
    refine (outside b fun f member => apart f (source f member)).trans (evolves.frame apart ?_)
    exact fun root path f selected found => tables root path f selected ((same.walk selected).trans found)

theorem vmmVirtToPhysAs_leaf (leaf : leafAt m root (pathOf v) (ptIndex v) = some e) :
    vmmVirtToPhysAs m root v = (physical v e).toNat := by
  unfold leafAt at leaf
  obtain ⟨pt,found,last⟩ := Option.bind_eq_some_iff.mp leaf
  split at last
  · rename_i present
    obtain rfl := Option.some.inj last
    simp only [pathOf,walk_cons,walk_nil,child] at found
    split at found
    · rename_i first
      rw [Option.bind_some] at found
      split at found
      · rename_i second
        rw [Option.bind_some] at found
        split at found
        · rename_i third
          rw [Option.bind_some,Option.some.injEq] at found
          subst found
          simp only [vmmVirtToPhysAs,if_neg first.1,if_neg second.1,if_neg third.1,if_neg present,physical]
        · cases found
      · cases found
    · cases found
  · cases last

theorem vmmLookup_leaf (leaf : leafAt m root (pathOf v) (ptIndex v) = some e)
    (positive : 0 < (physical v e).toNat) : vmmLookup m root v = some (physical v e) := by
  have value := vmmVirtToPhysAs_leaf leaf
  unfold vmmLookup
  rw [value,if_neg (by omega),BitVec.ofInt_natCast,BitVec.ofNat_toNat,BitVec.setWidth_eq]

/-- `cpu_max_phys_mask` is a mask of the low bits. -/
def CpuOk (boot : Boot) : Prop := ∃ bits ≤ 64, boot.cpuPageMask = BitVec.ofNat 64 (2^bits - 1)

theorem vmmMap_reach (returns : vmmMap boot root v phys flags s = .ok next) :
    ¬boot.cpuPageMask < phys := by
  intro beyond
  simp [vmmMap,beyond] at returns
  cases returns

theorem leafEntry_frame (cpu : CpuOk boot) (reach : ¬boot.cpuPageMask < phys) (frame : FrameOk phys)
    (plain : flags &&& pageMask = 0#64) : leafEntry boot phys flags &&& pageMask = phys := by
  obtain ⟨bits,width,mask⟩ := cpu
  have whole : phys &&& boot.cpuPageMask = phys := by
    apply BitVec.eq_of_toNat_eq
    rw [mask] at reach ⊢
    rw [Words.toNat_and_low _ _ width]
    have small : 2^bits - 1 < 2^64 := by
      have := Nat.pow_le_pow_right (show 0 < 2 by decide) width
      omega
    rw [BitVec.lt_def,BitVec.toNat_ofNat,Nat.mod_eq_of_lt small,Nat.not_lt] at reach
    have : 0 < 2^bits := Nat.two_pow_pos bits
    exact Nat.mod_eq_of_lt (by omega)
  unfold leafEntry
  rw [whole,BitVec.or_assoc]
  apply frame_or_flags frame
  rw [BitVec.and_or_distrib_right,plain,show pagePresent &&& pageMask = 0#64 by decide]
  simp

end Reddyos
