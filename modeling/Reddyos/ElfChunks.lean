import Reddyos.ByteRange
import Reddyos.Elf

/-! Reading and clearing a segment chunk by chunk: as long as no chunk crosses a page, each
one changes the bytes the process sees at the addresses it is meant for, and no others. -/
namespace Reddyos

open ByteMemory ByteRange RadixForest

theorem toInt_count (small : count.toNat < 2^31) :
    ((count : U64).setWidth 32).toInt = count.toNat ∧ BitVec.ofInt 64 (count.toNat : Int) = count := by
  constructor
  · rw [BitVec.toInt_eq_toNat_of_lt]
    · simp only [BitVec.toNat_setWidth]
      exact congrArg _ (Nat.mod_eq_of_lt (by omega))
    · simp only [BitVec.toNat_setWidth]
      omega
  · apply BitVec.eq_of_toNat_eq
    simp

/-- `tar_read` clamps the request to the end of the file. -/
theorem tarRead_eq (vnode : Vnode) (offset : U64) (out : Nat) (size : U64) (m : Mem) :
    tarRead vnode offset out size m = (((clamped vnode.size offset size).setWidth 32).toInt,
      copy m out (fun i => vnode.data (offset.toNat + i)) (clamped vnode.size offset size).toNat) := by
  unfold tarRead clamped
  split
  · have none : copy m out (fun i => vnode.data (offset.toNat + i)) 0 = m := by
      funext b
      exact copy_outside (by omega)
    exact Prod.ext rfl none.symm
  split <;> rfl

/-- What `tar_read` reads when the sum does not wrap: the part of the request that is left. -/
theorem tarRead_left (vnode : Vnode) (offset : U64) (out : Nat) (m : Mem)
    (fits : vnode.size ≤ offset ∨ offset.toNat + size.toNat < 2^64)
    (small : min size.toNat (vnode.size.toNat - offset.toNat) < 2^31) :
    ∃ count : U64, count.toNat = min size.toNat (vnode.size.toNat - offset.toNat) ∧
      tarRead vnode offset out size m =
        ((count.toNat : Int),copy m out (fun i => vnode.data (offset.toNat + i)) count.toNat) := by
  have count := toNat_clamped_iff.mpr fits
  refine ⟨clamped vnode.size offset size,count,?_⟩
  rw [tarRead_eq,(toInt_count (by omega)).1]

/-- What `tar_read` reads: `size` bytes, or those up to the end of the file. -/
theorem tarRead_count (vnode : Vnode) (offset : U64) (out : Nat) (m : Mem) (small : size.toNat < 2^31) :
    ∃ count : U64, count.toNat = min size.toNat (vnode.size.toNat - offset.toNat) ∧
      tarRead vnode offset out size m =
        ((count.toNat : Int),copy m out (fun i => vnode.data (offset.toNat + i)) count.toNat) := by
  have fits := vnode.fits
  refine tarRead_left vnode offset out m ?_ (by omega)
  rw [BitVec.le_def]
  omega

theorem tarRead_spec (vnode : Vnode) (offset : U64) (out : Nat) (m : Mem) (small : size.toNat ≤ 4096)
    (some' : size ≠ 0#64) :
    (vnode.size ≤ offset ∧ tarRead vnode offset out size m = (0,m)) ∨
      (offset < vnode.size ∧ ∃ count : U64, 0 < count.toNat ∧
        (count = size ∨ count.toNat < size.toNat ∧ offset + count = vnode.size) ∧
        tarRead vnode offset out size m =
          ((count.toNat : Int),copy m out (fun i => vnode.data (offset.toNat + i)) count.toNat)) := by
  by_cases beyond : vnode.size ≤ offset
  · exact .inl ⟨beyond,by rw [tarRead,if_pos beyond]⟩
  · obtain ⟨count,bytes,reads⟩ := tarRead_count vnode offset out m (show size.toNat < 2^31 by omega)
    have fits := vnode.fits
    refine .inr ⟨BitVec.not_le.mp beyond,count,?_,?_,reads⟩
    · bv_omega
    · by_cases enough : size.toNat ≤ vnode.size.toNat - offset.toNat
      · exact .inl (BitVec.eq_of_toNat_eq (by omega))
      · exact .inr ⟨by omega,by bv_omega⟩

theorem advance_count (file : File) (small : count.toNat < 2^31) (live : 0 < count.toNat) :
    file.advance (count.toNat : Int) = { file with offset := file.offset + count } := by
  rw [File.advance,if_pos (by omega),(toInt_count small).2]

theorem readLoop_done (fuel : Nat) (file : File) (out : Nat) (m : Mem) :
    readLoop fuel file out 0#64 m = (true,file,m) := by
  cases fuel <;> simp [readLoop]

theorem readLoop_step (some' : size ≠ 0#64) (small : count.toNat < 2^31) (live : 0 < count.toNat)
    (read : tarRead file.vnode file.offset out size m = ((count.toNat : Int),m')) :
    readLoop (fuel + 1) file out size m =
      readLoop fuel { file with offset := file.offset + count } (out + count.toNat) (size - count) m' := by
  have more : ¬((count.toNat : Int) ≤ 0) := by omega
  conv_lhs => rw [readLoop]
  rw [if_neg some']
  simp only [vfsRead,read,advance_count file small live,(toInt_count small).2,if_neg more,
    Int.toNat_natCast]

theorem readLoop_end (some' : size ≠ 0#64) (beyond : file.vnode.size ≤ file.offset) :
    readLoop (fuel + 1) file out size m = (false,file,m) := by
  unfold readLoop
  rw [if_neg some']
  simp [vfsRead,tarRead,beyond,File.advance]

/-- `read_exact` reads all it is asked for, or some of it and fails. -/
theorem readExact_spec {read : Bool} (small : size.toNat ≤ 4096) (some' : size ≠ 0#64)
    (returns : readExact file (some out) size m = (read,file',m')) :
    ∃ count ≤ size.toNat, m' = copy m out (fun i => file.vnode.data (file.offset.toNat + i)) count ∧
      (read = true → count = size.toNat ∧ file.offset < file.vnode.size ∧
        file' = { file with offset := file.offset + size }) := by
  obtain ⟨fuel,positive⟩ : ∃ fuel, size.toNat = fuel + 1 := ⟨size.toNat - 1,by bv_omega⟩
  simp only [readExact,positive] at returns
  rcases tarRead_spec file.vnode file.offset out m small some' with
    ⟨beyond,_⟩ | ⟨inside,count,live,rfl | ⟨less,atEnd⟩,first⟩
  · rw [readLoop_end some' beyond] at returns
    simp only [Prod.mk.injEq] at returns
    obtain ⟨rfl,_,rfl⟩ := returns
    refine ⟨0,by omega,?_,by simp⟩
    funext b
    rw [copy_outside (by omega)]
  · rw [readLoop_step some' (by omega) live first,BitVec.sub_self,readLoop_done] at returns
    simp only [Prod.mk.injEq] at returns
    obtain ⟨_,rfl,rfl⟩ := returns
    exact ⟨count.toNat,Nat.le_refl _,rfl,fun _ => ⟨rfl,inside,rfl⟩⟩
  · -- the second round finds the end of the file
    obtain ⟨fuel',rfl⟩ : ∃ fuel', fuel = fuel' + 1 := ⟨fuel - 1,by omega⟩
    rw [readLoop_step some' (by omega) live first,
      readLoop_end (by bv_omega) (by dsimp only; rw [atEnd]; exact BitVec.le_refl _)] at returns
    simp only [Prod.mk.injEq] at returns
    obtain ⟨rfl,_,rfl⟩ := returns
    exact ⟨count.toNat,by omega,rfl,by simp⟩

/-- The rule for `forChunks`: what every round keeps holds at the end, and a round that
gives up leaves what it must. -/
theorem forChunks_spec {body : U64 → U64 → σ → Except Stop (Bool × σ)} {total : U64}
    (inv : Nat → σ → Prop) (fail : σ → Prop)
    (step : ∀ offset chunk st goOn st', offset.toNat % 4096 = 0 → 0 < chunk.toNat → chunk.toNat ≤ 4096 →
      offset.toNat + chunk.toNat ≤ total.toNat → inv offset.toNat st →
      body offset chunk st = .ok (goOn,st') →
      if goOn then inv (offset.toNat + chunk.toNat) st' else fail st')
    (aligned : offset.toNat % 4096 = 0 ∨ offset = total) (le : offset.toNat ≤ total.toNat)
    (enough : total.toNat ≤ offset.toNat + 4096 * fuel) (start : inv offset.toNat st)
    (returns : forChunks body total fuel offset st = .ok (goOn,st')) :
    if goOn then inv total.toNat st' else fail st' := by
  induction fuel generalizing offset st with
  | zero =>
    obtain ⟨rfl,rfl⟩ := ok_pair returns
    rw [show total.toNat = offset.toNat by omega]
    exact start
  | succ fuel ih =>
    unfold forChunks at returns
    split at returns
    · rename_i less
      have less' := BitVec.lt_def.mp less
      obtain ⟨chunk,value,small,rest,last⟩ : ∃ chunk : U64,
          (if 4096#64 < total - offset then 4096#64 else total - offset) = chunk ∧ chunk.toNat ≤ 4096 ∧
            offset.toNat + chunk.toNat ≤ total.toNat ∧ 0 < chunk.toNat ∧
            (chunk.toNat = 4096 ∨ offset.toNat + chunk.toNat = total.toNat) := by
        have left : (total - offset).toNat = total.toNat - offset.toNat := by bv_omega
        have page : (4096#64).toNat = 4096 := rfl
        refine ⟨_,rfl,?_⟩
        split
        · rename_i long
          rw [BitVec.lt_def] at long
          omega
        · rename_i short
          rw [BitVec.lt_def] at short
          omega
      obtain ⟨⟨more,middle⟩,round,returns⟩ := ok_of_bind returns
      dsimp only at returns
      rw [value] at round returns
      have whole : offset.toNat % 4096 = 0 := aligned.resolve_right (fun same => by rw [same] at less'; omega)
      have stepped := step offset chunk st more middle whole last.1 small rest start round
      have sum : (offset + chunk).toNat = offset.toNat + chunk.toNat := by
        rw [BitVec.toNat_add]
        exact Nat.mod_eq_of_lt (by omega)
      cases more with
      | false =>
        obtain ⟨rfl,rfl⟩ := ok_pair returns
        exact stepped
      | true =>
        rw [← sum] at stepped
        refine ih ?_ (by omega) (by omega) stepped returns
        rcases last.2 with full | final
        · left; omega
        · right; apply BitVec.eq_of_toNat_eq; omega
    · rename_i done
      rw [BitVec.lt_def,Nat.not_lt] at done
      obtain ⟨rfl,rfl⟩ := ok_pair returns
      rw [show total.toNat = offset.toNat by omega]
      exact start

def Sees (boot : Boot) (procs : List U64) (pml4 : U64) (s : Pmm) (free : List U64) (v : U64)
    (b : BitVec 8) : Prop :=
  ∃ e, leafOf s pml4 v = some e ∧ Held boot procs s free (e &&& pageMask) ∧ s.mem (physical v e).toNat = b

structure Backed (boot : Boot) (procs : List U64) (pml4 : U64) (s : Pmm) (free : List U64)
    (first : Nat) (pages : List U64) : Prop where
  nodup : pages.Nodup
  held : ∀ f ∈ pages, Held boot procs s free f ∧ f ≠ 0#64
  leaf : ∀ v : U64, lowerHalf v → ∀ f, first ≤ v.toNat / 4096 → pages[v.toNat / 4096 - first]? = some f →
    ∃ e, leafOf s pml4 v = some e ∧ e &&& pageMask = f

section

variable {boot : Boot} {procs : List U64} {pml4 : U64} {s s₀ : Pmm} {free free₀ pages : List U64}
variable {changed : Slots} {first : Nat}

theorem Sees.evolves {next : Pmm} {rest : List U64} (sees : Sees boot procs pml4 s free v b) (ok : BootOk boot)
    (sp : Spaces boot s free procs) (member : pml4 ∈ procs) (lower : lowerHalf v)
    (evolves : Evolves boot procs changed s free next rest)
    (other : ¬changed pml4 (pathOf v) (ptIndex v)) : Sees boot procs pml4 next rest v b := by
  obtain ⟨e,leaf,held,byte⟩ := sees
  refine ⟨e,?_,evolves.held held,?_⟩
  · exact (evolves.leaves (adm_pathOf v (.inr ⟨member,lower⟩)) rfl (index_lt v).2.2.2 other).trans leaf
  · rw [evolves.bytes ok sp held ?_ ?_,byte]
    · rw [toNat_physical]; omega
    · rw [toNat_physical]; omega

/-- What `vmm_lookup_ap` gives on a page that is backed. -/
theorem Backed.lookup (backed : Backed boot procs pml4 s free first pages) (lower : lowerHalf v)
    (low : first ≤ v.toNat / 4096) (page : pages[v.toNat / 4096 - first]? = some f) :
    ∃ phys, vmmLookup s.mem pml4 v = some phys ∧ phys.toNat = f.toNat + v.toNat % 4096 := by
  obtain ⟨e,leaf,frame⟩ := backed.leaf v lower f low page
  have live := (backed.held f (List.mem_of_getElem? page)).2
  have value := toNat_physical v e
  rw [frame] at value
  exact ⟨_,vmmLookup_leaf leaf (by bv_omega),value⟩

/-- A write into one page: the process sees it at the addresses of that page. -/
theorem Backed.write {v : U64} (ok : BootOk boot) (backed : Backed boot procs pml4 s free first pages)
    (sp : Spaces boot s free procs) (member : pml4 ∈ procs)
    (low : first ≤ v.toNat / 4096) (page : pages[v.toNat / 4096 - first]? = some f)
    (fits : v.toNat % 4096 + n ≤ 4096) :
    Backed boot procs pml4 { s with mem := copy s.mem (f.toNat + v.toNat % 4096) data n } free first pages ∧
      ∀ w b, lowerHalf w → first ≤ w.toNat / 4096 → w.toNat / 4096 - first < pages.length →
        (v.toNat ≤ w.toNat → w.toNat < v.toNat + n → b = data (w.toNat - v.toNat)) →
        (¬(v.toNat ≤ w.toNat ∧ w.toNat < v.toNat + n) → Sees boot procs pml4 s free w b) →
        Sees boot procs pml4 { s with mem := copy s.mem (f.toNat + v.toNat % 4096) data n } free w b := by
  have listed := List.mem_of_getElem? page
  have outside : ∀ b, Outside [f] b → copy s.mem (f.toNat + v.toNat % 4096) data n b = s.mem b := by
    intro b apart
    have := apart f (by simp)
    exact copy_outside (by omega)
  obtain ⟨_,same⟩ := sp.write ok (by simpa using (backed.held f listed).1) outside
  have leaf : ∀ w, lowerHalf w → leafOf { s with mem := copy s.mem (f.toNat + v.toNat % 4096) data n } pml4 w =
      leafOf s pml4 w :=
    fun w below => same.leafAt (adm_pathOf w (.inr ⟨member,below⟩)) (index_lt w).2.2.2
  refine ⟨⟨backed.nodup,fun g here => ⟨same.held (backed.held g here).1,(backed.held g here).2⟩,?_⟩,?_⟩
  · intro w below g above here
    rw [leaf w below]
    exact backed.leaf w below g above here
  · intro w b below above short inside other
    obtain ⟨g,here⟩ : ∃ g, pages[w.toNat / 4096 - first]? = some g := ⟨_,List.getElem?_eq_getElem short⟩
    obtain ⟨e,found,frame⟩ := backed.leaf w below g above here
    have address := toNat_physical w e
    rw [frame] at address
    have gHeld := (backed.held g (List.mem_of_getElem? here)).1
    refine ⟨e,(leaf w below).trans found,same.held (frame ▸ gHeld),?_⟩
    dsimp only
    by_cases within : v.toNat ≤ w.toNat ∧ w.toNat < v.toNat + n
    · have number : w.toNat / 4096 = v.toNat / 4096 := by omega
      rw [number,page] at here
      obtain rfl := Option.some.inj here
      rw [copy_inside (by omega) (by omega),inside within.1 within.2]
      exact congrArg data (by omega)
    · obtain ⟨e',found',_,byte⟩ := other within
      rw [found] at found'
      obtain rfl := Option.some.inj found'
      rw [copy_outside,byte]
      by_cases number : w.toNat / 4096 = v.toNat / 4096
      · rw [number,page] at here
        obtain rfl := Option.some.inj here
        omega
      · -- another page, so another frame
        have different : g ≠ f := by
          rintro rfl
          have := (List.getElem?_inj short backed.nodup).mp (here.trans page.symm)
          omega
        have := frames_apart gHeld.1.1 (backed.held f listed).1.1.1 different
        omega

end

end Reddyos
