import Reddyos.PmmRun

/-! A refill may be cut anywhere: `pmm_fill(a)` and then `pmm_fill(b)` is `pmm_fill(a + b)`. The cursor can
stand inside an entry, behind its last page or before entries that are skipped. -/
namespace Reddyos

open ByteMemory LinkedChain

variable {boot : Boot} {e : MemmapEntry} {rest entries : List MemmapEntry} {s next : Pmm} {a b n : Nat}

/-- The loop ends with all pages added or with no page left in the entry. -/
theorem fillPages_ends (boot : Boot) (e : MemmapEntry) (stop : U64) (a : Nat) (s : Pmm) :
    (fillPages boot e stop a s).1 = 0 ∨ stop < e.base + (fillPages boot e stop a s).2.fillOffset + 4096#64 := by
  induction a generalizing s with
  | zero => exact .inl rfl
  | succ a ih =>
    unfold fillPages
    split
    · exact ih _
    · rename_i full
      exact .inr (BitVec.not_le.mp full)

theorem fillPages_full {stop : U64} (full : stop < e.base + s.fillOffset + 4096#64) (boot : Boot) (a : Nat) :
    fillPages boot e stop a s = (a,s) := by
  cases a with
  | zero => rfl
  | succ a => exact if_neg (BitVec.not_le.mpr full)

/-- More pages are added where the loop stopped. -/
theorem fillPages_add (boot : Boot) (e : MemmapEntry) (stop : U64) (a b : Nat) (s : Pmm) :
    fillPages boot e stop (a + b) s =
      if (fillPages boot e stop a s).1 = 0 then fillPages boot e stop b (fillPages boot e stop a s).2
      else ((fillPages boot e stop a s).1 + b,(fillPages boot e stop a s).2) := by
  induction a generalizing s with
  | zero =>
    rw [Nat.zero_add]
    rfl
  | succ a ih =>
    rw [Nat.add_right_comm]
    by_cases more : e.base + s.fillOffset + 4096#64 ≤ stop
    · have takes : ∀ n, fillPages boot e stop (n + 1) s = fillPages boot e stop n (takePage boot e s) :=
        fun n => if_pos more
      rw [takes,takes]
      exact ih _
    · have stops : ∀ n, fillPages boot e stop (n + 1) s = (n + 1,s) := fun n => if_neg more
      rw [stops,stops,if_neg (Nat.succ_ne_zero a),Nat.add_right_comm]

/-- Behind a round that used up the entry, more pages come from later entries. -/
theorem fillPages_add_full {stop : U64} (full : stop < e.base + (fillPages boot e stop a s).2.fillOffset + 4096#64) (b : Nat) :
    fillPages boot e stop (a + b) s = ((fillPages boot e stop a s).1 + b,(fillPages boot e stop a s).2) := by
  rw [fillPages_add,fillPages_full full]
  split
  · rename_i all
    rw [all,Nat.zero_add]
  · rfl

/-- An entry behind the cursor is no matter for what follows. -/
theorem resume_skip (forward : s.fillEntry + 1 ≤ next.fillEntry) :
    (e :: rest).drop (next.fillEntry - s.fillEntry) = rest.drop (next.fillEntry - (s.fillEntry + 1)) := by
  rw [show next.fillEntry - s.fillEntry = next.fillEntry - (s.fillEntry + 1) + 1 by omega]
  rfl

theorem fillEntries_forward (boot : Boot) (entries : List MemmapEntry) (a : Nat) (s : Pmm) :
    s.fillEntry ≤ (fillEntries boot entries a s).fillEntry := by
  induction entries generalizing a s with
  | nil => exact Nat.le_refl _
  | cons e rest ih =>
    by_cases none : a = 0
    · rw [none,fillEntries_zero]
    by_cases skipped : Skipped e
    · rw [fillEntries_skip skipped none]
      exact Nat.le_of_succ_le (ih a s.nextEntry)
    rw [fillEntries_take skipped none]
    have same : (fillPages boot e (alignedEnd e) a (startEntry e s)).2.fillEntry = s.fillEntry :=
      (fillPages_entry _ _ _ _ _).trans (startEntry_entry e s)
    dsimp only
    split
    · exact Nat.le_of_succ_le (same ▸ ih _ (Pmm.nextEntry _))
    · exact same.ge

/-- Cutting a refill on the entries from the cursor on. -/
theorem fillEntries_add (boot : Boot) (entries : List MemmapEntry) (a b : Nat) (s : Pmm)
    (fits : ∀ e ∈ entries, Usable e → e.limit ≤ 2^52) (cursor : CursorOk entries s.fillOffset) :
    fillEntries boot (entries.drop ((fillEntries boot entries a s).fillEntry - s.fillEntry)) b
      (fillEntries boot entries a s) = fillEntries boot entries (a + b) s := by
  induction entries generalizing a s with
  | nil => simp [fillEntries]
  | cons e rest ih =>
    -- the first refill leaves the entry behind, with `more` pages still to add
    have leaves : ∀ more (middle : Pmm), middle.fillEntry = s.fillEntry →
        fillEntries boot ((e :: rest).drop ((fillEntries boot rest more middle.nextEntry).fillEntry - s.fillEntry)) b
          (fillEntries boot rest more middle.nextEntry) = fillEntries boot rest (more + b) middle.nextEntry := by
      intro more middle same
      have forward : s.fillEntry + 1 ≤ (fillEntries boot rest more middle.nextEntry).fillEntry :=
        same ▸ fillEntries_forward boot rest more middle.nextEntry
      rw [resume_skip forward,← same]
      exact ih more middle.nextEntry (fun e member => fits e (by simp [member])) cursor_zero
    by_cases none : a = 0
    · subst none
      rw [fillEntries_zero,Nat.sub_self,Nat.zero_add]
      rfl
    have more : a + b ≠ 0 := by omega
    by_cases skipped : Skipped e
    · rw [fillEntries_skip skipped none,fillEntries_skip skipped more]
      exact leaves a s rfl
    rw [fillEntries_take skipped none,fillEntries_take skipped more]
    dsimp only
    by_cases done : alignedEnd e < e.base + (fillPages boot e (alignedEnd e) a (startEntry e s)).2.fillOffset + 4096#64
    · rw [if_pos done,fillPages_add_full done,if_pos done]
      exact leaves _ _ ((fillPages_entry _ _ _ _ _).trans (startEntry_entry e s))
    · -- the first refill stops inside the entry, which is then started
      rw [if_neg done,fillPages_entry,startEntry_entry,Nat.sub_self,List.drop_zero]
      have fits := fits e (by simp)
      obtain ⟨usable,nonempty⟩ := not_skipped fits skipped
      have limit := fits usable
      obtain ⟨c,start,low,high,_⟩ := startEntry_spec usable limit nonempty cursor
      have started := (fillPages_round boot limit a high start).started low high none
      have all := (fillPages_ends boot e (alignedEnd e) a (startEntry e s)).resolve_right done
      rw [fillPages_add,if_pos all]
      generalize fillPages boot e (alignedEnd e) a (startEntry e s) = result at *
      by_cases last : b = 0
      · subst last
        rw [fillEntries_zero]
        exact (if_neg done).symm
      · rw [fillEntries_take skipped last,startEntry,if_neg started]

/-- The condition of the outer loop and its body, with the pages added so far; `none` ends the loop. -/
def pmmFillRound (boot : Boot) (pages added : Nat) (s : Pmm) : Option (Nat × Pmm) :=
  match boot.memmap[s.fillEntry]? with
  | none => none
  | some e =>
    if pages ≤ added then none
    else if e.type ≠ limineMemmapUsable then some (added,s.nextEntry)
    else if alignedEnd e ≤ alignedStart e then some (added,s.nextEntry)
    else
      let filled := fillPages boot e (alignedEnd e) (pages - added) (startEntry e s)
      some (pages - filled.1,
        if alignedEnd e < e.base + filled.2.fillOffset + 4096#64 then filled.2.nextEntry else filled.2)

def pmmFillLoop (boot : Boot) (pages : Nat) : Nat → Nat → Pmm → Option Pmm
  | 0, _, _ => none
  | fuel + 1, added, s =>
    match pmmFillRound boot pages added s with
    | none => some s
    | some (added,s) => pmmFillLoop boot pages fuel added s

theorem fillPages_le (boot : Boot) (e : MemmapEntry) (stop : U64) (a : Nat) (s : Pmm) :
    (fillPages boot e stop a s).1 ≤ a := by
  induction a generalizing s with
  | zero => exact Nat.le_refl 0
  | succ a ih =>
    unfold fillPages
    split
    · exact Nat.le_succ_of_le (ih _)
    · exact Nat.le_refl _

theorem pmmFillLoop_added (boot : Boot) (pages fuel : Nat) (s : Pmm) :
    pmmFillLoop boot pages (fuel + 1) pages s = some s := by
  have ends : pmmFillRound boot pages pages s = none := by
    unfold pmmFillRound
    split
    · rfl
    · exact if_pos (Nat.le_refl _)
  rw [pmmFillLoop,ends]

theorem pmmFillRound_skip {pages added : Nat} (found : boot.memmap[s.fillEntry]? = some e) (live : ¬pages ≤ added)
    (skipped : Skipped e) : pmmFillRound boot pages added s = some (added,s.nextEntry) := by
  unfold pmmFillRound
  rw [found]
  dsimp only
  rw [if_neg live]
  rcases skipped with unusable | empty
  · exact if_pos unusable
  · rw [if_pos empty,ite_self]

theorem pmmFillRound_take {pages added : Nat} (found : boot.memmap[s.fillEntry]? = some e) (live : ¬pages ≤ added)
    (taken : ¬Skipped e) : pmmFillRound boot pages added s =
      let filled := fillPages boot e (alignedEnd e) (pages - added) (startEntry e s)
      some (pages - filled.1,
        if alignedEnd e < e.base + filled.2.fillOffset + 4096#64 then filled.2.nextEntry else filled.2) := by
  obtain ⟨usable,nonempty⟩ := not_or.mp taken
  unfold pmmFillRound
  rw [found]
  dsimp only
  rw [if_neg live,if_neg usable,if_neg nonempty]

/-- Every round but the last goes on to the next entry. -/
theorem pmmFillLoop_spec (boot : Boot) {pages added fuel : Nat} {s : Pmm} (some' : added ≤ pages)
    (enough : boot.memmap.length - s.fillEntry + 1 < fuel) :
    pmmFillLoop boot pages fuel added s = some (fillEntries boot (boot.memmap.drop s.fillEntry) (pages - added) s) := by
  induction fuel generalizing added s with
  | zero => exact absurd enough (Nat.not_lt_zero _)
  | succ fuel ih =>
    by_cases all : pages = added
    · rw [all,Nat.sub_self,fillEntries_zero,pmmFillLoop_added]
    have live : ¬pages ≤ added := by omega
    have positive : pages - added ≠ 0 := by omega
    cases found : boot.memmap[s.fillEntry]? with
    | none =>
      have ends : pmmFillRound boot pages added s = none := by rw [pmmFillRound,found]
      rw [pmmFillLoop,ends,List.drop_eq_nil_of_le (List.getElem?_eq_none_iff.mp found)]
      rfl
    | some e =>
      obtain ⟨inside,here⟩ := List.getElem?_eq_some_iff.mp found
      rw [List.drop_eq_getElem_cons inside,here,pmmFillLoop]
      by_cases skipped : Skipped e
      · rw [pmmFillRound_skip found live skipped,fillEntries_skip skipped positive]
        exact ih some' (by simp only [Pmm.nextEntry]; omega)
      rw [pmmFillRound_take found live skipped,fillEntries_take skipped positive]
      have left := fillPages_le boot e (alignedEnd e) (pages - added) (startEntry e s)
      have ends := fillPages_ends boot e (alignedEnd e) (pages - added) (startEntry e s)
      have same := (fillPages_entry boot e (alignedEnd e) (pages - added) (startEntry e s)).trans (startEntry_entry e s)
      generalize fillPages boot e (alignedEnd e) (pages - added) (startEntry e s) = filled at *
      dsimp only
      by_cases done : alignedEnd e < e.base + filled.2.fillOffset + 4096#64
      · have next := @ih (pages - filled.1) filled.2.nextEntry (Nat.sub_le _ _) (by
          simp only [Pmm.nextEntry,same]
          omega)
        rw [Nat.sub_sub_self (by omega)] at next
        simp only [if_pos done,next]
        simp only [Pmm.nextEntry,same]
      · have all := ends.resolve_right done
        obtain ⟨more,rfl⟩ : ∃ more, fuel = more + 1 := Nat.exists_eq_succ_of_ne_zero (by omega)
        simp only [if_neg done,all]
        exact pmmFillLoop_added boot pages more filled.2

/-- What the allocator goes through from boot on, as far as the cursor is concerned: refills, and anything that
leaves the cursor alone. -/
inductive CursorReach (boot : Boot) : Pmm → Prop where
  | start {s : Pmm} : s.fillEntry = 0 → s.fillOffset = 0#64 → CursorReach boot s
  | fill {s : Pmm} (n : Nat) : CursorReach boot s → CursorReach boot (pmmFill boot n s)
  | other {s next : Pmm} : CursorReach boot s → next.fillEntry = s.fillEntry → next.fillOffset = s.fillOffset →
      CursorReach boot next

/-- What a refill does from a cursor that stands well. -/
theorem pmmFill_refill (fits : ∀ e ∈ boot.memmap, e.limit ≤ 2^52)
    (cursor : CursorOk (boot.memmap.drop s.fillEntry) s.fillOffset) (n : Nat) :
    Refill boot (boot.memmap.drop s.fillEntry) n s (pmmFill boot n s) :=
  fillEntries_spec boot _ n s (fun e member _ => fits e (List.mem_of_mem_drop member)) cursor

theorem Refill.resumed (refill : Refill boot (boot.memmap.drop s.fillEntry) n s next) :
    (boot.memmap.drop s.fillEntry).drop (next.fillEntry - s.fillEntry) = boot.memmap.drop next.fillEntry := by
  rw [List.drop_drop,Nat.add_sub_cancel' refill.forward]

theorem CursorReach.cursorOk (fits : ∀ e ∈ boot.memmap, e.limit ≤ 2^52) (reach : CursorReach boot s) :
    CursorOk (boot.memmap.drop s.fillEntry) s.fillOffset := by
  induction reach with
  | start _ offset =>
    rw [offset]
    exact cursor_zero
  | fill n _ ih =>
    have refill := pmmFill_refill fits ih n
    rw [← refill.resumed]
    exact refill.cursor
  | other _ entry offset ih =>
    rw [entry,offset]
    exact ih

/-- Two refills are one, from every cursor; each ends, and adds the next frames or all that remain. -/
theorem pmm_fill_chunks (fits : ∀ e ∈ boot.memmap, e.limit ≤ 2^52) (reach : CursorReach boot s) (a b n : Nat) :
    pmmFill boot b (pmmFill boot a s) = pmmFill boot (a + b) s ∧
    (∃ fuel, pmmFillLoop boot n fuel 0 s = some (pmmFill boot n s)) ∧
    ∃ added, added.length = min n (untaken boot s).length ∧ added ++ untaken boot (pmmFill boot n s) = untaken boot s ∧
      Filled boot s (pmmFill boot n s) added := by
  have cursor := reach.cursorOk fits
  refine ⟨?_,⟨_,pmmFillLoop_spec boot (Nat.zero_le n) (Nat.lt_succ_self _)⟩,(untaken boot s).take n,?_,?_,?_⟩
  · have refill := pmmFill_refill fits cursor a
    have cut := fillEntries_add boot (boot.memmap.drop s.fillEntry) a b s
      (fun e member _ => fits e (List.mem_of_mem_drop member)) cursor
    change fillEntries boot ((boot.memmap.drop s.fillEntry).drop ((pmmFill boot a s).fillEntry - s.fillEntry)) b
      (pmmFill boot a s) = _ at cut
    rw [refill.resumed] at cut
    exact cut
  · exact List.length_take
  · have refill := pmmFill_refill fits cursor n
    have left := refill.left
    rw [refill.resumed] at left
    change untaken boot (pmmFill boot n s) = (untaken boot s).drop n at left
    rw [left]
    exact List.take_append_drop n _
  · exact (pmmFill_refill fits cursor n).pushed

/-- One page of the small map, then one and one more, or the two at once. -/
theorem pmm_fill_chunks_smallBoot : CursorReach smallBoot (pmmFill smallBoot 1 ⟨fun _ => 0#8,0#64,0,0#64⟩) ∧
    pmmFill smallBoot 1 (pmmFill smallBoot 1 (pmmFill smallBoot 1 ⟨fun _ => 0#8,0#64,0,0#64⟩)) =
      pmmFill smallBoot (1 + 1) (pmmFill smallBoot 1 ⟨fun _ => 0#8,0#64,0,0#64⟩) := by
  have reach : CursorReach smallBoot (pmmFill smallBoot 1 ⟨fun _ => 0#8,0#64,0,0#64⟩) := .fill 1 (.start rfl rfl)
  refine ⟨reach,(pmm_fill_chunks ?_ reach 1 1 2).1⟩
  simp [smallBoot,MemmapEntry.limit]

end Reddyos
