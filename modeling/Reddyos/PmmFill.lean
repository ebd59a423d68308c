import Reddyos.PmmFrames

/-! A refill pushes the next frames of the enumeration, in order, and leaves the
cursor at the rest. -/
namespace Reddyos

open ByteMemory LinkedChain

def pushAll (boot : Boot) : List U64 → Pmm → Pmm
  | [], s => s
  | page :: rest, s => pushAll boot rest (pushNode boot page s)

structure Filled (boot : Boot) (s next : Pmm) (pages : List U64) : Prop where
  mem : next.mem = (pushAll boot pages s).mem
  head : next.freelistHead = (pushAll boot pages s).freelistHead

theorem pushAll_congr (boot : Boot) (pages : List U64) (mem : s.mem = t.mem) (head : s.freelistHead = t.freelistHead) :
    (pushAll boot pages s).mem = (pushAll boot pages t).mem ∧
    (pushAll boot pages s).freelistHead = (pushAll boot pages t).freelistHead := by
  induction pages generalizing s t with
  | nil => exact ⟨mem,head⟩
  | cons page rest ih => exact ih (by simp [pushNode,mem,head]) rfl

theorem pushAll_append :
    pushAll boot (first ++ second) s = pushAll boot second (pushAll boot first s) := by
  induction first generalizing s with
  | nil => rfl
  | cons page rest ih => exact ih

theorem Filled.refl (mem : next.mem = s.mem) (head : next.freelistHead = s.freelistHead) :
    Filled boot s next [] := ⟨mem,head⟩

theorem Filled.trans (first : Filled boot s middle pages) (second : Filled boot middle next more) :
    Filled boot s next (pages ++ more) := by
  obtain ⟨mem,head⟩ := pushAll_congr boot more first.mem first.head
  rw [← pushAll_append] at mem head
  exact ⟨second.mem.trans mem,second.head.trans head⟩

theorem fillPages_entry (boot : Boot) (e : MemmapEntry) (stop : U64) (pages : Nat) (s : Pmm) :
    (fillPages boot e stop pages s).2.fillEntry = s.fillEntry := by
  induction pages generalizing s with
  | zero => rfl
  | succ pages ih =>
    unfold fillPages
    split
    · exact ih _
    · rfl

theorem startEntry_entry (e : MemmapEntry) (s : Pmm) : (startEntry e s).fillEntry = s.fillEntry := by
  unfold startEntry
  split <;> rfl

/-- The inner loop: from frame `c` of the entry it takes up to `pages` frames. -/
theorem fillPages_spec (boot : Boot) (e : MemmapEntry) (fits : e.limit ≤ 2^52) (pages c : Nat)
    (s : Pmm) (start : e.base.toNat + s.fillOffset.toNat = 4096 * c) (inside : c ≤ endFrame e) :
    let result := fillPages boot e (alignedEnd e) pages s
    let count := min pages (endFrame e - c)
    result.1 = pages - count ∧ Filled boot s result.2 (framesFrom c (c + count)) ∧
      e.base.toNat + result.2.fillOffset.toNat = 4096 * (c + count) := by
  have limit : 4096 * endFrame e ≤ 2^52 := by simp only [endFrame]; omega
  have stop := toNat_alignedEnd fits
  induction pages generalizing c s with
  | zero =>
    have none : framesFrom c (c + min 0 (endFrame e - c)) = [] := framesFrom_empty (by omega)
    simp only [fillPages,none]
    exact ⟨by omega,.refl rfl rfl,by omega⟩
  | succ pages ih =>
    have here : (e.base + s.fillOffset).toNat = 4096 * c := by
      rw [BitVec.toNat_add,start]; omega
    have beyond : (e.base + s.fillOffset + 4096#64).toNat = 4096 * (c + 1) := by
      rw [BitVec.toNat_add,here]; simp; omega
    have shifted : (s.fillOffset + 4096#64).toNat = s.fillOffset.toNat + 4096 := by
      rw [BitVec.toNat_add]; simp; omega
    have guard : e.base + s.fillOffset + 4096#64 ≤ alignedEnd e ↔ c < endFrame e := by
      rw [BitVec.le_def,beyond,stop]; omega
    have page : e.base + s.fillOffset = frameAddr c := by
      apply BitVec.eq_of_toNat_eq
      rw [here,toNat_frameAddr (by omega)]
    by_cases more : c < endFrame e
    · obtain ⟨left,filled,offset⟩ := ih (c + 1) (takePage boot e s)
        (by simp only [takePage,shifted]; omega) more
      have count : c + 1 + min pages (endFrame e - (c + 1)) =
          c + min (pages + 1) (endFrame e - c) := by omega
      simp only [fillPages,guard.mpr more,if_true]
      refine ⟨by rw [left]; omega,?_,by rw [offset,count]⟩
      rw [framesFrom_cons (by omega)]
      have one : Filled boot s (takePage boot e s) [frameAddr c] := by
        rw [takePage,page]; exact ⟨rfl,rfl⟩
      rw [count] at filled
      exact one.trans filled
    · have none : framesFrom c (c + min (pages + 1) (endFrame e - c)) = [] :=
        framesFrom_empty (by omega)
      simp only [fillPages,guard,more,if_false,none]
      exact ⟨by omega,.refl rfl rfl,by omega⟩

def remaining : List MemmapEntry → U64 → List U64
  | [], _ => []
  | e :: rest, offset =>
    (if offset = 0#64 then entryFrames e
      else framesFrom ((e.base.toNat + offset.toNat) / 4096) (endFrame e)) ++
    rest.flatMap entryFrames

def untaken (boot : Boot) (s : Pmm) : List U64 :=
  remaining (boot.memmap.drop s.fillEntry) s.fillOffset

/-- A started entry is usable and its cursor stands at one of its frames. -/
def CursorOk (entries : List MemmapEntry) (offset : U64) : Prop :=
  offset ≠ 0#64 → ∃ e rest c, entries = e :: rest ∧ Usable e ∧
    e.base.toNat + offset.toNat = 4096 * c ∧ firstFrame e ≤ c ∧ c < endFrame e

theorem remaining_zero : remaining entries 0#64 = entries.flatMap entryFrames := by
  cases entries <;> simp [remaining]

theorem cursor_zero : CursorOk entries 0#64 := fun started => absurd rfl started

/-- What a refill leaves, relative to the entries it started from. -/
structure Refill (boot : Boot) (entries : List MemmapEntry) (pages : Nat) (s next : Pmm) :
    Prop where
  forward : s.fillEntry ≤ next.fillEntry
  pushed : Filled boot s next ((remaining entries s.fillOffset).take pages)
  left : remaining (entries.drop (next.fillEntry - s.fillEntry)) next.fillOffset =
    (remaining entries s.fillOffset).drop pages
  cursor : CursorOk (entries.drop (next.fillEntry - s.fillEntry)) next.fillOffset

/-- Skipping an entry after taking `first` of it. -/
theorem Refill.skip (stepped : Refill boot rest more middle.nextEntry next)
    (entry : middle.fillEntry = s.fillEntry) (filled : Filled boot s middle first)
    (all : remaining (e :: rest) s.fillOffset = first ++ rest.flatMap entryFrames)
    (count : pages = first.length + more) : Refill boot (e :: rest) pages s next := by
  have forward : s.fillEntry + 1 ≤ next.fillEntry := by
    have := stepped.forward
    simp only [Pmm.nextEntry,entry] at this
    exact this
  have index : next.fillEntry - s.fillEntry =
      next.fillEntry - middle.nextEntry.fillEntry + 1 := by
    simp only [Pmm.nextEntry,entry]; omega
  have fresh : remaining rest middle.nextEntry.fillOffset = rest.flatMap entryFrames :=
    remaining_zero
  have moved : Filled boot middle middle.nextEntry [] := .refl rfl rfl
  have pushed := stepped.pushed
  have tail := stepped.left
  rw [fresh] at pushed tail
  refine ⟨by omega,?_,?_,?_⟩
  · rw [all,count,List.take_length_add_append]
    exact filled.trans (moved.trans pushed)
  · rw [index,List.drop_succ_cons,all,count,List.drop_length_add_append]
    exact tail
  · rw [index,List.drop_succ_cons]
    exact stepped.cursor

/-- Starting an entry puts the cursor at the frame `remaining` begins with. -/
theorem startEntry_spec (usable : Usable e) (limit : e.limit ≤ 2^52)
    (nonempty : firstFrame e < endFrame e) (cursor : CursorOk (e :: rest) s.fillOffset) :
    ∃ c, e.base.toNat + (startEntry e s).fillOffset.toNat = 4096 * c ∧
      firstFrame e ≤ c ∧ c < endFrame e ∧
      remaining (e :: rest) s.fillOffset =
        framesFrom c (endFrame e) ++ rest.flatMap entryFrames := by
  by_cases fresh : s.fillOffset = 0#64
  · refine ⟨firstFrame e,?_,Nat.le_refl _,nonempty,?_⟩
    · have start := toNat_alignedStart limit
      have low : e.base.toNat ≤ 4096 * firstFrame e := by simp only [firstFrame]; omega
      have := e.base.isLt
      simp only [startEntry,fresh,if_true,BitVec.toNat_sub,start]
      simp only [endFrame] at nonempty
      omega
    · simp [remaining,fresh,entryFrames,usable]
  · obtain ⟨e',_,c,same,_,position,low,high⟩ := cursor fresh
    obtain ⟨rfl,rfl⟩ := List.cons_eq_cons.mp same
    refine ⟨c,by simpa only [startEntry,fresh,if_false] using position,low,high,?_⟩
    simp only [remaining,fresh,if_false,position]
    rw [Nat.mul_div_cancel_left c (by decide)]

/-- An entry that is skipped was not started: nothing of it remains. -/
theorem remaining_skipped (cursor : CursorOk (e :: rest) offset) (skipped : Usable e → endFrame e ≤ firstFrame e) :
    remaining (e :: rest) offset = [] ++ rest.flatMap entryFrames := by
  have unstarted : offset = 0#64 := by
    by_contra started
    obtain ⟨e',_,c,same,usable,_,low,high⟩ := cursor started
    obtain ⟨rfl,rfl⟩ := List.cons_eq_cons.mp same
    have := skipped usable
    omega
  rw [unstarted,remaining_zero,List.flatMap_cons,entryFrames]
  split
  · rename_i usable
    rw [framesFrom_empty (skipped usable)]
  · rfl

structure FillRound (boot : Boot) (e : MemmapEntry) (pages c : Nat) (s : Pmm) (result : Nat × Pmm) : Prop where
  left : result.1 = pages - min pages (endFrame e - c)
  pushed : Filled boot s result.2 (framesFrom c (c + min pages (endFrame e - c)))
  entry : result.2.fillEntry = s.fillEntry
  offset : e.base.toNat + result.2.fillOffset.toNat = 4096 * (c + min pages (endFrame e - c))

theorem fillPages_round (boot : Boot) (limit : e.limit ≤ 2^52) (pages : Nat) (low : c < endFrame e)
    (start : e.base.toNat + (startEntry e s).fillOffset.toNat = 4096 * c) :
    FillRound boot e pages c s (fillPages boot e (alignedEnd e) pages (startEntry e s)) := by
  obtain ⟨left,filled,offset⟩ := fillPages_spec boot e limit pages c (startEntry e s) start (Nat.le_of_lt low)
  have here : Filled boot s (startEntry e s) [] := by
    apply Filled.refl <;> (unfold startEntry; split <;> rfl)
  exact ⟨left,here.trans filled,(fillPages_entry _ _ _ _ _).trans (startEntry_entry e s),offset⟩

/-- The test behind a round sees whether the entry is used up. -/
theorem FillRound.used_up (round : FillRound boot e pages c s result) (limit : e.limit ≤ 2^52) (low : c < endFrame e) :
    alignedEnd e < e.base + result.2.fillOffset + 4096#64 ↔ endFrame e - c ≤ pages := by
  have ends := toNat_alignedEnd limit
  have bound : 4096 * endFrame e ≤ 2^52 := by simp only [endFrame]; omega
  have sum : (e.base + result.2.fillOffset).toNat = 4096 * (c + min pages (endFrame e - c)) := by
    rw [BitVec.toNat_add,round.offset]; omega
  rw [BitVec.lt_def,ends,BitVec.toNat_add,sum]
  simp
  omega

/-- A round that added a page leaves the entry started. -/
theorem FillRound.started (round : FillRound boot e pages c s result) (low : firstFrame e ≤ c) (high : c < endFrame e)
    (positive : pages ≠ 0) : result.2.fillOffset ≠ 0#64 := by
  have offset := round.offset
  have base : e.base.toNat ≤ 4096 * firstFrame e := by simp only [firstFrame]; omega
  intro zero
  rw [zero] at offset
  simp at offset
  omega

/-- A round that does not use up the entry takes all its pages from it. -/
theorem FillRound.stops (round : FillRound boot e pages c s result) (usable : Usable e) (low : firstFrame e ≤ c)
    (positive : pages ≠ 0) (short : pages < endFrame e - c)
    (all : remaining (e :: rest) s.fillOffset = framesFrom c (endFrame e) ++ rest.flatMap entryFrames) :
    Refill boot (e :: rest) pages s result.2 := by
  have started := round.started low (by omega) positive
  obtain ⟨_,pushed,entry,offset⟩ := round
  have taken : min pages (endFrame e - c) = pages := by omega
  rw [taken] at pushed offset
  have index : result.2.fillEntry - s.fillEntry = 0 := by omega
  refine ⟨by rw [entry],?_,?_,?_⟩
  · rw [all,List.take_append_of_le_length (by simp; omega),take_framesFrom,taken]
    exact pushed
  · rw [all,List.drop_append_of_le_length (by simp; omega),drop_framesFrom,index]
    simp only [List.drop_zero,remaining,started,if_false,offset]
    rw [Nat.mul_div_cancel_left _ (by decide),taken]
  · intro _
    exact ⟨e,rest,c + pages,by rw [index]; rfl,usable,offset,by omega,by omega⟩

def Skipped (e : MemmapEntry) : Prop := e.type ≠ limineMemmapUsable ∨ alignedEnd e ≤ alignedStart e

theorem skipped_iff (fits : Usable e → e.limit ≤ 2^52) : Skipped e ↔ (Usable e → endFrame e ≤ firstFrame e) := by
  refine imp_iff_not_or.symm.trans (imp_congr_right fun usable => ?_)
  have limit := fits usable
  rw [BitVec.le_def,toNat_alignedStart limit,toNat_alignedEnd limit]
  omega

theorem not_skipped (fits : Usable e → e.limit ≤ 2^52) (taken : ¬Skipped e) : Usable e ∧ firstFrame e < endFrame e := by
  rw [skipped_iff fits,Classical.not_imp,Nat.not_le] at taken
  exact taken

theorem fillEntries_zero (boot : Boot) (entries : List MemmapEntry) (s : Pmm) : fillEntries boot entries 0 s = s := by
  cases entries with
  | nil => rfl
  | cons e rest => exact if_pos rfl

theorem fillEntries_skip (skipped : Skipped e) (positive : pages ≠ 0) :
    fillEntries boot (e :: rest) pages s = fillEntries boot rest pages s.nextEntry := by
  rw [fillEntries,if_neg positive]
  rcases skipped with unusable | empty
  · exact if_pos unusable
  · rw [if_pos empty,ite_self]

theorem fillEntries_take (taken : ¬Skipped e) (positive : pages ≠ 0) :
    fillEntries boot (e :: rest) pages s =
      let filled := fillPages boot e (alignedEnd e) pages (startEntry e s)
      if alignedEnd e < e.base + filled.2.fillOffset + 4096#64 then fillEntries boot rest filled.1 filled.2.nextEntry
      else filled.2 := by
  obtain ⟨usable,some'⟩ := not_or.mp taken
  rw [fillEntries,if_neg positive,if_neg usable,if_neg some']

theorem fillEntries_spec (boot : Boot) (entries : List MemmapEntry) (pages : Nat) (s : Pmm)
    (fits : ∀ e ∈ entries, Usable e → e.limit ≤ 2^52) (cursor : CursorOk entries s.fillOffset) :
    Refill boot entries pages s (fillEntries boot entries pages s) := by
  induction entries generalizing pages s with
  | nil =>
    have none : remaining [] s.fillOffset = [] := rfl
    exact ⟨Nat.le_refl _,by simpa [none] using .refl rfl rfl,by simp [remaining],
      by simpa [fillEntries] using cursor⟩
  | cons e rest ih =>
    have later := fun pages s => ih pages s (fun e member => fits e (by simp [member]))
    have fits := fits e (by simp)
    by_cases zero : pages = 0
    · subst pages
      rw [fillEntries_zero]
      exact ⟨Nat.le_refl _,by simpa using .refl rfl rfl,by simp,by simpa using cursor⟩
    by_cases skipped : Skipped e
    · rw [fillEntries_skip skipped zero]
      have all := remaining_skipped cursor ((skipped_iff fits).mp skipped)
      exact (later pages s.nextEntry cursor_zero).skip rfl (.refl rfl rfl) all (by simp)
    rw [fillEntries_take skipped zero]
    obtain ⟨usable,nonempty⟩ := not_skipped fits skipped
    have limit := fits usable
    obtain ⟨c,start,low,high,all⟩ := startEntry_spec usable limit nonempty cursor
    have round := fillPages_round boot limit pages high start
    generalize fillPages boot e (alignedEnd e) pages (startEntry e s) = result at *
    have guard := round.used_up limit high
    dsimp only
    split
    · rename_i done
      have whole := guard.mp done
      have count : c + min pages (endFrame e - c) = endFrame e := by omega
      have pushed := round.pushed
      rw [count] at pushed
      apply (later result.1 result.2.nextEntry cursor_zero).skip round.entry pushed all
      simp only [length_framesFrom,round.left]
      omega
    · rename_i more
      exact round.stops usable low zero (Nat.lt_of_not_le (mt guard.mpr more)) all

end Reddyos
