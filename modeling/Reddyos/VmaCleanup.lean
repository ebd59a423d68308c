import Reddyos.PageFault

/-! `vma_cleanup` step by step, on records linked in memory. `page` still points to a record that was
unlinked and freed, and `prev` has no value before the first record that stays. -/
namespace Reddyos

open LinkedChain

/-- `vma_phys_page_t`. -/
structure VmaPhysRecord where
  start : U64
  phys : U64
  next : U64

/-- The loop of `vma_cleanup`: the kernel, the records by address, `vma->phys_pages`, `prev` (none before
it is assigned), `page`, and the records freed so far with the pages unmapped for them. -/
structure Cleanup where
  kernel : Kernel
  record : U64 → VmaPhysRecord
  physPages : U64
  prev : Option U64
  page : U64
  removed : List (U64 × U64)

def Cleanup.setNext (c : Cleanup) (page next : U64) : Cleanup :=
  { c with record := fun p => if p = page then { c.record p with next := next } else c.record p }

def InRange (vma : Area) (start : U64) : Prop := vma.start ≤ start ∧ start < vma.stop

instance (vma : Area) (start : U64) : Decidable (InRange vma start) := inferInstanceAs (Decidable (_ ∧ _))

def Cleanup.unlink (pml4 : U64) (c : Cleanup) : Except Stop Cleanup :=
  match c.prev with
  | none => throw .undefined
  | some prev =>
    let r := c.record c.page
    let kernel := { c.kernel with pmm := vmmUnmap pml4 r.start c.kernel.pmm }
    let unlinked := if prev ≠ 0#64 then c.setNext prev r.next else { c with physPages := r.next }
    return { unlinked with kernel := kfree c.page kernel, removed := c.removed ++ [(c.page,r.start)] }

def Cleanup.restart (c : Cleanup) : Except Stop Cleanup :=
  if c.page ≠ 0#64 then return c
  else
    match c.prev with
    | none => throw .undefined
    | some prev => return { c with page := if prev ≠ 0#64 then (c.record prev).next else c.physPages }

def Cleanup.step (pml4 : U64) (vma : Area) (c : Cleanup) : Except Stop Cleanup := do
  let r := c.record c.page
  let c ← if r.start < vma.start ∨ vma.stop ≤ r.start then c.unlink pml4
    else pure { c with prev := some c.page, page := r.next }
  c.restart

def Cleanup.run (pml4 : U64) (vma : Area) : Nat → Cleanup → Except Stop Cleanup
  | 0, c => if c.page = 0#64 then return c else throw .looping
  | fuel + 1, c =>
    if c.page = 0#64 then return c
    else do
      let c ← c.step pml4 vma
      c.run pml4 vma fuel

def Cleanup.start (kernel : Kernel) (record : U64 → VmaPhysRecord) (physPages : U64) : Cleanup :=
  ⟨kernel,record,physPages,none,physPages,[]⟩

structure RecordList (record : U64 → VmaPhysRecord) (head : U64) (pages : List VmaPhysPage) : Prop where
  chain : Chain VmaPhysPage.block (fun page => (record page.block).next) 0#64 head pages
  fields : ∀ page ∈ pages, (record page.block).start = page.start ∧ (record page.block).phys = page.phys

/-- The loop ends with the records in range left in their order, and every other one unmapped and freed
once. -/
def CleansUp (pml4 : U64) (vma : Area) (c : Cleanup) (pages : List VmaPhysPage) : Prop :=
  ∃ fuel next, c.run pml4 vma fuel = .ok next ∧
    RecordList next.record next.physPages (pages.filter fun page => InRange vma page.start) ∧
    next.removed = (pages.filter fun page => ¬InRange vma page.start).map fun page => (page.block,page.start)

variable {pml4 : U64} {vma : Area} {c next : Cleanup} {record : U64 → VmaPhysRecord} {pages : List VmaPhysPage}

theorem outside_iff (start : U64) : (start < vma.start ∨ vma.stop ≤ start) ↔ ¬InRange vma start := by
  rw [InRange,not_and_or,BitVec.not_le,BitVec.not_lt]

theorem RecordList.tail (list : RecordList record head (page :: rest)) :
    head = page.block ∧ head ≠ 0#64 ∧ RecordList record (record head).next rest := by
  obtain ⟨⟨rfl,live,chain⟩,fields⟩ := list
  exact ⟨rfl,live,chain,fun other member => fields other (by simp [member])⟩

/-- A record in range: the loop goes on behind it. -/
theorem Cleanup.step_inRange (inRange : InRange vma (c.record c.page).start) (live : c.page ≠ 0#64) :
    c.step pml4 vma = .ok { c with prev := some c.page, page := (c.record c.page).next } := by
  unfold step
  dsimp only
  rw [if_neg (by rw [outside_iff]; exact not_not.mpr inRange)]
  change restart { c with prev := some c.page, page := (c.record c.page).next } = _
  unfold restart
  dsimp only
  split <;> rfl

structure Cleanup.Stuck (vma : Area) (c : Cleanup) : Prop where
  live : c.page ≠ 0#64
  outside : ¬InRange vma (c.record c.page).start
  prev : ∃ prev, c.prev = some prev

/-- Unlinking a record does not get the loop past it. -/
theorem Cleanup.Stuck.step (pml4 : U64) (stuck : c.Stuck vma) : ∃ next, c.step pml4 vma = .ok next ∧ next.Stuck vma := by
  obtain ⟨live,outside,prev,assigned⟩ := stuck
  have unlinks : ∃ next, c.unlink pml4 = .ok next ∧ next.page = c.page ∧ next.prev = some prev ∧
      (next.record c.page).start = (c.record c.page).start := by
    unfold unlink
    rw [assigned]
    refine ⟨_,rfl,?_⟩
    by_cases first : prev ≠ 0#64
    · simp only [if_pos first,setNext]
      refine ⟨trivial,assigned,?_⟩
      split
      · rename_i same
        rw [same]
      · rfl
    · simp only [if_neg first]
      exact ⟨trivial,trivial,trivial⟩
  obtain ⟨next,unlinked,page,kept,start⟩ := unlinks
  refine ⟨next,?_,by rwa [page],by rwa [page,start],prev,kept⟩
  unfold Cleanup.step
  dsimp only
  rw [if_pos ((outside_iff _).mpr outside),unlinked]
  change next.restart = _
  unfold restart
  rw [if_pos (by rwa [page])]
  rfl

theorem Cleanup.Stuck.run (stuck : c.Stuck vma) (fuel : Nat) : c.run pml4 vma fuel = .error .looping := by
  induction fuel generalizing c with
  | zero => exact if_neg stuck.live
  | succ fuel ih =>
    obtain ⟨next,stepped,stuck'⟩ := stuck.step pml4
    unfold Cleanup.run
    rw [if_neg stuck.live,stepped]
    exact ih stuck'

structure Cleanup.At (c : Cleanup) (assigned : Bool) (rest : List VmaPhysPage) : Prop where
  list : RecordList c.record c.page rest
  prev : if assigned then ∃ prev, c.prev = some prev else c.prev = none

/-- `cleanupLoop` says what becomes of the loop, once there is enough fuel to tell. -/
theorem cleanupLoop_run (here : c.At assigned rest) (enough : rest.length < fuel) :
    (c.run pml4 vma fuel).map (fun _ => ()) = cleanupLoop vma assigned rest := by
  induction rest generalizing c assigned fuel with
  | nil =>
    have ended : c.page = 0#64 := here.list.chain
    cases fuel <;> exact congrArg _ (if_pos ended)
  | cons page rest ih =>
    obtain ⟨fuel,rfl⟩ := Nat.exists_eq_add_of_lt (Nat.zero_lt_of_lt enough)
    obtain ⟨same,live,tail⟩ := here.list.tail
    have start := (here.list.fields page (by simp)).1
    rw [← same] at start
    rw [Nat.zero_add] at enough ⊢
    unfold cleanupLoop
    by_cases inRange : InRange vma page.start
    · rw [if_neg (by rw [outside_iff]; exact not_not.mpr inRange)]
      unfold Cleanup.run
      rw [if_neg live,Cleanup.step_inRange (by rwa [start]) live]
      exact ih ⟨tail,_,rfl⟩ (by simpa using enough)
    · rw [if_pos ((outside_iff _).mpr inRange)]
      cases assigned with
      | true =>
        rw [Cleanup.Stuck.run ⟨live,by rwa [start],here.prev⟩]
        rfl
      | false =>
        unfold Cleanup.run
        rw [if_neg live]
        unfold Cleanup.step
        dsimp only
        rw [start,if_pos ((outside_iff _).mpr inRange)]
        unfold Cleanup.unlink
        rw [show c.prev = none from here.prev]
        rfl

theorem Cleanup.run_more (returns : c.run pml4 vma fuel = .ok next) (more : Nat) :
    c.run pml4 vma (fuel + more) = .ok next := by
  induction fuel generalizing c with
  | zero =>
    unfold Cleanup.run at returns
    split at returns
    · rename_i ended
      obtain rfl := Except.ok.inj returns
      cases more <;> exact if_pos ended
    · cases returns
  | succ fuel ih =>
    rw [Nat.add_right_comm]
    unfold Cleanup.run at returns ⊢
    split at returns
    · rename_i ended
      rw [if_pos ended]
      exact returns
    · rename_i live
      obtain ⟨middle,stepped,returns⟩ := ok_of_bind returns
      rw [if_neg live,stepped]
      exact ih returns

/-- Nothing is changed when every record is in range. -/
theorem Cleanup.run_inRange (pml4 : U64) (list : RecordList c.record c.page rest)
    (all : ∀ page ∈ rest, InRange vma page.start) :
    ∃ prev, c.run pml4 vma rest.length = .ok { c with prev := prev, page := 0#64 } := by
  induction rest generalizing c with
  | nil =>
    have ended : c.page = 0#64 := list.chain
    refine ⟨c.prev,(if_pos ended).trans ?_⟩
    rw [← ended]
    rfl
  | cons page rest ih =>
    obtain ⟨same,live,tail⟩ := list.tail
    have start := (list.fields page (by simp)).1
    rw [← same] at start
    have inRange := all page (by simp)
    rw [List.length_cons]
    unfold Cleanup.run
    rw [if_neg live,Cleanup.step_inRange (by rwa [start]) live]
    exact ih (c := { c with prev := some c.page, page := (c.record c.page).next }) tail
      fun other member => all other (by simp [member])

theorem cleanupLoop_iff : cleanupLoop vma assigned pages = .ok () ↔ ∀ page ∈ pages, InRange vma page.start := by
  induction pages generalizing assigned with
  | nil => simp [cleanupLoop,pure,Except.pure]
  | cons page rest ih =>
    unfold cleanupLoop
    by_cases inRange : InRange vma page.start
    · rw [if_neg (by rw [outside_iff]; exact not_not.mpr inRange),ih]
      simp [inRange]
    · rw [if_pos ((outside_iff _).mpr inRange)]
      simp [inRange,throw,throwThe,MonadExceptOf.throw]

theorem CleansUp.inRange (list : RecordList record head pages)
    (cleaned : CleansUp pml4 vma (.start kernel record head) pages) : ∀ page ∈ pages, InRange vma page.start := by
  obtain ⟨fuel,next,returns,_⟩ := cleaned
  have begun : (Cleanup.start kernel record head).At false pages := ⟨list,rfl⟩
  have more : ((Cleanup.start kernel record head).run pml4 vma (fuel + (pages.length + 1))).map (fun _ => ()) =
      cleanupLoop vma false pages := cleanupLoop_run begun (by omega)
  rw [Cleanup.run_more returns] at more
  exact cleanupLoop_iff.mp more.symm

/-- Cleaning up works exactly when there is nothing to clean up: the loop never gets past a record that it
has unlinked. -/
theorem cleans_up_iff (pml4 : U64) (vma : Area) (kernel : Kernel) (list : RecordList record head pages) :
    CleansUp pml4 vma (.start kernel record head) pages ↔ ∀ page ∈ pages, InRange vma page.start := by
  refine ⟨fun cleaned => cleaned.inRange list,fun all => ?_⟩
  have started : RecordList (Cleanup.start kernel record head).record (Cleanup.start kernel record head).page pages := list
  obtain ⟨prev,returns⟩ := Cleanup.run_inRange pml4 started all
  refine ⟨_,_,returns,?_,?_⟩
  · rw [List.filter_eq_self.mpr fun page member => decide_eq_true (all page member)]
    exact list
  · rw [List.filter_eq_nil_iff.mpr fun page member => by simpa using all page member]
    rfl

def twoRecords : List VmaPhysPage := [⟨0x10000000#64,0x108000#64,0x1000#64⟩,⟨0x10001000#64,0x109000#64,0x2000#64⟩]

def twoRecordsAt (p : U64) : VmaPhysRecord :=
  if p = 0x1000#64 then ⟨0x10000000#64,0x108000#64,0x2000#64⟩ else ⟨0x10001000#64,0x109000#64,0#64⟩

theorem twoRecords_list : RecordList twoRecordsAt 0x1000#64 twoRecords :=
  ⟨⟨rfl,by decide,rfl,by decide,rfl⟩,by decide⟩

theorem cleans_up_two : CleansUp 0x8000#64 { Area.zero with start := 0x10000000#64, stop := 0x10002000#64 }
      (.start fbStart twoRecordsAt 0x1000#64) twoRecords :=
  (cleans_up_iff _ _ _ twoRecords_list).mpr (by decide)

/-- The second page was unmapped by trimming the area. -/
theorem cleanup_stuck : RecordList twoRecordsAt 0x1000#64 twoRecords ∧
    ¬CleansUp 0x8000#64 { Area.zero with start := 0x10000000#64, stop := 0x10001000#64 }
      (.start fbStart twoRecordsAt 0x1000#64) twoRecords :=
  ⟨twoRecords_list,fun cleaned => absurd (cleaned.inRange twoRecords_list) (by decide)⟩

end Reddyos
