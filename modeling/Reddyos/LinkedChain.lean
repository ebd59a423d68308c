import Mathlib.Data.List.Basic

/-! Null-terminated chains of linked cells. `pointer` encodes a cell as the value
stored in a link, `link` reads the link of a cell, and `stop` is the null value. -/
namespace LinkedChain

def Chain (pointer link : β → α) (stop : α) : α → List β → Prop
  | head, [] => head = stop
  | head, cell :: rest =>
    head = pointer cell ∧ pointer cell ≠ stop ∧ Chain pointer link stop (link cell) rest

variable {α β : Type} {pointer link link' : β → α} {stop head : α}

@[simp] theorem chain_nil : Chain pointer link stop head [] ↔ head = stop := Iff.rfl

@[simp] theorem chain_cons : Chain pointer link stop head (cell :: rest) ↔
    head = pointer cell ∧ pointer cell ≠ stop ∧ Chain pointer link stop (link cell) rest := Iff.rfl

theorem Chain.frame (chain : Chain pointer link stop head cells)
    (same : ∀ cell ∈ cells, link' cell = link cell) : Chain pointer link' stop head cells := by
  induction cells generalizing head with
  | nil => exact chain
  | cons cell rest ih =>
    obtain ⟨here,live,tail⟩ := chain
    refine ⟨here,live,?_⟩
    rw [same cell (by simp)]
    exact ih tail (fun other member => same other (by simp [member]))

/-- Cells may be exchanged for others with the same pointer and link. -/
theorem Chain.map (chain : Chain pointer link stop head cells)
    (same : ∀ cell ∈ cells, pointer (f cell) = pointer cell ∧ link' (f cell) = link cell) :
    Chain pointer link' stop head (cells.map f) := by
  induction cells generalizing head with
  | nil => exact chain
  | cons cell rest ih =>
    obtain ⟨here,live,tail⟩ := chain
    obtain ⟨pointed,linked⟩ := same cell (by simp)
    refine ⟨here.trans pointed.symm,by rwa [pointed],?_⟩
    rw [linked]
    exact ih tail (fun other member => same other (by simp [member]))

/-- Pushing an unlisted cell whose link was set to the old head. -/
theorem Chain.push (chain : Chain pointer link stop head cells) (live : pointer cell ≠ stop)
    (linked : link' cell = head) (same : ∀ other ∈ cells, link' other = link other) :
    Chain pointer link' stop (pointer cell) (cell :: cells) :=
  ⟨rfl,live,linked ▸ chain.frame same⟩

theorem Chain.stop_iff (chain : Chain pointer link stop head cells) :
    head = stop ↔ cells = [] := by
  cases cells with
  | nil => simpa using chain
  | cons cell rest =>
    obtain ⟨here,live,_⟩ := chain
    simp [here,live]

/-- A head determines its chain when pointers determine cells. -/
theorem Chain.unique (injective : Function.Injective pointer)
    (first : Chain pointer link stop head cells) (second : Chain pointer link stop head cells') :
    cells = cells' := by
  induction cells generalizing head cells' with
  | nil => exact (second.stop_iff.mp first).symm
  | cons cell rest ih =>
    cases cells' with
    | nil => exact first.stop_iff.mp second
    | cons cell' rest' =>
      obtain ⟨here,_,tail⟩ := first
      obtain ⟨here',_,tail'⟩ := second
      have same : cell = cell' := injective (here.symm.trans here')
      subst cell'
      rw [ih tail tail']

/-- What follows a listed cell is the chain of the cells behind it. -/
theorem Chain.behind (chain : Chain pointer link stop head (front ++ cell :: rest)) :
    Chain pointer link stop (link cell) rest := by
  induction front generalizing head with
  | nil => exact chain.2.2
  | cons first front ih => exact ih chain.2.2

/-- Linking an unlisted cell behind the last one. -/
theorem Chain.snoc (chain : Chain pointer link stop head (cells ++ [last])) (live : pointer cell ≠ stop)
    (linked : link' last = pointer cell) (ends : link' cell = stop)
    (same : ∀ other ∈ cells, link' other = link other) :
    Chain pointer link' stop head (cells ++ [last] ++ [cell]) := by
  induction cells generalizing head with
  | nil => exact ⟨chain.1,chain.2.1,linked,live,ends⟩
  | cons first rest ih =>
    obtain ⟨here,alive,tail⟩ := chain
    refine ⟨here,alive,?_⟩
    rw [same first List.mem_cons_self]
    exact ih tail fun other member => same other (List.mem_cons_of_mem _ member)

structure Endless (pointer link : β → α) (stop : α) (head : α) (cells : List β) : Prop where
  live : ∀ cell ∈ cells, pointer cell ≠ stop
  start : ∃ cell ∈ cells, head = pointer cell
  onward : ∀ cell ∈ cells, ∃ next ∈ cells, link cell = pointer next

theorem Endless.no_chain (injective : Function.Injective pointer) (endless : Endless pointer link stop head cells) :
    ¬Chain pointer link stop head listed := by
  induction listed generalizing head with
  | nil =>
    intro ended
    obtain ⟨cell,member,here⟩ := endless.start
    exact endless.live cell member (here.symm.trans ended)
  | cons other rest ih =>
    rintro ⟨here',_,tail⟩
    obtain ⟨cell,member,here⟩ := endless.start
    have same : other = cell := injective (here'.symm.trans here)
    subst other
    exact ih ⟨endless.live,endless.onward cell member,endless.onward⟩ tail

theorem Endless.push (endless : Endless pointer link stop head cells) (live : pointer cell ≠ stop)
    (linked : link' cell = head) (same : ∀ other ∈ cells, other ≠ cell → link' other = link other) :
    Endless pointer link' stop (pointer cell) (cell :: cells) where
  live := List.forall_mem_cons.mpr ⟨live,endless.live⟩
  start := ⟨cell,List.mem_cons_self,rfl⟩
  onward := by
    intro other member
    by_cases here : other = cell
    · subst other
      obtain ⟨next,listed,start⟩ := endless.start
      exact ⟨next,List.mem_cons_of_mem _ listed,linked.trans start⟩
    · obtain ⟨next,listed,link⟩ := endless.onward other ((List.mem_cons.mp member).resolve_left here)
      exact ⟨next,List.mem_cons_of_mem _ listed,(same other ((List.mem_cons.mp member).resolve_left here) here).trans link⟩

theorem Chain.live (chain : Chain pointer link stop head cells) : ∀ cell ∈ cells, pointer cell ≠ stop := by
  induction cells generalizing head with
  | nil => exact nofun
  | cons cell rest ih =>
    obtain ⟨_,live,tail⟩ := chain
    exact List.forall_mem_cons.mpr ⟨live,ih tail⟩

theorem Chain.front (chain : Chain pointer link stop head cells) (member : cell ∈ cells) :
    ∃ front, (∀ other ∈ front, other ∈ cells ∧ other ≠ cell) ∧ (∃ first ∈ cell :: front, head = pointer first) ∧
      ∀ other ∈ front, ∃ next ∈ cell :: front, link other = pointer next := by
  induction cells generalizing head with
  | nil => cases member
  | cons first rest ih =>
    obtain ⟨here,_,tail⟩ := chain
    by_cases same : first = cell
    · subst first
      exact ⟨[],nofun,⟨cell,List.mem_cons_self,here⟩,nofun⟩
    · have later : cell ∈ rest := (List.mem_cons.mp member).resolve_left (Ne.symm same)
      obtain ⟨front,inside,⟨next,start,link⟩,onward⟩ := ih tail later
      have wider : ∀ c ∈ cell :: front, c ∈ cell :: first :: front := by
        intro c listed
        rcases List.mem_cons.mp listed with rfl | old
        · exact List.mem_cons_self
        · exact List.mem_cons_of_mem _ (List.mem_cons_of_mem _ old)
      refine ⟨first :: front,?_,⟨first,List.mem_cons_of_mem _ List.mem_cons_self,here⟩,?_⟩
      · refine List.forall_mem_cons.mpr ⟨⟨List.mem_cons_self,same⟩,?_⟩
        exact fun other listed => ⟨List.mem_cons_of_mem _ (inside other listed).1,(inside other listed).2⟩
      · refine List.forall_mem_cons.mpr ⟨⟨next,wider next start,link⟩,?_⟩
        intro other listed
        obtain ⟨next,start,link⟩ := onward other listed
        exact ⟨next,wider next start,link⟩

/-- Pushing a listed cell once more closes a cycle. -/
theorem Chain.cycle (chain : Chain pointer link stop head cells) (member : cell ∈ cells)
    (linked : link' cell = head) (same : ∀ other ∈ cells, other ≠ cell → link' other = link other) :
    ∃ front, (∀ other ∈ front, other ∈ cells) ∧ Endless pointer link' stop (pointer cell) front := by
  obtain ⟨front,inside,start,onward⟩ := chain.front member
  have within : ∀ other ∈ cell :: front, other ∈ cells :=
    List.forall_mem_cons.mpr ⟨member,fun other listed => (inside other listed).1⟩
  refine ⟨cell :: front,within,fun other listed => chain.live other (within other listed),
    ⟨cell,List.mem_cons_self,rfl⟩,?_⟩
  refine List.forall_mem_cons.mpr ⟨?_,?_⟩
  · obtain ⟨first,listed,here⟩ := start
    exact ⟨first,listed,linked.trans here⟩
  · intro other listed
    obtain ⟨next,here,link⟩ := onward other listed
    exact ⟨next,here,(same other (inside other listed).1 (inside other listed).2).trans link⟩

end LinkedChain
